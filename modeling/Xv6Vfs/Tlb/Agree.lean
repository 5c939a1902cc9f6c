import Xv6Vfs.Tlb.Refill

/-! The refill handler compared with `walk`. -/
namespace Xv6Vfs.Tlb
open Xv6Vfs.Vm Xv6Vfs.Vm.Phys Xv6Vfs.Radix List Option Nat

variable {va : Nat}

section Blocks

/-- The table that an entry of a directory points to. -/
def next (w : Nat) : Option Nat := if w &&& 1 = 0 then none else some (addImm w (-1))

/-- The lowest table on the way to the faulting address. -/
def Cpu.lowest (s : Cpu) : Option Nat :=
  (next (s.dir 3 (s.read .pgd))).bind fun p => (next (s.dir 2 p)).bind fun p => next (s.dir 1 p)

/-- The state at `ertn`. -/
def Cpu.filled (s : Cpu) (elo0 elo1 : Nat) (path : List Label) : Cpu :=
  { s with t0 := s.tlbrsave, tlbrelo0 := elo0, tlbrelo1 := elo1, path := path,
           tlb := some ⟨s.tlbrehi >>> 13, s.tlbrehi &&& 0x3F, elo0, elo1⟩ }

/-- The entries that the walk finds; none if a directory is missing. -/
def Cpu.pair (s : Cpu) : Nat × Nat := (s.lowest.map fun p => (s.pte false p, s.pte true p)).getD (0, 0)

variable (n : Nat) (is : List Instr) (s : Cpu)

theorem exec_invalid : exec (n + 6) invalid s = some (s.filled 0 0 (.invalid :: s.path)) := rfl

theorem exec_kernBad : exec (n + 8) kernBad s =
    some ({ s with t1 := s.ksave2 }.filled 0 0 (.invalid :: .kernBad :: s.path)) := rfl

theorem exec_root : exec (n + 1) (.csrrd .t0 .pgd :: is) s = exec n is { s with t0 := s.read .pgd } := rfl

theorem exec_down (k : Nat) : exec (n + 2) (.lddir .t0 .t0 k :: .addi .t0 .t0 (-1) :: is) s =
    exec n is { s with t0 := addImm (s.dir k s.t0) (-1) } := rfl

theorem exec_test (k : Nat) :
    exec (n + 3) (.lddir .t0 .t0 k :: .andi .t0 .t0 1 :: .beqz .t0 .invalid :: is) s =
      if s.dir k s.t0 &&& 1 = 0 then exec n invalid { s with t0 := s.dir k s.t0 &&& 1 }
      else exec n is { s with t0 := s.dir k s.t0 &&& 1 } := rfl

theorem exec_leaf : exec (n + 5) [.ldpte .t0 false, .ldpte .t0 true, .tlbfill, .csrrd .t0 .tlbrsave, .ertn] s =
    some (s.filled (s.pte false s.t0) (s.pte true s.t0) s.path) := rfl

/-- The walk does not depend on `$t0`. -/
theorem dir_with (x k base : Nat) (path : List Label) :
    { s with t0 := x, path := path }.dir k base = s.dir k base := rfl

theorem pte_with (x base : Nat) (odd : Bool) (path : List Label) :
    { s with t0 := x, path := path }.pte odd base = s.pte odd base := rfl

theorem pgd_with (x : Nat) (path : List Label) : { s with t0 := x, path := path }.read .pgd = s.read .pgd := rfl

theorem filled_with (x e0 e1 : Nat) (path path' : List Label) :
    { s with t0 := x, path := path }.filled e0 e1 path' = s.filled e0 e1 path' := rfl

theorem exec_refillOk : ∃ path, .refillOk ∈ path ∧
    exec (n + 35) refillOk s = some (s.filled s.pair.1 s.pair.2 path) := by
  have hmem : ∀ l : Label, .refillOk ∈ l :: .refillOk :: s.path := fun l => mem_cons_of_mem l mem_cons_self
  have hlabel : exec (n + 35) refillOk s = exec (n + 34) refillOk.tail { s with path := .refillOk :: s.path } := rfl
  rw [hlabel, refillOk, tail_cons]
  simp only [exec_root, exec_test, exec_down, exec_leaf, exec_invalid, dir_with, pte_with, pgd_with, filled_with,
    Cpu.pair, Cpu.lowest, next]
  by_cases h3 : s.dir 3 (s.read .pgd) &&& 1 = 0
  · refine ⟨_, hmem .invalid, ?_⟩
    simp only [h3, if_true, bind_none, map_none, getD_none]
  · simp only [h3, if_false, bind_some]
    by_cases h2 : s.dir 2 (addImm (s.dir 3 (s.read .pgd)) (-1)) &&& 1 = 0
    · refine ⟨_, hmem .invalid, ?_⟩
      simp only [h2, if_true, bind_none, map_none, getD_none]
    · simp only [h2, if_false, bind_some]
      by_cases h1 : s.dir 1 (addImm (s.dir 2 (addImm (s.dir 3 (s.read .pgd)) (-1))) (-1)) &&& 1 = 0
      · refine ⟨_, hmem .invalid, ?_⟩
        simp only [h1, if_true, map_none, getD_none]
      · refine ⟨.refillOk :: s.path, mem_cons_self, ?_⟩
        simp only [h1, if_false, map_some, getD_some]

/-- `TLBREHI` with the page size. -/
def Cpu.pageSize (s : Cpu) : Nat := s.tlbrehi >>> 6 <<< 6 % 2 ^ 64 ||| 12

theorem exec_entry : exec (n + 11) tlbRefillEntry s =
    if signed s.tlbrbadv < signed 0 then
      exec (n + 3) chkKern { s with t0 := s.tlbrbadv, tlbrsave := s.t0, tlbrehi := s.pageSize }
    else if s.tlbrbadv >>> 38 ≠ 0 then
      exec (n + 1) invalid { s with t0 := s.tlbrbadv >>> 38, tlbrsave := s.t0, tlbrehi := s.pageSize }
    else exec n refillOk { s with t0 := s.tlbrbadv >>> 38, tlbrsave := s.t0, tlbrehi := s.pageSize } := rfl

theorem exec_window (lo hi : Nat) :
    exec (n + 4) (.li .t1 lo :: .bltu .t0 .t1 .kernBad :: .li .t1 hi :: .bgeu .t0 .t1 .kernBad :: is) s =
      if s.t0 < lo then exec (n + 2) kernBad { s with t1 := lo }
      else if hi ≤ s.t0 then exec n kernBad { s with t1 := hi }
      else exec n is { s with t1 := hi } := rfl

theorem exec_chkKern : exec (n + 7) chkKern s =
    if s.t0 < kstackRegionBottom then
      exec (n + 3) kernBad { s with t1 := kstackRegionBottom, ksave2 := s.t1, path := .chkKern :: s.path }
    else if kstackTop ≤ s.t0 then
      exec (n + 1) kernBad { s with t1 := kstackTop, ksave2 := s.t1, path := .chkKern :: s.path }
    else exec n refillOk { s with ksave2 := s.t1, path := .chkKern :: s.path } :=
  exec_window (n + 1) (.csrrd .t1 .ksave2 :: refillOk)
    { s with t1 := s.ksave2, ksave2 := s.t1, path := .chkKern :: s.path } _ _

end Blocks

theorem signed_neg {x : Nat} (h : x < 2 ^ 64) : signed x < signed 0 ↔ 2 ^ 63 ≤ x := by
  unfold signed
  split <;> simp <;> omega

theorem accepted_iff : loongarch.valid va = true ↔
    va >>> 38 = 0 ∨ kstackRegionBottom ≤ va ∧ va < kstackTop := by
  rw [shiftRight_eq_div_pow]
  show decide _ = true ↔ _
  rw [decide_eq_true_eq]
  simp only [maxva]
  omega

/-- The walking path is taken for the accepted addresses; the registers are restored. -/
theorem exec_tlbRefillEntry (s : Cpu) (hva : s.tlbrbadv < 2 ^ 64) (hpath : s.path = []) :
    ∃ s', exec 64 tlbRefillEntry s = some s' ∧ s'.t0 = s.t0 ∧ s'.t1 = s.t1 ∧
      (.refillOk ∈ s'.path ↔ loongarch.valid s.tlbrbadv = true) ∧
      s'.tlb = some ⟨s.pageSize >>> 13, s.pageSize &&& 0x3F,
        if loongarch.valid s.tlbrbadv then s.pair.1 else 0, if loongarch.valid s.tlbrbadv then s.pair.2 else 0⟩ := by
  have hentry := exec_entry 53 s
  rw [hentry]
  by_cases hneg : signed s.tlbrbadv < signed 0
  · have hhigh := (signed_neg hva).mp hneg
    rw [if_pos hneg, exec_chkKern 49]
    by_cases hin : kstackRegionBottom ≤ s.tlbrbadv ∧ s.tlbrbadv < kstackTop
    · have hvalid : loongarch.valid s.tlbrbadv = true := accepted_iff.mpr (.inr hin)
      rw [if_neg (Nat.not_lt.mpr hin.1), if_neg (Nat.not_le.mpr hin.2)]
      obtain ⟨path, hp, hrun⟩ := exec_refillOk 14
        { s with t0 := s.tlbrbadv, tlbrsave := s.t0, tlbrehi := s.pageSize, ksave2 := s.t1, path := .chkKern :: s.path }
      refine ⟨_, hrun, rfl, rfl, iff_of_true hp hvalid, ?_⟩
      rw [if_pos hvalid, if_pos hvalid]
      rfl
    · have hvalid : ¬ loongarch.valid s.tlbrbadv = true := fun h => by
        have := accepted_iff.mp h
        rw [shiftRight_eq_div_pow] at this
        omega
      have hout : ¬ .refillOk ∈ .invalid :: .kernBad :: .chkKern :: s.path := by
        rw [hpath]
        decide
      rw [if_neg hvalid, if_neg hvalid]
      by_cases hlow : s.tlbrbadv < kstackRegionBottom
      · rw [if_pos hlow]
        exact ⟨_, exec_kernBad 44 _, rfl, rfl, iff_of_false hout hvalid, rfl⟩
      · have htop : kstackTop ≤ s.tlbrbadv := by omega
        rw [if_neg hlow, if_pos htop]
        exact ⟨_, exec_kernBad 42 _, rfl, rfl, iff_of_false hout hvalid, rfl⟩
  · have hlow : s.tlbrbadv < 2 ^ 63 := Nat.not_le.mp fun h => hneg ((signed_neg hva).mpr h)
    rw [if_neg hneg]
    by_cases hmax : s.tlbrbadv >>> 38 = 0
    · have hvalid : loongarch.valid s.tlbrbadv = true := accepted_iff.mpr (.inl hmax)
      rw [if_neg (not_not.mpr hmax)]
      obtain ⟨path, hp, hrun⟩ := exec_refillOk 18
        { s with t0 := s.tlbrbadv >>> 38, tlbrsave := s.t0, tlbrehi := s.pageSize }
      refine ⟨_, hrun, rfl, rfl, iff_of_true hp hvalid, ?_⟩
      rw [if_pos hvalid, if_pos hvalid]
      rfl
    · have hvalid : ¬ loongarch.valid s.tlbrbadv = true := fun h => by
        have hk := (accepted_iff.mp h).resolve_left hmax
        simp only [kstackRegionBottom, kstackTop, pgsize] at hk
        omega
      have hout : ¬ .refillOk ∈ .invalid :: s.path := by
        rw [hpath]
        decide
      rw [if_pos hmax, if_neg hvalid, if_neg hvalid]
      exact ⟨_, exec_invalid 48 _, rfl, rfl, iff_of_false hout hvalid, rfl⟩

section Walk

variable {mem : Mem} {va v : Nat}

theorem next_table {p : Nat} (hp : PhysPage p) : next (Loongarch.format.pa2pte p ||| 1) = some p := by
  have hw : Loongarch.format.pa2pte p ||| 1 = p + 1 := by
    have h2 : p = (p / 2) <<< 1 := by
      have := hp.1
      rw [shiftLeft_eq]
      simp only [pgsize] at this
      omega
    rw [show Loongarch.format.pa2pte p = p from Loongarch.pa2pte_eq hp, h2, ← shiftLeft_add_eq_or_of_lt (by decide)]
  have hodd : (p + 1) &&& 1 ≠ 0 := by
    have := hp.1
    rw [and_one_is_mod]
    simp only [pgsize] at this
    omega
  have hlt := hp.2
  rw [hw, next, if_neg hodd, addImm]
  congr 1
  omega

/-- The directories from level `l` down. -/
def down (mem : Mem) (va : Nat) : (l p : Nat) → Option Nat
  | 0, p => some p
  | l + 1, p => (next (mem p (px (l + 1) va))).bind (down mem va l)

theorem index_pair (l : Nat) (h : v / 2 = vpn va / 2) : index (l + 1) v = index (l + 1) (vpn va) := by
  have hpow : fanout ^ (l + 1) = 2 * (256 * fanout ^ l) := by
    rw [Nat.pow_succ, ← Nat.mul_assoc, Nat.mul_comm]
    rfl
  rw [index, index, hpow, ← Nat.div_div_eq_div_mul v 2, ← Nat.div_div_eq_div_mul (vpn va) 2, h]

/-- Both pages of the pair are in the lowest table, or in none. -/
theorem down_spec (va : Nat) {l : Nat} {t : Tree Nat l} (h : Rep Loongarch.format id mem l t)
    (hph : ∀ p ∈ tables l t, PhysPage p) :
    (down mem va l (rootPage l t) = none ∧ ∀ v, v / 2 = vpn va / 2 → get l t v = none) ∨
      ∃ p, down mem va l (rootPage l t) = some p ∧
        ∀ v, v / 2 = vpn va / 2 → mem p (index 0 v) = (get l t v).getD 0 := by
  induction l with
  | zero => exact .inr ⟨_, rfl, fun v _ => (word_id.mp (h _ (index_lt 0 v))).1⟩
  | succ l ih =>
    have hi := index_lt (l + 1) (vpn va)
    have he := h _ hi
    have hroot : rootPage (l + 1) t = Table.page t := rfl
    rw [down, px_eq, hroot]
    cases hs : Table.ent t (index (l + 1) (vpn va)) with
    | none =>
      refine .inl ⟨by rw [he.1 hs]; rfl, fun v hv => ?_⟩
      simp only [Radix.get, index_pair l hv, hs, bind_none]
    | some s =>
      have hget : ∀ v, v / 2 = vpn va / 2 → get (l + 1) t v = get l s v := fun v hv => by
        simp only [Radix.get, index_pair l hv, hs, bind_some]
      have hsub : ∀ p ∈ tables l s, PhysPage p := fun p hp => hph p (mem_cons_of_mem _ (mem_below hi hs hp))
      rw [(he.2 s hs).1, next_table (hsub _ (rootPage_mem l s)), bind_some]
      cases ih (he.2 s hs).2 hsub with
      | inl ih => exact .inl ⟨ih.1, fun v hv => (hget v hv).trans (ih.2 v hv)⟩
      | inr ih =>
        obtain ⟨p, h1, h2⟩ := ih
        refine .inr ⟨p, h1, fun v hv => ?_⟩
        rw [hget v hv, h2 v hv]

end Walk

/-- The other page of the pair. -/
def partner (va : Nat) : Nat := if vpn va % 2 = 0 then va + pgsize else va - pgsize

/-- The half of an entry for the page of an address. -/
def Entry.elo (e : Entry) (va : Nat) : Nat := if vpn va % 2 = 0 then e.elo0 else e.elo1

/-- The state in which the handler is entered: the hardware has set the faulting address and the
pair, and both roots are tables built by `mappages` and `uvmunmap`. -/
structure Faulting (s : Cpu) : Prop where
  badv : s.tlbrbadv < 2 ^ 64
  ehi : s.tlbrehi < 2 ^ 64
  vppn : s.tlbrehi >>> 13 = s.tlbrbadv >>> 13 % 2 ^ 35
  pwcl : s.pwcl = pwcl
  pwch : s.pwch = pwch
  low : Built Loongarch.format s.pgdl s.mem
  high : Built Loongarch.format s.pgdh s.mem
  path : s.path = []

/-- `walk` accepts the address and finds a valid entry. -/
def Finds (root : Nat) (mem : Mem) (va w : Nat) : Prop :=
  loongarch.valid va = true ∧ lookup Loongarch.format root va mem = some (some w)

/-- The translation is valid exactly when `walk` finds one, and then equals it. -/
def Agrees (root : Nat) (mem : Mem) (va elo : Nat) : Prop :=
  (pteV elo = true ↔ ∃ w, Finds root mem va w) ∧ ∀ w, Finds root mem va w → elo = w

section Pages

variable {s : Cpu}

theorem partner_cases (va : Nat) :
    partner va = va + pgsize ∧ vpn va % 2 = 0 ∨ partner va = va - pgsize ∧ vpn va % 2 = 1 := by
  by_cases h : vpn va % 2 = 0
  · exact .inl ⟨if_pos h, h⟩
  · exact .inr ⟨if_neg h, by omega⟩

theorem partner_pair (va : Nat) : vpn (partner va) / 2 = vpn va / 2 ∧ vpn (partner va) % 2 = 1 - vpn va % 2 := by
  have h := partner_cases va
  simp only [vpn, pgsize] at *
  omega

theorem partner_outside (hva : loongarch.valid va = true) (hp : ¬ loongarch.valid (partner va) = true) (a : Nat)
    (ha : loongarch.valid a = true) : ¬ Same 3 (vpn a) (vpn (partner va)) := by
  have hva := of_decide_eq_true hva
  have ha := of_decide_eq_true ha
  have hp : ¬ (partner va < maxva ∨ kstackRegionBottom ≤ partner va ∧ partner va < kstackTop) := fun h =>
    hp (decide_eq_true h)
  have hc := partner_cases va
  simp only [Same, fanout, vpn, pgsize, maxva, kstackRegionBottom, kstackTop] at *
  omega

theorem walkIndex_eq (h : Faulting s) : s.walkIndex 0 = px 0 s.tlbrbadv ∧ s.walkIndex 1 = px 1 s.tlbrbadv ∧
    s.walkIndex 2 = px 2 s.tlbrbadv ∧ s.walkIndex 3 = px 3 s.tlbrbadv := by
  have hl := h.pwcl
  have hh := h.pwch
  simp only [Cpu.walkIndex, Cpu.walkField, hl, hh]
  exact ⟨rfl, rfl, rfl, rfl⟩

theorem lowest_eq (h : Faulting s) : s.lowest = down s.mem s.tlbrbadv 3 (s.read .pgd) := by
  obtain ⟨-, h1, h2, h3⟩ := walkIndex_eq h
  simp only [Cpu.lowest, Cpu.dir, h1, h2, h3, down, bind_fun_some]

theorem root_built (h : Faulting s) : Built Loongarch.format (s.read .pgd) s.mem := by
  show Built _ (if s.tlbrbadv.testBit 63 then s.pgdh else s.pgdl) s.mem
  split
  · exact h.high
  · exact h.low

/-- The pair that the walk loads holds the entries of both pages. -/
theorem pair_eq {t : Tree Nat 3} (h : Faulting s) (hr : Rep Loongarch.format id s.mem 3 t)
    (hroot : rootPage 3 t = s.read .pgd) (hph : ∀ p ∈ tables 3 t, PhysPage p) {v : Nat}
    (hv : v / 2 = vpn s.tlbrbadv / 2) : (if v % 2 = 0 then s.pair.1 else s.pair.2) = (get 3 t v).getD 0 := by
  rw [Cpu.pair, lowest_eq h, ← hroot]
  cases down_spec s.tlbrbadv hr hph with
  | inl hd =>
    rw [hd.1, hd.2 v hv]
    split <;> rfl
  | inr hd =>
    obtain ⟨p, h1, h2⟩ := hd
    have hidx : s.walkIndex 0 = vpn s.tlbrbadv % 512 := by
      rw [(walkIndex_eq h).1, px_eq, index, Nat.pow_zero, Nat.div_one]
      rfl
    have hv0 : index 0 v = v % 512 := by
      rw [index, Nat.pow_zero, Nat.div_one]
      rfl
    have hpte : ∀ odd : Bool, v % 2 = odd.toNat → s.pte odd p = (get 3 t v).getD 0 := fun odd ho => by
      rw [Cpu.pte, hidx, ← h2 v hv, hv0, ← ho]
      congr 1
      omega
    rw [h1, map_some, getD_some]
    split
    case isTrue h0 => exact hpte false h0
    case isFalse h0 => exact hpte true (by simp only [Bool.toNat_true]; omega)

theorem agrees_pair (h : Faulting s) (hva : loongarch.valid s.tlbrbadv = true) {a : Nat}
    (ha : a = s.tlbrbadv ∨ a = partner s.tlbrbadv) :
    Agrees (s.read .pgd) s.mem a (if vpn a % 2 = 0 then s.pair.1 else s.pair.2) := by
  have hpage : vpn a / 2 = vpn s.tlbrbadv / 2 := by
    cases ha with
    | inl ha => rw [ha]
    | inr ha =>
      rw [ha]
      exact (partner_pair s.tlbrbadv).1
  obtain ⟨M, -, T, hf, hh⟩ := (root_built h).refines
  obtain ⟨t, hr, hroot, hT, hM⟩ := id hh
  have hph : ∀ p ∈ tables 3 t, PhysPage p := fun p hp => hf.phys p (mem_append_left _ (hT.subset hp))
  have hnone : pteV 0 = false := rfl
  rw [pair_eq h hr hroot hph hpage]
  by_cases hv : loongarch.valid a = true
  · have hget : get 3 t (vpn a) = _ := hM.agree a hv
    have hlook := hh.lookup hf hv
    rw [hget]
    cases hw : (M (vpn a)).map fun x => Loongarch.format.leaf x.1 x.2 with
    | none =>
      rw [hw] at hlook
      refine ⟨iff_of_false (by rw [getD_none, hnone]; decide) fun ⟨w, hw⟩ => ?_, fun w hw => ?_⟩
      · cases hlook.symm.trans hw.2
      · cases hlook.symm.trans hw.2
    | some w =>
      rw [hw] at hlook
      refine ⟨iff_of_true (hh.valid hf hv hw) ⟨w, hv, hlook⟩, fun w' hw' => ?_⟩
      cases hlook.symm.trans hw'.2
      rfl
  · have hout : get 3 t (vpn a) = none := by
      cases ha with
      | inl ha => exact absurd (ha ▸ hva) hv
      | inr ha =>
        subst ha
        exact hM.outside _ fun b hb => partner_outside hva hv b hb
    rw [hout]
    exact ⟨iff_of_false (by rw [getD_none, hnone]; decide) fun ⟨_, hw⟩ => hv hw.1, fun _ hw => absurd hw.1 hv⟩

theorem agrees_zero (root : Nat) (mem : Mem) (a : Nat) : Agrees root mem a 0 ↔ ¬ ∃ w, Finds root mem a w := by
  constructor
  · intro h hw
    cases h.1.mpr hw
  · intro h
    exact ⟨iff_of_false (by decide) h, fun w hw => absurd ⟨w, hw⟩ h⟩

theorem pageSize_eq (s : Cpu) (h : s.tlbrehi < 2 ^ 64) :
    s.pageSize >>> 13 = s.tlbrehi >>> 13 ∧ s.pageSize &&& 0x3F = 12 := by
  have h0 : s.tlbrehi >>> 6 <<< 6 % 2 ^ 64 = (s.tlbrehi >>> 6) <<< 6 := by
    rw [shiftLeft_eq, shiftRight_eq_div_pow]
    omega
  rw [Cpu.pageSize, h0, ← shiftLeft_add_eq_or_of_lt (by decide), show (0x3F : Nat) = 2 ^ 6 - 1 from rfl,
    and_two_pow_sub_one_eq_mod]
  simp only [shiftLeft_eq, shiftRight_eq_div_pow]
  omega

end Pages

/-- The handler fills, for the pair of the faulting address, the entries that `walk` finds, if the
address is accepted; otherwise an invalid pair. So it agrees with `walk` unless it rejects an
address whose partner is mapped. -/
theorem tlb_refill_agrees_iff (s : Cpu) (h : Faulting s) :
    ∃ s' e, exec 64 tlbRefillEntry s = some s' ∧ s'.tlb = some e ∧ s'.t0 = s.t0 ∧ s'.t1 = s.t1 ∧
      e.vppn = s.tlbrbadv >>> 13 % 2 ^ 35 ∧ e.ps = 12 ∧
      (.refillOk ∈ s'.path ↔ loongarch.valid s.tlbrbadv = true) ∧
      (¬ loongarch.valid s.tlbrbadv = true → e.elo0 = 0 ∧ e.elo1 = 0) ∧
      (Agrees (s.read .pgd) s.mem s.tlbrbadv (e.elo s.tlbrbadv) ∧
          Agrees (s.read .pgd) s.mem (partner s.tlbrbadv) (e.elo (partner s.tlbrbadv)) ↔
        loongarch.valid s.tlbrbadv = true ∨ ¬ ∃ w, Finds (s.read .pgd) s.mem (partner s.tlbrbadv) w) := by
  obtain ⟨s', hrun, h0, h1, hpath, htlb⟩ := exec_tlbRefillEntry s h.badv h.path
  have hps := pageSize_eq s h.ehi
  refine ⟨s', _, hrun, htlb, h0, h1, hps.1.trans h.vppn, hps.2, hpath, ?_⟩
  by_cases hva : loongarch.valid s.tlbrbadv = true
  · refine ⟨fun hn => absurd hva hn, iff_of_true ?_ (.inl hva)⟩
    simp only [Entry.elo, if_pos hva]
    exact ⟨agrees_pair h hva (.inl rfl), agrees_pair h hva (.inr rfl)⟩
  · simp only [Entry.elo, if_neg hva, ite_self, agrees_zero]
    refine ⟨fun _ => ⟨trivial, trivial⟩, ?_⟩
    constructor
    · exact fun hn => .inr hn.2
    · intro hor
      exact ⟨fun ⟨_, hw⟩ => hva hw.1, hor.resolve_left hva⟩

/-- The highest page of the first kernel stack is mapped. -/
def mapTopStack : List Event :=
  [(.map (kstackTop - pgsize) pgsize 0x90000000 (Loongarch.pteR ||| Loongarch.pteW)
    [0x80001000, 0x80002000, 0x80003000], true)]

def topStack : Option Mem := Run.run (Phys.exec Loongarch.format 0x80000000) mapTopStack fun _ _ => 0

/-- A fault while that table is used for both halves. -/
def faultAt (va : Nat) (mem : Mem) : Cpu where
  t0 := 5
  t1 := 6
  tlbrsave := 0
  tlbrehi := (va >>> 13 % 2 ^ 35) <<< 13
  tlbrbadv := va
  tlbrelo0 := 0
  tlbrelo1 := 0
  ksave2 := 0
  pgdl := 0x80000000
  pgdh := 0x80000000
  pwcl := pwcl
  pwch := pwch
  mem := mem
  tlb := none
  path := []

theorem faultAt_faulting (hva : va < 2 ^ 64) {mem : Mem} (hm : topStack = some mem) : Faulting (faultAt va mem) := by
  have hpages : tablePages Loongarch.format (fun _ _ => 0) 3 0x80000000 = [0x80000000] := by decide +kernel
  have hok : Run.Meets (Phys.exec Loongarch.format 0x80000000) (Allowed Loongarch.format 0x80000000) mapTopStack
      fun _ _ => 0 := by
    refine ⟨⟨?_, by decide, trivial⟩, fun _ _ => trivial⟩
    rw [show Loongarch.format.hal.level = 3 from rfl, hpages]
    exact ⟨by decide, by decide⟩
  have hbuilt : Built Loongarch.format 0x80000000 mem := ⟨_, mapTopStack, by decide, fun _ => rfl, hok, hm⟩
  have hlt : va >>> 13 % 2 ^ 35 < 2 ^ 35 := mod_lt _ (by decide)
  refine ⟨hva, ?_, shiftLeft_shiftRight .., rfl, rfl, hbuilt, hbuilt, rfl⟩
  show (va >>> 13 % 2 ^ 35) <<< 13 < 2 ^ 64
  rw [shiftLeft_eq]
  omega

theorem faultAt_root (va : Nat) (mem : Mem) : (faultAt va mem).read .pgd = 0x80000000 := ite_self _

theorem top_stack_refilled : ∃ mem s' e, topStack = some mem ∧
    exec 64 tlbRefillEntry (faultAt (kstackTop - pgsize) mem) = some s' ∧ s'.tlb = some e ∧
    Agrees 0x80000000 mem (kstackTop - pgsize) (e.elo (kstackTop - pgsize)) := by
  obtain ⟨mem, hm⟩ := isSome_iff_exists.mp (by decide +kernel : topStack.isSome = true)
  obtain ⟨s', e, hrun, htlb, -, -, -, -, -, -, hiff⟩ :=
    tlb_refill_agrees_iff (faultAt (kstackTop - pgsize) mem) (faultAt_faulting (by decide) hm)
  have hva : loongarch.valid (kstackTop - pgsize) = true := by decide
  have hagree := (hiff.mpr (.inl hva)).1
  rw [faultAt_root] at hagree
  exact ⟨mem, s', e, hm, hrun, htlb, hagree⟩

/-- A fault just above the kernel stacks makes the translation of the highest stack page invalid. -/
theorem fault_above_stacks : ∃ mem s' e w, topStack = some mem ∧ Faulting (faultAt kstackTop mem) ∧
    exec 64 tlbRefillEntry (faultAt kstackTop mem) = some s' ∧ s'.tlb = some e ∧
    partner kstackTop = kstackTop - pgsize ∧ Finds 0x80000000 mem (partner kstackTop) w ∧
    pteV (e.elo (partner kstackTop)) = false := by
  have hsome : (topStack.bind fun mem => ((lookup Loongarch.format 0x80000000 (partner kstackTop) mem).bind id).map
      fun w => (mem, w)).isSome = true := by decide +kernel
  obtain ⟨⟨mem, w⟩, hw⟩ := isSome_iff_exists.mp hsome
  obtain ⟨mem', hm, hw⟩ := bind_eq_some_iff.mp hw
  obtain ⟨w', hl, heq⟩ := map_eq_some_iff.mp hw
  cases heq
  obtain ⟨l, hl, rfl⟩ := bind_eq_some_iff.mp hl
  have hf : Faulting (faultAt kstackTop mem) := faultAt_faulting (by decide) hm
  obtain ⟨s', hrun, -, -, -, htlb⟩ := exec_tlbRefillEntry _ hf.badv hf.path
  refine ⟨mem, s', _, w, hm, hf, hrun, htlb, rfl, ⟨by decide, hl⟩, ?_⟩
  have hva : ¬ loongarch.valid (faultAt kstackTop mem).tlbrbadv = true := by
    show ¬ loongarch.valid kstackTop = true
    decide
  simp only [Entry.elo, if_neg hva, ite_self]
  decide

end Xv6Vfs.Tlb
