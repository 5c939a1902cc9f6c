import Xv6Vfs.Vm.Mapping

/-! Page faults of user programs: `usertrap` and `vmfault`, and what the hardware makes of the entry when the
instruction
is tried again. -/
namespace Xv6Vfs.Vm.Phys
open Xv6Vfs.Radix Function List Option

inductive Access where
  | load
  | store
  | fetch
deriving DecidableEq

/-! ### Causes -/

def exccodePil : Nat := 1
def exccodePis : Nat := 2
def exccodePif : Nat := 3
def exccodePme : Nat := 4
def exccodePnr : Nat := 5
def exccodePnx : Nat := 6
def exccodePpi : Nat := 7
def exccodeAde : Nat := 8
def exccodeSys : Nat := 11
def exccodeBp : Nat := 12
def exccodeIne : Nat := 13
def exccodeIpe : Nat := 14

def timerIntr : Nat := 0x8000000000000005
def externalIntr : Nat := 0x8000000000000009

def estatToScause (estat : Nat) : Nat :=
  let ecode := estat >>> 16 &&& 0x3F
  let isBits := estat &&& 0x1FFF
  let esubcode := estat >>> 22 &&& 0x1FF
  if ecode = 0 then
    if isBits &&& 1 <<< 11 ≠ 0 then timerIntr
    else if isBits &&& 1 <<< 2 ≠ 0 then externalIntr
    else 0x8000000000000000
  else if ecode = exccodeSys then 8
  else if ecode = exccodePil then 13
  else if ecode = exccodePis then 15
  else if ecode = exccodePif then 12
  else if ecode = exccodePme then 15
  else if ecode = exccodePnr then 13
  else if ecode = exccodePnx then 12
  else if ecode = exccodePpi then 13
  else if ecode = exccodeAde then (if esubcode = 0 then 12 else 13)
  else if ecode = exccodeIne then 2
  else if ecode = exccodeIpe then 12
  else if ecode = exccodeBp then 3
  else 0x100 ||| ecode

/-- The exceptions that an access of a user program can raise and that `usertrap` takes for page faults. An address
error
of a load or store has subcode 1. -/
inductive Exc : Arch → Access → Type
  | pageFault (a : Access) : Exc .riscv a
  | pil : Exc .loongarch .load
  | pis : Exc .loongarch .store
  | pif : Exc .loongarch .fetch
  | pme : Exc .loongarch .store
  | pnr : Exc .loongarch .load
  | pnx : Exc .loongarch .fetch
  | ppi (a : Access) : Exc .loongarch a
  | adef : Exc .loongarch .fetch
  | ademLoad : Exc .loongarch .load
  | ademStore : Exc .loongarch .store
  | ipe : Exc .loongarch .fetch

/-- What `hal_read_scause` returns. -/
def Exc.scause {A : Arch} {a : Access} : Exc A a → Nat
  | .pageFault .load => 13
  | .pageFault .store => 15
  | .pageFault .fetch => 12
  | .pil => estatToScause (exccodePil <<< 16)
  | .pis => estatToScause (exccodePis <<< 16)
  | .pif => estatToScause (exccodePif <<< 16)
  | .pme => estatToScause (exccodePme <<< 16)
  | .pnr => estatToScause (exccodePnr <<< 16)
  | .pnx => estatToScause (exccodePnx <<< 16)
  | .ppi _ => estatToScause (exccodePpi <<< 16)
  | .adef => estatToScause (exccodeAde <<< 16)
  | .ademLoad | .ademStore => estatToScause (exccodeAde <<< 16 ||| 1 <<< 22)
  | .ipe => estatToScause (exccodeIpe <<< 16)

/-! ### Hardware -/

/-- A valid entry permits the access in user mode. Without R, W is reserved on RISC-V; on LoongArch the privilege level
has to be 3, D permits stores, and NR and NX forbid loads and fetches. -/
def permits : Arch → Access → Nat → Bool
  | .riscv, a, w => w.testBit 0 && w.testBit 4 && (w.testBit 1 || !w.testBit 2) &&
      (match a with
        | .load => w.testBit 1
        | .store => w.testBit 2
        | .fetch => w.testBit 3)
  | .loongarch, a, w => w.testBit 0 && (w.testBit 2 && w.testBit 3) &&
      (match a with
        | .load => !w.testBit 61
        | .store => w.testBit 1
        | .fetch => !w.testBit 62)

/-- The access raises the exception when it is translated by entry `w`. Address errors and privileged instructions do
not depend on the entry. -/
def Exc.raised {A : Arch} {a : Access} : Exc A a → Nat → Bool
  | .pageFault a, w => !permits .riscv a w
  | .pil, w | .pis, w | .pif, w => !w.testBit 0
  | .pme, w => !w.testBit 1
  | .pnr, w => w.testBit 61
  | .pnx, w => w.testBit 62
  | .ppi _, w => !(w.testBit 2 && w.testBit 3)
  | .adef, _ | .ademLoad, _ | .ademStore, _ | .ipe, _ => true

/-! ### The handler -/

section Handler

variable (F : Format)

/-- `vmfault`; `walk` and the test of `PTE_V` are `lookup`. -/
def vmfault (root sz va : Nat) (read : Bool) (mem : Mem) (free : List Nat) : Option (Nat × Mem × List Nat) :=
  if maxva ≤ va then some (0, mem, free)
  else if sz ≤ va then some (0, mem, free)
  else
    (lookup F root (pgRoundDown va) mem).bind fun pte =>
      match pte with
      | some w =>
        if w &&& F.pteU = 0 then some (0, mem, free)
        else if read = false ∧ w &&& F.pteW = 0 then some (0, mem, free)
        else some (1, mem, free)
      | none =>
        match kalloc mem free with
        | none => some (0, mem, free)
        | some (p, mem, free) =>
          (mappages F root (pgRoundDown va) pgsize p (F.pteW ||| F.pteU ||| F.pteR) (mem.fill p 0) free).map fun q =>
            if q.1 then (p, q.2) else (0, kfree p q.2.1 q.2.2)

inductive Outcome where
  | syscall
  | device
  | handled
  | killed
deriving DecidableEq

/-- `usertrap` up to the return to user space. -/
def usertrap (root sz scause stval : Nat) (mem : Mem) (free : List Nat) : Option (Outcome × Mem × List Nat) :=
  if scause = 8 then some (.syscall, mem, free)
  else if scause = externalIntr ∨ scause = timerIntr then some (.device, mem, free)
  else if scause = 15 ∨ scause = 13 ∨ scause = 12 then
    (vmfault F root sz stval (scause = 13 ∨ scause = 12) mem free).map fun r =>
      (if r.1 ≠ 0 then .handled else .killed, r.2)
  else some (.killed, mem, free)

/-- The tables that `walk` lacks from `pagetable` on. -/
def missing (va : Nat) (mem : Mem) : (level pagetable : Nat) → Nat
  | 0, _ => 0
  | l + 1, t =>
    if pteV (mem t (px (l + 1) va)) then missing va mem l (F.pte2pa (mem t (px (l + 1) va))) else l + 1

end Handler

/-- The process is killed, or an entry is there that permits the access, and the exception is not raised again. -/
def Progress (A : Arch) {a : Access} (x : Exc A a) (root sz va : Nat) (mem : Mem) (free : List Nat) : Prop :=
  ∃ out mem' free', usertrap A.format root sz x.scause va mem free = some (out, mem', free') ∧
    (out = .killed ∨ out = .handled ∧ ∃ w, lookup A.format root va mem' = some (some w) ∧ permits A a w = true ∧
      x.raised w = false)

/-- The entry decides about the exception. -/
def Exc.OfEntry {A : Arch} {a : Access} : Exc A a → Prop
  | .adef | .ademLoad | .ademStore | .ipe => False
  | _ => True

/-- The permissions that `vmfault` does not look at. -/
def Unchecked : Arch → Access → Nat → Prop
  | .riscv, .load, w | .riscv, .store, w => w.testBit 1
  | .riscv, .fetch, w => w.testBit 3 ∧ (w.testBit 2 → w.testBit 1)
  | .loongarch, .load, w => (w.testBit 2 ∧ w.testBit 3) ∧ ¬ w.testBit 61
  | .loongarch, .store, w => (w.testBit 2 ∧ w.testBit 3) ∧ w.testBit 1
  | .loongarch, .fetch, w => (w.testBit 2 ∧ w.testBit 3) ∧ ¬ w.testBit 62

/-- The entry decides about the exception, and either one is there with all permissions, or a new page serves, which is
not for instructions. Only faults below the size are served, on user pages that a store may write to, or if there are
enough pages. -/
structure Served (A : Arch) {a : Access} (x : Exc A a) (root va : Nat) (mem : Mem) (free : List Nat) : Prop where
  entry : ∀ w, lookup A.format root va mem = some (some w) → w &&& A.format.pteU ≠ 0 →
    (x.scause = 15 → w &&& A.format.pteW ≠ 0) → x.OfEntry ∧ Unchecked A a w
  fresh : lookup A.format root va mem = some none →
    missing A.format (pgRoundDown va) mem A.format.hal.level root < free.length → x.OfEntry ∧ a ≠ .fetch

section Permissions

variable {A : Arch} {a : Access}

theorem Exc.raised_iff (x : Exc A a) {w : Nat} (h : permits A a w = true) : x.raised w = false ↔ x.OfEntry := by
  cases x with
  | pageFault => simp [raised, OfEntry, h]
  | adef => simp [raised, OfEntry]
  | ademLoad => simp [raised, OfEntry]
  | ademStore => simp [raised, OfEntry]
  | ipe => simp [raised, OfEntry]
  | ppi a =>
    simp only [permits, Bool.and_eq_true] at h
    simp [raised, OfEntry, h.1.2]
  | _ =>
    simp only [permits, Bool.and_eq_true, Bool.not_eq_true'] at h
    simp [raised, OfEntry, h]

theorem permits_iff (x : Exc A a) {w : Nat} (hv : pteV w = true) (hu : w &&& A.format.pteU ≠ 0)
    (hw : x.scause = 15 → w &&& A.format.pteW ≠ 0) : permits A a w = true ↔ Unchecked A a w := by
  have hv : w.testBit 0 = true := hv
  cases A with
  | loongarch => cases a <;> simp [permits, Unchecked, hv]
  | riscv =>
    have hu : w.testBit 4 = true := by
      rw [← Bool.not_eq_false]
      exact fun h => hu ((and_bit_eq_zero w 4).mpr h)
    cases x with
    | pageFault a =>
      cases a with
      | load =>
        simp only [permits, Unchecked, hv, hu]
        cases w.testBit 1 <;> simp
      | fetch =>
        simp only [permits, Unchecked, hv, hu]
        cases w.testBit 1 <;> cases w.testBit 2 <;> simp
      | store =>
        have hw : w.testBit 2 = true := by
          rw [← Bool.not_eq_false]
          exact fun h => hw rfl ((and_bit_eq_zero w 2).mpr h)
        simp [permits, Unchecked, hv, hu, hw]

theorem permits_leaf (A : Arch) {p : Nat} (hp : PhysPage p) : permits A a (A.format.leaf p
    (A.format.pteW ||| A.format.pteU ||| A.format.pteR)) = true ↔ a ≠ .fetch := by
  cases A with
  | riscv =>
    have hbit : ∀ i < 10, (Riscv.pa2pte p ||| 22 ||| 1).testBit i = Nat.testBit 23 i := fun i hi => by
      rw [Nat.or_assoc, Nat.testBit_or, Riscv.pa2pte_testBit hp, decide_eq_false (by omega), Bool.false_and,
        Bool.false_or]
      rfl
    show permits .riscv a (Riscv.pa2pte p ||| 22 ||| 1) = true ↔ _
    simp only [permits, hbit 0 (by decide), hbit 1 (by decide), hbit 2 (by decide), hbit 3 (by decide),
      hbit 4 (by decide)]
    cases a <;> decide
  | loongarch =>
    have hbit : ∀ i, (Loongarch.kept.testBit i ∨ i = 61 ∨ i = 62) →
        (Loongarch.pa2pte p ||| Loongarch.encodePerm 782 ||| Loongarch.pteVCache).testBit i =
          (Loongarch.encodePerm 782).testBit i := fun i hi => Loongarch.leaf_testBit hp hi
    have hv : (Loongarch.pa2pte p ||| Loongarch.encodePerm 782 ||| Loongarch.pteVCache).testBit 0 = true :=
      Loongarch.format.leaf_valid _
    show permits .loongarch a (Loongarch.pa2pte p ||| Loongarch.encodePerm 782 ||| Loongarch.pteVCache) = true ↔ _
    simp only [permits, hv, hbit 1 (by decide), hbit 2 (by decide), hbit 3 (by decide), hbit 61 (by decide),
      hbit 62 (by decide)]
    cases a <;> decide

end Permissions

section Tables

variable {F : Format} {root va : Nat} {mem mem' : Mem} {T free : List Nat} {M : Nat → Option Nat}

theorem walkLevel_new {l t : Nat} (hz : pteV (mem t (px (l + 1) va)) = false) (hnd : (t :: free).Nodup) :
    (walkLevel F va true (l + 1) t mem free).1.isSome ↔ l + 1 ≤ free.length := by
  induction l generalizing t mem free with
  | zero =>
    rw [walkLevel, if_neg (by rw [hz]; decide), if_pos rfl]
    cases free with
    | nil => simp [kalloc]
    | cons q free => simp [kalloc, walkLevel]
  | succ l ih =>
    rw [walkLevel, if_neg (by rw [hz]; decide), if_pos rfl]
    cases free with
    | nil => simp [kalloc]
    | cons q free =>
      have hnd := nodup_cons.mp hnd
      have hqt : q ≠ t := fun he => hnd.1 (he ▸ mem_cons_self)
      rw [length_cons, Nat.add_le_add_iff_right]
      apply ih _ hnd.2
      rw [store_of_ne hqt, Mem.fill, update_self]
      rfl

/-- `walk` finds the tables it lacks among the free pages. -/
theorem walkLevel_isSome {l : Nat} {t : Tree Nat l} (h : Rep F id mem l t) (hm : ∀ q ∈ tables l t, mem' q = mem q)
    (hnd : (tables l t ++ free).Nodup) (hph : ∀ p ∈ tables l t, PhysPage p) :
    (walkLevel F va true l (rootPage l t) mem' free).1.isSome ↔
      missing F va mem l (rootPage l t) ≤ free.length := by
  induction l with
  | zero => simp [walkLevel, missing]
  | succ l ih =>
    have hi := index_lt (l + 1) (vpn va)
    have he := h _ hi
    have hpage := congrFun (hm (rootPage (l + 1) t) (rootPage_mem _ _)) (px (l + 1) va)
    have hword : mem (rootPage (l + 1) t) (px (l + 1) va) = mem (Table.page t) (index (l + 1) (vpn va)) := by
      rw [px_eq]
      rfl
    cases hs : Table.ent t (index (l + 1) (vpn va)) with
    | none =>
      have hz : pteV (mem (rootPage (l + 1) t) (px (l + 1) va)) = false := by
        rw [hword, he.1 hs]
        rfl
      rw [missing, if_neg (by rw [hz]; decide), walkLevel_new (by rw [hpage, hz])]
      refine nodup_cons.mpr ⟨fun hf => ?_, (nodup_append.mp hnd).2.1⟩
      exact (nodup_append.mp hnd).2.2 _ (rootPage_mem _ _) _ hf rfl
    | some s =>
      have hsub : ∀ p ∈ tables l s, p ∈ tables (l + 1) t := fun p hp => mem_cons_of_mem _ (mem_below hi hs hp)
      have hentry := (he.2 s hs).1
      rw [walkLevel, missing, hpage, hword, hentry, if_pos (Format.pteV_table F _), if_pos (Format.pteV_table F _),
        F.table_pa _ (hph _ (hsub _ (rootPage_mem l s)))]
      refine ih (he.2 s hs).2 (fun q hq => hm q (hsub q hq)) ?_ fun p hp => hph p (hsub p hp)
      have hnd' := nodup_append.mp hnd
      refine nodup_append.mpr ⟨(below_nodup (nodup_cons.mp hnd'.1).2 hi hs).1, hnd'.2.1, ?_⟩
      exact fun a ha b hb => hnd'.2.2 a (hsub a ha) b hb

theorem pgRoundDown_lt {n : Nat} (h : va < n) : pgRoundDown va < n := Nat.lt_of_le_of_lt (Nat.div_mul_le_self va 4096) h

theorem vpn_pgRoundDown (va : Nat) : vpn (pgRoundDown va) = vpn va := Nat.mul_div_cancel _ (by decide)

theorem Holds.vmfault_entry (h : Holds F root mem T M) (hf : Fresh T free) (hmax : va < maxva) {sz : Nat}
    (hsz : va < sz)
    (read : Bool) {w : Nat} (hw : M (vpn va) = some w) : vmfault F root sz va read mem free =
      some (if w &&& F.pteU = 0 ∨ read = false ∧ w &&& F.pteW = 0 then 0 else 1, mem, free) := by
  rw [vmfault, if_neg (Nat.not_le.mpr hmax), if_neg (Nat.not_le.mpr hsz),
    h.lookup hf.tables (F.hal.valid_low _ (pgRoundDown_lt hmax)), vpn_pgRoundDown, hw, bind_some]
  dsimp only
  split
  · rename_i hu
    rw [if_pos (.inl hu)]
  · rename_i hu
    split
    · rename_i hr
      rw [if_pos (.inr hr)]
    · rename_i hr
      rw [if_neg (not_or.mpr ⟨hu, hr⟩)]

/-- A page that is missing gets mapped if there are pages for it and for its tables. -/
theorem Holds.vmfault_new (h : Holds F root mem T M) (hf : Fresh T free) (h0 : 0 ∉ free) (hmax : va < maxva) {sz : Nat}
    (hsz : va < sz) (read : Bool) (hM : M (vpn va) = none) :
    ∃ r mem' free', vmfault F root sz va read mem free = some (r, mem', free') ∧
      (r ≠ 0 ↔ missing F (pgRoundDown va) mem F.hal.level root < free.length) ∧
      (r ≠ 0 → ∃ p, PhysPage p ∧
        Phys.lookup F root va mem' = some (some (F.leaf p (F.pteW ||| F.pteU ||| F.pteR)))) := by
  have hva := F.hal.valid_low _ (pgRoundDown_lt hmax)
  have hv := F.hal.valid_low _ hmax
  rw [vmfault, if_neg (Nat.not_le.mpr hmax), if_neg (Nat.not_le.mpr hsz), h.lookup hf.tables hva, vpn_pgRoundDown, hM,
    bind_some]
  dsimp only
  cases free with
  | nil => exact ⟨0, mem, [], rfl, by simp, absurd rfl⟩
  | cons p free =>
    obtain ⟨⟨hpT, -⟩, hf'⟩ := hf.uncons
    have hp : PhysPage p := hf.phys p (mem_append_right _ mem_cons_self)
    have hp0 : p ≠ 0 := fun he => h0 (he ▸ mem_cons_self)
    have hsame : ∀ q ∈ T, ((mem.fill p 0x0505050505050505).fill p 0) q = mem q := fun q hq => by
      have hqp : q ≠ p := fun he => hpT (he ▸ hq)
      rw [Mem.fill, update_of_ne hqp, Mem.fill, update_of_ne hqp]
    have hleaf : pteV (F.leaf p (F.pteW ||| F.pteU ||| F.pteR)) = true := F.leaf_valid _
    obtain ⟨r, hr, hal⟩ := (h.congr hsame).alloc hf' hva hleaf
    have hiff : r.1.isSome ↔ missing F (pgRoundDown va) mem F.hal.level root ≤ free.length := by
      obtain ⟨t, hrep, hroot, hT, -⟩ := h
      rw [walk, if_pos hva, ← hroot] at hr
      rw [← some.inj hr, ← hroot]
      refine walkLevel_isSome hrep (fun q hq => hsame q (hT.subset hq)) ((hT.append_right free).symm.nodup hf'.nodup)
        fun q hq => hf'.phys q (mem_append_left _ (hT.subset hq))
    have haligned : ¬ (pgRoundDown va % pgsize ≠ 0 ∨ pgsize % pgsize ≠ 0 ∨ pgsize = 0) := by
      rw [pgRoundDown, pgsize]
      omega
    rw [kalloc]
    dsimp only
    rw [mappages, if_neg haligned, show pgsize / pgsize = 1 from rfl, Phys.mapLoop, hr, bind_some]
    cases hal with
    | remap hM' _ => exact absurd (by rwa [vpn_pgRoundDown]) hM'
    | full _ _ _ _ =>
      refine ⟨0, _, _, rfl, ⟨absurd rfl, fun hlt => ?_⟩, absurd rfl⟩
      cases hiff.mpr (Nat.le_of_lt_succ hlt)
    | done _ hvalid hh hperm _ =>
      dsimp only
      rw [if_neg (by rw [hvalid]; decide)]
      refine ⟨p, _, _, rfl, ⟨fun _ => Nat.lt_succ_of_le (hiff.mp rfl), fun _ => hp0⟩, fun _ => ⟨p, hp, ?_⟩⟩
      rw [hh.lookup (hf'.perm hperm).tables hv, vpn_pgRoundDown, mapRange_one, if_pos rfl]

end Tables

section Trap

variable {A : Arch} {a : Access} (x : Exc A a) {root sz va : Nat} {mem mem' : Mem} {free free' : List Nat}

theorem Exc.scause_cases : x.scause = 15 ∨ x.scause = 13 ∨ x.scause = 12 := by
  cases x with
  | pageFault a => cases a <;> decide
  | ppi a => exact .inr (.inl rfl)
  | _ => decide

theorem progress_iff {r : Nat} (hrun : vmfault A.format root sz va (x.scause ≠ 15) mem free = some (r, mem', free')) :
    Progress A x root sz va mem free ↔ (r ≠ 0 → ∃ w, lookup A.format root va mem' = some (some w) ∧
      permits A a w = true ∧ x.raised w = false) := by
  have hc := x.scause_cases
  have hread : decide (x.scause = 13 ∨ x.scause = 12) = decide (x.scause ≠ 15) := decide_eq_decide.mpr (by omega)
  have htrap : usertrap A.format root sz x.scause va mem free =
      some (if r ≠ 0 then .handled else .killed, mem', free') := by
    rw [usertrap, if_neg (by omega), if_neg (by rw [externalIntr, timerIntr]; omega), if_pos hc, hread, hrun]
    rfl
  constructor
  · rintro ⟨out, mem1, free1, hout, hor⟩ hr
    rw [htrap, if_pos hr] at hout
    cases hout
    exact (hor.resolve_left (by decide)).2
  · intro h
    refine ⟨_, _, _, htrap, ?_⟩
    by_cases hr : r = 0
    · exact .inl (if_neg (not_not.mpr hr))
    · exact .inr ⟨if_pos hr, h hr⟩

end Trap

/-- A page fault is served in a way that lets the program go on, or the process is killed, if and only if the fault
is not
one that `vmfault` takes for handled although a permission is missing that it does not look at, although instructions
are to be fetched from a new page, or although the exception has another reason than the entry. -/
theorem fault_progress_iff (A : Arch) {a : Access} (x : Exc A a) {root : Nat} (sz : Nat) {va : Nat} {mem : Mem}
    {T free : List Nat} {M : Nat → Option Nat} (h : Holds A.format root mem T M) (hf : Fresh T free) (h0 : 0 ∉ free) :
    Progress A x root sz va mem free ↔ (va < maxva → va < sz → Served A x root va mem free) := by
  by_cases hin : va < maxva ∧ va < sz
  · obtain ⟨hmax, hsz⟩ := hin
    have hlook := h.lookup hf.tables (A.format.hal.valid_low _ hmax)
    cases hM : M (vpn va) with
    | some w =>
      rw [hM] at hlook
      have hv := h.valid hf.tables (A.format.hal.valid_low _ hmax) hM
      have hcheck : (w &&& A.format.pteU = 0 ∨ decide (x.scause ≠ 15) = false ∧ w &&& A.format.pteW = 0) ↔
          ¬ (w &&& A.format.pteU ≠ 0 ∧ (x.scause = 15 → w &&& A.format.pteW ≠ 0)) := by
        rw [decide_eq_false_iff_not]
        tauto
      rw [progress_iff x (h.vmfault_entry hf hmax hsz _ hM)]
      simp only [hcheck]
      constructor
      · intro hp _ _
        refine ⟨fun w' hw' hu hst => ?_, fun hnone => ?_⟩
        · cases hlook.symm.trans hw'
          obtain ⟨w', hw', hperm, hraise⟩ := hp (by rw [if_neg (not_not.mpr ⟨hu, hst⟩)]; decide)
          cases hlook.symm.trans hw'
          exact ⟨(x.raised_iff hperm).mp hraise, (permits_iff x hv hu hst).mp hperm⟩
        · rw [hlook] at hnone
          cases hnone
      · intro hs hr
        have hok := not_not.mp fun hno => hr (if_pos hno)
        have hserved := (hs hmax hsz).entry w hlook hok.1 hok.2
        have hperm := (permits_iff x hv hok.1 hok.2).mpr hserved.2
        exact ⟨w, hlook, hperm, (x.raised_iff hperm).mpr hserved.1⟩
    | none =>
      rw [hM] at hlook
      obtain ⟨r, mem', free', hrun, hiff, hnew⟩ := h.vmfault_new hf h0 hmax hsz (x.scause ≠ 15) hM
      rw [progress_iff x hrun]
      constructor
      · intro hp _ _
        refine ⟨fun w hw => ?_, fun _ hlt => ?_⟩
        · rw [hlook] at hw
          cases hw
        · obtain ⟨w, hw, hperm, hraise⟩ := hp (hiff.mpr hlt)
          obtain ⟨p, hpp, hleaf⟩ := hnew (hiff.mpr hlt)
          cases hleaf.symm.trans hw
          exact ⟨(x.raised_iff hperm).mp hraise, (permits_leaf A hpp).mp hperm⟩
      · intro hs hr
        have hserved := (hs hmax hsz).fresh hlook (hiff.mp hr)
        obtain ⟨p, hpp, hleaf⟩ := hnew hr
        have hperm := (permits_leaf A hpp).mpr hserved.2
        exact ⟨_, hleaf, hperm, (x.raised_iff hperm).mpr hserved.1⟩
  · have hrun : vmfault A.format root sz va (x.scause ≠ 15) mem free = some (0, mem, free) := by
      rw [vmfault]
      split
      · rfl
      · rename_i hmax
        rw [if_pos (by omega)]
    rw [progress_iff x hrun]
    exact ⟨fun _ h1 h2 => absurd ⟨h1, h2⟩ hin, fun _ => absurd rfl⟩

/-- An empty table and three pages: a store on a page of the heap. -/
theorem store_served : Progress .riscv (.pageFault .store) 4096 8192 0 (fun _ _ => 0) [8192, 12288, 16384] := by
  have hf : Fresh [4096] [8192, 12288, 16384] := ⟨by decide, by decide⟩
  refine (fault_progress_iff .riscv (.pageFault .store) 8192 (Holds.blank fun _ => rfl) hf (by decide)).mpr fun _ _ =>
    ?_
  have hnone : lookup (Arch.format .riscv) 4096 0 (fun _ _ => 0) = some none := by decide
  refine ⟨fun w hw => ?_, fun _ _ => ⟨trivial, by decide⟩⟩
  rw [hnone] at hw
  cases hw

/-- The same for an instruction: the new page is not executable, and the fetch fails for ever. -/
theorem fetch_loops : ∃ mem' free' w, usertrap (Arch.format .riscv) 4096 8192 (Exc.pageFault .fetch).scause 0
      (fun _ _ => 0) [8192, 12288, 16384] = some (.handled, mem', free') ∧
    lookup (Arch.format .riscv) 4096 0 mem' = some (some w) ∧ permits .riscv .fetch w = false ∧
    usertrap (Arch.format .riscv) 4096 8192 (Exc.pageFault .fetch).scause 0 mem' free' =
      some (.handled, mem', free') := by
  refine ⟨_, _, 2071, rfl, ?_, ?_, rfl⟩
  · decide
  · decide

end Xv6Vfs.Vm.Phys
