import Xv6Vfs.Fat32.Chain

/-! Where `fcreate` puts the entries of a new name, and what the directory holds afterwards. -/
namespace Xv6Vfs.Fat32
open Xv6Vfs.Bytes Xv6Vfs.Vfs List Nat

variable {v : Volume} {l : List Bytes} {cs t : List Nat} {disk disk' : Disk} {c i k n need x : Nat}

/-! ### Free slots -/

/-- The first place with `need` free slots in a row. -/
def gapIdx (need : Nat) : List Bytes → Option Nat
  | [] => none
  | d :: ds =>
    if need ≤ (d :: ds).length ∧ ((d :: ds).take need).all isFree then some 0 else (gapIdx need ds).map (· + 1)

theorem gapIdx_le (h : gapIdx need l = some k) : k + need ≤ l.length := by
  induction l generalizing k with
  | nil => cases h
  | cons d l ih =>
    rw [gapIdx] at h
    split at h
    · rename_i hc
      cases h
      omega
    · rcases Option.map_eq_some_iff.mp h with ⟨j, hj, rfl⟩
      have := ih hj
      rw [length_cons]
      omega

theorem gapIdx_skip {pre : List Bytes} {d : Bytes} (hlt : pre.length < need) (hd : isFree d = false) :
    gapIdx need (pre ++ d :: l) = (gapIdx need l).map (· + (pre.length + 1)) := by
  induction pre with
  | nil =>
    have hn : ((d :: l).take need).all isFree = false := by
      cases need with
      | zero => simp at hlt
      | succ need => simp [hd]
    rw [nil_append, gapIdx, if_neg (by simp [hn])]
    rfl
  | cons p pre ih =>
    have hn : ((p :: (pre ++ d :: l)).take need).all isFree = false := by
      rw [all_eq_false]
      refine ⟨d, ?_, by simp [hd]⟩
      have hidx : (p :: (pre ++ d :: l))[pre.length + 1]? = some d := by simp
      rw [length_cons] at hlt
      exact mem_of_getElem? ((getElem?_take_of_lt hlt).trans hidx)
    rw [length_cons] at hlt
    rw [cons_append, gapIdx, if_neg (by simp [hn]), ih (by omega), Option.map_map, length_cons]
    congr 1

/-- The loop of `dfree`, with the free slots `pre` in front of slot `b + pre.length`. -/
theorem sweep_visitFree {need : Nat} (l pre : List Bytes) (b f : Nat) (hlt : pre.length < need)
    (hpre : ∀ d ∈ pre, isFree d = true) (hf : pre ≠ [] → f = 32 * b) :
    match gapIdx need (pre ++ l) with
    | some k => sweep (visitFree need) l ⟨32 * (b + pre.length), pre.length, f⟩ = .inl (32 * (b + k))
    | none => ∃ n f', sweep (visitFree need) l ⟨32 * (b + pre.length), pre.length, f⟩ =
        .inr ⟨32 * (b + pre.length + l.length), n, f'⟩ := by
  induction l generalizing pre b f with
  | nil =>
    have hnone : gapIdx need (pre ++ []) = none := by
      cases hg : gapIdx need (pre ++ []) with
      | none => rfl
      | some k =>
        have := gapIdx_le hg
        rw [append_nil] at this
        omega
    rw [hnone]
    exact ⟨_, _, rfl⟩
  | cons d l ih =>
    by_cases hd : isFree d = true
    · have hfirst : (if pre.length = 0 then 32 * (b + pre.length) else f) = 32 * b := by
        cases pre with
        | nil => rfl
        | cons p pre => exact (if_neg (succ_ne_zero _)).trans (hf (cons_ne_nil p pre))
      have hpre' : ∀ x ∈ pre ++ [d], isFree x = true := by
        intro x hx
        rcases mem_append.mp hx with hx | hx
        · exact hpre x hx
        · rw [mem_singleton] at hx
          exact hx ▸ hd
      by_cases hn : need ≤ pre.length + 1
      · -- the gap is complete with this slot
        have hneed : need = (pre ++ [d]).length := by
          rw [length_append, length_singleton]
          omega
        have htake : (pre ++ d :: l).take need = pre ++ [d] := by
          rw [append_cons, hneed, take_left]
        have hg : gapIdx need (pre ++ d :: l) = some 0 := by
          have hlen : need ≤ (pre ++ d :: l).length := by
            rw [length_append, length_cons]
            omega
          have hall : ((pre ++ d :: l).take need).all isFree := by
            rw [htake]
            exact all_eq_true.mpr hpre'
          cases hl : pre ++ d :: l with
          | nil => exact absurd hl (by simp)
          | cons p t =>
            rw [hl] at hlen hall
            rw [gapIdx, if_pos ⟨hlen, hall⟩]
        have hv : visitFree need d ⟨32 * (b + pre.length), pre.length, f⟩ = .inl (32 * b) := by
          rw [visitFree, if_pos hd]
          rw [hfirst, if_pos hn]
        rw [hg]
        rw [sweep, hv]
        rfl
      · have hv : visitFree need d ⟨32 * (b + pre.length), pre.length, f⟩ =
            .inr ⟨32 * (b + (pre ++ [d]).length), (pre ++ [d]).length, 32 * b⟩ := by
          rw [visitFree, if_pos hd]
          rw [hfirst, if_neg hn, length_append, length_singleton]
          rfl
        have hlen : (pre ++ [d]).length < need := by
          rw [length_append, length_singleton]
          omega
        have ih := ih (pre ++ [d]) b (32 * b) hlen hpre' fun _ => rfl
        have hlast : b + pre.length + (d :: l).length = b + (pre ++ [d]).length + l.length := by
          rw [length_append, length_singleton, length_cons]
          omega
        rw [append_cons, sweep, hv, hlast]
        exact ih
    · have hfalse : isFree d = false := by simpa using hd
      have hv : visitFree need d ⟨32 * (b + pre.length), pre.length, f⟩ =
          .inr ⟨32 * (b + pre.length + 1 + ([] : List Bytes).length), 0, f⟩ := by
        rw [visitFree, if_neg hd]
        rfl
      have ih := ih [] (b + pre.length + 1) f (by simpa using zero_lt_of_lt hlt) (forall_mem_nil _) fun h =>
        absurd rfl h
      have hlast : b + pre.length + (d :: l).length = b + pre.length + 1 + ([] : List Bytes).length + l.length := by
        rw [length_cons, length_nil]
        omega
      rw [gapIdx_skip hlt hfalse, sweep, hv, hlast]
      rw [nil_append] at ih
      cases hg : gapIdx need l with
      | none =>
        rw [hg] at ih
        exact ih
      | some k =>
        rw [hg] at ih
        have hk : b + (k + (pre.length + 1)) = b + pre.length + 1 + k := by omega
        dsimp only [Option.map_some]
        rw [hk]
        exact ih

/-- No free slots in a row are passed over. -/
theorem gapIdx_min {j : Nat} (hneed : 0 < need) (hlen : j + need ≤ l.length)
    (h : ∀ i, j ≤ i → i < j + need → ∀ d ∈ l[i]?, isFree d = true) : ∃ k ≤ j, gapIdx need l = some k := by
  induction l generalizing j with
  | nil => exact absurd hlen (by rw [length_nil]; omega)
  | cons d l ih =>
    rw [gapIdx]
    split
    · exact ⟨0, Nat.zero_le j, rfl⟩
    · rename_i hno
      cases j with
      | zero =>
        refine absurd ⟨by omega, all_eq_true.mpr fun e he => ?_⟩ hno
        rcases mem_iff_getElem?.mp he with ⟨i, hi⟩
        have hlt := (List.getElem?_eq_some_iff.mp hi).1
        rw [length_take] at hlt
        rw [getElem?_take_of_lt (by omega)] at hi
        exact h i (Nat.zero_le i) (by omega) e hi
      | succ j =>
        rw [length_cons] at hlen
        rcases ih (j := j) (by omega) fun i h1 h2 => h (i + 1) (by omega) (by omega) with ⟨k, hk, hg⟩
        exact ⟨k + 1, by omega, by rw [hg]; rfl⟩

/-- Number of the slot that `dfree` returns: the first gap, or the end of the directory. -/
def gapAt (need : Nat) (l : List Bytes) : Nat := (gapIdx need l).getD l.length

/-! ### Growth of the directory -/

theorem allocClus_eq (h : allocClus v disk = some (c, disk')) :
    v.Valid c ∧ readFat v.toMount disk c = 0 ∧ disk' = writeFat v c eoc disk := by
  rcases Option.map_eq_some_iff.mp h with ⟨x, hx, he⟩
  cases he
  have hmem := mem_range'_1.mp (mem_of_find?_eq_some hx)
  have hle : uint (v.totClus + 2) ≤ v.totClus + 2 := mod_le _ _
  exact ⟨⟨hmem.1, by omega⟩, by simpa using find?_some hx, rfl⟩

theorem Volume.Ok.allocClus_none_iff (ok : v.Ok) (disk : Disk) :
    allocClus v disk = none ↔ ¬∃ n, v.Valid n ∧ readFat v.toMount disk n = 0 := by
  rw [allocClus, ok.totClus_eq, Option.map_eq_none_iff, find?_eq_none]
  constructor
  · rintro h ⟨n, hn, h0⟩
    have h2 := hn.1
    have hlt := hn.2
    exact h n (mem_range'_1.mpr ⟨h2, by omega⟩) (by simpa using h0)
  · intro h n hmem
    have hr := mem_range'_1.mp hmem
    simp only [decide_eq_true_eq]
    intro h0
    exact h ⟨n, ⟨hr.1, by omega⟩, h0⟩

section Grow

variable {v : Volume} {disk disk' : Disk} {c n : Nat} {cs : List Nat}

theorem Chain.not_mem_of_free (h : Chain v disk c cs) (hn : readFat v.toMount disk n = 0) : n ∉ cs :=
  fun hmem => h.ne_zero hmem hn

theorem slots_congr (h : ∀ x ∈ cs, view v disk' x = view v disk x) : slots v disk' cs = slots v disk cs := by
  rw [slots, slots]
  exact flatMap_congr h

variable (ok : v.Ok)
include ok

theorem Chain.writeFat (h : Chain v disk c cs) (hn : n < v.totClus + 2) (hmem : n ∉ cs) (val : Nat) :
    Chain v (Fat32.writeFat v n val disk) c cs ∧ slots v (Fat32.writeFat v n val disk) cs = slots v disk cs :=
  ⟨h.congr fun _ hx => ok.readFat_writeFat_ne hn (h.valid hx).2 (fun e => hmem (e ▸ hx)) val disk,
    slots_congr fun _ hx => ok.view_writeFat (h.valid hx) hn val disk⟩

theorem Chain.fillClus (h : Chain v disk c cs) (hn : v.Valid n) (hmem : n ∉ cs) (head : Bytes) :
    Chain v (Fat32.fillClus v n head disk) c cs ∧ slots v (Fat32.fillClus v n head disk) cs = slots v disk cs :=
  ⟨h.congr fun _ hx => ok.readFat_fillClus hn (h.valid hx).2 head disk,
    slots_congr fun _ hx => ok.view_fillClus_ne hn (h.valid hx) (fun e => hmem (e ▸ hx)) head disk⟩

theorem slots_length (hval : ∀ x ∈ cs, v.Valid x) : (slots v disk cs).length = cs.length * perClus v := by
  rw [slots, length_flatMap]
  have hc : cs.map (fun x => (view v disk x).length) = cs.map fun _ => perClus v :=
    map_congr_left fun x hx => ok.view_length (hval x hx) disk
  rw [hc, map_const', sum_replicate_nat]

theorem Chain.slots_length (h : Chain v disk c cs) : (slots v disk cs).length = cs.length * perClus v :=
  Fat32.slots_length ok fun _ hx => h.valid hx

/-- A new cluster goes to the end of a chain. -/
theorem Chain.link {l : Nat} (h : Chain v disk c (t ++ [l])) (hn : v.Valid n) (hfree : readFat v.toMount disk n = 0) :
    let disk' := Fat32.writeFat v n eoc (Fat32.writeFat v l n (Fat32.writeFat v n eoc disk))
    Chain v disk' c (t ++ [l] ++ [n]) ∧
      ∀ x, x < v.totClus + 2 → x ≠ n → x ≠ l → readFat v.toMount disk' x = readFat v.toMount disk x := by
  intro disk'
  have hnd := (h.links ok).nodup
  have hnew : n ∉ t ++ [l] := h.not_mem_of_free hfree
  have hl : v.Valid l := h.valid (mem_append_right t (mem_singleton_self l))
  have hln : l ≠ n := fun e => hnew (e ▸ mem_append_right t (mem_singleton_self l))
  have hlt : n < 2 ^ 28 := by
    have h2 := (ok.lt_eocMin hn).2
    rw [eocMin] at h2
    omega
  have hfat : ∀ x, x < v.totClus + 2 → x ≠ n → x ≠ l → readFat v.toMount disk' x = readFat v.toMount disk x := by
    intro x hx h1 h2
    rw [ok.readFat_writeFat_ne hn.2 hx h1, ok.readFat_writeFat_ne hl.2 hx h2, ok.readFat_writeFat_ne hn.2 hx h1]
  refine ⟨h.snoc hn (fun x hx => ?_) ?_ ?_, hfat⟩
  · have hmem : x ∈ t ++ [l] := mem_append_left [l] hx
    apply hfat x (h.valid hmem).2 (fun e => hnew (e ▸ hmem))
    rintro rfl
    exact (nodup_append.mp hnd).2.2 x hx x (mem_singleton_self x) rfl
  · rw [ok.readFat_writeFat_ne hn.2 hl.2 hln, ok.readFat_writeFat hl.2]
    exact mod_eq_of_lt hlt
  · rw [ok.readFat_writeFat hn.2]
    decide

theorem Chain.grow {l : Nat} (h : Chain v disk c (t ++ [l])) (hn : v.Valid n) (hfree : readFat v.toMount disk n = 0) :
    let disk' := Fat32.fillClus v n (fun _ => 0) (Fat32.writeFat v n eoc (Fat32.writeFat v l n
      (Fat32.writeFat v n eoc disk)))
    Chain v disk' c (t ++ [l] ++ [n]) ∧
      slots v disk' (t ++ [l] ++ [n]) = slots v disk (t ++ [l]) ++ List.replicate (perClus v) fun _ => 0 := by
  intro disk'
  have hnew : n ∉ t ++ [l] := h.not_mem_of_free hfree
  have hl : v.Valid l := h.valid (mem_append_right t (mem_singleton_self l))
  have hlink := (h.link ok hn hfree).1
  refine ⟨hlink.congr fun x hx => ok.readFat_fillClus hn (hlink.valid hx).2 _ _, ?_⟩
  have hold : slots v disk' (t ++ [l]) = slots v disk (t ++ [l]) := by
    apply slots_congr
    intro x hx
    have hxv := h.valid hx
    rw [ok.view_fillClus_ne hn hxv (fun e => hnew (e ▸ hx)), ok.view_writeFat hxv hn.2, ok.view_writeFat hxv hl.2,
      ok.view_writeFat hxv hn.2]
  have hzero : view v disk' n = List.replicate (perClus v) fun _ => 0 := ok.view_fillClus_zero hn _
  rw [slots, flatMap_append, flatMap_singleton, hzero, ← slots, hold]

end Grow

/-- The slots of the directory once `dfree` has found room for `need` entries. -/
def withRoom (v : Volume) (need : Nat) (l : List Bytes) : List Bytes :=
  l ++ if (gapIdx need l).isSome then [] else List.replicate (perClus v) fun _ => 0

/-! ### Writing entries -/

/-- An element of lists of one length in a row. -/
theorem flatMap_getElem? {α β : Type} {f : α → List β} {l : List α} (h : ∀ x ∈ l, (f x).length = n) (hn : 0 < n)
    (k : Nat) : (l.flatMap f)[k]? = (l[k / n]?).bind fun x => (f x)[k % n]? := by
  induction l generalizing k with
  | nil => rfl
  | cons x l ih =>
    have hx := h x mem_cons_self
    rw [flatMap_cons, getElem?_append, hx]
    split
    · rename_i hk
      rw [div_eq_of_lt hk, mod_eq_of_lt hk]
      rfl
    · rename_i hk
      have hdiv : k / n = (k - n) / n + 1 := by
        rw [← add_div_right _ hn]
        congr 1
        omega
      have hmod : k % n = (k - n) % n := mod_eq_sub_mod (by omega)
      rw [hdiv, hmod, getElem?_cons_succ]
      exact ih (fun y hy => h y (mem_cons_of_mem x hy)) _

/-- Sector and offset of slot `i` of a directory, which is one of cluster `x`. -/
def slotPos (v : Volume) (x i : Nat) : Nat × Nat :=
  (uint (clusToSec v.toMount x + 32 * (i % perClus v) / 512), 32 * (i % perClus v) % 512)

/-- The first byte of slot `i`. -/
def slotAddr (v : Volume) (x i : Nat) : Nat := clusAddr v x + 32 * (i % perClus v)

theorem clusBytes_eq (v : Volume) : clusBytes v.toMount = 32 * perClus v ∧ v.secPerClus * bps = 32 * perClus v := by
  rw [clusBytes, perClus, bps]
  omega

theorem locate_slot (v : Volume) (disk : Disk) (first i : Nat) :
    locate v.toMount disk first (32 * i) = (clusAt v.toMount disk (i / perClus v) first).map (slotPos v · i) := by
  rw [locate, (clusBytes_eq v).1, (clusBytes_eq v).2, Nat.mul_div_mul_left _ _ (by omega), mul_mod_mul_left, bps]
  rfl

theorem Links.locate_eq (h : Links v.toMount disk c cs) (i : Nat) :
    locate v.toMount disk c (32 * i) = (cs[i / perClus v]?).map (slotPos v · i) := by
  rw [locate_slot, h.clusAt_eq]

section Write

variable {v : Volume} (ok : v.Ok) {disk : Disk} {c : Nat} {cs : List Nat}
include ok

theorem perClus_pos : 0 < perClus v := Nat.mul_pos ok.sectors (by omega)

theorem slots_set {j q : Nat} {e : Bytes} (hval : ∀ y ∈ cs, v.Valid y) (hnd : cs.Nodup) (hx : cs[q]? = some x)
    (hj : j < perClus v) (hb : ∀ a, byte disk' a = if clusAddr v x + 32 * j ≤ a ∧
      a < clusAddr v x + 32 * j + 32 then e (a - (clusAddr v x + 32 * j)) else byte disk a) :
    slots v disk' cs = (slots v disk cs).set (q * perClus v + j) (cut e) := by
  induction cs generalizing q with
  | nil => cases hx
  | cons y cs ih =>
    have hy : v.Valid y := hval y mem_cons_self
    have hlen := ok.view_length hy disk
    have hxv : v.Valid x := hval x (mem_of_getElem? hx)
    have hother : ∀ z, v.Valid z → z ≠ x → view v disk' z = view v disk z := by
      intro z hz hne
      apply ok.view_congr hz
      intro a h1 h2
      have hdis := hz.disjoint hxv hne
      rw [perClus] at hj
      rw [hb, if_neg (by omega)]
    rw [slots, slots, flatMap_cons, flatMap_cons, set_append, hlen]
    cases q with
    | zero =>
      cases hx
      have hrest : slots v disk' cs = slots v disk cs :=
        slots_congr fun z hz => hother z (hval z (mem_cons_of_mem _ hz)) fun he =>
          (nodup_cons.mp hnd).1 (he ▸ hz)
      rw [Nat.zero_mul, Nat.zero_add, if_pos hj, ok.view_set hy hj hb, ← slots, hrest]
      rfl
    | succ q =>
      have hx' : cs[q]? = some x := hx
      have hne : y ≠ x := fun he => (nodup_cons.mp hnd).1 (he ▸ mem_of_getElem? hx')
      have hidx : (q + 1) * perClus v + j - perClus v = q * perClus v + j := by
        rw [succ_mul]
        omega
      have hge : ¬(q + 1) * perClus v + j < perClus v := by
        rw [succ_mul]
        omega
      rw [if_neg hge, hidx, hother y hy hne, ← slots,
        ih (fun z hz => hval z (mem_cons_of_mem y hz)) (nodup_cons.mp hnd).2 hx']
      rfl

theorem slot_lt (i : Nat) : 32 * (i % perClus v) + 32 ≤ 512 * v.secPerClus := by
  have hj := mod_lt i (perClus_pos ok)
  rw [perClus] at hj ⊢
  omega

theorem Volume.Ok.sread_slot (hx : v.Valid x) (i : Nat) (disk : Disk) :
    cut (sread disk (slotPos v x i).1 (slotPos v x i).2) = cut fun k => byte disk (slotAddr v x i + k) := by
  have hlt := slot_lt ok i
  apply cut_congr
  intro k hk
  exact ok.sread_clus hx (by omega) (by omega) disk

theorem Volume.Ok.byte_swrite_slot (hx : v.Valid x) (hn : n ≤ 32) (i : Nat) (e : Bytes) (disk : Disk) (a : Nat) :
    byte (swrite v (slotPos v x i).1 (slotPos v x i).2 e n disk) a =
      if slotAddr v x i ≤ a ∧ a < slotAddr v x i + n then e (a - slotAddr v x i) else byte disk a := by
  have hlt := slot_lt ok i
  exact ok.byte_swrite_clus hx (by omega) (by omega) e disk a

theorem Volume.Ok.swrite_slot_low {x n : Nat} (hx : v.Valid x) (hn : n ≤ 32) (i : Nat) (e : Bytes) (disk : Disk)
    {a : Nat} (ha : a < 512 * v.firstDataSec) :
    byte (swrite v (slotPos v x i).1 (slotPos v x i).2 e n disk) a = byte disk a := by
  have hge := clusAddr_ge v x
  rw [ok.byte_swrite_slot hx hn, slotAddr, if_neg (by omega)]

theorem clus_of_lt (hval : ∀ y ∈ cs, v.Valid y) (hi : i < (slots v disk cs).length) :
    ∃ x, cs[i / perClus v]? = some x ∧ v.Valid x := by
  rw [slots_length ok hval] at hi
  have hq : i / perClus v < cs.length := Nat.div_lt_of_lt_mul (by rwa [Nat.mul_comm])
  exact ⟨_, getElem?_eq_getElem hq, hval _ (getElem_mem hq)⟩

theorem slots_getElem? (hval : ∀ y ∈ cs, v.Valid y) (hx : cs[i / perClus v]? = some x) :
    (slots v disk cs)[i]? = some (cut fun k => byte disk (slotAddr v x i + k)) := by
  have hpos := perClus_pos ok
  rw [slots, flatMap_getElem? (fun y hy => ok.view_length (hval y hy) disk) hpos, hx, Option.bind_some,
    ok.view_eq (hval x (mem_of_getElem? hx)), getElem?_map, getElem?_range (mod_lt i hpos),
    Option.map_some]
  rfl

theorem Chain.locate_none (h : Chain v disk c cs) (hi : (slots v disk cs).length ≤ i) :
    locate v.toMount disk c (32 * i) = none := by
  rw [h.slots_length ok] at hi
  have hq : cs.length ≤ i / perClus v := (Nat.le_div_iff_mul_le (perClus_pos ok)).mpr hi
  rw [(h.links ok).locate_eq, getElem?_eq_none hq]
  rfl

theorem Chain.of_bytes (h : Chain v disk c cs) (hb : ∀ a, a < 512 * v.firstDataSec → byte disk' a = byte disk a) :
    Chain v disk' c cs :=
  h.congr fun _ hy => ok.readFat_of_bytes (h.valid hy).2 hb

/-- An entry is written to slot `i`, if the directory has it. -/
theorem Chain.dwriteRaw_eq (h : Chain v disk c cs) (i : Nat) (e : Bytes) :
    if i < (slots v disk cs).length then
      ∃ disk', dwriteRaw v c (32 * i) e disk = some disk' ∧ Chain v disk' c cs ∧
        slots v disk' cs = (slots v disk cs).set i (cut e)
    else dwriteRaw v c (32 * i) e disk = none := by
  split
  · rename_i hi
    rcases clus_of_lt ok (fun _ hy => h.valid hy) hi with ⟨x, hx, hxv⟩
    have hset := slots_set ok (fun y hy => h.valid hy) (h.links ok).nodup hx (mod_lt i (perClus_pos ok))
      fun a => ok.byte_swrite_slot hxv (Nat.le_refl 32) i e disk a
    rw [div_add_mod'] at hset
    refine ⟨_, by rw [dwriteRaw, (h.links ok).locate_eq, hx]; rfl, h.of_bytes ok fun a ha => ?_, hset⟩
    exact ok.swrite_slot_low hxv (Nat.le_refl 32) i e disk ha
  · rename_i hi
    rw [dwriteRaw, h.locate_none ok (by omega)]
    rfl

end Write

/-- The list with `ds` in place of what stood from `k` on. -/
def splice (l : List Bytes) (k : Nat) (ds : List Bytes) : List Bytes := l.take k ++ ds ++ l.drop (k + ds.length)

theorem splice_nil (l : List Bytes) (k : Nat) : splice l k [] = l := by
  rw [splice, append_nil, length_nil, Nat.add_zero, take_append_drop]

theorem splice_cons (d : Bytes) (ds : List Bytes) (hk : k < l.length) :
    splice (l.set k d) (k + 1) ds = splice l k (d :: ds) := by
  have ht : (l.set k d).take (k + 1) = l.take k ++ [d] := by
    rw [take_add_one, take_set, getElem?_set_self hk, set_eq_of_length_le (length_take_le k l)]
    rfl
  rw [splice, splice, ht, length_cons, drop_set_of_lt (by omega), Nat.add_right_comm, Nat.add_assoc k]
  simp

/-! An offset in a directory is a `uint`, so what goes to slot `2 ^ 27` goes to slot 0. -/

theorem uint_slot (k : Nat) : uint (32 * k) = 32 * (k % 2 ^ 27) := by
  unfold uint
  omega

theorem uint_place (k n : Nat) : uint (uint (32 * k) + n * 32) = uint (32 * (k + n)) := by
  unfold uint
  omega

/-- The slots after the entries `ds` went to those from `k` on. -/
def putSlots : List Bytes → (k : Nat) → List Bytes → List Bytes
  | l, _, [] => l
  | l, k, d :: ds => putSlots (l.set (k % 2 ^ 27) (cut d)) (k + 1) ds

theorem length_putSlots (l ds : List Bytes) (k : Nat) : (putSlots l k ds).length = l.length := by
  induction ds generalizing l k with
  | nil => rfl
  | cons d ds ih => rw [putSlots, ih, length_set]

theorem putSlots_append (l ds es : List Bytes) (k : Nat) :
    putSlots l k (ds ++ es) = putSlots (putSlots l k ds) (k + ds.length) es := by
  induction ds generalizing l k with
  | nil => rfl
  | cons d ds ih =>
    rw [cons_append, putSlots, ih, length_cons, putSlots, Nat.add_assoc, Nat.add_comm 1]

theorem putSlots_mod (l ds : List Bytes) {j : Nat} (h : j % 2 ^ 27 = k % 2 ^ 27) :
    putSlots l j ds = putSlots l k ds := by
  induction ds generalizing l j k with
  | nil => rfl
  | cons d ds ih =>
    rw [putSlots, putSlots, h]
    exact ih _ (by omega)

/-- In the first 4 GiB the entries stand in a row. -/
theorem putSlots_eq_splice {ds : List Bytes} (hk : k + ds.length ≤ l.length) (hb : k + ds.length ≤ 2 ^ 27) :
    putSlots l k ds = splice l k (ds.map cut) := by
  induction ds generalizing l k with
  | nil => exact (splice_nil l k).symm
  | cons d ds ih =>
    rw [length_cons] at hk hb
    rw [putSlots, mod_eq_of_lt (by omega), ih (by rw [length_set]; omega) (by omega), splice_cons _ _ (by omega)]
    rfl

theorem dwriteAll_uint (v : Volume) (c : Nat) (ds : List Bytes) (off : Nat) (disk : Disk) :
    dwriteAll v c ds (uint off) disk = dwriteAll v c ds off disk := by
  induction ds generalizing off disk with
  | nil => rfl
  | cons d ds ih =>
    have h1 : uint (uint off) = uint off := mod_mod _ _
    have h2 : uint (uint off + 32) = uint (off + 32) := mod_add_mod _ _ _
    have hrest : ∀ disk, dwriteAll v c ds (uint off + 32) disk = dwriteAll v c ds (off + 32) disk := fun disk => by
      rw [← ih (uint off + 32), h2, ih]
    simp only [dwriteAll, h1, hrest]

theorem Chain.dwriteAll_eq (ok : v.Ok) (h : Chain v disk c cs) (ds : List Bytes) (k : Nat)
    (hfit : ∀ i < ds.length, (k + i) % 2 ^ 27 < (slots v disk cs).length) :
    ∃ disk', dwriteAll v c ds (32 * k) disk = (true, disk') ∧ Chain v disk' c cs ∧
      slots v disk' cs = putSlots (slots v disk cs) k ds := by
  induction ds generalizing disk k with
  | nil => exact ⟨disk, rfl, h, rfl⟩
  | cons d ds ih =>
    have hraw := h.dwriteRaw_eq ok (k % 2 ^ 27) d
    have h0 : k % 2 ^ 27 < (slots v disk cs).length := hfit 0 (succ_pos _)
    rw [if_pos h0] at hraw
    rcases hraw with ⟨disk1, hw, h1, hs1⟩
    have hrest : ∀ i < ds.length, (k + 1 + i) % 2 ^ 27 < (slots v disk1 cs).length := by
      intro i hi
      rw [hs1, length_set, Nat.add_assoc, Nat.add_comm 1]
      exact hfit (i + 1) (by rw [length_cons]; omega)
    rcases ih h1 (k + 1) hrest with ⟨disk', he, hch, hs⟩
    rw [hs1] at hs
    exact ⟨disk', by rw [dwriteAll, uint_slot, hw]; exact he, hch, hs⟩

theorem Chain.dwriteAll_fits {ds : List Bytes} (ok : v.Ok) (h : Chain v disk c cs)
    (he : (dwriteAll v c ds (32 * k) disk).1 = true) : ∀ i < ds.length, (k + i) % 2 ^ 27 <
      (slots v disk cs).length := by
  induction ds generalizing disk k with
  | nil => exact fun i hi => absurd hi (not_lt_zero i)
  | cons d ds ih =>
    have hraw := h.dwriteRaw_eq ok (k % 2 ^ 27) d
    rw [dwriteAll, uint_slot] at he
    split at hraw
    · rename_i hlt
      rcases hraw with ⟨disk1, hw, h1, hs1⟩
      rw [hw] at he
      have hrest := @ih disk1 (k + 1) h1 he
      rw [hs1, length_set] at hrest
      intro i hi
      cases i with
      | zero => exact hlt
      | succ i =>
        rw [← succ_add_eq_add_succ]
        exact hrest i (by rw [length_cons] at hi; omega)
    · rw [hraw] at he
      cases he

end Xv6Vfs.Fat32
