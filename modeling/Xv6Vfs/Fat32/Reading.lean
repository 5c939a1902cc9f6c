import Xv6Vfs.Fat32.Enter
import Xv6Vfs.Fat32.Readdir

/-! `freaddir` as a function of the slots of a directory. -/
namespace Xv6Vfs.Fat32
open Xv6Vfs.Bytes Xv6Vfs.Vfs List

variable {d : Bytes} {k off pos : Nat}

/-! ### The forward loop -/

theorem sweep_visitNext_cut (off : Nat) (l : List Bytes) (pos : Nat) :
    sweep (visitNext off) (l.map cut) pos = (sweep (visitNext off) l pos).map cutEntry id := by
  induction l generalizing pos with
  | nil => rfl
  | cons d l ih =>
    have hv : visitNext off (cut d) pos = (visitNext off d pos).map cutEntry id := by
      rw [visitNext, visitNext, cut_zero, dirAttr_cut]
      split
      · rfl
      · split
        · rfl
        · split
          · rfl
          · rfl
    rw [map_cons, sweep, sweep, hv]
    cases visitNext off d pos with
    | inl r => rfl
    | inr pos => exact ih pos

theorem sweep_visitNext_before (l : List Bytes) (pos : Nat) (h : pos + 32 * l.length ≤ off) :
    sweep (visitNext off) l pos = .inr (pos + 32 * l.length) := by
  induction l generalizing pos with
  | nil => rfl
  | cons d l ih =>
    rw [length_cons] at h ⊢
    have hv : visitNext off d pos = .inr (pos + 32) := by rw [visitNext, if_pos (by rw [uint]; omega)]
    have hpos : pos + 32 * (l.length + 1) = pos + 32 + 32 * l.length := by omega
    rw [sweep, hv, hpos]
    exact ih (pos + 32) (by omega)

theorem sweep_visitNext_skip (l : List Bytes) (pos : Nat)
    (h : ∀ d ∈ l, d 0 = 0xE5 ∨ d 0 ≠ 0 ∧ dirAttr d = attrLongName) :
    sweep (visitNext off) l pos = .inr (pos + 32 * l.length) := by
  induction l generalizing pos with
  | nil => rfl
  | cons d l ih =>
    have hv : visitNext off d pos = .inr (pos + 32) := by
      have hd := h d mem_cons_self
      rw [visitNext]
      split
      · rfl
      · have h0 : d 0 ≠ 0 := by
          cases hd with
          | inl h5 => rw [h5]; decide
          | inr hl => exact hl.1
        rw [if_neg h0, if_pos (hd.imp_right And.right)]
    have hpos : pos + 32 * (l.length + 1) = pos + 32 + 32 * l.length := by omega
    rw [sweep, hv, length_cons, hpos]
    exact ih (pos + 32) fun e he => h e (mem_cons_of_mem d he)

theorem visitNext_short (h : isShort d) (hoff : off ≤ pos) (hpos : pos < 2 ^ 32) :
    visitNext off d pos = .inl (some (d, pos)) := by
  simp only [isShort, decide_eq_true_eq] at h
  rw [visitNext, uint, Nat.mod_eq_of_lt hpos, if_neg (by omega), if_neg h.1, if_neg (by simp [h.2.1, h.2.2])]

theorem sweep_visitNext_pos {l : List Bytes} {pos' : Nat} (h : sweep (visitNext off) l pos = .inl (some (d, pos'))) :
    pos' < pos + 32 * l.length := by
  induction l generalizing pos with
  | nil => cases h
  | cons e l ih =>
    rw [sweep] at h
    rw [length_cons]
    cases hv : visitNext off e pos with
    | inr pos1 =>
      rw [hv] at h
      have hp : pos1 = pos + 32 := by
        rw [visitNext] at hv
        grind
      have := ih h
      omega
    | inl r =>
      rw [hv] at h
      have hp : pos' = uint pos := by
        rw [visitNext] at hv
        grind
      rw [hp, uint]
      omega

/-! ### The backward loop -/

/-- Does slot `p` carry part `seq` of the long name with checksum `c`? -/
def isPart (c : UInt8) (seq : Nat) (p : Bytes) : Bool :=
  !isFree p && dirAttr p = attrLongName && lfnCksum p = c && lfnSeq p = seq

/-- The slots that `freaddir` takes for the rest of a long name from part `seq` on, nearest first. -/
def parts (c : UInt8) : (rev : List Bytes) → (seq : Nat) → List Bytes
  | [], _ => []
  | p :: ps, seq => if isPart c seq p then p :: parts c ps (seq + 1) else []

/-- The characters of the parts, from number `base` of the buffer on. -/
def fill (buf : Nat → Nat) : (base : Nat) → List Bytes → Nat → Nat
  | _, [] => buf
  | base, p :: ps => fill (putUnits buf base (lfnUnits p)) (base + 13) ps

theorem readBack_eq (slot : Nat → Bytes) (c : UInt8) (k seq : Nat) (buf : Nat → Nat) :
    readBack slot c k (seq + 1) buf =
      (seq + (parts c ((List.range k).reverse.map slot) (seq + 1)).length,
        fill buf (seq * 13) (parts c ((List.range k).reverse.map slot) (seq + 1))) := by
  induction k generalizing seq buf with
  | zero => rfl
  | succ k ih =>
    have hrev : (List.range (k + 1)).reverse.map slot = slot k :: (List.range k).reverse.map slot := by
      rw [range_succ, reverse_append]
      rfl
    have hcond : (isFree (slot k) ∨ dirAttr (slot k) ≠ attrLongName ∨ lfnCksum (slot k) ≠ c ∨
        lfnSeq (slot k) ≠ seq + 1) ↔ ¬isPart c (seq + 1) (slot k) = true := by
      simp only [isPart, Bool.and_eq_true, Bool.not_eq_true', decide_eq_true_eq, ne_eq]
      cases isFree (slot k) with
      | false => simp; tauto
      | true => simp
    rw [hrev, readBack, parts]
    by_cases hp : isPart c (seq + 1) (slot k) = true
    · have hbase : (seq + 1) * 13 = seq * 13 + 13 := by omega
      rw [if_neg (fun h => hcond.mp h hp), if_pos hp, ih (seq + 1), Nat.add_sub_cancel, hbase, length_cons, fill]
      congr 1
      omega
    · rw [if_pos (hcond.mpr hp), if_neg hp]
      rfl

theorem isPart_cut (c : UInt8) (seq : Nat) (p : Bytes) : isPart c seq (cut p) = isPart c seq p := rfl

theorem parts_cut (c : UInt8) (l : List Bytes) (seq : Nat) : parts c (l.map cut) seq = (parts c l seq).map cut := by
  induction l generalizing seq with
  | nil => rfl
  | cons p l ih =>
    rw [map_cons, parts, parts, isPart_cut]
    split
    · rw [ih, map_cons]
    · rfl

theorem fill_cut (buf : Nat → Nat) (base : Nat) (l : List Bytes) : fill buf base (l.map cut) = fill buf base l := by
  induction l generalizing buf base with
  | nil => rfl
  | cons p l ih => rw [map_cons, fill, fill, lfnUnits_cut, ih]

/-- The long name that `freaddir` reports for an entry with the slots `rev` in front of it, nearest first. -/
def reported (junk : Nat → Nat) (rev : List Bytes) (sn : List UInt8) : Option Name :=
  let ps := parts (lfnChecksum sn) rev 1
  if 0 < ps.length then some (printUnits (fill junk 0 ps) (ps.length * 13) 0 0) else none

/-- The name that it prints. -/
def printedName (junk : Nat → Nat) (rev : List Bytes) (sn : List UInt8) : Name :=
  (reported junk rev sn).getD (render83 sn)

theorem printedName_cut (junk : Nat → Nat) (rev : List Bytes) (sn : List UInt8) :
    printedName junk (rev.map cut) sn = printedName junk rev sn := by
  rw [printedName, printedName, reported, reported, parts_cut, length_map, fill_cut]

theorem recordOf_eq (slot : Nat → Bytes) (junk : Nat → Nat) (d : Bytes) (k : Nat) :
    recordOf slot junk d k =
      ⟨fstClus d % 65536, printedName junk ((List.range k).reverse.map slot) (dirName d), uint (32 * k + 32)⟩ := by
  have h := readBack_eq slot (lfnChecksum (dirName d)) k 0 junk
  rw [recordOf, h, printedName, reported, Nat.zero_add, Nat.zero_mul]
  dsimp only
  split <;> rfl

/-! ### Reading a chain -/

theorem Links.backClus_eq {fm : Mount} {disk : Disk} {c : Nat} {cs : List Nat} (h : Links fm disk c cs) {q x : Nat}
    (hx : cs[q]? = some x) : backClus fm disk q c = x := by
  induction h generalizing q with
  | last hc he =>
    cases q with
    | zero => exact Option.some.inj hx
    | succ q => cases hx
  | next hc ht ih =>
    cases q with
    | zero => exact Option.some.inj hx
    | succ q =>
      rw [backClus, if_neg (Nat.not_le.mpr ht.head.1.2)]
      exact ih hx

section Chain

variable {v : Volume} (ok : v.Ok) {disk : Disk} {c : Nat} {cs : List Nat}
include ok

theorem Chain.backSlot_eq (h : Chain v disk c cs) (hk : k < (slots v disk cs).length) :
    (slots v disk cs)[k]? = some (cut (backSlot v.toMount disk c k)) := by
  rcases clus_of_lt ok (fun _ hy => h.valid hy) hk with ⟨x, hx, hxv⟩
  have hback : backSlot v.toMount disk c k = sread disk (slotPos v x k).1 (slotPos v x k).2 := by
    rw [backSlot, (clusBytes_eq v).1, (clusBytes_eq v).2, Nat.mul_div_mul_left _ _ (by omega), Nat.mul_mod_mul_left,
      (h.links ok).backClus_eq hx, bps]
    rfl
  rw [slots_getElem? ok (fun _ hy => h.valid hy) hx, hback, ok.sread_slot hxv]

theorem Chain.recordOf_eq (h : Chain v disk c cs) (junk : Nat → Nat) (d : Bytes) (hk : k ≤ (slots v disk cs).length) :
    recordOf (backSlot v.toMount disk c) junk d k =
      ⟨fstClus d % 65536, printedName junk ((slots v disk cs).take k).reverse (dirName d), uint (32 * k + 32)⟩ := by
  have hlist : ((List.range k).map (backSlot v.toMount disk c)).map cut = (slots v disk cs).take k := by
    apply ext_getElem?
    intro i
    rw [getElem?_take, map_map, getElem?_map]
    by_cases hi : i < k
    · rw [if_pos hi, getElem?_range hi, Option.map_some, h.backSlot_eq ok (by omega)]
      rfl
    · rw [if_neg hi, getElem?_eq_none (by rw [length_range]; omega)]
      rfl
  rw [Fat32.recordOf_eq, ← printedName_cut, map_reverse, map_reverse, hlist]

theorem Chain.freaddir_eq (h : Chain v disk c cs) {attrs : UInt8} (hd : attrs &&& attrDirectory ≠ 0)
    (junk : Nat → Nat) (off : Nat) :
    freaddir v.toMount disk ⟨c, attrs⟩ junk off = some
      (match sweep (visitNext off) (slots v disk cs) 0 with
        | .inl (some (d, pos)) => some ⟨fstClus d % 65536,
            printedName junk ((slots v disk cs).take (pos / 32)).reverse (dirName d), uint (32 * (pos / 32) + 32)⟩
        | _ => none) := by
  rw [freaddir, if_neg hd, (h.links ok).sweep_eq (h.links ok).length_lt, slots_eq, sweep_visitNext_cut, ← slots_eq,
    Option.map_some]
  cases hs : sweep (visitNext off) (rawSlots v disk cs) 0 with
  | inr pos => rfl
  | inl r =>
    cases r with
    | none => rfl
    | some e =>
      rcases e with ⟨d, pos⟩
      have hpos : pos / 32 ≤ (slots v disk cs).length := by
        rw [slots_eq, length_map]
        have := sweep_visitNext_pos hs
        omega
      have hcut : (Sum.inl (some (d, pos)) : Sum (Option (Bytes × Nat)) Nat).map cutEntry id =
          .inl (some (cut d, pos)) := rfl
      rw [hcut]
      dsimp only
      rw [h.recordOf_eq ok junk d hpos, fstClus_cut, dirName_cut]

end Chain

end Xv6Vfs.Fat32
