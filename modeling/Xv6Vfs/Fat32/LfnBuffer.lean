import Xv6Vfs.Fat32.Decode

/-! The indices that `dlookup` and `freaddir` use on `lfn_buf` and on the string that they make of it, for any slots. -/
namespace Xv6Vfs.Fat32
open Xv6Vfs.Vfs List

variable {base i : Int}

/-- A use of `lfn_buf[i]`, or of `lfn_str[i]` or `vde.name[i]`. -/
inductive Touch where
  | store (i : Int)
  | load (i : Int)
  | str (i : Nat)
deriving DecidableEq

/-- Indices are in range, `bound` being the size of the string, and cells are stored before they are loaded; `w` are
those that have been stored before. -/
def inRange (bound : Nat) : (w : List Int) → List Touch → Bool
  | _, [] => true
  | w, .store i :: ts => (0 ≤ i ∧ i < 260) && inRange bound (i :: w) ts
  | w, .load i :: ts => (0 ≤ i ∧ i < 260 ∧ i ∈ w) && inRange bound w ts
  | w, .str i :: ts => i < bound && inRange bound w ts

/-- The cells that have been stored then. -/
def stored : (w : List Int) → List Touch → List Int
  | w, [] => w
  | w, .store i :: ts => stored (i :: w) ts
  | w, _ :: ts => stored w ts

/-! ### The uses -/

/-- `for(i = 0; i < n && base + i < 260; i++) lfn_buf[base + i] = ..`. -/
def stores (base : Int) (n : Nat) : List Touch :=
  (((List.range n).map fun i : Nat => base + i).filter (· < 260)).map .store

/-- The string made of `k` characters of the buffer from `i` on, up to one that `ends` it, and its NUL. -/
def stringTouches (ends : Nat → Bool) (buf : Nat → Nat) : (k i len : Nat) → List Touch
  | 0, _, len => [.str len]
  | k + 1, i, len =>
    if len < 255 then
      .load i :: if ends (buf i) then [.str len]
        else if buf i < 128 then .str len :: stringTouches ends buf k (i + 1) (len + 1)
        else stringTouches ends buf k (i + 1) len
    else [.str len]

/-- The long name collected so far is compared at the entry `d`. -/
def compares (d : Bytes) (st : Lfn) : Bool := st.active ∧ 0 < st.chars ∧ lfnChecksum (dirName d) = st.cksum

/-- The slot is a further one of the long name that is being collected. -/
def goesOn (d : Bytes) (st : Lfn) : Bool := st.active ∧ lfnCksum d = st.cksum ∧ lfnSeq d = st.next

/-- One slot in `dlookup`. -/
def slotTouches (d : Bytes) (st : Lfn) : List Touch :=
  let base : Int := (lfnSeq d - 1) * 13
  if isFree d then []
  else if dirAttr d = attrLongName then
    if lfnLast d || goesOn d st then stores base 5 ++ stores (base + 5) 6 ++ stores (base + 11) 2 else []
  else if compares d st then stringTouches (fun u => u = 0 ∨ u = 0xFFFF) st.buf st.chars 0 0
  else []

/-- `dlookup` over the slots of a directory. -/
def scanTouches (nm : Name) : List Bytes → Lfn → List Touch
  | [], _ => []
  | d :: ds, st =>
    slotTouches d st ++
      match visit nm d st with
      | some (.next st') => scanTouches nm ds st'
      | _ => []

/-- The stores of `freaddir` for a slot. -/
def backStores (start : Nat) : List Touch :=
  (if start + 5 ≤ 260 then stores start 5 else []) ++ (if start + 11 ≤ 260 then stores (start + 5) 6 else []) ++
    if start + 13 ≤ 260 then stores (start + 11) 2 else []

/-- `freaddir` for an entry with the short name `sn` and the slots `rev` in front of it, nearest first. -/
def recordTouches (junk : Nat → Nat) (rev : List Bytes) (sn : List UInt8) : List Touch :=
  let ps := parts (lfnChecksum sn) rev 1
  (List.range ps.length).flatMap (fun j => backStores (j * 13)) ++
    if 0 < ps.length then stringTouches (· = 0) (fill junk 0 ps) (ps.length * 13) 0 0
    else (List.range ((render83 sn).length + 1)).map .str

/-! ### Sequences of uses -/

section InRange

variable {bound : Nat} {w : List Int} {ts us : List Touch}

theorem inRange_append : inRange bound w (ts ++ us) = (inRange bound w ts && inRange bound (stored w ts) us) := by
  induction ts generalizing w with
  | nil => rfl
  | cons t ts ih => cases t <;> simp only [cons_append, inRange, stored, ih, Bool.and_assoc]

theorem mem_stored : i ∈ stored w ts ↔ i ∈ w ∨ .store i ∈ ts := by
  induction ts generalizing w with
  | nil => simp [stored]
  | cons t ts ih =>
    cases t with
    | store j =>
      rw [stored, ih, mem_cons, mem_cons, Touch.store.injEq, or_assoc, or_left_comm]
    | load j => simp [stored, ih]
    | str j => simp [stored, ih]

theorem inRange_of_stores (h : ∀ t ∈ ts, (∃ i : Int, t = .store i ∧ 0 ≤ i ∧ i < 260) ∨ ∃ i, t = .str i ∧ i < bound) :
    inRange bound w ts := by
  induction ts generalizing w with
  | nil => rfl
  | cons t ts ih =>
    obtain ⟨ht, hts⟩ := forall_mem_cons.mp h
    cases ht with
    | inl ht =>
      obtain ⟨i, rfl, hi⟩ := ht
      rw [inRange, decide_eq_true hi, ih hts]
      rfl
    | inr ht =>
      obtain ⟨i, rfl, hi⟩ := ht
      rw [inRange, decide_eq_true hi, ih hts]
      rfl

theorem mem_stores {n : Nat} {t : Touch} :
    t ∈ stores base n ↔ ∃ i : Int, t = .store i ∧ base ≤ i ∧ i < base + n ∧ i < 260 := by
  simp only [stores, mem_map, mem_filter, mem_range, decide_eq_true_eq]
  constructor
  · rintro ⟨i, ⟨⟨j, hj, rfl⟩, hlt⟩, rfl⟩
    exact ⟨_, rfl, by omega, by omega, hlt⟩
  · rintro ⟨i, rfl, h1, h2, h3⟩
    exact ⟨i, ⟨⟨(i - base).toNat, by omega, by omega⟩, h3⟩, rfl⟩

theorem mem_units : .store i ∈ stores base 5 ++ stores (base + 5) 6 ++ stores (base + 11) 2 ↔
    base ≤ i ∧ i < base + 13 ∧ i < 260 := by
  simp only [mem_append, mem_stores, Touch.store.injEq, exists_eq_left']
  omega

theorem units_inRange (h : 0 ≤ base) :
    inRange bound w (stores base 5 ++ stores (base + 5) 6 ++ stores (base + 11) 2) := by
  apply inRange_of_stores
  simp only [mem_append, mem_stores]
  rintro t ((⟨i, rfl, hi⟩ | ⟨i, rfl, hi⟩) | ⟨i, rfl, hi⟩) <;> exact .inl ⟨i, rfl, by omega, by omega⟩

theorem stringTouches_inRange (ends : Nat → Bool) (buf : Nat → Nat) (k i len : Nat) (hlen : len ≤ 255)
    (hb : 256 ≤ bound) (h : ∀ j, i ≤ j → j < i + k → j < 260 ∧ (j : Int) ∈ w) :
    inRange bound w (stringTouches ends buf k i len) := by
  have hlt : decide (len < bound) = true := decide_eq_true (by omega)
  induction k generalizing i len with
  | zero => rw [stringTouches, inRange, hlt]; rfl
  | succ k ih =>
    have hi := h i (Nat.le_refl i) (by omega)
    have hload : decide (0 ≤ (i : Int) ∧ (i : Int) < 260 ∧ (i : Int) ∈ w) = true :=
      decide_eq_true ⟨by omega, by omega, hi.2⟩
    have hrest : ∀ j, i + 1 ≤ j → j < i + 1 + k → j < 260 ∧ (j : Int) ∈ w := fun j h1 h2 =>
      h j (by omega) (by omega)
    rw [stringTouches]
    split
    case isFalse => rw [inRange, hlt]; rfl
    case isTrue hl =>
      rw [inRange, hload, Bool.true_and]
      split
      · rw [inRange, hlt]; rfl
      · split
        · rw [inRange, hlt, ih (i + 1) (len + 1) (by omega) hrest (decide_eq_true (by omega))]
          rfl
        · exact ih (i + 1) len hlen hrest hlt

end InRange

/-! ### The scan -/

/-- What a slot has to be like where the scan has come to it: one that is stored is not number 0, and a long name is
compared only if it has at most 20 slots and those down to number 1 have been there. -/
def SlotFits (d : Bytes) (st : Lfn) : Prop :=
  isFree d = false →
    if dirAttr d = attrLongName then lfnLast d || goesOn d st → lfnSeq d ≠ 0
    else compares d st → st.next = 0 ∧ st.chars ≤ 260

def ScanFits (nm : Name) : List Bytes → Lfn → Prop
  | [], _ => True
  | d :: ds, st => SlotFits d st ∧ ∀ st', visit nm d st = some (.next st') → ScanFits nm ds st'

section Scan

variable {nm : Name} {d : Bytes} {st st' : Lfn} {w : List Int}

/-- The cells of a long name that is being collected are stored from the last slot that was met on. -/
structure Collects (st : Lfn) (w : List Int) : Prop where
  next : 13 * st.next ≤ st.chars
  stored : ∀ i : Nat, 13 * st.next ≤ i → i < st.chars → i < 260 → (i : Int) ∈ w

/-- Only a slot of a long name goes on with one. -/
theorem visit_next (h : visit nm d st = some (.next st')) :
    if isFree d = false ∧ dirAttr d = attrLongName then visitLfn d st = some st' else st' = st.reset := by
  rw [visit] at h
  split at h
  · cases h
  case isFalse h0 =>
    split at h
    case isTrue h5 =>
      cases h
      rw [if_neg fun hl : isFree d = false ∧ _ => of_decide_eq_false hl.1 (.inr h5)]
    case isFalse h5 =>
      have hf : isFree d = false := decide_eq_false (not_or.mpr ⟨h0, h5⟩)
      split at h
      case isTrue ha =>
        obtain ⟨st1, h1, h2⟩ := Option.map_eq_some_iff.mp h
        cases h2
        rw [if_pos ⟨hf, ha⟩, h1]
      case isFalse ha =>
        split at h
        · cases h
        · cases h
          rw [if_neg fun hl : _ ∧ dirAttr d = attrLongName => ha hl.2]

theorem slot_step (hfit : SlotFits d st) (hinv : st.active = true → Collects st w) :
    inRange 260 w (slotTouches d st) ∧ ∀ st', visit nm d st = some (.next st') →
      st'.active = true → Collects st' (stored w (slotTouches d st)) := by
  unfold slotTouches
  cases hf : isFree d with
  | true =>
    refine ⟨rfl, fun st' hv ha => ?_⟩
    have hr := visit_next hv
    rw [if_neg fun h => Bool.noConfusion (hf.symm.trans h.1)] at hr
    rw [hr] at ha
    cases ha
  | false =>
    have hfit := hfit hf
    by_cases ha : dirAttr d = attrLongName
    · rw [if_pos ha] at hfit
      rw [if_neg Bool.false_ne_true, if_pos ha]
      cases hl : lfnLast d with
      | true =>
        have hseq := hfit (by rw [hl, Bool.true_or])
        rw [Bool.true_or, if_pos rfl]
        refine ⟨units_inRange (by omega), fun st' hv _ => ?_⟩
        have hv := visit_next hv
        rw [if_pos ⟨hf, ha⟩, visitLfn, hl, if_pos rfl, if_neg hseq] at hv
        cases hv
        refine ⟨by dsimp only; omega, fun i h1 h2 h3 => mem_stored.mpr (.inr (mem_units.mpr ?_))⟩
        dsimp only at h1 h2
        omega
      | false =>
        rw [Bool.false_or]
        cases hg : goesOn d st with
        | true =>
          have hseq := hfit (by rw [hg, Bool.or_true])
          have hg' := of_decide_eq_true hg
          have hc := hinv hg'.1
          have hn := hc.next
          rw [if_pos rfl]
          refine ⟨units_inRange (by omega), fun st' hv _ => ?_⟩
          have hv := visit_next hv
          rw [if_pos ⟨hf, ha⟩, visitLfn, hl, if_neg Bool.false_ne_true, if_pos hg', if_neg hseq] at hv
          cases hv
          refine ⟨by dsimp only; omega, fun i h1 h2 h3 => mem_stored.mpr ?_⟩
          dsimp only at h1 h2
          by_cases hi : 13 * st.next ≤ i
          · exact .inl (hc.stored i hi h2 h3)
          · exact .inr (mem_units.mpr (by omega))
        | false =>
          rw [if_neg Bool.false_ne_true]
          refine ⟨rfl, fun st' hv hact => ?_⟩
          have hv := visit_next hv
          rw [if_pos ⟨hf, ha⟩, visitLfn, hl, if_neg Bool.false_ne_true, if_neg (of_decide_eq_false hg)] at hv
          cases hv
          cases hact
    · rw [if_neg ha] at hfit
      rw [if_neg Bool.false_ne_true, if_neg ha]
      refine ⟨?_, fun st' hv hact => ?_⟩
      · split
        case isTrue hcmp =>
          have hc := hinv (of_decide_eq_true hcmp).1
          obtain ⟨h0, hb⟩ := hfit hcmp
          exact stringTouches_inRange _ _ _ _ _ (by omega) (by omega) fun j _ hj =>
            ⟨by omega, hc.stored j (by omega) (by omega) (by omega)⟩
        case isFalse => rfl
      · have hr := visit_next hv
        rw [if_neg fun h => ha h.2] at hr
        rw [hr] at hact
        cases hact

theorem scan_inRange {l : List Bytes} (hfit : ScanFits nm l st) (hinv : st.active = true → Collects st w) :
    inRange 260 w (scanTouches nm l st) := by
  induction l generalizing st w with
  | nil => rfl
  | cons d l ih =>
    obtain ⟨hin, hnext⟩ := @slot_step nm d st w hfit.1 hinv
    rw [scanTouches, inRange_append, hin, Bool.true_and]
    split
    case h_1 st' hv => exact ih (hfit.2 st' hv) (hnext st' hv)
    case h_2 => rfl

end Scan

/-! ### The records -/

theorem render83_short (sn : List UInt8) : (render83 sn).length ≤ 12 := by
  have h8 := (takeWhile_sublist (l := sn.take 8) fun u => decide (u ≠ 32)).length_le
  have h3 := (takeWhile_sublist (l := (sn.drop 8).take 3) fun u => decide (u ≠ 32)).length_le
  rw [length_take] at h8 h3
  unfold render83
  dsimp only
  split
  · rw [length_append, length_map, length_cons, length_map]
    omega
  · rw [append_nil, length_map]
    omega

theorem record_inRange (junk : Nat → Nat) {rev : List Bytes} {sn : List UInt8}
    (h : (parts (lfnChecksum sn) rev 1).length ≤ 20) : inRange 256 [] (recordTouches junk rev sn) := by
  unfold recordTouches
  generalize parts (lfnChecksum sn) rev 1 = ps at h ⊢
  have hunits : ∀ j < ps.length, backStores (j * 13) =
      stores (j * 13 : Nat) 5 ++ stores ((j * 13 : Nat) + 5) 6 ++ stores ((j * 13 : Nat) + 11) 2 := by
    intro j hj
    rw [backStores, if_pos (by omega), if_pos (by omega), if_pos (by omega)]
  have hmem : ∀ t, t ∈ (List.range ps.length).flatMap (fun j => backStores (j * 13)) ↔
      ∃ i : Int, t = .store i ∧ 0 ≤ i ∧ i < 13 * ps.length := by
    intro t
    rw [mem_flatMap]
    constructor
    · rintro ⟨j, hj, ht⟩
      rw [mem_range] at hj
      rw [hunits j hj] at ht
      simp only [mem_append, mem_stores] at ht
      obtain (⟨i, rfl, hi⟩ | ⟨i, rfl, hi⟩) | ⟨i, rfl, hi⟩ := ht <;> exact ⟨i, rfl, by omega, by omega⟩
    · rintro ⟨i, rfl, h0, hi⟩
      refine ⟨i.toNat / 13, mem_range.mpr (by omega), ?_⟩
      rw [hunits _ (by omega)]
      exact mem_units.mpr (by omega)
  rw [inRange_append, Bool.and_eq_true]
  constructor
  · refine inRange_of_stores fun t ht => ?_
    obtain ⟨i, rfl, h0, hi⟩ := (hmem t).mp ht
    exact .inl ⟨i, rfl, h0, by omega⟩
  · split
    · refine stringTouches_inRange _ _ _ _ _ (by omega) (by omega) fun j _ hj => ⟨by omega, ?_⟩
      exact mem_stored.mpr (.inr ((hmem _).mpr ⟨j, rfl, by omega, by omega⟩))
    · refine inRange_of_stores fun t ht => .inr ?_
      obtain ⟨i, hi, rfl⟩ := mem_map.mp ht
      have hlen := render83_short sn
      exact ⟨i, rfl, by have := mem_range.mp hi; omega⟩

/-- The slots of a directory: each one fits where `dlookup` comes to it, and in front of each entry at most 20 slots
have the numbers from 1 on and its checksum. -/
structure SlotsFit (nm : Name) (junk : Nat → Nat) (l : List Bytes) : Prop where
  scan : ScanFits nm l ⟨junk, 0, 0, false, 0⟩
  back : ∀ l1 d l2, l = l1 ++ d :: l2 → isShort d → (parts (lfnChecksum (dirName d)) l1.reverse 1).length ≤ 20

theorem lfn_indices_in_range {nm : Name} {junk : Nat → Nat} {l : List Bytes} (h : SlotsFit nm junk l) :
    inRange 260 [] (scanTouches nm l ⟨junk, 0, 0, false, 0⟩) ∧
      ∀ l1 d l2 junk', l = l1 ++ d :: l2 → isShort d → inRange 256 [] (recordTouches junk' l1.reverse (dirName d)) :=
  ⟨scan_inRange h.scan nofun, fun l1 d l2 junk' hl hs => record_inRange junk' (h.back l1 d l2 hl hs)⟩

/-- A slot with the checksum of the entry "LONGFILE": number `ei + 1` of a long name. -/
def partSlot (units : List Nat) (ei : Nat) (last : Bool) : Bytes :=
  lfnEntry (lfnChecksum (dirName longfileSlot)) units ei last

/-- No ASCII character, and no end. -/
def highUnits : List Nat := List.replicate 13 0x100

/-- The entry "longfilename" with the short name "LONGFILE". -/
def wholeSlots : List Bytes := [partSlot (uname longfilename 13) 0 true, longfileSlot]

theorem whole_name_in_range : SlotsFit longfilename (fun _ => 0) wholeSlots ∧
    inRange 260 [] (scanTouches longfilename wholeSlots ⟨fun _ => 0, 0, 0, false, 0⟩) := by
  have hfacts : (let d := partSlot (uname longfilename 13) 0 true
      isFree d = false ∧ dirAttr d = attrLongName ∧ lfnLast d = true ∧ lfnSeq d = 1 ∧
        (parts (lfnChecksum (dirName longfileSlot)) [d] 1).length ≤ 20) ∧ dirAttr longfileSlot ≠ attrLongName := by
    decide +kernel
  obtain ⟨⟨hfree, hattr, hlast, hseq, hparts⟩, hshort⟩ := hfacts
  have hfit : SlotsFit longfilename (fun _ => 0) wholeSlots := by
    refine ⟨⟨fun _ => ?_, fun st hv => ⟨fun _ => ?_, fun _ _ => trivial⟩⟩, fun l1 d l2 hl hs => ?_⟩
    · rw [if_pos hattr, hseq]
      exact fun _ => Nat.one_ne_zero
    · have hv := visit_next hv
      rw [if_pos ⟨hfree, hattr⟩, visitLfn, if_pos hlast, hseq, if_neg (by decide)] at hv
      rw [if_neg hshort, ← Option.some.inj hv]
      exact fun _ => ⟨rfl, by decide⟩
    · cases l1 with
      | nil => exact Nat.zero_le _
      | cons a l1 =>
        cases l1 with
        | nil =>
          simp only [wholeSlots, cons_append, nil_append, List.cons.injEq] at hl
          rw [← hl.1, ← hl.2.1]
          exact hparts
        | cons b l1 => simp [wholeSlots] at hl
  exact ⟨hfit, (lfn_indices_in_range hfit).1⟩

/-- The numbers 1 to 21 in front of the entry, nearest first. -/
def manySlots : List Bytes := (List.range 21).map fun ei => partSlot highUnits ei (ei = 20)

/-- Number 0, number 2 without number 1, and too many numbers. -/
theorem damaged_names_out_of_range :
    inRange 260 [] (scanTouches longfilename [Function.update (partSlot highUnits 0 true) 0 0x40]
      ⟨fun _ => 0, 0, 0, false, 0⟩) = false ∧
    inRange 260 [] (scanTouches longfilename [partSlot highUnits 1 true, longfileSlot]
      ⟨fun _ => 0, 0, 0, false, 0⟩) = false ∧
    inRange 256 [] (recordTouches (fun _ => 0) manySlots (dirName longfileSlot)) = false := by
  decide +kernel

end Xv6Vfs.Fat32
