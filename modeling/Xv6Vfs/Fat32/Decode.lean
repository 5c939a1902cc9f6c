import Xv6Vfs.Fat32.Encode
import Xv6Vfs.Fat32.Reading

/-! Both decoders read back what `fcreate` wrote: the forward one of `dlookup` and the backward one
of `freaddir`. -/
namespace Xv6Vfs.Fat32
open Xv6Vfs.Bytes Xv6Vfs.Vfs List

variable {c : UInt8}

/-! ### The printed name -/

/-- The characters in front of the end mark that are ASCII, as bytes. -/
def asciiUnits (u : List Nat) : Name := ((u.takeWhile (· ≠ 0)).filter (· < 128)).map UInt8.ofNat

theorem asciiUnits_cons (u : Nat) (us : List Nat) : asciiUnits (u :: us) =
    if u = 0 then [] else if u < 128 then UInt8.ofNat u :: asciiUnits us else asciiUnits us := by
  unfold asciiUnits
  by_cases h0 : u = 0
  · rw [if_pos h0, takeWhile_cons_of_neg (by simpa using h0)]
    rfl
  · rw [if_neg h0, takeWhile_cons_of_pos (by simpa using h0)]
    by_cases h1 : u < 128
    · rw [if_pos h1, filter_cons_of_pos (by simpa using h1)]
      rfl
    · rw [if_neg h1, filter_cons_of_neg (by simpa using h1)]

theorem printUnits_eq (buf : Nat → Nat) (k i nl : Nat) :
    printUnits buf k i nl = (asciiUnits ((List.range k).map fun j => buf (i + j))).take (255 - nl) := by
  induction k generalizing i nl with
  | zero => simp [printUnits, asciiUnits]
  | succ k ih =>
    have hcons : (List.range (k + 1)).map (fun j => buf (i + j)) =
        buf i :: (List.range k).map fun j => buf (i + 1 + j) := by
      rw [range_succ_eq_map, map_cons, map_map]
      congr 1
      apply map_congr_left
      intro j _
      dsimp only [Function.comp_apply]
      congr 1
      omega
    rw [printUnits, hcons, asciiUnits_cons, ih, ih]
    by_cases hl : nl < 255
    · have h255 : 255 - nl = 255 - (nl + 1) + 1 := by omega
      rw [if_pos hl]
      split
      · rw [take_nil]
      · split
        · rw [h255, take_succ_cons]
        · rfl
    · have h0 : 255 - nl = 0 := by omega
      rw [if_neg hl, h0, take_zero]

theorem asciiUnits_append {nm : Name} (h : ∀ b ∈ nm, b ≠ 0 ∧ b.toNat < 128) (us : List Nat) :
    asciiUnits (nm.map UInt8.toNat ++ us) = nm ++ asciiUnits us := by
  induction nm with
  | nil => rfl
  | cons b nm ih =>
    have hb := h b mem_cons_self
    have h0 : b.toNat ≠ 0 := fun h0 => hb.1 (UInt8.toNat_inj.mp h0)
    rw [map_cons, cons_append, asciiUnits_cons, if_neg h0, if_pos hb.2, UInt8.ofNat_toNat,
      ih fun c hc => h c (mem_cons_of_mem b hc)]
    rfl

/-! ### The buffer of `freaddir` -/

theorem fill_eq (buf : Nat → Nat) (base : Nat) (ps : List Bytes) (i : Nat) :
    fill buf base ps i =
      if base ≤ i ∧ i < base + 13 * ps.length ∧ i < 260 then (ps.flatMap lfnUnits).getD (i - base) 0 else buf i := by
  induction ps generalizing buf base with
  | nil => rw [if_neg (by rw [length_nil]; omega)]; rfl
  | cons p ps ih =>
    have hu := lfnUnits_length p
    rw [fill, ih, length_cons, flatMap_cons, putUnits, hu]
    by_cases h1 : base + 13 ≤ i ∧ i < base + 13 + 13 * ps.length ∧ i < 260
    · rw [if_pos h1, if_pos (by omega), getD_append_right _ _ _ _ (by omega), hu, Nat.sub_sub]
    · rw [if_neg h1]
      by_cases h2 : base ≤ i ∧ i < base + 13 ∧ i < 260
      · rw [if_pos h2, if_pos (by omega), getD_append _ _ _ _ (by omega)]
      · rw [if_neg h2, if_neg (by omega)]

theorem fill_append (buf : Nat → Nat) (base : Nat) (ps qs : List Bytes) :
    fill buf base (ps ++ qs) = fill (fill buf base ps) (base + 13 * ps.length) qs := by
  induction ps generalizing buf base with
  | nil => rfl
  | cons p ps ih =>
    rw [cons_append, fill, fill, ih, length_cons]
    congr 1
    omega

theorem fill_range {ps : List Bytes} (buf : Nat → Nat) (h : ps.length ≤ 20) :
    ((List.range (13 * ps.length)).map fun j => fill buf 0 ps (0 + j)) = ps.flatMap lfnUnits := by
  have hlen := units_length ps
  apply ext_getElem
  · rw [length_map, length_range, hlen]
  · intro i h1 h2
    rw [length_map, length_range] at h1
    rw [getElem_map, getElem_range, fill_eq, if_pos (by omega), Nat.zero_add, Nat.sub_zero, getD_eq_getElem _ _ h2]

/-! ### Parts of a long name -/

theorem isPart_of {seq : Nat} {p : Bytes} (h : isLfn p) (hc : lfnCksum p = c) (hs : lfnSeq p = seq) :
    isPart c seq p := by
  simp only [isLfn, decide_eq_true_eq] at h
  have hf : isFree p = false := decide_eq_false (by simp [h.1, h.2.1])
  rw [isPart, hf, hc, hs, h.2.2.1]
  simp

theorem parts_numbered {run : List Bytes} (rest : List Bytes) (h : numbered c run) (hl : ∀ r ∈ run, isLfn r) :
    parts c (run.reverse ++ rest) 1 = run.reverse ++ parts c rest (run.length + 1) := by
  induction run generalizing rest with
  | nil => rfl
  | cons r run ih =>
    simp only [numbered, Bool.and_eq_true, decide_eq_true_eq] at h
    rcases h with ⟨⟨⟨hseq, -⟩, hck⟩, hrun⟩
    have hp := isPart_of (hl r mem_cons_self) hck hseq
    rw [reverse_cons, append_assoc, singleton_append,
      ih (r :: rest) hrun fun x hx => hl x (mem_cons_of_mem r hx), parts, if_pos hp, length_cons,
      append_assoc]
    rfl

/-- `freaddir` takes all slots of a long name, and any in front of them that continue the numbers. -/
theorem parts_whole {run : List Bytes} (rest : List Bytes) (h : whole c run) (hl : ∀ r ∈ run, isLfn r) :
    parts c (run.reverse ++ rest) 1 = run.reverse ++ parts c rest (run.length + 1) := by
  cases run with
  | nil => cases h
  | cons r run =>
    simp only [whole, Bool.and_eq_true, decide_eq_true_eq] at h
    rcases h with ⟨⟨⟨hseq, -⟩, hck⟩, hrun⟩
    have hp := isPart_of (hl r mem_cons_self) hck hseq
    rw [reverse_cons, append_assoc, singleton_append,
      parts_numbered (r :: rest) hrun fun x hx => hl x (mem_cons_of_mem r hx), parts, if_pos hp,
      length_cons, append_assoc]
    rfl

/-! ### The long name of a new entry -/

/-- A path component: 1 to 255 bytes without NUL. -/
structure GoodName (nm : Name) : Prop where
  ne_nil : nm ≠ []
  length : nm.length ≤ 255
  nul : 0 ∉ nm

section Name

variable {nm : Name} (hn : GoodName nm)
include hn

theorem GoodName.lfnCount_le : lfnCount nm ≤ 20 := by
  have := hn.length
  rw [lfnCount, lfnEntriesNeeded]
  split
  · omega
  · omega

section

variable (hf : fits83 nm = false)
include hf

theorem GoodName.lfnCount_eq : 0 < lfnCount nm ∧ nm.length ≤ lfnCount nm * 13 ∧ lfnCount nm * 13 < nm.length + 13 := by
  have hpos := length_pos_iff.mpr hn.ne_nil
  rw [lfnCount, hf, lfnEntriesNeeded, if_neg Bool.false_ne_true]
  omega

theorem GoodName.units (c : UInt8) :
    ∃ us, (lfnEntries nm (lfnCount nm) c).reverse.flatMap lfnUnits = nm.map UInt8.toNat ++ us ∧
      (nm.length < lfnCount nm * 13 → ∃ t, us = 0 :: t) ∧ (nm.length = lfnCount nm * 13 → us = []) := by
  have hle := (hn.lfnCount_eq hf).2.1
  have htake : (nm.map UInt8.toNat).take (lfnCount nm * 13) = nm.map UInt8.toNat :=
    take_of_length_le (by rwa [length_map])
  rw [units_lfnEntries, uname, htake]
  rw [take_append, length_map, take_of_length_le (by rwa [length_map])]
  refine ⟨_, rfl, fun h => ?_, fun h => ?_⟩
  · obtain ⟨m, hm⟩ : ∃ m, lfnCount nm * 13 - nm.length = m + 1 := ⟨lfnCount nm * 13 - nm.length - 1, by omega⟩
    rw [hm, take_succ_cons]
    exact ⟨_, rfl⟩
  · rw [h, Nat.sub_self, take_zero]

theorem GoodName.nameUnits_eq (c : UInt8) :
    nameUnits ((lfnEntries nm (lfnCount nm) c).reverse.flatMap lfnUnits) = nm.map UInt8.toNat := by
  rcases hn.units hf c with ⟨us, hus, hlt, heq⟩
  have hall : ∀ u ∈ nm.map UInt8.toNat, decide (u ≠ 0 ∧ u ≠ 0xFFFF) = true := by
    intro u hu
    rcases mem_map.mp hu with ⟨b, hb, rfl⟩
    have hb0 : b.toNat ≠ 0 := by
      intro h0
      have h : b = 0 := UInt8.toNat_inj.mp h0
      exact hn.nul (h ▸ hb)
    have := b.toNat_lt
    rw [decide_eq_true_eq]
    omega
  have hend : us.takeWhile (fun u => decide (u ≠ 0 ∧ u ≠ 0xFFFF)) = [] := by
    rcases Nat.lt_or_ge nm.length (lfnCount nm * 13) with h | h
    · rcases hlt h with ⟨t, rfl⟩
      rfl
    · rw [heq (by have := (hn.lfnCount_eq hf).2.1; omega)]
      rfl
  rw [hus, nameUnits, takeWhile_append_of_pos hall, hend, append_nil]

theorem GoodName.asciiName_eq (c : UInt8) :
    asciiName (nameUnits ((lfnEntries nm (lfnCount nm) c).reverse.flatMap lfnUnits)) =
      nm.filter fun b => b.toNat < 128 := by
  have hlen : (nm.filter fun b => decide (b.toNat < 128)).length ≤ 255 :=
    (length_filter_le _ nm).trans hn.length
  rw [hn.nameUnits_eq hf, asciiName, filter_map, ← map_take, map_map,
    show (fun n => decide (n < 128)) ∘ UInt8.toNat = fun b : UInt8 => decide (b.toNat < 128) from rfl,
    take_of_length_le hlen]
  exact (map_congr_left fun b _ => UInt8.ofNat_toNat).trans (map_id _)

end

end Name

end Xv6Vfs.Fat32
