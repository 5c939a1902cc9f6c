import Xv6Vfs.Ext2.BlockMap

/-! `ext2_i_truncate` gives back the blocks in front of the first hole, each once. -/
namespace Xv6Vfs.Ext2
open Xv6Vfs.Bytes Xv6Vfs.Vfs Function List

variable {a : Bytes} {base i k : Nat}

/-- The pointers of an array from `i` on, up to the first 0. -/
def lead (f : Nat → Nat) : (k i : Nat) → List Nat
  | 0, _ => []
  | k + 1, i => if f i = 0 then [] else f i :: lead f k (i + 1)

section Lead

variable {f g : Nat → Nat} {k i b : Nat}

theorem lead_congr (h : ∀ e, i ≤ e → f e = g e) : lead f k i = lead g k i := by
  induction k generalizing i with
  | zero => rfl
  | succ k ih =>
    unfold lead
    rw [h i (Nat.le_refl i), ih fun e he => h e (by omega)]

theorem lead_length_le (f : Nat → Nat) (k i : Nat) : (lead f k i).length ≤ k := by
  induction k generalizing i with
  | zero => exact Nat.le_refl 0
  | succ k ih =>
    unfold lead
    split
    · exact Nat.zero_le _
    · exact Nat.succ_le_succ (ih (i + 1))

theorem mem_lead (h : b ∈ lead f k i) : b ≠ 0 ∧ ∃ e, i ≤ e ∧ e < i + (lead f k i).length ∧ e < i + k ∧ f e = b := by
  induction k generalizing i with
  | zero => cases h
  | succ k ih =>
    unfold lead at h ⊢
    split at h
    · cases h
    case isFalse h0 =>
      rw [if_neg h0]
      cases h with
      | head => exact ⟨h0, i, Nat.le_refl i, by simp, by omega, rfl⟩
      | tail _ h =>
        obtain ⟨h1, e, h2, h3, h4, h5⟩ := ih h
        exact ⟨h1, e, by omega, by simp only [length_cons]; omega, by omega, h5⟩

theorem lead_ne_zero {e : Nat} (h1 : i ≤ e) (h2 : e < i + (lead f k i).length) : f e ≠ 0 := by
  induction k generalizing i with
  | zero =>
    simp only [lead, length_nil] at h2
    omega
  | succ k ih =>
    unfold lead at h2
    split at h2
    · simp only [length_nil] at h2
      omega
    case isFalse h0 =>
      by_cases he : e = i
      · rwa [he]
      · simp only [length_cons] at h2
        exact ih (i := i + 1) (by omega) (by omega)

theorem pointers_lead (f : Nat → Nat) (k i : Nat) :
    (lead f k i).Sublist (((List.range' i k).map f).filter (· ≠ 0)) := by
  induction k generalizing i with
  | zero => exact nil_sublist _
  | succ k ih =>
    unfold lead
    rw [List.range'_succ, map_cons, filter_cons]
    split
    · exact nil_sublist _
    case isFalse h0 =>
      rw [if_pos (by simpa using h0)]
      exact (ih (i + 1)).cons_cons (f i)

end Lead

/-- The blocks `F` have been given back, and nothing else is changed. -/
structure Freed (F : List Nat) (fs fs' : Fs) : Prop extends Within F fs fs' where
  bits : ∀ b, blockUsed fs' b = (blockUsed fs b && decide (b ∉ F))

section Freed

variable {fs fs1 fs2 : Fs} {b : Nat} {F F' : List Nat}

theorem Freed.refl (fs : Fs) : Freed [] fs fs := ⟨Within.refl [] fs, fun b => by simp⟩

theorem Freed.trans (h1 : Freed F fs fs1) (h2 : Freed F' fs1 fs2) : Freed (F ++ F') fs fs2 where
  toWithin := (h1.toWithin.mono fun _ => mem_append_left _).trans h2.toWithin fun _ hb _ => mem_append_right _ hb
  bits b := by
    rw [h2.bits, h1.bits, Bool.and_assoc, ← Bool.decide_and]
    simp only [mem_append, not_or]

theorem freed_bfree (hg : Geo fs) (hm : ¬ Meta fs b) : Freed [b] fs (bfree b fs) := by
  refine ⟨bfree_within hg hm, fun b' => ?_⟩
  rw [bfree_bits hg]
  simp only [mem_singleton, ne_comm]

theorem freeArray_stop (h0 : u32 a (base + 4 * i) = 0) : freeArray base k i a fs = (a, fs) := by
  cases k with
  | zero => rfl
  | succ k => exact if_pos h0

theorem freeArray_step (h0 : u32 a (base + 4 * i) ≠ 0) :
    freeArray base (k + 1) i a fs =
      freeArray base k (i + 1) (put32 a (base + 4 * i) 0) (bfree (u32 a (base + 4 * i)) fs) :=
  if_neg h0

/-- What is left of the array `a` when `F` has been taken off from index `i` on. -/
structure Cleared (base i : Nat) (F : List Nat) (a a' : Bytes) : Prop where
  zero : ∀ e, i ≤ e → e < i + F.length → u32 a' (base + 4 * e) = 0
  rest : ∀ e, e < i ∨ i + F.length ≤ e → u32 a' (base + 4 * e) = u32 a (base + 4 * e)

theorem Cleared.nil (base i : Nat) (a : Bytes) : Cleared base i [] a a :=
  ⟨fun e h1 h2 => by simp only [length_nil] at h2; omega, fun _ _ => rfl⟩

theorem pointers_put {f : Nat → Nat} (hf : ∀ e, u32 a (base + 4 * e) = f e) (i e : Nat) :
    u32 (put32 a (base + 4 * i) 0) (base + 4 * e) = update f i 0 e := by
  by_cases he : e = i
  · rw [he, u32_put32, update_self]
  · rw [update_of_ne he, ← hf]
    exact u32_blit_out (by omega)

/-- The loop over an array of pointers clears those that it takes off. -/
theorem freeArray_cleared (base k i : Nat) (a : Bytes) (fs : Fs) {f : Nat → Nat}
    (hf : ∀ e, u32 a (base + 4 * e) = f e) : Cleared base i (lead f k i) a (freeArray base k i a fs).1 := by
  induction k generalizing i a fs f with
  | zero => exact Cleared.nil base i a
  | succ k ih =>
    by_cases h0 : f i = 0
    · rw [freeArray_stop (by rw [hf, h0]), lead, if_pos h0]
      exact Cleared.nil base i a
    · have hput := pointers_put hf i
      have hrest : lead (update f i 0) k (i + 1) = lead f k (i + 1) :=
        lead_congr fun e he => update_of_ne (by omega) _ _
      have h := ih (i + 1) (put32 a (base + 4 * i) 0) (bfree (f i) fs) hput
      rw [freeArray_step (by rw [hf]; exact h0), hf, lead, if_neg h0]
      rw [hrest] at h
      constructor
      · intro e h1 h2
        rw [length_cons] at h2
        by_cases he : e = i
        · rw [he, h.rest i (by omega), u32_put32]
        · exact h.zero e (by omega) (by omega)
      · intro e h1
        rw [length_cons] at h1
        rw [h.rest e (by omega), hput, update_of_ne (by omega), hf]

/-- The blocks that the loop gives back. -/
theorem freeArray_spec (hg : Geo fs) (base k i : Nat) (a : Bytes) {f : Nat → Nat}
    (hf : ∀ e, u32 a (base + 4 * e) = f e) (hm : ∀ b ∈ lead f k i, ¬ Meta fs b) :
    Freed (lead f k i) fs (freeArray base k i a fs).2 := by
  induction k generalizing i a fs f with
  | zero => exact Freed.refl fs
  | succ k ih =>
    by_cases h0 : f i = 0
    · rw [freeArray_stop (by rw [hf, h0]), lead, if_pos h0]
      exact Freed.refl fs
    rw [lead, if_neg h0] at hm ⊢
    rw [freeArray_step (by rw [hf]; exact h0), hf]
    have hfirst := freed_bfree hg (hm _ mem_cons_self)
    have hrest : lead (update f i 0) k (i + 1) = lead f k (i + 1) :=
      lead_congr fun e he => update_of_ne (by omega) _ _
    have h1 := ih (hfirst.static.geo hg) (i + 1) (put32 a (base + 4 * i) 0) (pointers_put hf i) fun b hb hx =>
      hm b (mem_cons_of_mem _ (hrest ▸ hb)) ((hfirst.static.meta b).mp hx)
    rw [hrest] at h1
    exact hfirst.trans h1

theorem freeArray_disk (base k i : Nat) (a : Bytes) (h1 : b ≠ 1) (h2 : b ≠ bgBlockBitmap fs.bg) :
    (freeArray base k i a fs).2.disk b = fs.disk b := by
  induction k generalizing i a fs with
  | zero => rfl
  | succ k ih =>
    unfold freeArray
    split
    · rfl
    · rw [ih _ _ (by rw [(bfree_static _ fs).bg]; exact h2)]
      exact (sbWrite_disk _ _ _ h1).trans (bwrite_disk _ _ h2)

end Freed

section Truncate

variable {fs : Fs} {p : Priv}

/-- The blocks that `ext2_i_truncate` gives back, in that order. -/
def truncated (fs : Fs) (ino : Bytes) : List Nat :=
  lead (iBlock ino) ndirect 0 ++
    if iBlock ino 12 = 0 then [] else lead (indirect fs ino) nindirect 0 ++ [iBlock ino 12]

theorem lead_sublist (f : Nat → Nat) (k : Nat) : (lead f k 0).Sublist (pointers f k) := by
  have h := pointers_lead f k 0
  rwa [← range_eq_range'] at h

theorem truncated_subset (fs : Fs) (ino : Bytes) : truncated fs ino ⊆ blocksOf fs ino := by
  intro b hb
  rw [blocksOf_eq]
  unfold truncated at hb
  simp only [mem_append] at hb ⊢
  rcases hb with h1 | h1
  · exact .inl ((lead_sublist _ _).subset h1)
  · right
    by_cases h0 : iBlock ino 12 = 0
    · simp [h0] at h1
    · rw [if_neg h0] at h1 ⊢
      rcases mem_append.mp h1 with h2 | h2
      · exact .inr ((lead_sublist _ _).subset h2)
      · exact .inl h2

theorem freeIndirect_spec (hg : Geo fs) {ino : Bytes} {g : Nat → Nat} (h12 : iBlock ino 12 ≠ 0)
    (hgd : ∀ e, u32 (fs.disk (iBlock ino 12)) (4 * e) = g e)
    (hm : ∀ b ∈ lead g nindirect 0 ++ [iBlock ino 12], ¬ Meta fs b) :
    Freed (lead g nindirect 0 ++ [iBlock ino 12]) fs (freeIndirect ino fs).2 := by
  have h1 := freeArray_spec hg 0 nindirect 0 (fs.disk (iBlock ino 12))
    (fun e => by rw [Nat.zero_add]; exact hgd e) fun b hb => hm b (mem_append_left _ hb)
  unfold freeIndirect
  simp only [h12, if_false]
  generalize freeArray 0 nindirect 0 (fs.disk (iBlock ino 12)) fs = r at *
  have hib : ¬ Meta r.2 (iBlock ino 12) := fun hx =>
    hm _ (mem_append_right _ (mem_singleton_self _)) ((h1.static.meta _).mp hx)
  have hw := bwrite_within hib r.1
  have h2 := freed_bfree (hw.static.geo (h1.static.geo hg)) fun hx => hib ((hw.static.meta _).mp hx)
  refine h1.trans ⟨hw.trans h2.toWithin fun _ hb _ => hb, fun b => ?_⟩
  rw [h2.bits, bwrite_bits hib]

/-- The loop over the direct blocks leaves the pointer to the indirect one alone. -/
theorem iBlock_freeArray (ino : Bytes) (fs : Fs) :
    iBlock (freeArray 40 ndirect 0 ino fs).1 12 = iBlock ino 12 :=
  (freeArray_cleared 40 ndirect 0 ino fs fun _ => rfl).rest 12 (.inr (by
    rw [Nat.zero_add]
    exact lead_length_le (iBlock ino) ndirect 0))

theorem iTruncate_spec (hg : Geo fs) (h : Own fs p.ino) : Freed (truncated fs p.ino) fs (iTruncate p fs).2 := by
  have hm : ∀ b ∈ truncated fs p.ino, ¬ Meta fs b := fun b hb => h.data b (truncated_subset fs p.ino hb)
  unfold truncated at hm ⊢
  have f1 := @freeArray_spec fs hg 40 ndirect 0 p.ino (iBlock p.ino) (fun _ => rfl)
    fun b hb => hm b (mem_append_left _ hb)
  have hptr := iBlock_freeArray p.ino fs
  have hdisk := fun b => @freeArray_disk fs b 40 ndirect 0 p.ino
  show Freed _ fs (freeIndirect (freeArray 40 ndirect 0 p.ino fs).1 (freeArray 40 ndirect 0 p.ino fs).2).2
  generalize freeArray 40 ndirect 0 p.ino fs = r at *
  by_cases h12 : iBlock p.ino 12 = 0
  · rw [if_pos h12, append_nil, freeIndirect, hptr, if_pos h12]
    exact f1
  · -- the indirect part, in the state after the direct one
    simp only [h12, if_false] at hm ⊢
    obtain ⟨hne1, hne2, -⟩ := not_meta (h.data _ (h.ptr12 h12))
    have f2 := @freeIndirect_spec r.2 (f1.static.geo hg) r.1 (indirect fs p.ino) (by rw [hptr]; exact h12)
      (fun e => by rw [hptr, hdisk _ hne1 hne2, indirect, if_neg h12])
      (by rw [hptr]; exact fun b hb hx => hm b (mem_append_right _ hb) ((f1.static.meta b).mp hx))
    rw [hptr] at f2
    exact f1.trans f2

theorem iTruncate_husk (h0 : iBlock p.ino 0 = 0) (h12 : iBlock p.ino 12 = 0) (fs : Fs) :
    (iTruncate p fs).2 = fs := by
  have hr : freeArray 40 ndirect 0 p.ino fs = (p.ino, fs) := freeArray_stop h0
  simp [iTruncate, hr, freeIndirect, h12]

end Truncate

end Xv6Vfs.Ext2
