import Xv6Vfs.Ext2.Truncate

/-! What `ext2_i_truncate` releases of a file with holes. -/
namespace Xv6Vfs.Ext2
open Xv6Vfs.Bytes Xv6Vfs.Vfs List

variable {fs : Fs} {b k : Nat} {ino : Bytes}

/-- A file: its blocks are distinct data blocks of the device, marked in use like the metadata. -/
structure FileOk (fs : Fs) (ino : Bytes) : Prop extends Geo fs where
  marked : ∀ b, Meta fs b → blockUsed fs b = true
  nodup : (blocksOf fs ino).Nodup
  used : ∀ b ∈ blocksOf fs ino, blockUsed fs b = true
  data : ∀ b ∈ blocksOf fs ino, ¬ Meta fs b
  inside : ∀ b ∈ blocksOf fs ino, b < sBlocksCount fs.sb ∧ b < bsize * 8

/-- Everything that the inode had has been released, and nothing else. -/
structure Released (fs : Fs) (ino : Bytes) (r : Priv × Fs) : Prop where
  pointers : ∀ k ≤ 12, iBlock r.1.ino k = 0
  freed : ∀ b ∈ blocksOf fs ino, blockUsed r.2 b = false
  others : ∀ b, b ∉ blocksOf fs ino → blockUsed r.2 b = blockUsed fs b
  size : iSize r.1.ino = 0
  blocks : iBlocks r.1.ino = 0

/-- No pointer stands behind a 0. -/
def Dense (f : Nat → Nat) (k : Nat) : Prop := ∀ i j, i < j → j < k → f i = 0 → f j = 0

/-! ### Arrays without holes -/

section Dense

variable {f : Nat → Nat} {k : Nat}

theorem lead_stop {i : Nat} (h : (lead f k i).length < k) : f (i + (lead f k i).length) = 0 := by
  induction k generalizing i with
  | zero => cases h
  | succ k ih =>
    by_cases h0 : f i = 0
    · rwa [lead, if_pos h0]
    · rw [lead, if_neg h0, length_cons] at h ⊢
      have := @ih (i + 1) (by omega)
      rwa [Nat.add_right_comm, Nat.add_assoc] at this

theorem lead_get {i e : Nat} (h : e < (lead f k i).length) : f (i + e) ∈ lead f k i := by
  induction k generalizing i e with
  | zero => cases h
  | succ k ih =>
    by_cases h0 : f i = 0
    · rw [lead, if_pos h0] at h
      cases h
    · rw [lead, if_neg h0] at h ⊢
      cases e with
      | zero => exact mem_cons_self
      | succ e =>
        rw [length_cons] at h
        have := @ih (i + 1) e (by omega)
        rw [Nat.add_right_comm, Nat.add_assoc] at this
        exact mem_cons_of_mem _ this

theorem Dense.zero (h : Dense f k) {e : Nat} (he : (lead f k 0).length ≤ e) (hk : e < k) : f e = 0 := by
  have hstop := @lead_stop f k 0 (by omega)
  rw [Nat.zero_add] at hstop
  rcases Nat.lt_or_eq_of_le he with hlt | heq
  · exact h _ e hlt hk hstop
  · rwa [← heq]

theorem Dense.mem_lead (h : Dense f k) (hb : b ∈ pointers f k) : b ∈ lead f k 0 := by
  rcases mem_pointers.mp hb with ⟨h0, e, he, rfl⟩
  rcases Nat.lt_or_ge e (lead f k 0).length with hlt | hge
  · have := lead_get hlt
    rwa [Nat.zero_add] at this
  · exact absurd (h.zero hge he) h0

theorem lead_le_hole {i j : Nat} (hij : i < j) (h0 : f i = 0) : (lead f k 0).length ≤ j := by
  rcases Nat.lt_or_ge i (lead f k 0).length with hlt | hge
  · exact absurd h0 (@lead_ne_zero f k 0 i (Nat.zero_le i) (by omega))
  · omega

end Dense

/-! ### The inode -/

theorem freeIndirect_ino (ino : Bytes) (fs : Fs) :
    (freeIndirect ino fs).1 = if iBlock ino 12 = 0 then ino else setBlock ino 12 0 := by
  rw [freeIndirect]
  split
  · rfl
  · rfl

theorem iBlock_iTruncate (p : Priv) (fs : Fs) (hk : k ≤ 12) :
    iBlock (iTruncate p fs).1.ino k =
      if k = 12 ∨ k < (lead (iBlock p.ino) ndirect 0).length then 0 else iBlock p.ino k := by
  have hc := @freeArray_cleared 40 ndirect 0 p.ino fs (iBlock p.ino) fun _ => rfl
  have hino : iBlock (iTruncate p fs).1.ino k =
      iBlock (freeIndirect (freeArray 40 ndirect 0 p.ino fs).1 (freeArray 40 ndirect 0 p.ino fs).2).1 k := by
    rw [iTruncate]
    rw [iBlock_setSize]
    exact (setBlocks_same _ 0).ptr k hk
  rw [hino, freeIndirect_ino]
  generalize (freeArray 40 ndirect 0 p.ino fs).1 = a at hc
  by_cases h12 : k = 12
  · subst h12
    rw [if_pos (.inl rfl : 12 = 12 ∨ 12 < (lead (iBlock p.ino) ndirect 0).length)]
    by_cases h0 : iBlock a 12 = 0
    · rw [if_pos h0, h0]
    · rw [if_neg h0, iBlock_setBlock, if_pos rfl]
  · have ha : iBlock a k = if k < (lead (iBlock p.ino) ndirect 0).length then 0 else iBlock p.ino k := by
      split
      · rename_i hlt
        exact hc.zero k (Nat.zero_le k) (by omega)
      · rename_i hge
        exact hc.rest k (.inr (by omega))
    simp only [h12, false_or]
    rw [← ha]
    split
    · rfl
    · rw [iBlock_setBlock, if_neg h12]

theorem iSize_iTruncate (p : Priv) (fs : Fs) : iSize (iTruncate p fs).1.ino = 0 := iSize_setSize _ 0

theorem iBlocks_iTruncate (p : Priv) (fs : Fs) : iBlocks (iTruncate p fs).1.ino = 0 := by
  have hs : ∀ ino : Bytes, iBlocks (setSize (setBlocks ino 0) 0) = 0 := fun ino => by
    have h1 : iBlocks (setSize (setBlocks ino 0) 0) = iBlocks (setBlocks ino 0) := u32_blit_out (by omega)
    rw [h1]
    exact u32_put32 ino 28 0
  exact hs _

/-! ### The bitmap -/

theorem FileOk.bits {p : Priv} (h : FileOk fs p.ino) (b : Nat) :
    blockUsed (iTruncate p fs).2 b = (blockUsed fs b && decide (b ∉ truncated fs p.ino)) :=
  (iTruncate_spec h.toGeo ⟨h.nodup, h.used, h.data⟩).bits b

theorem mem_blocks : b ∈ blocksOf fs ino ↔ b ∈ pointers (iBlock ino) ndirect ∨
    iBlock ino 12 ≠ 0 ∧ (b = iBlock ino 12 ∨ b ∈ pointers (indirect fs ino) nindirect) := by
  rw [blocksOf_eq, mem_append, mem_append]
  by_cases h12 : iBlock ino 12 = 0
  · rw [if_pos h12, @pointers_zero (indirect fs ino) nindirect fun e _ => if_pos h12]
    simp [h12]
  · rw [if_neg h12, mem_singleton]
    simp [h12]

/-- A pointer of the indirect block behind a hole is not given back. -/
theorem FileOk.not_truncated (h : FileOk fs ino) (h12 : iBlock ino 12 ≠ 0) {j : Nat} (hj : j < nindirect)
    (h0 : indirect fs ino j ≠ 0) (hge : (lead (indirect fs ino) nindirect 0).length ≤ j) :
    indirect fs ino j ∈ blocksOf fs ino ∧ indirect fs ino j ∉ truncated fs ino := by
  have hmem : indirect fs ino j ∈ pointers (indirect fs ino) nindirect := mem_pointers.mpr ⟨h0, j, hj, rfl⟩
  have hn := h.nodup
  rw [blocksOf_eq, if_neg h12, nodup_append] at hn
  have hn2 := nodup_append.mp hn.2.1
  refine ⟨mem_blocks.mpr (.inr ⟨h12, .inr hmem⟩), fun hb => ?_⟩
  rw [truncated, if_neg h12] at hb
  cases mem_append.mp hb with
  | inl h1 => exact hn.2.2 _ ((lead_sublist _ _).subset h1) _ (mem_append_right _ hmem) rfl
  | inr h1 =>
    cases mem_append.mp h1 with
    | inl h2 =>
      rcases Ext2.mem_lead h2 with ⟨-, e, -, he, he', heq⟩
      have := pointers_inj hn2.2.1 (by omega) hj (by rw [heq]; exact h0) heq
      omega
    | inr h2 => exact hn2.2.2 _ h2 _ hmem rfl

/-- `ext2_i_truncate` releases everything exactly if no pointer stands behind a hole, neither in the inode nor in the
indirect block. -/
theorem truncate_releases_iff {fs : Fs} {p : Priv} (h : FileOk fs p.ino) :
    Released fs p.ino (iTruncate p fs) ↔
      Dense (iBlock p.ino) ndirect ∧
        (iBlock p.ino 12 ≠ 0 → Dense (fun e => u32 (fs.disk (iBlock p.ino 12)) (4 * e)) nindirect) := by
  have hind : iBlock p.ino 12 ≠ 0 → (fun e => u32 (fs.disk (iBlock p.ino 12)) (4 * e)) = indirect fs p.ino :=
    fun h12 => funext fun e => (if_neg h12).symm
  constructor
  · intro hr
    constructor
    · intro i j hij hj h0
      have hj12 : j < 12 := hj
      have hle := @lead_le_hole _ ndirect i j hij h0
      have hp := hr.pointers j (by omega)
      rwa [iBlock_iTruncate p fs (by omega), if_neg (by omega)] at hp
    · intro h12 i j hij hj h0
      rw [hind h12] at h0 ⊢
      by_contra hne
      rcases h.not_truncated h12 hj hne (lead_le_hole hij h0) with ⟨h1, h2⟩
      have hfree := hr.freed _ h1
      rw [h.bits, h.used _ h1, decide_eq_true h2] at hfree
      cases hfree
  · rintro ⟨hd, hi⟩
    have hall : ∀ b, b ∈ truncated fs p.ino ↔ b ∈ blocksOf fs p.ino := by
      intro b
      refine ⟨fun hb => truncated_subset fs p.ino hb, fun hb => ?_⟩
      rw [truncated, mem_append]
      cases mem_blocks.mp hb with
      | inl h1 => exact .inl (hd.mem_lead h1)
      | inr h1 =>
        rw [if_neg h1.1]
        cases h1.2 with
        | inl h2 => exact .inr (mem_append_right _ (mem_singleton.mpr h2))
        | inr h2 =>
          have hdense := hi h1.1
          rw [hind h1.1] at hdense
          exact .inr (mem_append_left _ (hdense.mem_lead h2))
    refine ⟨fun k hk => ?_, fun b hb => ?_, fun b hb => ?_, iSize_iTruncate p fs, iBlocks_iTruncate p fs⟩
    · rw [iBlock_iTruncate p fs hk]
      split
      · rfl
      · rename_i hge
        exact hd.zero (by omega) (by rw [ndirect]; omega)
    · rw [h.bits, decide_eq_false (not_not.mpr ((hall b).mpr hb)), Bool.and_false]
    · rw [h.bits, decide_eq_true (mt (hall b).mp hb), Bool.and_true]

/-- Blocks 0 to 5 and block 20 are in use. -/
def plainFs : Fs where
  disk := fun b => if b = 3 then fun o => if o = 0 then 0x3F else if o = 2 then 0x10 else 0 else fun _ => 0
  sb := fun o => if o = 0 then 8 else if o = 4 then 64 else 0
  bg := fun o => if o = 0 then 3 else if o = 4 then 4 else if o = 8 then 5 else 0
  inodeSize := 128
  vnodes := fun _ => ⟨0, 0, .none, 0, ⟨fun _ => 0, false, false⟩⟩
  taken := fun _ => false
  pages := 0

theorem plainFs_layout : bgBlockBitmap plainFs.bg = 3 ∧ bgInodeBitmap plainFs.bg = 4 ∧ bgInodeTable plainFs.bg = 5 ∧
    sInodesCount plainFs.sb ≤ bsize * 8 ∧ (∀ b ∈ [1, 3, 4, 5, 20], blockUsed plainFs b = true) ∧
    20 < sBlocksCount plainFs.sb ∧ 20 < bsize * 8 := by
  decide +kernel

theorem plainFs_inode {n : Nat} (h : ValidIno plainFs n) : inoBlock plainFs n = 5 := by
  have h8 : n ≤ 8 := h.2
  have hs : bsize / plainFs.inodeSize = 8 := by decide
  rw [inoBlock, plainFs_layout.2.2.1, hs]
  omega

theorem plainFs_meta (h : Meta plainFs b) : b = 1 ∨ b = 3 ∨ b = 4 ∨ b = 5 := by
  rcases h with h | h | h | ⟨n, hn, h⟩
  · exact .inl h
  · exact .inr (.inl (h.trans plainFs_layout.1))
  · exact .inr (.inr (.inl (h.trans plainFs_layout.2.1)))
  · exact .inr (.inr (.inr (h.symm.trans (plainFs_inode hn))))

/-- The inode of a file that has block 20 as its block `k`. -/
def pointing (k : Nat) : Priv := ⟨fun o => if o = 40 + 4 * k then 20 else 0, false, false⟩

theorem plainFs_fileOk (h : blocksOf plainFs (pointing k).ino = [20]) : FileOk plainFs (pointing k).ino := by
  rcases plainFs_layout with ⟨h3, h4, -, hcount, hused, hinside⟩
  refine ⟨⟨by decide, by decide, hcount, ?_, ?_, ?_, fun n hn => ?_⟩, fun b hb => ?_, ?_, fun b hb => ?_,
    fun b hb hm => ?_, fun b hb => ?_⟩
  · rw [h3, h4]
    decide
  · rw [h3]
    decide
  · rw [h4]
    decide
  · rw [plainFs_inode hn, h3, h4]
    decide
  · have hb := plainFs_meta hb
    exact hused b (by simp only [mem_cons]; omega)
  · rw [h]
    exact nodup_singleton 20
  · rw [h, mem_singleton] at hb
    exact hused b (by simp [hb])
  · rw [h, mem_singleton] at hb
    have := plainFs_meta hm
    omega
  · rw [h, mem_singleton] at hb
    rwa [hb]

theorem plainFs_released : Released plainFs (pointing 0).ino (iTruncate (pointing 0) plainFs) :=
  (truncate_releases_iff (plainFs_fileOk (by decide +kernel))).mpr ⟨by
    intro i j hij hj _
    have hbyte : ∀ o, 44 ≤ o → (pointing 0).ino o = 0 := fun o ho => if_neg (by omega)
    rw [iBlock, u32, u16, u16, hbyte _ (by omega), hbyte _ (by omega), hbyte _ (by omega), hbyte _ (by omega)]
    rfl, fun h => absurd (by decide +kernel) h⟩

/-- With a hole in front of it, block 20 stays in use and in the inode. -/
theorem hole_keeps_block : FileOk plainFs (pointing 1).ino ∧
    iBlock (iTruncate (pointing 1) plainFs).1.ino 1 = 20 ∧ blockUsed (iTruncate (pointing 1) plainFs).2 20 = true :=
  ⟨plainFs_fileOk (by decide +kernel), by decide +kernel, by decide +kernel⟩

end Xv6Vfs.Ext2
