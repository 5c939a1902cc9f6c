import Xv6Vfs.Ext2.Space

/-! The blocks of an inode: looking up, allocating and freeing them. -/
namespace Xv6Vfs.Ext2
open Xv6Vfs.Bytes Xv6Vfs.Vfs List Nat

variable {p : Priv} {f g : Nat → Nat} {b j k lbn n : Nat}

/-- Block number of logical block `k`, or 0. -/
def lbnBlock (fs : Fs) (ino : Bytes) (k : Nat) : Nat :=
  if k < ndirect then iBlock ino k
  else if k - ndirect < nindirect then
    if iBlock ino 12 = 0 then 0 else u32 (fs.disk (iBlock ino 12)) (4 * (k - ndirect))
  else 0

theorem bmap_false (p : Priv) (k : Nat) (fs : Fs) : bmap p k false fs = (lbnBlock fs p.ino k, p, fs) := by
  unfold bmap lbnBlock indirectBlock
  split
  · simp
  · split
    · simp only [Bool.false_eq_true, and_false, if_false]
      split <;> rfl
    · rfl

/-- The pointers of an array that are not 0. -/
def pointers (f : Nat → Nat) (n : Nat) : List Nat := ((List.range n).map f).filter (· ≠ 0)

theorem mem_pointers : b ∈ pointers f n ↔ b ≠ 0 ∧ ∃ k < n, f k = b := by
  simp only [pointers, mem_filter, mem_map, mem_range, decide_eq_true_eq]
  tauto

theorem pointers_congr (h : ∀ k < n, f k = g k) : pointers f n = pointers g n := by
  unfold pointers
  rw [map_congr_left fun k hk => h k (mem_range.mp hk)]

theorem pointers_succ (f : Nat → Nat) (n : Nat) :
    pointers f (n + 1) = pointers f n ++ if f n = 0 then [] else [f n] := by
  simp only [pointers, range_succ, map_append, filter_append, map_cons, map_nil]
  congr 1
  by_cases h : f n = 0 <;> simp [h]

theorem pointers_zero {f : Nat → Nat} {n : Nat} (h : ∀ k < n, f k = 0) : pointers f n = [] := by
  refine eq_nil_iff_forall_not_mem.mpr fun b hb => ?_
  obtain ⟨h0, k, hk, rfl⟩ := mem_pointers.mp hb
  exact h0 (h k hk)

theorem pointers_set (hk : k < n) (hf : f k = 0) (hb : b ≠ 0) (hg : g k = b) (hne : ∀ j < n, j ≠ k → g j = f j) :
    (pointers g n).Perm (b :: pointers f n) := by
  induction n with
  | zero => omega
  | succ n ih =>
    rw [pointers_succ, pointers_succ]
    by_cases he : k = n
    · subst he
      rw [hf, hg, if_neg hb, if_pos rfl, append_nil, pointers_congr fun j hj => hne j (by omega) (by omega)]
      exact perm_append_comm
    · rw [hne n (by omega) (Ne.symm he)]
      exact (ih (by omega) fun j hj hne' => hne j (by omega) hne').append_right _

theorem pointers_inj (hn : (pointers f n).Nodup) (hj : j < n) (hk : k < n) (h0 : f j ≠ 0) (he : f j = f k) : j = k := by
  induction n with
  | zero => omega
  | succ n ih =>
    rw [pointers_succ] at hn
    have hn' := nodup_append.mp hn
    by_cases hjn : j = n
    · by_cases hkn : k = n
      · omega
      · exfalso
        refine hn'.2.2 (f k) (mem_pointers.mpr ⟨he ▸ h0, k, by omega, rfl⟩) (f k) ?_ rfl
        rw [← hjn, if_neg h0, he]
        exact mem_cons_self
    · by_cases hkn : k = n
      · exfalso
        refine hn'.2.2 (f j) (mem_pointers.mpr ⟨h0, j, by omega, rfl⟩) (f j) ?_ rfl
        rw [← hkn, if_neg (he ▸ h0), ← he]
        exact mem_cons_self
      · exact ih hn'.1 (by omega) (by omega)

section Blocks

variable {fs fs' : Fs} {ino ino' : Bytes}

/-- Entries of the indirect block. -/
def indirect (fs : Fs) (ino : Bytes) (e : Nat) : Nat :=
  if iBlock ino 12 = 0 then 0 else u32 (fs.disk (iBlock ino 12)) (4 * e)

theorem blocksOf_eq (fs : Fs) (ino : Bytes) : blocksOf fs ino = pointers (iBlock ino) ndirect ++
    ((if iBlock ino 12 = 0 then [] else [iBlock ino 12]) ++ pointers (indirect fs ino) nindirect) := by
  unfold blocksOf pointers indirect
  rw [filter_append]
  congr 1
  by_cases h : iBlock ino 12 = 0
  · simp [h]
  · simp [h]

theorem mem_blocksOf : b ∈ blocksOf fs ino ↔ b ≠ 0 ∧
    ((∃ k < ndirect, iBlock ino k = b) ∨ iBlock ino 12 = b ∨ ∃ e < nindirect, indirect fs ino e = b) := by
  rw [blocksOf_eq, mem_append, mem_append, mem_pointers, mem_pointers]
  by_cases h : iBlock ino 12 = 0
  · simp only [h, if_true, not_mem_nil, false_or]
    constructor
    · rintro (h1 | h1)
      · exact ⟨h1.1, .inl h1.2⟩
      · exact ⟨h1.1, .inr (.inr h1.2)⟩
    · rintro ⟨h0, h1 | h1 | h1⟩
      · exact .inl ⟨h0, h1⟩
      · exact absurd h1.symm h0
      · exact .inr ⟨h0, h1⟩
  · simp only [h, if_false, mem_singleton]
    constructor
    · rintro (h1 | h1 | h1)
      · exact ⟨h1.1, .inl h1.2⟩
      · exact ⟨h1 ▸ h, .inr (.inl h1.symm)⟩
      · exact ⟨h1.1, .inr (.inr h1.2)⟩
    · rintro ⟨h0, h1 | h1 | h1⟩
      · exact .inl ⟨h0, h1⟩
      · exact .inr (.inl h1.symm)
      · exact .inr (.inr ⟨h0, h1⟩)

theorem lbnBlock_eq (fs : Fs) (ino : Bytes) (k : Nat) : lbnBlock fs ino k =
    if k < ndirect then iBlock ino k
    else if k - ndirect < nindirect then indirect fs ino (k - ndirect) else 0 := rfl

theorem lbnBlock_mem (h : lbnBlock fs ino k ≠ 0) : lbnBlock fs ino k ∈ blocksOf fs ino := by
  refine mem_blocksOf.mpr ⟨h, ?_⟩
  rw [lbnBlock_eq] at *
  by_cases h1 : k < ndirect
  · simp only [h1, if_true]
    exact .inl ⟨k, h1, rfl⟩
  · by_cases h2 : k - ndirect < nindirect
    · simp only [h1, h2, if_true, if_false]
      exact .inr (.inr ⟨k - ndirect, h2, rfl⟩)
    · simp [h1, h2] at h

/-- The blocks of an inode when its current data is `ino`: each is referenced once and marked in use. -/
structure Own (fs : Fs) (ino : Bytes) : Prop where
  nodup : (blocksOf fs ino).Nodup
  used : ∀ b ∈ blocksOf fs ino, blockUsed fs b = true
  data : ∀ b ∈ blocksOf fs ino, ¬ Meta fs b

theorem Own.not_space (h : Own fs ino) (h0 : iBlock ino 12 ≠ 0) : spaceBlock fs (iBlock ino 12) = false := by
  have hm := not_meta (h.data _ (mem_blocksOf.mpr ⟨h0, .inr (.inl rfl)⟩))
  rw [spaceBlock, decide_eq_false_iff_not, not_or]
  exact ⟨hm.2.1, hm.1⟩

/-- The blocks of an inode are found without those of another. -/
theorem not_needed {held : Nat} {p : Priv} (h0 : held ≠ 0) (hne : held ∉ blocksOf fs p.ino) (lbn : Nat) :
    bmapNeeds p held lbn fs = false := by
  rw [bmapNeeds, bmap_false, decide_eq_false_iff_not]
  rintro (⟨-, -, rfl⟩ | rfl)
  · exact hne (mem_blocksOf.mpr ⟨h0, .inr (.inl rfl)⟩)
  · exact hne (lbnBlock_mem h0)

/-- Pointers and indirect block decide about the blocks. -/
theorem map_congr (hm : SameMap ino' ino)
    (hd : iBlock ino 12 ≠ 0 → fs'.disk (iBlock ino 12) = fs.disk (iBlock ino 12)) :
    blocksOf fs' ino' = blocksOf fs ino ∧ ∀ k, lbnBlock fs' ino' k = lbnBlock fs ino k := by
  have hi : ∀ e, indirect fs' ino' e = indirect fs ino e := by
    intro e
    unfold indirect
    rw [hm.ptr 12 (Nat.le_refl _)]
    split
    · rfl
    case isFalse h => rw [hd h]
  constructor
  · rw [blocksOf_eq, blocksOf_eq, hm.ptr 12 (Nat.le_refl _), pointers_congr fun e _ => hi e,
      pointers_congr fun k hk => hm.ptr k (by unfold ndirect at hk; omega)]
  · intro k
    rw [lbnBlock_eq, lbnBlock_eq, hi]
    split
    case isTrue h => exact hm.ptr k (by unfold ndirect at h; omega)
    · rfl

theorem Own.ptr12 (_ : Own fs ino) (h0 : iBlock ino 12 ≠ 0) : iBlock ino 12 ∈ blocksOf fs ino :=
  mem_blocksOf.mpr ⟨h0, .inr (.inl rfl)⟩

/-- The blocks of an inode do not change while they are kept. -/
theorem Own.frame (h : Own fs ino) (hs : Static fs fs') (hm : SameMap ino' ino)
    (hk : ∀ b ∈ blocksOf fs ino, Kept fs fs' b) :
    Own fs' ino' ∧ blocksOf fs' ino' = blocksOf fs ino ∧ ∀ k, lbnBlock fs' ino' k = lbnBlock fs ino k := by
  obtain ⟨h1, h2⟩ := map_congr hm fun h0 =>
    (hk _ (h.ptr12 h0)).disk (h.data _ (h.ptr12 h0))
  refine ⟨⟨by rw [h1]; exact h.nodup, ?_, ?_⟩, h1, h2⟩
  · intro b hb
    rw [h1] at hb
    exact (hk b hb).used
  · intro b hb
    rw [h1] at hb
    rw [hs.meta]
    exact h.data b hb

end Blocks

/-! ### One more block -/

/-- Block `b` is one more block of the inode; logical block `lbn` may be mapped to it, the other ones are
mapped as before. -/
structure OneMore (fs : Fs) (ino : Bytes) (fs' : Fs) (ino' : Bytes) (b : Nat) (lbn : Option Nat) : Prop where
  perm : (blocksOf fs' ino').Perm (b :: blocksOf fs ino)
  block : ∀ k ∈ lbn, lbnBlock fs' ino' k = b
  others : ∀ k, k ∉ lbn → lbnBlock fs' ino' k = lbnBlock fs ino k

section OneMore

variable {fs fs1 : Fs} {ino : Bytes} {b lbn : Nat}

theorem OneMore.sameMap {fs' : Fs} {ino' ino1 : Bytes} {lbn : Option Nat} (h : OneMore fs ino fs' ino1 b lbn)
    (hm : SameMap ino' ino1) : OneMore fs ino fs' ino' b lbn := by
  obtain ⟨hblk, hlbn⟩ := map_congr hm fun _ => rfl
  exact ⟨hblk ▸ h.perm, fun k hk => (hlbn k).trans (h.block k hk), fun k hk => (hlbn k).trans (h.others k hk)⟩

theorem OneMore.direct (hlt : lbn < ndirect) (h0 : iBlock ino lbn = 0) (hb : b ≠ 0) (hsmall : b < 4294967296)
    (hd : iBlock ino 12 ≠ 0 → fs1.disk (iBlock ino 12) = fs.disk (iBlock ino 12)) :
    OneMore fs ino fs1 (setBlock ino lbn b) b (some lbn) := by
  have hmod : b % 4294967296 = b := mod_eq_of_lt hsmall
  have h12 : iBlock (setBlock ino lbn b) 12 = iBlock ino 12 := by
    rw [iBlock_setBlock, if_neg (by unfold ndirect at hlt; omega)]
  have hind : ∀ e, indirect fs1 (setBlock ino lbn b) e = indirect fs ino e := by
    intro e
    unfold indirect
    rw [h12]
    split
    · rfl
    case isFalse hne => rw [hd hne]
  constructor
  · rw [blocksOf_eq, blocksOf_eq, h12, pointers_congr fun e _ => hind e]
    refine (List.Perm.append_right _ (pointers_set hlt h0 hb ?_ fun j _ hne => ?_)).trans (List.Perm.refl _)
    · rw [iBlock_setBlock, if_pos rfl, hmod]
    · rw [iBlock_setBlock, if_neg hne]
  · rintro k ⟨⟩
    rw [lbnBlock_eq, if_pos hlt, iBlock_setBlock, if_pos rfl, hmod]
  · intro k hk
    have hne : k ≠ lbn := fun he => hk (he ▸ rfl)
    rw [lbnBlock_eq, lbnBlock_eq, hind, iBlock_setBlock, if_neg hne]

/-- The block of indirect pointers, which is clear. -/
theorem OneMore.indirectBlock (h0 : iBlock ino 12 = 0) (hb : b ≠ 0) (hsmall : b < 4294967296)
    (hclear : ∀ e < nindirect, u32 (fs1.disk b) (4 * e) = 0) : OneMore fs ino fs1 (setBlock ino 12 b) b none := by
  have h12 : iBlock (setBlock ino 12 b) 12 = b := by
    rw [iBlock_setBlock, if_pos rfl, mod_eq_of_lt hsmall]
  have hdir : ∀ k < ndirect, iBlock (setBlock ino 12 b) k = iBlock ino k := by
    intro k hlt
    rw [iBlock_setBlock, if_neg (by unfold ndirect at hlt; omega)]
  have hind : ∀ e < nindirect, indirect fs1 (setBlock ino 12 b) e = 0 := by
    intro e he
    rw [indirect, h12, if_neg hb, hclear e he]
  have hold : ∀ e, indirect fs ino e = 0 := fun e => if_pos h0
  constructor
  · rw [blocksOf_eq, blocksOf_eq, h12, if_neg hb, h0, if_pos rfl, pointers_zero hind,
      pointers_zero (fun e _ => hold e), pointers_congr hdir]
    simp
  · exact fun k hk => nomatch hk
  · intro k _
    rw [lbnBlock_eq, lbnBlock_eq, hold]
    by_cases h1 : k < ndirect
    · rw [if_pos h1, if_pos h1, hdir k h1]
    · rw [if_neg h1, if_neg h1]
      by_cases h2 : k - ndirect < nindirect
      · rw [if_pos h2, if_pos h2, hind _ h2]
      · rw [if_neg h2, if_neg h2]

theorem OneMore.entry (hge : ¬ lbn < ndirect) (hlt : lbn - ndirect < nindirect) (h12 : iBlock ino 12 ≠ 0)
    (h0 : u32 (fs.disk (iBlock ino 12)) (4 * (lbn - ndirect)) = 0) (hb : b ≠ 0) (hsmall : b < 4294967296)
    (hd : fs1.disk (iBlock ino 12) = put32 (fs.disk (iBlock ino 12)) (4 * (lbn - ndirect)) b) :
    OneMore fs ino fs1 ino b (some lbn) := by
  have hset : indirect fs1 ino (lbn - ndirect) = b := by
    rw [indirect, if_neg h12, hd, u32_put32, mod_eq_of_lt hsmall]
  have hind : ∀ e, e ≠ lbn - ndirect → indirect fs1 ino e = indirect fs ino e := by
    intro e hne
    rw [indirect, indirect, if_neg h12, if_neg h12, hd, put32, u32_blit_out (by omega)]
  have hold : indirect fs ino (lbn - ndirect) = 0 := by
    rw [indirect, if_neg h12, h0]
  constructor
  · rw [blocksOf_eq, blocksOf_eq, if_neg h12]
    refine (List.Perm.append_left _ (List.Perm.append_left _
      (pointers_set hlt hold hb hset fun e _ hne => hind e hne))).trans ?_
    exact (List.Perm.append_left _ perm_middle).trans perm_middle
  · rintro k ⟨⟩
    rw [lbnBlock_eq, if_neg hge, if_pos hlt, hset]
  · intro k hk
    have hne : k ≠ lbn := fun he => hk (he ▸ rfl)
    rw [lbnBlock_eq, lbnBlock_eq]
    by_cases h1 : k < ndirect
    · rw [if_pos h1, if_pos h1]
    · rw [if_neg h1, if_neg h1, hind _ (by omega)]

end OneMore

section Allocate

variable {fs fs1 fs2 : Fs} {b : Nat} {ino ino1 : Bytes}

theorem Own.add (h : Own fs ino) (hs : Static fs fs2) (hf : Fresh fs fs1 b)
    (hperm : (blocksOf fs2 ino1).Perm (b :: blocksOf fs ino))
    (hk : ∀ b' ∈ b :: blocksOf fs ino, blockUsed fs2 b' = true) : Own fs2 ino1 := by
  refine ⟨hperm.nodup_iff.mpr (nodup_cons.mpr ⟨fun hb => hf.ne (h.used b hb) rfl, h.nodup⟩),
    fun b' hb => hk b' (hperm.mem_iff.mp hb), fun b' hb => ?_⟩
  rw [hs.meta]
  rcases mem_cons.mp (hperm.mem_iff.mp hb) with rfl | hb
  · exact hf.data
  · exact h.data b' hb

/-- What `ext2_bmap` has done when it may allocate. -/
structure Mapped (p : Priv) (lbn : Nat) (fs : Fs) (r : Nat × Priv × Fs) : Prop where
  within : Within (blocksOf fs p.ino) fs r.2.2
  own : Own r.2.2 r.2.1.ino
  grows : ∀ b ∈ blocksOf r.2.2 r.2.1.ino, blockUsed fs b = true → b ∈ blocksOf fs p.ino
  mode : iMode r.2.1.ino = iMode p.ino
  links : iLinks r.2.1.ino = iLinks p.ino
  size : iSize r.2.1.ino = iSize p.ino
  orphaned : r.2.1.orphaned = p.orphaned
  clean : r.2.1 = p ∨ r.2.1.dirty = true
  block : lbnBlock r.2.2 r.2.1.ino lbn = r.1
  others : ∀ k, k ≠ lbn → lbnBlock r.2.2 r.2.1.ino k = lbnBlock fs p.ino k
  kept : ∀ k, lbnBlock fs p.ino k ≠ 0 → Kept fs r.2.2 (lbnBlock fs p.ino k)

theorem Mapped.same (h : Own fs p.ino) {blk : Nat} (hb : lbnBlock fs p.ino lbn = blk) :
    Mapped p lbn fs (blk, p, fs) :=
  ⟨Within.refl _ fs, h, fun _ hb _ => hb, rfl, rfl, rfl, rfl, .inl rfl, hb, fun _ _ => rfl,
    fun _ hk => Kept.refl (h.used _ (lbnBlock_mem hk))⟩

/-- A fresh block is the only one that may be new. -/
theorem OneMore.grows {lbn : Option Nat} (h : OneMore fs ino fs2 ino1 b lbn) (hf : Fresh fs fs1 b) {b' : Nat}
    (hb : b' ∈ blocksOf fs2 ino1) (hu : blockUsed fs b' = true) : b' ∈ blocksOf fs ino :=
  (mem_cons.mp (h.perm.mem_iff.mp hb)).resolve_left (hf.ne hu)

theorem Mapped.direct (h : Own fs p.ino) (hlt : lbn < ndirect) (h0 : iBlock p.ino lbn = 0)
    (hw : Within [] fs fs1) (hf : Fresh fs fs1 b) (hb : b ≠ 0) :
    Mapped p lbn fs (b, grown p (setBlock p.ino lbn b), fs1) := by
  have hsmall := hf.small
  have hk : ∀ b, blockUsed fs b = true → Kept fs fs1 b := fun b hb => hw.kept b hb not_mem_nil
  have hm : SameMap (grown p (setBlock p.ino lbn b)).ino (setBlock p.ino lbn b) :=
    (setBlocks_same _ _).toSameMap
  have hadd : OneMore fs p.ino fs1 (grown p (setBlock p.ino lbn b)).ino b (some lbn) :=
    (OneMore.direct hlt h0 hb (by omega) fun hne =>
      (hk _ (h.used _ (h.ptr12 hne))).disk (h.data _ (h.ptr12 hne))).sameMap hm
  refine ⟨hw.mono nofun, h.add hw.static hf hadd.perm fun b' hb' => ?_, fun b' hb' => hadd.grows hf hb', ?_, ?_, ?_,
    rfl, .inr rfl, hadd.block lbn rfl, fun k hne => hadd.others k fun he => hne (Option.some.inj he).symm,
    fun k hk0 => hk _ (h.used _ (lbnBlock_mem hk0))⟩
  · rcases mem_cons.mp hb' with rfl | hb'
    · exact hf.used
    · exact (hk b' (h.used b' hb')).used
  · exact (setBlocks_same _ _).mode.trans (iMode_setBlock _ _ _)
  · exact (setBlocks_same _ _).links.trans (iLinks_setBlock _ _ _)
  · exact hm.size.trans (iSize_setBlock _ _ _)

theorem balloc_zero (h : (balloc fs).1 = 0) : (balloc fs).2 = fs := by
  rcases balloc_cases fs with he | ⟨i, hi, -, -, he⟩
  · rw [he]
  · rw [he] at h
    exact absurd h (Nat.pos_iff_ne_zero.mp hi)

theorem u32_clear_block {m : Bytes} {e : Nat} (he : e < nindirect) : u32 (clear m 0 bsize) (4 * e) = 0 := by
  rw [clear, u32_blit_in (Nat.zero_le _) (by unfold bsize; unfold nindirect at he; omega)]
  rfl

/-- The block of indirect pointers, without entries. -/
theorem indirectBlock_spec (hg : Ground fs) (h : Own fs p.ino) : let q := indirectBlock p true fs
    Within [] fs q.2 ∧ Own q.2 q.1.ino ∧
      (∀ b ∈ blocksOf q.2 q.1.ino, blockUsed fs b = true → b ∈ blocksOf fs p.ino) ∧ iMode q.1.ino = iMode p.ino ∧
      iLinks q.1.ino = iLinks p.ino ∧ iSize q.1.ino = iSize p.ino ∧ q.1.orphaned = p.orphaned ∧
      (q.1 = p ∨ q.1.dirty = true) ∧ ∀ k, lbnBlock q.2 q.1.ino k = lbnBlock fs p.ino k := by
  have hid : Within [] fs fs ∧ Own fs p.ino ∧
      (∀ b ∈ blocksOf fs p.ino, blockUsed fs b = true → b ∈ blocksOf fs p.ino) ∧ iMode p.ino = iMode p.ino ∧
      iLinks p.ino = iLinks p.ino ∧ iSize p.ino = iSize p.ino ∧ p.orphaned = p.orphaned ∧
      (p = p ∨ p.dirty = true) ∧ ∀ k, lbnBlock fs p.ino k = lbnBlock fs p.ino k :=
    ⟨Within.refl [] fs, h, fun _ hb _ => hb, rfl, rfl, rfl, rfl, .inl rfl, fun _ => rfl⟩
  intro q
  by_cases h0 : iBlock p.ino 12 = 0
  swap
  · have hq : q = (p, fs) := by simp [q, indirectBlock, h0]
    rwa [hq]
  obtain ⟨hw, hfresh⟩ := balloc_spec hg
  by_cases hb : (balloc fs).1 = 0
  · have hq : q = (p, fs) := by simp [q, indirectBlock, h0, hb, balloc_zero hb]
    rwa [hq]
  have hq : q = (grown p (setBlock p.ino 12 (balloc fs).1), (balloc fs).2.bwrite (balloc fs).1
      (clear ((balloc fs).2.disk (balloc fs).1) 0 bsize)) := by
    simp [q, indirectBlock, h0, hb]
  rw [hq]
  have hf := hfresh hb
  generalize (balloc fs).1 = b at *
  generalize (balloc fs).2 = fs1 at *
  have hsmall := hf.small
  have hmeta : ¬ Meta fs1 b := fun hx => hf.data ((hw.static.meta b).mp hx)
  have hw2 : Within [] fs (fs1.bwrite b (clear (fs1.disk b) 0 bsize)) :=
    hw.trans (bwrite_within hmeta _) fun b' hb' hu => absurd (mem_singleton.mp hb') (hf.ne hu)
  have hused : blockUsed (fs1.bwrite b (clear (fs1.disk b) 0 bsize)) b = true := by
    rw [bwrite_bits hmeta]
    exact hf.used
  generalize hfs2 : fs1.bwrite b (clear (fs1.disk b) 0 bsize) = fs2 at *
  have hm : SameMap (grown p (setBlock p.ino 12 b)).ino (setBlock p.ino 12 b) :=
    (setBlocks_same _ _).toSameMap
  have hadd : OneMore fs p.ino fs2 (grown p (setBlock p.ino 12 b)).ino b none := by
    refine (OneMore.indirectBlock h0 hb (by omega) fun e he => ?_).sameMap hm
    rw [← hfs2, bwrite_disk_self]
    exact u32_clear_block he
  refine ⟨hw2, h.add hw2.static hf hadd.perm fun b' hb' => ?_, fun b' hb' => hadd.grows hf hb', ?_, ?_, ?_, rfl,
    .inr rfl, fun k => hadd.others k nofun⟩
  · rcases mem_cons.mp hb' with rfl | hb'
    · exact hused
    · exact (hw2.kept b' (h.used b' hb') not_mem_nil).used
  · exact (setBlocks_same _ _).mode.trans (iMode_setBlock _ _ _)
  · exact (setBlocks_same _ _).links.trans (iLinks_setBlock _ _ _)
  · exact hm.size.trans (iSize_setBlock _ _ _)

theorem Own.bmapWaits (hg : Ground fs) (h : Own fs p.ino) (lbn : Nat) : bmapWaits p lbn fs = false := by
  obtain ⟨hw, hown, -⟩ := indirectBlock_spec hg h
  unfold Ext2.bmapWaits
  dsimp only
  rw [decide_eq_false_iff_not]
  rintro ⟨-, -, h0, hs, -⟩
  have hno := hown.not_space h0
  rw [spaceBlock, hw.static.bg] at hno
  rw [spaceBlock, hno] at hs
  cases hs

theorem lbnBlock_ne (hn : (blocksOf fs ino).Nodup) (h12 : iBlock ino 12 ≠ 0) (hk : lbnBlock fs ino k ≠ 0) :
    lbnBlock fs ino k ≠ iBlock ino 12 := by
  rw [blocksOf_eq, if_neg h12] at hn
  obtain ⟨-, hn2, hdis⟩ := nodup_append.mp hn
  have hmem : iBlock ino 12 ∈ [iBlock ino 12] ++ pointers (indirect fs ino) nindirect :=
    mem_append_left _ mem_cons_self
  intro he
  rw [lbnBlock_eq] at he hk
  by_cases h1 : k < ndirect
  · rw [if_pos h1] at he hk
    exact hdis _ (mem_pointers.mpr ⟨hk, k, h1, rfl⟩) _ hmem he
  · rw [if_neg h1] at he hk
    by_cases h2 : k - ndirect < nindirect
    · rw [if_pos h2] at he hk
      exact (nodup_append.mp hn2).2.2 _ mem_cons_self _
        (mem_pointers.mpr ⟨hk, _, h2, rfl⟩) he.symm
    · rw [if_neg h2] at hk
      exact hk rfl

theorem Mapped.entry (h : Own fs p.ino) (hge : ¬ lbn < ndirect) (hlt : lbn - ndirect < nindirect)
    (h12 : iBlock p.ino 12 ≠ 0) (h0 : u32 (fs.disk (iBlock p.ino 12)) (4 * (lbn - ndirect)) = 0)
    (hw : Within [] fs fs1) (hf : Fresh fs fs1 b) (hb : b ≠ 0) :
    Mapped p lbn fs (b, grown p p.ino, fs1.bwrite (iBlock p.ino 12)
      (put32 (fs1.disk (iBlock p.ino 12)) (4 * (lbn - ndirect)) b)) := by
  have hsmall := hf.small
  have hk : ∀ b, blockUsed fs b = true → Kept fs fs1 b := fun b hb => hw.kept b hb not_mem_nil
  have hib := h.ptr12 h12
  have hdib : fs1.disk (iBlock p.ino 12) = fs.disk (iBlock p.ino 12) :=
    (hk _ (h.used _ hib)).disk (h.data _ hib)
  have hmib : ¬ Meta fs1 (iBlock p.ino 12) := fun hx => h.data _ hib ((hw.static.meta _).mp hx)
  have hw2 := bwrite_within hmib (put32 (fs1.disk (iBlock p.ino 12)) (4 * (lbn - ndirect)) b)
  have hused := bwrite_bits hmib (put32 (fs1.disk (iBlock p.ino 12)) (4 * (lbn - ndirect)) b)
  generalize hfs2 : fs1.bwrite (iBlock p.ino 12)
    (put32 (fs1.disk (iBlock p.ino 12)) (4 * (lbn - ndirect)) b) = fs2 at *
  have hm : SameMap (grown p p.ino).ino p.ino := (setBlocks_same _ _).toSameMap
  have hadd : OneMore fs p.ino fs2 (grown p p.ino).ino b (some lbn) :=
    (OneMore.entry hge hlt h12 h0 hb (by omega) (by rw [← hfs2, bwrite_disk_self, hdib])).sameMap hm
  refine ⟨(hw.mono nofun).trans hw2 fun b' hb' _ => mem_singleton.mp hb' ▸ hib,
    h.add (hw.static.trans hw2.static) hf hadd.perm fun b' hb' => ?_, fun b' hb' => hadd.grows hf hb',
    (setBlocks_same _ _).mode, (setBlocks_same _ _).links, hm.size, rfl, .inr rfl, hadd.block lbn rfl,
    fun k hne => hadd.others k fun he => hne (Option.some.inj he).symm, fun k hk0 => ?_⟩
  · rw [hused]
    rcases mem_cons.mp hb' with rfl | hb'
    · exact hf.used
    · exact (hk b' (h.used b' hb')).used
  · have hu := h.used _ (lbnBlock_mem hk0)
    exact (hk _ hu).trans hw.static
      (hw2.kept _ (hk _ hu).used fun hx => lbnBlock_ne h.nodup h12 hk0 (mem_singleton.mp hx))

theorem bmap_spec (hg : Ground fs) (h : Own fs p.ino) (lbn : Nat) : Mapped p lbn fs (bmap p lbn true fs) := by
  unfold bmap
  by_cases h1 : lbn < ndirect
  · rw [if_pos h1]
    by_cases h2 : iBlock p.ino lbn = 0
    · rw [if_pos ⟨h2, rfl⟩]
      obtain ⟨hw, hf⟩ := balloc_spec hg
      by_cases h3 : (balloc fs).1 = 0
      · rw [if_pos h3, balloc_zero h3]
        exact Mapped.same h (by rw [lbnBlock_eq, if_pos h1, h2])
      · rw [if_neg h3]
        exact Mapped.direct h h1 h2 hw (hf h3) h3
    · rw [if_neg fun hx => h2 hx.1]
      exact Mapped.same h (by rw [lbnBlock_eq, if_pos h1])
  rw [if_neg h1]
  by_cases h2 : lbn - ndirect < nindirect
  swap
  · rw [if_neg h2]
    exact Mapped.same h (by rw [lbnBlock_eq, if_neg h1, if_neg h2])
  rw [if_pos h2]
  obtain ⟨qw, qo, qg, qm, ql, qs, qor, qc, qlbn⟩ := indirectBlock_spec hg h
  generalize indirectBlock p true fs = q at *
  -- What is done to the state with the indirect block carries over to the one before.
  have hlift : ∀ r, Mapped q.1 lbn q.2 r → Mapped p lbn fs r := by
    intro r hr
    refine ⟨(qw.mono nofun).trans hr.within qg, hr.own, fun b hb hu => ?_, hr.mode.trans qm, hr.links.trans ql,
      hr.size.trans qs, hr.orphaned.trans qor, ?_, hr.block, fun k hne => (hr.others k hne).trans (qlbn k),
      fun k hk0 => ?_⟩
    · exact qg b (hr.grows b hb (qw.kept b hu not_mem_nil).used) hu
    · rcases hr.clean with h3 | h3
      · rw [h3]
        exact qc
      · exact .inr h3
    · have := hr.kept k (by rw [qlbn]; exact hk0)
      rw [qlbn] at this
      exact (qw.kept _ (h.used _ (lbnBlock_mem hk0)) not_mem_nil).trans qw.static this
  by_cases h3 : iBlock q.1.ino 12 = 0
  · rw [if_pos h3]
    exact hlift (0, q) (Mapped.same qo (by rw [lbnBlock_eq, if_neg h1, if_pos h2, indirect, if_pos h3]))
  rw [if_neg h3]
  have hlbn : lbnBlock q.2 q.1.ino lbn = u32 (q.2.disk (iBlock q.1.ino 12)) (4 * (lbn - ndirect)) := by
    rw [lbnBlock_eq, if_neg h1, if_pos h2, indirect, if_neg h3]
  by_cases h4 : u32 (q.2.disk (iBlock q.1.ino 12)) (4 * (lbn - ndirect)) = 0
  · rw [if_pos ⟨h4, rfl⟩]
    obtain ⟨hw, hf⟩ := balloc_spec (qw.ground hg)
    by_cases h5 : (balloc q.2).1 = 0
    · rw [if_pos h5, balloc_zero h5]
      exact hlift (0, q.1, q.2) (Mapped.same qo (hlbn.trans h4))
    · rw [if_neg h5]
      exact hlift _ (Mapped.entry qo h1 h2 h3 h4 hw (hf h5) h5)
  · rw [if_neg fun hx => h4 hx.1]
    exact hlift _ (Mapped.same qo hlbn)

theorem bmap_mapped (h : lbnBlock fs p.ino lbn ≠ 0) : bmap p lbn true fs = (lbnBlock fs p.ino lbn, p, fs) := by
  rw [lbnBlock_eq] at h ⊢
  unfold bmap
  by_cases h1 : lbn < ndirect
  · rw [if_pos h1] at h ⊢
    rw [if_pos h1, if_neg fun hx => h hx.1]
  · rw [if_neg h1] at h ⊢
    rw [if_neg h1]
    by_cases h2 : lbn - ndirect < nindirect
    · rw [if_pos h2] at h ⊢
      have h12 : iBlock p.ino 12 ≠ 0 := fun hx => h (if_pos hx)
      have hq : indirectBlock p true fs = (p, fs) := if_neg fun hx => h12 hx.1
      have he : indirect fs p.ino (lbn - ndirect) =
          u32 (fs.disk (iBlock p.ino 12)) (4 * (lbn - ndirect)) := if_neg h12
      rw [he] at h ⊢
      simp only [hq, h12, if_false, h, false_and, if_pos h2]
    · exact absurd (if_neg h2) h

theorem lbnBlock_inj (hn : (blocksOf fs ino).Nodup) (h0 : lbnBlock fs ino j ≠ 0)
    (he : lbnBlock fs ino j = lbnBlock fs ino k) : j = k := by
  rw [blocksOf_eq] at hn
  obtain ⟨hn1, hn2, hdis⟩ := nodup_append.mp hn
  have hn3 := (nodup_append.mp hn2).2.1
  have hcases : ∀ i, lbnBlock fs ino i ≠ 0 → i < ndirect ∧ lbnBlock fs ino i = iBlock ino i ∨
      ¬ i < ndirect ∧ i - ndirect < nindirect ∧ lbnBlock fs ino i = indirect fs ino (i - ndirect) := by
    intro i hi
    rw [lbnBlock_eq] at hi ⊢
    by_cases h1 : i < ndirect
    · exact .inl ⟨h1, if_pos h1⟩
    · rw [if_neg h1] at hi ⊢
      by_cases h2 : i - ndirect < nindirect
      · exact .inr ⟨h1, h2, if_pos h2⟩
      · exact absurd (if_neg h2) hi
  rcases hcases j h0 with ⟨hj, ej⟩ | ⟨hj, hj2, ej⟩ <;> rcases hcases k (he ▸ h0) with ⟨hk, ek⟩ | ⟨hk, hk2, ek⟩
  · exact pointers_inj hn1 hj hk (ej ▸ h0) (by rw [← ej, he, ek])
  · exact absurd (ej.symm.trans (he.trans ek)) (hdis _ (mem_pointers.mpr ⟨ej ▸ h0, j, hj, rfl⟩) _
      (mem_append_right _ (mem_pointers.mpr ⟨ek ▸ he ▸ h0, _, hk2, rfl⟩)))
  · exact absurd (ek.symm.trans (he.symm.trans ej)) (hdis _ (mem_pointers.mpr ⟨ek ▸ he ▸ h0, k, hk, rfl⟩) _
      (mem_append_right _ (mem_pointers.mpr ⟨ej ▸ h0, _, hj2, rfl⟩)))
  · have := pointers_inj hn3 hj2 hk2 (ej ▸ h0) (by rw [← ej, he, ek])
    omega

end Allocate

end Xv6Vfs.Ext2
