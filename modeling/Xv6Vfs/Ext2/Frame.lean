import Xv6Vfs.Ext2.Driver

/-! The geometry of a mount never changes: the group descriptor, the inode size and the fields of
the superblock that the driver reads. -/
namespace Xv6Vfs.Ext2
open Xv6Vfs.Bytes Xv6Vfs.Vfs Option

variable {y y' : Sys} {ino : Bytes} {name : Name} {d i n o : Nat} {r : Bool × Fs}

structure Static (fs fs' : Fs) : Prop where
  bg : fs'.bg = fs.bg
  inodeSize : fs'.inodeSize = fs.inodeSize
  inodes : sInodesCount fs'.sb = sInodesCount fs.sb
  blocks : sBlocksCount fs'.sb = sBlocksCount fs.sb
  first : sFirstDataBlock fs'.sb = sFirstDataBlock fs.sb

section Primitives

variable {fs fs1 fs2 : Fs}

@[refl] theorem Static.refl (fs : Fs) : Static fs fs := ⟨rfl, rfl, rfl, rfl, rfl⟩

theorem Static.trans (h1 : Static fs fs1) (h2 : Static fs1 fs2) : Static fs fs2 :=
  ⟨h2.bg.trans h1.bg, h2.inodeSize.trans h1.inodeSize, h2.inodes.trans h1.inodes,
    h2.blocks.trans h1.blocks, h2.first.trans h1.first⟩

theorem static_of_eq (h1 : fs1.bg = fs.bg) (h2 : fs1.inodeSize = fs.inodeSize) (h3 : fs1.sb = fs.sb) :
    Static fs fs1 := ⟨h1, h2, by rw [h3], by rw [h3], by rw [h3]⟩

theorem bwrite_static (fs : Fs) (b : Nat) (data : Bytes) : Static fs (fs.bwrite b data) :=
  static_of_eq rfl rfl rfl

theorem setNode_static (fs : Fs) (i : Nat) (v : Node) : Static fs (fs.setNode i v) :=
  static_of_eq rfl rfl rfl

theorem setPriv_static (fs : Fs) (i : Nat) (p : Priv) : Static fs (fs.setPriv i p) :=
  static_of_eq rfl rfl rfl

theorem writeInode_static (n : Nat) (ino : Bytes) (fs : Fs) : Static fs (writeInode n ino fs) :=
  bwrite_static fs _ _

theorem sbWrite_static (delta : Nat) (fs : Fs) (ho : o = 12 ∨ o = 16) : Static fs (sbWrite o delta fs) := by
  have h : ∀ o', o' + 4 ≤ 12 ∨ 20 ≤ o' → u32 (sbWrite o delta fs).sb o' = u32 fs.sb o' :=
    fun o' ho' => u32_blit_out (by omega)
  exact ⟨rfl, rfl, h 0 (by omega), h 4 (by omega), h 20 (by omega)⟩

theorem bitmapAlloc_static {bb nbits base r : Nat} (h : bitmapAlloc bb nbits base fs = some (r, fs1)) :
    Static fs fs1 := by
  obtain ⟨i, -, he⟩ := map_eq_some_iff.mp h
  obtain ⟨-, rfl⟩ := Prod.mk.inj he
  exact bwrite_static fs _ _

theorem balloc_static (fs : Fs) : Static fs (balloc fs).2 := by
  unfold balloc
  split
  · rfl
  case h_2 b fs1 h =>
    exact ((bitmapAlloc_static h).trans (sbWrite_static 4294967295 fs1 (.inl rfl))).trans
      (static_of_eq rfl rfl rfl)

theorem bfree_static (b : Nat) (fs : Fs) : Static fs (bfree b fs) :=
  ((bwrite_static fs _ _).trans (sbWrite_static 1 _ (.inl rfl))).trans (static_of_eq rfl rfl rfl)

theorem ialloc_static (mode t : Nat) (fs : Fs) : Static fs (ialloc mode t fs).2 := by
  unfold ialloc
  split
  · rfl
  case h_2 n fs1 h =>
    exact ((bitmapAlloc_static h).trans (writeInode_static _ _ _)).trans
      (sbWrite_static _ _ (.inr rfl))

theorem ifree_static (n : Nat) (fs : Fs) : Static fs (ifree n fs) :=
  (bwrite_static fs _ _).trans (sbWrite_static 1 _ (.inr rfl))

theorem indirectBlock_static (p : Priv) (alloc : Bool) (fs : Fs) :
    Static fs (indirectBlock p alloc fs).2 := by
  unfold indirectBlock
  dsimp only
  split
  · split
    · exact balloc_static fs
    · exact (balloc_static fs).trans (bwrite_static _ _ _)
  · rfl

theorem bmap_static (p : Priv) (lbn : Nat) (alloc : Bool) (fs : Fs) :
    Static fs (bmap p lbn alloc fs).2.2 := by
  unfold bmap
  dsimp only
  split
  · split
    · split <;> exact balloc_static fs
    · rfl
  split
  · have h := indirectBlock_static p alloc fs
    split
    · exact h
    split
    · split
      · exact h.trans (balloc_static _)
      · exact (h.trans (balloc_static _)).trans (bwrite_static _ _ _)
    · exact h
  · rfl

theorem freeArray_static (base k i : Nat) (a : Bytes) (fs : Fs) : Static fs (freeArray base k i a fs).2 := by
  induction k generalizing i a fs with
  | zero => rfl
  | succ k ih =>
    unfold freeArray
    split
    · rfl
    · exact (bfree_static _ fs).trans (ih _ _ _)

theorem iTruncate_static (p : Priv) (fs : Fs) : Static fs (iTruncate p fs).2 := by
  have h1 := freeArray_static 40 ndirect 0 p.ino fs
  refine h1.trans ?_
  simp only [iTruncate, freeIndirect]
  split
  · rfl
  · exact ((freeArray_static 0 nindirect 0 _ _).trans (bwrite_static _ _ _)).trans
      (bfree_static _ _)

theorem destroy_static (n : Nat) (p : Priv) (fs : Fs) : Static fs (destroy n p fs) := by
  have h : Static fs (if p.orphaned then ifree n (iTruncate p fs).2
      else if p.dirty then writeInode n p.ino fs else fs) := by
    split
    · exact (iTruncate_static p fs).trans (ifree_static n _)
    split
    · exact writeInode_static n p.ino fs
    · rfl
  exact h.trans (static_of_eq rfl rfl rfl)

theorem vput_cases (h : vput i fs = some fs1) :
    (fs.vnodes i).ref = 1 ∧ fs1 = destroy (fs.vnodes i).inum (fs.vnodes i).priv
        (fs.setNode i { fs.vnodes i with ref := 0, type := .none }) ∨
      1 < (fs.vnodes i).ref ∧ fs1 = fs.setNode i { fs.vnodes i with ref := (fs.vnodes i).ref - 1 } := by
  unfold vput at h
  dsimp only at h
  split at h
  · cases h
  split at h
  case isTrue hone =>
    split at h
    · cases h
    · exact .inl ⟨hone, (some.inj h).symm⟩
  · exact .inr ⟨by omega, (some.inj h).symm⟩

theorem vput_static (h : vput i fs = some fs1) : Static fs fs1 := by
  rcases vput_cases h with ⟨-, rfl⟩ | ⟨-, rfl⟩
  · exact (setNode_static fs i _).trans (destroy_static _ _ _)
  · exact setNode_static fs i _

theorem iget_static (n : Nat) (fs : Fs) : Static fs (iget n fs).2 := by
  unfold iget vnodeAlloc
  split
  · exact setNode_static fs _ _
  split
  · rfl
  split
  · rfl
  · exact static_of_eq rfl rfl rfl

theorem iget_inodeNow (h : (iget n fs).1 = some i) :
    ((iget n fs).2.vnodes i).priv.ino = inodeNow fs n ∧ (iget n fs).2.disk = fs.disk := by
  cases hf : findVnode fs n with
  | some j =>
    simp only [iget, inodeNow, hf] at h ⊢
    cases h
    simp [Fs.setNode]
  | none =>
    simp only [iget, inodeNow, hf] at h ⊢
    rw [vnodeAlloc] at h ⊢
    cases hj : (List.range nvnode).find? fun i => (fs.vnodes i).ref = 0 ∧ !fs.taken i with
    | none =>
      rw [hj] at h
      cases h
    | some j =>
      rw [hj] at h
      dsimp only at h ⊢
      by_cases hp : fs.pages = 0
      · rw [if_pos hp] at h
        cases h
      · rw [if_neg hp] at h ⊢
        cases h
        simp [Fs.setNode]

theorem writeback_static (i : Nat) (fs : Fs) : Static fs (writeback i fs) := by
  unfold writeback
  dsimp only
  split
  · exact (writeInode_static _ _ _).trans (setPriv_static _ _ _)
  · rfl

theorem dirLookup_static {r : Option Nat × Fs} (h : dirLookup d name fs = some r) : Static fs r.2 := by
  obtain ⟨w, -, rfl⟩ := map_eq_some_iff.mp h
  split
  · exact iget_static _ fs
  · rfl

theorem dirAdd_static {ftype : Nat} (h : dirAdd d name n ftype fs = some r) : Static fs r.2 := by
  obtain ⟨w, -, h⟩ := bind_eq_some_iff.mp h
  split at h
  · exact some.inj h ▸ Static.refl fs
  · exact some.inj h ▸ Static.refl fs
  · exact some.inj h ▸ bwrite_static _ _ _
  · have h1 := bmap_static (fs.vnodes d).priv
    dsimp only at h
    split at h
    · cases h
    split at h
    · exact some.inj h ▸ (h1 _ _ _).trans (setPriv_static _ _ _)
    · exact some.inj h ▸ (((h1 _ _ _).trans (setPriv_static _ _ _)).trans (setPriv_static _ _ _)).trans
        (bwrite_static _ _ _)

end Primitives

section Operations

variable {fs fs1 : Fs} {t d : Nat} {name : Name}

theorem touch_static (t : Nat) (access mod : Bool) (i : Nat) (fs : Fs) :
    Static fs (touch t access mod i fs) := setPriv_static _ _ _

theorem nameTaken_static (h : nameTaken d name fs = some r) : Static fs r.2 := by
  obtain ⟨⟨o, fs1⟩, h1, h2⟩ := bind_eq_some_iff.mp h
  have h3 := dirLookup_static h1
  cases o with
  | none => exact some.inj h2 ▸ h3
  | some i =>
    obtain ⟨fs2, h4, rfl⟩ := map_eq_some_iff.mp h2
    exact h3.trans (vput_static h4)

theorem writeLoop_static (i : Nat) (user : List UInt8) (n fuel total off : Nat) (fs : Fs) :
    Static fs (writeLoop i user n fuel total off fs).2.2 := by
  induction fuel generalizing total off fs with
  | zero => rfl
  | succ fuel ih =>
    have h1 := (bmap_static (fs.vnodes i).priv (off / bsize) true fs).trans
      (setPriv_static _ i (bmap (fs.vnodes i).priv (off / bsize) true fs).2.1)
    unfold writeLoop
    dsimp only
    split
    · split
      · exact h1
      · split
        · exact h1.trans (bwrite_static _ _ _)
        · exact (h1.trans (bwrite_static _ _ _)).trans (ih _ _ _)
    · rfl

theorem write_static (t i : Nat) (user : List UInt8) (n off : Nat) (fs : Fs) :
    Static fs (write t i user n off fs).2 := by
  have h1 := writeLoop_static i user n n 0 off fs
  unfold write
  dsimp only
  split
  · refine h1.trans (Static.trans ?_ ((touch_static t false true i _).trans (writeback_static i _)))
    split
    · exact setNode_static _ _ _
    · rfl
  · exact h1

theorem truncate_static (t i : Nat) (fs : Fs) : Static fs (truncate t i fs) :=
  (((iTruncate_static _ fs).trans (setNode_static _ _ _)).trans (touch_static _ _ _ _ _)).trans
    (writeback_static _ _)

theorem dirEmpty_static {held : Nat} {r : Option Bool × Fs} (h : dirEmpty n held fs = some r) : Static fs r.2 := by
  have h1 := iget_static n fs
  unfold dirEmpty at h
  dsimp only at h
  split at h
  · exact some.inj h ▸ h1
  · obtain ⟨e, -, h2⟩ := bind_eq_some_iff.mp h
    obtain ⟨fs2, h3, rfl⟩ := map_eq_some_iff.mp h2
    exact h1.trans (vput_static h3)

theorem orphan_static (h : orphan n ino fs = some fs1) : Static fs fs1 := by
  have h1 := iget_static n fs
  unfold orphan at h
  dsimp only at h
  split at h
  · exact some.inj h ▸ h1
  · exact ((h1.trans (setPriv_static _ _ _)).trans (writeInode_static _ _ _)).trans (vput_static h)

theorem dropEntry_static {blk : Nat} (h : dropEntry t d blk o n ino fs = some fs1) : Static fs fs1 := by
  obtain ⟨fs2, h1, rfl⟩ := map_eq_some_iff.mp h
  refine ((bwrite_static fs blk (put32 (fs.disk blk) o 0)).trans ?_).trans (writeback_static d fs2)
  split at h1
  · exact orphan_static h1
  · cases h1
    exact writeInode_static _ _ _

theorem unlink_static (h : unlink t d name fs = some r) : Static fs r.2 := by
  have h1 := touch_static t false true d fs
  obtain ⟨w, -, h2⟩ := bind_eq_some_iff.mp h
  split at h2
  · dsimp only at h2
    split at h2
    · cases h2
    split at h2
    · obtain ⟨⟨e, fs2⟩, h3, h4⟩ := bind_eq_some_iff.mp h2
      have h5 := h1.trans (dirEmpty_static h3)
      split at h4
      · obtain ⟨fs3, h6, rfl⟩ := map_eq_some_iff.mp h4
        exact (h5.trans (setPriv_static _ _ _)).trans (dropEntry_static h6)
      · exact some.inj h4 ▸ h5
    · obtain ⟨fs3, h6, rfl⟩ := map_eq_some_iff.mp h2
      exact h1.trans (dropEntry_static h6)
  · exact some.inj h2 ▸ h1

theorem fillDir_static (h : fillDir t d name n fs = some r) : Static fs r.2 := by
  have hundo : ∀ {fs1 : Fs} {r : Bool × Fs},
      ((unlink t d name fs1).map fun q => (false, q.2)) = some r → Static fs1 r.2 := by
    intro fs1 r h
    obtain ⟨q, h1, rfl⟩ := map_eq_some_iff.mp h
    exact unlink_static (r := q) h1
  have h1 := iget_static n fs
  unfold fillDir at h
  dsimp only at h
  split at h
  · exact h1.trans (hundo h)
  · obtain ⟨r1, h2, h⟩ := bind_eq_some_iff.mp h
    obtain ⟨r2, h3, h⟩ := bind_eq_some_iff.mp h
    have h4 := h1.trans (dirAdd_static h2)
    have h5 : Static r1.2 r2.2 := by
      split at h3
      · exact dirAdd_static h3
      · exact some.inj h3 ▸ Static.refl _
    have h6 := h4.trans h5
    split at h
    · obtain ⟨fs3, h7, rfl⟩ := map_eq_some_iff.mp h
      exact ((h6.trans (setPriv_static _ _ _)).trans (vput_static h7)).trans (setPriv_static _ _ _)
    · obtain ⟨fs3, h7, h8⟩ := bind_eq_some_iff.mp h
      exact (h6.trans (vput_static h7)).trans (hundo h8)

theorem create_static {dir : Bool} {r : Option Nat × Fs} (h : create t d name dir fs = some r) : Static fs r.2 := by
  obtain ⟨r0, h0, h⟩ := bind_eq_some_iff.mp h
  have h1 := (touch_static t false true d fs).trans (nameTaken_static h0)
  split at h
  · exact some.inj h ▸ h1
  dsimp only at h
  have h2 := h1.trans (ialloc_static (newMode dir) t r0.2)
  split at h
  · exact some.inj h ▸ h2
  obtain ⟨b, h3, h⟩ := bind_eq_some_iff.mp h
  have h4 := (h2.trans (writeInode_static _ _ _)).trans (dirAdd_static h3)
  split at h
  · obtain ⟨c, h5, rfl⟩ := map_eq_some_iff.mp h
    have h6 : Static b.2 c.2 := by
      split at h5
      · exact fillDir_static h5
      · exact some.inj h5 ▸ Static.refl _
    have h7 := h4.trans h6
    split
    · split
      · exact h7.trans (iget_static _ _)
      · exact ((h7.trans (iget_static _ _)).trans (writeback_static _ _)).trans (writeback_static _ _)
    · exact h7
  · exact some.inj h ▸ h4.trans (ifree_static _ _)

theorem mkdir_static (h : mkdir t d name fs = some r) : Static fs r.2 := by
  obtain ⟨⟨o, fs1⟩, h1, h2⟩ := bind_eq_some_iff.mp h
  have h3 := create_static h1
  cases o with
  | none => exact some.inj h2 ▸ h3
  | some i =>
    obtain ⟨fs2, h4, rfl⟩ := map_eq_some_iff.mp h2
    exact h3.trans (vput_static h4)

theorem link_static {old : Nat} (h : link t d name old fs = some r) : Static fs r.2 := by
  unfold link at h
  split at h
  · exact some.inj h ▸ Static.refl fs
  obtain ⟨r0, h0, h⟩ := bind_eq_some_iff.mp h
  have h1 := nameTaken_static h0
  split at h
  · exact some.inj h ▸ h1
  obtain ⟨b, h2, rfl⟩ := map_eq_some_iff.mp h
  have h3 := ((h1.trans (setPriv_static _ _ _)).trans (touch_static _ _ _ _ _)).trans
    (dirAdd_static h2)
  split
  · exact (h3.trans (writeback_static _ _)).trans (writeback_static _ _)
  · exact h3.trans (setPriv_static _ _ _)

theorem mknod_static {major minor : Nat} (h : mknod t d name major minor fs = some r) : Static fs r.2 := by
  obtain ⟨r0, h0, h⟩ := bind_eq_some_iff.mp h
  have h1 := (touch_static t false true d fs).trans (nameTaken_static h0)
  split at h
  · exact some.inj h ▸ h1
  dsimp only at h
  have h2 := h1.trans (ialloc_static 0x2000 t r0.2)
  split at h
  · exact some.inj h ▸ h2
  obtain ⟨b, h3, rfl⟩ := map_eq_some_iff.mp h
  have h4 := (h2.trans (writeInode_static _ _ _)).trans (dirAdd_static h3)
  split
  · exact h4.trans (writeback_static _ _)
  · exact h4.trans (ifree_static _ _)

end Operations

theorem of_guard {b : Prop} [Decidable b] {o : Option Sys} (h : (if b then o else none) = some y') : o = some y' :=
  (ite_none_right_eq_some.mp h).2

theorem exec_static {op : Op} (h : exec op y = some y') : Static y.fs y'.fs := by
  cases op with
  | root => exact some.inj h ▸ setNode_static _ _ _
  | dup i => exact some.inj (of_guard h) ▸ setNode_static _ _ _
  | close i =>
    obtain ⟨fs, h1, rfl⟩ := map_eq_some_iff.mp (of_guard h)
    exact vput_static h1
  | lookup t d name =>
    obtain ⟨r, h1, rfl⟩ := map_eq_some_iff.mp (of_guard h)
    exact (touch_static t true false d _).trans (dirLookup_static h1)
  | create t d name =>
    obtain ⟨r, h1, rfl⟩ := map_eq_some_iff.mp (of_guard h)
    exact create_static h1
  | mkdir t d name =>
    obtain ⟨r, h1, rfl⟩ := map_eq_some_iff.mp (of_guard h)
    exact mkdir_static h1
  | mknod t d name major minor =>
    obtain ⟨r, h1, rfl⟩ := map_eq_some_iff.mp (of_guard h)
    exact mknod_static h1
  | link t d name old =>
    obtain ⟨r, h1, rfl⟩ := map_eq_some_iff.mp (of_guard h)
    exact link_static h1
  | unlink t d name =>
    obtain ⟨r, h1, rfl⟩ := map_eq_some_iff.mp (of_guard h)
    exact unlink_static h1
  | read t i off =>
    cases of_guard h
    simp only [read]
    split
    · rfl
    · exact touch_static _ _ _ _ _
  | write t i user n off => exact some.inj (of_guard h) ▸ write_static t i user n off y.fs
  | truncate t i => exact some.inj (of_guard h) ▸ truncate_static t i y.fs
  | others taken pages => exact some.inj h ▸ static_of_eq rfl rfl rfl

theorem run_static {ops : List Op} (h : Run.run exec ops y = some y') : Static y.fs y'.fs :=
  Run.run_preserves (fun z => Static y.fs z.fs) (fun _ _ _ hs he => hs.trans (exec_static he))
    (Static.refl _) h

end Xv6Vfs.Ext2
