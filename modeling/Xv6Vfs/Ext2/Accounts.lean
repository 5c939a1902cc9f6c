import Xv6Vfs.Ext2.Truncate
import Xv6Vfs.Ext2.Balloc

/-! The free counts on disk: the driver keeps those of the superblock, and never writes the group
descriptor. -/
namespace Xv6Vfs.Ext2
open Xv6Vfs.Bytes Xv6Vfs.Vfs

variable {i n : Nat}

def clearBits (m : Bytes) (n : Nat) : Nat := (List.range n).countP fun i => !bit m i

/-- Clear bits of the block bitmap, for the blocks from `s_first_data_block` on. -/
def freeBlocks (disk : Nat → Bytes) : Nat :=
  clearBits (disk (bgBlockBitmap (disk 2)))
    (min (sBlocksCount (disk 1) - sFirstDataBlock (disk 1)) (bsize * 8))

def freeInodes (disk : Nat → Bytes) : Nat :=
  clearBits (disk (bgInodeBitmap (disk 2))) (min (sInodesCount (disk 1)) (bsize * 8))

/-- `s_free_blocks_count`, `s_free_inodes_count` of block 1 and `bg_free_blocks_count`,
`bg_free_inodes_count` of block 2 are the numbers of clear bits. -/
structure Agree (disk : Nat → Bytes) : Prop where
  sbBlocks : u32 (disk 1) 12 = freeBlocks disk
  sbInodes : u32 (disk 1) 16 = freeInodes disk
  bgBlocks : u16 (disk 2) 12 = freeBlocks disk
  bgInodes : u16 (disk 2) 14 = freeInodes disk

/-- A block that holds one of the records. -/
def Record (fs : Fs) (b : Nat) : Prop :=
  b = 1 ∨ b = 2 ∨ b = bgBlockBitmap fs.bg ∨ b = bgInodeBitmap fs.bg

instance (fs : Fs) (b : Nat) : Decidable (Record fs b) := inferInstanceAs (Decidable (_ ∨ _ ∨ _ ∨ _))

/-- The records are as they were. -/
structure Still (fs fs' : Fs) : Prop extends Static fs fs' where
  disk : ∀ b, Record fs b → fs'.disk b = fs.disk b

/-- The inode of slot `i` is stored outside the records. -/
def Stored (fs : Fs) (i : Nat) : Prop := ¬ Record fs (inoBlock fs (fs.vnodes i).inum)

/-! Steps that allocate and free nothing. -/

/-- Bits `1 ..` of the inode bitmap are set. -/
def InodesFull (fs : Fs) : Prop :=
  ∀ i, 1 ≤ i → i < min (sInodesCount fs.sb) (bsize * 8) → bit (fs.disk (bgInodeBitmap fs.bg)) i = true

/-- Logical block `k` is there, outside the records, or there is no block to be had. -/
def Placed (fs : Fs) (ino : Bytes) (k : Nat) : Prop :=
  if lbnBlock fs ino k = 0 then BitmapFull fs
  else ¬ Record fs (lbnBlock fs ino k) ∧ lbnBlock fs ino k ≠ iBlock ino 12

/-- Another reference remains, or the inode still has a name. -/
def Drops (fs : Fs) (i : Nat) : Prop :=
  1 < (fs.vnodes i).ref ∨
    (fs.vnodes i).priv.orphaned = false ∧ ((fs.vnodes i).priv.dirty = true → Stored fs i)

/-- The name is found, and there is a vnode for it. -/
def NameThere (fs : Fs) (d : Nat) (name : Name) : Prop :=
  ∃ blk inum, walkDir fs d (visitLookup name) = some (.hit blk (some inum)) ∧ (iget inum fs).1 ≠ none

/-- The entry needs no new block. -/
def HasRoom (fs : Fs) (d : Nat) (name : Name) (inum : Nat) : Prop :=
  ∀ w, walkDir fs d (visitAdd (cstr name) inum ftReg) = some w →
    match w with
    | .hit blk (some _) => ¬ Record fs blk
    | .done off => Placed fs (fs.vnodes d).priv.ino (off / bsize)
    | _ => True

/-- The inode with an entry in block `blk` keeps a name, is a directory that stays, or its vnode remains. -/
def Stays (fs : Fs) (blk inum : Nat) : Prop :=
  iLinks (lessLinks (readInode fs inum)) ≠ 0 ∨ (findVnode fs inum).isSome ∨ (iget inum fs).1 = none ∨
    isDir (readInode fs inum) ∧ emptyLoop fs ⟨inodeNow fs inum, false, false⟩ blk
      (iSize (inodeNow fs inum) + 1) 0 ≠ some true

def Quiet (y : Sys) : Op → Prop
  | .close i => Drops y.fs i
  | .create _ d name | .mkdir _ d name | .mknod _ d name _ _ => NameThere y.fs d name ∨ InodesFull y.fs
  | .link _ d name old => isDir (y.fs.vnodes old).priv.ino ∨ NameThere y.fs d name ∨
      HasRoom y.fs d name (y.fs.vnodes old).inum ∧ Stored y.fs d ∧ Stored y.fs old
  | .unlink _ d name => ∀ blk o, walkDir y.fs d (visitUnlink name) = some (.hit blk o) →
      ¬ Record y.fs blk ∧ ¬ Record y.fs (inoBlock y.fs (deInode (y.fs.disk blk) o)) ∧ Stored y.fs d ∧
        Stays y.fs blk (deInode (y.fs.disk blk) o)
  | .write _ i _ n off => Stored y.fs i ∧
      ∀ k, off / bsize ≤ k → k * bsize < off + n → Placed y.fs (y.fs.vnodes i).priv.ino k
  | .truncate _ i => Stored y.fs i ∧ iBlock (y.fs.vnodes i).priv.ino 0 = 0 ∧
      iBlock (y.fs.vnodes i).priv.ino 12 = 0
  | _ => True

section Still

variable {fs fs1 fs2 : Fs}

theorem still_of_disk (hs : Static fs fs1) (hd : fs1.disk = fs.disk) : Still fs fs1 :=
  ⟨hs, fun b _ => congrFun hd b⟩

@[refl] theorem Still.refl (fs : Fs) : Still fs fs := still_of_disk (Static.refl fs) rfl

theorem Still.record (h : Still fs fs1) (b : Nat) : Record fs1 b ↔ Record fs b := by
  unfold Record
  rw [h.bg]

theorem Still.trans (h1 : Still fs fs1) (h2 : Still fs1 fs2) : Still fs fs2 :=
  ⟨h1.toStatic.trans h2.toStatic, fun b hb =>
    (h2.disk b ((h1.record b).mpr hb)).trans (h1.disk b hb)⟩

theorem Still.stored (h : Still fs fs1) (hi : (fs1.vnodes i).inum = (fs.vnodes i).inum) (hs : Stored fs i) :
    Stored fs1 i := by
  unfold Stored inoBlock at *
  rwa [h.record, hi, h.bg, h.inodeSize]

theorem Still.agree (h : Still fs fs1) (hbg : fs.bg = fs.disk 2) (ha : Agree fs.disk) :
    fs1.bg = fs1.disk 2 ∧ Agree fs1.disk := by
  have h1 : fs1.disk 1 = fs.disk 1 := h.disk 1 (.inl rfl)
  have h2 : fs1.disk 2 = fs.disk 2 := h.disk 2 (.inr (.inl rfl))
  have h3 := h.disk _ (.inr (.inr (.inl rfl)))
  have h4 := h.disk _ (.inr (.inr (.inr rfl)))
  rw [hbg] at h3 h4
  have hb : freeBlocks fs1.disk = freeBlocks fs.disk := by
    unfold freeBlocks
    rw [h1, h2, h3]
  have hi : freeInodes fs1.disk = freeInodes fs.disk := by
    unfold freeInodes
    rw [h1, h2, h4]
  refine ⟨by rw [h.bg, hbg, h2], ?_⟩
  constructor
  · rw [h1, hb, ha.sbBlocks]
  · rw [h1, hi, ha.sbInodes]
  · rw [h2, hb, ha.bgBlocks]
  · rw [h2, hi, ha.bgInodes]

theorem Still.bitmapFull (h : Still fs fs1) (hf : BitmapFull fs) : BitmapFull fs1 := by
  unfold BitmapFull
  rwa [h.bg, h.blocks, h.disk _ (.inr (.inr (.inl rfl)))]

theorem Still.inodesFull (h : Still fs fs1) (hf : InodesFull fs) : InodesFull fs1 := by
  unfold InodesFull
  rwa [h.bg, h.inodes, h.disk _ (.inr (.inr (.inr rfl)))]

theorem bwrite_still {b : Nat} (h : ¬ Record fs b) (data : Bytes) : Still fs (fs.bwrite b data) :=
  ⟨bwrite_static fs b data, fun _ hc => Function.update_of_ne (by rintro rfl; exact h hc) _ _⟩

theorem setNode_still (fs : Fs) (i : Nat) (v : Node) : Still fs (fs.setNode i v) :=
  still_of_disk (setNode_static fs i v) rfl

theorem setPriv_still (fs : Fs) (i : Nat) (p : Priv) : Still fs (fs.setPriv i p) :=
  setNode_still fs i _

theorem writeInode_still {n : Nat} (h : ¬ Record fs (inoBlock fs n)) (ino : Bytes) :
    Still fs (writeInode n ino fs) := bwrite_still h _

theorem writeback_still (h : Stored fs i) : Still fs (writeback i fs) := by
  unfold writeback
  dsimp only
  split
  · exact (writeInode_still h _).trans (setPriv_still _ _ _)
  · rfl

theorem writeback_inum (i : Nat) (fs : Fs) (j : Nat) : ((writeback i fs).vnodes j).inum = (fs.vnodes j).inum := by
  unfold writeback
  dsimp only
  split
  · by_cases hj : j = i
    · simp [writeInode, Fs.bwrite, Fs.setPriv, Fs.setNode, hj]
    · simp [writeInode, Fs.bwrite, Fs.setPriv, Fs.setNode, hj]
  · rfl

theorem vput_still (h : Drops fs i) (hv : vput i fs = some fs1) : Still fs fs1 := by
  rcases vput_cases hv with ⟨h1, rfl⟩ | ⟨-, rfl⟩
  · rcases h with h | ⟨ho, hd⟩
    · omega
    · unfold destroy
      simp only [ho, Bool.false_eq_true, if_false]
      split
      case isTrue hdirty => exact ⟨static_of_eq rfl rfl rfl, (writeInode_still (hd hdirty) _).disk⟩
      · exact still_of_disk (static_of_eq rfl rfl rfl) rfl
  · exact setNode_still fs i _

theorem vput_inum (h : Drops fs i) (hv : vput i fs = some fs1) (j : Nat) :
    (fs1.vnodes j).inum = (fs.vnodes j).inum := by
  have hset : ∀ v : Node, v.inum = (fs.vnodes i).inum → ((fs.setNode i v).vnodes j).inum = (fs.vnodes j).inum := by
    intro v hn
    by_cases hj : j = i
    · simp [Fs.setNode, hj, hn]
    · simp [Fs.setNode, hj]
  rcases vput_cases hv with ⟨h1, rfl⟩ | ⟨-, rfl⟩
  · have ho := (h.resolve_left (by omega)).1
    unfold destroy
    simp only [ho, Bool.false_eq_true, if_false]
    split <;> exact hset _ rfl
  · exact hset _ rfl

theorem findVnode_ref (h : findVnode fs n = some i) : 0 < (fs.vnodes i).ref ∧ (fs.vnodes i).inum = n := by
  simpa using List.find?_some h

/-- A vnode from `iget` can be dropped at once. -/
theorem iget_drops (h : (iget n fs).1 = some i) : Still fs (iget n fs).2 ∧ Drops (iget n fs).2 i := by
  unfold iget at h ⊢
  split at h
  case h_1 j hf =>
    cases h
    refine ⟨setNode_still fs _ _, .inl ?_⟩
    simp [Fs.setNode, (findVnode_ref hf).1]
  case h_2 hf =>
    unfold vnodeAlloc at h ⊢
    split at h
    · simp at h
    case h_2 j hj =>
      split at h
      · simp at h
      case isFalse hp =>
        cases h
        rw [if_neg hp]
        exact ⟨still_of_disk (static_of_eq rfl rfl rfl) rfl, .inr (by simp [Fs.setNode])⟩

theorem iget_none (h : (iget n fs).1 = none) : (iget n fs).2 = fs := by
  unfold iget vnodeAlloc at *
  split at h
  · simp at h
  split at h
  · rfl
  split at h
  case isTrue hp => rw [if_pos hp]
  · simp at h

theorem iget_inum (n : Nat) (fs : Fs) (j : Nat) :
    ((iget n fs).2.vnodes j).inum = (fs.vnodes j).inum ∨ ((iget n fs).2.vnodes j).inum = n := by
  unfold iget vnodeAlloc
  split
  case h_1 i _ => by_cases hj : j = i <;> simp [Fs.setNode, hj]
  split
  · exact .inl rfl
  case h_2 i _ =>
    split
    · exact .inl rfl
    · by_cases hj : j = i <;> simp [Fs.setNode, hj]

theorem iget_fst (n : Nat) (fs : Fs) : (iget n fs).1 = (findVnode fs n).or (if fs.pages = 0 then none
    else (List.range nvnode).find? fun i => (fs.vnodes i).ref = 0 ∧ !fs.taken i) := by
  unfold iget vnodeAlloc
  cases findVnode fs n with
  | some i => rfl
  | none =>
    cases (List.range nvnode).find? fun i => decide ((fs.vnodes i).ref = 0 ∧ (!fs.taken i) = true) with
    | none => simp
    | some i => by_cases hp : fs.pages = 0 <;> simp [hp]

theorem iget_still (n : Nat) (fs : Fs) : Still fs (iget n fs).2 := by
  cases h : (iget n fs).1 with
  | none =>
    rw [iget_none h]
  | some i => exact (iget_drops h).1

end Still

end Xv6Vfs.Ext2
