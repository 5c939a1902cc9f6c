import Xv6Vfs.Ext2.Fields

/-! The layout of a mount, and changes that stay within some blocks: only these, free blocks and the
counters of the superblock change. -/
namespace Xv6Vfs.Ext2
open Xv6Vfs.Bytes Xv6Vfs.Vfs Nat

variable {b j n : Nat}

def ValidIno (fs : Fs) (n : Nat) : Prop := 1 ≤ n ∧ n ≤ sInodesCount fs.sb

instance (fs : Fs) (n : Nat) : Decidable (ValidIno fs n) := inferInstanceAs (Decidable (_ ∧ _))

/-- Inodes fit their slots, and bitmaps, superblock and inode table are apart. -/
structure Geo (fs : Fs) : Prop where
  size : 128 ≤ fs.inodeSize
  fits : fs.inodeSize ≤ bsize
  count : sInodesCount fs.sb ≤ bsize * 8
  bitmaps : bgBlockBitmap fs.bg ≠ bgInodeBitmap fs.bg
  blockMap : bgBlockBitmap fs.bg ≠ 1
  inodeMap : bgInodeBitmap fs.bg ≠ 1
  table : ∀ n, ValidIno fs n → inoBlock fs n ≠ 1 ∧ inoBlock fs n ≠ bgBlockBitmap fs.bg ∧
    inoBlock fs n ≠ bgInodeBitmap fs.bg

/-- Superblock, bitmaps and inode table. -/
def Meta (fs : Fs) (b : Nat) : Prop :=
  b = 1 ∨ b = bgBlockBitmap fs.bg ∨ b = bgInodeBitmap fs.bg ∨ ∃ n, ValidIno fs n ∧ inoBlock fs n = b

/-- The layout, with the metadata marked in use. -/
structure Ground (fs : Fs) : Prop extends Geo fs where
  marked : ∀ b, Meta fs b → blockUsed fs b = true

/-- A block that is in use stays so, with its content. -/
structure Kept (fs fs' : Fs) (b : Nat) : Prop where
  used : blockUsed fs' b = true
  disk : ¬ Meta fs b → fs'.disk b = fs.disk b

/-- Of the blocks in use only those of `S` change, and the metadata stay marked. -/
structure Within (S : List Nat) (fs fs' : Fs) : Prop where
  static : Static fs fs'
  vnodes : fs'.vnodes = fs.vnodes
  taken : fs'.taken = fs.taken
  pages : fs'.pages = fs.pages
  imap : fs'.disk (bgInodeBitmap fs.bg) = fs.disk (bgInodeBitmap fs.bg)
  table : ∀ m, ValidIno fs m → fs'.disk (inoBlock fs m) = fs.disk (inoBlock fs m)
  marked : ∀ b, Meta fs b → blockUsed fs b = true → blockUsed fs' b = true
  kept : ∀ b, blockUsed fs b = true → b ∉ S → Kept fs fs' b

section Static

variable {fs fs' : Fs}

section

variable (h : Static fs fs')
include h

theorem Static.validIno (n : Nat) : ValidIno fs' n ↔ ValidIno fs n := by
  unfold ValidIno
  rw [h.inodes]

theorem Static.inoBlock (n : Nat) : inoBlock fs' n = inoBlock fs n := by
  unfold Ext2.inoBlock
  rw [h.bg, h.inodeSize]

theorem Static.inoOffset (n : Nat) : inoOffset fs' n = inoOffset fs n := by
  unfold Ext2.inoOffset
  rw [h.inodeSize]

theorem Static.meta (b : Nat) : Meta fs' b ↔ Meta fs b := by
  simp only [Meta, h.bg, h.validIno, h.inoBlock]

theorem Static.geo (hg : Geo fs) : Geo fs' := by
  refine ⟨h.inodeSize ▸ hg.size, h.inodeSize ▸ hg.fits, h.inodes ▸ hg.count, h.bg ▸ hg.bitmaps,
    h.bg ▸ hg.blockMap, h.bg ▸ hg.inodeMap, fun n hn => ?_⟩
  rw [h.inoBlock, h.bg]
  exact hg.table n ((h.validIno n).mp hn)

end

end Static

section Within

variable {S S' : List Nat} {fs fs1 fs2 : Fs}

theorem Kept.refl (h : blockUsed fs b = true) : Kept fs fs b := ⟨h, fun _ => rfl⟩

theorem Kept.trans (hs : Static fs fs1) (h1 : Kept fs fs1 b) (h2 : Kept fs1 fs2 b) : Kept fs fs2 b :=
  ⟨h2.used, fun hm => (h2.disk (fun hx => hm ((hs.meta b).mp hx))).trans (h1.disk hm)⟩

theorem Within.refl (S : List Nat) (fs : Fs) : Within S fs fs :=
  ⟨Static.refl fs, rfl, rfl, rfl, rfl, fun _ _ => rfl, fun _ _ h => h, fun _ h _ => Kept.refl h⟩

theorem Within.mono (h : Within S fs fs1) (hs : ∀ b ∈ S, b ∈ S') : Within S' fs fs1 :=
  { h with kept := fun b hb hn => h.kept b hb fun hx => hn (hs b hx) }

/-- The second change may also use blocks that were free before. -/
theorem Within.trans (h1 : Within S fs fs1) (h2 : Within S' fs1 fs2)
    (hs : ∀ b ∈ S', blockUsed fs b = true → b ∈ S) : Within S fs fs2 where
  static := h1.static.trans h2.static
  vnodes := h2.vnodes.trans h1.vnodes
  taken := h2.taken.trans h1.taken
  pages := h2.pages.trans h1.pages
  imap := by
    have := h2.imap
    rw [h1.static.bg] at this
    exact this.trans h1.imap
  table m hm := by
    have := h2.table m ((h1.static.validIno m).mpr hm)
    rw [h1.static.inoBlock] at this
    exact this.trans (h1.table m hm)
  marked b hb hu := h2.marked b ((h1.static.meta b).mpr hb) (h1.marked b hb hu)
  kept b hb hn := by
    have k1 := h1.kept b hb hn
    exact k1.trans h1.static (h2.kept b k1.used fun hx => hn (hs b hx hb))

theorem Within.ground (h : Within S fs fs1) (hg : Ground fs) : Ground fs1 where
  toGeo := h.static.geo hg.toGeo
  marked b hb := h.marked b ((h.static.meta b).mp hb) (hg.marked b ((h.static.meta b).mp hb))

theorem Within.inodeUsed (h : Within S fs fs1) (m : Nat) : inodeUsed fs1 m = inodeUsed fs m := by
  unfold Ext2.inodeUsed
  rw [h.static.bg, h.imap]

theorem Within.readInode (h : Within S fs fs1) {m : Nat} (hm : ValidIno fs m) :
    readInode fs1 m = readInode fs m := by
  unfold Ext2.readInode
  rw [h.static.inoBlock, h.static.inoOffset, h.table m hm]

end Within

section Allocation

variable {S : List Nat} {fs : Fs}

theorem sbWrite_disk (o delta : Nat) (fs : Fs) (hb : b ≠ 1) :
    (sbWrite o delta fs).disk b = fs.disk b := Function.update_of_ne hb _ _

theorem bwrite_disk (fs : Fs) {b' : Nat} (data : Bytes) (hb : b' ≠ b) :
    (fs.bwrite b data).disk b' = fs.disk b' := Function.update_of_ne hb _ _

@[simp] theorem bwrite_disk_self (fs : Fs) (b : Nat) (data : Bytes) :
    (fs.bwrite b data).disk b = data := by simp [Fs.bwrite]

theorem not_meta (h : ¬ Meta fs b) : b ≠ 1 ∧ b ≠ bgBlockBitmap fs.bg ∧
    b ≠ bgInodeBitmap fs.bg ∧ ∀ m, ValidIno fs m → b ≠ inoBlock fs m :=
  ⟨fun he => h (.inl he), fun he => h (.inr (.inl he)), fun he => h (.inr (.inr (.inl he))),
    fun m hm he => h (.inr (.inr (.inr ⟨m, hm, he.symm⟩)))⟩

/-- A change of bits in the block bitmap and of the counters. -/
theorem within_of_bitmap {fs' : Fs} (hg : Geo fs) (hs : Static fs fs') (hv : fs'.vnodes = fs.vnodes)
    (ht : fs'.taken = fs.taken) (hp : fs'.pages = fs.pages)
    (hd : ∀ b, b ≠ 1 → b ≠ bgBlockBitmap fs.bg → fs'.disk b = fs.disk b)
    (hk : ∀ b, blockUsed fs b = true → b ∉ S → blockUsed fs' b = true)
    (hm : ∀ b ∈ S, ¬ Meta fs b) : Within S fs fs' where
  static := hs
  vnodes := hv
  taken := ht
  pages := hp
  imap := hd _ hg.inodeMap hg.bitmaps.symm
  table m hm := hd _ (hg.table m hm).1 (hg.table m hm).2.1
  marked b hb hu := hk b hu fun hx => hm b hx hb
  kept b hb hn := by
    refine ⟨hk b hb hn, fun hm => ?_⟩
    obtain ⟨h1, h2, -⟩ := not_meta hm
    exact hd b h1 h2

/-- The state after block `i` has been given away. -/
def take (i : Nat) (fs : Fs) : Fs :=
  sbWrite 12 4294967295 (fs.bwrite (bgBlockBitmap fs.bg) (setBit (fs.disk (bgBlockBitmap fs.bg)) i))

theorem balloc_cases (fs : Fs) : balloc fs = (0, fs) ∨
    ∃ i, 0 < i ∧ i < 8192 ∧ blockUsed fs i = false ∧ balloc fs = (i, take i fs) := by
  unfold balloc
  cases ha : bitmapAlloc (bgBlockBitmap fs.bg) (sBlocksCount fs.sb) 0 fs with
  | none => exact .inl rfl
  | some r =>
    obtain ⟨i, hi, rfl⟩ := Option.map_eq_some_iff.mp ha
    have hclear := List.find?_some hi
    have hrange := List.mem_range'_1.mp (List.mem_of_find?_eq_some hi)
    simp only [bsize] at hrange
    exact .inr ⟨i, by omega, by omega, by simpa [blockUsed] using hclear, rfl⟩

theorem take_static (i : Nat) (fs : Fs) : Static fs (take i fs) :=
  (bwrite_static fs _ _).trans (sbWrite_static _ _ (.inl rfl))

theorem take_bits (hg : Geo fs) (i b : Nat) : blockUsed (take i fs) b = (blockUsed fs b || decide (i = b)) := by
  unfold blockUsed
  rw [(take_static i fs).bg]
  show bit ((sbWrite 12 4294967295 _).disk _) b = _
  rw [sbWrite_disk _ _ _ hg.blockMap, bwrite_disk_self, bit_setBit]

theorem take_within (hg : Geo fs) (i : Nat) : Within [] fs (take i fs) := by
  refine within_of_bitmap hg (take_static i fs) rfl rfl rfl (fun b h1 h2 => ?_) (fun b hb _ => ?_) nofun
  · show (sbWrite 12 4294967295 _).disk b = _
    rw [sbWrite_disk _ _ _ h1, bwrite_disk _ _ h2]
  · rw [take_bits hg, hb, Bool.true_or]

/-- A block that has just been given away. -/
structure Fresh (fs fs' : Fs) (b : Nat) : Prop where
  clear : blockUsed fs b = false
  used : blockUsed fs' b = true
  data : ¬ Meta fs b
  small : b < 8192

theorem Fresh.ne {fs' : Fs} {b' : Nat} (h : Fresh fs fs' b) (hu : blockUsed fs b' = true) : b' ≠ b := by
  rintro rfl
  rw [h.clear] at hu
  cases hu

/-- `ext2_balloc`: nothing, or a fresh block; all blocks in use are kept. -/
theorem balloc_spec (hg : Ground fs) :
    Within [] fs (balloc fs).2 ∧ ((balloc fs).1 ≠ 0 → Fresh fs (balloc fs).2 (balloc fs).1) := by
  rcases balloc_cases fs with he | ⟨i, -, hlt, hclear, he⟩
  · rw [he]
    exact ⟨Within.refl [] fs, fun h0 => absurd rfl h0⟩
  · rw [he]
    refine ⟨take_within hg.toGeo i, fun _ => ⟨hclear, ?_, fun hm => ?_, hlt⟩⟩
    · rw [take_bits hg.toGeo, decide_eq_true rfl, Bool.or_true]
    · rw [hg.marked i hm] at hclear
      cases hclear

theorem bfree_bits (hg : Geo fs) (b b' : Nat) : blockUsed (bfree b fs) b' = (blockUsed fs b' && decide (b ≠ b')) := by
  unfold blockUsed
  rw [(bfree_static b fs).bg]
  show bit ((sbWrite 12 1 _).disk _) b' = _
  rw [sbWrite_disk _ _ _ hg.blockMap, bitmapFree, bwrite_disk_self, bit_clearBit, Nat.sub_zero]

theorem bfree_within (hg : Geo fs) (hm : ¬ Meta fs b) : Within [b] fs (bfree b fs) := by
  refine within_of_bitmap hg (bfree_static b fs) rfl rfl rfl (fun b' h1 h2 => ?_) (fun b' hb hn => ?_) ?_
  · show (sbWrite 12 1 _).disk b' = _
    rw [sbWrite_disk _ _ _ h1, bitmapFree, bwrite_disk _ _ h2]
  · rw [bfree_bits hg, hb]
    exact decide_eq_true fun he => hn (he ▸ List.mem_singleton_self b)
  · simpa using hm

theorem bwrite_bits (hm : ¬ Meta fs b) (data : Bytes) (b' : Nat) :
    blockUsed (fs.bwrite b data) b' = blockUsed fs b' := by
  show bit ((fs.bwrite b data).disk (bgBlockBitmap fs.bg)) b' = _
  rw [bwrite_disk _ _ (not_meta hm).2.1.symm]
  rfl

theorem bwrite_within (hm : ¬ Meta fs b) (data : Bytes) : Within [b] fs (fs.bwrite b data) := by
  obtain ⟨-, -, h3, h4⟩ := not_meta hm
  refine ⟨bwrite_static fs b data, rfl, rfl, rfl, bwrite_disk _ _ h3.symm,
    fun m hv => bwrite_disk _ _ (h4 m hv).symm, fun b' _ hu => ?_, fun b' hu hn => ⟨?_, fun _ => ?_⟩⟩
  · rwa [bwrite_bits hm]
  · rwa [bwrite_bits hm]
  · exact bwrite_disk _ _ (by simpa using hn)

end Allocation

section Table

variable {fs : Fs} {n m : Nat}

theorem inoOffset_le (h1 : 128 ≤ fs.inodeSize) (hfits : fs.inodeSize ≤ bsize) (n : Nat) :
    inoOffset fs n + 128 ≤ bsize := by
  have h2 : 0 < bsize / fs.inodeSize := Nat.div_pos hfits (by omega)
  have h3 : (n - 1) % (bsize / fs.inodeSize) + 1 ≤ bsize / fs.inodeSize := mod_lt _ h2
  have h4 := div_mul_le_self bsize fs.inodeSize
  have h5 : ((n - 1) % (bsize / fs.inodeSize) + 1) * fs.inodeSize ≤
      bsize / fs.inodeSize * fs.inodeSize := Nat.mul_le_mul_right _ h3
  rw [succ_mul] at h5
  unfold inoOffset
  omega

theorem slots_apart (hsize : 128 ≤ fs.inodeSize) (hn : ValidIno fs n) (hm : ValidIno fs m) (hne : m ≠ n) :
    inoBlock fs m ≠ inoBlock fs n ∨ inoOffset fs m + 128 ≤ inoOffset fs n ∨
      inoOffset fs n + 128 ≤ inoOffset fs m := by
  by_cases hb : inoBlock fs m = inoBlock fs n
  · right
    unfold inoBlock at hb
    unfold inoOffset
    have hcount : sInodesCount fs.sb < 4294967296 := u32_lt _ _
    have hm1 := Nat.div_le_self (m - 1) (bsize / fs.inodeSize)
    have hn1 := Nat.div_le_self (n - 1) (bsize / fs.inodeSize)
    obtain ⟨hn, hn'⟩ := hn
    obtain ⟨hm, hm'⟩ := hm
    have hdiv : (m - 1) / (bsize / fs.inodeSize) = (n - 1) / (bsize / fs.inodeSize) := by
      generalize (m - 1) / (bsize / fs.inodeSize) = a at *
      generalize (n - 1) / (bsize / fs.inodeSize) = b at *
      omega
    have e1 := div_add_mod (m - 1) (bsize / fs.inodeSize)
    have e2 := div_add_mod (n - 1) (bsize / fs.inodeSize)
    rw [hdiv] at e1
    rcases Nat.lt_or_gt_of_ne (show (m - 1) % (bsize / fs.inodeSize) ≠
        (n - 1) % (bsize / fs.inodeSize) by omega) with h | h
    · left
      have := Nat.mul_le_mul_right fs.inodeSize (succ_le_of_lt h)
      rw [succ_mul] at this
      omega
    · right
      have := Nat.mul_le_mul_right fs.inodeSize (succ_le_of_lt h)
      rw [succ_mul] at this
      omega
  · exact .inl hb

theorem readInode_writeInode (ino : Bytes) (hj : j < 128) : readInode (writeInode n ino fs) n j = ino j := by
  have hs := writeInode_static n ino fs
  unfold readInode
  rw [hs.inoBlock, hs.inoOffset, writeInode, bwrite_disk_self]
  show blit _ _ _ _ (inoOffset fs n + j) = _
  rw [blit_in (by omega) (by omega), Nat.add_sub_cancel_left]

theorem readInode_writeInode_ne (hg : Geo fs) (ino : Bytes) (hn : ValidIno fs n) (hm : ValidIno fs m) (hne : m ≠ n)
    (hj : j < 128) : readInode (writeInode n ino fs) m j = readInode fs m j := by
  have hs := writeInode_static n ino fs
  unfold readInode
  rw [hs.inoBlock, hs.inoOffset, writeInode]
  by_cases hb : inoBlock fs m = inoBlock fs n
  · rw [hb, bwrite_disk_self]
    show blit _ _ _ _ (inoOffset fs m + j) = _
    rw [blit_out]
    · rfl
    · rcases slots_apart hg.size hn hm hne with h | h | h
      · exact absurd hb h
      · omega
      · omega
  · rw [bwrite_disk _ _ hb]

end Table

end Xv6Vfs.Ext2
