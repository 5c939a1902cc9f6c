import Xv6Vfs.Ext2.Frame

/-! The block bitmap of the ext2 format starts at `s_first_data_block`; the driver takes bit `i`
for block `i`. -/
namespace Xv6Vfs.Ext2
open Xv6Vfs.Bytes Xv6Vfs.Vfs Option

theorem bitmapAlloc_some {bb nbits base r : Nat} {fs fs' : Fs} (h : bitmapAlloc bb nbits base fs = some (r, fs')) :
    ∃ i, r = i + base ∧ fs' = fs.bwrite bb (setBit (fs.disk bb) i) ∧ 1 ≤ i ∧
      i < min nbits (bsize * 8) ∧ bit (fs.disk bb) i = false ∧
      ∀ j, 1 ≤ j → j < i → bit (fs.disk bb) j = true := by
  obtain ⟨i, hfind, he⟩ := map_eq_some_iff.mp h
  cases he
  obtain ⟨h1, h2, h3⟩ := List.find?_range'_eq_some.mp hfind
  rw [List.mem_range'_1] at h2
  refine ⟨i, rfl, rfl, h2.1, by omega, by simpa using h1, fun j hj hji => ?_⟩
  simpa using h3 j hj hji

theorem bitmapAlloc_none {bb nbits base : Nat} {fs : Fs} :
    bitmapAlloc bb nbits base fs = none ↔
      ∀ i, 1 ≤ i → i < min nbits (bsize * 8) → bit (fs.disk bb) i = true := by
  rw [bitmapAlloc, map_eq_none_iff, List.find?_eq_none]
  constructor
  · intro h i h1 h2
    simpa using h i (List.mem_range'_1.mpr (by omega))
  · intro h i hi
    rw [List.mem_range'_1] at hi
    simpa using h i hi.1 (by omega)

/-- The superblock, the group descriptor, the bitmaps and the inode table. -/
def Metadata (fs : Fs) (b : Nat) : Prop :=
  b = 1 ∨ b = 2 ∨ b = bgBlockBitmap fs.bg ∨ b = bgInodeBitmap fs.bg ∨
    ∃ n, 1 ≤ n ∧ n ≤ sInodesCount fs.sb ∧ b = inoBlock fs n

/-- Block `b` is free in the bitmap of the ext2 format, where bit `i` describes block
`first + i`, and it belongs to nothing. -/
structure FormatFree (first : Nat) (fs : Fs) (b : Nat) : Prop where
  described : bit (fs.disk (bgBlockBitmap fs.bg)) (b - first) = false
  data : ¬ Metadata fs b
  unused : ∀ n, inodeUsed fs n = true → b ∉ blocksOf fs (inodeNow fs n)

/-- The driver sees no free block. -/
def BitmapFull (fs : Fs) : Prop :=
  ∀ i, 1 ≤ i → i < min (sBlocksCount fs.sb) (bsize * 8) →
    bit (fs.disk (bgBlockBitmap fs.bg)) i = true

theorem balloc_eq_zero_iff (fs : Fs) : (balloc fs).1 = 0 ↔ BitmapFull fs := by
  rw [BitmapFull, ← @bitmapAlloc_none _ _ 0]
  unfold balloc
  split
  case h_1 h => simp [h]
  case h_2 b fs1 h =>
    obtain ⟨i, rfl, -, h1, -⟩ := bitmapAlloc_some h
    simp only [h, reduceCtorEq, iff_false]
    omega

theorem balloc_not_formatFree {fs : Fs} (h : (balloc fs).1 ≠ 0) : ¬ FormatFree 1 fs (balloc fs).1 := by
  unfold balloc at h ⊢
  split
  case h_1 h1 => simp [h1] at h
  case h_2 b fs1 h1 =>
    obtain ⟨i, hb, -, hi, -, -, hbefore⟩ := bitmapAlloc_some h1
    rw [Nat.add_zero] at hb
    subst hb
    intro hfree
    by_cases hone : b = 1
    · exact hfree.data (.inl hone)
    · have h2 := hbefore (b - 1) (by omega) (by omega)
      have h3 : bit (fs.disk (bgBlockBitmap fs.bg)) (b - 1) = false := hfree.described
      rw [h2] at h3
      simp at h3

theorem mount_first {image : Nat → Bytes} {taken : Nat → Bool} {pages : Nat} {y : Sys}
    (h : mount image taken pages = some y) : sFirstDataBlock y.fs.sb = sFirstDataBlock (image 1) := by
  unfold mount at h
  dsimp only at h
  split at h
  · simp at h
  · obtain ⟨i, -, rfl⟩ := map_eq_some_iff.mp h
    exact (iget_static rootIno _).first

/-- After every run on every accepted image with 1 KiB blocks: what `ext2_balloc` returns is
free by the format exactly when it returns nothing because the bitmap is full. -/
theorem balloc_format_free_iff (image : Nat → Bytes) (taken : Nat → Bool) (pages : Nat)
    (ops : List Op) (y0 y : Sys) (hmount : mount image taken pages = some y0)
    (hfirst : sFirstDataBlock (image 1) = 1) (hrun : Run.run exec ops y0 = some y) :
    ((balloc y.fs).1 ≠ 0 → FormatFree (sFirstDataBlock y.fs.sb) y.fs (balloc y.fs).1) ↔
      BitmapFull y.fs := by
  rw [(run_static hrun).first, mount_first hmount, hfirst, ← balloc_eq_zero_iff]
  constructor
  · intro h
    by_contra h0
    exact balloc_not_formatFree h0 (h h0)
  · intro h h0
    exact absurd h h0

/-- A root directory of one block, block 7. -/
def rootInode : Bytes := setBlock (setLinks (setSize (put16 (fun _ => 0) 0 0x4000) 1024) 2) 0 7

/-- A small image: superblock, group descriptor, bitmaps in blocks 3 and 4, inode table in 5 and
6, the root directory in 7 and a file in 8; `bitmap` is the start of the block bitmap. -/
def smallImage (bitmap : List UInt8) : Nat → Bytes
  | 1 => put16 (put32 (put32 (put32 (fun _ => 0) 0 16) 4 9) 20 1) 56 0xEF53
  | 2 => put32 (put32 (put32 (fun _ => 0) 0 3) 4 4) 8 5
  | 3 => ofList bitmap
  | 4 => ofList [0xFF, 0x0F]
  | 5 => blit (blit (fun _ => 0) 128 rootInode 128) 256 (setBlock (put16 (fun _ => 0) 0 0x8000) 0 8) 128
  | 7 => freshDirBlock dot 2 2
  | _ => fun _ => 0

/-- With blocks 1 to 8 in use, the driver hands out block 8 again. -/
theorem balloc_returns_used_block : ∃ y, mount (smallImage [0xFF]) (fun _ => false) 10 = some y ∧
    sFirstDataBlock (smallImage [0xFF] 1) = 1 ∧ (balloc y.fs).1 = 8 ∧
    8 ∈ blocksOf y.fs (inodeNow y.fs 3) ∧ ¬ FormatFree 1 y.fs 8 := by
  have h : (mount (smallImage [0xFF]) (fun _ => false) 10).map (fun y =>
      ((balloc y.fs).1, decide (8 ∈ blocksOf y.fs (inodeNow y.fs 3)))) = some (8, true) := by
    decide +kernel
  obtain ⟨y, hy, he⟩ := map_eq_some_iff.mp h
  obtain ⟨h1, h2⟩ := Prod.mk.inj he
  refine ⟨y, hy, by decide +kernel, h1, of_decide_eq_true h2, ?_⟩
  have h3 := @balloc_not_formatFree y.fs (by omega)
  rw [h1] at h3
  exact h3

/-- With the bits of all blocks set, nothing is handed out. -/
theorem balloc_full_image : ∃ y0 y, mount (smallImage [0xFF, 0x01]) (fun _ => false) 10 = some y0 ∧
    Run.run exec [.root] y0 = some y ∧
    ((balloc y.fs).1 ≠ 0 → FormatFree (sFirstDataBlock y.fs.sb) y.fs (balloc y.fs).1) := by
  have h : (mount (smallImage [0xFF, 0x01]) (fun _ => false) 10).bind (fun y0 =>
      (Run.run exec [.root] y0).map fun y => (balloc y.fs).1) = some 0 := by
    decide +kernel
  obtain ⟨y0, hmount, h1⟩ := bind_eq_some_iff.mp h
  obtain ⟨y, hrun, h2⟩ := map_eq_some_iff.mp h1
  exact ⟨y0, y, hmount, hrun, (balloc_format_free_iff _ _ 10 [.root] y0 y hmount
    (by decide +kernel) hrun).mpr ((balloc_eq_zero_iff y.fs).mp h2)⟩

end Xv6Vfs.Ext2
