import Xv6Vfs.Ext2.Space

/-! Where the driver looks for an inode, and where the format has it. -/
namespace Xv6Vfs.Ext2
open Xv6Vfs.Bytes Nat

variable {i s t : Nat}

def sInodesPerGroup (sb : Bytes) : Nat := u32 sb 40
def sRevLevel (sb : Bytes) : Nat := u32 sb 76

/-- `priv->inode_size`. -/
def inodeSizeOf (sb : Bytes) : Nat := if sInodeSize sb = 0 then 128 else sInodeSize sb

/-! The format. -/

/-- The size of an inode; in revision 0 the superblock has no such field. -/
def formatInodeSize (sb : Bytes) : Nat := if sRevLevel sb = 0 then 128 else inodeSizeOf sb

/-- `bg_inode_table` of group `g`; the descriptors start in block 2, 32 of them to a block. -/
def groupTable (image : Nat → Bytes) (g : Nat) : Nat := bgInodeTable (drop (image (2 + g / 32)) (32 * (g % 32)))

/-- Inode `n`, number `i` of group `g`, starts in block `b`. -/
def FormatPlace (image : Nat → Bytes) (n b : Nat) : Prop :=
  ∃ g i, i < sInodesPerGroup (image 1) ∧ n - 1 = g * sInodesPerGroup (image 1) + i ∧
    b = groupTable image g + i * formatInodeSize (image 1) / bsize

/-- What the driver relies on when it reads or writes inode `n`. -/
structure Addressed (image : Nat → Bytes) (fs : Fs) (n : Nat) : Prop where
  size : fs.inodeSize ≠ 0
  perBlock : bsize / fs.inodeSize ≠ 0
  inside : inoOffset fs n + 128 ≤ bsize
  apart : ∀ m, ValidIno fs m → m ≠ n → inoBlock fs m ≠ inoBlock fs n ∨
    inoOffset fs m + 128 ≤ inoOffset fs n ∨ inoOffset fs n + 128 ≤ inoOffset fs m
  placed : FormatPlace image n (inoBlock fs n)

/-- Every inode number of every device with this superblock and this first group descriptor. -/
def AllAddressed (sb bg : Bytes) : Prop :=
  ∀ image taken pages y, image 1 = sb → (∀ j < 32, image 2 j = bg j) →
    mount image taken pages = some y → ∀ n, ValidIno y.fs n → Addressed image y.fs n

/-- All inodes are in the first group, the table ends below block 2 ^ 32, and its blocks hold
whole inodes of the size that the format says. -/
def OneTable (sb bg : Bytes) : Prop :=
  sInodesCount sb = 0 ∨ inodeSizeOf sb ≤ bsize ∧ sInodesCount sb ≤ sInodesPerGroup sb ∧
    bgInodeTable bg + (sInodesCount sb - 1) / (bsize / inodeSizeOf sb) < 2 ^ 32 ∧
    (sInodesCount sb = 1 ∨ 128 ≤ inodeSizeOf sb ∧ (sInodesCount sb ≤ bsize / inodeSizeOf sb ∨
      inodeSizeOf sb ∣ bsize ∧ inodeSizeOf sb = formatInodeSize sb))

instance (sb bg : Bytes) : Decidable (OneTable sb bg) := inferInstanceAs (Decidable (_ ∨ _))

section Mount

variable {image : Nat → Bytes} {taken : Nat → Bool} {pages : Nat} {y : Sys}

structure Mounted (image : Nat → Bytes) (fs : Fs) : Prop where
  size : fs.inodeSize = inodeSizeOf (image 1)
  bg : fs.bg = image 2
  count : sInodesCount fs.sb = sInodesCount (image 1)

theorem mounted_of_mount (h : mount image taken pages = some y) : Mounted image y.fs := by
  unfold mount at h
  dsimp only at h
  split at h
  · simp at h
  · obtain ⟨i, -, rfl⟩ := Option.map_eq_some_iff.mp h
    exact ⟨(iget_static rootIno _).inodeSize, (iget_static rootIno _).bg, (iget_static rootIno _).inodes⟩

theorem mount_some (hm : sMagic (image 1) = 0xEF53) (hl : sLogBlockSize (image 1) = 0) :
    ∃ y, mount image (fun _ => false) 3 = some y := by
  unfold mount
  rw [if_neg (by omega)]
  exact ⟨_, rfl⟩

end Mount

/-! ### Inodes of the first group -/

section Place

variable {image : Nat → Bytes} {fs : Fs} {n b : Nat}

theorem groupTable_zero (image : Nat → Bytes) : groupTable image 0 = bgInodeTable (image 2) := by
  simp [groupTable, bgInodeTable, u32_drop]

theorem formatPlace_first (hn : n - 1 < sInodesPerGroup (image 1)) :
    FormatPlace image n b ↔ b = bgInodeTable (image 2) + (n - 1) * formatInodeSize (image 1) / bsize := by
  rw [← groupTable_zero]
  constructor
  · rintro ⟨g, i, hi, he, rfl⟩
    cases g with
    | zero => rw [he, Nat.zero_mul, Nat.zero_add]
    | succ g =>
      rw [succ_mul] at he
      omega
  · rintro rfl
    exact ⟨0, n - 1, hn, by rw [Nat.zero_mul, Nat.zero_add], rfl⟩

theorem div_perBlock (hs : s ∣ bsize) (h0 : 0 < s) : i / (bsize / s) = i * s / bsize := by
  have hk : bsize / s * s = bsize := Nat.div_mul_cancel hs
  calc i / (bsize / s) = i * s / (bsize / s * s) := (Nat.mul_div_mul_right _ _ h0).symm
    _ = i * s / bsize := by rw [hk]

theorem inodeSizeOf_pos (sb : Bytes) : 0 < inodeSizeOf sb := by
  unfold inodeSizeOf
  split <;> omega

theorem formatInodeSize_le {sb : Bytes} (h : 128 ≤ inodeSizeOf sb) : formatInodeSize sb ≤ inodeSizeOf sb := by
  unfold formatInodeSize
  split <;> omega

theorem mul_div_first (hts : t ≤ s) (hs : 0 < s) (hi : i < bsize / s) : i * t / bsize = 0 := by
  apply div_eq_of_lt
  calc i * t ≤ i * s := Nat.mul_le_mul_left i hts
    _ < bsize / s * s := Nat.mul_lt_mul_of_pos_right hi hs
    _ ≤ bsize := div_mul_le_self _ _

theorem Mounted.addressed (hM : Mounted image fs) (h : OneTable (image 1) (image 2)) (hn : ValidIno fs n) :
    Addressed image fs n := by
  obtain ⟨hn1, hn2⟩ := id hn
  rw [hM.count] at hn2
  obtain h | ⟨hfits, hgroup, htable, hsize⟩ := h
  · omega
  rw [← hM.size] at *
  have hpos : 0 < fs.inodeSize := hM.size ▸ inodeSizeOf_pos _
  have hk : 0 < bsize / fs.inodeSize := Nat.div_pos hfits hpos
  have hle : (n - 1) / (bsize / fs.inodeSize) ≤ (sInodesCount (image 1) - 1) / (bsize / fs.inodeSize) :=
    Nat.div_le_div_right (by omega)
  have hblock : inoBlock fs n = bgInodeTable (image 2) + (n - 1) / (bsize / fs.inodeSize) := by
    rw [inoBlock, hM.bg, mod_eq_of_lt (by omega)]
  have hplaced : (n - 1) / (bsize / fs.inodeSize) = (n - 1) * formatInodeSize (image 1) / bsize →
      FormatPlace image n (inoBlock fs n) := by
    intro he
    rw [hblock, formatPlace_first (by omega), he]
  obtain hone | ⟨hsize, hwhole⟩ := hsize
  · have h1 : n - 1 = 0 := by omega
    refine ⟨hpos.ne', hk.ne', ?_, ?_, hplaced ?_⟩
    · rw [inoOffset, h1, zero_mod, Nat.zero_mul]
      decide
    · intro m hm hne
      have h2 := hm.2
      rw [hM.count] at h2
      have h3 := hm.1
      omega
    · rw [h1, Nat.zero_mul, Nat.zero_div, Nat.zero_div]
  · refine ⟨hpos.ne', hk.ne', inoOffset_le hsize hfits n, fun m hm hne => slots_apart hsize hn hm hne, hplaced ?_⟩
    obtain hfew | ⟨hdvd, hformat⟩ := hwhole
    · have hlt : n - 1 < bsize / fs.inodeSize := by omega
      rw [div_eq_of_lt hlt]
      rw [hM.size] at hsize
      exact (mul_div_first (hM.size ▸ formatInodeSize_le hsize) hpos hlt).symm
    · rw [← hformat]
      exact div_perBlock hdvd hpos

end Place

/-! ### Devices with a second group -/

section Spread

variable {sb bg : Bytes}

/-- A device with this superblock and first descriptor and the table of the second group at `t`. -/
def spread (sb bg : Bytes) (t : Nat) : Nat → Bytes
  | 1 => sb
  | 2 => put32 bg 40 t
  | _ => fun _ => 0

theorem spread_first (t : Nat) : ∀ j < 32, spread sb bg t 2 j = bg j :=
  fun _ hj => blit_out (by omega)

theorem groupTable_spread (t : Nat) : groupTable (spread sb bg t) 1 = t % 2 ^ 32 := by
  rw [groupTable, bgInodeTable, u32_drop]
  exact u32_put32 bg 40 t

theorem bgInodeTable_congr {bg' : Bytes} (h : ∀ j < 32, bg' j = bg j) : bgInodeTable bg' = bgInodeTable bg :=
  u32_congr fun j _ hj => h j (by omega)

section

variable (h : AllAddressed sb bg) (hm : sMagic sb = 0xEF53) (hl : sLogBlockSize sb = 0)
include h hm hl

theorem AllAddressed.spread (t : Nat) :
    ∃ fs, Mounted (spread sb bg t) fs ∧ ∀ n, ValidIno fs n → Addressed (spread sb bg t) fs n := by
  obtain ⟨y, hy⟩ := @mount_some (Ext2.spread sb bg t) hm hl
  exact ⟨y.fs, mounted_of_mount hy, h _ _ _ y rfl (spread_first t) hy⟩

omit h hm hl in
theorem next_group {p g : Nat} (hi : i < p) (h : p + 1 - 1 = g * p + i) : g = 1 ∧ i = 0 := by
  match g, h with
  | 0, h => omega
  | 1, h => omega
  | g + 2, h =>
    rw [Nat.add_mul] at h
    omega

/-- The table of the second group may be anywhere. -/
theorem AllAddressed.one_group : sInodesCount sb ≤ sInodesPerGroup sb := by
  by_contra hgroup
  have key : ∀ t < 2 ^ 32, (bgInodeTable bg + sInodesPerGroup sb / (bsize / inodeSizeOf sb)) % 2 ^ 32 = t := by
    intro t ht
    obtain ⟨fs, hM, hall⟩ := h.spread hm hl t
    have hvalid : ValidIno fs (sInodesPerGroup sb + 1) := by
      refine ⟨by omega, ?_⟩
      rw [hM.count]
      exact Nat.lt_of_not_le hgroup
    obtain ⟨g, i, hi, he, hb⟩ := (hall _ hvalid).placed
    obtain ⟨rfl, rfl⟩ : g = 1 ∧ i = 0 := next_group hi he
    rw [groupTable_spread, Nat.zero_mul, Nat.zero_div, Nat.add_zero, mod_eq_of_lt ht, inoBlock, hM.bg, hM.size,
      bgInodeTable_congr (spread_first t)] at hb
    exact hb
  have h1 := key 0 (by decide)
  have h2 := key 1 (by decide)
  omega

omit h hm hl in
theorem Addressed.size_le {image : Nat → Bytes} {fs : Fs} (h : Addressed image fs 2) (hn : 2 ≤ sInodesCount fs.sb) :
    128 ≤ fs.inodeSize := by
  by_contra hlt
  have hpos : 0 < fs.inodeSize := Nat.pos_of_ne_zero h.size
  have hk : 8 ≤ bsize / fs.inodeSize := (Nat.le_div_iff_mul_le hpos).mpr (by unfold bsize; omega)
  have hapart := h.apart 1 ⟨by decide, by omega⟩ (by decide)
  have h0 : (2 - 1) / (bsize / fs.inodeSize) = 0 := div_eq_of_lt (by omega)
  have h1 : (2 - 1) % (bsize / fs.inodeSize) = 1 := mod_eq_of_lt (by omega)
  rw [inoBlock, inoBlock, inoOffset, inoOffset, h0, h1, Nat.sub_self, Nat.zero_div, zero_mod] at hapart
  omega

omit h hm hl in
/-- The first inode of the second block of the table. -/
theorem whole_of_second {f : Nat} (hs : 128 ≤ s) (hf : f = s ∨ f = 128) (hfits : s ≤ bsize)
    (h : (t + bsize / s / (bsize / s)) % 2 ^ 32 = t + bsize / s * f / bsize) : s ∣ bsize ∧ s = f := by
  have hk : 0 < bsize / s := Nat.div_pos hfits (by omega)
  rw [Nat.div_self hk] at h
  have hle : bsize / s * s ≤ bsize := div_mul_le_self _ _
  have hfull : bsize ≤ bsize / s * f := by
    by_contra hlt
    rw [div_eq_of_lt (by omega)] at h
    omega
  obtain rfl | rfl := hf
  · exact ⟨Dvd.intro_left (bsize / f) (by omega), rfl⟩
  · have h8 : 8 ≤ bsize / s := by
      unfold bsize at *
      omega
    have hs8 : 8 * s ≤ bsize / s * s := Nat.mul_le_mul_right s h8
    obtain rfl : s = 128 := by
      unfold bsize at *
      omega
    exact ⟨by decide, rfl⟩

theorem AllAddressed.oneTable : OneTable sb bg := by
  by_cases h0 : sInodesCount sb = 0
  · exact .inl h0
  have hgroup := h.one_group hm hl
  obtain ⟨fs, hM, hall⟩ := h.spread hm hl 0
  have hsz : fs.inodeSize = inodeSizeOf sb := hM.size
  have hcount : sInodesCount fs.sb = sInodesCount sb := hM.count
  have hvalid : ∀ n, 1 ≤ n → n ≤ sInodesCount sb → ValidIno fs n := fun n h1 h2 => ⟨h1, hcount ▸ h2⟩
  have hplace : ∀ n, 1 ≤ n → n ≤ sInodesCount sb →
      (bgInodeTable bg + (n - 1) / (bsize / inodeSizeOf sb)) % 2 ^ 32 =
        bgInodeTable bg + (n - 1) * formatInodeSize sb / bsize := by
    intro n h1 h2
    have hp := (formatPlace_first (show n - 1 < sInodesPerGroup sb by omega)).mp (hall n (hvalid n h1 h2)).placed
    rwa [inoBlock, hM.bg, hM.size, bgInodeTable_congr (spread_first 0)] at hp
  have hfirst := hall 1 (hvalid 1 (by decide) (by omega))
  have hfits : inodeSizeOf sb ≤ bsize := by
    by_contra hlt
    exact hfirst.perBlock (by rw [hsz]; exact div_eq_of_lt (by omega))
  have hsize : sInodesCount sb = 1 ∨ 128 ≤ inodeSizeOf sb ∧ (sInodesCount sb ≤ bsize / inodeSizeOf sb ∨
      inodeSizeOf sb ∣ bsize ∧ inodeSizeOf sb = formatInodeSize sb) := by
    by_cases hone : sInodesCount sb = 1
    · exact .inl hone
    have h128 : 128 ≤ inodeSizeOf sb :=
      hsz ▸ (hall 2 (hvalid 2 (by decide) (by omega))).size_le (by omega)
    refine .inr ⟨h128, ?_⟩
    by_cases hfew : sInodesCount sb ≤ bsize / inodeSizeOf sb
    · exact .inl hfew
    have hsecond := hplace (bsize / inodeSizeOf sb + 1) (Nat.le_add_left _ _) (Nat.lt_of_not_le hfew)
    refine .inr (whole_of_second h128 ?_ hfits hsecond)
    unfold formatInodeSize
    split
    · exact .inr rfl
    · exact .inl rfl
  have htable : bgInodeTable bg + (sInodesCount sb - 1) / (bsize / inodeSizeOf sb) < 2 ^ 32 := by
    have hlast := hplace (sInodesCount sb) (by omega) (Nat.le_refl _)
    have hpos := inodeSizeOf_pos sb
    have hk : 0 < bsize / inodeSizeOf sb := Nat.div_pos hfits hpos
    have hsame : (sInodesCount sb - 1) / (bsize / inodeSizeOf sb) ≤
        (sInodesCount sb - 1) * formatInodeSize sb / bsize := by
      obtain hone | ⟨h128, hfew | ⟨hdvd, hf⟩⟩ := hsize
      · rw [hone, Nat.sub_self, Nat.zero_div]
        exact Nat.zero_le _
      · rw [div_eq_of_lt (by omega)]
        exact Nat.zero_le _
      · rw [← hf, div_perBlock hdvd hpos]
    omega
  exact .inr ⟨hfits, hgroup, htable, hsize⟩

end

end Spread

/-- For every superblock that `ext2_mount` accepts: all inodes of all devices with this superblock
and first group descriptor are addressed as the format has them exactly if they are in one table. -/
theorem inodes_addressed_iff (sb bg : Bytes) (hm : sMagic sb = 0xEF53) (hl : sLogBlockSize sb = 0) :
    AllAddressed sb bg ↔ OneTable sb bg := by
  constructor
  · intro h
    exact h.oneTable hm hl
  · intro h image taken pages y h1 h2 hy n hn
    apply (mounted_of_mount hy).addressed _ hn
    unfold OneTable
    rw [h1, bgInodeTable_congr h2]
    exact h

/-- A superblock with `count` inodes, `perGroup` of them in a group. -/
def sizedSuper (count perGroup : Nat) : Bytes :=
  put32 (put16 (put32 (fun _ => 0) 0 count) 56 0xEF53) 40 perGroup

theorem one_group_addressed : OneTable (sizedSuper 16 16) (put32 (fun _ => 0) 8 5) ∧
    AllAddressed (sizedSuper 16 16) (put32 (fun _ => 0) 8 5) :=
  ⟨by decide, (inodes_addressed_iff _ _ (by decide) (by decide)).mpr (by decide)⟩

/-- Inode 9 of a volume with eight inodes to a group is looked for behind the table of the first group. -/
theorem second_group_missed :
    ∃ y, mount (spread (sizedSuper 16 8) (put32 (fun _ => 0) 8 5) 100) (fun _ => false) 3 = some y ∧
    ValidIno y.fs 9 ∧ inoBlock y.fs 9 = 6 ∧
    ¬ FormatPlace (spread (sizedSuper 16 8) (put32 (fun _ => 0) 8 5) 100) 9 (inoBlock y.fs 9) := by
  obtain ⟨y, hy⟩ := @mount_some (spread (sizedSuper 16 8) (put32 (fun _ => 0) 8 5) 100) (by decide) (by decide)
  have hM := mounted_of_mount hy
  have hblock : inoBlock y.fs 9 = 6 := by
    rw [inoBlock, hM.bg, hM.size]
    decide
  refine ⟨y, hy, ⟨by decide, by rw [hM.count]; decide⟩, hblock, ?_⟩
  rintro ⟨g, i, hi, he, hb⟩
  obtain ⟨rfl, rfl⟩ : g = 1 ∧ i = 0 := next_group hi he
  rw [hblock, groupTable_spread] at hb
  exact absurd hb (by decide)

end Xv6Vfs.Ext2
