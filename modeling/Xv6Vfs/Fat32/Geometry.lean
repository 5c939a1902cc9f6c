import Xv6Vfs.Fat32.Driver

/-! The geometry that `fat32_mount` takes from a boot sector. -/
namespace Xv6Vfs.Fat32
open Xv6Vfs.Bytes Xv6Vfs.Vfs Nat

/-! Fields of `struct fat32_bpb`. -/

def bytsPerSec (b : Bytes) : Nat := u16 b 11
def bpbSecPerClus (b : Bytes) : Nat := (b 13).toNat
def bpbRsvdSecCnt (b : Bytes) : Nat := u16 b 14
def bpbNumFats (b : Bytes) : Nat := (b 16).toNat
def totSec16 (b : Bytes) : Nat := u16 b 19
def totSec32 (b : Bytes) : Nat := u32 b 32
def fatSz32 (b : Bytes) : Nat := u32 b 36
def bpbRootClus (b : Bytes) : Nat := u32 b 44

/-- The checks of `fat32_mount`. -/
def Accepted (b : Bytes) : Prop := bytsPerSec b = 512 ∧ fatSz32 b ≠ 0 ∧ b 510 = 0x55 ∧ b 511 = 0xAA

instance (b : Bytes) : Decidable (Accepted b) := inferInstanceAs (Decidable (_ ∧ _))

/-- `ts`. -/
def totalSectors (b : Bytes) : Nat := if totSec16 b ≠ 0 then totSec16 b else totSec32 b

/-- `fm->num_fats * fm->fat_sz`. -/
def fatSectors (b : Bytes) : Nat := uint (bpbNumFats b * fatSz32 b)

/-- `ds`. -/
def dataSectors (b : Bytes) : Nat :=
  uint (uint (totalSectors b + (2 ^ 32 - bpbRsvdSecCnt b)) + (2 ^ 32 - fatSectors b))

/-- The fields of `struct fat32_mount`; undefined if `sec_per_clus` is 0. -/
def geometry (b : Bytes) : Option Volume :=
  if bpbSecPerClus b = 0 then none
  else some
    { secPerClus := bpbSecPerClus b, rsvdSecCnt := bpbRsvdSecCnt b
      firstDataSec := uint (bpbRsvdSecCnt b + fatSectors b)
      numFats := bpbNumFats b, fatSz := fatSz32 b
      totClus := dataSectors b / bpbSecPerClus b, rootClus := bpbRootClus b }

/-! ### Usable geometry -/

/-- No step of the computation of `tot_clus` and `first_data_sec` wraps. -/
structure NoWrap (b : Bytes) : Prop where
  tables : bpbNumFats b * fatSz32 b < 2 ^ 32
  reserved : bpbRsvdSecCnt b ≤ totalSectors b
  data : bpbNumFats b * fatSz32 b ≤ totalSectors b - bpbRsvdSecCnt b
  first : bpbRsvdSecCnt b + bpbNumFats b * fatSz32 b < 2 ^ 32

/-- Cluster `c` of a volume of `ts` sectors: its entry lies in the first allocation table, also where
`read_fat` looks for it, and its sectors lie between the tables and the end of the volume. -/
structure ClusterInside (ts : Nat) (v : Volume) (c : Nat) : Prop where
  entry : 4 * c + 4 ≤ 512 * v.fatSz
  read : uint (c * 4) / bps < v.fatSz
  sectors : ∀ s < v.secPerClus, v.rsvdSecCnt + v.numFats * v.fatSz ≤ uint (clusToSec v.toMount c + s) ∧
    uint (clusToSec v.toMount c + s) < ts

/-- The driver can work with what it takes from the boot sector. -/
structure Usable (b : Bytes) : Prop where
  noWrap : NoWrap b
  clusters : ∃ v, geometry b = some v ∧ ∀ c, 2 ≤ c → c < v.totClus + 2 → ClusterInside (totalSectors b) v c

/-- The clusters between the tables and the end of the volume have entries. -/
def Fits (b : Bytes) : Prop :=
  bpbSecPerClus b ≠ 0 ∧ bpbRsvdSecCnt b + bpbNumFats b * fatSz32 b ≤ totalSectors b ∧
    let n := (totalSectors b - bpbRsvdSecCnt b - bpbNumFats b * fatSz32 b) / bpbSecPerClus b
    n = 0 ∨ 4 * (n + 2) ≤ 512 * fatSz32 b

instance (b : Bytes) : Decidable (Fits b) := inferInstanceAs (Decidable (_ ∧ _))

theorem totalSectors_lt (b : Bytes) : totalSectors b < 2 ^ 32 := by
  have h1 := u16_lt b 19
  have h2 := u32_lt b 32
  unfold totalSectors totSec16 totSec32
  split <;> omega

section Fits

variable {b : Bytes}

theorem NoWrap.of_le (h : bpbRsvdSecCnt b + bpbNumFats b * fatSz32 b ≤ totalSectors b) : NoWrap b := by
  have := totalSectors_lt b
  exact ⟨by omega, by omega, by omega, by omega⟩

theorem NoWrap.le (h : NoWrap b) : bpbRsvdSecCnt b + bpbNumFats b * fatSz32 b ≤ totalSectors b := by
  have h1 := h.reserved
  have h2 := h.data
  omega

theorem NoWrap.geometry (h : NoWrap b) (hs : bpbSecPerClus b ≠ 0) : geometry b = some
    { secPerClus := bpbSecPerClus b, rsvdSecCnt := bpbRsvdSecCnt b
      firstDataSec := bpbRsvdSecCnt b + bpbNumFats b * fatSz32 b
      numFats := bpbNumFats b, fatSz := fatSz32 b
      totClus := (totalSectors b - bpbRsvdSecCnt b - bpbNumFats b * fatSz32 b) / bpbSecPerClus b
      rootClus := bpbRootClus b } := by
  have hts := totalSectors_lt b
  have hle := h.le
  have hfat : fatSectors b = bpbNumFats b * fatSz32 b := mod_eq_of_lt h.tables
  have hdata : dataSectors b = totalSectors b - bpbRsvdSecCnt b - bpbNumFats b * fatSz32 b := by
    rw [dataSectors, hfat, uint, uint]
    omega
  have hfirst : uint (bpbRsvdSecCnt b + fatSectors b) = bpbRsvdSecCnt b + bpbNumFats b * fatSz32 b := by
    rw [hfat]
    exact mod_eq_of_lt h.first
  rw [Fat32.geometry, if_neg hs, hfirst, hdata]

theorem uint_clusToSec {fm : Mount} {ts c s n : Nat} (hts : ts < 2 ^ 32) (hn : fm.firstDataSec + n * fm.secPerClus ≤ ts)
    (hpos : 0 < fm.secPerClus) (h2 : 2 ≤ c) (hc : c < n + 2) (hs : s < fm.secPerClus) :
    fm.firstDataSec ≤ uint (clusToSec fm c + s) ∧ uint (clusToSec fm c + s) < ts := by
  have hlast : (c - 2) * fm.secPerClus + fm.secPerClus ≤ n * fm.secPerClus :=
    calc (c - 2) * fm.secPerClus + fm.secPerClus = (c - 2 + 1) * fm.secPerClus := (succ_mul _ _).symm
      _ ≤ n * fm.secPerClus := Nat.mul_le_mul_right _ (by omega)
  have hle : c - 2 ≤ (c - 2) * fm.secPerClus := Nat.le_mul_of_pos_right _ hpos
  have hback : uint (c + (2 ^ 32 - 2)) = c - 2 := by
    rw [uint]
    omega
  have hsec : clusToSec fm c = (c - 2) * fm.secPerClus + fm.firstDataSec := by
    rw [clusToSec, hback]
    exact mod_eq_of_lt (by omega)
  rw [hsec, uint, mod_eq_of_lt (by omega)]
  omega

theorem Fits.usable (h : Fits b) : Usable b := by
  obtain ⟨hs, hle, hfat⟩ := h
  have hw := NoWrap.of_le hle
  refine ⟨hw, _, hw.geometry hs, fun c h2 hc => ?_⟩
  dsimp only at hc
  have hentry : 4 * c + 4 ≤ 512 * fatSz32 b := by omega
  refine ⟨hentry, ?_, fun s hsec => ?_⟩
  · have hmod : uint (c * 4) ≤ c * 4 := mod_le _ _
    dsimp only
    rw [bps]
    omega
  · have hmul := div_mul_le_self (totalSectors b - bpbRsvdSecCnt b - bpbNumFats b * fatSz32 b) (bpbSecPerClus b)
    exact uint_clusToSec (totalSectors_lt b) (by dsimp only; omega) (Nat.pos_of_ne_zero hs) h2 hc hsec

theorem Usable.fits (h : Usable b) : Fits b := by
  obtain ⟨hw, v, hv, hall⟩ := h
  have hs : bpbSecPerClus b ≠ 0 := by
    intro h0
    rw [geometry, if_pos h0] at hv
    cases hv
  rw [hw.geometry hs] at hv
  cases hv
  refine ⟨hs, hw.le, ?_⟩
  generalize (totalSectors b - bpbRsvdSecCnt b - bpbNumFats b * fatSz32 b) / bpbSecPerClus b = n at *
  by_cases h0 : n = 0
  · exact .inl h0
  · -- the last cluster
    have hlast := (hall (n + 1) (by omega) (lt_succ_self _)).entry
    dsimp only at hlast
    omega

end Fits

/-- For every boot sector, hence for every one that `fat32_mount` accepts. -/
theorem usable_iff_fits (b : Bytes) : Usable b ↔ Fits b :=
  ⟨Usable.fits, Fits.usable⟩

/-- A boot sector with `nf` tables of `sz` sectors behind `rsvd` reserved ones, `spc` sectors to a
cluster and `ts` sectors. -/
def bootSector (spc rsvd nf ts sz : Nat) : Bytes :=
  put16 (put32 (put32 (put32 (put8 (put16 (put8 (put16 (fun _ => 0) 11 512) 13 spc) 14 rsvd) 16 nf) 32 ts) 36 sz) 44 2)
    510 0xAA55

theorem large_volume_usable : Accepted (bootSector 8 32 2 100000 100) ∧ Fits (bootSector 8 32 2 100000 100) ∧
    Usable (bootSector 8 32 2 100000 100) :=
  ⟨by decide, by decide, (usable_iff_fits _).mpr (by decide)⟩

/-- A volume with fewer sectors than its tables need: `tot_clus` wraps to some 2 ^ 29. -/
theorem small_volume_accepted : Accepted (bootSector 8 32 2 100 100) ∧ ¬ Usable (bootSector 8 32 2 100 100) ∧
    (geometry (bootSector 8 32 2 100 100)).map (·.totClus) = some 536870895 := by
  refine ⟨by decide, fun h => ?_, by decide⟩
  exact absurd h.noWrap.data (by decide)

end Xv6Vfs.Fat32
