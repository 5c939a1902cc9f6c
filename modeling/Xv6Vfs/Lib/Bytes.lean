import Mathlib.Logic.Function.Basic
import Mathlib.Data.Nat.Bitwise

/-! Memory as bytes: little-endian fields, copies of ranges, and bitmaps. -/
namespace Xv6Vfs
open Function Nat

abbrev Bytes := Nat → UInt8

namespace Bytes

def u16 (m : Bytes) (o : Nat) : Nat := (m o).toNat + 256 * (m (o + 1)).toNat

def u32 (m : Bytes) (o : Nat) : Nat := u16 m o + 65536 * u16 m (o + 2)

def u64 (m : Bytes) (o : Nat) : Nat := u32 m o + 4294967296 * u32 m (o + 4)

/-- The memory behind the pointer `m + o`. -/
def drop (m : Bytes) (o : Nat) : Bytes := fun j => m (o + j)

/-- `memmove(m + o, src, n)`. -/
def blit (m : Bytes) (o : Nat) (src : Bytes) (n : Nat) : Bytes :=
  fun j => if o ≤ j ∧ j < o + n then src (j - o) else m j

/-- The little-endian bytes of a number. -/
def le (v : Nat) : Bytes := fun i => UInt8.ofNat (v / 256 ^ i)

def put8 (m : Bytes) (o v : Nat) : Bytes := blit m o (le v) 1

def put16 (m : Bytes) (o v : Nat) : Bytes := blit m o (le v) 2

def put32 (m : Bytes) (o v : Nat) : Bytes := blit m o (le v) 4

/-- `memset(m + o, 0, n)`. -/
def clear (m : Bytes) (o n : Nat) : Bytes := blit m o (fun _ => 0) n

/-- The bytes of a string, followed by zeros. -/
def ofList (l : List UInt8) : Bytes := fun i => l.getD i 0

def bit (m : Bytes) (i : Nat) : Bool := (m (i / 8)).toNat.testBit (i % 8)

def setBit (m : Bytes) (i : Nat) : Bytes :=
  update m (i / 8) (m (i / 8) ||| UInt8.ofNat (2 ^ (i % 8)))

def clearBit (m : Bytes) (i : Nat) : Bytes :=
  update m (i / 8) (m (i / 8) &&& ~~~ UInt8.ofNat (2 ^ (i % 8)))

section Fields

variable {m m' s : Bytes} {o o' n v : Nat}

theorem u16_lt (m : Bytes) (o : Nat) : u16 m o < 65536 := by
  have h1 := (m o).toNat_lt
  have h2 := (m (o + 1)).toNat_lt
  unfold u16
  omega

theorem u32_lt (m : Bytes) (o : Nat) : u32 m o < 4294967296 := by
  have h1 := u16_lt m o
  have h2 := u16_lt m (o + 2)
  unfold u32
  omega

theorem u16_congr (h : ∀ j, o ≤ j → j < o + 2 → m j = m' j) : u16 m o = u16 m' o := by
  rw [u16, u16, h o (by omega) (by omega), h (o + 1) (by omega) (by omega)]

theorem u32_congr (h : ∀ j, o ≤ j → j < o + 4 → m j = m' j) : u32 m o = u32 m' o := by
  rw [u32, u32, u16_congr fun j h1 h2 => h j h1 (by omega), u16_congr fun j h1 h2 => h j (by omega) (by omega)]

theorem blit_in {j : Nat} (h1 : o ≤ j) (h2 : j < o + n) : blit m o s n j = s (j - o) :=
  if_pos ⟨h1, h2⟩

theorem blit_out {j : Nat} (h : j < o ∨ o + n ≤ j) : blit m o s n j = m j :=
  if_neg (by omega)

theorem u16_blit_out (h : o' + 2 ≤ o ∨ o + n ≤ o') : u16 (blit m o s n) o' = u16 m o' :=
  u16_congr fun _ h1 h2 => blit_out (by omega)

theorem u32_blit_out (h : o' + 4 ≤ o ∨ o + n ≤ o') : u32 (blit m o s n) o' = u32 m o' :=
  u32_congr fun _ h1 h2 => blit_out (by omega)

theorem u16_drop (m : Bytes) (o o' : Nat) : u16 (drop m o) o' = u16 m (o + o') := by
  simp only [u16, drop, Nat.add_assoc]

theorem u32_drop (m : Bytes) (o o' : Nat) : u32 (drop m o) o' = u32 m (o + o') := by
  simp only [u32, u16_drop, Nat.add_assoc]

theorem u16_blit_in (h1 : o ≤ o') (h2 : o' + 2 ≤ o + n) : u16 (blit m o s n) o' = u16 s (o' - o) := by
  have e1 : o' + 1 - o = o' - o + 1 := by omega
  rw [u16, u16, blit_in h1 (by omega), blit_in (by omega) (by omega), e1]

theorem u32_blit_in (h1 : o ≤ o') (h2 : o' + 4 ≤ o + n) : u32 (blit m o s n) o' = u32 s (o' - o) := by
  have e1 : o' + 2 - o = o' - o + 2 := by omega
  rw [u32, u32, u16_blit_in h1 (by omega), u16_blit_in (by omega) (by omega), e1]

theorem le_toNat (v i : Nat) : (le v i).toNat = v / 256 ^ i % 256 := by
  simp [le]

theorem u16_le (v : Nat) : u16 (le v) 0 = v % 65536 := by
  simp only [u16, le_toNat]
  omega

theorem u32_le (v : Nat) : u32 (le v) 0 = v % 4294967296 := by
  simp only [u32, u16, le_toNat]
  omega

@[simp] theorem u16_put16 (m : Bytes) (o v : Nat) : u16 (put16 m o v) o = v % 65536 := by
  rw [put16, u16_blit_in (Nat.le_refl o) (Nat.le_refl _), Nat.sub_self, u16_le]

@[simp] theorem u32_put32 (m : Bytes) (o v : Nat) : u32 (put32 m o v) o = v % 4294967296 := by
  rw [put32, u32_blit_in (Nat.le_refl o) (Nat.le_refl _), Nat.sub_self, u32_le]

end Fields

section Bits

theorem bit_setBit (m : Bytes) (i j : Nat) : bit (setBit m i) j = (bit m j || decide (i = j)) := by
  unfold bit setBit
  by_cases hb : j / 8 = i / 8
  · rw [hb, update_self, UInt8.toNat_or, testBit_or]
    have h2 : 2 ^ (i % 8) < 2 ^ 8 := Nat.pow_lt_pow_right (by omega) (by omega)
    have h3 : (UInt8.ofNat (2 ^ (i % 8))).toNat = 2 ^ (i % 8) := by simpa using h2
    rw [h3, testBit_two_pow]
    congr 1
    exact decide_eq_decide.mpr (by omega)
  · rw [update_of_ne hb]
    have : i ≠ j := by rintro rfl; exact hb rfl
    simp [this]

theorem bit_clearBit (m : Bytes) (i j : Nat) : bit (clearBit m i) j = (bit m j && decide (i ≠ j)) := by
  unfold bit clearBit
  by_cases hb : j / 8 = i / 8
  · have h1 : ∀ x : UInt8, x.toNat.testBit (j % 8) = x.toBitVec.getLsbD (j % 8) := fun _ => rfl
    have h2 : 2 ^ (i % 8) < 2 ^ 8 := Nat.pow_lt_pow_right (by omega) (by omega)
    have h3 : (UInt8.ofNat (2 ^ (i % 8))).toNat = 2 ^ (i % 8) := by simpa using h2
    rw [hb, update_self, h1, UInt8.toBitVec_and, UInt8.toBitVec_not, BitVec.getLsbD_and,
      BitVec.getLsbD_not, ← h1, ← h1, h3, testBit_two_pow]
    have h4 : j % 8 < 8 := by omega
    rw [decide_eq_true h4, Bool.true_and]
    congr 1
    rw [← decide_not]
    exact decide_eq_decide.mpr (by omega)
  · rw [update_of_ne hb]
    have : i ≠ j := by rintro rfl; exact hb rfl
    simp [this]

end Bits

end Bytes

end Xv6Vfs
