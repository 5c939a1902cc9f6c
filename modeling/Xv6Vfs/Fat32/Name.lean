import Xv6Vfs.Lib.Bytes
import Xv6Vfs.Vfs.Lookup

/-! Names of the FAT32 driver: 8.3 short names, their rendering, and comparison without case. -/
namespace Xv6Vfs.Fat32
open Xv6Vfs.Vfs

def upper (c : UInt8) : UInt8 := if 97 ≤ c ∧ c ≤ 122 then c - 32 else c

def lower (c : UInt8) : UInt8 := if 65 ≤ c ∧ c ≤ 90 then c + 32 else c

/-- `n` bytes, filled up with spaces. -/
def pad (n : Nat) (l : List UInt8) : List UInt8 := l.take n ++ List.replicate (n - l.length) 32

/-- What stands before the first dot. -/
def baseOf (s : Name) : Name := s.takeWhile (· ≠ 46)

/-- What follows the first dot. -/
def extOf (s : Name) : Name := (s.dropWhile (· ≠ 46)).drop 1

/-- The 11 bytes of a short name. Base and extension are cut off. -/
def name83 (s : Name) : List UInt8 := pad 8 ((baseOf s).map upper) ++ pad 3 ((extOf s).map upper)

/-- `ncmp(s, n) == 0`. -/
def ncmp (s : Name) (n : List UInt8) : Bool := name83 s = n

/-- `ncasecmp(a, b, n) == 0` for strings without NUL. -/
def ncasecmp : (n : Nat) → (a b : List UInt8) → Bool
  | 0, _, _ => true
  | _ + 1, [], [] => true
  | n + 1, x :: a, y :: b => lower x = lower y && ncasecmp n a b
  | _ + 1, _, _ => false

/-- A short name as `freaddir` prints it. -/
def render83 (n : List UInt8) : Name :=
  let ext := (n.drop 8).take 3
  (((n.take 8).takeWhile (· ≠ 32)).map lower) ++
    if ext.headD 32 ≠ 32 then 46 :: (ext.takeWhile (· ≠ 32)).map lower else []

/-- Equal but for the case of ASCII letters. -/
def SameName (a b : Name) : Prop := a.map lower = b.map lower

instance (a b : Name) : Decidable (SameName a b) := inferInstanceAs (Decidable (_ = _))

theorem ncasecmp_iff {n : Nat} {a b : List UInt8} (h : b.length < n) : ncasecmp n a b = true ↔ SameName a b := by
  induction n generalizing a b with
  | zero => omega
  | succ n ih =>
    cases a with
    | nil =>
      cases b with
      | nil => simp [ncasecmp, SameName]
      | cons y b => simp [ncasecmp, SameName]
    | cons x a =>
      cases b with
      | nil => simp [ncasecmp, SameName]
      | cons y b =>
        have hb : b.length < n := by simpa using h
        rw [ncasecmp, Bool.and_eq_true, decide_eq_true_eq, ih hb]
        simp [SameName]

/-- `lfn_checksum`. -/
def lfnChecksum (shortname : List UInt8) : UInt8 :=
  shortname.foldl (fun sum c => (sum &&& 1) <<< 7 + sum >>> 1 + c) 0

end Xv6Vfs.Fat32
