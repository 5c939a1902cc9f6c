import Xv6Vfs.Fat32.Driver

/-! `freaddir`: the next entry of a directory from a byte offset on. -/
namespace Xv6Vfs.Fat32
open Xv6Vfs.Vfs

/-- The record for the user and the offset of the slot behind the entry. `inum` is a `ushort`. -/
structure Record where
  inum : Nat
  name : Name
  next : Nat
deriving DecidableEq

/-- The forward loop: slots in front of `off`, deleted slots and long-name slots are passed. `pos` is a `uint`. -/
def visitNext (off : Nat) (d : Bytes) (pos : Nat) : Sum (Option (Bytes × Nat)) Nat :=
  if uint pos < off then .inr (pos + 32)
  else if d 0 = 0x00 then .inl none
  else if d 0 = 0xE5 ∨ dirAttr d = attrLongName then .inr (pos + 32)
  else .inl (some (d, uint pos))

/-- Cluster number `i` of a chain, or the last one. -/
def backClus (fm : Mount) (disk : Disk) : (i c : Nat) → Nat
  | 0, c => c
  | i + 1, c => if eocMin ≤ readFat fm disk c then c else backClus fm disk i (readFat fm disk c)

/-- Slot number `k` of the directory. -/
def backSlot (fm : Mount) (disk : Disk) (first k : Nat) : Bytes :=
  let bo := 32 * k % (fm.secPerClus * bps)
  sread disk (uint (clusToSec fm (backClus fm disk (32 * k / clusBytes fm) first) + bo / bps)) (bo % bps)

/-- The backward loop over the slots in front of slot `k`, with number `seq` and checksum `c` expected:
how many belong to the long name, and the buffer. `start_idx + 13` is the number of characters. -/
def readBack (slot : Nat → Bytes) (c : UInt8) : (k seq : Nat) → (buf : Nat → Nat) → Nat × (Nat → Nat)
  | 0, seq, buf => (seq - 1, buf)
  | k + 1, seq, buf =>
    let p := slot k
    if isFree p ∨ dirAttr p ≠ attrLongName ∨ lfnCksum p ≠ c ∨ lfnSeq p ≠ seq then (seq - 1, buf)
    else readBack slot c k (seq + 1) (putUnits buf ((seq - 1) * 13) (lfnUnits p))

/-- The name in the buffer from `i` on, with `k` characters to go and `nl` printed. -/
def printUnits (buf : Nat → Nat) : (k i nl : Nat) → Name
  | 0, _, _ => []
  | k + 1, i, nl =>
    if nl < 255 then
      if buf i = 0 then []
      else if buf i < 128 then UInt8.ofNat (buf i) :: printUnits buf k (i + 1) (nl + 1)
      else printUnits buf k (i + 1) nl
    else []

/-- The record of entry `d` in slot `k`, with `junk` in the buffer. -/
def recordOf (slot : Nat → Bytes) (junk : Nat → Nat) (d : Bytes) (k : Nat) : Record :=
  let r := readBack slot (lfnChecksum (dirName d)) k 1 junk
  { inum := fstClus d % 65536
    name := if 0 < r.1 then printUnits r.2 (r.1 * 13) 0 0 else render83 (dirName d)
    next := uint (32 * k + 32) }

/-- `freaddir` from offset `off` on. -/
def freaddir (fm : Mount) (disk : Disk) (dv : DirNode) (junk : Nat → Nat) (off : Nat) : Option (Option Record) :=
  if dv.attrs &&& attrDirectory = 0 then some none
  else
    (sweepChain fm disk (visitNext off) chainFuel dv.firstClus 0).map fun r =>
      match r with
      | .inl (some (d, pos)) => some (recordOf (backSlot fm disk dv.firstClus) junk d (pos / 32))
      | _ => none

end Xv6Vfs.Fat32
