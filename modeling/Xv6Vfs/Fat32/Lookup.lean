import Xv6Vfs.Fat32.Disk
import Xv6Vfs.Fat32.Name

/-! `dlookup`: the search for a name in a directory. Undefined where the code writes in front of
`lfn_buf`. -/
namespace Xv6Vfs.Fat32
open Xv6Vfs.Vfs

/-- The local variables on long names. `buf` is `lfn_buf` and the memory behind it; nothing
initialises it. -/
structure Lfn where
  buf : Nat → Nat
  chars : Nat
  cksum : UInt8
  active : Bool
  next : Nat

/-- No long name is being collected. -/
def Lfn.reset (st : Lfn) : Lfn := { st with chars := 0, active := false }

/-- The characters of an entry go to their place, if it is in the buffer. -/
def putUnits (buf : Nat → Nat) (base : Nat) (units : List Nat) : Nat → Nat :=
  fun i => if base ≤ i ∧ i < base + units.length ∧ i < 260 then units.getD (i - base) 0 else buf i

/-- A long-name entry. -/
def visitLfn (d : Bytes) (st : Lfn) : Option Lfn :=
  let seq := lfnSeq d
  if lfnLast d then
    if seq = 0 then none
    else some ⟨putUnits st.buf ((seq - 1) * 13) (lfnUnits d), seq * 13, lfnCksum d, true, seq - 1⟩
  else if st.active ∧ lfnCksum d = st.cksum ∧ seq = st.next then
    if seq = 0 then none
    else some { st with buf := putUnits st.buf ((seq - 1) * 13) (lfnUnits d), next := st.next - 1 }
  else some st.reset

/-- The ASCII characters of the buffer from `i` on, with `k` to go and `len` collected. -/
def lfnString (buf : Nat → Nat) : (k i len : Nat) → Name
  | 0, _, _ => []
  | k + 1, i, len =>
    if len < 255 then
      if buf i = 0 ∨ buf i = 0xFFFF then []
      else if buf i < 128 then UInt8.ofNat (buf i) :: lfnString buf k (i + 1) (len + 1)
      else lfnString buf k (i + 1) len
    else []

/-- The entry matches by the long name collected before it. -/
def longMatches (nm : Name) (d : Bytes) (st : Lfn) : Bool :=
  st.active ∧ 0 < st.chars ∧ lfnChecksum (dirName d) = st.cksum ∧
    ncasecmp 256 nm (lfnString st.buf st.chars 0 0)

/-- "." and ".." are compared by their first bytes. -/
def dotMatches (nm : Name) (d : Bytes) : Bool :=
  nm = dot ∧ d 0 = 46 ∧ d 1 = 32 ∨ nm = dotdot ∧ d 0 = 46 ∧ d 1 = 46

/-- How the search goes on behind a slot. -/
inductive Visit where
  | found
  | stop
  | next (st : Lfn)

def visit (nm : Name) (d : Bytes) (st : Lfn) : Option Visit :=
  if d 0 = 0x00 then some .stop
  else if d 0 = 0xE5 then some (.next st.reset)
  else if dirAttr d = attrLongName then (visitLfn d st).map .next
  else if longMatches nm d st || dotMatches nm d || ncmp nm (dirName d) then some .found
  else some (.next st.reset)

/-- The slots of a directory from byte offset `pos` on: an entry with its offset, failure, or the
state for the slots that follow. `pos` is counted without bound here; the source has a `uint`, which is
what `*off` gets. -/
def scan (nm : Name) : List Bytes → (pos : Nat) → Lfn → Option (Sum (Option (Bytes × Nat)) Lfn)
  | [], _, st => some (.inr st)
  | d :: ds, pos, st =>
    (visit nm d st).bind fun v =>
      match v with
      | .found => some (.inl (some (d, uint pos)))
      | .stop => some (.inl none)
      | .next st => scan nm ds (pos + 32) st

/-- The loop over the cluster chain. -/
def dlookupFrom (fm : Mount) (disk : Disk) (nm : Name) : (fuel c pos : Nat) → Lfn → Option (Option (Bytes × Nat))
  | 0, _, _, _ => none
  | fuel + 1, c, pos, st =>
    if 2 ≤ c ∧ c < eocMin then
      (scan nm (clusterSlots fm disk c) pos st).bind fun r =>
        match r with
        | .inl e => some e
        | .inr st => dlookupFrom fm disk nm fuel (readFat fm disk c) (pos + 32 * (clusterSlots fm disk c).length) st
    else some none

/-- The part of a directory vnode that the search reads. -/
structure DirNode where
  firstClus : Nat
  attrs : UInt8

/-- `dlookup` with `fuel` clusters to visit and `junk` in the buffer. -/
def dlookup (fm : Mount) (disk : Disk) (dv : DirNode) (nm : Name) (junk : Nat → Nat) (fuel : Nat) :
    Option (Option (Bytes × Nat)) :=
  if dv.attrs &&& attrDirectory = 0 then some none
  else dlookupFrom fm disk nm fuel dv.firstClus 0 ⟨junk, 0, 0, false, 0⟩

end Xv6Vfs.Fat32
