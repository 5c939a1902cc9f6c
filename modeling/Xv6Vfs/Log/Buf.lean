import Xv6Vfs.Lib.Bytes
import Xv6Vfs.Lib.Redo

/-! The log of xv6fs over the buffer cache. -/
namespace Xv6Vfs.Log
open Xv6Vfs.Bytes Xv6Vfs.Redo

/-- Device and block number of a buffer. -/
abbrev Addr := Nat × Nat

abbrev Store := Addr → Bytes

def maxOpBlocks : Nat := 10
def logBlocks : Nat := maxOpBlocks * 3

/-- `struct log`; `block` is the in-memory header. There is one log for all devices. -/
structure LogState where
  dev : Nat
  start : Nat
  block : List Nat
  outstanding : Nat
  committing : Bool

/-! The writes to the disk. `v` is what `bread` returns. -/

/-- `block[i] = ..` from index `i` on. -/
def putBlocks : (i : Nat) → List Nat → Bytes → Bytes
  | _, [], x => x
  | i, b :: bs, x => putBlocks (i + 1) bs (put32 x (4 + 4 * i) b)

/-- The header block with content `x` after `n` and the block numbers have been stored in it. -/
def putHead (block : List Nat) (x : Bytes) : Bytes := putBlocks 0 block (put32 x 0 block.length)

def readBlocks (x : Bytes) : List Nat := (List.range (u32 x 0)).map fun i => u32 x (4 + 4 * i)

def writeHead (dev start : Nat) (block : List Nat) (v : Store) : Addr × Bytes :=
  ((dev, start), putHead block (v (dev, start)))

/-- Copy modified blocks from the cache to the log. -/
def writeLog (dev start : Nat) : List Nat → (tail : Nat) → Store → List (Addr × Bytes)
  | [], _, _ => []
  | b :: bs, tail, v =>
    let w := ((dev, start + tail + 1), v (dev, b))
    w :: writeLog dev start bs (tail + 1) (put v w)

/-- Copy committed blocks from the log to their home location. -/
def installTrans (dev start : Nat) : List Nat → (tail : Nat) → Store → List (Addr × Bytes)
  | [], _, _ => []
  | b :: bs, tail, v =>
    let w := ((dev, b), v (dev, start + tail + 1))
    w :: installTrans dev start bs (tail + 1) (put v w)

def commitWrites (dev start : Nat) (block : List Nat) (v : Store) : List (Addr × Bytes) :=
  if block = [] then []
  else
    let ws := writeLog dev start block 0 v
    let v1 := puts ws v
    let h := writeHead dev start block v1
    let v2 := put v1 h
    let is := installTrans dev start block 0 v2
    ws ++ h :: (is ++ [writeHead dev start [] (puts is v2)])

/-! Transactions. -/

/-- Disks and buffer cache. `pins` counts the references of `bpin`; a buffer without them may be
recycled. -/
structure Sys where
  disk : Store
  cache : Store
  pins : Addr → Nat
  log : LogState

inductive Op where
  /-- A buffer gets new content and is passed to `log_write`. -/
  | write (a : Addr) (data : Bytes)
  /-- A buffer is recycled. -/
  | recycle (a : Addr)

def logWrite (b : Nat) (l : LogState) : Option LogState :=
  if logBlocks ≤ l.block.length then none
  else if l.outstanding < 1 then none
  else some { l with block := if b ∈ l.block then l.block else l.block ++ [b] }

/-- Undefined where the code panics. -/
def exec : Op → Sys → Option Sys
  | .write a data, s =>
    (logWrite a.2 s.log).map fun l =>
      { s with
        cache := put s.cache (a, data)
        pins := if a.2 ∈ s.log.block then s.pins else put s.pins (a, s.pins a + 1)
        log := l }
  | .recycle a, s => if s.pins a = 0 then some { s with cache := put s.cache (a, s.disk a) } else none

/-- `bunpin` for each installed block, on a `uint`. -/
def unpin (dev : Nat) : List Nat → (Addr → Nat) → Addr → Nat
  | [], pins => pins
  | b :: bs, pins => unpin dev bs (put pins ((dev, b), (pins (dev, b) + 4294967295) % 4294967296))

def commit (s : Sys) : Sys :=
  let ws := commitWrites s.log.dev s.log.start s.log.block s.cache
  { disk := puts ws s.disk
    cache := puts ws s.cache
    pins := unpin s.log.dev s.log.block s.pins
    log := { s.log with block := [] } }

end Xv6Vfs.Log
