import Mathlib.Logic.Function.Basic
import Xv6Vfs.Lib.Run

/-! The virtio disk driver with one device: processes in `hal_disk_rw`, interrupts, and a device that
works on its own. -/
namespace Xv6Vfs.Virtio
open Function

/-- Descriptors, and elements of each ring. -/
def num : Nat := 8

/-- Memory that a descriptor points to. -/
inductive Target where
  | null
  /-- `ops[i]` -/
  | req (i : Nat)
  /-- The data of a buffer. -/
  | data (b : Nat)
  /-- `info[i].status` -/
  | status (i : Nat)
deriving DecidableEq

structure Desc where
  addr : Target
  len : Nat
  flags : Nat
  next : Nat
deriving DecidableEq

def flagNext : Nat := 1
def flagWrite : Nat := 2

/-- `struct virtio_blk_req` -/
structure BlkReq where
  write : Bool
  sector : Nat
deriving DecidableEq

/-- A request: the call it belongs to, its descriptors, and a number that no other request has. The
number is not part of the driver. -/
structure Req where
  proc : Nat
  buf : Nat
  req : BlkReq
  idx0 : Nat
  idx1 : Nat
  idx2 : Nat
  ticket : Nat
deriving DecidableEq

/-- Where a process is in `hal_disk_rw`. -/
inductive Phase where
  | idle
  /-- Looking for descriptors, or asleep until some are free. -/
  | alloc (buf : Nat) (req : BlkReq)
  /-- Submitted, waiting for `b->disk` to become 0. -/
  | wait (r : Req)
deriving DecidableEq

/-- What the device did for a request: the request it found at the head and the buffer it found
behind it. -/
structure Report where
  ticket : Nat
  req : BlkReq
  buf : Nat
deriving DecidableEq

structure Disk where
  desc : Nat → Desc
  availRing : Nat → Nat
  availIdx : Nat
  usedRing : Nat → Nat
  usedIdxDev : Nat
  free : Nat → Bool
  usedIdx : Nat
  infoB : Nat → Option Nat
  infoStatus : Nat → Nat
  ops : Nat → BlkReq
  /-- `b->disk` -/
  busy : Nat → Bool
  phase : Nat → Phase
  /-- The device: how far it has looked in the avail ring, the heads it has taken, and what it has
  done. Tickets follow the requests. -/
  taken : Nat
  pending : List (Nat × Nat)
  reports : List Report
  tickets : Nat
  ticketRing : Nat → Nat

inductive Panic where
  | freeDesc1
  | freeDesc2
  | intrStatus
  /-- A null buffer is used. -/
  | nullBuf
  /-- The device is given a chain that is not one of three descriptors. -/
  | badChain
deriving DecidableEq

abbrev Result := Except Panic Disk

/-- `uint16` increment. -/
def inc16 (n : Nat) : Nat := (n + 1) % 65536

def allocDesc (s : Disk) : Option (Nat × Disk) :=
  ((List.range num).find? s.free).map fun i => (i, { s with free := update s.free i false })

def freeDesc (i : Nat) (s : Disk) : Result :=
  if num ≤ i then .error .freeDesc1
  else if s.free i then .error .freeDesc2
  else .ok { s with
    desc := update s.desc i ⟨.null, 0, 0, 0⟩
    free := update s.free i true }

/-- The loop ends or panics within `num + 1` rounds, since no descriptor is freed twice. -/
def freeChain : (fuel i : Nat) → Disk → Result
  | 0, _, _ => .error .freeDesc2
  | fuel + 1, i, s =>
    let d := s.desc i
    (freeDesc i s).bind fun s => if d.flags.testBit 0 then freeChain fuel d.next s else .ok s

/-- Free the descriptors again that were found. -/
def freeAll : List Nat → Disk → Result
  | [], s => .ok s
  | i :: is, s => (freeDesc i s).bind (freeAll is)

/-- Three descriptors, or the state with those given back that were found. -/
def alloc3Desc (s : Disk) : Except Panic (Option (Nat × Nat × Nat) × Disk) :=
  match allocDesc s with
  | none => .ok (none, s)
  | some (i0, s) =>
    match allocDesc s with
    | none => (freeAll [i0] s).map fun s => (none, s)
    | some (i1, s) =>
      match allocDesc s with
      | none => (freeAll [i0, i1] s).map fun s => (none, s)
      | some (i2, s) => .ok (some (i0, i1, i2), s)

/-- Format the descriptors and publish the head. -/
def submit (p buf : Nat) (req : BlkReq) (i0 i1 i2 : Nat) (s : Disk) : Disk :=
  let desc := update s.desc i0 ⟨.req i0, 16, flagNext, i1⟩
  let desc := update desc i1 ⟨.data buf, 1024, (if req.write then 0 else flagWrite) ||| flagNext, i2⟩
  let desc := update desc i2 ⟨.status i0, 1, flagWrite, 0⟩
  { s with
    desc := desc
    ops := update s.ops i0 req
    infoStatus := update s.infoStatus i0 0xff
    busy := update s.busy buf true
    infoB := update s.infoB i0 (some buf)
    availRing := update s.availRing (s.availIdx % num) i0
    availIdx := inc16 s.availIdx
    phase := update s.phase p (.wait ⟨p, buf, req, i0, i1, i2, s.tickets⟩)
    tickets := s.tickets + 1
    ticketRing := update s.ticketRing (s.availIdx % num) s.tickets }

/-- The driver up to the next sleep. -/
def rwAlloc (p buf : Nat) (req : BlkReq) (s : Disk) : Result :=
  (alloc3Desc s).map fun r =>
    match r.1 with
    | none => r.2
    | some (i0, i1, i2) => submit p buf req i0 i1 i2 r.2

def rwFinish (p : Nat) (r : Req) (s : Disk) : Result :=
  (freeChain (num + 1) r.idx0 { s with infoB := update s.infoB r.idx0 none }).map fun s =>
    { s with phase := update s.phase p .idle }

/-- One round of the loop of `hal_disk_intr_one`. -/
def intr (s : Disk) : Result :=
  let id := s.usedRing (s.usedIdx % num)
  if s.infoStatus id ≠ 0 then .error .intrStatus
  else
    match s.infoB id with
    | none => .error .nullBuf
    | some b => .ok { s with busy := update s.busy b false, usedIdx := inc16 s.usedIdx }

/-- The device takes the next head from the avail ring. -/
def consume (s : Disk) : Disk :=
  { s with
    pending := s.pending ++ [(s.availRing (s.taken % num), s.ticketRing (s.taken % num))]
    taken := inc16 s.taken }

/-- The device carries out the chain at `h`, writes a status and reports the head. -/
def complete (h ticket status : Nat) (s : Disk) : Result :=
  let d0 := s.desc h
  let d1 := s.desc d0.next
  let d2 := s.desc d1.next
  match d0.addr, d1.addr, d2.addr with
  | .req i, .data b, .status j =>
    if d0.flags.testBit 0 ∧ d1.flags.testBit 0 ∧ ¬d2.flags.testBit 0 then
      .ok { s with
        pending := s.pending.erase (h, ticket)
        infoStatus := update s.infoStatus j status
        reports := ⟨ticket, s.ops i, b⟩ :: s.reports
        usedRing := update s.usedRing (s.usedIdxDev % num) h
        usedIdxDev := inc16 s.usedIdxDev }
    else .error .badChain
  | _, _, _ => .error .badChain

inductive Step where
  /-- `hal_disk_rw(b, write)` is called. -/
  | call (p buf : Nat) (req : BlkReq)
  /-- The process takes the lock and looks for descriptors. -/
  | alloc (p : Nat)
  | finish (p : Nat)
  | intr
  | consume
  | complete (h ticket status : Nat)

/-- The buffer a process is busy with. -/
def Phase.buf : Phase → Option Nat
  | .idle => none
  | .alloc b _ => some b
  | .wait r => some r.buf

/-- No process uses the buffer. Callers hold its sleep lock. -/
def Unused (s : Disk) (b : Nat) : Prop := ∀ p, (s.phase p).buf ≠ some b

/-- What a step does, where it can be taken. -/
inductive Can : Step → Disk → Result → Prop where
  | call {s : Disk} {p buf : Nat} {req : BlkReq} (hp : s.phase p = .idle) (hb : Unused s buf) :
    Can (.call p buf req) s (.ok { s with phase := update s.phase p (.alloc buf req) })
  | alloc {s : Disk} {p buf : Nat} {req : BlkReq} (hp : s.phase p = .alloc buf req) :
    Can (.alloc p) s (rwAlloc p buf req s)
  | finish {s : Disk} {p : Nat} {r : Req} (hp : s.phase p = .wait r) (hb : s.busy r.buf = false) :
    Can (.finish p) s (rwFinish p r s)
  | intr {s : Disk} (hi : s.usedIdx ≠ s.usedIdxDev) : Can .intr s (intr s)
  | consume {s : Disk} (hi : s.taken ≠ s.availIdx) : Can .consume s (.ok (consume s))
  | complete {s : Disk} {h ticket status : Nat} (hp : (h, ticket) ∈ s.pending) :
    Can (.complete h ticket status) s (complete h ticket status s)

/-- After `hal_disk_init`. -/
def init : Disk where
  desc _ := ⟨.null, 0, 0, 0⟩
  availRing _ := 0
  availIdx := 0
  usedRing _ := 0
  usedIdxDev := 0
  free _ := true
  usedIdx := 0
  infoB _ := none
  infoStatus _ := 0
  ops _ := ⟨false, 0⟩
  busy _ := false
  phase _ := .idle
  taken := 0
  pending := []
  reports := []
  tickets := 0
  ticketRing _ := 0

inductive Reachable : Disk → Prop where
  | init : Reachable init
  | step {s s' : Disk} {a : Step} (h : Reachable s) (hs : Can a s (.ok s')) : Reachable s'

end Xv6Vfs.Virtio
