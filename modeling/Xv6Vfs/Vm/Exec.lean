import Xv6Vfs.Vm.PageTable
import Xv6Vfs.Vfs.Components

/-! `kexec`: the loader of ELF files. -/
namespace Xv6Vfs.Vm
open Xv6Vfs.Radix Xv6Vfs.Bytes Xv6Vfs.Vfs

def elfMagic : Nat := 0x464C457F
def elfProgLoad : Nat := 1
def maxarg : Nat := 32
def userstack : Nat := 1

/-- The fields of `struct proghdr` that `kexec` reads. -/
structure Ph where
  type : Nat
  flags : Nat
  off : Nat
  vaddr : Nat
  filesz : Nat
  memsz : Nat
deriving DecidableEq

/-- The calling process: page table, size, the page of its trapframe, and the registers that
`kexec` sets. -/
structure Proc (h : Hal) where
  pagetable : PT h
  sz : Nat
  frame : Nat
  a1 : Nat
  epc : Nat
  sp : Nat

structure Kernel (h : Hal) where
  vfs : State
  free : List Nat
  proc : Proc h

/-- `vfs_read_kernel` of exactly `n` bytes; absent if it returns less. -/
def readKernel (file : List UInt8) (off n : Nat) : Option Bytes :=
  if off + n ≤ file.length then some (ofList (file.drop off)) else none

def readPh (file : List UInt8) (off : Nat) : Option Ph :=
  (readKernel file off 56).map fun b => ⟨u32 b 0, u32 b 4, u64 b 8, u64 b 16, u64 b 32, u64 b 40⟩

/-- The program headers that the loop of `kexec` reads; `off` is an `int`. -/
def headers (file : List UInt8) (elf : Bytes) : List (Option Ph) :=
  (List.range (u16 elf 56)).map fun k => readPh file ((u64 elf 32 + 56 * k) % 2 ^ 32)

section Exec

variable (h : Hal)

/-- `vmfault` for a page of the process `p` that is missing in `pt`. The page is mapped in the
table of the process. -/
def vmfault (pt : PT h) (va : Nat) (p : Proc h) (free : List Nat) :
    Option (Nat × Proc h × List Nat) :=
  if maxva ≤ va ∨ p.sz ≤ va then some (0, p, free)
  else
    match get h.level pt (vpn va) with
    | some pg => some (if pg.user ∧ pg.write then 1 else 0, p, free)
    | none =>
      match free with
      | [] => some (0, p, [])
      | mem :: free =>
        (mappages h p.pagetable (pgRoundDown va) ⟨mem, true, true, false⟩ free).map fun r =>
          if r.1 then (mem, { p with pagetable := r.2.1 }, r.2.2)
          else (0, { p with pagetable := r.2.1 }, mem :: r.2.2)

/-- `copyout` of `len` bytes to `dstva`, without the bytes. Undefined where the code reads
through a null entry. -/
def copyout (pt : PT h) : (fuel dstva len : Nat) → Proc h → List Nat →
    Option (Bool × Proc h × List Nat)
  | 0, _, _, p, free => some (true, p, free)
  | fuel + 1, dstva, len, p, free =>
    if len = 0 then some (true, p, free)
    else
      let va0 := pgRoundDown dstva
      if maxva ≤ va0 then some (false, p, free)
      else
        (match walkaddr h pt va0 with
          | some pa => some (pa, p, free)
          | none => vmfault h pt va0 p free).bind fun r =>
        if r.1 = 0 then some (false, r.2)
        else if reached h.level pt (vpn va0) = false then none
        else if (get h.level pt (vpn va0)).any Page.write then
          let n := min (pgsize - (dstva - va0)) len
          copyout pt fuel (va0 + pgsize) (len - n) r.2.1 r.2.2
        else some (false, r.2)

/-- The loop of `loadseg`; `i` is a `uint`, and a loop of more than 2^20 rounds never ends. -/
def loadLoop (pt : PT h) (file : List UInt8) (va offset sz : Nat) : (fuel i : Nat) → Option Bool
  | 0, _ => none
  | fuel + 1, i =>
    if i < sz then
      match walkaddr h pt (va + i) with
      | none => none
      | some _ =>
        match readKernel file ((offset + i) % 2 ^ 32) (min (sz - i) pgsize) with
        | none => some false
        | some _ => loadLoop pt file va offset sz fuel ((i + pgsize) % 2 ^ 32)
    else some true

/-- Whether the segment could be read; offset and size are truncated to `uint`. -/
def loadseg (pt : PT h) (file : List UInt8) (ph : Ph) : Option Bool :=
  loadLoop h pt file ph.vaddr (ph.off % 2 ^ 32) (ph.filesz % 2 ^ 32) (2 ^ 20 + 1) 0

/-- The checks on a segment that make `kexec` fail. -/
def Ph.rejected (ph : Ph) : Bool :=
  ph.memsz < ph.filesz ∨ 2 ^ 64 ≤ ph.vaddr + ph.memsz ∨ ph.vaddr % pgsize ≠ 0

/-- The loop over the program headers: false for `goto bad`, with size, table and free pages. -/
def loadHeaders (file : List UInt8) : List (Option Ph) → Nat → PT h → List Nat →
    Option (Bool × Nat × PT h × List Nat)
  | [], sz, pt, free => some (true, sz, pt, free)
  | none :: _, sz, pt, free => some (false, sz, pt, free)
  | some ph :: rest, sz, pt, free =>
    if ph.type ≠ elfProgLoad then loadHeaders file rest sz pt free
    else if ph.rejected then some (false, sz, pt, free)
    else
      let sz0 := max sz ph.vaddr
      (uvmalloc h pt sz0 (ph.vaddr + ph.memsz) (ph.flags.testBit 1) (ph.flags.testBit 0) free).bind
        fun r =>
          if r.1 = 0 then some (false, sz0, r.2)
          else
            (loadseg h r.2.1 file ph).bind fun ok =>
              if ok then loadHeaders file rest r.1 r.2.1 r.2.2 else some (false, r)

/-- The loop over `argv`: the new stack pointer, absent for `goto bad`. -/
def pushArgs (pt : PT h) (stackbase : Nat) : List (List UInt8) → (argc sp : Nat) → Proc h →
    List Nat → Option (Option Nat × Proc h × List Nat)
  | [], _, sp, p, free => some (some sp, p, free)
  | arg :: argv, argc, sp, p, free =>
    if maxarg ≤ argc then some (none, p, free)
    else
      let sp := (sp + 2 ^ 64 - (arg.length + 1)) % 2 ^ 64 / 16 * 16
      if sp < stackbase then some (none, p, free)
      else
        (copyout h pt (arg.length + 1) sp (arg.length + 1) p free).bind fun r =>
          if r.1 then pushArgs pt stackbase argv (argc + 1) sp r.2.1 r.2.2 else some (none, r.2)

/-- The rest of `kexec`, once the segments are loaded and the file is closed: absent for
`goto bad`, else table, size and stack pointer; with the size to free. -/
def buildStack (argv : List (List UInt8)) (sz : Nat) (pt : PT h) (p : Proc h) (free : List Nat) :
    Option (Option Nat × Nat × PT h × Proc h × List Nat) :=
  let sz := pgRoundUp sz
  (uvmalloc h pt sz ((sz + (userstack + 1) * pgsize) % 2 ^ 64) true false free).bind fun r =>
    if r.1 = 0 then some (none, sz, r.2.1, p, r.2.2)
    else
      let sz := r.1
      (uvmclear h r.2.1 (sz - (userstack + 1) * pgsize)).bind fun pt =>
        let stackbase := sz - userstack * pgsize
        (pushArgs h pt stackbase argv 0 sz p r.2.2).bind fun q =>
          match q.1 with
          | none => some (none, sz, pt, q.2)
          | some sp =>
            let len := (argv.length + 1) * 8
            let sp := (sp + 2 ^ 64 - len) % 2 ^ 64 / 16 * 16
            if sp < stackbase then some (none, sz, pt, q.2)
            else
              (copyout h pt len sp len q.2.1 q.2.2).map fun w =>
                if w.1 then (some sp, sz, pt, w.2) else (none, sz, pt, w.2)

/-- `goto bad` with the file still open. -/
def badOpen (vp sz : Nat) (pt : PT h) (k : Kernel h) : Option (Int × Kernel h) :=
  (procFreepagetable h pt sz k.free).bind fun free =>
    (vput vp k.vfs).map fun s => (-1, { k with vfs := s, free := free })

/-- The end of `kexec` after a successful load. -/
def commit (argv : List (List UInt8)) (entry sz : Nat) (pt : PT h) (k : Kernel h) :
    Option (Int × Kernel h) :=
  (buildStack h argv sz pt k.proc k.free).bind fun r =>
    let sz := r.2.1
    let pt := r.2.2.1
    let p := r.2.2.2.1
    let free := r.2.2.2.2
    match r.1 with
    | none => (procFreepagetable h pt sz free).map fun free => (-1, { k with proc := p, free := free })
    | some sp =>
      (procFreepagetable h p.pagetable k.proc.sz free).map fun free =>
        (argv.length, { k with
          proc := { p with pagetable := pt, sz := sz, a1 := sp, epc := entry, sp := sp }
          free := free })

/-- `pas` are the physical pages of trampoline and trapframe, `file` the content of a vnode. -/
def kexec (c : Content) (cwd : Option Nat) (pas : Nat → Nat → Nat) (file : Nat → List UInt8)
    (path : List UInt8) (argv : List (List UInt8)) (k : Kernel h) : Option (Int × Kernel h) :=
  (vfsNamei c cwd path k.vfs).bind fun r =>
    let k := { k with vfs := r.2 }
    match r.1 with
    | none => some (-1, k)
    | some vp =>
      match readKernel (file vp) 0 64 with
      | none => (vput vp k.vfs).map fun s => (-1, { k with vfs := s })
      | some elf =>
        if u32 elf 0 ≠ elfMagic then (vput vp k.vfs).map fun s => (-1, { k with vfs := s })
        else
          (procPagetable h (pas k.proc.frame) k.free).bind fun q =>
            match q.1 with
            | none => (vput vp k.vfs).map fun s => (-1, { k with vfs := s, free := q.2 })
            | some pt =>
              (loadHeaders h (file vp) (headers (file vp) elf) 0 pt q.2).bind fun w =>
                let sz := w.2.1
                let k := { k with free := w.2.2.2 }
                if w.1 then
                  (vput vp k.vfs).bind fun s =>
                    commit h argv (u64 elf 24) sz w.2.2.1 { k with vfs := s }
                else badOpen h vp sz w.2.2.1 k

end Exec

end Xv6Vfs.Vm
