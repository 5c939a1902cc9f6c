import Xv6Vfs.Lib.Count
import Xv6Vfs.Lib.Run
import Xv6Vfs.Vfs.Open
import Xv6Vfs.Vfs.Mount

/-! The file table, the descriptor tables of the processes, and the system calls on them:
`sys_open`, `sys_dup`, `sys_close`, `sys_pipe`, `fork` and `exit`. -/
namespace Xv6Vfs.Fd
open Xv6Vfs.Vfs Function

def nfile : Nat := 100
def nproc : Nat := 64
def nofile : Nat := 16
def ndev : Int := 10

inductive FdType where
  | none | pipe | inode | device
deriving DecidableEq

structure File where
  type : FdType
  ref : Nat
  readable : Bool
  writable : Bool
  pipe : Nat
  vnode : Option Nat
  off : Nat
  major : Int
  appendable : Bool
deriving DecidableEq

/-- What `fileclose` leaves in a file without references. -/
def File.freed (ff : File) : File := { ff with ref := 0, type := .none }

/-- `UNUSED`, `ZOMBIE`, and `live` for all states in between. -/
inductive ProcState where
  | unused | live | zombie
deriving DecidableEq

structure Proc where
  state : ProcState
  ofile : Nat → Option Nat
  cwd : Option Nat

structure Pipe where
  readopen : Bool
  writeopen : Bool

structure Kernel where
  vfs : State
  files : Nat → File
  procs : Nat → Proc
  pipes : Nat → Pipe

def Kernel.setFile (k : Kernel) (f : Nat) (x : File) : Kernel :=
  { k with files := update k.files f x }

def Kernel.setProc (k : Kernel) (p : Nat) (x : Proc) : Kernel :=
  { k with procs := update k.procs p x }

/-- `p->ofile[fd] = x`. -/
def Kernel.setFd (k : Kernel) (p fd : Nat) (x : Option Nat) : Kernel :=
  k.setProc p { k.procs p with ofile := update (k.procs p).ofile fd x }

def filealloc (k : Kernel) : Option (Nat × Kernel) :=
  ((List.range nfile).find? fun f => (k.files f).ref = 0).map fun f =>
    (f, k.setFile f { k.files f with ref := 1 })

/-- Undefined where the code panics. -/
def filedup (f : Nat) (k : Kernel) : Option Kernel :=
  if (k.files f).ref < 1 then none
  else some (k.setFile f { k.files f with ref := (k.files f).ref + 1 })

def Pipe.shut (x : Pipe) (writable : Bool) : Pipe :=
  if writable then { x with writeopen := false } else { x with readopen := false }

def pipeclose (pi : Nat) (writable : Bool) (k : Kernel) : Kernel :=
  let x := (k.pipes pi).shut writable
  let k' := { k with pipes := update k.pipes pi x }
  if x.readopen || x.writeopen then k'
  else { k' with vfs := { k.vfs with pages := k.vfs.pages + 1 } }

/-- Undefined where the code panics, also in `vput`. -/
def fileclose (f : Nat) (k : Kernel) : Option Kernel :=
  let ff := k.files f
  if ff.ref < 1 then none
  else if 1 < ff.ref then some (k.setFile f { ff with ref := ff.ref - 1 })
  else
    let k' := k.setFile f ff.freed
    match ff.type with
    | .none => some k'
    | .pipe => some (pipeclose ff.pipe ff.writable k')
    | .inode | .device => (ff.vnode.bind fun v => vput v k'.vfs).map fun s => { k' with vfs := s }

def fdalloc (p f : Nat) (k : Kernel) : Option (Nat × Kernel) :=
  ((List.range nofile).find? fun fd => (k.procs p).ofile fd = none).map fun fd =>
    (fd, k.setFd p fd (some f))

/-- `argfd`. -/
def argfd (p : Nat) (fd : Int) (k : Kernel) : Option (Nat × Nat) :=
  if fd < 0 ∨ nofile ≤ fd then none else ((k.procs p).ofile fd.toNat).map fun f => (fd.toNat, f)

/-- `vfs_truncate`, as far as the vnode shows it. -/
def vfsTruncate (vp : Nat) (s : State) : State :=
  s.setVnode vp { s.vnodes vp with size := 0 }

/-- The end of `sys_open`, once file and descriptor are there. -/
def openFill (mode vp f : Nat) (k : Kernel) : Kernel :=
  let v := k.vfs.vnodes vp
  let s := if mode.testBit oTrunc ∧ v.type = .file then vfsTruncate vp k.vfs else k.vfs
  let ff := k.files f
  let off := if v.type = .dev then ff.off else 0
  { k.setFile f
      { ff with
        type := if v.type = .dev then .device else .inode
        major := if v.type = .dev then v.major else ff.major
        off := if mode.testBit oAppend ∧ v.type = .file then (s.vnodes vp).size else off
        vnode := some vp
        readable := !mode.testBit oWronly
        writable := mode.testBit oWronly || mode.testBit oRdwr
        appendable := mode.testBit oAppend } with vfs := s }

/-- A device vnode that `sys_open` refuses. -/
def badMajor (v : Vnode) : Bool := v.type = .dev ∧ (v.major < 0 ∨ ndev ≤ v.major)

/-- `path` is absent when `argstr` fails. The refused device node gives back the vnode and the
file, but not the descriptor. -/
def sysOpen (p : Nat) (c : Content) (path : Option (List UInt8)) (mode : Nat) (k : Kernel) :
    Option (Int × Kernel) :=
  match path with
  | none => some (-1, k)
  | some path =>
    (vfsOpen c (k.procs p).cwd path mode k.vfs).bind fun r =>
      let k1 := { k with vfs := r.2 }
      match r.1 with
      | none => some (-1, k1)
      | some vp =>
        match filealloc k1 with
        | none => (vput vp k1.vfs).map fun s => (-1, { k1 with vfs := s })
        | some (f, k2) =>
          match fdalloc p f k2 with
          | none =>
            (fileclose f k2).bind fun k3 =>
              (vput vp k3.vfs).map fun s => (-1, { k3 with vfs := s })
          | some (fd, k3) =>
            if badMajor (k3.vfs.vnodes vp) then
              (vput vp k3.vfs).bind fun s =>
                (fileclose f { k3 with vfs := s }).map fun k4 => (-1, k4)
            else some (fd, openFill mode vp f k3)

def sysDup (p : Nat) (fd : Int) (k : Kernel) : Option (Int × Kernel) :=
  match argfd p fd k with
  | none => some (-1, k)
  | some (_, f) =>
    match fdalloc p f k with
    | none => some (-1, k)
    | some (fd', k1) => (filedup f k1).map fun k2 => (fd', k2)

def sysClose (p : Nat) (fd : Int) (k : Kernel) : Option (Int × Kernel) :=
  match argfd p fd k with
  | none => some (-1, k)
  | some (n, f) => (fileclose f (k.setFd p n none)).map fun k' => (0, k')

/-- `pi` is the page `kalloc` gives for the pipe. -/
def pipealloc (pi : Nat) (k : Kernel) : Option (Option (Nat × Nat) × Kernel) :=
  match filealloc k with
  | none => some (none, k)
  | some (f0, k1) =>
    match filealloc k1 with
    | none => (fileclose f0 k1).map fun k2 => (none, k2)
    | some (f1, k2) =>
      if k2.vfs.pages = 0 then
        (fileclose f0 k2).bind fun k3 => (fileclose f1 k3).map fun k4 => (none, k4)
      else
        let k3 := { k2 with
          vfs := { k2.vfs with pages := k2.vfs.pages - 1 }
          pipes := update k2.pipes pi ⟨true, true⟩ }
        let k4 := k3.setFile f0
          { k3.files f0 with type := .pipe, readable := true, writable := false, pipe := pi }
        some (some (f0, f1), k4.setFile f1
          { k4.files f1 with type := .pipe, readable := false, writable := true, pipe := pi })

/-- `copied` says whether both `copyout` calls succeed. -/
def sysPipe (p pi : Nat) (copied : Bool) (k : Kernel) : Option (Int × Kernel) :=
  (pipealloc pi k).bind fun r =>
    match r.1 with
    | none => some (-1, r.2)
    | some (rf, wf) =>
      match fdalloc p rf r.2 with
      | none =>
        (fileclose rf r.2).bind fun k1 => (fileclose wf k1).map fun k2 => (-1, k2)
      | some (fd0, k1) =>
        match fdalloc p wf k1 with
        | none =>
          (fileclose rf (k1.setFd p fd0 none)).bind fun k2 =>
            (fileclose wf k2).map fun k3 => (-1, k3)
        | some (fd1, k2) =>
          if copied then some (0, k2)
          else
            (fileclose rf ((k2.setFd p fd0 none).setFd p fd1 none)).bind fun k3 =>
              (fileclose wf k3).map fun k4 => (-1, k4)

/-- The loop of `kfork` over the descriptors. -/
def dupFiles (p np : Nat) : List Nat → Kernel → Option Kernel
  | [], k => some k
  | fd :: fds, k =>
    match (k.procs p).ofile fd with
    | none => dupFiles p np fds k
    | some f => (filedup f k).bind fun k' => dupFiles p np fds (k'.setFd np fd (some f))

/-- `memory` says whether `allocproc` and `uvmcopy` get their pages. -/
def kfork (p : Nat) (memory : Bool) (k : Kernel) : Option (Int × Kernel) :=
  match (List.range nproc).find? fun q => (k.procs q).state = .unused with
  | none => some (-1, k)
  | some np =>
    if memory then
      (dupFiles p np (List.range nofile) (k.setProc np { k.procs np with state := .live })).bind
        fun k1 => (k1.procs p).cwd.map fun d =>
          (np, { k1.setProc np { k1.procs np with cwd := some d } with vfs := vget d k1.vfs })
    else some (-1, k)

/-- The loop of `kexit` over the descriptors. -/
def closeFiles (p : Nat) : List Nat → Kernel → Option Kernel
  | [], k => some k
  | fd :: fds, k =>
    match (k.procs p).ofile fd with
    | none => closeFiles p fds k
    | some f => (fileclose f k).bind fun k' => closeFiles p fds (k'.setFd p fd none)

/-- Undefined for the first process, whose exit is a panic. -/
def kexit (p : Nat) (k : Kernel) : Option Kernel :=
  if p = 0 then none
  else
    (closeFiles p (List.range nofile) k).bind fun k1 =>
      (k1.procs p).cwd.bind fun d =>
        (vput d k1.vfs).map fun s =>
          { k1.setProc p { k1.procs p with state := .zombie, cwd := none } with vfs := s }

/-- `freeproc` of a zombie by `kwait`. -/
def reap (p : Nat) (k : Kernel) : Option Kernel :=
  if p < nproc ∧ (k.procs p).state = .zombie then
    some (k.setProc p { k.procs p with state := .unused })
  else none

/-- System calls of process `p`, and changes of the free memory. -/
inductive Op where
  | open (p : Nat) (c : Content) (path : Option (List UInt8)) (mode : Nat)
  | dup (p : Nat) (fd : Int)
  | close (p : Nat) (fd : Int)
  | pipe (p pi : Nat) (copied : Bool)
  | fork (p : Nat) (memory : Bool)
  | exit (p : Nat)
  | wait (p : Nat)
  | memory (pages : Nat)

/-- Process `p` exists and can make system calls. -/
def Kernel.running (k : Kernel) (p : Nat) : Bool := p < nproc ∧ (k.procs p).state = .live

def exec : Op → Kernel → Option Kernel
  | .open p c path mode, k =>
    if k.running p then (sysOpen p c path mode k).map Prod.snd else none
  | .dup p fd, k => if k.running p then (sysDup p fd k).map Prod.snd else none
  | .close p fd, k => if k.running p then (sysClose p fd k).map Prod.snd else none
  | .pipe p pi copied, k => if k.running p then (sysPipe p pi copied k).map Prod.snd else none
  | .fork p memory, k => if k.running p then (kfork p memory k).map Prod.snd else none
  | .exit p, k => if k.running p then kexit p k else none
  | .wait p, k => reap p k
  | .memory n, k => some { k with vfs := { k.vfs with pages := n } }

end Xv6Vfs.Fd
