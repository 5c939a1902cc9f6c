import Xv6Vfs.Ext2.Dir
import Xv6Vfs.Lib.Run

/-! Runs of the ext2 driver on one mount. -/
namespace Xv6Vfs.Ext2
open Xv6Vfs.Bytes Xv6Vfs.Vfs

def rootIno : Nat := 2

/-- The driver, the slot of the root vnode, and the references that processes hold. -/
structure Sys where
  fs : Fs
  root : Nat
  held : List Nat

/-- `ext2_mount` on a device with this content. -/
def mount (image : Nat → Bytes) (taken : Nat → Bool) (pages : Nat) : Option Sys :=
  let sb := image 1
  if pages < 2 ∨ sMagic sb ≠ 0xEF53 ∨ sLogBlockSize sb ≠ 0 then none
  else
    let fs : Fs :=
      { disk := image, sb := sb, bg := image 2
        inodeSize := if sInodeSize sb = 0 then 128 else sInodeSize sb
        vnodes := fun _ => ⟨0, 0, .none, 0, ⟨fun _ => 0, false, false⟩⟩
        taken := taken, pages := pages - 2 }
    let r := iget rootIno fs
    r.1.map fun i => ⟨r.2, i, []⟩

/-- A path component as `skipelem` makes it. -/
def goodName (name : Name) : Bool := name ≠ [] ∧ name.length < 256 ∧ 0 ∉ name

/-- Calls of the driver at time `t`, with the directory, file or reference they are about. -/
inductive Op where
  | root
  | dup (i : Nat)
  | close (i : Nat)
  | lookup (t d : Nat) (name : Name)
  | create (t d : Nat) (name : Name)
  | mkdir (t d : Nat) (name : Name)
  | mknod (t d : Nat) (name : Name) (major minor : Nat)
  | link (t d : Nat) (name : Name) (old : Nat)
  | unlink (t d : Nat) (name : Name)
  | read (t i off : Nat)
  | write (t i : Nat) (user : List UInt8) (n off : Nat)
  | truncate (t i : Nat)
  | others (taken : Nat → Bool) (pages : Nat)

/-- A process holds a directory vnode, and the name is a path component. -/
def Sys.inDir (y : Sys) (d : Nat) (name : Name) : Bool :=
  d ∈ y.held ∧ (y.fs.vnodes d).type = .dir ∧ goodName name

def Sys.isFile (y : Sys) (i : Nat) : Bool := i ∈ y.held ∧ (y.fs.vnodes i).type = .file

def Sys.with (y : Sys) (r : Option Nat × Fs) : Sys :=
  { y with fs := r.2, held := r.1.toList ++ y.held }

/-- Undefined where the code panics or does not return, and for calls that no caller makes:
`sys_unlink` refuses "." and "..", `sys_link` refuses directories, writes and truncations are for
files only. -/
def exec : Op → Sys → Option Sys
  | .root, y => some { y with
      fs := y.fs.setNode y.root { y.fs.vnodes y.root with ref := (y.fs.vnodes y.root).ref + 1 }
      held := y.root :: y.held }
  | .dup i, y =>
    if i ∈ y.held then
      some { y with
        fs := y.fs.setNode i { y.fs.vnodes i with ref := (y.fs.vnodes i).ref + 1 }
        held := i :: y.held }
    else none
  | .close i, y =>
    if i ∈ y.held then (vput i y.fs).map fun fs => { y with fs := fs, held := y.held.erase i }
    else none
  | .lookup t d name, y => if y.inDir d name then (lookup t d name y.fs).map y.with else none
  | .create t d name, y => if y.inDir d name then (create t d name false y.fs).map y.with else none
  | .mkdir t d name, y =>
    if y.inDir d name then (mkdir t d name y.fs).map fun r => { y with fs := r.2 } else none
  | .mknod t d name major minor, y =>
    if y.inDir d name then (mknod t d name major minor y.fs).map fun r => { y with fs := r.2 }
    else none
  | .link t d name old, y =>
    if y.inDir d name ∧ old ∈ y.held ∧ (y.fs.vnodes old).type ≠ .dir then
      (link t d name old y.fs).map fun r => { y with fs := r.2 }
    else none
  | .unlink t d name, y =>
    if y.inDir d name ∧ name ≠ dot ∧ name ≠ dotdot then
      (unlink t d name y.fs).map fun r => { y with fs := r.2 }
    else none
  | .read t i off, y => if i ∈ y.held then some { y with fs := read t i off y.fs } else none
  | .write t i user n off, y =>
    if y.isFile i then some { y with fs := (write t i user n off y.fs).2 } else none
  | .truncate t i, y => if y.isFile i then some { y with fs := truncate t i y.fs } else none
  | .others taken pages, y => some { y with fs := { y.fs with taken := taken, pages := pages } }

/-! What is on the mount, as the driver records it. -/

/-- Bit `b` of the block bitmap. -/
def blockUsed (fs : Fs) (b : Nat) : Bool := bit (fs.disk (bgBlockBitmap fs.bg)) b

/-- Bit `n - 1` of the inode bitmap. -/
def inodeUsed (fs : Fs) (n : Nat) : Bool := bit (fs.disk (bgInodeBitmap fs.bg)) (n - 1)

/-- Inode `n` as the driver sees it: the copy of the live vnode, else the one on disk. -/
def inodeNow (fs : Fs) (n : Nat) : Bytes :=
  match findVnode fs n with
  | some i => (fs.vnodes i).priv.ino
  | none => readInode fs n

/-- Data and indirect blocks of an inode, in the order of the block map. -/
def blocksOf (fs : Fs) (ino : Bytes) : List Nat :=
  let ib := iBlock ino 12
  ((List.range ndirect).map (iBlock ino) ++ ib ::
    if ib = 0 then [] else (List.range nindirect).map fun e => u32 (fs.disk ib) (4 * e)).filter (· ≠ 0)

end Xv6Vfs.Ext2
