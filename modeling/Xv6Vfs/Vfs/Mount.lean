import Xv6Vfs.Lib.Run
import Xv6Vfs.Vfs.Open

/-! `vfs_mount` and `vfs_umount`, and whole runs of them among lookups, path walks and closes by
any number of processes. -/
namespace Xv6Vfs.Vfs

def nmountMax : Nat := 8

/-- The root vnode a backend makes: inode 1 of xv6fs, inode 2 of ext2, and the root cluster of
FAT32, whose directory entry does not exist and is given as parent 0, offset 0. -/
def rootVnode (c : Content) (fs : FsType) (dev addr : Nat) (type : VType) (size : Nat) : Vnode where
  type := if fs = .fat32 then .dir else type
  dev := dev
  major := 0
  minor := 0
  ops := some fs
  mp := some addr
  ref := 1
  inum := match fs with | .xv6fs => 1 | .ext2 => 2 | .fat32 => 0
  ikey := 0
  size := if fs = .fat32 then 0 else size
  priv := some (match fs with | .xv6fs => 1 | .ext2 => 2 | .fat32 => c.rootClus dev)

/-- Pages a mount takes: the `struct mount`, and private data for ext2 and FAT32. -/
def mountPages : FsType → Nat
  | .xv6fs => 1
  | .ext2 => 2
  | .fat32 => 2

/-- `ext2_iget` and `fvalloc` ask `vfs_iget` first, also for the root. -/
def rootNew (v : Vnode) (s : State) : Option (Option Nat × State) :=
  if v.ops = some .xv6fs then vnodeNew v s else igetOr v s

def State.setMount (s : State) (m : Nat) (x : Option Mount) (pages : Nat) : State :=
  { s with mounts := Function.update s.mounts m x, pages := pages }

/-- `xv6fs_mount`, `ext2_mount` and `fat32_mount`; `addr` is the page `kalloc` gives for the
`struct mount`. -/
def mountfn (c : Content) (fs : FsType) (dev addr : Nat) (s : State) : Option (Option Nat × State) :=
  match c.image dev fs with
  | none => some (none, s)
  | some (type, size) =>
    if s.pages < mountPages fs then some (none, s)
    else
      let mt : Mount := ⟨false, some fs, none, none, dev, []⟩
      (rootNew (rootVnode c fs dev addr type size)
        (s.setMount addr (some mt) (s.pages - mountPages fs))).map fun r =>
        match r.1 with
        | none => (none, r.2.setMount addr none (r.2.pages + mountPages fs))
        | some i => (some i, r.2.setMount addr (some { mt with root := some i }) r.2.pages)

/-- `mp->ops->unmount(mp)`: ext2 and FAT32 drop the root, xv6fs has no such operation. -/
def unmount (mt : Mount) (s : State) : Option State :=
  if mt.ops = none ∨ mt.ops = some .xv6fs then some s else mt.root.bind fun i => vput i s

/-- `kfree(mp)`, with the page of private data that `unmount` gave back. -/
def freeMount (addr : Nat) (mt : Mount) (s : State) : State :=
  s.setMount addr none (s.pages + (mt.ops.map mountPages).getD 1)

/-- Drop a vnode if there is one. -/
def vputOpt (v : Option Nat) (s : State) : Option State :=
  match v with
  | none => some s
  | some i => vput i s

/-- The failure paths of `vfs_mount`. -/
def abortMount (addr : Nat) (mpoint : Option Nat) (s : State) : Option (Bool × State) :=
  (vputOpt mpoint s).bind fun s1 =>
    (s1.mounts addr).bind fun mt => (unmount mt s1).map fun s2 => (false, freeMount addr mt s2)

/-- The last part of `vfs_mount`: enter the mount into the table if there is room. -/
def attach (addr : Nat) (mpoint : Option Nat) (path : List UInt8) (dev : Nat) (s : State) :
    Option (Bool × State) :=
  if nmountMax ≤ s.mounttable.length then abortMount addr mpoint s
  else
    (s.mounts addr).map fun mt =>
      let mt' := { mt with valid := true, mountpoint := mpoint, dev := dev, path := path.take 127 }
      (true, { s.setMount addr (some mt') s.pages with mounttable := s.mounttable ++ [addr] })

def pathIs (s : State) (path : List UInt8) (m : Nat) : Bool :=
  match s.mounts m with
  | some mt => mt.path.take 128 = path.take 128
  | none => false

def devIs (s : State) (dev : Nat) (m : Nat) : Bool :=
  match s.mounts m with
  | some mt => mt.dev = dev
  | none => false

/-- `fs` is absent when the type name is not registered. -/
def vfsMount (c : Content) (cwd : Option Nat) (path : List UInt8) (dev : Nat) (fs : Option FsType)
    (addr : Nat) (s : State) : Option (Bool × State) :=
  if s.mounttable.any fun m => pathIs s path m || devIs s dev m then some (false, s)
  else match fs with
    | none => some (false, s)
    | some fs =>
      (mountfn c fs dev addr s).bind fun r =>
        if r.1 = none then some (false, r.2)
        else if path.take 128 = [slash] then attach addr none path dev r.2
        else
          (vfsNamei c cwd path r.2).bind fun w =>
            match w.1 with
            | none => abortMount addr none w.2
            | some p =>
              if (w.2.vnodes p).type ≠ .dir ∨
                  w.2.mounttable.tail.any (covers w.2 (w.2.vnodes p)) = true then
                abortMount addr (some p) w.2
              else attach addr (some p) path dev w.2

/-- Nothing checks that the file system is idle. The fields the backend clears are freed with
the `struct mount`. -/
def vfsUmount (path : List UInt8) (s : State) : Option (Bool × State) :=
  match s.mounttable.findIdx? (pathIs s path) with
  | none => some (false, s)
  | some 0 => some (false, s)
  | some (k + 1) =>
    (s.mounttable[k + 1]?).bind fun m =>
      (s.mounts m).bind fun mt =>
        if mt.valid = false then some (false, s)
        else
          (unmount mt s).bind fun s1 =>
            (vputOpt mt.mountpoint { s1 with mounttable := s1.mounttable.eraseIdx (k + 1) }).map
              fun s2 => (true, freeMount m mt s2)

/-- The VFS together with the references that processes hold (open files, current directories,
results of lookups). -/
structure Sys where
  vfs : State
  held : List Nat

/-- What processes do. Every operation brings its own `Content`: the directories change between
operations. -/
inductive Op where
  | mount (c : Content) (cwd : Option Nat) (path : List UInt8) (dev : Nat) (fs : Option FsType)
      (addr : Nat)
  | umount (path : List UInt8)
  | namei (c : Content) (cwd : Option Nat) (path : List UInt8)
  | «open» (c : Content) (cwd : Option Nat) (path : List UInt8) (mode : Nat)
  | lookup (c : Content) (d : Nat) (name : Name)
  | close (v : Nat)
  | memory (pages : Nat)

def cwdHeld (cwd : Option Nat) (held : List Nat) : Bool :=
  match cwd with
  | none => true
  | some d => held.contains d

def exec : Op → Sys → Option Sys
  | .mount c cwd path dev fs addr, y =>
    if cwdHeld cwd y.held && (y.vfs.mounts addr).isNone then
      (vfsMount c cwd path dev fs addr y.vfs).map fun r => ⟨r.2, y.held⟩
    else none
  | .umount path, y => (vfsUmount path y.vfs).map fun r => ⟨r.2, y.held⟩
  | .namei c cwd path, y =>
    if cwdHeld cwd y.held then
      (vfsNamei c cwd path y.vfs).map fun r => ⟨r.2, r.1.toList ++ y.held⟩
    else none
  | .open c cwd path mode, y =>
    if cwdHeld cwd y.held then
      (vfsOpen c cwd path mode y.vfs).map fun r => ⟨r.2, r.1.toList ++ y.held⟩
    else none
  | .lookup c d name, y =>
    if y.held.contains d then
      (lookup c y.vfs d name).map fun r =>
        ⟨r.st, (if r.ok then (r.stored.bind id).toList else []) ++ y.held⟩
    else none
  | .close v, y =>
    if y.held.contains v then (vput v y.vfs).map fun s => ⟨s, y.held.erase v⟩ else none
  | .memory n, y => some ⟨{ y.vfs with pages := n }, y.held⟩

def emptyVnode : Vnode := ⟨.none, 0, 0, 0, none, none, 0, 0, 0, 0, none⟩

/-- After `vfs_init`. -/
def vfsInit (pages : Nat) : Sys := ⟨⟨fun _ => emptyVnode, fun _ => none, [], pages⟩, []⟩

end Xv6Vfs.Vfs
