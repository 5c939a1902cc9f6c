import Xv6Vfs.Vfs.Components
import Xv6Vfs.Vfs.Crossing

/-! Path resolution without reference counts: where a path leads in a mount configuration over
well-formed trees, and that `vfs_namei` leads there while slots and pages last. -/
namespace Xv6Vfs.Vfs

/-- The part of a vnode that path resolution depends on. -/
def spot (v : Vnode) : Vnode :=
  { v with ref := 0, major := 0, minor := 0, ikey := 0, size := 0 }

def found (fs : FsType) (d : Vnode) (h : Hit) (inum : Nat) : Vnode := spot (vnodeOf fs d h inum 0)

/-- `lookup`, as far as the vnode found is concerned. -/
def seek (c : Content) (v : Vnode) (name : Name) : Option Vnode :=
  match v.ops, v.priv with
  | some .xv6fs, some node => (c.search v.dev node name).map fun h => found .xv6fs v h h.node
  | some .ext2, some node => (c.search v.dev node name).map fun h => found .ext2 v h h.node
  | some .fat32, some clus =>
    if name = dot ∨ name = dotdot ∧ clus = c.rootClus v.dev then some (spot v)
    else (c.search v.dev clus name).map fun h => found .fat32 v h clus
  | _, _ => none

/-- `cross_mount`. -/
def cross (s : State) (v : Vnode) : Option Vnode :=
  match vfsLookupMount s v with
  | none => some v
  | some m => ((s.mounts m).bind Mount.root).map fun r => spot (s.vnodes r)

/-- One step down by a name. -/
def descend (c : Content) (s : State) (v : Vnode) (name : Name) : Option Vnode :=
  if v.type ≠ .dir then none else (seek c v name).bind (cross s)

/-- One step of `vfs_namei`. -/
def hop (c : Content) (s : State) (v : Vnode) (name : Name) : Option Vnode :=
  if name = dotdot then
    if v.type ≠ .dir then none
    else match crossUp s v with
      | none => none
      | some none => (seek c v name).bind (cross s)
      | some (some p) => seek c (s.vnodes p) dotdot
  else descend c s v name

def trek (c : Content) (s : State) : Vnode → List Name → Option Vnode
  | v, [] => some v
  | v, name :: names => (hop c s v name).bind fun w => trek c s w names

/-- The directory a list of names leads to from `v`. -/
def place (c : Content) (s : State) : Vnode → List Name → Option Vnode
  | v, [] => some v
  | v, name :: names => (descend c s v name).bind fun w => place c s w names

def Ordinary (name : Name) : Prop := name ≠ dot ∧ name ≠ dotdot

/-- The directories of an xv6fs or ext2 device form a tree: every subdirectory has its parent as
"..", the root has itself. -/
structure InodeTree (c : Content) (dev root : Nat) : Prop where
  parent : ∀ n name h, Ordinary name → c.search dev n name = some h → h.type = .dir →
    ∃ u, c.search dev h.node dotdot = some u ∧ u.node = n ∧ u.type = .dir
  top : ∃ u, c.search dev root dotdot = some u ∧ u.node = root ∧ u.type = .dir
  below : ∀ n name h, Ordinary name → c.search dev n name = some h → h.node ≠ root
  types : ∀ n name h n' name' h', c.search dev n name = some h → c.search dev n' name' = some h' →
    h.node = h'.node → h.type = h'.type

/-- The directories of a FAT32 volume form a tree. The root has no dot entries; the ".." of a
first-level directory may hold cluster 0 for it. -/
structure FatTree (c : Content) (dev : Nat) : Prop where
  root : c.rootClus dev ≠ 0
  zero : ∀ name, c.search dev 0 name = none
  dots : ∀ name, ¬ Ordinary name → c.search dev (c.rootClus dev) name = none
  parent : ∀ n name h, Ordinary name → c.search dev n name = some h → h.type = .dir →
    h.node ≠ 0 ∧ h.node ≠ c.rootClus dev ∧
      ∃ u, c.search dev h.node dotdot = some u ∧ u.type = .dir ∧
        (if u.node = 0 then c.rootClus dev else u.node) = n
  slots : ∀ n name h name' h', c.search dev n name = some h → c.search dev n name' = some h' →
    h.off = h'.off → h.type = h'.type ∧ h.node = h'.node

def Tree (c : Content) (fs : FsType) (dev : Nat) : Prop :=
  match fs with
  | .xv6fs => InodeTree c dev 1
  | .ext2 => InodeTree c dev 2
  | .fat32 => FatTree c dev

/-- A vnode of mount `m` that agrees with the contents of the device. -/
structure Genuine (c : Content) (s : State) (m : Nat) (v : Vnode) : Prop where
  mount : ∃ mt, s.mounts m = some mt ∧ v.dev = mt.dev ∧ v.ops = mt.ops
  filled : Filled v
  inode : v.ops ≠ some .fat32 → ∀ n name h, c.search v.dev n name = some h → h.node = v.inum →
    h.type = v.type
  fatRoot : v.ops = some .fat32 → v.inum = 0 → v.priv = some (c.rootClus v.dev)
  fat : v.ops = some .fat32 → ∀ name h, c.search v.dev v.inum name = some h → h.off = v.ikey →
    h.type = v.type ∧ v.priv = some h.node

/-- A mountpoint on a FAT32 volume is its root or comes from a directory entry. -/
def FatEntry (c : Content) (v : Vnode) : Prop :=
  v.priv = some (c.rootClus v.dev) ∧ v.inum = 0 ∨
    ∃ name h, c.search v.dev v.inum name = some h ∧ v.priv = some h.node ∧ h.type = .dir

/-- A mount configuration: file systems on distinct devices, the first one xv6fs at "/", each
further one on a directory of an earlier one, and live vnodes that agree with the devices. -/
structure Config (c : Content) (s : State) : Prop where
  filled : AllFilled s
  only : ∀ m, (s.mounts m).isSome → m ∈ s.mounttable
  first : ∃ m ms mt, s.mounttable = m :: ms ∧ s.mounts m = some mt ∧ mt.ops = some .xv6fs ∧
    mt.mountpoint = none
  mounted : ∀ m ∈ s.mounttable, ∃ mt fs r, s.mounts m = some mt ∧ mt.ops = some fs ∧
    Tree c fs mt.dev ∧ mt.root = some r ∧ 0 < refs s r ∧
    spot (s.vnodes r) = spot (rootVnode c fs mt.dev m .dir 0)
  devs : ∀ m m' mt mt', s.mounts m = some mt → s.mounts m' = some mt' → mt.dev = mt'.dev → m = m'
  points : ∀ m p, mpointOf s m = some p → 0 < refs s p ∧ (s.vnodes p).type = .dir ∧
    (∃ m' ∈ s.mounttable, (s.vnodes p).mp = some m' ∧
      s.mounttable.idxOf m' < s.mounttable.idxOf m) ∧
    HasUp c (s.vnodes p) ∧ ((s.vnodes p).ops = some .fat32 → FatEntry c (s.vnodes p))
  genuine : ∀ i, 0 < refs s i → ∀ m ∈ s.mounttable, (s.vnodes i).mp = some m →
    Genuine c s m (s.vnodes i)

/-- Two free slots in the vnode table and two free pages: what a walk needs at any time. -/
def Room (s : State) : Prop :=
  (∃ i j, i < nvnode ∧ j < nvnode ∧ i ≠ j ∧ refs s i = 0 ∧ refs s j = 0) ∧ 2 ≤ s.pages

end Xv6Vfs.Vfs
