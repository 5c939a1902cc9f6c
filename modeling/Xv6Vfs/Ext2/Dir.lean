import Xv6Vfs.Ext2.Disk
import Xv6Vfs.Vfs.Lookup

/-! The ext2 driver: directories and the vnode operations. A loop that would not end is undefined,
as are a panic and a `bread` of a block whose buffer the caller holds. -/
namespace Xv6Vfs.Ext2
open Xv6Vfs.Bytes Xv6Vfs.Vfs

/-! Fields of the directory entry at offset `o` of a block. -/

def deInode (data : Bytes) (o : Nat) : Nat := u32 data o
def deRecLen (data : Bytes) (o : Nat) : Nat := u16 data (o + 4)
def deNameLen (data : Bytes) (o : Nat) : Nat := (data (o + 6)).toNat

/-- `strncmp(p, q, n) == 0`. -/
def strncmp (p q : Bytes) : (n i : Nat) → Bool
  | 0, _ => true
  | n + 1, i => if p i ≠ 0 ∧ p i = q i then strncmp p q n (i + 1) else p i = q i

/-- The string in the buffer of a name. The bytes behind its end are part of a `Name`. -/
def cstr (name : Name) : Name := name.takeWhile (· ≠ 0)

/-- The entry at `o` carries this name. -/
def deMatches (data : Bytes) (o : Nat) (name : Name) : Bool :=
  strncmp (drop data (o + 8)) (ofList name) (deNameLen data o) 0 && ofList name (deNameLen data o) = 0

/-- How a walk over a directory ends: at an entry of block `blk`, at a missing block, or behind
the last entry. -/
inductive Walk (α : Type) where
  | hit (blk : Nat) (a : α)
  | broken
  | done (off : Nat)
deriving DecidableEq

/-- The inner loop over one block: `visit` sees each entry until it answers. -/
def scanBlock {α : Type} (data : Bytes) (visit : Nat → Option α) :
    (fuel boff off : Nat) → Option (Sum α Nat)
  | 0, _, _ => none
  | fuel + 1, boff, off =>
    if boff < bsize then
      match visit boff with
      | some a => some (.inl a)
      | none => scanBlock data visit fuel (boff + deRecLen data boff) (off + deRecLen data boff)
    else some (.inr off)

/-- The outer loop over the blocks of a directory with inode `ino`. -/
def dirWalk {α : Type} (fs : Fs) (p : Priv) (visit : Bytes → Nat → Option α) :
    (fuel off : Nat) → Option (Walk α)
  | 0, _ => none
  | fuel + 1, off =>
    if off < iSize p.ino then
      let blk := (bmap p (off / bsize) false fs).1
      if blk = 0 then some .broken
      else
        (scanBlock (fs.disk blk) (visit (fs.disk blk)) (bsize + 1) (off % bsize) off).bind fun r =>
          match r with
          | .inl a => some (.hit blk a)
          | .inr off' => dirWalk fs p visit fuel off'
    else some (.done off)

def walkDir {α : Type} (fs : Fs) (d : Nat) (visit : Bytes → Nat → Option α) : Option (Walk α) :=
  let v := fs.vnodes d
  dirWalk fs v.priv visit (iSize v.priv.ino / bsize + 2) 0

/-- A corrupt entry ends the search with a failure. -/
def visitLookup (name : Name) (data : Bytes) (o : Nat) : Option (Option Nat) :=
  if deInode data o ≠ 0 ∧ 0 < deNameLen data o ∧ deMatches data o name then some (some (deInode data o))
  else if deRecLen data o = 0 then some none
  else none

/-- `ext2_dir_lookup`: the vnode of the entry, or nothing, also when there is no room for it. -/
def dirLookup (d : Nat) (name : Name) (fs : Fs) : Option (Option Nat × Fs) :=
  (walkDir fs d (visitLookup name)).map fun w =>
    match w with
    | .hit _ (some inum) => iget inum fs
    | _ => (none, fs)

/-- Length of an entry with a name of `len` bytes, aligned to 4. -/
def entryLen (len : Nat) : Nat := (8 + len + 3) / 4 * 4

/-- An entry without its length field: inode, name length, type, name. -/
def putEntry (data : Bytes) (o inum ftype : Nat) (name : Name) : Bytes :=
  blit (put8 (put8 (put32 data o inum) (o + 6) name.length) (o + 7) ftype)
    (o + 8) (ofList name) name.length

/-- New content of the block if the entry at `o` makes room, or a failure if it is corrupt. The
comparison is on unsigned numbers. -/
def visitAdd (name : Name) (inum ftype : Nat) (data : Bytes) (o : Nat) : Option (Option Bytes) :=
  let reclen := deRecLen data o
  let real := entryLen (deNameLen data o)
  let need := entryLen name.length
  if reclen = 0 then some none
  else if deInode data o = 0 ∧ need ≤ reclen then some (some (putEntry data o inum ftype name))
  else if need ≤ (reclen + 4294967296 - real) % 4294967296 then
    some (some (putEntry (put16 (put16 data (o + 4) real) (o + real + 4) (reclen + 65536 - real))
      (o + real) inum ftype name))
  else none

/-- A fresh directory block with one entry. -/
def freshDirBlock (name : Name) (inum ftype : Nat) : Bytes :=
  putEntry (put16 (fun _ => 0) 4 bsize) 0 inum ftype name

/-- `ext2_dir_add`: whether the entry was added. -/
def dirAdd (d : Nat) (name : Name) (inum ftype : Nat) (fs : Fs) : Option (Bool × Fs) :=
  (walkDir fs d (visitAdd (cstr name) inum ftype)).bind fun w =>
    match w with
    | .broken => some (false, fs)
    | .hit _ none => some (false, fs)
    | .hit blk (some data) => some (true, fs.bwrite blk data)
    | .done off =>
      let v := fs.vnodes d
      let r := bmap v.priv (off / bsize) true fs
      let p := r.2.1
      let fs1 := r.2.2.setPriv d p
      if bmapWaits v.priv (off / bsize) fs then none
      else if r.1 = 0 then some (false, fs1)
      else
        some (true, (fs1.setPriv d { p with ino := setSize p.ino (off + bsize), dirty := true }).bwrite r.1
          (freshDirBlock (cstr name) inum ftype))

/-! Operations on vnodes. -/

def touch (t : Nat) (access mod : Bool) (i : Nat) (fs : Fs) : Fs :=
  fs.setPriv i (updateTime t access mod (fs.vnodes i).priv)

def lookup (t d : Nat) (name : Name) (fs : Fs) : Option (Option Nat × Fs) :=
  dirLookup d name (touch t true false d fs)

/-- `ext2_read`, as far as the inode shows it. -/
def read (t i off : Nat) (fs : Fs) : Fs :=
  if iSize (fs.vnodes i).priv.ino ≤ off then fs else touch t true false i fs

/-- The loop of `ext2_write`. `user` is the part of the user buffer that can be read; `copyin`
of a chunk that reaches beyond it copies what there is and fails. -/
def writeLoop (i : Nat) (user : List UInt8) (n : Nat) :
    (fuel total off : Nat) → Fs → Bool × Nat × Fs
  | 0, _, off, fs => (true, off, fs)
  | fuel + 1, total, off, fs =>
    if total < n then
      let v := fs.vnodes i
      let r := bmap v.priv (off / bsize) true fs
      let fs1 := r.2.2.setPriv i r.2.1
      if r.1 = 0 then (false, off, fs1)
      else
        let len := min (bsize - off % bsize) (n - total)
        let chunk := (user.drop total).take len
        let fs2 := fs1.bwrite r.1 (blit (fs1.disk r.1) (off % bsize) (ofList chunk) chunk.length)
        if chunk.length < len then (false, off, fs2)
        else writeLoop i user n fuel (total + len) (off + len) fs2
    else (true, off, fs)

/-- Whether `ext2_write` returned `n`. -/
def write (t i : Nat) (user : List UInt8) (n off : Nat) (fs : Fs) : Bool × Fs :=
  let r := writeLoop i user n n 0 off fs
  if r.1 then
    let v := r.2.2.vnodes i
    let fs1 :=
      if iSize v.priv.ino < r.2.1 then
        r.2.2.setNode i { v with
          size := r.2.1, priv := { v.priv with ino := setSize v.priv.ino r.2.1, dirty := true } }
      else r.2.2
    (true, writeback i (touch t false true i fs1))
  else (false, r.2.2)

def truncate (t i : Nat) (fs : Fs) : Fs :=
  let v := fs.vnodes i
  let r := iTruncate v.priv fs
  writeback i (touch t false true i (r.2.setNode i { v with size := 0, priv := r.1 }))

/-- Logical block `lbn` is the block `held`, or is found through it. -/
def bmapNeeds (p : Priv) (held lbn : Nat) (fs : Fs) : Bool :=
  ndirect ≤ lbn ∧ lbn - ndirect < nindirect ∧ iBlock p.ino 12 = held ∨ (bmap p lbn false fs).1 = held

/-- The loop of `ext2_unlink` that looks for entries besides "." and "..", while the buffer of block `held` is
locked. -/
def emptyLoop (fs : Fs) (p : Priv) (held : Nat) : (fuel off : Nat) → Option Bool
  | 0, _ => none
  | fuel + 1, off =>
    if off < iSize p.ino then
      if bmapNeeds p held (off / bsize) fs then none else
      let data := fs.disk (bmap p (off / bsize) false fs).1
      let o := off % bsize
      let isDot := deNameLen data o = 1 ∧ data (o + 8) = 46
      let isDotdot := deNameLen data o = 2 ∧ data (o + 8) = 46 ∧ data (o + 9) = 46
      if deInode data o ≠ 0 ∧ ¬ isDot ∧ ¬ isDotdot then some false
      else emptyLoop fs p held fuel ((off + deRecLen data o) % 2 ^ 32)
    else some true

/-- Is directory `inum` empty? Absent if there is no vnode for it. -/
def dirEmpty (inum held : Nat) (fs : Fs) : Option (Option Bool × Fs) :=
  let r := iget inum fs
  match r.1 with
  | none => some (none, r.2)
  | some vdir =>
    let v := r.2.vnodes vdir
    (emptyLoop r.2 v.priv held (iSize v.priv.ino + 1) 0).bind fun e =>
      (vput vdir r.2).map fun fs1 => (some e, fs1)

def visitUnlink (name : Name) (data : Bytes) (o : Nat) : Option Nat :=
  if deInode data o ≠ 0 ∧ deMatches data o name then some o else none

/-- `ino` has lost its last name: the inode is freed with the last reference to its vnode. -/
def orphan (inum : Nat) (ino : Bytes) (fs : Fs) : Option Fs :=
  let r := iget inum fs
  match r.1 with
  | none => some r.2
  | some i =>
    vput i (writeInode inum ino (r.2.setPriv i { (r.2.vnodes i).priv with orphaned := true }))

/-- A directory loses two links with its entry: it counts "." and "..". -/
def lessLinks (ino : Bytes) : Bytes := if isDir ino then decLinks (decLinks ino) else decLinks ino

/-- The entry at `o` of block `blk` of directory `d` goes, and with it a link of `ino`, the copy
of the inode on disk. -/
def dropEntry (t d blk o inum : Nat) (ino : Bytes) (fs : Fs) : Option Fs :=
  let fs1 := fs.bwrite blk (put32 (fs.disk blk) o 0)
  let ino := lessLinks ino
  (if iLinks ino = 0 then orphan inum ino fs1
    else some (writeInode inum (put32 ino 12 t) fs1)).map (writeback d)

/-- `dp->dirty = 1; dino->i_links_count--`. -/
def dropParentLink (d : Nat) (fs : Fs) : Fs :=
  let p := (fs.vnodes d).priv
  fs.setPriv d { p with ino := decLinks p.ino, dirty := true }

/-- Whether the name was removed. -/
def unlink (t d : Nat) (name : Name) (fs : Fs) : Option (Bool × Fs) :=
  let fs := touch t false true d fs
  (walkDir fs d (visitUnlink name)).bind fun w =>
    match w with
    | .hit blk o =>
      -- the buffer of `blk` is locked
      let inum := deInode (fs.disk blk) o
      let ino := readInode fs inum
      if inoBlock fs inum = blk then none
      else if isDir ino then
        (dirEmpty inum blk fs).bind fun r =>
          match r.1 with
          | some true => (dropEntry t d blk o inum ino (dropParentLink d r.2)).map fun fs' => (true, fs')
          | _ => some (false, r.2)
      else (dropEntry t d blk o inum ino fs).map fun fs' => (true, fs')
    | _ => some (false, fs)

def ftReg : Nat := 1
def ftDir : Nat := 2
def ftChrdev : Nat := 3

def newMode (dir : Bool) : Nat := if dir then 0x4000 else 0x8000

def newFtype (dir : Bool) : Nat := if dir then ftDir else ftReg

/-- If the name exists, its vnode is dropped again and nothing remains to be done. -/
def nameTaken (d : Nat) (name : Name) (fs : Fs) : Option (Bool × Fs) :=
  (dirLookup d name fs).bind fun r =>
    match r.1 with
    | some i => (vput i r.2).map fun fs' => (true, fs')
    | none => some (false, r.2)

/-- Entries "." and ".." of a new directory `inum`, the links of both directories; when that
fails the name is unlinked again. -/
def fillDir (t d : Nat) (name : Name) (inum : Nat) (fs : Fs) : Option (Bool × Fs) :=
  let undo (fs : Fs) : Option (Bool × Fs) := (unlink t d name fs).map fun r => (false, r.2)
  let r := iget inum fs
  match r.1 with
  | none => undo r.2
  | some nd =>
    (dirAdd nd dot inum ftDir r.2).bind fun r1 =>
      (if r1.1 then dirAdd nd dotdot (r1.2.vnodes d).inum ftDir r1.2 else some (false, r1.2)).bind fun r2 =>
        if r2.1 then
          let p := (r2.2.vnodes nd).priv
          (vput nd (r2.2.setPriv nd { p with ino := setLinks p.ino 2, dirty := true })).map fun fs3 =>
            let q := (fs3.vnodes d).priv
            (true, fs3.setPriv d { q with ino := setLinks q.ino (iLinks q.ino + 1), dirty := true })
        else (vput nd r2.2).bind undo

/-- `ext2_create`: the new vnode, absent on failure. -/
def create (t d : Nat) (name : Name) (dir : Bool) (fs : Fs) : Option (Option Nat × Fs) :=
  (nameTaken d name (touch t false true d fs)).bind fun r =>
    if r.1 then some (none, r.2)
    else
      let a := ialloc (newMode dir) t r.2
      let inum := a.1
      if inum = 0 then some (none, a.2)
      else
        let fs1 := writeInode inum (setLinks (readInode a.2 inum) 1) a.2
        (dirAdd d name inum (newFtype dir) fs1).bind fun b =>
          if b.1 then
            (if dir then fillDir t d name inum b.2 else some (true, b.2)).map fun c =>
              if c.1 then
                let g := iget inum c.2
                match g.1 with
                | none => (none, g.2)
                | some i => (some i, writeback d (writeback i g.2))
              else (none, c.2)
          else some (none, ifree inum b.2)

/-- The vnode of the new directory is dropped at once. -/
def mkdir (t d : Nat) (name : Name) (fs : Fs) : Option (Bool × Fs) :=
  (create t d name true fs).bind fun r =>
    match r.1 with
    | some i => (vput i r.2).map fun fs' => (true, fs')
    | none => some (false, r.2)

def link (t d : Nat) (name : Name) (old : Nat) (fs : Fs) : Option (Bool × Fs) :=
  if isDir (fs.vnodes old).priv.ino then some (false, fs)
  else
    (nameTaken d name fs).bind fun r =>
      if r.1 then some (false, r.2)
      else
        let p := (r.2.vnodes old).priv
        let fs1 := r.2.setPriv old
          { p with ino := put32 (setLinks p.ino (iLinks p.ino + 1)) 12 t, dirty := true }
        (dirAdd d name (fs1.vnodes old).inum ftReg (touch t false true d fs1)).map fun b =>
          if b.1 then (true, writeback d (writeback old b.2))
          else
            let q := (b.2.vnodes old).priv
            (false, b.2.setPriv old { q with ino := decLinks q.ino, dirty := true })

/-- The inode of a device node: `major` and `minor` go to the first block field. -/
def deviceInode (major minor : Nat) : Bytes :=
  setBlock (setLinks (put16 (fun _ => 0) 0 0x2000) 1) 0 (major * 256 ||| minor % 256)

def mknod (t d : Nat) (name : Name) (major minor : Nat) (fs : Fs) : Option (Bool × Fs) :=
  (nameTaken d name (touch t false true d fs)).bind fun r =>
    if r.1 then some (false, r.2)
    else
      let a := ialloc 0x2000 t r.2
      if a.1 = 0 then some (false, a.2)
      else
        (dirAdd d name a.1 ftChrdev (writeInode a.1 (deviceInode major minor) a.2)).map fun b =>
          if b.1 then (true, writeback d b.2) else (false, ifree a.1 b.2)

end Xv6Vfs.Ext2
