import Xv6Vfs.Lib.Bytes
import Xv6Vfs.Vfs.Vnode

/-! The ext2 driver: inodes, bitmaps, block map and vnodes over a disk of byte blocks. The disk is
what `bread` returns, which is never 0 for the device of a mount. -/
namespace Xv6Vfs.Ext2
open Xv6Vfs.Bytes Xv6Vfs.Vfs

def bsize : Nat := 1024
def ndirect : Nat := 12
def nindirect : Nat := 256

/-- `struct ext2_vnode_priv`; `ino` holds the 128 bytes of `struct ext2_inode_disk`. -/
structure Priv where
  ino : Bytes
  dirty : Bool
  orphaned : Bool

structure Node where
  ref : Nat
  inum : Nat
  type : VType
  size : Nat
  priv : Priv

/-- One mount: the device, `struct ext2_mount_priv`, and the vnode table. A slot with `taken` is
in use by another mount. -/
structure Fs where
  disk : Nat → Bytes
  sb : Bytes
  bg : Bytes
  inodeSize : Nat
  vnodes : Nat → Node
  taken : Nat → Bool
  pages : Nat

/-! Fields of the superblock, the group descriptor and an inode. -/

def sInodesCount (sb : Bytes) : Nat := u32 sb 0
def sBlocksCount (sb : Bytes) : Nat := u32 sb 4
def sFirstDataBlock (sb : Bytes) : Nat := u32 sb 20
def sLogBlockSize (sb : Bytes) : Nat := u32 sb 24
def sMagic (sb : Bytes) : Nat := u16 sb 56
def sInodeSize (sb : Bytes) : Nat := u16 sb 88

def bgBlockBitmap (bg : Bytes) : Nat := u32 bg 0
def bgInodeBitmap (bg : Bytes) : Nat := u32 bg 4
def bgInodeTable (bg : Bytes) : Nat := u32 bg 8

def iMode (ino : Bytes) : Nat := u16 ino 0
def iSize (ino : Bytes) : Nat := u32 ino 4
def iLinks (ino : Bytes) : Nat := u16 ino 26
def iBlocks (ino : Bytes) : Nat := u32 ino 28
def iBlock (ino : Bytes) (k : Nat) : Nat := u32 ino (40 + 4 * k)

def setSize (ino : Bytes) (v : Nat) : Bytes := put32 ino 4 v
def setLinks (ino : Bytes) (v : Nat) : Bytes := put16 ino 26 v
def setBlocks (ino : Bytes) (v : Nat) : Bytes := put32 ino 28 v
def setBlock (ino : Bytes) (k v : Nat) : Bytes := put32 ino (40 + 4 * k) v

/-- `i_links_count--` on a `ushort`. -/
def decLinks (ino : Bytes) : Bytes := setLinks ino (iLinks ino + 65535)

def isDir (ino : Bytes) : Bool := iMode ino &&& 0xF000 = 0x4000

def isDev (ino : Bytes) : Bool := iMode ino &&& 0xF000 = 0x2000 ∨ iMode ino &&& 0xF000 = 0x6000

/-! Disk access. -/

def Fs.bwrite (fs : Fs) (b : Nat) (data : Bytes) : Fs :=
  { fs with disk := Function.update fs.disk b data }

def Fs.setNode (fs : Fs) (i : Nat) (v : Node) : Fs :=
  { fs with vnodes := Function.update fs.vnodes i v }

def Fs.setPriv (fs : Fs) (i : Nat) (p : Priv) : Fs := fs.setNode i { fs.vnodes i with priv := p }

def inoBlock (fs : Fs) (inum : Nat) : Nat :=
  (bgInodeTable fs.bg + (inum - 1) / (bsize / fs.inodeSize)) % 2 ^ 32

def inoOffset (fs : Fs) (inum : Nat) : Nat := (inum - 1) % (bsize / fs.inodeSize) * fs.inodeSize

def readInode (fs : Fs) (inum : Nat) : Bytes := drop (fs.disk (inoBlock fs inum)) (inoOffset fs inum)

def writeInode (inum : Nat) (ino : Bytes) (fs : Fs) : Fs :=
  fs.bwrite (inoBlock fs inum) (blit (fs.disk (inoBlock fs inum)) (inoOffset fs inum) ino 128)

/-- `ext2_update_time` at time `t`. -/
def updateTime (t : Nat) (access mod : Bool) (p : Priv) : Priv :=
  let ino := if access then put32 p.ino 8 t else p.ino
  let ino := if mod then put32 (put32 ino 16 t) 12 t else ino
  { p with ino := ino, dirty := p.dirty || access || mod }

/-! Bitmaps. -/

/-- Bits `1 .. nbits-1`; the number returned is the bit index plus `base`. -/
def bitmapAlloc (bb nbits base : Nat) (fs : Fs) : Option (Nat × Fs) :=
  ((List.range' 1 (min nbits (bsize * 8) - 1)).find? fun i => !bit (fs.disk bb) i).map fun i =>
    (i + base, fs.bwrite bb (setBit (fs.disk bb) i))

def bitmapFree (bb n base : Nat) (fs : Fs) : Fs :=
  fs.bwrite bb (clearBit (fs.disk bb) (n - base))

/-- Change a counter of the superblock and write the superblock out (`ext2_sb_write`). -/
def sbWrite (o delta : Nat) (fs : Fs) : Fs :=
  let sb := put32 fs.sb o (u32 fs.sb o + delta)
  { fs.bwrite 1 (blit (fs.disk 1) 0 sb bsize) with sb := sb }

/-- A free block, or 0. -/
def balloc (fs : Fs) : Nat × Fs :=
  match bitmapAlloc (bgBlockBitmap fs.bg) (sBlocksCount fs.sb) 0 fs with
  | none => (0, fs)
  | some (b, fs1) => (b, sbWrite 12 4294967295 fs1)

def bfree (b : Nat) (fs : Fs) : Fs := sbWrite 12 1 (bitmapFree (bgBlockBitmap fs.bg) b 0 fs)

/-- The inode `ext2_ialloc` writes: zero but for mode and times. -/
def newInode (mode t : Nat) : Bytes :=
  put32 (put32 (put32 (put16 (fun _ => 0) 0 mode) 8 t) 16 t) 12 t

def ialloc (mode t : Nat) (fs : Fs) : Nat × Fs :=
  match bitmapAlloc (bgInodeBitmap fs.bg) (sInodesCount fs.sb) 1 fs with
  | none => (0, fs)
  | some (inum, fs1) => (inum, sbWrite 16 4294967295 (writeInode inum (newInode mode t) fs1))

def ifree (inum : Nat) (fs : Fs) : Fs :=
  sbWrite 16 1 (bitmapFree (bgInodeBitmap fs.bg) inum 1 fs)

/-! The block map. -/

/-- `i_blocks += 2`, and the inode is dirty. -/
def grown (p : Priv) (ino : Bytes) : Priv :=
  { p with ino := setBlocks ino (iBlocks ino + 2), dirty := true }

/-- The block with the indirect pointers, made if `alloc` asks for it. -/
def indirectBlock (p : Priv) (alloc : Bool) (fs : Fs) : Priv × Fs :=
  if iBlock p.ino 12 = 0 ∧ alloc then
    let r := balloc fs
    if r.1 = 0 then (p, r.2)
    else (grown p (setBlock p.ino 12 r.1), r.2.bwrite r.1 (clear (r.2.disk r.1) 0 bsize))
  else (p, fs)

/-- Block number of logical block `lbn`, or 0; the private data and the disk may change when
`alloc` is set. -/
def bmap (p : Priv) (lbn : Nat) (alloc : Bool) (fs : Fs) : Nat × Priv × Fs :=
  if lbn < ndirect then
    if iBlock p.ino lbn = 0 ∧ alloc then
      let r := balloc fs
      if r.1 = 0 then (0, p, r.2) else (r.1, grown p (setBlock p.ino lbn r.1), r.2)
    else (iBlock p.ino lbn, p, fs)
  else if lbn - ndirect < nindirect then
    let q := indirectBlock p alloc fs
    let ib := iBlock q.1.ino 12
    if ib = 0 then (0, q)
    else
      let e := 4 * (lbn - ndirect)
      if u32 (q.2.disk ib) e = 0 ∧ alloc then
        let r := balloc q.2
        if r.1 = 0 then (0, q.1, r.2)
        else (r.1, grown q.1 q.1.ino, r.2.bwrite ib (put32 (r.2.disk ib) e r.1))
      else (u32 (q.2.disk ib) e, q)
  else (0, p, fs)

/-- The blocks whose buffers `ext2_balloc` and `ext2_bfree` lock: the bitmap and the superblock. -/
def spaceBlock (fs : Fs) (b : Nat) : Bool := b = bgBlockBitmap fs.bg ∨ b = 1

/-- `ext2_bmap` holds the buffer of the indirect block when it calls `ext2_balloc` for an entry of it, which waits for
ever if it needs that buffer. -/
def bmapWaits (p : Priv) (lbn : Nat) (fs : Fs) : Bool :=
  let q := indirectBlock p true fs
  let ib := iBlock q.1.ino 12
  ndirect ≤ lbn ∧ lbn - ndirect < nindirect ∧ ib ≠ 0 ∧ spaceBlock fs ib ∧ u32 (q.2.disk ib) (4 * (lbn - ndirect)) = 0

/-- `for(; i < N && a[i]; i++){ bfree(a[i]); a[i] = 0; }` over the array at `base`, with `k`
elements left. -/
def freeArray (base : Nat) : (k i : Nat) → Bytes → Fs → Bytes × Fs
  | 0, _, a, fs => (a, fs)
  | k + 1, i, a, fs =>
    if u32 a (base + 4 * i) = 0 then (a, fs)
    else freeArray base k (i + 1) (put32 a (base + 4 * i) 0) (bfree (u32 a (base + 4 * i)) fs)

/-- The part of `ext2_i_truncate` on the indirect block. -/
def freeIndirect (ino : Bytes) (fs : Fs) : Bytes × Fs :=
  let ib := iBlock ino 12
  if ib = 0 then (ino, fs)
  else
    let r := freeArray 0 nindirect 0 (fs.disk ib) fs
    (setBlock ino 12 0, bfree ib (r.2.bwrite ib r.1))

def iTruncate (p : Priv) (fs : Fs) : Priv × Fs :=
  let r := freeArray 40 ndirect 0 p.ino fs
  let q := freeIndirect r.1 r.2
  ({ p with ino := setSize (setBlocks q.1 0) 0, dirty := true }, q.2)

/-- The loop over the indirect block, whose buffer is locked, calls `ext2_bfree`. -/
def truncateWaits (p : Priv) (fs : Fs) : Bool :=
  let r := freeArray 40 ndirect 0 p.ino fs
  let ib := iBlock r.1 12
  ib ≠ 0 ∧ spaceBlock fs ib ∧ u32 (r.2.disk ib) 0 ≠ 0

/-! Vnodes. -/

def vnodeType (ino : Bytes) : VType :=
  if isDir ino then .dir else if isDev ino then .dev else .file

/-- Undone inode data goes to disk, an orphaned inode is freed. -/
def destroy (n : Nat) (p : Priv) (fs : Fs) : Fs :=
  let fs1 :=
    if p.orphaned then ifree n (iTruncate p fs).2
    else if p.dirty then writeInode n p.ino fs
    else fs
  { fs1 with pages := fs1.pages + 1 }

/-- Undefined where the code panics or waits for ever. -/
def vput (i : Nat) (fs : Fs) : Option Fs :=
  let v := fs.vnodes i
  if v.ref < 1 then none
  else if v.ref = 1 then
    if v.priv.orphaned ∧ truncateWaits v.priv fs then none
    else some (destroy v.inum v.priv (fs.setNode i { v with ref := 0, type := .none }))
  else some (fs.setNode i { v with ref := v.ref - 1 })

/-- The live vnode of inode `inum` (`vfs_iget`). -/
def findVnode (fs : Fs) (inum : Nat) : Option Nat :=
  (List.range nvnode).find? fun i => 0 < (fs.vnodes i).ref ∧ (fs.vnodes i).inum = inum

def vnodeAlloc (inum : Nat) (ino : Bytes) (fs : Fs) : Option Nat × Fs :=
  match (List.range nvnode).find? fun i => (fs.vnodes i).ref = 0 ∧ !fs.taken i with
  | none => (none, fs)
  | some i =>
    if fs.pages = 0 then (none, fs)
    else (some i, { fs.setNode i ⟨1, inum, vnodeType ino, iSize ino, ⟨ino, false, false⟩⟩ with
      pages := fs.pages - 1 })

def iget (inum : Nat) (fs : Fs) : Option Nat × Fs :=
  match findVnode fs inum with
  | some i => (some i, fs.setNode i { fs.vnodes i with ref := (fs.vnodes i).ref + 1 })
  | none => vnodeAlloc inum (readInode fs inum) fs

def writeback (i : Nat) (fs : Fs) : Fs :=
  let v := fs.vnodes i
  if v.priv.dirty then (writeInode v.inum v.priv.ino fs).setPriv i { v.priv with dirty := false }
  else fs

end Xv6Vfs.Ext2
