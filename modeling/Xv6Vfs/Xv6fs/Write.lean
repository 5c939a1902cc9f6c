import Mathlib.Tactic.Linarith
import Xv6Vfs.Lib.Run

/-! Writing to a regular file of xv6fs: `writei`, `xv6fs_write`, `filewrite` and the part of
`sys_open` that truncates and positions a descriptor. Data blocks are not modelled: the inode
holds the bytes by file offset, and a block that `bmap` cannot provide ends the copy loop. -/
namespace Xv6Vfs.Xv6fs

def bsize : Nat := 1024
/-- `MAXFILE*BSIZE`: 12 direct and 256 indirect blocks. -/
def maxFileBytes : Nat := (12 + 256) * bsize
/-- `((MAXOPBLOCKS-1-1-2) / 2) * BSIZE`, the bytes of one transaction. -/
def maxChunk : Nat := ((10 - 1 - 1 - 2) / 2) * bsize
/-- `uint` arithmetic. -/
def u32 (n : Nat) : Nat := n % 2 ^ 32

def oWronly : Nat := 0x001
def oRdwr : Nat := 0x002
def oAppend : Nat := 0x010
def oTrunc : Nat := 0x400

structure Inode where
  size : Nat
  data : Nat → UInt8

/-- The vnode's cached size; its `priv->ip` is the one inode of the model. -/
structure Vnode where
  size : Nat
deriving DecidableEq

structure File where
  vnode : Vnode
  off : Nat
  writable : Bool
  appendable : Bool
deriving DecidableEq

/-- What one write call meets outside the file: the byte at each offset of the user buffer,
if it is mapped, and whether `bmap` finds or allocates a given block. -/
structure Env where
  user : Nat → Option UInt8
  bmap : Nat → Bool

/-- Mapped bytes at the front of the `m` bytes from buffer offset `src` on. -/
def mapped (e : Env) (src : Nat) : Nat → Nat
  | 0 => 0
  | m + 1 => if (e.user src).isSome then mapped e (src + 1) m + 1 else 0

/-- `either_copyin` into the file bytes at `off`: on a fault the bytes in front of the
faulting one have already been copied into the buffer. -/
def copyin (e : Env) (data : Nat → UInt8) (off src m : Nat) : Bool × (Nat → UInt8) :=
  (mapped e src m == m, fun k =>
    if off ≤ k ∧ k < off + mapped e src m then (e.user (src + (k - off))).getD 0 else data k)

/-- The copy loop of `writei`: bytes done, file offset reached, contents. -/
def writeiLoop (e : Env) (src n : Nat) : Nat → Nat → Nat → (Nat → UInt8) → Nat × Nat × (Nat → UInt8)
  | 0, tot, off, data => (tot, off, data)
  | fuel + 1, tot, off, data =>
    if tot < n then
      if e.bmap (off / bsize) then
        let m := min (n - tot) (bsize - off % bsize)
        let c := copyin e data off (src + tot) m
        if c.1 then writeiLoop e src n fuel (tot + m) (off + m) c.2 else (tot, off, c.2)
      else (tot, off, data)
    else (tot, off, data)

def writei (e : Env) (ip : Inode) (src off n : Nat) : Int × Inode :=
  if off > ip.size ∨ u32 (off + n) < off then (-1, ip)
  else if u32 (off + n) > maxFileBytes then (-1, ip)
  else
    let r := writeiLoop e src n n 0 off ip.data
    (r.1, { size := if r.2.1 > ip.size then r.2.1 else ip.size, data := r.2.2 })

/-- The transaction loop of `xv6fs_write`; a chunk of length `n1` that is not fully
written ends it. -/
def writeLoop (e : Env) (off n : Nat) : Nat → Nat → Inode → Nat × Inode
  | 0, i, ip => (i, ip)
  | fuel + 1, i, ip =>
    if i < n then
      let n1 := min (n - i) maxChunk
      let r := writei e ip i (u32 (off + i)) n1
      let i' := if r.1 > 0 then i + r.1.toNat else i
      if r.1 ≠ n1 then (i', r.2) else writeLoop e off n fuel i' r.2
    else (i, ip)

def xv6fsWrite (e : Env) (vp : Vnode) (ip : Inode) (n : Int) (off : Nat) : Int × Vnode × Inode :=
  let r := writeLoop e off n.toNat n.toNat 0 ip
  (if (r.1 : Int) = n then n else -1,
    if 0 < r.1 ∧ u32 (off + r.1) > r.2.size then { vp with size := r.2.size } else vp,
    r.2)

/-- The `FD_INODE` branch of `filewrite`. -/
def filewrite (e : Env) (f : File) (ip : Inode) (n : Int) : Int × File × Inode :=
  if f.writable then
    let off := if f.appendable then f.vnode.size else f.off
    let r := xv6fsWrite e f.vnode ip n off
    (r.1, { f with vnode := r.2.1, off := if r.1 > 0 then u32 (off + r.1.toNat) else off }, r.2.2)
  else (-1, f, ip)

/-- `xv6fs_vnode_from_inode`: every lookup makes a fresh vnode with the inode's size. -/
def vnodeFromInode (ip : Inode) : Vnode := { size := ip.size }

/-- `xv6fs_truncate` through a vnode of the inode. -/
def xv6fsTruncate (vp : Vnode) (ip : Inode) : Vnode × Inode :=
  ({ vp with size := 0 }, { ip with size := 0 })

/-- `sys_open` of the file, after `vfs_open` and the descriptor allocation succeeded. -/
def sysOpen (omode : Nat) (ip : Inode) : File × Inode :=
  let vp := vnodeFromInode ip
  let t := if omode &&& oTrunc ≠ 0 then xv6fsTruncate vp ip else (vp, ip)
  ({ vnode := t.1
     off := if omode &&& oAppend ≠ 0 then t.1.size else 0
     writable := omode &&& oWronly ≠ 0 || omode &&& oRdwr ≠ 0
     appendable := omode &&& oAppend ≠ 0 }, t.2)

/-- The file and its open descriptions, in the order of the opens. A duplicated or inherited
descriptor names the same description. -/
structure State where
  ip : Inode
  files : List File

inductive Op where
  | open (omode : Nat)
  | write (fd : Nat) (n : Int) (e : Env)

def exec : Op → State → Option State
  | .open omode, s =>
    let r := sysOpen omode s.ip
    some { ip := r.2, files := s.files ++ [r.1] }
  | .write fd n e, s =>
    (s.files[fd]?).map fun f =>
      let r := filewrite e f s.ip n
      { ip := r.2.2, files := s.files.set fd r.2.1 }

end Xv6Vfs.Xv6fs
