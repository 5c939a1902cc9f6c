import Xv6Vfs.Lib.Bytes

/-! The FAT32 driver: sectors, the allocation table and directory slots of a mounted device. The
device is what `bread` returns, which is never 0 for the device of a mount. -/
namespace Xv6Vfs.Fat32
open Xv6Vfs.Bytes

/-- What a search reads of `struct fat32_mount`; a sector has 512 bytes. -/
structure Mount where
  secPerClus : Nat
  rsvdSecCnt : Nat
  firstDataSec : Nat

abbrev Disk := Nat → Bytes

def bps : Nat := 512
/-- Sectors to a block of the buffer cache. -/
def spb : Nat := 2
def eocMin : Nat := 0x0FFFFFF8

/-- `uint` arithmetic. -/
def uint (n : Nat) : Nat := n % 2 ^ 32

/-- The bytes that `sread` copies from. -/
def sread (disk : Disk) (sec off : Nat) : Bytes := drop (disk (sec / spb)) (sec % spb * bps + off)

def clusToSec (fm : Mount) (c : Nat) : Nat := uint (uint (c + (2 ^ 32 - 2)) * fm.secPerClus + fm.firstDataSec)

def readFat (fm : Mount) (disk : Disk) (c : Nat) : Nat :=
  let fo := uint (c * 4)
  u32 (sread disk (fm.rsvdSecCnt + fo / bps) (fo % bps)) 0 % 2 ^ 28

/-- The 32-byte slots of a cluster, in the order of the loops over sectors and offsets. -/
def clusterSlots (fm : Mount) (disk : Disk) (c : Nat) : List Bytes :=
  (List.range fm.secPerClus).flatMap fun s =>
    (List.range (bps / 32)).map fun k => sread disk (uint (clusToSec fm c + s)) (32 * k)

/-! Fields of `struct fat32_dirent` and `struct fat32_lfn`. -/

def dirName (d : Bytes) : List UInt8 := (List.range 11).map d
def dirAttr (d : Bytes) : UInt8 := d 11
def fstClus (d : Bytes) : Nat := u16 d 20 * 65536 + u16 d 26
def fileSize (d : Bytes) : Nat := u32 d 28

def attrDirectory : UInt8 := 0x10
def attrLongName : UInt8 := 0x0F

/-- Sequence number without the flag `LFN_LAST`. -/
def lfnSeq (d : Bytes) : Nat := (d 0).toNat &&& 0xBF
def lfnLast (d : Bytes) : Bool := (d 0).toNat.testBit 6
def lfnCksum (d : Bytes) : UInt8 := d 13
/-- The characters of `name1`, `name2` and `name3`. -/
def lfnUnits (d : Bytes) : List Nat :=
  (List.range 5).map (fun i => u16 d (1 + 2 * i)) ++ (List.range 6).map (fun i => u16 d (14 + 2 * i)) ++
    (List.range 2).map fun i => u16 d (28 + 2 * i)

end Xv6Vfs.Fat32
