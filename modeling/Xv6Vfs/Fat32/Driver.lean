import Xv6Vfs.Fat32.Short
import Xv6Vfs.Vfs.Vnode

/-! The FAT32 driver: writes to a mounted device, creation and removal of names, and the vnodes of
the mount. Undefined are a panic, a loop over clusters that would not end, and a change of the allocation
table that waits for a buffer of its own. -/
namespace Xv6Vfs.Fat32
open Xv6Vfs.Bytes Xv6Vfs.Vfs

/-- The fields of `struct fat32_mount` that writes use besides those of a search. -/
structure Volume extends Mount where
  numFats : Nat
  fatSz : Nat
  totClus : Nat
  rootClus : Nat

def eoc : Nat := 0x0FFFFFFF
def attrArchive : UInt8 := 0x20

/-- More steps than there are clusters: a loop over an unchanged table that takes as many meets a
cluster twice. -/
def chainFuel : Nat := 2 ^ 28

/-! ### Sectors and the allocation table -/

/-- `n` bytes of `src` go to byte `off` of a sector. -/
def poke (sec off : Nat) (src : Bytes) (n : Nat) (disk : Disk) : Disk :=
  Function.update disk (sec / spb) (blit (disk (sec / spb)) (sec % spb * bps + off) src n)

/-- A write to the first allocation table goes to the second one too. -/
def swrite (v : Volume) (sec off : Nat) (src : Bytes) (n : Nat) (disk : Disk) : Disk :=
  let disk1 := poke sec off src n disk
  if 1 < v.numFats ∧ v.rsvdSecCnt ≤ sec ∧ sec < uint (v.rsvdSecCnt + v.fatSz) then
    poke (uint (sec + v.fatSz)) off src n disk1
  else disk1

/-- `*e = (*e & 0xF0000000) | (val & 0x0FFFFFFF)`. -/
def putEntry (sec off val : Nat) (disk : Disk) : Disk :=
  poke sec off (le (u32 (sread disk sec off) 0 / 2 ^ 28 * 2 ^ 28 + val % 2 ^ 28)) 4 disk

def writeFat (v : Volume) (c val : Nat) (disk : Disk) : Disk :=
  let fo := uint (c * 4)
  let sec := v.rsvdSecCnt + fo / bps
  let disk1 := putEntry sec (fo % bps) val disk
  if 1 < v.numFats then putEntry (uint (sec + v.fatSz)) (fo % bps) val disk1 else disk1

/-- `write_fat` reads the block of the copy while it holds that of the entry, and waits for itself if they are one. -/
def fatWaits (v : Volume) (c : Nat) : Bool :=
  let sec := v.rsvdSecCnt + uint (c * 4) / bps
  1 < v.numFats ∧ uint (sec + v.fatSz) / spb = sec / spb

def allocClus (v : Volume) (disk : Disk) : Option (Nat × Disk) :=
  ((List.range' 2 (uint (v.totClus + 2) - 2)).find? fun c => readFat v.toMount disk c = 0).map fun c =>
    (c, writeFat v c eoc disk)

def freeChain (v : Volume) : (fuel c : Nat) → Disk → Option Disk
  | 0, _, _ => none
  | fuel + 1, c, disk =>
    if 2 ≤ c ∧ c < eocMin then
      if fatWaits v c then none
      else
        let n := readFat v.toMount disk c
        let disk1 := writeFat v c 0 disk
        if eocMin ≤ n then some disk1 else freeChain v fuel n disk1
    else some disk

/-- All sectors of a cluster; the first one gets `head`, the others are cleared. -/
def fillClus (v : Volume) (c : Nat) (head : Bytes) (disk : Disk) : Disk :=
  (List.range v.secPerClus).foldl (fun disk s =>
    swrite v (uint (clusToSec v.toMount c + s)) 0 (if s = 0 then head else fun _ => 0) bps disk) disk

/-! ### Loops over the slots of a directory -/

section Sweep

variable {σ ρ : Type}

/-- A loop over slots that `step` may leave with a result. -/
def sweep (step : Bytes → σ → Sum ρ σ) : List Bytes → σ → Sum ρ σ
  | [], st => .inr st
  | d :: ds, st =>
    match step d st with
    | .inl r => .inl r
    | .inr st => sweep step ds st

/-- The same over the clusters of a chain. -/
def sweepChain (fm : Mount) (disk : Disk) (step : Bytes → σ → Sum ρ σ) : (fuel c : Nat) → σ → Option (Sum ρ σ)
  | 0, _, _ => none
  | fuel + 1, c, st =>
    if 2 ≤ c ∧ c < eocMin then
      match sweep step (clusterSlots fm disk c) st with
      | .inl r => some (.inl r)
      | .inr st => sweepChain fm disk step fuel (readFat fm disk c) st
    else some (.inr st)

end Sweep

def isFree (d : Bytes) : Bool := d 0 = 0x00 ∨ d 0 = 0xE5

def visitShortname (sn : List UInt8) (d : Bytes) (_ : Unit) : Sum Bool Unit :=
  if d 0 = 0x00 then .inl false
  else if d 0 = 0xE5 ∨ dirAttr d = attrLongName then .inr ()
  else if dirName d = sn then .inl true
  else .inr ()

def shortnameExists (fm : Mount) (disk : Disk) (dv : DirNode) (sn : List UInt8) : Option Bool :=
  if dv.attrs &&& attrDirectory = 0 then some false
  else (sweepChain fm disk (visitShortname sn) chainFuel dv.firstClus ()).map (·.elim id fun _ => false)

/-- The local variables of `dfree`. -/
structure Gap where
  pos : Nat
  consec : Nat
  firstFree : Nat

def visitFree (need : Nat) (d : Bytes) (g : Gap) : Sum Nat Gap :=
  if isFree d then
    let first := if g.consec = 0 then g.pos else g.firstFree
    if need ≤ g.consec + 1 then .inl first else .inr ⟨g.pos + 32, g.consec + 1, first⟩
  else .inr ⟨g.pos + 32, 0, g.firstFree⟩

/-- The last cluster of a chain. -/
def lastClus (fm : Mount) (disk : Disk) : (fuel c : Nat) → Option Nat
  | 0, _ => none
  | fuel + 1, c =>
    if 2 ≤ c ∧ c < eocMin then
      if eocMin ≤ readFat fm disk c then some c else lastClus fm disk fuel (readFat fm disk c)
    else some c

/-- `dfree` on a directory with the first cluster `first`: the offset for the first of the entries, which is a `uint`,
and the first cluster, which may be new. -/
def dfree (v : Volume) (first lfnCnt : Nat) (disk : Disk) : Option (Option (Nat × Nat) × Disk) :=
  (sweepChain v.toMount disk (visitFree (lfnCnt + 1)) chainFuel first ⟨0, 0, 0⟩).bind fun r =>
    match r with
    | .inl off => some (some (uint off, first), disk)
    | .inr g =>
      if first = 0 then
        match allocClus v disk with
        | none => some (none, disk)
        | some (newc, disk1) =>
          if fatWaits v newc then none
          else some (some (0, newc), fillClus v newc (fun _ => 0) (writeFat v newc eoc disk1))
      else
        (lastClus v.toMount disk chainFuel first).bind fun c =>
          match allocClus v disk with
          | none => some (none, disk)
          | some (newc, disk1) =>
            if fatWaits v newc ∨ fatWaits v c then none
            else some (some (uint g.pos, first),
              fillClus v newc (fun _ => 0) (writeFat v newc eoc (writeFat v c newc disk1)))

/-- Cluster number `i` of a chain. -/
def clusAt (fm : Mount) (disk : Disk) : (i c : Nat) → Option Nat
  | 0, c => some c
  | i + 1, c => if eocMin ≤ readFat fm disk c then none else clusAt fm disk i (readFat fm disk c)

/-- `epc * 32`, the bytes of the entries of a cluster. -/
def clusBytes (fm : Mount) : Nat := fm.secPerClus * bps / 32 * 32

/-- Sector and offset of byte `off` of a directory, if its chain is long enough. -/
def locate (fm : Mount) (disk : Disk) (first off : Nat) : Option (Nat × Nat) :=
  (clusAt fm disk (off / clusBytes fm) first).map fun c =>
    let bo := off % (fm.secPerClus * bps)
    (uint (clusToSec fm c + bo / bps), bo % bps)

def dwriteRaw (v : Volume) (first off : Nat) (entry : Bytes) (disk : Disk) : Option Disk :=
  (locate v.toMount disk first off).map fun p => swrite v p.1 p.2 entry 32 disk

/-- Entries from `off` on, a `uint`; whether all were written. -/
def dwriteAll (v : Volume) (first : Nat) : List Bytes → (off : Nat) → Disk → Bool × Disk
  | [], _, disk => (true, disk)
  | d :: ds, off, disk =>
    match dwriteRaw v first (uint off) d disk with
    | none => (false, disk)
    | some disk1 => dwriteAll v first ds (off + 32) disk1

/-! ### Entries of a new name -/

def lfnEntriesNeeded (namelen : Nat) : Nat := (namelen + 12) / 13

def isAlnum (c : UInt8) : Bool := 65 ≤ c ∧ c ≤ 90 ∨ 48 ≤ c ∧ c ≤ 57

/-- Six letters and digits of the name, a tilde and a number of at most two digits. -/
def genShortName (name : Name) (tail : Nat) : List UInt8 :=
  let tmp := (((name.filter (· ≠ 46)).map upper).filter isAlnum).take 6
  let ti := if 100 ≤ tail then 99 else tail
  tmp ++ List.replicate (6 - tmp.length) 95 ++
    126 :: (if 10 ≤ ti then [48 + UInt8.ofNat (ti / 10), 48 + UInt8.ofNat (ti % 10)] else [48 + UInt8.ofNat ti, 32]) ++
    [32, 32]

/-- The loop of `fcreate` over tails, with `k` to go; the name with the last one is used even if it
exists. -/
def pickShortName (ex : List UInt8 → Option Bool) (nm : Name) : (k tail : Nat) → Option (List UInt8)
  | 0, tail => some (genShortName nm (tail - 1))
  | k + 1, tail =>
    (ex (genShortName nm tail)).bind fun e =>
      if e then pickShortName ex nm k (tail + 1) else some (genShortName nm tail)

/-- `uname`: the characters, NUL and padding. -/
def uname (name : Name) (total : Nat) : List Nat :=
  let u := (name.map UInt8.toNat).take total
  u ++ 0 :: List.replicate (total - (u.length + 1)) 0xFFFF

def unitBytes (u : Nat) : List UInt8 := [UInt8.ofNat u, UInt8.ofNat (u / 256)]

/-- `struct fat32_lfn` number `ei`, counted from 0, with 13 characters. -/
def lfnEntry (cksum : UInt8) (units : List Nat) (ei : Nat) (last : Bool) : Bytes :=
  ofList (UInt8.ofNat (if last then (ei + 1) ||| 0x40 else ei + 1) :: (units.take 5).flatMap unitBytes ++
    [attrLongName, 0, cksum] ++ ((units.drop 5).take 6).flatMap unitBytes ++ [0, 0] ++
    ((units.drop 11).take 2).flatMap unitBytes)

/-- The entries of a long name, the last part first. -/
def lfnEntries (name : Name) (lfnCnt : Nat) (cksum : UInt8) : List Bytes :=
  (List.range lfnCnt).reverse.map fun ei =>
    lfnEntry cksum (((uname name (lfnCnt * 13)).drop (ei * 13)).take 13) ei (ei = lfnCnt - 1)

/-- `struct fat32_dirent` of an empty file or a new directory. -/
def dirent (name : List UInt8) (attr : UInt8) (c : Nat) : Bytes :=
  put16 (put16 (ofList (name ++ [attr])) 20 (c / 65536)) 26 c

def dwriteLfn (v : Volume) (first off lfnCnt : Nat) (name : Name) (de : Bytes) (disk : Disk) : Bool × Disk :=
  dwriteAll v first (lfnEntries name lfnCnt (lfnChecksum (dirName de)) ++ [de]) off disk

/-- The first sector of a new directory: "." and "..". -/
def dotSector (c parent : Nat) : Bytes :=
  blit (dirent (pad 11 dot) attrDirectory c) 32 (dirent (pad 11 dotdot) attrDirectory parent) 32

/-! ### Vnodes -/

/-- `struct fat32_vnode`. -/
structure Priv where
  firstClus : Nat
  fileSize : Nat
  attrs : UInt8
  pdirClus : Nat
  dentOff : Nat

structure Node where
  ref : Nat
  type : VType
  inum : Nat
  ikey : Nat
  size : Nat
  priv : Priv

/-- One mount: the device and the vnode table. A slot with `taken` is in use by another mount. -/
structure Fs where
  disk : Disk
  vnodes : Nat → Node
  taken : Nat → Bool
  pages : Nat

def Fs.setNode (fs : Fs) (i : Nat) (n : Node) : Fs := { fs with vnodes := Function.update fs.vnodes i n }

/-- `vfs_iget` on this mount. -/
def findVnode (fs : Fs) (inum ikey : Nat) : Option Nat :=
  (List.range nvnode).find? fun i =>
    0 < (fs.vnodes i).ref ∧ (fs.vnodes i).inum = inum ∧ (fs.vnodes i).ikey = ikey

def nodeType (attrs : UInt8) : VType := if attrs &&& attrDirectory = 0 then .file else .dir

def fvalloc (c sz : Nat) (attrs : UInt8) (pdir deoff : Nat) (fs : Fs) : Option Nat × Fs :=
  match findVnode fs pdir deoff with
  | some i => (some i, fs.setNode i { fs.vnodes i with ref := (fs.vnodes i).ref + 1 })
  | none =>
    match (List.range nvnode).find? fun i => (fs.vnodes i).ref = 0 ∧ !fs.taken i with
    | none => (none, fs)
    | some i =>
      if fs.pages = 0 then (none, fs)
      else (some i, { fs.setNode i ⟨1, nodeType attrs, pdir, deoff, sz, ⟨c, sz, attrs, pdir, deoff⟩⟩ with
        pages := fs.pages - 1 })

def vput (i : Nat) (fs : Fs) : Option Fs :=
  let n := fs.vnodes i
  if n.ref < 1 then none
  else if n.ref = 1 then some { fs.setNode i { n with ref := 0, type := .none } with pages := fs.pages + 1 }
  else some (fs.setNode i { n with ref := n.ref - 1 })

def Node.dirNode (n : Node) : DirNode := ⟨n.priv.firstClus, n.priv.attrs⟩

/-- `dv->first_clus = c`. -/
def Fs.setFirst (fs : Fs) (i c : Nat) : Fs :=
  let n := fs.vnodes i
  fs.setNode i { n with priv := { n.priv with firstClus := c } }

/-! ### Operations -/

/-- `dlookup` in the directory of vnode `d`. -/
def search (v : Volume) (fs : Fs) (d : Nat) (nm : Name) (junk : Nat → Nat) : Option (Option (Bytes × Nat)) :=
  dlookup v.toMount fs.disk (fs.vnodes d).dirNode nm junk chainFuel

/-- `strncmp(nm, ".", 14) == 0`, and the same for "..". -/
def flookup (v : Volume) (d : Nat) (nm : Name) (junk : Nat → Nat) (fs : Fs) : Option (Option Nat × Fs) :=
  let n := fs.vnodes d
  if nm = dot ∨ nm = dotdot ∧ n.priv.firstClus = v.rootClus then
    some (some d, fs.setNode d { n with ref := n.ref + 1 })
  else
    (search v fs d nm junk).map fun r =>
      match r with
      | none => (none, fs)
      | some (de, off) => fvalloc (fstClus de) (fileSize de) (dirAttr de) n.priv.firstClus off fs

/-- `if(c) free_chain(fm, c)`. -/
def releaseClus (v : Volume) (c : Nat) (disk : Disk) : Option Disk :=
  if c = 0 then some disk else freeChain v chainFuel c disk

def newAttr (type : VType) : UInt8 := if type = .dir then attrDirectory else attrArchive

/-- A directory gets its cluster before its entry. -/
def newClus (v : Volume) (type : VType) (disk : Disk) : Option (Nat × Disk) :=
  if type = .dir then allocClus v disk else some (0, disk)

def lfnCount (nm : Name) : Nat := if fits83 nm then 0 else lfnEntriesNeeded nm.length

/-- The short name of a new entry in the directory of vnode `d`. -/
def newShortName (v : Volume) (d : Nat) (nm : Name) (fs : Fs) : Option (List UInt8) :=
  if fits83 nm then some (name83 nm)
  else pickShortName (shortnameExists v.toMount fs.disk (fs.vnodes d).dirNode) nm 99 1

/-- The last part of `fcreate`: the entries go to `off`, a directory gets "." and "..". On failure the
vnode and the cluster are given back. -/
def enter (v : Volume) (d : Nat) (nm : Name) (type : VType) (c off vn : Nat) (de : Bytes) (fs : Fs) :
    Option (Option Nat × Fs) :=
  let first := (fs.vnodes d).priv.firstClus
  let w := dwriteLfn v first off (lfnCount nm) nm de fs.disk
  if w.1 then
    some (some vn, { fs with
      disk := if type = .dir then writeFat v c eoc (fillClus v c (dotSector c first) w.2) else w.2 })
  else
    (vput vn { fs with disk := w.2 }).bind fun fs1 =>
      (releaseClus v c fs1.disk).map fun disk1 => (none, { fs1 with disk := disk1 })

/-- The part of `fcreate` after a place for the entries was found. -/
def place (v : Volume) (d : Nat) (nm : Name) (type : VType) (c off : Nat) (fs : Fs) : Option (Option Nat × Fs) :=
  (newShortName v d nm fs).bind fun sn =>
    let de := dirent sn (newAttr type) c
    let r := fvalloc c 0 (newAttr type) (fs.vnodes d).priv.firstClus (uint (off + lfnCount nm * 32)) fs
    match r.1 with
    | none => (releaseClus v c fs.disk).map fun disk1 => (none, { fs with disk := disk1 })
    | some vn => enter v d nm type c off vn de r.2

/-- `fcreate` of a caller that asks for the vnode. -/
def fcreate (v : Volume) (d : Nat) (nm : Name) (type : VType) (junk : Nat → Nat) (fs : Fs) :
    Option (Option Nat × Fs) :=
  if (fs.vnodes d).type ≠ .dir then some (none, fs)
  else
    (search v fs d nm junk).bind fun ex =>
      match ex, newClus v type fs.disk with
      | some _, _ => some (none, fs)
      | none, none => some (none, fs)
      | none, some (c, disk1) =>
        if type = .dir ∧ fatWaits v c then none
        else (dfree v (fs.vnodes d).priv.firstClus (lfnCount nm) disk1).bind fun g =>
          match g.1 with
          | none => (releaseClus v c g.2).map fun disk2 => (none, { fs with disk := disk2 })
          | some (off, first) => place v d nm type c off ({ fs with disk := g.2 }.setFirst d first)

/-- The vnode of a new directory is dropped at once. -/
def fmkdir (v : Volume) (d : Nat) (nm : Name) (junk : Nat → Nat) (fs : Fs) : Option (Bool × Fs) :=
  (fcreate v d nm .dir junk fs).bind fun r =>
    match r.1 with
    | none => some (false, r.2)
    | some vn => (vput vn r.2).map fun fs1 => (true, fs1)

/-- The slot with number `i` is used by a file; slots 0 and 1 are "." and "..". -/
def visitEmpty (d : Bytes) (i : Nat) : Sum Unit Nat := if 2 ≤ i ∧ !isFree d then .inl () else .inr (i + 1)

def dirIsEmpty (fm : Mount) (disk : Disk) (c : Nat) : Option Bool :=
  (sweepChain fm disk visitEmpty chainFuel c 0).map (·.elim (fun _ => false) fun _ => true)

/-- `count_lfn_backwards` from slot `k` on down, with number `seq` expected. -/
def countLfnBackwards (fm : Mount) (disk : Disk) (first : Nat) : (k seq : Nat) → Nat
  | 0, _ => 0
  | k + 1, seq =>
    match locate fm disk first (32 * k) with
    | none => 0
    | some p =>
      let e := sread disk p.1 p.2
      if dirAttr e = attrLongName ∧ lfnSeq e = seq then 1 + countLfnBackwards fm disk first k (seq + 1) else 0

/-- `n` slots from `off` on are marked as deleted; whether all were reached. -/
def markDeleted (v : Volume) (first : Nat) : (n off : Nat) → Disk → Bool × Disk
  | 0, _, disk => (true, disk)
  | n + 1, off, disk =>
    match locate v.toMount disk first off with
    | none => (false, disk)
    | some p => markDeleted v first n (off + 32) (swrite v p.1 p.2 (fun _ => 0xE5) 1 disk)

def funlink (v : Volume) (d : Nat) (nm : Name) (junk : Nat → Nat) (fs : Fs) : Option (Bool × Fs) :=
  let first := (fs.vnodes d).priv.firstClus
  (search v fs d nm junk).bind fun r =>
    match r with
    | none => some (false, fs)
    | some (de, off) =>
      (if dirAttr de &&& attrDirectory = 0 then some true else dirIsEmpty v.toMount fs.disk (fstClus de)).bind fun e =>
        if e then
          (releaseClus v (fstClus de) fs.disk).map fun disk1 =>
            let n := countLfnBackwards v.toMount disk1 first (off / 32) 1
            let w := markDeleted v first (n + 1) (off - n * 32) disk1
            (w.1, { fs with disk := w.2 })
        else some (false, fs)

end Xv6Vfs.Fat32
