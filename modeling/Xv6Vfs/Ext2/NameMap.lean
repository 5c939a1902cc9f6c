import Xv6Vfs.Ext2.Places

/-! A directory under `ext2_dir_add` and `ext2_unlink`: its blocks stay well formed, and it is a map from names. -/
namespace Xv6Vfs.Ext2
open Xv6Vfs.Bytes Xv6Vfs.Vfs Xv6Vfs.Run Function List Nat

variable {fs : Fs} {y : Ino} {big : Bool} {i m n : Nat}

/-- The `rec_len` values tile the block, each is a multiple of 4 and at least `8 + name_len`. -/
structure WellFormed (data : Bytes) : Prop where
  tiles : Tiles (deRecLen data) bsize 0 (slots data)
  aligned : ∀ a ∈ slots data, deRecLen data a % 4 = 0
  fits : ∀ a ∈ slots data, 8 + deNameLen data a ≤ deRecLen data a

theorem DirBlock.wellFormed {data : Bytes} (h : DirBlock data) (ha : Aligned data) : WellFormed data where
  tiles := h.tiles
  aligned := ha
  fits a hm := (entryLen_bounds (deNameLen data a)).1.trans (h.fits a hm)

/-- Every block of the directory with vnode `d`. -/
structure DirFormed (d : Nat) (fs : Fs) : Prop where
  whole : iSize (fs.vnodes d).priv.ino % bsize = 0
  there : ∀ k < iSize (fs.vnodes d).priv.ino / bsize, lbnBlock fs (fs.vnodes d).priv.ino k ≠ 0
  block : ∀ k < iSize (fs.vnodes d).priv.ino / bsize, WellFormed (fs.disk (lbnBlock fs (fs.vnodes d).priv.ino k))

/-- Changes of one directory: `ext2_dir_add` and `ext2_unlink`, the latter at time `t`. -/
inductive DirOp where
  | add (name : Name) (inum ftype : Nat)
  | remove (t : Nat) (name : Name)

/-- The driver, and the inode number last added for each name that is there. -/
structure Book where
  fs : Fs
  names : Name → Option Nat

def DirOp.exec (d : Nat) : DirOp → Book → Option Book
  | .add name inum ftype, s => (dirAdd d name inum ftype s.fs).map fun r =>
    ⟨r.2, if r.1 then update s.names name (some inum) else s.names⟩
  | .remove t name, s => (unlink t d name s.fs).map fun r =>
    ⟨r.2, if r.1 then update s.names name none else s.names⟩

/-- A name of 1 to 255 bytes that is not there is added, and names of inodes in use are removed. -/
def DirOp.Proper (s : Book) : DirOp → Prop
  | .add name inum _ => goodName name = true ∧ s.names name = none ∧ inum ≠ 0 ∧ inum < 4294967296
  | .remove _ name => 0 ∉ name ∧ ∀ m ∈ s.names name, ValidIno s.fs m ∧ inodeUsed s.fs m = true

instance (s : Book) : (op : DirOp) → Decidable (op.Proper s)
  | .add _ _ _ => inferInstanceAs (Decidable (_ ∧ _))
  | .remove _ _ => inferInstanceAs (Decidable (_ ∧ _))

/-- The name of the directory itself is not removed, and a device that loses its last name has no number where other
inodes have their first block and the indirect one. -/
def DirOp.Spares (d : Nat) (s : Book) : DirOp → Prop
  | .add _ _ _ => True
  | .remove _ name => ∀ m ∈ s.names name, m ≠ (s.fs.vnodes d).inum ∧
    (isDev (readInode s.fs m) = true → iLinks (readInode s.fs m) = 1 →
      iBlock (inodeNow s.fs m) 0 = 0 ∧ iBlock (inodeNow s.fs m) 12 = 0)

instance (d : Nat) (s : Book) : (op : DirOp) → Decidable (op.Spares d s)
  | .add _ _ _ => inferInstanceAs (Decidable True)
  | .remove _ name => inferInstanceAs (Decidable (∀ m ∈ s.names name, _ ∧ (_ → _ → _ ∧ _)))

/-- `ext2_dir_lookup` answers with the vnode of inode `i`, unless there is no vnode or no page to be had. -/
structure FoundAs (d : Nat) (fs : Fs) (name : Name) (i : Nat) : Prop where
  search : dirLookup d name fs = some (iget i fs)
  inum : ∀ j, (iget i fs).1 = some j → ((iget i fs).2.vnodes j).inum = i
  room : (iget i fs).1 = none → (∀ j < nvnode, (fs.vnodes j).ref = 0 → fs.taken j = true) ∨ fs.pages = 0

/-- `ext2_dir_lookup` on every string. -/
def Answers (d : Nat) (s : Book) : Prop :=
  ∀ name, 0 ∉ name → match s.names name with
    | some i => FoundAs d s.fs name i
    | none => dirLookup d name s.fs = some (none, s.fs)

theorem iget_vnode_inum {j : Nat} (h : (iget i fs).1 = some j) : ((iget i fs).2.vnodes j).inum = i := by
  rw [iget] at h ⊢
  split at h
  · rename_i k hk
    cases h
    have hp := find?_some hk
    rw [decide_eq_true_eq] at hp
    rw [setNode_vnodes_self]
    exact hp.2
  · rw [vnodeAlloc] at h ⊢
    split at h
    · cases h
    · split at h
      · cases h
      · rename_i hpages
        cases h
        rw [if_neg hpages]
        exact congrArg Node.inum (setNode_vnodes_self fs j _)

theorem iget_no_room (h : (iget i fs).1 = none) :
    (∀ j < nvnode, (fs.vnodes j).ref = 0 → fs.taken j = true) ∨ fs.pages = 0 := by
  rw [iget] at h
  split at h
  · cases h
  · rw [vnodeAlloc] at h
    split at h
    · rename_i hf
      refine .inl fun j hj href => ?_
      have hnone := find?_eq_none.mp hf j (mem_range.mpr hj)
      by_contra htaken
      rw [Bool.not_eq_true] at htaken
      exact hnone (by simp [href, htaken])
    · split at h
      · rename_i hpages
        exact .inr hpages
      · cases h

/-! ### One step -/

/-- The book is right about inode `n`, a directory with vnode `d`. -/
structure Booked (n d : Nat) (s : Book) (A : Abs) (x : Ino) (v : Vn) : Prop where
  rep : Rep s.fs A
  here : A n = some x
  node : x.vn = some v
  slot : v.slot = d
  dir : x.kind = .dir
  aligned : ∀ k < x.size / bsize, Aligned (x.block k)
  table : Indexes x.entry s.names

section Step

variable {n d : Nat} {s : Book} {A : Abs} {x : Ino} {v : Vn} {name : Name}

theorem Rep.kind_dev (h : Rep fs A) (hy : A m = some y) (hk : y.kind = .dev) : isDev (readInode fs m) = true := by
  have hm := (h.ino m y hy).mode
  rw [Ino.kind, ← hm, modeKind] at hk
  split at hk
  · cases hk
  · split at hk
    · rename_i hdev
      rw [isDev]
      exact decide_eq_true hdev
    · cases hk

theorem Rep.last_link (h : Rep fs A) (hy : A m = some y) (hk : y.kind = .dev) (hz : y.lessLinks = 0) :
    iLinks (readInode fs m) = 1 := by
  have hlinks := (h.ino m y hy).links
  have hlt : iLinks (readInode fs m) < 65536 := u16_lt _ _
  rw [Ino.lessLinks, hk] at hz
  rw [hlinks] at hlt ⊢
  simp only [reduceCtorEq, if_false] at hz
  omega

/-- Slots are not moved, and no entry whose name is still there. -/
structure Steady (s' : Book) (x x' : Ino) : Prop where
  finer : Finer x x'
  kept : ∀ p i name, x.entry p = some (i, name) → s'.names name = some i → x'.entry p = some (i, name)

section

variable (h : Booked n d s A x v)
include h

theorem Booked.add {inum : Nat} (hg : goodName name = true) (hnew : s.names name = none)
    (hpos : inum ≠ 0) (hi : inum < 4294967296) (ftype : Nat) :
    ∃ s' A' x' v', DirOp.exec d (.add name inum ftype) s = some s' ∧ Booked n d s' A' x' v' ∧ Steady s' x x' := by
  rcases h.rep.dirAdd h.here h.node h.dir hg inum ftype with ⟨ok, fs', x', hadd, hadded, hrep⟩
  have hd := h.rep.dirOk h.here h.dir
  rcases hadded.places hd h.node hi hpos (goodName_iff.mp hg).2.1 with ⟨hfiner, hins, hkind, v', hv', hslot⟩
  rw [h.slot] at hadd hslot
  refine ⟨_, _, x', v', by rw [DirOp.exec, hadd]; rfl, ⟨hrep, update_self .., hv', hslot, hkind.trans h.dir,
    hfiner.aligned h.aligned, ?_⟩, hfiner, fun q i other hq _ => ?_⟩
  · cases ok with
    | false =>
      have hsame : x'.entry = x.entry := hins
      rw [hsame]
      exact h.table
    | true =>
      rcases hins with ⟨p, hfree, hentry⟩
      rw [hentry]
      exact h.table.insert hfree hnew
  · cases ok with
    | false => exact (congrFun hins q).trans hq
    | true =>
      rcases hins with ⟨p, hfree, hentry⟩
      rw [hentry, update_of_ne, hq]
      rintro rfl
      rw [hfree] at hq
      cases hq

theorem Booked.remove (t : Nat) (hproper : DirOp.Proper s (.remove t name))
    (hspares : DirOp.Spares d s (.remove t name)) :
    ∃ s' A' x' v', DirOp.exec d (.remove t name) s = some s' ∧ Booked n d s' A' x' v' ∧ Steady s' x x' := by
  have hd := h.rep.dirOk h.here h.dir
  have hinum := ((h.rep.ino n x h.here).node v h.node).inum
  rw [h.slot] at hinum
  have hnamed : ∀ m, (m, name) ∈ x.ents → m ≠ n ∧ ∃ y, A m = some y ∧ (y.kind = .dev → y.lessLinks = 0 →
      (iget m s.fs).1 ≠ none → iBlock (inodeNow s.fs m) 0 = 0 ∧ iBlock (inodeNow s.fs m) 12 = 0) := by
    intro m hm
    cases (mem_ents_iff hd).mp hm with
    | intro p hp =>
      have hname := h.table.sound hp
      rcases hproper.2 m hname with ⟨hvalid, hused⟩
      cases hy : A m with
      | none =>
        have hfree := h.rep.free m hvalid hy
        rw [hused] at hfree
        cases hfree
      | some y =>
        exact ⟨hinum ▸ (hspares m hname).1, y, rfl, fun hk hz _ =>
          (hspares m hname).2 (h.rep.kind_dev hy hk) (h.rep.last_link hy hk hz)⟩
  rcases h.rep.unlink h.here h.node h.dir hproper.1 hnamed t with ⟨ok, fs', A', hun, hunlinked, hrep⟩
  rcases hunlinked.places hd h.node with ⟨x', hx', hfiner, her, hkind, v', hv', hslot⟩
  rw [h.slot] at hun hslot
  refine ⟨_, A', x', v', by rw [DirOp.exec, hun]; rfl, ⟨hrep, hx', hv', hslot, hkind.trans h.dir,
    hfiner.aligned h.aligned, ?_⟩, hfiner, fun q i other hq hstill => ?_⟩
  · cases ok with
    | false =>
      have hsame : x'.entry = x.entry := her
      rw [hsame]
      exact h.table
    | true =>
      rcases her with ⟨p, m, hp, hentry⟩
      rw [hentry]
      exact h.table.erase hp
  · cases ok with
    | false => exact (congrFun her q).trans hq
    | true =>
      rcases her with ⟨p, m, hp, hentry⟩
      rw [hentry, update_of_ne, hq]
      rintro rfl
      rw [hp] at hq
      cases hq
      dsimp only at hstill
      rw [if_pos rfl, update_self] at hstill
      cases hstill

theorem Booked.step (op : DirOp) (hproper : op.Proper s) (hspares : op.Spares d s) :
    ∃ s' A' x' v', op.exec d s = some s' ∧ Booked n d s' A' x' v' ∧ Steady s' x x' := by
  cases op with
  | add name inum ftype => exact h.add hproper.1 hproper.2.1 hproper.2.2.1 hproper.2.2.2 ftype
  | remove t name => exact h.remove t hproper hspares

theorem Booked.formed : DirFormed d s.fs := by
  have hd := h.rep.dirOk h.here h.dir
  have hshows := (h.rep.own h.here h.node (by rw [h.dir]; decide)).2
  rw [h.slot] at hshows
  refine ⟨by rw [hshows.size, hd.whole], fun k hk => ?_, fun k hk => ?_⟩
  · rw [hshows.size] at hk
    exact (hshows.block k (hd.there k hk)).1
  · rw [hshows.size] at hk
    rw [(hshows.block k (hd.there k hk)).2]
    exact (hd.block k hk).wellFormed (h.aligned k hk)

theorem Booked.answers : Answers d s := by
  intro name hname
  have hd := h.rep.dirOk h.here h.dir
  have hlook := h.rep.dirLookup h.here h.node h.dir hname
  rw [h.slot] at hlook
  cases hlook with
  | inl hfound =>
    rcases hfound with ⟨m, hm, hsearch⟩
    cases (mem_ents_iff hd).mp hm with
    | intro p hp =>
      rw [h.table.sound hp]
      exact ⟨hsearch, fun j hj => iget_vnode_inum hj, iget_no_room⟩
  | inr habsent =>
    cases hnames : s.names name with
    | none => exact habsent.2
    | some i =>
      cases h.table.found hnames with
      | intro p hp => exact absurd ((mem_ents_iff hd).mpr ⟨p, hp⟩) (habsent.1 i)

end

end Step

/-- In a run of additions and removals every step ends, the blocks are well formed, and a lookup finds the inode
number last added for a name that is there, and nothing for another. -/
theorem directory_is_name_map {fs : Fs} {A : Abs} {n : Nat} {x : Ino} {v : Vn}
    (hrep : Rep fs A) (hx : A n = some x) (hv : x.vn = some v) (hdir : x.kind = .dir)
    (hformed : ∀ k < x.size / bsize, WellFormed (x.block k)) {M : Name → Option Nat} (hM : Indexes x.entry M)
    {ops : List DirOp} (hproper : Meets (DirOp.exec v.slot) DirOp.Proper ops ⟨fs, M⟩)
    (hspares : Meets (DirOp.exec v.slot) (DirOp.Spares v.slot) ops ⟨fs, M⟩) :
    ∃ s, run (DirOp.exec v.slot) ops ⟨fs, M⟩ = some s ∧ DirFormed v.slot s.fs ∧ Answers v.slot s := by
  have h0 : Booked n v.slot ⟨fs, M⟩ A x v :=
    ⟨hrep, hx, hv, rfl, hdir, fun k hk => (hformed k hk).aligned, hM⟩
  rcases run_total (fun s => ∃ A x v', Booked n v.slot s A x v') (fun s op hs hok => by
    rcases hs with ⟨A, x, v', hs⟩
    rcases hs.step op hok.1 hok.2 with ⟨s', A', x', v'', hexec, hs', -⟩
    exact ⟨s', hexec, A', x', v'', hs'⟩) ⟨A, x, v, h0⟩ (hproper.and hspares) with ⟨s, hrun, A', x', v', hs⟩
  exact ⟨s, hrun, hs.formed, hs.answers⟩

/-! ### A directory with a device -/

/-- The name of the device. -/
def devName : Name := [100, 101, 118]

/-- A name as long as names can be. -/
def longName (c : UInt8) : Name := List.replicate 255 c

/-- Inode 2 is a directory with block 256, inode 3 a device, whose number may be 256, inode 4 an empty file. -/
def smallTable (big : Bool) : Bytes :=
  let dir := put32 (put16 (put32 (put16 (fun _ => 0) 128 0x4000) 132 1024) 154 2) 168 256
  let dev := put32 (put16 (put16 dir 256 0x2000) 282 1) 296 (if big then 256 else 0)
  put16 (put16 dev 384 0x8000) 410 4

def smallDir : Bytes := freshDirBlock devName 3 ftChrdev

/-- Blocks up to 256 are in use, and the directory has a vnode. -/
def smallFs (big : Bool) : Fs where
  disk := fun b =>
    if b = 3 then fun o => if o < 32 then 255 else if o = 32 then 1 else 0
    else if b = 4 then fun o => if o = 0 then 0x0E else 0
    else if b = 5 then smallTable big
    else if b = 256 then smallDir
    else fun _ => 0
  sb := fun o => if o = 0 then 8 else if o = 5 then 2 else 0
  bg := fun o => if o = 0 then 3 else if o = 4 then 4 else if o = 8 then 5 else 0
  inodeSize := 128
  vnodes := fun i => if i = 0 then ⟨1, 2, .dir, 1024, ⟨drop (smallTable big) 128, false, false⟩⟩
    else ⟨0, 0, .none, 0, ⟨fun _ => 0, false, false⟩⟩
  taken := fun _ => false
  pages := 3

def smallDirIno : Ino := ⟨0x4000, 2, 1024, fun k => if k = 0 then some smallDir else none, some ⟨0, 1, 2, false, false⟩⟩

def smallAbs : Abs := fun n =>
  if n = 2 then some smallDirIno
  else if n = 3 then some ⟨0x2000, 1, 0, fun _ => none, none⟩
  else if n = 4 then some ⟨0x8000, 4, 0, fun _ => none, none⟩
  else none

theorem smallFs_layout : ∀ big, bgBlockBitmap (smallFs big).bg = 3 ∧ bgInodeBitmap (smallFs big).bg = 4 ∧
    bgInodeTable (smallFs big).bg = 5 ∧ sInodesCount (smallFs big).sb = 8 ∧
    ∀ b ∈ [1, 3, 4, 5, 256], blockUsed (smallFs big) b = true := by
  decide +kernel

theorem smallFs_inodes : ∀ big,
    (∀ x ∈ [(2, 0x4000, 2), (3, 0x2000, 1), (4, 0x8000, 4)], inodeUsed (smallFs big) x.1 = true ∧
      iMode (readInode (smallFs big) x.1) = x.2.1 ∧ iLinks (readInode (smallFs big) x.1) = x.2.2) ∧
    ∀ n ∈ [1, 5, 6, 7, 8], inodeUsed (smallFs big) n = false := by
  decide +kernel

theorem smallFs_data : ∀ big,
    (∀ k ≤ 12, iBlock (drop (smallTable big) 128) k = (if k = 0 then 256 else 0) ∧
      iBlock (readInode (smallFs big) 2) k = iBlock (drop (smallTable big) 128) k ∧
      iBlock (readInode (smallFs big) 4) k = 0) ∧
    blocksOf (smallFs big) (drop (smallTable big) 128) = [256] ∧
    iSize (drop (smallTable big) 128) = 1024 ∧ iSize (readInode (smallFs big) 2) = 1024 ∧
    iMode (drop (smallTable big) 128) = 0x4000 ∧ iLinks (drop (smallTable big) 128) = 2 ∧
    vnodeType (drop (smallTable big) 128) = .dir ∧ iSize (readInode (smallFs big) 4) = 0 := by
  decide +kernel

theorem smallFs_inode (h : ValidIno (smallFs big) n) : inoBlock (smallFs big) n = 5 := by
  have h8 : n ≤ 8 := h.2
  rw [inoBlock, (smallFs_layout big).2.2.1, bsize]
  dsimp only [smallFs]
  omega

theorem smallFs_meta {b : Nat} (h : Meta (smallFs big) b) : b = 1 ∨ b = 3 ∨ b = 4 ∨ b = 5 := by
  have hat := smallFs_layout big
  rcases h with h | h | h | ⟨n, hn, h⟩
  · exact .inl h
  · exact .inr (.inl (h.trans hat.1))
  · exact .inr (.inr (.inl (h.trans hat.2.1)))
  · exact .inr (.inr (.inr (h.symm.trans (smallFs_inode hn))))

theorem smallFs_ground (big : Bool) : Ground (smallFs big) := by
  rcases smallFs_layout big with ⟨h3, h4, -, h8, hused⟩
  refine ⟨⟨Nat.le_refl _, ?_, ?_, ?_, ?_, ?_, fun n hn => ?_⟩, fun b hb => ?_⟩
  · rw [bsize]
    exact (by decide : 128 ≤ 1024)
  · rw [h8, bsize]
    decide
  · rw [h3, h4]
    decide
  · rw [h3]
    decide
  · rw [h4]
    decide
  · rw [smallFs_inode hn, h3, h4]
    decide
  · have hb := smallFs_meta hb
    exact hused b (by simp only [mem_cons]; omega)

theorem smallDir_block : DirBlock smallDir := freshDirBlock_spec (by decide) 3 ftChrdev

theorem smallFs_map (big : Bool) (k : Nat) :
    lbnBlock (smallFs big) (drop (smallTable big) 128) k = if k = 0 then 256 else 0 := by
  have hptr := (smallFs_data big).1
  rw [lbnBlock_eq]
  by_cases hk : k < ndirect
  · rw [if_pos hk, (hptr k (Nat.le_of_lt hk)).1]
  · have hind : iBlock (drop (smallTable big) 128) 12 = 0 := (hptr 12 (by decide)).1
    rw [if_neg hk, indirect, if_pos hind, ite_self, if_neg]
    rintro rfl
    exact hk (by decide)

theorem smallFs_node (big : Bool) : NodeRep (smallFs big) 2 smallDirIno ⟨0, 1, 2, false, false⟩ where
  slot := by decide
  pos := by decide
  ref := rfl
  inum := rfl
  type := (smallFs_data big).2.2.2.2.2.2.1.symm
  mode := (smallFs_data big).2.2.2.2.1
  links := (smallFs_data big).2.2.2.2.2.1
  dirty := rfl
  orphaned := rfl
  clean _ _ := ⟨(smallFs_data big).2.2.2.1.trans (smallFs_data big).2.2.1.symm,
    fun k hk => ((smallFs_data big).1 k hk).2.1⟩
  length hk := absurd hk (by decide)
  husk hk := absurd hk (by decide)

theorem smallFs_own (big : Bool) : Own (smallFs big) (drop (smallTable big) 128) := by
  have hblocks := (smallFs_data big).2.1
  have hone : ∀ b ∈ blocksOf (smallFs big) (drop (smallTable big) 128), b = 256 := by
    rw [hblocks]
    intro b hb
    exact mem_singleton.mp hb
  refine ⟨by rw [hblocks]; exact nodup_singleton _, fun b hb => ?_, fun b hb hm => ?_⟩
  · rw [hone b hb]
    exact (smallFs_layout big).2.2.2.2 256 (by simp)
  · have hmeta := smallFs_meta hm
    have h256 := hone b hb
    omega

theorem smallFs_shows (big : Bool) : Shows (smallFs big) (drop (smallTable big) 128) smallDirIno := by
  refine ⟨(smallFs_data big).2.2.1, fun k => ?_⟩
  rw [smallFs_map]
  by_cases hk : k = 0
  · rw [hk]
    rfl
  · rw [if_neg hk, if_pos rfl]
    exact if_neg hk

theorem smallDirIno_ok : DirOk smallDirIno := by
  have h0 : ∀ k < smallDirIno.size / bsize, k = 0 := fun k hk => lt_one_iff.mp hk
  refine ⟨rfl, fun k hk => ?_, fun k hk => ?_⟩
  · rw [h0 k hk]
    exact Option.some_ne_none _
  · rw [h0 k hk]
    exact smallDir_block

theorem smallFs_valid (h1 : 1 ≤ n) (h8 : n ≤ 8) : ValidIno (smallFs big) n :=
  ⟨h1, by rwa [(smallFs_layout big).2.2.2.1]⟩

theorem smallFs_dir (big : Bool) : InoRep (smallFs big) 2 smallDirIno where
  valid := smallFs_valid (by decide) (by decide)
  used := ((smallFs_inodes big).1 (2, 0x4000, 2) (by simp)).1
  mode := ((smallFs_inodes big).1 (2, 0x4000, 2) (by simp)).2.1
  links := ((smallFs_inodes big).1 (2, 0x4000, 2) (by simp)).2.2
  node v hv := by
    cases hv
    exact smallFs_node big
  own _ := smallFs_own big
  shows _ := smallFs_shows big
  tidy _ := smallDirIno_ok

theorem smallFs_device (big : Bool) : InoRep (smallFs big) 3 ⟨0x2000, 1, 0, fun _ => none, none⟩ where
  valid := smallFs_valid (by decide) (by decide)
  used := ((smallFs_inodes big).1 (3, 0x2000, 1) (by simp)).1
  mode := ((smallFs_inodes big).1 (3, 0x2000, 1) (by simp)).2.1
  links := ((smallFs_inodes big).1 (3, 0x2000, 1) (by simp)).2.2
  node v hv := by cases hv
  own hk := absurd rfl hk
  shows hk := absurd rfl hk
  tidy hk := absurd hk (by decide)

theorem smallFs_file (big : Bool) : InoRep (smallFs big) 4 ⟨0x8000, 4, 0, fun _ => none, none⟩ := by
  have hdata := smallFs_data big
  have hempty := @own_empty (smallFs big) ⟨0x8000, 4, 0, fun _ => none, none⟩ _
    (fun k hk => (hdata.1 k hk).2.2) hdata.2.2.2.2.2.2.2 rfl rfl
  have hino := (smallFs_inodes big).1 (4, 0x8000, 4) (by simp)
  exact ⟨smallFs_valid (by decide) (by decide), hino.1, hino.2.1, hino.2.2, fun v hv => (by cases hv),
    fun _ => hempty.1, fun _ => hempty.2, fun hk => absurd hk (by decide)⟩

/-- Only the directory has blocks. -/
theorem smallFs_belongs {m b : Nat} (h : Belongs (smallFs big) smallAbs m b) : m = 2 := by
  rcases h with ⟨x, hx, hk, hb⟩
  rw [smallAbs] at hx
  by_contra h2
  rw [if_neg h2] at hx
  split at hx
  · cases hx
    exact hk rfl
  · split at hx
    · rename_i h4
      cases hx
      rw [h4, cur, blocksOf_empty fun k hk => ((smallFs_data big).1 k hk).2.2] at hb
      cases hb
    · cases hx

theorem smallFs_rep (big : Bool) : Rep (smallFs big) smallAbs where
  ground := smallFs_ground big
  apart m n b h1 h2 := (smallFs_belongs h1).trans (smallFs_belongs h2).symm
  ino n x hx := by
    rw [smallAbs] at hx
    by_cases h2 : n = 2
    · rw [if_pos h2] at hx
      cases hx
      rw [h2]
      exact smallFs_dir big
    · rw [if_neg h2] at hx
      by_cases h3 : n = 3
      · rw [if_pos h3] at hx
        cases hx
        rw [h3]
        exact smallFs_device big
      · rw [if_neg h3] at hx
        by_cases h4 : n = 4
        · rw [if_pos h4] at hx
          cases hx
          rw [h4]
          exact smallFs_file big
        · rw [if_neg h4] at hx
          cases hx
  free n hn hx := by
    have hcases : ∀ n, 1 ≤ n → n ≤ 8 → smallAbs n = none → n ∈ [1, 5, 6, 7, 8] := by
      intro n h1 h8 h
      have h2 : n ≠ 2 := by
        rintro rfl
        cases h
      have h3 : n ≠ 3 := by
        rintro rfl
        cases h
      have h4 : n ≠ 4 := by
        rintro rfl
        cases h
      simp only [mem_cons, not_mem_nil, or_false]
      omega
    exact (smallFs_inodes big).2 n (hcases n hn.1 hn.2 hx)
  live i hi hpos := by
    have h0 : i = 0 := by
      by_contra hne
      rw [smallFs] at hpos
      dsimp only at hpos
      rw [if_neg hne] at hpos
      exact Nat.lt_irrefl 0 hpos
    rw [h0]
    exact ⟨smallDirIno, ⟨0, 1, 2, false, false⟩, rfl, rfl, rfl⟩

/-- The name of the device is the only one. -/
def smallNames : Name → Option Nat := update (fun _ => none) devName (some 3)

theorem smallDirIno_entry :
    smallDirIno.entry = update (fun _ : Nat => (none : Option (Nat × Name))) 0 (some (3, devName)) := by
  funext p
  have hedit := (@freshDirBlock_edit 3 devName (by decide) (by decide) (by decide) ftChrdev).1
  rw [Ino.entry]
  by_cases hp : p / bsize < smallDirIno.size / bsize
  · have h0 : p / bsize = 0 := lt_one_iff.mp hp
    have hlt : p < bsize := by
      rw [bsize] at *
      omega
    rw [if_pos hp, h0, mod_eq_of_lt hlt]
    refine (hedit p).trans ?_
    by_cases hz : p = 0
    · rw [hz]
      rfl
    · rw [if_neg hz, update_of_ne hz]
  · have hz : p ≠ 0 := by
      rintro rfl
      exact hp (by decide)
    rw [if_neg hp, update_of_ne hz]

theorem smallNames_indexes : Indexes smallDirIno.entry smallNames := by
  have hnone : Indexes (fun _ : Nat => (none : Option (Nat × Name))) fun _ => none :=
    ⟨fun h => (by cases h), fun h => (by cases h), fun h => (by cases h)⟩
  rw [smallDirIno_entry]
  exact hnone.insert rfl rfl

/-- Three long names fill the block, and with the fourth one the directory grows, after the device is gone. -/
def fillAndGrow : List DirOp :=
  [.add (longName 97) 4 ftReg, .add (longName 98) 4 ftReg, .add (longName 99) 4 ftReg, .remove 0 devName,
    .add (longName 100) 4 ftReg]

theorem smallDirIno_formed : ∀ k < smallDirIno.size / bsize, WellFormed (smallDirIno.block k) := by
  intro k hk
  rw [show k = 0 from lt_one_iff.mp hk]
  exact smallDir_block.wellFormed (freshDirBlock_edit (by decide) (by decide) (by decide) ftChrdev).2.2

theorem fillAndGrow_proper (big : Bool) : Meets (DirOp.exec 0) DirOp.Proper fillAndGrow ⟨smallFs big, smallNames⟩ :=
  Meets.of_check (fun _ _ h => of_decide_eq_true h)
    (show check (DirOp.exec 0) (fun s op => decide (op.Proper s)) fillAndGrow ⟨smallFs big, smallNames⟩ = true by
      decide +kernel +revert)

theorem fillAndGrow_spares : Meets (DirOp.exec 0) (DirOp.Spares 0) fillAndGrow ⟨smallFs false, smallNames⟩ :=
  Meets.of_check (fun _ _ h => of_decide_eq_true h)
    (show check (DirOp.exec 0) (fun s op => decide (op.Spares 0 s)) fillAndGrow ⟨smallFs false, smallNames⟩ = true by
      decide +kernel)

/-- The number of the device is 0. -/
theorem smallFs_name_map : ∃ s, run (DirOp.exec 0) fillAndGrow ⟨smallFs false, smallNames⟩ = some s ∧
    DirFormed 0 s.fs ∧ Answers 0 s :=
  @directory_is_name_map (smallFs false) smallAbs 2 smallDirIno ⟨0, 1, 2, false, false⟩ (smallFs_rep false)
    rfl rfl rfl smallDirIno_formed smallNames smallNames_indexes fillAndGrow (fillAndGrow_proper false)
    fillAndGrow_spares

/-- The directory is given a name in itself, which is then removed. -/
def nameSelf : List DirOp := [.add [120] 2 ftDir, .remove 0 [120]]

/-- The number of the device is that of the block of the directory, which is free with the device and taken when the
directory grows. The name of the directory itself is found in the block that the emptiness scan waits for. -/
theorem device_number_loses_names : Rep (smallFs true) smallAbs ∧ smallAbs 2 = some smallDirIno ∧
    (∀ k < smallDirIno.size / bsize, WellFormed (smallDirIno.block k)) ∧ Indexes smallDirIno.entry smallNames ∧
    Meets (DirOp.exec 0) DirOp.Proper fillAndGrow ⟨smallFs true, smallNames⟩ ∧
    (∃ s, run (DirOp.exec 0) fillAndGrow ⟨smallFs true, smallNames⟩ = some s ∧ s.names (longName 97) = some 4 ∧
      (dirLookup 0 (longName 97) s.fs).map Prod.fst = some none) ∧
    Meets (DirOp.exec 0) DirOp.Proper nameSelf ⟨smallFs true, smallNames⟩ ∧
    run (DirOp.exec 0) nameSelf ⟨smallFs true, smallNames⟩ = none := by
  have hrun : ((run (DirOp.exec 0) fillAndGrow ⟨smallFs true, smallNames⟩).map fun s =>
      (s.names (longName 97), (dirLookup 0 (longName 97) s.fs).map Prod.fst)) = some (some 4, some none) := by
    decide +kernel
  have hself : check (DirOp.exec 0) (fun s op => decide (op.Proper s)) nameSelf ⟨smallFs true, smallNames⟩ = true ∧
      (run (DirOp.exec 0) nameSelf ⟨smallFs true, smallNames⟩).isNone := by
    decide +kernel
  rcases Option.map_eq_some_iff.mp hrun with ⟨s, hs, he⟩
  exact ⟨smallFs_rep true, rfl, smallDirIno_formed, smallNames_indexes, fillAndGrow_proper true,
    ⟨s, hs, congrArg Prod.fst he, congrArg Prod.snd he⟩, Meets.of_check (fun _ _ h => of_decide_eq_true h) hself.1,
    Option.isNone_iff_eq_none.mp hself.2⟩

end Xv6Vfs.Ext2
