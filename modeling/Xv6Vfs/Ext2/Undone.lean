import Xv6Vfs.Ext2.NameMap
import Xv6Vfs.Ext2.Room

/-! When `ext2_create` and `ext2_mkdir` fail, and what they leave behind then. -/
namespace Xv6Vfs.Ext2
open Xv6Vfs.Bytes Xv6Vfs.Vfs Function List Option Nat

variable {A' : Abs} {fs' : Fs} {name : Name} {a : Nat × Fs} {e : Nat × Name} {d ftype i inum m t : Nat}

/-- The entries of the directory with vnode `d`. -/
def dirEntries (d : Nat) (fs : Fs) : List (Nat × Name) :=
  (List.range (iSize (fs.vnodes d).priv.ino / bsize)).flatMap fun k =>
    entries (fs.disk (lbnBlock fs (fs.vnodes d).priv.ino k))

/-- The names in the directory, the link counts of the inodes in use, and which inodes these are, are as before. -/
structure Undone (d : Nat) (fs fs' : Fs) : Prop where
  names : ∀ name, (∃ m, (m, name) ∈ dirEntries d fs') ↔ ∃ m, (m, name) ∈ dirEntries d fs
  links : ∀ m, ValidIno fs m → inodeUsed fs m = true → iLinks (inodeNow fs' m) = iLinks (inodeNow fs m)
  inodes : ∀ m, ValidIno fs m → inodeUsed fs' m = inodeUsed fs m

/-- There is no vnode or no page for an inode that is not in the table. -/
def VnodesFull (fs : Fs) : Prop := (∀ j < nvnode, (fs.vnodes j).ref = 0 → fs.taken j = true) ∨ fs.pages = 0

/-- The call gets as far as to enter the name, and fails then: the name is not seen, there are an inode and blocks for
the entry, but no vnode, or, for a directory, no block for its own entries. -/
structure Strands (fs : Fs) (d : Nat) (name : Name) (dir : Bool) : Prop where
  unseen : ¬ NameThere fs d name
  inode : ¬ InodesFull fs
  room : ∃ b, entryNeed fs d name = some b ∧ b ≤ spareBlocks fs ∧
    (VnodesFull fs ∨ dir = true ∧ spareBlocks fs = b)

/-! ### What is seen of the inodes -/

/-- The link count, that of the vnode if there is one. -/
def Ino.linksNow (x : Ino) : Nat :=
  match x.vn with
  | some v => v.links
  | none => x.links

section Seen

variable {fs fs' : Fs} {A : Abs} {n m : Nat} {x x' y : Ino} {v v' : Vn}

theorem Rep.linksNow (h : Rep fs A) (hy : A m = some y) : iLinks (inodeNow fs m) = y.linksNow := by
  have hr := h.ino m y hy
  rw [inodeNow, Ino.linksNow]
  cases hv : y.vn with
  | none =>
    have hnone := h.findVnode_none (n := m) fun z hz => by
      rw [hy] at hz
      cases hz
      exact hv
    rw [hnone]
    exact hr.links
  | some v =>
    rw [h.findVnode_live hy hv]
    exact (hr.node v hv).links

theorem Rep.used_iff (h : Rep fs A) (hm : ValidIno fs m) : inodeUsed fs m = true ↔ A m ≠ none := by
  cases hy : A m with
  | none => simp [h.free m hm hy]
  | some y => simp [(h.ino m y hy).used]

theorem Rep.mem_dirEntries (h : Rep fs A) (hx : A n = some x) (hv : x.vn = some v) (hk : x.kind = .dir) :
    e ∈ dirEntries v.slot fs ↔ e ∈ x.ents := by
  have hd := h.dirOk hx hk
  have hs := (h.own hx hv (by rw [hk]; decide)).2
  rw [dirEntries, mem_ents, mem_flatMap, hs.size]
  constructor
  · rintro ⟨k, hk, he⟩
    have hlt := mem_range.mp hk
    rw [(hs.block k (hd.there k hlt)).2] at he
    exact ⟨k, hlt, he⟩
  · rintro ⟨k, hk, he⟩
    refine ⟨k, mem_range.mpr hk, ?_⟩
    rwa [(hs.block k (hd.there k hk)).2]

/-- Nothing has changed but the directory, which has its entries and its links. -/
theorem Rep.undone (h : Rep fs A) (hx : A n = some x) (hv : x.vn = some v) (hk : x.kind = .dir)
    (h' : Rep fs' (update A n (some x'))) (hv' : x'.vn = some v') (hk' : x'.kind = .dir) (hs : Static fs fs')
    (hslot : v'.slot = v.slot) (hlinks : v'.links = v.links) (hents : x'.entry = x.entry) : Undone v.slot fs fs' := by
  have hx' := update_self n (some x') A
  have hmem : ∀ e, e ∈ dirEntries v.slot fs' ↔ e ∈ dirEntries v.slot fs := by
    intro e
    rw [← hslot, h'.mem_dirEntries hx' hv' hk', hslot, h.mem_dirEntries hx hv hk, mem_ents_iff (h'.dirOk hx' hk'),
      mem_ents_iff (h.dirOk hx hk), hents]
  refine ⟨fun name => exists_congr fun m => hmem _, fun m hm hused => ?_, fun m hm => ?_⟩
  · by_cases hmn : m = n
    · subst hmn
      rwa [h'.linksNow hx', h.linksNow hx, Ino.linksNow, Ino.linksNow, hv, hv']
    · cases hy : A m with
      | none => exact absurd hy ((h.used_iff hm).mp hused)
      | some y => rw [h.linksNow hy, h'.linksNow (by rw [update_of_ne hmn, hy])]
  · have hiff := h'.used_iff ((hs.validIno m).mpr hm)
    rw [Bool.eq_iff_iff, hiff, h.used_iff hm]
    by_cases hmn : m = n
    · subst hmn
      rw [hx', hx]
      simp
    · rw [update_of_ne hmn]

theorem Rep.not_undone (h : Rep fs A) (h' : Rep fs' A') (hs : Static fs fs') (hm : A m = none)
    (hm' : A' m ≠ none) : ¬ Undone d fs fs' := by
  intro hu
  cases hy : A' m with
  | none => exact hm' hy
  | some y =>
    have hvalid := (hs.validIno m).mp (h'.ino m y hy).valid
    have hused := hu.inodes m hvalid
    rw [(h'.ino m y hy).used, h.free m hvalid hm] at hused
    cases hused

end Seen

/-! ### Free vnodes -/

/-- The table has the same inodes, and there are as many free vnodes and pages. -/
structure SameVnodes (fs fs' : Fs) : Prop where
  taken : fs'.taken = fs.taken
  pages : fs'.pages = fs.pages
  ref : ∀ i, (fs'.vnodes i).ref = (fs.vnodes i).ref
  inum : ∀ i, (fs'.vnodes i).inum = (fs.vnodes i).inum

section Vnodes

variable {fs fs' : Fs} {A : Abs} {n m : Nat} {x : Ino} {v : Vn}

theorem SameVnodes.trans {fs'' : Fs} (h : SameVnodes fs fs') (h' : SameVnodes fs' fs'') : SameVnodes fs fs'' where
  taken := h'.taken.trans h.taken
  pages := h'.pages.trans h.pages
  ref i := (h'.ref i).trans (h.ref i)
  inum i := (h'.inum i).trans (h.inum i)

theorem Timed.sameVnodes (h : Timed fs fs') : SameVnodes fs fs' := ⟨h.taken, h.pages, h.ref, h.inum⟩

theorem sameVnodes_of_eq (hv : fs'.vnodes = fs.vnodes) (ht : fs'.taken = fs.taken) (hp : fs'.pages = fs.pages) :
    SameVnodes fs fs' := ⟨ht, hp, fun i => by rw [hv], fun i => by rw [hv]⟩

theorem SameVnodes.full (h : SameVnodes fs fs') : VnodesFull fs' ↔ VnodesFull fs := by
  rw [VnodesFull, VnodesFull, h.taken, h.pages]
  simp only [h.ref]

theorem SameVnodes.iget (h : SameVnodes fs fs') (m : Nat) : (iget m fs').1 = (iget m fs).1 := by
  rw [iget_fst, iget_fst, findVnode, findVnode, h.taken, h.pages]
  simp only [h.ref, h.inum]

theorem iget_none_iff (h : findVnode fs m = none) : (iget m fs).1 = none ↔ VnodesFull fs := by
  refine ⟨iget_no_room, fun hfull => ?_⟩
  rw [iget_fst, h, none_or]
  cases hfull with
  | inr hpages => rw [if_pos hpages]
  | inl htaken =>
    have hnone : (List.range nvnode).find? (fun i => decide ((fs.vnodes i).ref = 0 ∧ (!fs.taken i) = true)) = none := by
      apply find?_eq_none.mpr
      intro i hi hf
      simp only [decide_eq_true_eq] at hf
      have ht := htaken i (mem_range.mp hi) hf.1
      rw [ht] at hf
      exact absurd hf.2 (by decide)
    rw [hnone, ite_self]

theorem iget_slot (h : findVnode fs m = none) (hi : (iget m fs).1 = some i) :
    fs.taken i = false ∧ (iget m fs).2.taken = fs.taken ∧ (iget m fs).2.disk = fs.disk := by
  have he : iget m fs = vnodeAlloc m (readInode fs m) fs := by rw [iget, h]
  rw [he, vnodeAlloc] at hi ⊢
  split at hi
  · cases hi
  · rename_i j hf
    have hfree := find?_some hf
    simp only [decide_eq_true_eq] at hfree
    split at hi
    · cases hi
    · rename_i hpages
      cases hi
      rw [if_neg hpages]
      exact ⟨by simpa using hfree.2, rfl, rfl⟩

theorem ialloc_vnodes (mode t : Nat) (fs : Fs) : (ialloc mode t fs).2.vnodes = fs.vnodes ∧
    (ialloc mode t fs).2.taken = fs.taken ∧ (ialloc mode t fs).2.pages = fs.pages := by
  cases ialloc_cases mode t fs with
  | inl hnone =>
    rw [hnone]
    exact ⟨rfl, rfl, rfl⟩
  | inr hsome =>
    rcases hsome with ⟨i, -, -, -, he⟩
    rw [he]
    exact ⟨rfl, rfl, rfl⟩

theorem setPriv_sameVnodes (fs : Fs) (i : Nat) (p : Priv) : SameVnodes fs (fs.setPriv i p) := by
  have hj : ∀ j, ((fs.setPriv i p).vnodes j).ref = (fs.vnodes j).ref ∧
      ((fs.setPriv i p).vnodes j).inum = (fs.vnodes j).inum := by
    intro j
    rw [Fs.setPriv]
    by_cases hji : j = i
    · rw [hji, setNode_vnodes_self]
      exact ⟨rfl, rfl⟩
    · rw [setNode_vnodes_ne _ _ hji]
      exact ⟨rfl, rfl⟩
  exact ⟨rfl, rfl, fun j => (hj j).1, fun j => (hj j).2⟩

theorem Rep.dirAdd_sameVnodes (h : Rep fs A) (hx : A n = some x) (hv : x.vn = some v) (hk : x.kind = .dir)
    {ok : Bool} (hadd : Ext2.dirAdd v.slot name inum ftype fs = some (ok, fs')) : SameVnodes fs fs' := by
  have hown := (h.own hx hv (by rw [hk]; decide)).1
  have hnode := (h.ino n x hx).node v hv
  rw [Ext2.dirAdd] at hadd
  rcases bind_eq_some_iff.mp hadd with ⟨w, -, he⟩
  split at he
  · cases he
    exact sameVnodes_of_eq rfl rfl rfl
  · cases he
    exact sameVnodes_of_eq rfl rfl rfl
  · cases he
    exact sameVnodes_of_eq rfl rfl rfl
  · rename_i off
    have hmap := (bmap_spec h.ground hown (off / bsize)).within
    dsimp only at he
    generalize Ext2.bmap (fs.vnodes v.slot).priv (off / bsize) true fs = r at *
    have hr : SameVnodes fs (r.2.2.setPriv v.slot r.2.1) :=
      (sameVnodes_of_eq hmap.vnodes hmap.taken hmap.pages).trans (setPriv_sameVnodes _ _ _)
    split at he
    · cases he
    split at he
    · cases he
      exact hr
    · cases he
      have h2 := hr.trans (setPriv_sameVnodes _ v.slot
        { r.2.1 with ino := setSize r.2.1.ino (off + bsize), dirty := true })
      exact ⟨h2.taken, h2.pages, h2.ref, h2.inum⟩

end Vnodes

/-! ### Up to the new inode -/

/-- The new inode, with its first link. -/
def linkedIno (dir : Bool) : Ino := { freshIno (newMode dir) with links := 1 }

/-- The new inode is written, and has no vnode. -/
structure Begun (fs : Fs) (A : Abs) (n : Nat) (x : Ino) (inum : Nat) (dir : Bool) (fs1 : Fs) :
    Prop where
  fresh : A inum = none
  pos : inum ≠ 0
  lt : inum < 4294967296
  rep : Rep fs1 (update (update A n (some x.dirtied)) inum (some (linkedIno dir)))
  static : Static fs fs1
  same : SameVnodes fs fs1
  spare : spareBlocks fs1 = spareBlocks fs
  map : ∀ i, SameMap (fs1.vnodes i).priv.ino (fs.vnodes i).priv.ino

section Begin

variable {fs : Fs} {A : Abs} {n : Nat} {x : Ino} {v : Vn} {name : Name}

section

variable (h : Rep fs A) (hx : A n = some x) (hv : x.vn = some v) (hk : x.kind = .dir) (hname : 0 ∉ name)
include h hx hv hk hname

theorem Rep.nameTaken (hall : ∀ e ∈ x.ents, A e.1 ≠ none) :
    (NameThere fs v.slot name ∧ ∃ fs', Ext2.nameTaken v.slot name fs = some (true, fs') ∧ Rep fs' A ∧ Static fs fs') ∨
      ¬ NameThere fs v.slot name ∧ Ext2.nameTaken v.slot name fs = some (false, fs) := by
  rw [Ext2.nameTaken, Ext2.dirLookup]
  cases h.lookupWalk hx hv hk hname with
  | inr hdone =>
    rw [hdone.2]
    refine .inr ⟨?_, rfl⟩
    rintro ⟨blk, m, hw, -⟩
    rw [hdone.2] at hw
    cases hw
  | inl hhit =>
    rcases hhit with ⟨blk, m, hm, hw⟩
    rw [hw, map_some, bind_some]
    cases hy : A m with
    | none => exact absurd hy (hall _ hm)
    | some y =>
      cases hi : (Ext2.iget m fs).1 with
      | none =>
        refine .inr ⟨?_, by rw [iget_none hi]⟩
        rintro ⟨blk', m', hw', hne⟩
        rw [hw] at hw'
        cases hw'
        exact hne hi
      | some i =>
        rcases h.got_vput hy hi with ⟨fs', hput, hrep, hdata⟩
        refine .inl ⟨⟨blk, m, hw, by rw [hi]; exact some_ne_none i⟩, fs', ?_, hrep, hdata.toStatic⟩
        dsimp only
        rw [hput]
        rfl

theorem Rep.unseen
    (honce : ∀ {m m'}, (m, name) ∈ x.ents → (m', name) ∈ x.ents → m = m') (hno : ¬ NameThere fs v.slot name)
    (hm : (m, name) ∈ x.ents) : (Ext2.iget m fs).1 = none := by
  cases h.lookupWalk hx hv hk hname with
  | inr hdone => exact absurd hm (hdone.1 m)
  | inl hhit =>
    rcases hhit with ⟨blk, m', hm', hw⟩
    rw [honce hm hm']
    by_contra hne
    exact hno ⟨blk, m', hw, hne⟩

end

theorem writeInode_spare (hg : Geo fs) (hn : ValidIno fs n) (ino : Bytes) :
    spareBlocks (writeInode n ino fs) = spareBlocks fs :=
  spareBlocks_of_disk (writeInode_static n ino fs) (writeInode_disk (Ne.symm (hg.table n hn).2.1))

theorem ialloc_spare (hg : Geo fs) (mode t : Nat) : spareBlocks (ialloc mode t fs).2 = spareBlocks fs := by
  cases ialloc_cases mode t fs with
  | inl hnone => rw [hnone]
  | inr hsome =>
    rcases hsome with ⟨i, -, hlt, -, he⟩
    have hs := bwrite_static fs (bgInodeBitmap fs.bg) (setBit (fs.disk (bgInodeBitmap fs.bg)) i)
    have hmap : bgBlockBitmap fs.bg ≠ bgInodeBitmap fs.bg := hg.bitmaps
    have hn : ValidIno fs (i + 1) := ⟨by omega, hlt⟩
    rw [he, ← spareBlocks_bwrite (Ne.symm hmap) (setBit (fs.disk (bgInodeBitmap fs.bg)) i),
      ← writeInode_spare (hs.geo hg) hn (newInode mode t)]
    exact spareBlocks_of_disk (sbWrite_static _ _ (.inr rfl)) (sbWrite_disk _ _ _ hg.blockMap)

theorem ialloc_zero_iff {mode : Nat} : (ialloc mode t fs).1 = 0 ↔ InodesFull fs := by
  refine ⟨fun h0 => ?_, fun h => by rw [ialloc_full h]⟩
  apply (@bitmapAlloc_none (bgInodeBitmap fs.bg) (sInodesCount fs.sb) 1 fs).mp
  cases ha : bitmapAlloc (bgInodeBitmap fs.bg) (sInodesCount fs.sb) 1 fs with
  | none => rfl
  | some r =>
    rcases bitmapAlloc_some ha with ⟨i, hr, -⟩
    rw [ialloc, ha] at h0
    dsimp only at h0
    omega

theorem Timed.inodesFull (h : Timed fs fs') : InodesFull fs' ↔ InodesFull fs := by
  rw [InodesFull, InodesFull, h.static.inodes, h.static.bg, h.disk]

theorem Rep.begun (h : Rep fs A) (hx : A n = some x) (hv : x.vn = some v) {dir : Bool}
    (ha : Ext2.ialloc (newMode dir) t (Ext2.touch t false true v.slot fs) = a) (hfree : ¬ InodesFull fs) :
    Begun fs A n x a.1 dir (Ext2.writeInode a.1 (setLinks (readInode a.2 a.1) 1) a.2) := by
  have ht := touch_timed t false true v.slot fs
  have h0 := @Rep.touch fs A n x v h hx hv t false true rfl
  have hvnodes := ialloc_vnodes (newMode dir) t (Ext2.touch t false true v.slot fs)
  have hspare := ialloc_spare h0.ground.toGeo (newMode dir) t
  have hstatic := ialloc_static (newMode dir) t (Ext2.touch t false true v.slot fs)
  have hne : (Ext2.ialloc (newMode dir) t (Ext2.touch t false true v.slot fs)).1 ≠ 0 := by
    rwa [Ne, ialloc_zero_iff, ht.inodesFull]
  have hmode : newMode dir < 65536 := by
    cases dir with
    | false => decide
    | true => decide
  cases h0.ialloc hmode t with
  | inl hnone =>
    rw [hnone] at hne
    exact absurd rfl hne
  | inr hsome =>
    rcases hsome with ⟨inum, hpos, hlt, hnew, hinum, hrep⟩
    rw [ha] at hinum hrep hvnodes hspare hstatic
    rw [hinum]
    have hself := update_self inum (some (freshIno (newMode dir))) (update A n (some x.dirtied))
    have hn : inum ≠ n := by
      rintro rfl
      rw [update_self] at hnew
      cases hnew
    have hr := hrep.ino inum _ hself
    have hwrite := hrep.relink hself ((iMode_setLinks (readInode a.2 inum) 1).trans hr.mode) (setLinks_sameMap _ 1)
    rw [update_idem, iLinks_setLinks] at hwrite
    refine ⟨?_, hpos, hlt, hwrite, ?_, ?_, ?_, fun i => ?_⟩
    · rwa [update_of_ne hn] at hnew
    · exact (ht.static.trans hstatic).trans (writeInode_static _ _ _)
    · exact ht.sameVnodes.trans (sameVnodes_of_eq hvnodes.1 hvnodes.2.1 hvnodes.2.2)
    · rw [writeInode_spare hrep.ground.toGeo hr.valid, hspare]
      exact spareBlocks_of_disk ht.static (by rw [ht.disk])
    · have hmap := ht.map i
      rwa [← hvnodes.1] at hmap

end Begin

/-! ### The entry in the directory -/

/-- The entry is made, or there are too few blocks for it. -/
structure Entered (fs : Fs) (A : Abs) (n : Nat) (x : Ino) (v : Vn) (name : Name) (inum : Nat)
    (dir ok : Bool) (fs2 : Fs) (x2 : Ino) (v2 : Vn) : Prop where
  rep : Rep fs2 (update (update A n (some x2)) inum (some (linkedIno dir)))
  node : x2.vn = some v2
  slot : v2.slot = v.slot
  links : v2.links = v.links
  kind : x2.kind = .dir
  entry : Inserts x x2 (inum, name) ok
  static : Static fs fs2
  same : SameVnodes fs fs2
  room : ok = true ↔ ∃ b, entryNeed fs v.slot name = some b ∧ b ≤ spareBlocks fs
  spare : ∀ b, entryNeed fs v.slot name = some b → ok = true → spareBlocks fs2 + b = spareBlocks fs

section Enter

variable {fs fs1 fs2 : Fs} {A : Abs} {n m inum : Nat} {x x2 y : Ino} {v v2 : Vn} {name : Name}
  {dir ok : Bool}

theorem Added.node (h : Added x v name inum ftype ok x2) (hv : x.vn = some v) :
    ∃ dirty, x2.vn = some { v with dirty := dirty } := by
  cases h with
  | put hk h => exact ⟨v.dirty, hv⟩
  | grow h => exact ⟨true, rfl⟩
  | full h => exact ⟨_, rfl⟩

theorem Begun.enter (hb : Begun fs A n x inum dir fs1) (h : Rep fs A) (hx : A n = some x) (hv : x.vn = some v)
    (hk : x.kind = .dir) (hg : goodName name = true) :
    ∃ ok fs2 x2 v2, dirAdd v.slot name inum (newFtype dir) fs1 = some (ok, fs2) ∧
      Entered fs A n x v name inum dir ok fs2 x2 v2 := by
  have hne : n ≠ inum := by
    rintro rfl
    rw [hb.fresh] at hx
    cases hx
  have hx1 : update (update A n (some x.dirtied)) inum (some (linkedIno dir)) n = some x.dirtied := by
    rw [update_of_ne hne, update_self]
  have hv1 := Ino.dirtied_vn hv
  have hd1 := hb.rep.dirOk hx1 hk
  rcases hb.rep.dirAdd hx1 hv1 hk hg _ (newFtype dir) with ⟨ok, fs2, x2, hadd, hadded, hrep⟩
  have hplaces := hadded.places hd1 hv1 hb.lt hb.pos (goodName_iff.mp hg).2.1
  have hneed := hb.rep.dirAdd_need hx1 hv1 hk hg hadd
  have hsame := h.entryNeed_congr hx hv hk hb.rep hx1 hv1 hk hg rfl rfl ((hb.map v.slot).ptr 12 (by omega))
  rcases hadded.node hv1 with ⟨dirty, hv2⟩
  rw [hsame, hb.spare] at hneed
  refine ⟨ok, fs2, x2, _, hadd, ?_, hv2, rfl, rfl, hplaces.2.2.1.trans hk, hplaces.2.1,
    hb.static.trans (dirAdd_static hadd), hb.same.trans (hb.rep.dirAdd_sameVnodes hx1 hv1 hk hadd), hneed.1, hneed.2⟩
  rwa [update_comm hne, update_idem, update_comm (Ne.symm hne)] at hrep

theorem Entered.here (_ : Entered fs A n x v name inum dir ok fs2 x2 v2) (hne : n ≠ inum) :
    update (update A n (some x2)) inum (some (linkedIno dir)) n = some x2 := by
  rw [update_of_ne hne, update_self]

/-- The name is that of the new inode, or it was there. -/
theorem Entered.named (he : Entered fs A n x v name inum dir ok fs2 x2 v2) (hd : DirOk x) (hne : n ≠ inum)
    (hm : (m, name) ∈ x2.ents) : m = inum ∨ (m, name) ∈ x.ents := by
  have hd2 := he.rep.dirOk (he.here hne) he.kind
  rcases (mem_ents_iff hd2).mp hm with ⟨p, hp⟩
  have hentry := he.entry
  cases ok with
  | false =>
    rw [show x2.entry = x.entry from hentry] at hp
    exact .inr ((mem_ents_iff hd).mpr ⟨p, hp⟩)
  | true =>
    rcases hentry with ⟨q, -, heq⟩
    rw [heq] at hp
    by_cases hpq : p = q
    · rw [hpq, update_self] at hp
      cases hp
      exact .inl rfl
    · rw [update_of_ne hpq] at hp
      exact .inr ((mem_ents_iff hd).mpr ⟨p, hp⟩)

/-- A directory with one link, as "." and ".." are missing, loses two and is not freed. -/
theorem Unlinked.stays (h : Unlinked A n x v name ok A') (hm : A m = some y) (hk : y.kind = .dir)
    (hlinks : y.links = 1) (hmn : m ≠ n) : A' m ≠ none := by
  have hA : ∀ z, update A n z m = some y := fun z => by rw [update_of_ne hmn, hm]
  cases h with
  | absent hnone =>
    rw [hA]
    exact some_ne_none y
  | refused hm' hy hd =>
    rw [hA]
    exact some_ne_none y
  | @removed k o m' y' A2 hk' ho hm' h0 hmn' hname hy hempty hdrop =>
    rw [update_of_ne hmn]
    by_cases heq : m = m'
    · subst heq
      rw [hm] at hy
      cases hy
      have hless : y.lessLinks = 65535 := by rw [Ino.lessLinks, if_pos hk, hlinks]
      rw [hless] at hdrop
      cases hdrop with
      | less h0 =>
        rw [update_self]
        exact some_ne_none _
      | orphan h0 => cases h0
      | lost h0 hvn => cases h0
    · cases hdrop with
      | less h0 =>
        rw [update_of_ne heq, hA]
        exact some_ne_none y
      | orphan h0 =>
        rw [update_of_ne heq, hA]
        exact some_ne_none y
      | lost h0 hvn =>
        rw [hA]
        exact some_ne_none y

end Enter

/-! ### The entries of a new directory -/

theorem freshDirBlock_room (hpos : inum ≠ 0) (hlt : inum < 4294967296) :
    visitAdd dotdot 1 ftReg (freshDirBlock dot inum ftDir) 0 ≠ none := by
  have hrec : deRecLen (freshDirBlock dot inum ftDir) 0 = bsize := by
    rw [freshDirBlock, deRecLen_putEntry, blankBlock_spec.2.2.2]
  have hin : deInode (freshDirBlock dot inum ftDir) 0 = inum := deInode_putEntry hlt
  have hlen : deNameLen (freshDirBlock dot inum ftDir) 0 = 1 := deNameLen_putEntry (by decide)
  rw [visitAdd, hrec, hin, hlen, if_neg (by decide), if_neg (fun hz => hpos hz.1), if_pos (by decide)]
  exact some_ne_none _

section Fill

variable {fs fs2 : Fs} {A : Abs} {n m inum : Nat} {x x2 y : Ino} {v v2 : Vn} {name : Name}
  {ok : Bool}

theorem Rep.firstNeed (h : Rep fs A) (hx : A n = some x) (hv : x.vn = some v) (hk : x.kind = .dir)
    (hg : goodName name = true) (hsize : x.size = 0) (hblock : x.blocks 0 = none) :
    Ext2.entryNeed fs v.slot name = some 1 := by
  have hno : ¬ x.Fits name := by
    rintro ⟨j, hj, -⟩
    rw [hsize, Nat.zero_div] at hj
    exact Nat.not_lt_zero j hj
  have hs := (h.own hx hv (by rw [hk]; decide)).2.blocks 0
  have h0 : lbnBlock fs (fs.vnodes v.slot).priv.ino 0 = 0 := by
    by_contra hne
    rw [hblock, if_neg hne] at hs
    cases hs
  rw [(h.entryNeed hx hv hk hg).2 hno, hsize, Nat.zero_div, mapNeed, if_neg (fun hne => hne h0), if_pos (by decide)]

theorem Added.dotdot_fits (h : Added x v dot inum ftDir true x2) (hsize : x.size = 0) (hpos : inum ≠ 0)
    (hlt : inum < 4294967296) : x2.Fits dotdot := by
  cases h with
  | put hk hf =>
    rw [hsize, Nat.zero_div] at hk
    exact absurd hk (Nat.not_lt_zero _)
  | grow hnone =>
    have hblock : ({ x.append (freshDirBlock dot inum ftDir) with vn := some { v with dirty := true } } : Ino).block 0 =
        freshDirBlock dot inum ftDir := by
      rw [Ino.block, Ino.append, hsize]
      rfl
    refine ⟨0, ?_, fun hno => ?_⟩
    · rw [Ino.append, hsize]
      dsimp only
      decide
    · rw [hblock, findSome?_eq_none_iff] at hno
      exact freshDirBlock_room hpos hlt
        (hno 0 (freshDirBlock_edit hlt hpos (by decide) ftDir).2.1)

theorem put_last {links : Nat} {dirty : Bool} (hv : y.vn = some ⟨i, 1, links, dirty, false⟩) :
    y.put = some { y with links := if dirty then links else y.links, vn := none } := by
  rw [Ino.put, hv]
  rfl

end Fill

/-- The name is not seen, and its entry is made for the new directory `inum`. -/
structure Filling (fs : Fs) (A : Abs) (n : Nat) (x : Ino) (v : Vn) (name : Name) (inum : Nat)
    (fs2 : Fs) (x2 : Ino) (v2 : Vn) : Prop extends Entered fs A n x v name inum true true fs2 x2 v2 where
  tidy : DirOk x
  named : ∀ m, (m, name) ∈ x.ents → A m ≠ none ∧ (iget m fs).1 = none
  fresh : A inum = none
  other : n ≠ inum
  good : 0 ∉ name
  pos : inum ≠ 0
  lt : inum < 4294967296

/-- The new directory with the vnode `nd`. -/
def openedIno (nd : Nat) : Ino := { linkedIno true with vn := some ⟨nd, 1, 1, false, false⟩ }

theorem openedIno_kind (nd : Nat) : (openedIno nd).kind = .dir :=
  show (linkedIno true).kind = .dir from rfl

section Filling

variable {fs fs2 fs3 : Fs} {A : Abs} {n inum nd : Nat} {x x2 : Ino} {v v2 : Vn} {name : Name}

section

variable (h : Filling fs A n x v name inum fs2 x2 v2)
include h

theorem Filling.no_node : findVnode fs2 inum = none := by
  apply h.rep.findVnode_none
  intro y hy
  rw [update_self] at hy
  cases hy
  rfl

theorem Filling.others {z : Ino} (hm : (m, name) ∈ x2.ents)
    (hne : m ≠ inum) : (∃ y, update (update A n (some x2)) inum (some z) m = some y) ∧ (iget m fs).1 = none := by
  cases Entered.named h.toEntered h.tidy h.other hm with
  | inl hnew => exact absurd hnew hne
  | inr hold =>
    rcases h.named m hold with ⟨hsome, hseen⟩
    refine ⟨?_, hseen⟩
    rw [update_of_ne hne]
    by_cases hmn : m = n
    · rw [hmn, update_self]
      exact ⟨x2, rfl⟩
    · rw [update_of_ne hmn]
      exact ne_none_iff_exists'.mp hsome

/-- `ext2_unlink` leaves the new inode allocated. -/
theorem Filling.undo {z : Ino}
    (hrep : Rep fs3 (update (update A n (some x2)) inum (some z))) (hk : z.kind = .dir) (hlinks : z.links = 1)
    (hs : Static fs fs3) (hsee : ∀ m, (iget m fs).1 = none → (iget m fs3).1 = none) (t : Nat) :
    ∃ fs' A', ((unlink t v.slot name fs3).map fun r => (false, r.2)) = some (false, fs') ∧ Rep fs' A' ∧
      Static fs fs' ∧ A' inum ≠ none := by
  have hself := update_self inum (some z) (update A n (some x2))
  have hx := update_of_ne h.other (some z) (update A n (some x2))
  rw [update_self] at hx
  have hnamed : ∀ m, (m, name) ∈ x2.ents → m ≠ n ∧ ∃ y, update (update A n (some x2)) inum (some z) m = some y ∧
      (y.kind = .dev → y.lessLinks = 0 → (iget m fs3).1 ≠ none →
        iBlock (inodeNow fs3 m) 0 = 0 ∧ iBlock (inodeNow fs3 m) 12 = 0) := by
    intro m hm
    by_cases hne : m = inum
    · subst hne
      exact ⟨h.other.symm, z, hself, fun hdev => by rw [hk] at hdev; cases hdev⟩
    · rcases h.others hm hne with ⟨⟨y, hy⟩, hseen⟩
      refine ⟨?_, y, hy, fun _ _ hthere => absurd (hsee m hseen) hthere⟩
      rintro rfl
      have hx' : update (update A m (some x2)) inum (some (linkedIno true)) m = some x2 := by
        rw [update_of_ne h.other, update_self]
      -- the directory has a vnode
      cases h.rep.iget hx' with
      | inl hsome =>
        rcases hsome with ⟨i, -, hi, -⟩
        rw [h.same.iget, hseen] at hi
        cases hi
      | inr hnone =>
        rw [h.node] at hnone
        cases hnone.1
  rcases hrep.unlink hx h.node h.kind h.good hnamed t with ⟨ok, fs', A', hun, hunlinked, hrep'⟩
  rw [h.slot] at hun
  refine ⟨fs', A', ?_, hrep', hs.trans (unlink_static hun), hunlinked.stays hself hk hlinks (Ne.symm h.other)⟩
  rw [hun]
  rfl

theorem Filling.no_vnode (hfull : VnodesFull fs) (t : Nat) :
    ∃ fs' A', fillDir t v.slot name inum fs2 = some (false, fs') ∧ Rep fs' A' ∧ Static fs fs' ∧ A' inum ≠ none := by
  have hno := (iget_none_iff h.no_node).mpr (h.same.full.mpr hfull)
  rw [fillDir]
  rw [hno, iget_none hno]
  exact h.undo h.rep rfl rfl h.static (fun m hm => (h.same.iget m).trans hm) t

theorem Filling.opened (hfree : ¬ VnodesFull fs) : ∃ nd fs3, iget inum fs2 = (some nd, fs3) ∧
      Rep fs3 (update (update A n (some x2)) inum (some (openedIno nd))) ∧
      fs3.taken nd = false ∧ spareBlocks fs3 = spareBlocks fs2 ∧ Static fs fs3 := by
  have hself := update_self inum (some (linkedIno true)) (update A n (some x2))
  have hstatic := iget_static inum fs2
  cases h.rep.iget hself with
  | inr hnone =>
    have hno := (iget_none_iff h.no_node).mp (by rw [hnone.2])
    exact absurd (h.same.full.mp hno) hfree
  | inl hsome =>
    rcases hsome with ⟨nd, w, hi, -, -, hrep⟩
    rcases iget_slot h.no_node hi with ⟨hslot, htaken, hdisk⟩
    rw [update_idem] at hrep
    refine ⟨nd, (iget inum fs2).2, Prod.ext hi rfl, hrep, by rw [htaken, hslot], ?_, h.static.trans hstatic⟩
    exact spareBlocks_of_disk hstatic (by rw [hdisk])

omit h in
/-- The entry "." takes a block. -/
theorem addDot_opened (hrep : Rep fs3 (update (update A n (some x2)) inum (some (openedIno nd)))) :
    ∃ ok fs4 x4, dirAdd nd dot inum ftDir fs3 = some (ok, fs4) ∧
      Added (openedIno nd) ⟨nd, 1, 1, false, false⟩ dot inum ftDir ok x4 ∧
      Rep fs4 (update (update A n (some x2)) inum (some x4)) ∧
      (ok = true ↔ spareBlocks fs3 ≠ 0) ∧ SameVnodes fs3 fs4 := by
  have hself := update_self inum (some (openedIno nd)) (update A n (some x2))
  have hk := openedIno_kind nd
  have hdot : goodName dot = true := by decide
  rcases hrep.dirAdd hself rfl hk hdot _ ftDir with ⟨ok, fs4, x4, hadd, hadded, hrep'⟩
  have hneed := hrep.firstNeed hself rfl hk hdot rfl rfl
  have hroom := (hrep.dirAdd_need hself rfl hk hdot hadd).1
  rw [hneed] at hroom
  rw [update_idem] at hrep'
  refine ⟨ok, fs4, x4, hadd, hadded, hrep', ?_, hrep.dirAdd_sameVnodes hself rfl hk hadd⟩
  rw [hroom]
  constructor
  · rintro ⟨b, hb, hle⟩
    cases hb
    omega
  · intro hne
    exact ⟨1, rfl, by omega⟩

/-- There is a vnode, but no block for ".". -/
theorem Filling.no_block (hfree : ¬ VnodesFull fs) (hspare : spareBlocks fs2 = 0) (t : Nat) :
    ∃ fs' A', fillDir t v.slot name inum fs2 = some (false, fs') ∧ Rep fs' A' ∧ Static fs fs' ∧ A' inum ≠ none := by
  rcases h.opened hfree with ⟨nd, fs3, hget, hrep3, -, hspare3, hs3⟩
  rcases addDot_opened hrep3 with ⟨ok, fs4, x4, hadd, hadded, hrep4, hok, -⟩
  have hfail : ok = false := by
    cases ok with
    | false => rfl
    | true => exact absurd (hspare3.trans hspare) (hok.mp rfl)
  rw [hfail] at hadd hadded
  have hself := update_self inum (some x4) (update A n (some x2))
  rcases hadded.node rfl with ⟨dirty, hv4⟩
  rcases hrep4.vput hself hv4 with ⟨fs5, hput, hrep5⟩
  rw [put_last hv4, update_idem] at hrep5
  have hx4 : x4.kind = .dir ∧ x4.links = 1 := by
    cases hadded with
    | full hnone => exact ⟨openedIno_kind nd, rfl⟩
  have hlinks : (if dirty then 1 else x4.links) = 1 := by rw [hx4.2, ite_self]
  rw [fillDir]
  rw [hget]
  dsimp only
  rw [hadd, bind_some]
  rw [if_neg Bool.false_ne_true, bind_some]
  rw [if_neg Bool.false_ne_true, hput, bind_some]
  exact h.undo hrep5 hx4.1 hlinks ((hs3.trans (dirAdd_static hadd)).trans (vput_static hput))
    (fun m hm => absurd (iget_no_room hm) hfree) t

/-- There is a block for ".", and then ".." takes none. -/
theorem Filling.addDots
    (hrep3 : Rep fs3 (update (update A n (some x2)) inum (some (openedIno nd)))) (hspare : spareBlocks fs3 ≠ 0) :
    ∃ fs4 fs5, dirAdd nd dot inum ftDir fs3 = some (true, fs4) ∧
      dirAdd nd dotdot (fs4.vnodes v.slot).inum ftDir fs4 = some (true, fs5) ∧ SameVnodes fs3 fs5 ∧
      (fs5.vnodes nd).ref = 1 ∧ (fs5.vnodes nd).priv.orphaned = false := by
  have hk3 := openedIno_kind nd
  rcases addDot_opened hrep3 with ⟨ok, fs4, x4, hadd, hadded, hrep4, hok, hsame4⟩
  have htrue : ok = true := hok.mpr hspare
  subst htrue
  have hself4 := update_self inum (some x4) (update A n (some x2))
  have hx2 := update_of_ne h.other (some x4) (update A n (some x2))
  rw [update_self] at hx2
  have hparent := hrep4.ino n x2 hx2
  have hpos : n ≠ 0 := one_le_iff_ne_zero.mp hparent.valid.1
  have hlt : n < 4294967296 := Nat.lt_of_le_of_lt hparent.valid.2 (u32_lt fs4.sb 0)
  have hd3 := hrep3.dirOk (update_self ..) hk3
  have hk4 : x4.kind = .dir := (hadded.places hd3 rfl h.lt h.pos (by decide)).2.2.1.trans hk3
  have hdots : goodName dotdot = true := by decide
  rcases hadded.node rfl with ⟨dirty4, hv4⟩
  rcases hrep4.dirAdd hself4 hv4 hk4 hdots _ ftDir with ⟨ok5, fs5, x5, hadd5, hadded5, hrep5⟩
  have hfits := (hrep4.entryNeed hself4 hv4 hk4 hdots).1 (hadded.dotdot_fits rfl h.pos h.lt)
  have hok5 := (hrep4.dirAdd_need hself4 hv4 hk4 hdots hadd5).1.mpr ⟨0, hfits, Nat.zero_le _⟩
  subst hok5
  rcases hadded5.node hv4 with ⟨dirty5, hv5⟩
  have hnode := (hrep5.ino inum x5 (update_self ..)).node _ hv5
  refine ⟨fs4, fs5, hadd, ?_, hsame4.trans (hrep4.dirAdd_sameVnodes hself4 hv4 hk4 hadd5), hnode.ref, hnode.orphaned⟩
  rwa [← h.slot, (hparent.node v2 h.node).inum]

omit h in
theorem vput_leaves {i : Nat} (hone : (fs.vnodes i).ref = 1) (ho : (fs.vnodes i).priv.orphaned = false) :
    ∃ fs', vput i fs = some fs' ∧ (fs'.vnodes i).ref = 0 ∧ fs'.taken = fs.taken ∧ fs'.pages ≠ 0 := by
  rw [vput, if_neg (by omega), if_pos hone, ho, if_neg (fun hw => Bool.false_ne_true hw.1), destroy, ho,
    if_neg Bool.false_ne_true]
  refine ⟨_, rfl, ?_⟩
  by_cases hd : (fs.vnodes i).priv.dirty = true
  · rw [if_pos hd]
    exact ⟨congrArg Node.ref (setNode_vnodes_self fs i _), rfl, succ_ne_zero _⟩
  · rw [if_neg hd]
    exact ⟨congrArg Node.ref (setNode_vnodes_self fs i _), rfl, succ_ne_zero _⟩

/-- Both entries are made, and there is a vnode again. -/
theorem Filling.done (hfree : ¬ VnodesFull fs) (hspare : spareBlocks fs2 ≠ 0) (t : Nat) :
    ∃ fs', fillDir t v.slot name inum fs2 = some (true, fs') ∧ (iget inum fs').1 ≠ none := by
  rcases h.opened hfree with ⟨nd, fs3, hget, hrep3, htaken, hspare3, -⟩
  have hslot := ((hrep3.ino inum _ (update_self ..)).node ⟨nd, 1, 1, false, false⟩ rfl).slot
  rcases h.addDots hrep3 (by rw [hspare3]; exact hspare) with ⟨fs4, fs5, hadd4, hadd5, hsame5, href5, horphaned⟩
  have hsame6 := setPriv_sameVnodes fs5 nd
    { (fs5.vnodes nd).priv with ino := setLinks (fs5.vnodes nd).priv.ino 2, dirty := true }
  rcases @vput_leaves (fs5.setPriv nd { (fs5.vnodes nd).priv with
      ino := setLinks (fs5.vnodes nd).priv.ino 2, dirty := true }) nd
    (by rw [hsame6.ref]; exact href5) (by rw [Fs.setPriv, setNode_vnodes_self]; exact horphaned) with
    ⟨fs6, hput, href6, htaken6, hpages6⟩
  have hsame7 := setPriv_sameVnodes fs6 v.slot { (fs6.vnodes v.slot).priv with
    ino := setLinks (fs6.vnodes v.slot).priv.ino (iLinks (fs6.vnodes v.slot).priv.ino + 1), dirty := true }
  refine ⟨fs6.setPriv v.slot { (fs6.vnodes v.slot).priv with
    ino := setLinks (fs6.vnodes v.slot).priv.ino (iLinks (fs6.vnodes v.slot).priv.ino + 1), dirty := true }, ?_,
    fun hnone => ?_⟩
  · rw [fillDir]
    rw [hget]
    dsimp only
    rw [hadd4, bind_some]
    rw [if_pos rfl, hadd5, bind_some]
    rw [if_pos rfl, hput]
    rfl
  · cases iget_no_room hnone with
    | inl hfull =>
      have ht := hfull nd hslot (by rw [hsame7.ref, href6])
      rw [hsame7.taken, htaken6, hsame6.taken, hsame5.taken, htaken] at ht
      cases ht
    | inr hpages => exact hpages6 (hsame7.pages.symm.trans hpages)

end

end Filling

/-! ### When nothing is left behind -/

/-- The part of `ext2_create` after the entry is made. -/
def finishCreate (t d : Nat) (name : Name) (dir : Bool) (inum : Nat) (fs : Fs) : Option (Option Nat × Fs) :=
  (if dir then fillDir t d name inum fs else some (true, fs)).map fun c =>
    if c.1 then
      let g := iget inum c.2
      match g.1 with
      | none => (none, g.2)
      | some i => (some i, writeback d (writeback i g.2))
    else (none, c.2)

theorem create_eq {dir : Bool} {fs fs0 : Fs} (hno : nameTaken d name (touch t false true d fs) = some (false, fs0))
    (ha : ialloc (newMode dir) t fs0 = a) (h0 : a.1 ≠ 0) : create t d name dir fs =
      (dirAdd d name a.1 (newFtype dir) (writeInode a.1 (setLinks (readInode a.2 a.1) 1) a.2)).bind fun b =>
        if b.1 then finishCreate t d name dir a.1 b.2 else some (none, ifree a.1 b.2) := by
  rw [create, hno, bind_some]
  rw [if_neg Bool.false_ne_true, ha, if_neg h0]
  rfl

section Create

variable {fs fs2 : Fs} {A : Abs} {n inum : Nat} {x x2 : Ino} {v v2 : Vn} {name : Name}
  {dir : Bool}

theorem Timed.nameThere_iff (h : Timed fs fs') : NameThere fs' d name ↔ NameThere fs d name := by
  rw [NameThere, NameThere]
  simp only [h.walkDir, h.iget]

theorem Entered.freed (he : Entered fs A n x v name inum dir false fs2 x2 v2) (h : Rep fs A)
    (hx : A n = some x) (hv : x.vn = some v) (hk : x.kind = .dir) (hfresh : A inum = none) (hne : n ≠ inum) :
    Undone v.slot fs (ifree inum fs2) := by
  have hfree := he.rep.ifree (update_self ..) rfl
  have hnone : update (update A n (some x2)) inum none = update A n (some x2) := by
    rw [update_eq_self_iff, update_of_ne (Ne.symm hne), hfresh]
  rw [update_idem, hnone] at hfree
  exact h.undone hx hv hk hfree he.node he.kind (he.static.trans (ifree_static inum fs2)) he.slot he.links he.entry

/-- A file needs a vnode only. -/
theorem Entered.file (he : Entered fs A n x v name inum false true fs2 x2 v2) (t : Nat) :
    (VnodesFull fs → finishCreate t v.slot name false inum fs2 = some (none, fs2)) ∧
      (¬ VnodesFull fs → ∃ i fs', finishCreate t v.slot name false inum fs2 = some (some i, fs')) := by
  have hfind : findVnode fs2 inum = none := by
    apply he.rep.findVnode_none
    intro y hy
    rw [update_self] at hy
    cases hy
    rfl
  rw [finishCreate, if_neg Bool.false_ne_true, map_some]
  dsimp only
  rw [if_pos rfl]
  cases hi : (iget inum fs2).1 with
  | none =>
    have hfull := he.same.full.mp ((iget_none_iff hfind).mp hi)
    exact ⟨fun _ => by rw [iget_none hi], fun hfree => absurd hfull hfree⟩
  | some i =>
    refine ⟨fun hfull => ?_, fun _ => ⟨i, _, rfl⟩⟩
    rw [(iget_none_iff hfind).mpr (he.same.full.mpr hfull)] at hi
    cases hi

/-- A directory needs a vnode and a block. -/
theorem Filling.finish (h : Filling fs A n x v name inum fs2 x2 v2) (t : Nat) :
    (VnodesFull fs ∨ spareBlocks fs2 = 0 → ∃ fs' A', finishCreate t v.slot name true inum fs2 = some (none, fs') ∧
        Rep fs' A' ∧ Static fs fs' ∧ A' inum ≠ none) ∧
      (¬ (VnodesFull fs ∨ spareBlocks fs2 = 0) →
        ∃ i fs', finishCreate t v.slot name true inum fs2 = some (some i, fs')) := by
  rw [finishCreate, if_pos rfl]
  constructor
  · intro hfails
    have hundo : ∃ fs' A', fillDir t v.slot name inum fs2 = some (false, fs') ∧ Rep fs' A' ∧ Static fs fs' ∧
        A' inum ≠ none := by
      by_cases hfull : VnodesFull fs
      · exact h.no_vnode hfull t
      · exact h.no_block hfull (hfails.resolve_left hfull) t
    rcases hundo with ⟨fs', A', hfill, hrest⟩
    refine ⟨fs', A', ?_, hrest⟩
    rw [hfill]
    rfl
  · intro hworks
    rw [not_or] at hworks
    rcases h.done hworks.1 hworks.2 t with ⟨fs', hfill, hthere⟩
    rw [hfill, map_some]
    dsimp only
    rw [if_pos rfl]
    cases hi : (iget inum fs').1 with
    | none => exact absurd hi hthere
    | some i => exact ⟨i, _, rfl⟩

theorem Entered.finish (he : Entered fs A n x v name inum dir true fs2 x2 v2)
    (hfill : dir = true → Filling fs A n x v name inum fs2 x2 v2) (t : Nat) :
    (VnodesFull fs ∨ dir = true ∧ spareBlocks fs2 = 0 →
        ∃ fs' A', finishCreate t v.slot name dir inum fs2 = some (none, fs') ∧ Rep fs' A' ∧ Static fs fs' ∧
          A' inum ≠ none) ∧
      (¬ (VnodesFull fs ∨ dir = true ∧ spareBlocks fs2 = 0) →
        ∃ i fs', finishCreate t v.slot name dir inum fs2 = some (some i, fs')) := by
  cases dir with
  | true =>
    simp only [true_and]
    exact (hfill rfl).finish t
  | false =>
    simp only [Bool.false_eq_true, false_and, or_false]
    refine ⟨fun hfull => ⟨fs2, _, (he.file t).1 hfull, he.rep, he.static, ?_⟩, (he.file t).2⟩
    rw [update_self]
    exact some_ne_none _

section

variable (h : Rep fs A) (hx : A n = some x) (hv : x.vn = some v) (hk : x.kind = .dir)
include h hx hv hk

theorem Rep.undone_touch (h' : Rep fs' (update A n (some x.dirtied))) (hs : Static fs fs') : Undone v.slot fs fs' :=
  h.undone hx hv hk h' (Ino.dirtied_vn hv) hk hs rfl rfl rfl

theorem Rep.nameTaken_touch (hg : goodName name = true) (hall : ∀ e ∈ x.ents, A e.1 ≠ none) (t : Nat) :
    (NameThere fs v.slot name ∧ ∃ fs', Ext2.nameTaken v.slot name (Ext2.touch t false true v.slot fs) =
      some (true, fs') ∧
      Rep fs' (update A n (some x.dirtied)) ∧ Static fs fs') ∨
    ¬ NameThere fs v.slot name ∧ Ext2.nameTaken v.slot name (Ext2.touch t false true v.slot fs) =
      some (false, Ext2.touch t false true v.slot fs) := by
  have ht := touch_timed t false true v.slot fs
  have h0 := @Rep.touch fs A n x v h hx hv t false true rfl
  have hx0 := update_self n (some x.dirtied) A
  have hv0 := Ino.dirtied_vn hv
  have hall0 : ∀ e ∈ x.dirtied.ents, update A n (some x.dirtied) e.1 ≠ none := by
    intro e he
    by_cases hen : e.1 = n
    · rw [hen, update_self]
      exact some_ne_none _
    · rw [update_of_ne hen]
      exact hall e he
  rw [← ht.nameThere_iff]
  cases h0.nameTaken hx0 hv0 hk (goodName_iff.mp hg).2.2 hall0 with
  | inr habsent => exact .inr habsent
  | inl hthere =>
    rcases hthere with ⟨hseen, fs', htaken, hrep, hs⟩
    exact .inl ⟨hseen, fs', htaken, hrep, ht.static.trans hs⟩

/-- The name is seen, or there is no inode. -/
theorem Rep.create_early (hg : goodName name = true) (hall : ∀ e ∈ x.ents, A e.1 ≠ none) (t : Nat)
    (hearly : NameThere fs v.slot name ∨ InodesFull fs) :
    ∃ fs', create t v.slot name dir fs = some (none, fs') ∧ Undone v.slot fs fs' := by
  have ht := touch_timed t false true v.slot fs
  rw [create]
  cases h.nameTaken_touch hx hv hk hg hall t with
  | inl hthere =>
    rcases hthere with ⟨-, fs', htaken, hrep, hs⟩
    refine ⟨fs', ?_, h.undone_touch hx hv hk hrep hs⟩
    rw [htaken]
    rfl
  | inr habsent =>
    have hfull := ht.inodesFull.mpr (hearly.resolve_left habsent.1)
    refine ⟨_, ?_, h.undone_touch hx hv hk (@Rep.touch fs A n x v h hx hv t false true rfl) ht.static⟩
    rw [habsent.2, bind_some]
    rw [if_neg Bool.false_ne_true, ialloc_full hfull, if_pos rfl]

end

end Create

section Main

variable {fs : Fs} {A : Abs} {n : Nat} {x : Ino} {v : Vn} {name : Name}
  (h : Rep fs A) (hx : A n = some x) (hv : x.vn = some v) (hk : x.kind = .dir) (hg : goodName name = true)
  (hall : ∀ e ∈ x.ents, A e.1 ≠ none) (honce : ∀ {m m'}, (m, name) ∈ x.ents → (m', name) ∈ x.ents → m = m')
include h hx hv hk hg hall honce

/-- The name is not seen, and there is an inode: the call makes the entry, or frees the inode again. -/
theorem Rep.create_late (t : Nat) (dir : Bool) (hno : ¬ NameThere fs v.slot name) (hfree : ¬ InodesFull fs) :
    (Strands fs v.slot name dir → ∃ fs', create t v.slot name dir fs = some (none, fs') ∧ ¬ Undone v.slot fs fs') ∧
      (¬ Strands fs v.slot name dir →
        ∀ fs', create t v.slot name dir fs = some (none, fs') → Undone v.slot fs fs') := by
  generalize ha : Ext2.ialloc (newMode dir) t (Ext2.touch t false true v.slot fs) = a
  have hb := h.begun hx hv ha hfree
  have hne : n ≠ a.1 := by
    intro he
    rw [he, hb.fresh] at hx
    cases hx
  rcases hb.enter h hx hv hk hg with ⟨ok, fs2, x2, v2, hadd, he⟩
  cases h.nameTaken_touch hx hv hk hg hall t with
  | inl hthere => exact absurd hthere.1 hno
  | inr habsent =>
    rw [create_eq habsent.2 ha hb.pos, hadd, bind_some]
    cases ok with
    | false =>
      rw [if_neg Bool.false_ne_true]
      refine ⟨fun hs => ?_, fun _ fs' hfs' => ?_⟩
      · rcases hs.room with ⟨b, hneed, hle, -⟩
        cases he.room.mpr ⟨b, hneed, hle⟩
      · cases hfs'
        exact he.freed h hx hv hk hb.fresh hne
    | true =>
      rw [if_pos rfl]
      rcases he.room.mp rfl with ⟨b, hneed, hle⟩
      have hspare := he.spare b hneed rfl
      have hfill : dir = true → Filling fs A n x v name a.1 fs2 x2 v2 := by
        rintro rfl
        refine ⟨he, h.dirOk hx hk, fun m hm => ⟨hall _ hm, ?_⟩, hb.fresh, hne, (goodName_iff.mp hg).2.2, hb.pos, hb.lt⟩
        exact h.unseen hx hv hk (goodName_iff.mp hg).2.2 honce hno hm
      have hstrands : Strands fs v.slot name dir ↔ VnodesFull fs ∨ dir = true ∧ spareBlocks fs2 = 0 := by
        have hzero : spareBlocks fs2 = 0 ↔ spareBlocks fs = b := by omega
        rw [hzero]
        constructor
        · rintro ⟨-, -, b', hneed', -, hfails⟩
          rw [hneed] at hneed'
          cases hneed'
          exact hfails
        · exact fun hfails => ⟨hno, hfree, b, hneed, hle, hfails⟩
      rw [hstrands]
      constructor
      · intro hfails
        rcases (he.finish hfill t).1 hfails with ⟨fs', A', hfinish, hrep, hs, hthere⟩
        exact ⟨fs', hfinish, h.not_undone hrep hs hb.fresh hthere⟩
      · intro hworks fs' hfs'
        rcases (he.finish hfill t).2 hworks with ⟨i, fs'', hfinish⟩
        rw [hfinish] at hfs'
        cases hfs'

theorem Rep.create_fails (t : Nat) (dir : Bool) :
    (Strands fs v.slot name dir → ∃ fs', create t v.slot name dir fs = some (none, fs') ∧ ¬ Undone v.slot fs fs') ∧
      (¬ Strands fs v.slot name dir →
        ∀ fs', create t v.slot name dir fs = some (none, fs') → Undone v.slot fs fs') := by
  by_cases hearly : NameThere fs v.slot name ∨ InodesFull fs
  · rcases @Rep.create_early fs A n x v name dir h hx hv hk hg hall t hearly with ⟨fs1, hcreate, hundone⟩
    refine ⟨fun hs => ?_, fun _ fs' hfs' => ?_⟩
    · cases hearly with
      | inl hseen => exact absurd hseen hs.unseen
      | inr hfull => exact absurd hfull hs.inode
    · rw [hcreate] at hfs'
      cases hfs'
      exact hundone
  · rw [not_or] at hearly
    exact h.create_late hx hv hk hg hall honce t dir hearly.1 hearly.2

omit h hx hv hk hg hall honce in
theorem mkdir_fails_iff : mkdir t d name fs = some (false, fs') ↔ create t d name true fs = some (none, fs') := by
  rw [mkdir]
  cases hc : create t d name true fs with
  | none => simp
  | some r =>
    rcases r with ⟨o, fs1⟩
    cases o with
    | none => simp
    | some i =>
      rw [bind_some]
      cases vput i fs1 with
      | none => simp
      | some fs2 => simp

/-- A call of `ext2_create`, or of `ext2_mkdir`, that fails leaves the names of the directory, the link counts and the
inodes in use as they were, unless it gets as far as to enter the name. -/
theorem failed_create_undone_iff (t : Nat) (dir : Bool) :
    ((∀ fs', create t v.slot name dir fs = some (none, fs') → Undone v.slot fs fs') ∧
      (dir = true → ∀ fs', mkdir t v.slot name fs = some (false, fs') → Undone v.slot fs fs')) ↔
    ¬ Strands fs v.slot name dir := by
  have hfails := h.create_fails hx hv hk hg hall honce t dir
  constructor
  · rintro ⟨hcreate, -⟩ hs
    rcases hfails.1 hs with ⟨fs', hfs', hnot⟩
    exact hnot (hcreate fs' hfs')
  · intro hs
    refine ⟨hfails.2 hs, ?_⟩
    rintro rfl fs' hfs'
    exact hfails.2 hs fs' (mkdir_fails_iff.mp hfs')

end Main

/-! ### The directory with a device -/

theorem smallDirIno_mem : e ∈ smallDirIno.ents ↔ e = (3, devName) := by
  rw [mem_ents_iff smallDirIno_ok, smallDirIno_entry]
  constructor
  · rintro ⟨p, hp⟩
    by_cases h0 : p = 0
    · rw [h0, update_self] at hp
      cases hp
      rfl
    · rw [update_of_ne h0] at hp
      cases hp
  · rintro rfl
    exact ⟨0, update_self ..⟩

theorem smallDirIno_named : ∀ e ∈ smallDirIno.ents, smallAbs e.1 ≠ none := by
  intro e he
  rw [smallDirIno_mem.mp he]
  exact some_ne_none _

theorem smallDirIno_once {m' : Nat} (h : (m, name) ∈ smallDirIno.ents) (h' : (m', name) ∈ smallDirIno.ents) :
    m = m' := by
  rw [(Prod.mk.inj (smallDirIno_mem.mp h)).1, (Prod.mk.inj (smallDirIno_mem.mp h')).1]

/-- Inodes behind the last one in use can be left out. -/
theorem Rep.fewer {fs : Fs} {A : Abs} (h : Rep fs A) {sb : Bytes} (hle : sInodesCount sb ≤ sInodesCount fs.sb)
    (hall : ∀ n x, A n = some x → n ≤ sInodesCount sb) : Rep { fs with sb := sb } A := by
  have hvalid : ∀ {n}, ValidIno { fs with sb := sb } n → ValidIno fs n := fun hn => ⟨hn.1, hn.2.trans hle⟩
  have hmeta : ∀ {b}, Meta { fs with sb := sb } b → Meta fs b :=
    Or.imp_right (Or.imp_right (Or.imp_right fun ⟨n, hn, hb⟩ => ⟨n, hvalid hn, hb⟩))
  have hg := h.ground
  refine ⟨⟨⟨hg.size, hg.fits, hle.trans hg.count, hg.bitmaps, hg.blockMap, hg.inodeMap,
    fun n hn => hg.table n (hvalid hn)⟩, fun b hb => hg.marked b (hmeta hb)⟩, fun n x hx => ?_, h.apart,
    fun n hn => h.free n (hvalid hn), h.live⟩
  have hr := h.ino n x hx
  refine ⟨⟨hr.valid.1, hall n x hx⟩, hr.used, hr.mode, hr.links, fun v hv => ?_, fun hk => ?_, fun hk => ?_, hr.tidy⟩
  · have hv := hr.node v hv
    exact ⟨hv.slot, hv.pos, hv.ref, hv.inum, hv.type, hv.mode, hv.links, hv.dirty, hv.orphaned, hv.clean, hv.length,
      hv.husk⟩
  · have ho := hr.own hk
    exact ⟨ho.nodup, ho.used, fun b hb hm => ho.data b hb (hmeta hm)⟩
  · exact ⟨(hr.shows hk).size, (hr.shows hk).blocks⟩

/-- The volume has four inodes, all in use but the first. -/
def fourInodes : Fs := { smallFs false with sb := put32 (smallFs false).sb 0 4 }

theorem fourInodes_rep : Rep fourInodes smallAbs := by
  refine (smallFs_rep false).fewer (by decide +kernel) fun n x hx => ?_
  have hcount : sInodesCount (put32 (smallFs false).sb 0 4) = 4 := by decide +kernel
  rw [hcount]
  by_contra hn
  rw [smallAbs, if_neg (by omega), if_neg (by omega), if_neg (by omega)] at hx
  cases hx

/-- There is no inode for a new file or directory. -/
theorem no_inode_undone : ∃ fs' fs'', create 0 0 [102] true fourInodes = some (none, fs') ∧ Undone 0 fourInodes fs' ∧
    mkdir 0 0 [102] fourInodes = some (false, fs'') ∧ Undone 0 fourInodes fs'' := by
  have hfull : InodesFull fourInodes := by
    unfold InodesFull
    decide +kernel
  have hundone := (failed_create_undone_iff fourInodes_rep (n := 2) (x := smallDirIno)
    (v := ⟨0, 1, 2, false, false⟩) rfl rfl rfl (show goodName [102] = true by decide)
    smallDirIno_named smallDirIno_once 0 true).mpr fun hs => hs.inode hfull
  have hcreate : (create 0 0 [102] true fourInodes).map Prod.fst = some none := by decide +kernel
  have hmkdir : (mkdir 0 0 [102] fourInodes).map Prod.fst = some false := by decide +kernel
  rcases map_eq_some_iff.mp hcreate with ⟨⟨o, fs'⟩, hfs', ho⟩
  rcases map_eq_some_iff.mp hmkdir with ⟨⟨b, fs''⟩, hfs'', hb⟩
  cases ho
  cases hb
  exact ⟨fs', fs'', hfs', hundone.1 fs' hfs', hfs'', hundone.2 rfl fs'' hfs''⟩

/-- There is no page for the vnode of a new file: inode 5 and its entry remain. -/
theorem create_without_page : Rep { smallFs false with taken := fun _ => false, pages := 0 } smallAbs ∧
    ∃ fs', create 0 0 [102] false { smallFs false with taken := fun _ => false, pages := 0 } = some (none, fs') ∧
      (5, [102]) ∈ dirEntries 0 fs' ∧ ¬ Undone 0 { smallFs false with taken := fun _ => false, pages := 0 } fs' := by
  refine ⟨(smallFs_rep false).others (fun _ => false) 0, ?_⟩
  have hrun : ((create 0 0 [102] false { smallFs false with taken := fun _ => false, pages := 0 }).map fun r =>
      (r.1, decide ((5, [102]) ∈ dirEntries 0 r.2), inodeUsed r.2 5)) = some (none, true, true) := by decide +kernel
  rcases map_eq_some_iff.mp hrun with ⟨⟨o, fs'⟩, hfs', he⟩
  rcases Prod.mk.inj he with ⟨ho, he⟩
  rcases Prod.mk.inj he with ⟨hin, hused⟩
  dsimp only at ho hin hused
  rw [ho] at hfs'
  refine ⟨fs', hfs', of_decide_eq_true hin, fun hu => ?_⟩
  have hsame := hu.inodes 5 (by decide +kernel)
  have hfree : inodeUsed { smallFs false with taken := fun _ => false, pages := 0 } 5 = false := by decide +kernel
  rw [hused, hfree] at hsame
  cases hsame

end Xv6Vfs.Ext2
