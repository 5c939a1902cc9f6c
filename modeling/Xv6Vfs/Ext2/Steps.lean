import Xv6Vfs.Ext2.Rep
import Xv6Vfs.Ext2.Truncate

/-! What the driver's primitives do to the inodes: changes of a vnode, of the copy on disk and of
the inode bitmap. -/
namespace Xv6Vfs.Ext2
open Xv6Vfs.Bytes Xv6Vfs.Vfs Function List Nat

variable {w : Node} {ino : Bytes}

section Confine

variable {fs fs' : Fs} {n b : Nat}

theorem kept_of_disk (hs : Static fs fs') (hb : fs'.disk (bgBlockBitmap fs.bg) = fs.disk (bgBlockBitmap fs.bg))
    (hd : ∀ b, ¬ Meta fs b → fs'.disk b = fs.disk b) (hu : blockUsed fs b = true) : Kept fs fs' b := by
  refine ⟨?_, hd b⟩
  unfold blockUsed at hu ⊢
  rwa [hs.bg, hb]

/-- A change of vnodes that concerns inode `n` only. -/
theorem confined_of_vnodes (hd : fs'.disk = fs.disk) (hs : Static fs fs')
    (hold : ∀ i, fs'.vnodes i = fs.vnodes i ∨
      (0 < (fs.vnodes i).ref → (fs.vnodes i).inum = n) ∧ (0 < (fs'.vnodes i).ref → (fs'.vnodes i).inum = n)) :
    Confined [] n fs fs' := by
  have hkept : ∀ b, blockUsed fs b = true → Kept fs fs' b := fun b =>
    kept_of_disk hs (by rw [hd]) fun _ _ => by rw [hd]
  refine ⟨hs, fun m _ _ => ?_, fun i hpos hne => (hold i).resolve_right fun h => hne (h.1 hpos),
    fun i hpos hne => (hold i).resolve_right fun h => hne (h.2 hpos), fun b _ hu => (hkept b hu).used,
    fun b hu _ => hkept b hu⟩
  unfold readInode inodeUsed
  rw [hs.inoBlock, hs.inoOffset, hs.bg, hd]
  exact ⟨fun _ _ => rfl, rfl⟩

theorem setNode_confined (i : Nat) (hold : 0 < (fs.vnodes i).ref → (fs.vnodes i).inum = n)
    (hnew : 0 < w.ref → w.inum = n) : Confined [] n fs (fs.setNode i w) := by
  refine confined_of_vnodes rfl (setNode_static fs i w) fun j => ?_
  by_cases hj : j = i
  · subst hj
    refine .inr ⟨hold, ?_⟩
    simpa [Fs.setNode] using hnew
  · exact .inl (by simp [Fs.setNode, hj])

theorem others_confined (n : Nat) (fs : Fs) (taken : Nat → Bool) (pages : Nat) :
    Confined [] n fs { fs with taken := taken, pages := pages } :=
  confined_of_vnodes rfl (static_of_eq rfl rfl rfl) fun _ => .inl rfl

theorem writeInode_disk (hb : b ≠ inoBlock fs n) : (writeInode n ino fs).disk b = fs.disk b :=
  bwrite_disk fs _ hb

section

variable (hg : Geo fs) (hn : ValidIno fs n)
include hg hn

theorem writeInode_kept (ino : Bytes) (hu : blockUsed fs b = true) : Kept fs (writeInode n ino fs) b := by
  apply kept_of_disk (writeInode_static n ino fs) _ _ hu
  · exact writeInode_disk (hg.table n hn).2.1.symm
  · intro b hb
    exact writeInode_disk ((not_meta hb).2.2.2 n hn)

theorem writeInode_used (ino : Bytes) (m : Nat) : inodeUsed (writeInode n ino fs) m = inodeUsed fs m := by
  unfold inodeUsed
  rw [(writeInode_static n ino fs).bg, writeInode_disk (hg.table n hn).2.2.symm]

theorem writeInode_confined (ino : Bytes) : Confined [] n fs (writeInode n ino fs) where
  static := writeInode_static n ino fs
  inode m hm hne :=
    ⟨fun _ hj => readInode_writeInode_ne hg ino hn hm hne hj, writeInode_used hg hn ino m⟩
  node _ _ _ := rfl
  fresh _ _ _ := rfl
  marked _ _ hu := (writeInode_kept hg hn ino hu).used
  kept _ hu _ := writeInode_kept hg hn ino hu

/-- A change of the superblock's counters and of the bit of inode `n`. -/
theorem confined_of_imap (hs : Static fs fs') (hv : fs'.vnodes = fs.vnodes)
    (hd : ∀ b, b ≠ 1 → b ≠ bgInodeBitmap fs.bg → fs'.disk b = fs.disk b)
    (hbit : ∀ i, i ≠ n - 1 → bit (fs'.disk (bgInodeBitmap fs.bg)) i = bit (fs.disk (bgInodeBitmap fs.bg)) i) :
    Confined [] n fs fs' := by
  have hkept : ∀ b, blockUsed fs b = true → Kept fs fs' b := fun b =>
    kept_of_disk hs (hd _ hg.blockMap hg.bitmaps) fun b hb => hd b (not_meta hb).1 (not_meta hb).2.2.1
  refine ⟨hs, fun m hm hne => ?_, fun i _ _ => by rw [hv], fun i _ _ => by rw [hv],
    fun b _ hu => (hkept b hu).used, fun b hu _ => hkept b hu⟩
  have hb := hg.table m hm
  have h1 := hm.1
  have h2 := hn.1
  unfold readInode inodeUsed
  rw [hs.inoBlock, hs.inoOffset, hs.bg, hd _ hb.1 hb.2.2, hbit (m - 1) (by omega)]
  exact ⟨fun _ _ => rfl, rfl⟩

theorem ifree_confined : Confined [] n fs (ifree n fs) := by
  refine confined_of_imap hg hn (ifree_static n fs) rfl (fun b h1 h2 => ?_) fun i hi => ?_
  · exact (sbWrite_disk 16 1 _ h1).trans (bwrite_disk fs _ h2)
  · show bit ((sbWrite 16 1 (bitmapFree _ n 1 fs)).disk _) i = _
    rw [sbWrite_disk _ _ _ hg.inodeMap, bitmapFree, bwrite_disk_self, bit_clearBit,
      decide_eq_true (Ne.symm hi), Bool.and_true]

end

theorem ifree_vnodes (n : Nat) (fs : Fs) : (ifree n fs).vnodes = fs.vnodes := rfl

theorem ifree_used (hg : Geo fs) (n : Nat) : inodeUsed (ifree n fs) n = false := by
  unfold inodeUsed
  rw [(ifree_static n fs).bg]
  show bit ((sbWrite 16 1 (bitmapFree _ n 1 fs)).disk _) (n - 1) = _
  rw [sbWrite_disk _ _ _ hg.inodeMap, bitmapFree, bwrite_disk_self, bit_clearBit]
  simp

end Confine

/-- The vnode in a slot, in the abstract. -/
def Vn.of (slot : Nat) (w : Node) : Vn := ⟨slot, w.ref, iLinks w.priv.ino, w.priv.dirty, w.priv.orphaned⟩

/-- The vnode has something to write back. -/
def Ino.dirtied (x : Ino) : Ino := { x with vn := x.vn.map fun v => { v with dirty := true } }

theorem Ino.dirtied_vn {x : Ino} {v : Vn} (hv : x.vn = some v) : x.dirtied.vn = some { v with dirty := true } := by
  rw [Ino.dirtied, hv]
  rfl

/-- Written back. -/
def Ino.settled (x : Ino) : Ino :=
  match x.vn with
  | none => x
  | some v => if v.dirty then { x with links := v.links, vn := some { v with dirty := false } } else x

/-- One more reference, to a vnode in `slot` if there was none. -/
def Ino.got (x : Ino) (slot : Nat) : Ino :=
  { x with vn := some (match x.vn with
    | none => ⟨slot, 1, x.links, false, false⟩
    | some v => { v with ref := v.ref + 1 }) }

/-- One reference less; with the last one an orphaned inode goes. -/
def Ino.put (x : Ino) : Option Ino :=
  match x.vn with
  | none => some x
  | some v =>
    if 1 < v.ref then some { x with vn := some { v with ref := v.ref - 1 } }
    else if v.orphaned then none
    else some { x with links := if v.dirty then v.links else x.links, vn := none }

section Vnodes

variable {fs fs1 : Fs} {A : Abs} {n i : Nat} {x x' : Ino} {v : Vn}

theorem Own.setNode (h : Own fs ino) (i : Nat) (w : Node) : Own (fs.setNode i w) ino :=
  ⟨h.nodup, h.used, h.data⟩

theorem Shows.setNode (h : Shows fs ino x) (i : Nat) (w : Node) : Shows (fs.setNode i w) ino x :=
  ⟨h.size, h.blocks⟩

@[simp] theorem setNode_vnodes_self (fs : Fs) (i : Nat) (w : Node) : (fs.setNode i w).vnodes i = w := by
  simp [Fs.setNode]

theorem setNode_vnodes_ne (fs : Fs) (w : Node) {j : Nat} (h : j ≠ i) :
    (fs.setNode i w).vnodes j = fs.vnodes j := by simp [Fs.setNode, h]

section

variable (h : Rep fs A) (hx : A n = some x) (hv : x.vn = some v)
include h hx hv

omit h in
theorem belongs_iff {b : Nat} :
    Belongs fs A n b ↔ x.kind ≠ .dev ∧ b ∈ blocksOf fs (fs.vnodes v.slot).priv.ino := by
  have hcur : cur fs n x = (fs.vnodes v.slot).priv.ino := by
    unfold cur
    rw [hv]
  constructor
  · rintro ⟨y, hy, hk, hb⟩
    rw [hx] at hy
    cases hy
    exact ⟨hk, hcur ▸ hb⟩
  · rintro ⟨hk, hb⟩
    exact ⟨x, hx, hk, hcur ▸ hb⟩

theorem Rep.slot_eq (hi : i < nvnode) (hpos : 0 < (fs.vnodes i).ref) (hn : (fs.vnodes i).inum = n) : v.slot = i := by
  obtain ⟨y, u, h1, h2, h3⟩ := h.live i hi hpos
  rw [hn, hx] at h1
  cases h1
  rw [hv] at h2
  rwa [Option.some.inj h2]

/-- The vnode of an inode changes, and with it blocks of the inode. -/
theorem Rep.renode {S : List Nat} (hw : Within S fs fs1) (hS : ∀ b ∈ S, Belongs fs A n b)
    (hgrows : x'.kind ≠ .dev → ∀ b ∈ blocksOf fs1 w.priv.ino, blockUsed fs b = true → Belongs fs A n b)
    (hvn : x'.vn = some (Vn.of v.slot w)) (hmode : x'.mode = x.mode) (hlinks : x'.links = x.links) (hpos : 0 < w.ref)
    (hinum : w.inum = (fs.vnodes v.slot).inum) (htype : w.type = (fs.vnodes v.slot).type)
    (hkind : iMode w.priv.ino = iMode (fs.vnodes v.slot).priv.ino)
    (hclean : w.priv.dirty = false → w.priv.orphaned = false → SameMap (readInode fs n) w.priv.ino)
    (hlength : x'.kind = .file → w.size % 4294967296 = x'.size)
    (hhusk : x'.kind = .dev → w.priv.orphaned = true → iBlock w.priv.ino 0 = 0 ∧ iBlock w.priv.ino 12 = 0)
    (hown : x'.kind ≠ .dev → Own fs1 w.priv.ino) (hshows : x'.kind ≠ .dev → Shows fs1 w.priv.ino x')
    (htidy : x'.kind = .dir → DirOk x') : Rep (fs1.setNode v.slot w) (update A n (some x')) := by
  have hi := h.ino n x hx
  have hnode := hi.node v hv
  have hc : Confined S n fs (fs1.setNode v.slot w) := by
    refine (hw.confined n).trans (setNode_confined v.slot (fun _ => ?_) fun _ => hinum.trans hnode.inum) nofun
    rw [hw.vnodes]
    exact hnode.inum
  have hself : (fs1.setNode v.slot w).vnodes (Vn.of v.slot w).slot = w := setNode_vnodes_self fs1 v.slot w
  have hcur : cur (fs1.setNode v.slot w) n x' = w.priv.ino := by
    unfold cur
    rw [hvn]
    show ((fs1.setNode v.slot w).vnodes v.slot).priv.ino = _
    rw [setNode_vnodes_self]
  have hread : readInode (fs1.setNode v.slot w) n = readInode fs n := hw.readInode hi.valid
  refine h.confined hc hS (fun y hy => ?_) ?_ (fun he => by cases he) fun j hj hpos hn => ?_
  · cases hy
    refine ⟨(hc.static.validIno n).mpr hi.valid, (hw.inodeUsed n).trans hi.used, ?_, ?_, fun u hu => ?_,
      fun hk => ?_, fun hk => ?_, htidy⟩
    · rw [hread, hi.mode, hmode]
    · rw [hread, hi.links, hlinks]
    · rw [hvn] at hu
      cases hu
      refine ⟨hnode.slot, hpos, ?_, ?_, ?_, ?_, ?_, ?_, ?_, fun h1 h2 => ?_, fun hk => ?_, fun h1 h2 => ?_⟩
      all_goals rw [hself]
      · rfl
      · exact hinum.trans hnode.inum
      · rw [htype, hnode.type]
        unfold vnodeType
        rw [isDir_congr hkind, isDev_congr hkind]
      · rw [hkind, hnode.mode, hmode]
      · rfl
      · rfl
      · rfl
      · rw [hread]
        exact hclean h1 h2
      · exact hlength hk
      · exact hhusk h1 h2
    · rw [hcur]
      exact (hown hk).setNode _ _
    · rw [hcur]
      exact (hshows hk).setNode _ _
  · rintro b ⟨y, hy, hk, hb⟩ hu
    rw [update_self] at hy
    cases hy
    rw [hcur] at hb
    exact hgrows hk b hb hu
  · refine ⟨x', _, rfl, hvn, ?_⟩
    by_cases he : j = v.slot
    · exact he.symm
    · rw [setNode_vnodes_ne _ _ he, hw.vnodes] at hpos hn
      have hs : v.slot = j := h.slot_eq hx hv hj hpos hn
      exact hs

/-- The same for a change that leaves mode, size and block pointers alone. -/
theorem Rep.setNode (hpos : 0 < w.ref)
    (hinum : w.inum = (fs.vnodes v.slot).inum) (htype : w.type = (fs.vnodes v.slot).type)
    (hsize : w.size = (fs.vnodes v.slot).size) (hmap : SameMap w.priv.ino (fs.vnodes v.slot).priv.ino)
    (hmode : iMode w.priv.ino = iMode (fs.vnodes v.slot).priv.ino)
    (hclean : w.priv.dirty = false → w.priv.orphaned = false → SameMap (readInode fs n) w.priv.ino)
    (hhusk : x.kind = .dev → w.priv.orphaned = true → iBlock w.priv.ino 0 = 0 ∧ iBlock w.priv.ino 12 = 0) :
    Rep (fs.setNode v.slot w) (update A n (some { x with vn := some (Vn.of v.slot w) })) := by
  have hi := h.ino n x hx
  have hcur : cur fs n x = (fs.vnodes v.slot).priv.ino := by
    unfold cur
    rw [hv]
  have hframe : x.kind ≠ .dev → Own fs w.priv.ino ∧ Shows fs w.priv.ino x := by
    intro hk
    have ho := hi.own hk
    rw [← hcur] at hmap
    exact ho.shows_frame (Static.refl fs) hmap (fun b hb => Kept.refl (ho.used b hb)) (hi.shows hk)
  have hblocks := (map_congr hmap fun _ => rfl : _ ∧ ∀ k, lbnBlock fs _ k = _).1
  refine h.renode hx hv (Within.refl [] fs) nofun
    (fun hk b hb _ => (belongs_iff hx hv).mpr ⟨hk, hblocks ▸ hb⟩) rfl rfl rfl hpos hinum htype hmode hclean
      (fun hk => ?_) hhusk
    (fun hk => (hframe hk).1) (fun hk => ⟨(hframe hk).2.size, (hframe hk).2.blocks⟩)
    fun hk => ⟨(hi.tidy hk).whole, (hi.tidy hk).there, (hi.tidy hk).block⟩
  rw [hsize]
  exact (hi.node v hv).length hk

theorem Rep.reref {k : Nat} (hpos : 0 < k) : Rep (fs.setNode v.slot { fs.vnodes v.slot with ref := k })
      (update A n (some { x with vn := some { v with ref := k } })) := by
  have hnode := (h.ino n x hx).node v hv
  have hvn : Vn.of v.slot { fs.vnodes v.slot with ref := k } = { v with ref := k } := by
    unfold Vn.of
    rw [hnode.links, hnode.dirty, hnode.orphaned]
  rw [← hvn]
  refine h.setNode hx hv hpos rfl rfl rfl (SameMap.refl _) rfl (fun h1 h2 => ?_) fun h1 h2 => ?_
  · exact hnode.clean (hnode.dirty ▸ h1) (hnode.orphaned ▸ h2)
  · exact hnode.husk h1 (hnode.orphaned ▸ h2)

theorem Rep.setPriv {p : Priv}
    (hmap : SameMap p.ino (fs.vnodes v.slot).priv.ino) (hmode : iMode p.ino = iMode (fs.vnodes v.slot).priv.ino)
    (hclean : p.dirty = false → p.orphaned = false → SameMap (readInode fs n) p.ino)
    (hhusk : x.kind = .dev → p.orphaned = true → iBlock p.ino 0 = 0 ∧ iBlock p.ino 12 = 0) :
    Rep (fs.setPriv v.slot p) (update A n (some
      { x with vn := some ⟨v.slot, v.ref, iLinks p.ino, p.dirty, p.orphaned⟩ })) := by
  have hnode := (h.ino n x hx).node v hv
  have hvn : Vn.of v.slot { fs.vnodes v.slot with priv := p } =
      ⟨v.slot, v.ref, iLinks p.ino, p.dirty, p.orphaned⟩ := by
    unfold Vn.of
    rw [hnode.ref]
  rw [← hvn]
  have hpos : 0 < (fs.vnodes v.slot).ref := by
    rw [hnode.ref]
    exact hnode.pos
  exact h.setNode hx hv hpos rfl rfl rfl hmap hmode hclean hhusk

theorem Rep.touch (t : Nat) {access mod : Bool}
    (hf : (access || mod) = true) : Rep (touch t access mod v.slot fs) (update A n (some x.dirtied)) := by
  have hnode := (h.ino n x hx).node v hv
  have hsame := updateTime_same t (fs.vnodes v.slot).priv access mod
  have hdirty : (updateTime t access mod (fs.vnodes v.slot).priv).dirty = true := by
    show (_ || _ || _) = true
    rw [Bool.or_assoc, hf, Bool.or_true]
  have hx' : x.dirtied = { x with vn := some ⟨v.slot, v.ref,
      iLinks (updateTime t access mod (fs.vnodes v.slot).priv).ino,
      (updateTime t access mod (fs.vnodes v.slot).priv).dirty,
      (updateTime t access mod (fs.vnodes v.slot).priv).orphaned⟩ } := by
    unfold Ino.dirtied
    rw [hv, hsame.links, hnode.links, hdirty]
    show _ = { x with vn := some ⟨v.slot, v.ref, v.links, true, (fs.vnodes v.slot).priv.orphaned⟩ }
    rw [hnode.orphaned]
    rfl
  rw [hx']
  refine h.setPriv hx hv hsame.toSameMap hsame.mode (fun h1 => ?_) fun h1 h2 => ?_
  · rw [hdirty] at h1
    cases h1
  · rw [hsame.ptr 0 (by omega), hsame.ptr 12 (by omega)]
    exact hnode.husk h1 (hnode.orphaned ▸ h2)

omit h hx hv in
theorem Rep.writeInode (h : Rep fs A) (hx : A n = some x) (hmode : iMode ino = x.mode)
    (hmap : x.kind ≠ .dev → x.vn = none → SameMap ino (readInode fs n))
    (hlive : ∀ v, x.vn = some v → v.dirty = false → v.orphaned = false → SameMap ino (fs.vnodes v.slot).priv.ino) :
    Rep (writeInode n ino fs) (update A n (some { x with links := iLinks ino })) := by
  have hi := h.ino n x hx
  have hg := h.ground.toGeo
  have hc := @writeInode_confined fs n hg hi.valid ino
  have hsame : Same (readInode (Ext2.writeInode n ino fs) n) ino :=
    same_of_bytes fun j hj => readInode_writeInode ino hj
  have hnode : ∀ v, x.vn = some v → NodeRep (Ext2.writeInode n ino fs) n { x with links := iLinks ino } v := by
    intro v hv
    have hr := hi.node v hv
    exact ⟨hr.slot, hr.pos, hr.ref, hr.inum, hr.type, hr.mode, hr.links, hr.dirty, hr.orphaned,
      fun h1 h2 => hsame.toSameMap.trans (hlive v hv h1 h2), hr.length, hr.husk⟩
  have hcur : x.kind ≠ .dev → SameMap (cur (Ext2.writeInode n ino fs) n x) (cur fs n x) := by
    intro hk
    unfold cur
    cases hv : x.vn with
    | none => exact hsame.toSameMap.trans (hmap hk hv)
    | some v => exact SameMap.refl _
  have hframe := fun hk => (hi.own hk).shows_frame hc.static (hcur hk)
    (fun b hb => writeInode_kept hg hi.valid ino ((hi.own hk).used b hb)) (hi.shows hk)
  refine @Rep.confined_still _ _ n x A h hc hx _ rfl hcur ?_ fun j hj hpos hn => ?_
  · exact ⟨(hc.static.validIno n).mpr hi.valid, (writeInode_used hg hi.valid ino n).trans hi.used,
      hsame.mode.trans hmode, hsame.links, hnode, fun hk => (hframe hk).1,
      fun hk => ⟨(hframe hk).2.size, (hframe hk).2.blocks⟩,
      fun hk => ⟨(hi.tidy hk).whole, (hi.tidy hk).there, (hi.tidy hk).block⟩⟩
  · obtain ⟨y, v, h1, h2, h3⟩ := h.live j hj hpos
    rw [show (fs.vnodes j).inum = n from hn, hx] at h1
    cases h1
    exact ⟨v, h2, h3⟩

theorem Rep.writeback : Rep (writeback v.slot fs) (update A n (some x.settled)) := by
  have hi := h.ino n x hx
  have hnode := hi.node v hv
  have hset : x.settled = if v.dirty then { x with links := v.links, vn := some { v with dirty := false } }
      else x := by
    unfold Ino.settled
    rw [hv]
  by_cases hd : v.dirty = true
  · have he : Ext2.writeback v.slot fs = (Ext2.writeInode n (fs.vnodes v.slot).priv.ino fs).setPriv v.slot
        { (fs.vnodes v.slot).priv with dirty := false } := by
      simp [Ext2.writeback, hnode.dirty, hd, hnode.inum]
    have h1 := h.writeInode hx hnode.mode (fun _ hn => by rw [hv] at hn; cases hn)
      fun u hu hf _ => by
        rw [hv] at hu
        cases hu
        rw [hd] at hf
        cases hf
    have hsame : Same (readInode (Ext2.writeInode n (fs.vnodes v.slot).priv.ino fs) n)
        (fs.vnodes v.slot).priv.ino := same_of_bytes fun j hj => readInode_writeInode _ hj
    have h2 := h1.setPriv (update_self ..) hv (SameMap.refl _) rfl (fun _ _ => hsame.toSameMap)
      (fun hk ho => hnode.husk hk (hnode.orphaned ▸ ho)) (p := { (fs.vnodes v.slot).priv with dirty := false })
    rw [update_idem] at h2
    rw [hset, if_pos hd, he]
    dsimp only at h2 ⊢
    rw [hnode.links, hnode.orphaned] at h2
    rwa [hnode.orphaned]
  · have he : Ext2.writeback v.slot fs = fs := by
      simp [Ext2.writeback, hnode.dirty, hd]
    rwa [hset, if_neg hd, he, ← hx, update_eq_self]

theorem Rep.findVnode_live : findVnode fs n = some v.slot := by
  have hnode := (h.ino n x hx).node v hv
  unfold findVnode
  cases hf : (List.range nvnode).find? fun i => decide (0 < (fs.vnodes i).ref ∧ (fs.vnodes i).inum = n) with
  | none =>
    have := find?_eq_none.mp hf v.slot (mem_range.mpr hnode.slot)
    simp [hnode.ref, hnode.pos, hnode.inum] at this
  | some i =>
    have h1 := find?_some hf
    simp only [decide_eq_true_eq] at h1
    rw [h.slot_eq hx hv (mem_range.mp (mem_of_find?_eq_some hf)) h1.1 h1.2]

omit h hx hv in
theorem Rep.not_live (h : Rep fs A) (hx : ∀ x, A n = some x → x.vn = none) (hi : i < nvnode)
    (hpos : 0 < (fs.vnodes i).ref) : (fs.vnodes i).inum ≠ n := by
  intro hn
  obtain ⟨x, v, h1, h2, -⟩ := h.live i hi hpos
  rw [hn] at h1
  rw [hx x h1] at h2
  cases h2

omit h hx hv in
theorem Rep.findVnode_none (h : Rep fs A) (hx : ∀ x, A n = some x → x.vn = none) : findVnode fs n = none := by
  apply find?_eq_none.mpr
  intro i hi hf
  simp only [decide_eq_true_eq] at hf
  exact h.not_live hx (mem_range.mp hi) hf.1 hf.2

omit h hx hv in
theorem Rep.vnodeAlloc (h : Rep fs A) (hx : A n = some x) (hv : x.vn = none) (hi : i < nvnode)
    (href : (fs.vnodes i).ref = 0) :
    Rep { fs.setNode i ⟨1, n, vnodeType (readInode fs n), iSize (readInode fs n),
        ⟨readInode fs n, false, false⟩⟩ with pages := fs.pages - 1 }
      (update A n (some (x.got i))) := by
  have hr := h.ino n x hx
  let w : Node := ⟨1, n, vnodeType (readInode fs n), iSize (readInode fs n), ⟨readInode fs n, false, false⟩⟩
  let fs' : Fs := { fs.setNode i w with pages := fs.pages - 1 }
  have hc0 : Confined [] n fs (fs.setNode i w) := setNode_confined i (fun hpos => by omega) fun _ => rfl
  have hc : Confined [] n fs fs' := hc0.trans (others_confined n _ _ _) nofun
  have hself : fs'.vnodes i = w := setNode_vnodes_self fs i w
  have hgot : x.got i = { x with vn := some ⟨i, 1, x.links, false, false⟩ } := by
    unfold Ino.got
    rw [hv]
  have hcur : cur fs' n (x.got i) = cur fs n x := by
    unfold cur
    rw [hgot, hv]
    show (fs'.vnodes i).priv.ino = _
    rw [hself]
  refine h.confined_still hc hx (by rw [hgot]; rfl) (fun _ => hcur ▸ SameMap.refl _) ?_ fun j hj hpos hn => ?_
  · refine ⟨hr.valid, hr.used, ?_, ?_, fun v hv' => ?_, fun hk => ?_, fun hk => ?_, fun hk => ?_⟩
    · rw [hgot]
      exact hr.mode
    · rw [hgot]
      exact hr.links
    · rw [hgot] at hv' ⊢
      cases hv'
      have hsz : x.kind = .file → iSize (readInode fs n) = x.size := by
        intro hk
        have := (hr.shows (by rw [hk]; decide)).size
        unfold cur at this
        rwa [hv] at this
      have hw : fs'.vnodes (Vn.slot ⟨i, 1, x.links, false, false⟩) = w := hself
      refine ⟨hi, Nat.one_pos, by rw [hw], by rw [hw], by rw [hw], ?_, ?_, by rw [hw], by rw [hw],
        fun _ _ => ?_, fun hk => ?_, fun _ ho => by cases ho⟩
      · rw [hw]
        exact hr.mode
      · rw [hw]
        exact hr.links
      · rw [hw]
        exact SameMap.refl _
      · rw [hw]
        rw [mod_eq_of_lt (iSize_lt _)]
        exact hsz hk
    · rw [hcur]
      have ho := hr.own (by rw [hgot] at hk; exact hk)
      exact ⟨ho.nodup, ho.used, ho.data⟩
    · rw [hcur]
      have hs := hr.shows (by rw [hgot] at hk; exact hk)
      rw [hgot]
      exact ⟨hs.size, hs.blocks⟩
    · rw [hgot] at hk ⊢
      have hd := hr.tidy hk
      exact ⟨hd.whole, hd.there, hd.block⟩
  · refine ⟨⟨i, 1, x.links, false, false⟩, by rw [hgot], ?_⟩
    by_cases he : j = i
    · exact he.symm
    · have hsame : fs'.vnodes j = fs.vnodes j := setNode_vnodes_ne fs w he
      rw [hsame] at hpos hn
      exact absurd hn (h.not_live (fun y hy => by rw [hx] at hy; cases hy; exact hv) hj hpos)

omit h hx hv in
/-- A reference to the vnode, unless there is none and no room for one. -/
theorem Rep.iget (h : Rep fs A) (hx : A n = some x) :
    (∃ i v, (iget n fs).1 = some i ∧ (x.got i).vn = some v ∧ v.slot = i ∧
      Rep (iget n fs).2 (update A n (some (x.got i)))) ∨
    x.vn = none ∧ iget n fs = (none, fs) := by
  rcases Option.eq_none_or_eq_some x.vn with hv | ⟨v, hv⟩
  · have hnone := h.findVnode_none (n := n) fun y hy => by
      rw [hx] at hy
      cases hy
      exact hv
    have he : Ext2.iget n fs = Ext2.vnodeAlloc n (readInode fs n) fs := by
      unfold Ext2.iget
      rw [hnone]
    rw [he]
    unfold Ext2.vnodeAlloc
    split
    · exact .inr ⟨hv, rfl⟩
    case h_2 i hf =>
      have h1 := find?_some hf
      simp only [decide_eq_true_eq] at h1
      have hi := mem_range.mp (mem_of_find?_eq_some hf)
      split
      · exact .inr ⟨hv, rfl⟩
      · exact .inl ⟨i, ⟨i, 1, x.links, false, false⟩, rfl, by rw [Ino.got, hv], rfl, h.vnodeAlloc hx hv hi h1.1⟩
  · have hgot : x.got v.slot = { x with vn := some { v with ref := v.ref + 1 } } := by
      unfold Ino.got
      rw [hv]
    have href := ((h.ino n x hx).node v hv).ref
    refine .inl ⟨v.slot, { v with ref := v.ref + 1 }, ?_, by rw [hgot], rfl, ?_⟩
    · simp [Ext2.iget, h.findVnode_live hx hv]
    · have hr := h.reref hx hv (succ_pos v.ref)
      simp only [Ext2.iget, h.findVnode_live hx hv, href]
      rw [hgot]
      exact hr

omit h hx hv in
theorem Rep.others (h : Rep fs A) (taken : Nat → Bool) (pages : Nat) :
    Rep { fs with taken := taken, pages := pages } A := by
  have hr : Rep { fs with taken := taken, pages := pages } (update A 0 (A 0)) := by
    refine h.confined (others_confined 0 fs taken pages) nofun
      (fun x hx => absurd (h.ino 0 x hx).valid.1 (by decide)) (fun b hb _ => ?_)
      (fun _ hv => absurd hv.1 (by decide)) fun j hj hpos hn => ?_
    · rw [update_eq_self] at hb
      exact hb
    · obtain ⟨x, v, h1, h2⟩ := h.live j hj hpos
      rw [show (fs.vnodes j).inum = 0 from hn] at h1
      exact ⟨x, v, h1, h2⟩
  rwa [update_eq_self] at hr

omit h hx hv in
theorem truncateWaits_false {p : Priv} (h : Own fs p.ino ∨ iBlock p.ino 0 = 0 ∧ iBlock p.ino 12 = 0) :
    truncateWaits p fs = false := by
  unfold truncateWaits
  dsimp only
  rw [iBlock_freeArray, decide_eq_false_iff_not]
  rintro ⟨h0, hs, -⟩
  rcases h with h | h
  · rw [h.not_space h0] at hs
    cases hs
  · exact h0 h.2

/-- After the last reference the inode is freed, or what was changed is on disk. -/
theorem Rep.vput_last (hone : v.ref = 1) : Rep (destroy n (fs.vnodes v.slot).priv
        (fs.setNode v.slot { fs.vnodes v.slot with ref := 0, type := .none })) (update A n x.put) := by
  have hr := h.ino n x hx
  have hnode := hr.node v hv
  let w : Node := { fs.vnodes v.slot with ref := 0, type := .none }
  let fs1 := fs.setNode v.slot w
  have hc1 : Confined [] n fs fs1 := setNode_confined v.slot (fun _ => hnode.inum) fun hpos => by cases hpos
  have hg1 := hc1.ground h.ground
  have hn1 : ValidIno fs1 n := hr.valid
  have hcur : cur fs n x = (fs.vnodes v.slot).priv.ino := by
    unfold cur
    rw [hv]
  have hown : x.kind ≠ .dev → Own fs1 (fs.vnodes v.slot).priv.ino := by
    intro hk
    have ho := hr.own hk
    rw [hcur] at ho
    exact ho.setNode _ _
  have hshows : x.kind ≠ .dev → Shows fs1 (fs.vnodes v.slot).priv.ino x := by
    intro hk
    have hs := hr.shows hk
    rw [hcur] at hs
    exact hs.setNode _ _
  -- No other vnode belongs to the inode.
  have hlive : ∀ j < nvnode, 0 < (fs1.vnodes j).ref → (fs1.vnodes j).inum ≠ n := by
    intro j hj hpos hn
    by_cases he : j = v.slot
    · subst he
      have hself : fs1.vnodes v.slot = w := setNode_vnodes_self fs v.slot w
      rw [hself] at hpos
      cases hpos
    · have hsame : fs1.vnodes j = fs.vnodes j := setNode_vnodes_ne fs w he
      rw [hsame] at hpos hn
      exact he (h.slot_eq hx hv hj hpos hn).symm
  have hput : x.put = if v.orphaned then none
      else some { x with links := if v.dirty then v.links else x.links, vn := none } := by
    unfold Ino.put
    rw [hv]
    simp [hone]
  by_cases ho : v.orphaned = true
  · obtain ⟨S, hS, hw⟩ : ∃ S, (∀ b ∈ S, Belongs fs A n b) ∧
        Within S fs1 (iTruncate (fs.vnodes v.slot).priv fs1).2 := by
      by_cases hk : x.kind = .dev
      · rw [iTruncate_husk (hnode.husk hk ho).1 (hnode.husk hk ho).2]
        exact ⟨[], nofun, Within.refl [] fs1⟩
      · exact ⟨_, fun b hb => (belongs_iff hx hv).mpr ⟨hk, truncated_subset fs1 _ hb⟩,
          (iTruncate_spec hg1.toGeo (hown hk)).toWithin⟩
    have hd : destroy n (fs.vnodes v.slot).priv fs1 =
        { ifree n (iTruncate (fs.vnodes v.slot).priv fs1).2 with
          pages := (ifree n (iTruncate (fs.vnodes v.slot).priv fs1).2).pages + 1 } := by
      simp [destroy, hnode.orphaned, ho]
    rw [hput, if_pos ho]
    rw [hd]
    generalize (iTruncate (fs.vnodes v.slot).priv fs1).2 = fs2 at hw ⊢
    have hg2 := (hw.ground hg1).toGeo
    have hc2 : Confined S n fs fs2 := (hc1.mono nofun).trans (hw.confined n) fun _ hb _ => hb
    have hc3 := @ifree_confined fs2 n hg2 ((hw.static.validIno n).mpr hn1)
    refine Rep.others ?_ _ _
    refine h.confined (hc2.trans hc3 nofun) hS nofun (fun b hb => absurd hb not_belongs_none)
      (fun _ _ => ifree_used hg2 n) fun j hj hpos hn => ?_
    rw [ifree_vnodes, hw.vnodes] at hpos hn
    exact absurd hn (hlive j hj hpos)
  · have hd : destroy n (fs.vnodes v.slot).priv fs1 =
        let fs2 := if v.dirty then Ext2.writeInode n (fs.vnodes v.slot).priv.ino fs1 else fs1
        { fs2 with pages := fs2.pages + 1 } := by
      simp [destroy, hnode.orphaned, ho, hnode.dirty]
    rw [hput, if_neg ho]
    rw [hd]
    refine Rep.others ?_ _ _
    have hframe : ∀ {fs2 : Fs}, Confined [] n fs1 fs2 → fs2.vnodes = fs1.vnodes →
        inodeUsed fs2 n = inodeUsed fs1 n → (∀ b, blockUsed fs1 b = true → Kept fs1 fs2 b) →
        SameMap (readInode fs2 n) (fs.vnodes v.slot).priv.ino → iMode (readInode fs2 n) = x.mode →
        iLinks (readInode fs2 n) = (if v.dirty then v.links else x.links) →
        Rep fs2 (update A n (some { x with links := if v.dirty then v.links else x.links, vn := none })) := by
      intro fs2 hc2 hv2 hu hk hmap hmode hlinks
      refine h.confined_still (hc1.trans hc2 nofun) hx rfl (fun _ => hcur ▸ hmap) ?_ fun j hj hpos hn => ?_
      · have hf : x.kind ≠ .dev → Own fs2 (readInode fs2 n) ∧ Shows fs2 (readInode fs2 n) x := fun hd =>
          (hown hd).shows_frame hc2.static hmap (fun b hb => hk b ((hown hd).used b hb)) (hshows hd)
        exact ⟨(hc2.static.validIno n).mpr hn1, hu.trans hr.used, hmode, hlinks, fun u hu => (by cases hu),
          fun hd => (hf hd).1, fun hd => ⟨(hf hd).2.size, (hf hd).2.blocks⟩,
          fun hd => ⟨(hr.tidy hd).whole, (hr.tidy hd).there, (hr.tidy hd).block⟩⟩
      · rw [hv2] at hpos hn
        exact absurd hn (hlive j hj hpos)
    by_cases hdirty : v.dirty = true
    · have hsame : Same (readInode (Ext2.writeInode n (fs.vnodes v.slot).priv.ino fs1) n)
          (fs.vnodes v.slot).priv.ino := same_of_bytes fun j hj => readInode_writeInode _ hj
      rw [if_pos hdirty]
      refine hframe (writeInode_confined hg1.toGeo hn1 _) rfl (writeInode_used hg1.toGeo hn1 _ n)
        (fun b hb => writeInode_kept hg1.toGeo hn1 _ hb) hsame.toSameMap (hsame.mode.trans hnode.mode) ?_
      rw [if_pos hdirty]
      exact hsame.links.trans hnode.links
    · rw [if_neg hdirty]
      refine hframe (Confined.refl n fs1) rfl rfl (fun b hb => Kept.refl hb)
        (hnode.clean (by simpa using hdirty) (by simpa using ho)) hr.mode ?_
      rw [if_neg hdirty]
      exact hr.links

theorem Rep.vput : ∃ fs', vput v.slot fs = some fs' ∧ Rep fs' (update A n x.put) := by
  have hnode := (h.ino n x hx).node v hv
  have hpos := hnode.pos
  have href := hnode.ref
  by_cases hone : v.ref = 1
  · have hret : ¬((fs.vnodes v.slot).priv.orphaned = true ∧
        truncateWaits (fs.vnodes v.slot).priv fs = true) := by
      rintro ⟨ho, hw⟩
      have hr := h.ino n x hx
      have hown : Own fs (fs.vnodes v.slot).priv.ino ∨
          iBlock (fs.vnodes v.slot).priv.ino 0 = 0 ∧ iBlock (fs.vnodes v.slot).priv.ino 12 = 0 := by
        by_cases hk : x.kind = .dev
        · exact .inr (hnode.husk hk (hnode.orphaned ▸ ho))
        · have := hr.own hk
          rw [cur, hv] at this
          exact .inl this
      rw [truncateWaits_false hown] at hw
      cases hw
    have he : Ext2.vput v.slot fs = some (destroy (fs.vnodes v.slot).inum (fs.vnodes v.slot).priv
        (fs.setNode v.slot { fs.vnodes v.slot with ref := 0, type := .none })) := by
      exact (if_neg (by omega)).trans ((if_pos (by omega)).trans (if_neg hret))
    rw [he, hnode.inum]
    exact ⟨_, rfl, h.vput_last hx hv hone⟩
  · have he : Ext2.vput v.slot fs =
        some (fs.setNode v.slot { fs.vnodes v.slot with ref := (fs.vnodes v.slot).ref - 1 }) := by
      exact (if_neg (by omega)).trans (if_neg (by omega))
    have hput : x.put = some { x with vn := some { v with ref := v.ref - 1 } } := by
      unfold Ino.put
      rw [hv]
      simp only [if_pos (show 1 < v.ref by omega)]
    rw [he, hput, href]
    exact ⟨_, rfl, h.reref hx hv (by omega)⟩

end

theorem put_got (x : Ino) (i : Nat) (hv : ∀ v, x.vn = some v → 0 < v.ref) : (x.got i).put = some x := by
  obtain ⟨mode, links, size, blocks, vn⟩ := x
  cases vn with
  | none => simp [Ino.got, Ino.put]
  | some v =>
    have := hv v rfl
    simp [Ino.got, Ino.put, this]

end Vnodes

/-- A new inode has no links and no data. -/
def freshIno (mode : Nat) : Ino := ⟨mode, 0, 0, fun _ => none, none⟩

section Inodes

variable {fs fs1 : Fs} {A : Abs} {n : Nat} {x : Ino}

theorem blocksOf_empty {ino : Bytes} (h : ∀ k ≤ 12, iBlock ino k = 0) : blocksOf fs ino = [] := by
  rw [blocksOf_eq, if_pos (h 12 (Nat.le_refl _)), pointers_zero fun k hk => h k (by unfold ndirect at hk; omega),
    pointers_zero fun e _ => by rw [indirect, if_pos (h 12 (Nat.le_refl _))]]
  rfl

theorem own_empty {ino : Bytes} (h : ∀ k ≤ 12, iBlock ino k = 0) (hs : iSize ino = 0) (hx : x.size = 0)
    (hb : x.blocks = fun _ => none) : Own fs ino ∧ Shows fs ino x := by
  have hl : ∀ k, lbnBlock fs ino k = 0 := by
    intro k
    rw [lbnBlock_eq]
    split
    case isTrue hk => exact h k (by unfold ndirect at hk; omega)
    · split
      · rw [indirect, if_pos (h 12 (Nat.le_refl _))]
      · rfl
  refine ⟨⟨?_, ?_, ?_⟩, hs.trans hx.symm, fun k => by rw [hl, hb]; rfl⟩
  all_goals simp [@blocksOf_empty fs ino h]

/-- `ext2_ialloc` marks a free inode and writes it. -/
theorem ialloc_cases (mode t : Nat) (fs : Fs) : ialloc mode t fs = (0, fs) ∨
    ∃ i, 0 < i ∧ i < sInodesCount fs.sb ∧ inodeUsed fs (i + 1) = false ∧
      ialloc mode t fs = (i + 1, sbWrite 16 4294967295 (writeInode (i + 1) (newInode mode t)
        (fs.bwrite (bgInodeBitmap fs.bg) (setBit (fs.disk (bgInodeBitmap fs.bg)) i)))) := by
  unfold ialloc
  cases ha : bitmapAlloc (bgInodeBitmap fs.bg) (sInodesCount fs.sb) 1 fs with
  | none => exact .inl rfl
  | some r =>
    obtain ⟨i, hi, rfl⟩ := Option.map_eq_some_iff.mp ha
    have hclear := find?_some hi
    have hrange := mem_range'_1.mp (mem_of_find?_eq_some hi)
    exact .inr ⟨i, by omega, by omega, by simpa [inodeUsed] using hclear, rfl⟩

theorem sbWrite_readInode (hg : Geo fs) (hn : ValidIno fs n) {o : Nat} (ho : o = 12 ∨ o = 16) (delta : Nat) :
    readInode (sbWrite o delta fs) n = readInode fs n ∧ inodeUsed (sbWrite o delta fs) n = inodeUsed fs n := by
  have hs := sbWrite_static delta fs ho
  unfold readInode inodeUsed
  rw [hs.inoBlock, hs.inoOffset, hs.bg, sbWrite_disk _ _ _ (hg.table n hn).1, sbWrite_disk _ _ _ hg.inodeMap]
  exact ⟨rfl, rfl⟩

theorem sbWrite_confined (hg : Geo fs) (hn : ValidIno fs n) (delta : Nat) : Confined [] n fs (sbWrite 16 delta fs) :=
  confined_of_imap hg hn (sbWrite_static delta fs (.inr rfl)) rfl
    (fun _ h1 _ => sbWrite_disk 16 delta fs h1) fun _ _ => by rw [sbWrite_disk _ _ _ hg.inodeMap]

theorem Rep.ialloc (h : Rep fs A) {mode : Nat} (hm : mode < 65536) (t : Nat) :
    ialloc mode t fs = (0, fs) ∨
    ∃ n, n ≠ 0 ∧ n < 4294967296 ∧ A n = none ∧ (ialloc mode t fs).1 = n ∧
      Rep (ialloc mode t fs).2 (update A n (some (freshIno mode))) := by
  rcases ialloc_cases mode t fs with he | ⟨i, hpos, hlt, hfree, he⟩
  · exact .inl he
  have hg := h.ground.toGeo
  have hn : ValidIno fs (i + 1) := ⟨by omega, hlt⟩
  have hA : A (i + 1) = none := by
    cases hA : A (i + 1) with
    | none => rfl
    | some y =>
      have := (h.ino _ y hA).used
      rw [hfree] at this
      cases this
  let fs1 := fs.bwrite (bgInodeBitmap fs.bg) (setBit (fs.disk (bgInodeBitmap fs.bg)) i)
  let fs2 := Ext2.writeInode (i + 1) (newInode mode t) fs1
  have hs1 : Static fs fs1 := bwrite_static fs _ _
  have hg1 : Geo fs1 := hs1.geo hg
  have hn1 : ValidIno fs1 (i + 1) := hn
  have hs2 : Static fs1 fs2 := writeInode_static _ _ _
  have hg2 : Geo fs2 := hs2.geo hg1
  have hn2 : ValidIno fs2 (i + 1) := hn
  have hc1 : Confined [] (i + 1) fs fs1 := by
    refine confined_of_imap hg hn hs1 rfl (fun b _ h2 => bwrite_disk fs _ h2) fun j hj => ?_
    rw [bwrite_disk_self, bit_setBit, decide_eq_false (by omega : ¬ i = j), Bool.or_false]
  have hc2 : Confined [] (i + 1) fs1 fs2 := writeInode_confined hg1 hn1 _
  have hc3 := @sbWrite_confined fs2 (i + 1) hg2 hn2 4294967295
  obtain ⟨hread, hbit⟩ := sbWrite_readInode hg2 hn2 (.inr rfl) 4294967295
  have hused : inodeUsed (sbWrite 16 4294967295 fs2) (i + 1) = true := by
    rw [hbit, writeInode_used hg1 hn1]
    show bit ((fs.bwrite _ _).disk (bgInodeBitmap fs.bg)) i = true
    rw [bwrite_disk_self, bit_setBit]
    simp
  have hsame : Same (readInode (sbWrite 16 4294967295 fs2) (i + 1)) (newInode mode t) := by
    rw [hread]
    exact same_of_bytes fun j hj => readInode_writeInode _ hj
  obtain ⟨f1, f2, f3, f4⟩ := newInode_fields t mode
  refine .inr ⟨i + 1, by omega, ?_, hA, by rw [he], ?_⟩
  · have := u32_lt fs.sb 0
    have h2 : i < u32 fs.sb 0 := hlt
    omega
  rw [he]
  have hempty := @blocksOf_empty (sbWrite 16 4294967295 fs2) (readInode (sbWrite 16 4294967295 fs2) (i + 1))
    fun k hk => (hsame.ptr k hk).trans (f4 k hk)
  refine h.confined ((hc1.trans hc2 nofun).trans hc3 nofun) nofun (fun y hy => ?_) ?_ nofun fun j hj hl hin => ?_
  · cases hy
    have hown := @own_empty (sbWrite 16 4294967295 fs2) (freshIno mode) _
      (fun k hk => (hsame.ptr k hk).trans (f4 k hk)) (hsame.size.trans f3) rfl rfl
    refine ⟨hn, hused, ?_, hsame.links.trans f2, fun v hv => (by cases hv), fun _ => hown.1, fun _ => hown.2,
      fun _ => ⟨rfl, fun k hk => ?_, fun k hk => ?_⟩⟩
    · rw [hsame.mode, f1, mod_eq_of_lt hm]
      rfl
    · have hk : k < 0 / bsize := hk
      simp at hk
    · have hk : k < 0 / bsize := hk
      simp at hk
  · rintro b ⟨y, hy, -, hb⟩ -
    rw [update_self] at hy
    cases hy
    rw [show cur _ (i + 1) (freshIno mode) = readInode _ (i + 1) from rfl, hempty] at hb
    cases hb
  · exact absurd hin (h.not_live (fun x hx => by rw [hA] at hx; cases hx) hj hl)

theorem Rep.ifree (h : Rep fs A) (hx : A n = some x) (hv : x.vn = none) : Rep (ifree n fs) (update A n none) := by
  have hr := h.ino n x hx
  have hg := h.ground.toGeo
  refine h.confined (ifree_confined hg hr.valid) nofun nofun (fun b hb => absurd hb not_belongs_none)
    (fun _ _ => ifree_used hg n) fun j hj hpos hn => ?_
  exact absurd hn (h.not_live (fun y hy => by rw [hx] at hy; cases hy; exact hv) hj hpos)

end Inodes

end Xv6Vfs.Ext2
