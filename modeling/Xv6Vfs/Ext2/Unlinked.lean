import Xv6Vfs.Ext2.Entries
import Xv6Vfs.Ext2.Quiet

/-! `ext2_unlink` over the inodes. -/
namespace Xv6Vfs.Ext2
open Xv6Vfs.Bytes Xv6Vfs.Vfs Function Option

variable {i : Nat} {y : Ino}

/-! ### The victim -/

/-- The link count on disk after an entry is removed: a directory loses two links. -/
def Ino.lessLinks (y : Ino) : Nat := (y.links + 65536 - if y.kind = .dir then 2 else 1) % 65536

/-- The vnode is orphaned. -/
def Ino.orphan (y : Ino) : Ino := { y with vn := y.vn.map fun u => { u with orphaned := true } }

/-- What becomes of inode `m` with the count `links`: it is written, or freed with its last reference, or, without a
vnode, left as it was. -/
inductive Dropped (A : Abs) (m : Nat) (y : Ino) (links : Nat) : Abs → Prop where
  | less (h : links ≠ 0) : Dropped A m y links (update A m (some { y with links := links }))
  | orphan {i : Nat} (h : links = 0) :
    Dropped A m y links (update A m (Ino.put { (y.got i).orphan with links := 0 }))
  | lost (h : links = 0) (hv : y.vn = none) : Dropped A m y links A

/-- The directory without the entry at `o` of block `k`; with a directory it loses a link. -/
def Ino.erase (x : Ino) (v : Vn) (dir : Bool) (k o : Nat) : Ino :=
  { x.setBlock k (put32 (x.block k) o 0) with
    vn := some { v with links := if dir then (v.links + 65535) % 65536 else v.links, dirty := true } }

/-- What `ext2_unlink` makes of the inodes, if `n` is the directory, with the vnode `v`. -/
inductive Unlinked (A : Abs) (n : Nat) (x : Ino) (v : Vn) (name : Name) : Bool → Abs → Prop where
  | absent (h : ∀ m, (m, name) ∉ x.ents) : Unlinked A n x v name false (update A n (some x.dirtied))
  | refused {m : Nat} {y : Ino} (hm : (m, name) ∈ x.ents) (hy : A m = some y) (hd : y.kind = .dir) :
    Unlinked A n x v name false (update A n (some x.dirtied))
  | removed {k o m : Nat} {y : Ino} {A2 : Abs} (hk : k < x.size / bsize) (ho : o ∈ slots (x.block k))
    (hm : deInode (x.block k) o = m) (h0 : m ≠ 0) (hmn : m ≠ n) (hname : deName (x.block k) o = name)
    (hy : A m = some y) (hempty : y.kind = .dir → ∀ e ∈ y.ents, dotty e.2)
    (hdrop : Dropped (update A n (some (x.erase v (decide (y.kind = .dir)) k o))) m y y.lessLinks A2) :
    Unlinked A n x v name true (update A2 n (some (x.erase v (decide (y.kind = .dir)) k o).settled))

/-! ### Is a directory empty? -/

section Empty

variable {fs : Fs} {held : Nat} {p : Priv} {x : Ino} (hs : Shows fs p.ino x) (hd : DirOk x)
  (hheld : ∀ lbn, bmapNeeds p held lbn fs = false)
include hs hd hheld

/-- The loop over the entries ends, if it does not need the block `held`. -/
theorem emptyLoop_total (fuel : Nat) {k o : Nat} {l : List Nat}
    (hk : k < x.size / bsize) (ho : o < bsize) (ht : Tiles (deRecLen (x.block k)) bsize o l)
    (hf : x.size < k * bsize + o + fuel) : ∃ e, emptyLoop fs p held fuel (k * bsize + o) = some e := by
  have hwhole := hd.whole
  induction fuel generalizing k o l with
  | zero =>
    rw [bsize] at *
    omega
  | succ fuel ih =>
    have hoff : k * bsize + o < iSize p.ino := by
      rw [hs.size]
      rw [bsize] at *
      omega
    have hdiv : (k * bsize + o) / bsize = k := by
      rw [bsize] at *
      omega
    have hmod : (k * bsize + o) % bsize = o := by
      rw [bsize] at *
      omega
    rcases hs.block k (hd.there k hk) with ⟨-, hdata⟩
    rw [emptyLoop, if_pos hoff, hheld, if_neg Bool.false_ne_true]
    simp only [bmap_false, hdiv, hmod, hdata]
    split
    · exact ⟨false, rfl⟩
    · cases ht with
      | done => omega
      | @cons _ l hpos ht =>
        have hle := ht.le
        rw [Nat.add_assoc, next_entry hs hk hle]
        by_cases hend : o + deRecLen (x.block k) o < bsize
        · exact ih hk hend ht (by omega)
        · have he : k * bsize + (o + deRecLen (x.block k) o) = (k + 1) * bsize + 0 := by
            rw [bsize] at *
            omega
          rw [he]
          by_cases hnext : k + 1 < x.size / bsize
          · exact ih hnext (by decide) (hd.block (k + 1) hnext).tiles (by omega)
          · -- behind the last block
            cases fuel with
            | zero =>
              rw [bsize] at *
              omega
            | succ fuel =>
              refine ⟨true, ?_⟩
              rw [emptyLoop, if_neg]
              rw [hs.size, bsize] at *
              omega

theorem emptyLoop_some : ∃ e, emptyLoop fs p held (iSize p.ino + 1) 0 = some e := by
  by_cases h0 : 0 < x.size / bsize
  · have h := @emptyLoop_total fs held p x hs hd hheld (iSize p.ino + 1) 0 0 _ h0 (by decide) (hd.block 0 h0).tiles
      (by rw [hs.size]; omega)
    rwa [Nat.zero_mul] at h
  · refine ⟨true, ?_⟩
    have hwhole := hd.whole
    have hz : ¬0 < iSize p.ino := by
      rw [hs.size]
      rw [bsize] at *
      omega
    rw [emptyLoop, if_neg hz]

end Empty

theorem got_fresh (h : y.vn = none) (i : Nat) : (y.got i).vn = some ⟨i, 1, y.links, false, false⟩ := by
  rw [Ino.got, h]

theorem got_live {w : Vn} (h : y.vn = some w) (i : Nat) : (y.got i).vn = some { w with ref := w.ref + 1 } := by
  rw [Ino.got, h]

section Rep

variable {fs fs' : Fs} {A : Abs} {m : Nat} {y : Ino}

theorem Rep.ref_pos (h : Rep fs A) (hy : A m = some y) : ∀ u, y.vn = some u → 0 < u.ref :=
  fun u hu => ((h.ino m y hy).node u hu).pos

/-- Nothing but reference counts and free vnodes differ. -/
structure SameData (fs fs' : Fs) : Prop extends Static fs fs' where
  disk : fs'.disk = fs.disk
  priv : ∀ i, 0 < (fs.vnodes i).ref → (fs'.vnodes i).priv = (fs.vnodes i).priv

theorem setNode_priv (fs : Fs) {w : Node} (h : w.priv = (fs.vnodes i).priv) (j : Nat) :
    ((fs.setNode i w).vnodes j).priv = (fs.vnodes j).priv := by
  by_cases hj : j = i
  · rw [hj, setNode_vnodes_self, h]
  · rw [setNode_vnodes_ne fs w hj]

theorem iget_priv (m : Nat) (fs : Fs) {j : Nat} (hj : 0 < (fs.vnodes j).ref) :
    ((iget m fs).2.vnodes j).priv = (fs.vnodes j).priv := by
  rw [iget]
  split
  · exact setNode_priv fs (by rfl) j
  · rw [vnodeAlloc]
    split
    · rfl
    · rename_i i hf
      have hfree := List.find?_some hf
      simp only [decide_eq_true_eq] at hfree
      split
      · rfl
      · have hne : j ≠ i := by
          rintro rfl
          omega
        exact congrArg Node.priv (setNode_vnodes_ne fs _ hne)

theorem SameData.readInode (h : SameData fs fs') (m : Nat) : readInode fs' m = readInode fs m := by
  rw [Ext2.readInode, Ext2.readInode, h.toStatic.inoBlock, h.toStatic.inoOffset, h.disk]

section

variable (h : Rep fs A) (hy : A m = some y)
include h hy

/-- A reference that is taken and dropped at once leaves the disk alone. -/
theorem Rep.got_vput (hi : (Ext2.iget m fs).1 = some i) :
    ∃ fs', Ext2.vput i (Ext2.iget m fs).2 = some fs' ∧ Rep fs' A ∧ SameData fs fs' := by
  cases h.iget hy with
  | inr hnone =>
    rw [hnone.2] at hi
    cases hi
  | inl hsome =>
    rcases hsome with ⟨j, u, hj, hu, rfl, hrep⟩
    rw [hi] at hj
    cases hj
    have hself := update_self m (some (y.got u.slot)) A
    rcases hrep.vput hself hu with ⟨fs', hput, hrep'⟩
    refine ⟨fs', hput, ?_, ?_⟩
    · rwa [update_idem, put_got y u.slot (h.ref_pos hy), ← hy, update_eq_self] at hrep'
    · have hnode := (hrep.ino m _ hself).node u hu
      have hdisk := (iget_inodeNow hi).2
      have hstatic := (iget_static m fs).trans (vput_static hput)
      rw [Ext2.vput] at hput
      rw [hnode.ref, if_neg (by have := hnode.pos; omega)] at hput
      split at hput
      · -- a new vnode has nothing to write
        rename_i hone
        split at hput
        · cases hput
        have hvn : y.vn = none := by
          cases hv : y.vn with
          | none => rfl
          | some w =>
            rw [got_live hv] at hu
            have hw := h.ref_pos hy w hv
            have href := congrArg Vn.ref (some.inj hu)
            dsimp only at href
            omega
        rw [got_fresh hvn] at hu
        have hdirty := congrArg Vn.dirty (some.inj hu)
        have horphaned := congrArg Vn.orphaned (some.inj hu)
        cases hput
        rw [destroy, hnode.orphaned, hnode.dirty, ← horphaned, ← hdirty] at hstatic ⊢
        exact ⟨hstatic, hdisk, fun j hj => (setNode_priv _ (by rfl) j).trans (iget_priv m fs hj)⟩
      · cases hput
        exact ⟨hstatic, hdisk, fun j hj => (setNode_priv _ (by rfl) j).trans (iget_priv m fs hj)⟩

omit hy in
/-- A new vnode for one inode leaves the blocks of the others alone. -/
theorem Rep.belongs_iget (hi : (Ext2.iget m fs).1 = some i) {n b : Nat} (hb : Belongs fs A n b) (hne : n ≠ m)
    (z : Option Ino) : Belongs (Ext2.iget m fs).2 (update A m z) n b := by
  rcases hb with ⟨x, hx, hk, hb⟩
  have hdisk := (iget_inodeNow hi).2
  have hcur : cur (Ext2.iget m fs).2 n x = cur fs n x := by
    have hs := iget_static m fs
    unfold cur
    cases hv : x.vn with
    | none => exact (show Ext2.readInode _ n = _ by rw [Ext2.readInode, hs.inoBlock, hs.inoOffset, hdisk]; rfl)
    | some v =>
      have hnode := (h.ino n x hx).node v hv
      exact congrArg Priv.ino (iget_priv m fs (hnode.ref.symm ▸ hnode.pos))
  refine ⟨x, (update_of_ne hne _ _).trans hx, hk, ?_⟩
  rw [hcur, (@map_congr fs (Ext2.iget m fs).2 _ _ (SameMap.refl (cur fs n x)) fun _ => by rw [hdisk]).1]
  exact hb

theorem Rep.dirEmpty (hk : y.kind = .dir) {held n : Nat} (h0 : held ≠ 0) (hb : Belongs fs A n held) (hne : n ≠ m) :
    (∃ fs', Ext2.dirEmpty m held fs = some (none, fs') ∧ Rep fs' A ∧ SameData fs fs') ∨
    ∃ e fs', Ext2.dirEmpty m held fs = some (some e, fs') ∧ Rep fs' A ∧ SameData fs fs' ∧
      (e = true → ∀ q ∈ y.ents, dotty q.2) := by
  rw [Ext2.dirEmpty]
  cases hi : (Ext2.iget m fs).1 with
  | none =>
    cases h.iget hy with
    | inl hsome =>
      rcases hsome with ⟨i, u, hi', -⟩
      rw [hi] at hi'
      cases hi'
    | inr hnone =>
      rw [hnone.2]
      exact .inl ⟨fs, rfl, h, Static.refl fs, rfl, fun _ _ => rfl⟩
  | some i =>
    rcases h.got_vput hy hi with ⟨fs', hput, hrep, hdisk⟩
    dsimp only
    rw [hput]
    cases h.iget hy with
    | inr hnone =>
      rw [hnone.2] at hi
      cases hi
    | inl hsome =>
      rcases hsome with ⟨j, u, hj, hu, rfl, hgot⟩
      rw [hi] at hj
      cases hj
      have hself := update_self m (some (y.got u.slot)) A
      rcases hgot.own hself hu (by rw [show (y.got u.slot).kind = .dir from hk]; decide) with ⟨hown, hshows⟩
      have hheld := @not_needed _ held ((Ext2.iget m fs).2.vnodes u.slot).priv h0 fun hin =>
        hne (hgot.apart n m held (h.belongs_iget hi hb hne _)
          ((belongs_iff hself hu).mpr ⟨by rw [show (y.got u.slot).kind = .dir from hk]; decide, hin⟩))
      have hd : DirOk (y.got u.slot) := hgot.dirOk hself hk
      rcases emptyLoop_some hshows hd hheld with ⟨e, he⟩
      rw [he]
      refine .inr ⟨e, fs', rfl, hrep, hdisk, ?_⟩
      rintro rfl
      have hdots := emptyLoop_spec hshows hd he
      exact hdots

theorem Rep.relink {ino : Bytes} (hmode : iMode ino = y.mode) (hmap : SameMap ino (readInode fs m)) :
    Rep (Ext2.writeInode m ino fs) (update A m (some { y with links := iLinks ino })) :=
  h.writeInode hy hmode (fun _ _ => hmap) fun u hu h1 h2 => hmap.trans (((h.ino m y hy).node u hu).clean h1 h2)

/-- The last name is gone. The block pointers of a device would be taken for blocks. -/
theorem Rep.orphan {ino : Bytes} (hmode : iMode ino = y.mode)
    (hlinks : iLinks ino = 0) (hhusk : y.kind = .dev → (Ext2.iget m fs).1 ≠ none →
      iBlock (inodeNow fs m) 0 = 0 ∧ iBlock (inodeNow fs m) 12 = 0) :
    ∃ fs' A', Ext2.orphan m ino fs = some fs' ∧ Dropped A m y 0 A' ∧ Rep fs' A' := by
  rw [Ext2.orphan]
  cases h.iget hy with
  | inr hnone =>
    rw [hnone.2]
    exact ⟨fs, A, rfl, .lost rfl hnone.1, h⟩
  | inl hsome =>
    rcases hsome with ⟨i, u, hi, hu, rfl, hgot⟩
    have hnow := (iget_inodeNow hi).1
    have hself := update_self m (some (y.got u.slot)) A
    have hnode := (hgot.ino m _ hself).node u hu
    have h1 := hgot.setPriv hself hu (p := { ((Ext2.iget m fs).2.vnodes u.slot).priv with orphaned := true })
      (SameMap.refl _) rfl (fun _ hf => by cases hf) fun hd _ => by
        rw [hnow]
        exact hhusk hd (by rw [hi]; exact some_ne_none _)
    rw [update_idem] at h1
    have h2 := h1.writeInode (update_self ..) hmode (fun _ hf => by cases hf)
      fun w hw _ hf => by
        cases hw
        cases hf
    rw [update_idem] at h2
    rcases h2.vput (update_self ..) rfl with ⟨fs', hput, hrep⟩
    have hres : { (y.got u.slot).orphan with links := 0 } = { y.got u.slot with
        links := iLinks ino
        vn := some ⟨u.slot, u.ref, iLinks ((Ext2.iget m fs).2.vnodes u.slot).priv.ino,
          ((Ext2.iget m fs).2.vnodes u.slot).priv.dirty, true⟩ } := by
      rw [Ino.orphan, hu, hlinks, hnode.links, hnode.dirty]
      rfl
    rw [hi]
    refine ⟨fs', _, hput, @Dropped.orphan A m y 0 u.slot rfl, ?_⟩
    rw [update_idem] at hrep
    rwa [hres]

theorem Rep.isDir_iff : isDir (readInode fs m) = true ↔ y.kind = .dir := by
  rw [← kindOf_dir, kindOf_eq, (h.ino m y hy).mode]
  rfl

theorem Rep.lessCount : iLinks (lessLinks (readInode fs m)) = y.lessLinks := by
  rw [iLinks_lessLinks, (h.ino m y hy).links, Ino.lessLinks]
  by_cases hd : y.kind = .dir
  · rw [if_pos hd, if_pos ((h.isDir_iff hy).mpr hd)]
  · rw [if_neg hd, if_neg (mt (h.isDir_iff hy).mp hd)]

/-- The victim loses its link. -/
theorem Rep.drop (t : Nat) (hhusk : y.kind = .dev → y.lessLinks = 0 → (Ext2.iget m fs).1 ≠ none →
      iBlock (inodeNow fs m) 0 = 0 ∧ iBlock (inodeNow fs m) 12 = 0) :
    ∃ fs' A', (if iLinks (lessLinks (readInode fs m)) = 0 then Ext2.orphan m (lessLinks (readInode fs m)) fs
        else some (Ext2.writeInode m (put32 (lessLinks (readInode fs m)) 12 t) fs)) = some fs' ∧
      Dropped A m y y.lessLinks A' ∧ Rep fs' A' := by
  have hmode : iMode (lessLinks (readInode fs m)) = y.mode := (iMode_lessLinks _).trans (h.ino m y hy).mode
  have hcount := h.lessCount hy
  by_cases h0 : y.lessLinks = 0
  · rw [hcount, if_pos h0, h0]
    rw [h0] at hcount
    exact h.orphan hy hmode hcount fun hd => hhusk hd h0
  · have hsame := put32_same (lessLinks (readInode fs m)) 12 t (by omega)
    have hrep := h.relink hy (hsame.mode.trans hmode) (hsame.toSameMap.trans (lessLinks_sameMap _))
    rw [hsame.links, hcount] at hrep
    rw [hcount, if_neg h0]
    exact ⟨_, _, rfl, .less h0, hrep⟩

end

theorem Dropped.other {A' : Abs} {links n : Nat} (h : Dropped A m y links A') (hmn : m ≠ n) : A' n = A n := by
  cases h with
  | less _ => exact update_of_ne hmn.symm _ _
  | orphan _ => exact update_of_ne hmn.symm _ _
  | lost _ _ => rfl

end Rep

/-! ### Unlinking -/

section Unlink

variable {fs : Fs} {A : Abs} {n m : Nat} {x y : Ino} {v : Vn}

theorem inodeNow_congr {fs' : Fs} (hv : fs'.vnodes = fs.vnodes) (hr : readInode fs' m = readInode fs m) :
    inodeNow fs' m = inodeNow fs m := by
  have hf : findVnode fs' m = findVnode fs m := by
    rw [findVnode, findVnode, hv]
  rw [inodeNow, inodeNow, hf, hv, hr]

section

variable (h : Rep fs A) (hx : A n = some x) (hv : x.vn = some v) (hk : x.kind = .dir)
include h hx hv hk

/-- The entry at `o` of block `k` goes. -/
theorem Rep.dropEntry {k o : Nat} (hkk : k < x.size / bsize) (ho : o ∈ slots (x.block k)) (hmn : m ≠ n)
    (hy : A m = some y)
    (hhusk : y.kind = .dev → y.lessLinks = 0 → (Ext2.iget m fs).1 ≠ none →
      iBlock (inodeNow fs m) 0 = 0 ∧ iBlock (inodeNow fs m) 12 = 0) (t : Nat) :
    ∃ fs' A2, dropEntry t v.slot (lbnBlock fs (fs.vnodes v.slot).priv.ino k) o m (readInode fs m) fs = some fs' ∧
      Dropped (update A n (some (x.setBlock k (put32 (x.block k) o 0)))) m y y.lessLinks A2 ∧
      Rep fs' (update A2 n (some (x.setBlock k (put32 (x.block k) o 0)).settled)) := by
  have hdev : x.kind ≠ .dev := by rw [hk]; decide
  have hd := h.dirOk hx hk
  rcases h.own hx hv hdev with ⟨hown, hshows⟩
  rcases hshows.block k (hd.there k hkk) with ⟨hb0, hdata⟩
  have hblock := (hd.block k hkk).remove ho
  have h1 := h.bwrite hx hv hdev hb0 fun _ => hd.setBlock hblock k
  have hw := bwrite_within (hown.data _ (lbnBlock_mem hb0)) (put32 (x.block k) o 0)
  have hread := hw.readInode (h.ino m y hy).valid
  generalize hfs1 : fs.bwrite (lbnBlock fs (fs.vnodes v.slot).priv.ino k) (put32 (x.block k) o 0) = fs1 at h1 hw hread
  rcases h1.drop ((update_of_ne hmn _ _).trans hy) t fun hdv hz hget => by
    rw [← hfs1, iget_bwrite] at hget
    rw [inodeNow_congr hw.vnodes hread]
    exact hhusk hdv hz hget with ⟨fs2, A2, hdrop, hdropped, hrep⟩
  refine ⟨Ext2.writeback v.slot fs2, A2, ?_, hdropped,
    hrep.writeback ((hdropped.other hmn).trans (update_self ..)) hv⟩
  rw [Ext2.dropEntry, hdata, hfs1, ← hread, hdrop]
  rfl

omit h hx hv hk in
theorem touch_vnodes (t d j : Nat) (access mod : Bool) (fs : Fs) :
    ((touch t access mod d fs).vnodes j).ref = (fs.vnodes j).ref ∧
      ((touch t access mod d fs).vnodes j).inum = (fs.vnodes j).inum ∧
      (j ≠ d → (touch t access mod d fs).vnodes j = fs.vnodes j) := by
  rw [touch, Fs.setPriv]
  by_cases hj : j = d
  · subst hj
    rw [setNode_vnodes_self]
    exact ⟨rfl, rfl, fun hne => absurd rfl hne⟩
  · rw [setNode_vnodes_ne _ _ hj]
    exact ⟨rfl, rfl, fun _ => rfl⟩

omit h hx hv hk in
/-- The times of one vnode do not show in another inode. -/
theorem touch_inodeNow (t d : Nat) (access mod : Bool) (hne : (fs.vnodes d).inum ≠ m) :
    inodeNow (touch t access mod d fs) m = inodeNow fs m := by
  have hf : findVnode (touch t access mod d fs) m = findVnode fs m := by
    rw [findVnode, findVnode]
    congr 1
    funext i
    rw [(touch_vnodes t d i access mod fs).1, (touch_vnodes t d i access mod fs).2.1]
  rw [inodeNow, inodeNow, hf]
  split
  · rename_i i hi
    have hin := List.find?_some hi
    simp only [decide_eq_true_eq] at hin
    have hid : i ≠ d := by
      rintro rfl
      exact hne hin.2
    rw [(touch_vnodes t d i access mod fs).2.2 hid]
  · rfl

theorem Rep.dropParentLink : Rep (dropParentLink v.slot fs) (update A n (some { x with
      vn := some ⟨v.slot, v.ref, (v.links + 65535) % 65536, true, v.orphaned⟩ })) := by
  have hnode := (h.ino n x hx).node v hv
  have hrep := h.setPriv hx hv
    (p := { (fs.vnodes v.slot).priv with ino := decLinks (fs.vnodes v.slot).priv.ino, dirty := true })
    (decLinks_sameMap _) (iMode_decLinks _) (fun hf => by cases hf) (fun hd => by rw [hk] at hd; cases hd)
  rwa [iLinks_decLinks, hnode.links, hnode.orphaned] at hrep

theorem Rep.inoBlock_ne {k : Nat} (h0 : lbnBlock fs (fs.vnodes v.slot).priv.ino k ≠ 0) (hy : A m = some y) :
    inoBlock fs m ≠ lbnBlock fs (fs.vnodes v.slot).priv.ino k := by
  have hown := (h.own hx hv (by rw [hk]; decide)).1
  exact fun he => hown.data _ (lbnBlock_mem h0) (.inr (.inr (.inr ⟨m, (h.ino m y hy).valid, he⟩)))

/-- `ext2_unlink` on a directory whose entry names another inode. A device must not have block pointers. -/
theorem Rep.unlink {name : Name}
    (hg : 0 ∉ name) (hnamed : ∀ m, (m, name) ∈ x.ents → m ≠ n ∧ ∃ y, A m = some y ∧ (y.kind = .dev → y.lessLinks = 0 →
      (Ext2.iget m fs).1 ≠ none → iBlock (inodeNow fs m) 0 = 0 ∧ iBlock (inodeNow fs m) 12 = 0)) (t : Nat) :
    ∃ ok fs' A', unlink t v.slot name fs = some (ok, fs') ∧ Unlinked A n x v name ok A' ∧ Rep fs' A' := by
  have hinum := ((h.ino n x hx).node v hv).inum
  have h0 := @Rep.touch fs A n x v h hx hv t false true rfl
  have hx0 := update_self n (some x.dirtied) A
  have hv0 := Ino.dirtied_vn hv
  have hd := h.dirOk hx hk
  have herase : ∀ k o, x.dirtied.setBlock k (put32 (x.dirtied.block k) o 0) = x.erase v false k o := by
    intro k o
    rw [Ino.dirtied, hv]
    rfl
  rw [Ext2.unlink]
  generalize hfs0 : Ext2.touch t false true v.slot fs = fs0 at h0
  cases h0.walkDir hx0 hv0 hk (visitUnlink name) with
  | inr hdone =>
    refine ⟨false, fs0, _, by rw [hdone.2]; rfl, .absent fun m hm => ?_, h0⟩
    rcases mem_ents.mp hm with ⟨j, hj, hm⟩
    rcases mem_listed.mp hm with ⟨o, ho, hne, he⟩
    have hnone := List.findSome?_eq_none_iff.mp (hdone.1 j hj) o ho
    have hname : deName (x.block j) o = name := (Prod.mk.inj he).2.symm
    have hmatch := (deMatches_eq ((hd.block j hj).named o ho hne) hg).mpr hname
    rw [visitUnlink, if_pos ⟨hne, hmatch⟩] at hnone
    cases hnone
  | inl hhit =>
    rcases hhit with ⟨k, o, hkk, hf, hb0, hdata, he⟩
    rcases List.exists_of_findSome?_eq_some hf with ⟨o', ho, ha⟩
    rw [visitUnlink] at ha
    split at ha
    · rename_i hm
      cases ha
      have hname := (deMatches_eq ((hd.block k hkk).named o ho hm.1) hg).mp hm.2
      have hent : (deInode (x.block k) o, name) ∈ x.ents :=
        mem_ents.mpr ⟨k, hkk, mem_listed.mpr ⟨o, ho, hm.1, by rw [hname]⟩⟩
      rcases hnamed _ hent with ⟨hmn, y, hy, hhusk⟩
      have hblk : x.dirtied.block k = x.block k := rfl
      have hm0 : deInode (x.block k) o ≠ 0 := hm.1
      rw [he, bind_some]
      dsimp only
      rw [hdata, hblk]
      generalize hmm : deInode (x.block k) o = m at *
      have hy0 : update A n (some x.dirtied) m = some y := (update_of_ne hmn _ _).trans hy
      rw [if_neg (h0.inoBlock_ne hx0 hv0 hk hb0 hy0)]
      by_cases hdir : isDir (readInode fs0 m) = true
      · have hyd : y.kind = .dir := (h0.isDir_iff hy0).mp hdir
        have hmine := (belongs_iff hx0 hv0).mpr
          ⟨by rw [show x.dirtied.kind = .dir from hk]; decide, lbnBlock_mem hb0⟩
        rw [if_pos hdir]
        cases h0.dirEmpty hy0 hyd hb0 hmine hmn.symm with
        | inl hnone =>
          rcases hnone with ⟨fs1, hres, hrep, -⟩
          rw [hres]
          exact ⟨false, fs1, _, rfl, .refused hent hy hyd, hrep⟩
        | inr hsome =>
          rcases hsome with ⟨e, fs1, hres, hrep, hsame, hdots⟩
          rw [hres, bind_some]
          cases e with
          | false => exact ⟨false, fs1, _, rfl, .refused hent hy hyd, hrep⟩
          | true =>
            have h1 := hrep.dropParentLink hx0 hv0 hk
            rw [update_idem] at h1
            generalize hx1 : { x.dirtied with
              vn := some (Vn.mk v.slot v.ref ((v.links + 65535) % 65536) true v.orphaned) } = x1 at h1
            have hpos : 0 < (fs0.vnodes v.slot).ref := by
              rw [← hfs0, (touch_vnodes t v.slot v.slot false true fs).1, ((h.ino n x hx).node v hv).ref]
              exact h.ref_pos hx v hv
            have hpriv : ((Ext2.dropParentLink v.slot fs1).vnodes v.slot).priv.ino =
                decLinks (fs0.vnodes v.slot).priv.ino := by
              rw [Ext2.dropParentLink, Fs.setPriv, setNode_vnodes_self, hsame.priv v.slot hpos]
            have hlbn : lbnBlock (Ext2.dropParentLink v.slot fs1)
                ((Ext2.dropParentLink v.slot fs1).vnodes v.slot).priv.ino k =
                  lbnBlock fs0 (fs0.vnodes v.slot).priv.ino k := by
              rw [hpriv]
              exact (map_congr (decLinks_sameMap _) fun _ => congrFun hsame.disk _).2 k
            have hread : readInode (Ext2.dropParentLink v.slot fs1) m = readInode fs0 m := hsame.readInode m
            have hv1 : x1.vn = some ⟨v.slot, v.ref, (v.links + 65535) % 65536, true, v.orphaned⟩ := by rw [← hx1]
            have hblk1 : x1.block k = x.block k := by
              rw [← hx1]
              rfl
            rcases h1.dropEntry (update_self ..) hv1 (by rw [← hx1]; exact hk) (by rw [← hx1]; exact hkk)
              (by rw [hblk1]; exact ho) hmn ((update_of_ne hmn _ _).trans hy)
                (fun hdv => by rw [hyd] at hdv; cases hdv) t with
              ⟨fs2, A2, hres2, hdrop, hrep2⟩
            have herase1 : x1.setBlock k (put32 (x1.block k) o 0) = x.erase v (decide (y.kind = .dir)) k o := by
              rw [← hx1, decide_eq_true hyd]
              rfl
            rw [herase1] at hdrop hrep2
            rw [update_idem] at hdrop
            rw [hlbn, hread] at hres2
            rw [hres2]
            exact ⟨true, fs2, _, rfl, .removed hkk ho hmm hm0 hmn hname hy (fun _ => hdots rfl) hdrop, hrep2⟩
      · have hyd : y.kind ≠ .dir := fun hd => hdir ((h0.isDir_iff hy0).mpr hd)
        rw [if_neg hdir]
        rcases h0.dropEntry hx0 hv0 hk hkk ho hmn hy0 (fun hdv hz hget => by
          rw [← hfs0, (touch_timed t false true v.slot fs).iget] at hget
          rw [← hfs0, touch_inodeNow t v.slot false true (by rw [hinum]; exact hmn.symm)]
          exact hhusk hdv hz hget) t with ⟨fs2, A2, hres, hdrop, hrep⟩
        rw [herase, ← decide_eq_false hyd] at hdrop hrep
        rw [update_idem] at hdrop
        rw [hres]
        exact ⟨true, fs2, _, rfl, .removed hkk ho hmm hm0 hmn hname hy (fun hd => absurd hd hyd) hdrop, hrep⟩
    · cases ha

end

end Unlink

end Xv6Vfs.Ext2
