import Xv6Vfs.Ext2.Steps

/-! What the driver does to the data of an inode with a vnode: a block is mapped, written, the size
changes, everything is truncated. -/
namespace Xv6Vfs.Ext2
open Xv6Vfs.Bytes Xv6Vfs.Vfs Function

variable {r : Nat × Priv × Fs}

section Data

variable {fs fs1 : Fs} {A : Abs} {n k : Nat} {x : Ino} {v : Vn} {ino : Bytes}

theorem Own.bwrite (h : Own fs ino) (h0 : lbnBlock fs ino k ≠ 0) (data : Bytes) :
    Own (fs.bwrite (lbnBlock fs ino k) data) ino ∧
    blocksOf (fs.bwrite (lbnBlock fs ino k) data) ino = blocksOf fs ino ∧
    ∀ j, lbnBlock (fs.bwrite (lbnBlock fs ino k) data) ino j = lbnBlock fs ino j := by
  have hm := h.data _ (lbnBlock_mem h0)
  obtain ⟨hblk, hlbn⟩ := @map_congr fs (fs.bwrite (lbnBlock fs ino k) data) ino ino (SameMap.refl ino)
    fun h12 => bwrite_disk fs data (lbnBlock_ne h.nodup h12 h0).symm
  refine ⟨⟨?_, fun b hb => ?_, fun b hb => ?_⟩, hblk, hlbn⟩
  · rw [hblk]
    exact h.nodup
  · rw [hblk] at hb
    rw [bwrite_bits hm]
    exact h.used b hb
  · rw [hblk] at hb
    exact h.data b hb

theorem Shows.bwrite (hs : Shows fs ino x) (h : Own fs ino) (h0 : lbnBlock fs ino k ≠ 0) (data : Bytes) :
    Shows (fs.bwrite (lbnBlock fs ino k) data) ino (x.setBlock k data) := by
  obtain ⟨-, -, hlbn⟩ := h.bwrite h0 data
  refine ⟨hs.size, fun j => ?_⟩
  rw [hlbn]
  by_cases hj : j = k
  · subst hj
    rw [if_neg h0, bwrite_disk_self]
    exact update_self ..
  · show update x.blocks k (some data) j = _
    rw [update_of_ne hj, hs.blocks j]
    split
    · rfl
    case isFalse hne => rw [bwrite_disk _ _ fun he => hj (lbnBlock_inj h.nodup hne he)]

theorem setNode_self (fs : Fs) (i : Nat) : fs.setNode i (fs.vnodes i) = fs := by
  simp [Fs.setNode]

theorem Rep.cur_eq (_ : Rep fs A) (hv : x.vn = some v) : cur fs n x = (fs.vnodes v.slot).priv.ino := by
  unfold cur
  rw [hv]

section

variable (h : Rep fs A) (hx : A n = some x) (hv : x.vn = some v) (hk : x.kind ≠ .dev)
include h hx hv hk

theorem Rep.own : Own fs (fs.vnodes v.slot).priv.ino ∧ Shows fs (fs.vnodes v.slot).priv.ino x := by
  have hi := h.ino n x hx
  rw [← h.cur_eq hv]
  exact ⟨hi.own hk, hi.shows hk⟩

/-- Only the data change, not the vnode. -/
theorem Rep.bwrite (h0 : lbnBlock fs (fs.vnodes v.slot).priv.ino k ≠ 0) {data : Bytes}
    (htidy : x.kind = .dir → DirOk (x.setBlock k data)) :
    Rep (fs.bwrite (lbnBlock fs (fs.vnodes v.slot).priv.ino k) data) (update A n (some (x.setBlock k data))) := by
  have hnode := (h.ino n x hx).node v hv
  obtain ⟨hown, hshows⟩ := h.own hx hv hk
  obtain ⟨hown', hblk, -⟩ := hown.bwrite h0 data
  have hb := lbnBlock_mem h0
  have hvn : Vn.of v.slot (fs.vnodes v.slot) = v := by
    unfold Vn.of
    rw [hnode.ref, hnode.links, hnode.dirty, hnode.orphaned]
  have hmine := fun b hb => (belongs_iff hx hv).mpr ⟨hk, (hb : b ∈ blocksOf fs (fs.vnodes v.slot).priv.ino)⟩
  rw [← setNode_self (fs.bwrite _ data) v.slot]
  refine h.renode hx hv (bwrite_within (hown.data _ hb) data) (fun b' hb' => hmine b' (List.mem_singleton.mp hb' ▸ hb))
    (fun _ b' hb' _ => hmine b' (hblk ▸ hb')) (hv.trans (congrArg some hvn.symm)) rfl rfl ?_ rfl rfl rfl
    (fun h1 h2 => ?_) hnode.length (fun h1 h2 => ?_) (fun _ => hown') (fun _ => hshows.bwrite hown h0 data) htidy
  · exact hnode.ref.symm ▸ hnode.pos
  · exact hnode.clean (hnode.dirty ▸ h1) (hnode.orphaned ▸ h2)
  · exact hnode.husk h1 (hnode.orphaned ▸ h2)

omit h hx hv hk in
theorem Mapped.shows {p : Priv} {lbn : Nat} (hm : Mapped p lbn fs r) (h : Own fs p.ino)
    (hs : Shows fs p.ino x) : Shows r.2.2 r.2.1.ino { x with
      blocks := update x.blocks lbn (if r.1 = 0 then none else some (r.2.2.disk r.1)) } := by
  refine ⟨hm.size.trans hs.size, fun k => ?_⟩
  show update x.blocks lbn _ k = _
  by_cases hk : k = lbn
  · subst hk
    rw [update_self, hm.block]
  · rw [update_of_ne hk, hm.others k hk, hs.blocks k]
    split
    · rfl
    case isFalse h0 => rw [(hm.kept k h0).disk (h.data _ (lbnBlock_mem h0))]

theorem Rep.bmap (lbn : Nat)
    (hdir : x.kind = .dir → x.size / bsize ≤ lbn) (hr : bmap (fs.vnodes v.slot).priv lbn true fs = r) :
    Rep (r.2.2.setPriv v.slot r.2.1) (update A n (some { x with
      blocks := update x.blocks lbn (if r.1 = 0 then none else some (r.2.2.disk r.1))
      vn := some { v with dirty := r.2.1.dirty } })) ∧
    (r.2.1.dirty = v.dirty ∨ r.2.1.dirty = true) ∧ lbnBlock r.2.2 r.2.1.ino lbn = r.1 := by
  have hi := h.ino n x hx
  have hnode := hi.node v hv
  obtain ⟨hown, hshows⟩ := h.own hx hv hk
  have hm := bmap_spec h.ground hown lbn
  rw [hr] at hm
  have hsh := hm.shows hown hshows
  have hvn : Vn.of v.slot { fs.vnodes v.slot with priv := r.2.1 } = { v with dirty := r.2.1.dirty } := by
    unfold Vn.of
    rw [hnode.ref, hm.links, hnode.links, hm.orphaned, hnode.orphaned]
  refine ⟨?_, ?_, hm.block⟩
  · have hset : r.2.2.setPriv v.slot r.2.1 = r.2.2.setNode v.slot { fs.vnodes v.slot with priv := r.2.1 } := by
      unfold Fs.setPriv
      rw [hm.within.vnodes]
    rw [hset]
    refine h.renode hx hv hm.within (fun b hb => (belongs_iff hx hv).mpr ⟨hk, hb⟩)
      (fun _ b hb hu => (belongs_iff hx hv).mpr ⟨hk, hm.grows b hb hu⟩) (by rw [hvn]) rfl rfl ?_ rfl rfl hm.mode
        (fun h1 h2 => ?_) hnode.length
      (fun hd => absurd hd hk) (fun _ => hm.own) (fun _ => ⟨hsh.size, hsh.blocks⟩) fun hd => ?_
    · rw [hnode.ref]
      exact hnode.pos
    · cases hm.clean with
      | inl he =>
        rw [he] at h1 h2 ⊢
        exact hnode.clean (hnode.dirty ▸ h1) (hnode.orphaned ▸ h2)
      | inr he =>
        rw [he] at h1
        cases h1
    · refine ((hi.tidy hd).congr (by rfl) fun j hj => ?_).1
      have := hdir hd
      exact update_of_ne (by omega) _ _
  · cases hm.clean with
    | inl he =>
      rw [he]
      exact .inl hnode.dirty
    | inr he => exact .inr he

omit h hx hv hk in
theorem map_setSize (fs : Fs) (ino : Bytes) (s : Nat) : blocksOf fs (setSize ino s) = blocksOf fs ino ∧
    ∀ k, lbnBlock fs (setSize ino s) k = lbnBlock fs ino k := by
  have hi : ∀ e, indirect fs (setSize ino s) e = indirect fs ino e := by
    intro e
    unfold indirect
    rw [iBlock_setSize]
  constructor
  · rw [blocksOf_eq, blocksOf_eq, iBlock_setSize, pointers_congr fun e _ => hi e,
      pointers_congr fun k _ => iBlock_setSize ino s k]
  · intro k
    rw [lbnBlock_eq, lbnBlock_eq, hi, iBlock_setSize]

theorem Rep.resize {s size : Nat} (hfile : x.kind = .file → size % 4294967296 = s % 4294967296)
    (hdir : x.kind = .dir → DirOk { x with size := s % 4294967296 }) : Rep (fs.setNode v.slot { fs.vnodes v.slot with
        size := size
        priv := { (fs.vnodes v.slot).priv with ino := setSize (fs.vnodes v.slot).priv.ino s, dirty := true } })
      (update A n (some { x with size := s % 4294967296, vn := some { v with dirty := true } })) := by
  have hi := h.ino n x hx
  have hnode := hi.node v hv
  obtain ⟨hown, hshows⟩ := h.own hx hv hk
  let w : Node := { fs.vnodes v.slot with
    size := size
    priv := { (fs.vnodes v.slot).priv with ino := setSize (fs.vnodes v.slot).priv.ino s, dirty := true } }
  have hvn : Vn.of v.slot w = { v with dirty := true } := by
    show Vn.mk v.slot (fs.vnodes v.slot).ref (iLinks (setSize (fs.vnodes v.slot).priv.ino s)) true
      (fs.vnodes v.slot).priv.orphaned = _
    rw [iLinks_setSize, hnode.ref, hnode.links, hnode.orphaned]
  obtain ⟨hblk, hlbn⟩ := map_setSize fs (fs.vnodes v.slot).priv.ino s
  rw [← hvn]
  refine h.renode hx hv (Within.refl [] fs) nofun
    (fun _ b hb _ => (belongs_iff hx hv).mpr ⟨hk, hblk ▸ hb⟩) rfl rfl rfl ?_ rfl rfl (iMode_setSize _ s)
      (fun h1 => by cases h1)
    hfile (fun hd => absurd hd hk) (fun _ => ?_) (fun _ => ⟨iSize_setSize _ s, fun k => ?_⟩) fun hd => ?_
  · rw [hnode.ref]
    exact hnode.pos
  · refine ⟨?_, ?_, ?_⟩
    all_goals show _; rw [show w.priv.ino = setSize (fs.vnodes v.slot).priv.ino s from rfl, hblk]
    · exact hown.nodup
    · exact hown.used
    · exact hown.data
  · rw [hlbn k]
    exact hshows.blocks k
  · exact ⟨(hdir hd).whole, (hdir hd).there, (hdir hd).block⟩

end

end Data

end Xv6Vfs.Ext2
