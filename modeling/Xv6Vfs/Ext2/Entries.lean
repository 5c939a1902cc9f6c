import Xv6Vfs.Ext2.Data

/-! Directories over the inodes: what `ext2_dir_lookup` finds and what `ext2_dir_add` changes. -/
namespace Xv6Vfs.Ext2
open Xv6Vfs.Bytes Xv6Vfs.Vfs Function

variable {fs : Fs} {name : Name}

/-- What `ext2_dir_add` makes of a directory with the vnode `v`: the entry goes to a block with room for it, or to
a new block, or there is no block to be had. -/
inductive Added (x : Ino) (v : Vn) (name : Name) (inum ftype : Nat) : Bool → Ino → Prop where
  | put {k : Nat} {data : Bytes} (hk : k < x.size / bsize)
    (h : (slots (x.block k)).findSome? (visitAdd name inum ftype (x.block k)) = some (some data)) :
    Added x v name inum ftype true (x.setBlock k data)
  | grow (h : ∀ k < x.size / bsize, (slots (x.block k)).findSome? (visitAdd name inum ftype (x.block k)) = none) :
    Added x v name inum ftype true
      { x.append (freshDirBlock name inum ftype) with vn := some { v with dirty := true } }
  | full {dirty : Bool}
    (h : ∀ k < x.size / bsize, (slots (x.block k)).findSome? (visitAdd name inum ftype (x.block k)) = none) :
    Added x v name inum ftype false
      { x with blocks := update x.blocks (x.size / bsize) none, vn := some { v with dirty := dirty } }

theorem lbnBlock_lt {ino : Bytes} {k : Nat} (h : lbnBlock fs ino k ≠ 0) : k < ndirect + nindirect := by
  rw [lbnBlock_eq] at h
  by_contra hge
  rw [if_neg (by omega), if_neg (by omega)] at h
  exact h rfl

theorem Rep.dirOk {A : Abs} {n : Nat} {x : Ino} (h : Rep fs A) (hx : A n = some x)
    (hk : x.kind = .dir) : DirOk x := (h.ino n x hx).tidy hk

section Walk

variable {fs : Fs} {A : Abs} {n : Nat} {x : Ino} {v : Vn} (h : Rep fs A)
  (hx : A n = some x) (hv : x.vn = some v) (hk : x.kind = .dir)
include h hx hv hk

theorem Rep.walkDir {α : Type} (visit : Bytes → Nat → Option α) :
    (∃ j a, j < x.size / bsize ∧ (slots (x.block j)).findSome? (visit (x.block j)) = some a ∧
      lbnBlock fs (fs.vnodes v.slot).priv.ino j ≠ 0 ∧
      fs.disk (lbnBlock fs (fs.vnodes v.slot).priv.ino j) = x.block j ∧
      walkDir fs v.slot visit = some (.hit (lbnBlock fs (fs.vnodes v.slot).priv.ino j) a)) ∨
    (∀ j < x.size / bsize, (slots (x.block j)).findSome? (visit (x.block j)) = none) ∧
      walkDir fs v.slot visit = some (.done x.size) := by
  have hd := h.dirOk hx hk
  have hs := (h.own hx hv (by rw [hk]; decide)).2
  have hw := @dirWalk_spec α fs (fs.vnodes v.slot).priv x hs hd visit (x.size / bsize + 2) 0 (by omega)
    (Nat.zero_le _)
  rw [Nat.zero_mul] at hw
  rw [Ext2.walkDir, hs.size]
  cases hw with
  | inl hhit =>
    rcases hhit with ⟨j, a, -, hj, hf, he⟩
    rcases hs.block j (hd.there j hj) with ⟨h0, hdata⟩
    exact .inl ⟨j, a, hj, hf, h0, hdata, he⟩
  | inr hdone => exact .inr ⟨fun j hj => hdone.1 j (Nat.zero_le j) hj, hdone.2⟩

theorem Rep.lookupWalk (hname : 0 ∉ name) :
    (∃ blk m, (m, name) ∈ x.ents ∧ Ext2.walkDir fs v.slot (visitLookup name) = some (.hit blk (some m))) ∨
    (∀ m, (m, name) ∉ x.ents) ∧ Ext2.walkDir fs v.slot (visitLookup name) = some (.done x.size) := by
  have hd := h.dirOk hx hk
  cases h.walkDir hx hv hk (visitLookup name) with
  | inl hhit =>
    rcases hhit with ⟨j, a, hj, hf, -, -, he⟩
    rcases List.exists_of_findSome?_eq_some hf with ⟨o, ho, ha⟩
    have hpos := ((hd.block j hj).tiles.bounds ho).2.1
    rw [visitLookup] at ha
    split at ha
    · rename_i hm
      cases ha
      have he' := (deMatches_eq ((hd.block j hj).named o ho hm.1) hname).mp hm.2.2
      exact .inl ⟨_, deInode (x.block j) o, mem_ents.mpr ⟨j, hj, mem_listed.mpr ⟨o, ho, hm.1, by rw [he']⟩⟩, he⟩
    · rw [if_neg (by omega)] at ha
      cases ha
  | inr hdone =>
    refine .inr ⟨fun m hm => ?_, hdone.2⟩
    rcases mem_ents.mp hm with ⟨j, hj, hm⟩
    rcases mem_listed.mp hm with ⟨o, ho, h0, he⟩
    have hnone := List.findSome?_eq_none_iff.mp (hdone.1 j hj) o ho
    have hgood := (hd.block j hj).named o ho h0
    have he' : deName (x.block j) o = name := (Prod.mk.inj he).2.symm
    have hlen : 0 < deNameLen (x.block j) o := by
      rw [← deName_length]
      exact List.length_pos_iff.mpr (goodName_iff.mp hgood).1
    rw [visitLookup, if_pos ⟨h0, hlen, (deMatches_eq hgood hname).mpr he'⟩] at hnone
    cases hnone

theorem Rep.dirLookup (hname : 0 ∉ name) :
    (∃ m, (m, name) ∈ x.ents ∧ dirLookup v.slot name fs = some (Ext2.iget m fs)) ∨
    (∀ m, (m, name) ∉ x.ents) ∧ dirLookup v.slot name fs = some (none, fs) := by
  rw [Ext2.dirLookup]
  cases h.lookupWalk hx hv hk hname with
  | inl hhit =>
    rcases hhit with ⟨blk, m, hm, hw⟩
    rw [hw]
    exact .inl ⟨m, hm, rfl⟩
  | inr hdone =>
    rw [hdone.2]
    exact .inr ⟨hdone.1, rfl⟩

theorem Rep.growDir (h0 : lbnBlock fs (fs.vnodes v.slot).priv.ino (x.size / bsize) ≠ 0) {data : Bytes}
    (hdata : DirBlock data) :
    Rep ((fs.setPriv v.slot { (fs.vnodes v.slot).priv with
        ino := setSize (fs.vnodes v.slot).priv.ino (x.size + bsize), dirty := true }).bwrite
          (lbnBlock fs (fs.vnodes v.slot).priv.ino (x.size / bsize)) data)
      (update A n (some { x.append data with vn := some { v with dirty := true } })) := by
  have hd := h.dirOk hx hk
  have hdev : x.kind ≠ .dev := by rw [hk]; decide
  have hbound : x.size + bsize < 4294967296 := by
    have hlt := lbnBlock_lt h0
    have hwhole := hd.whole
    rw [ndirect, nindirect, bsize] at *
    omega
  -- the block is written before the size changes: the two commute
  have h1 := h.bwrite hx hv hdev h0 fun _ => hd.setBlock hdata (x.size / bsize)
  have h2 := @Rep.resize _ _ n (x.setBlock (x.size / bsize) data) v h1 (update_self ..) hv hdev
    (x.size + bsize) (fs.vnodes v.slot).size (fun hf => by rw [show x.kind = .file from hf] at hk; cases hk)
    fun _ => by
      rw [Nat.mod_eq_of_lt hbound]
      exact hd.append hdata
  rwa [update_idem, Nat.mod_eq_of_lt hbound] at h2

theorem Rep.dirAdd (hg : goodName name = true) (inum ftype : Nat) :
    ∃ ok fs' x', dirAdd v.slot name inum ftype fs = some (ok, fs') ∧ Added x v name inum ftype ok x' ∧
      Rep fs' (update A n (some x')) := by
  have hd := h.dirOk hx hk
  have hdev : x.kind ≠ .dev := by rw [hk]; decide
  have hnode := (h.ino n x hx).node v hv
  have hcstr := cstr_eq (goodName_iff.mp hg).2.2
  rw [Ext2.dirAdd, hcstr]
  cases h.walkDir hx hv hk (visitAdd name inum ftype) with
  | inl hhit =>
    rcases hhit with ⟨j, a, hj, hf, h0, hdata, he⟩
    rcases List.exists_of_findSome?_eq_some hf with ⟨o, ho, ha⟩
    rcases visitAdd_spec (hd.block j hj) ho hg ha with ⟨data, rfl, hblock⟩
    rw [he]
    exact ⟨_, _, _, rfl, .put hj hf, h.bwrite hx hv hdev h0 fun _ => hd.setBlock hblock j⟩
  | inr hdone =>
    have hown := (h.own hx hv hdev).1
    rw [hdone.2, Option.bind_some]
    dsimp only
    rw [Own.bmapWaits h.ground hown, if_neg Bool.false_ne_true]
    generalize hr : Ext2.bmap (fs.vnodes v.slot).priv (x.size / bsize) true fs = r
    rcases h.bmap hx hv hdev (x.size / bsize) (fun _ => Nat.le_refl _) hr with ⟨hrep, -, hlbn⟩
    by_cases h0 : r.1 = 0
    · rw [if_pos h0] at hrep ⊢
      exact ⟨_, _, _, rfl, .full hdone.1, hrep⟩
    · rw [if_neg h0] at hrep ⊢
      refine ⟨_, _, _, rfl, .grow hdone.1, ?_⟩
      have hself : ((r.2.2.setPriv v.slot r.2.1).vnodes v.slot).priv = r.2.1 := by
        rw [Fs.setPriv, setNode_vnodes_self]
      have hmap : lbnBlock (r.2.2.setPriv v.slot r.2.1) ((r.2.2.setPriv v.slot r.2.1).vnodes v.slot).priv.ino
          (x.size / bsize) = r.1 := by
        rw [hself, ← hlbn]
        rfl
      have hgrow := hrep.growDir (update_self ..) rfl hk (by rw [hmap]; exact h0)
        (freshDirBlock_spec hg inum ftype)
      rwa [update_idem, hmap, hself, Ino.append, update_idem] at hgrow

end Walk

end Xv6Vfs.Ext2
