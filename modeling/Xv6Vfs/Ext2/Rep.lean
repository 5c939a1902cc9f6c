import Xv6Vfs.Ext2.Listing

/-! The driver's state as a collection of inodes, and changes that concern one inode only. -/
namespace Xv6Vfs.Ext2
open Xv6Vfs.Bytes Xv6Vfs.Vfs Function

/-- The data of inode `n` that counts: the copy of its vnode if there is one. -/
def cur (fs : Fs) (n : Nat) (x : Ino) : Bytes :=
  match x.vn with
  | none => readInode fs n
  | some v => (fs.vnodes v.slot).priv.ino

/-- A live vnode. As long as it is clean, its size and block pointers are those on disk. -/
structure NodeRep (fs : Fs) (n : Nat) (x : Ino) (v : Vn) : Prop where
  slot : v.slot < nvnode
  pos : 0 < v.ref
  ref : (fs.vnodes v.slot).ref = v.ref
  inum : (fs.vnodes v.slot).inum = n
  type : (fs.vnodes v.slot).type = vnodeType (fs.vnodes v.slot).priv.ino
  mode : iMode (fs.vnodes v.slot).priv.ino = x.mode
  links : iLinks (fs.vnodes v.slot).priv.ino = v.links
  dirty : (fs.vnodes v.slot).priv.dirty = v.dirty
  orphaned : (fs.vnodes v.slot).priv.orphaned = v.orphaned
  clean : v.dirty = false → v.orphaned = false →
    SameMap (readInode fs n) (fs.vnodes v.slot).priv.ino
  length : x.kind = .file → (fs.vnodes v.slot).size % 4294967296 = x.size
  husk : x.kind = .dev → v.orphaned = true →
    iBlock (fs.vnodes v.slot).priv.ino 0 = 0 ∧ iBlock (fs.vnodes v.slot).priv.ino 12 = 0

structure InoRep (fs : Fs) (n : Nat) (x : Ino) : Prop where
  valid : ValidIno fs n
  used : inodeUsed fs n = true
  mode : iMode (readInode fs n) = x.mode
  links : iLinks (readInode fs n) = x.links
  node : ∀ v, x.vn = some v → NodeRep fs n x v
  own : x.kind ≠ .dev → Own fs (cur fs n x)
  shows : x.kind ≠ .dev → Shows fs (cur fs n x) x
  tidy : x.kind = .dir → DirOk x

/-- Block `b` is one of inode `n`. -/
def Belongs (fs : Fs) (A : Abs) (n b : Nat) : Prop :=
  ∃ x, A n = some x ∧ x.kind ≠ .dev ∧ b ∈ blocksOf fs (cur fs n x)

/-- The state represents these inodes: their bits are set, no block belongs to two of them, and every
live vnode belongs to one. -/
structure Rep (fs : Fs) (A : Abs) : Prop where
  ground : Ground fs
  ino : ∀ n x, A n = some x → InoRep fs n x
  apart : ∀ m n b, Belongs fs A m b → Belongs fs A n b → m = n
  free : ∀ n, ValidIno fs n → A n = none → inodeUsed fs n = false
  live : ∀ i < nvnode, 0 < (fs.vnodes i).ref →
    ∃ x v, A (fs.vnodes i).inum = some x ∧ x.vn = some v ∧ v.slot = i

/-- Nothing changes but inode `n`, its vnode, the blocks `S` and free space. -/
structure Confined (S : List Nat) (n : Nat) (fs fs' : Fs) : Prop where
  static : Static fs fs'
  inode : ∀ m, ValidIno fs m → m ≠ n →
    (∀ j < 128, readInode fs' m j = readInode fs m j) ∧ inodeUsed fs' m = inodeUsed fs m
  node : ∀ i, 0 < (fs.vnodes i).ref → (fs.vnodes i).inum ≠ n → fs'.vnodes i = fs.vnodes i
  fresh : ∀ i, 0 < (fs'.vnodes i).ref → (fs'.vnodes i).inum ≠ n → fs'.vnodes i = fs.vnodes i
  marked : ∀ b, Meta fs b → blockUsed fs b = true → blockUsed fs' b = true
  kept : ∀ b, blockUsed fs b = true → b ∉ S → Kept fs fs' b

section Confined

variable {S S' : List Nat} {fs fs1 fs2 fs' : Fs} {n m i b : Nat} {x : Ino} {A : Abs}

theorem Confined.refl (n : Nat) (fs : Fs) : Confined [] n fs fs :=
  ⟨Static.refl fs, fun _ _ _ => ⟨fun _ _ => rfl, rfl⟩, fun _ _ _ => rfl, fun _ _ _ => rfl, fun _ _ h => h,
    fun _ h _ => Kept.refl h⟩

theorem Confined.trans (h1 : Confined S n fs fs1) (h2 : Confined S' n fs1 fs2)
    (hs : ∀ b ∈ S', blockUsed fs b = true → b ∈ S) : Confined S n fs fs2 where
  static := h1.static.trans h2.static
  inode m hm hne := by
    obtain ⟨a1, a2⟩ := h1.inode m hm hne
    obtain ⟨b1, b2⟩ := h2.inode m ((h1.static.validIno m).mpr hm) hne
    exact ⟨fun j hj => (b1 j hj).trans (a1 j hj), b2.trans a2⟩
  node i hi hne := by
    have e1 := h1.node i hi hne
    exact (h2.node i (by rw [e1]; exact hi) (by rw [e1]; exact hne)).trans e1
  fresh i hi hne := by
    have e2 := h2.fresh i hi hne
    exact e2.trans (h1.fresh i (by rw [← e2]; exact hi) (by rw [← e2]; exact hne))
  marked b hb hu := h2.marked b ((h1.static.meta b).mpr hb) (h1.marked b hb hu)
  kept b hb hn := by
    have k1 := h1.kept b hb hn
    exact k1.trans h1.static (h2.kept b k1.used fun hx => hn (hs b hx hb))

theorem Confined.mono (h : Confined S n fs fs1) (hs : ∀ b ∈ S, b ∈ S') : Confined S' n fs fs1 :=
  { h with kept := fun b hb hn => h.kept b hb fun hx => hn (hs b hx) }

theorem Within.confined (h : Within S fs fs') (n : Nat) : Confined S n fs fs' where
  static := h.static
  inode m hm _ := ⟨fun j _ => by rw [h.readInode hm], h.inodeUsed m⟩
  node i _ _ := by rw [h.vnodes]
  fresh i _ _ := by rw [h.vnodes]
  marked := h.marked
  kept := h.kept

theorem Confined.ground (h : Confined S n fs fs') (hg : Ground fs) : Ground fs' where
  toGeo := h.static.geo hg.toGeo
  marked b hb := h.marked b ((h.static.meta b).mp hb) (hg.marked b ((h.static.meta b).mp hb))

theorem Confined.nodeRep (h : Confined S n fs fs') {v : Vn} (hr : NodeRep fs m x v) (hm : ValidIno fs m)
    (hne : m ≠ n) : fs'.vnodes v.slot = fs.vnodes v.slot ∧ NodeRep fs' m x v := by
  have he : fs'.vnodes v.slot = fs.vnodes v.slot := by
    apply h.node
    · rw [hr.ref]
      exact hr.pos
    · rwa [hr.inum]
  refine ⟨he, ⟨hr.slot, hr.pos, by rw [he, hr.ref], by rw [he, hr.inum], by rw [he, hr.type],
    by rw [he, hr.mode], by rw [he, hr.links], by rw [he, hr.dirty], by rw [he, hr.orphaned],
    fun h1 h2 => ?_, fun hk => by rw [he, hr.length hk], fun h1 h2 => by rw [he]; exact hr.husk h1 h2⟩⟩
  rw [he]
  exact (same_of_bytes (h.inode m hm hne).1).toSameMap.trans (hr.clean h1 h2)

theorem Own.shows_frame {ino ino' : Bytes} (h : Own fs ino) (hs : Static fs fs') (hm : SameMap ino' ino)
    (hk : ∀ b ∈ blocksOf fs ino, Kept fs fs' b) (hsh : Shows fs ino x) : Own fs' ino' ∧ Shows fs' ino' x := by
  obtain ⟨hown, -, hl⟩ := h.frame hs hm hk
  refine ⟨hown, hm.size.trans hsh.size, fun k => ?_⟩
  rw [hl, hsh.blocks]
  split
  · rfl
  case isFalse h0 =>
    have hb := lbnBlock_mem h0
    rw [(hk _ hb).disk (h.data _ hb)]

theorem Rep.used (h : Rep fs A) (hb : Belongs fs A n b) : blockUsed fs b = true := by
  obtain ⟨x, hx, hk, hb⟩ := hb
  exact ((h.ino n x hx).own hk).used b hb

section Others

variable (h : Rep fs A) (hc : Confined S n fs fs') (hS : ∀ b ∈ S, Belongs fs A n b) (hx : A m = some x) (hne : m ≠ n)
include h hc hS hx hne

/-- Another inode keeps its blocks. -/
theorem Rep.kept_others (hk : x.kind ≠ .dev) (hb : b ∈ blocksOf fs (cur fs m x)) : Kept fs fs' b :=
  hc.kept b (((h.ino m x hx).own hk).used b hb) fun hs => hne (h.apart m n b ⟨x, hx, hk, hb⟩ (hS b hs))

omit hS in
theorem Rep.cur_others : SameMap (cur fs' m x) (cur fs m x) := by
  have hr := h.ino m x hx
  unfold cur
  cases hv : x.vn with
  | none => exact (same_of_bytes (hc.inode m hr.valid hne).1).toSameMap
  | some v =>
    dsimp only
    rw [(hc.nodeRep (hr.node v hv) hr.valid hne).1]
    exact SameMap.refl _

theorem Rep.ino_others : InoRep fs' m x := by
  have hr := h.ino m x hx
  obtain ⟨hbytes, hused⟩ := hc.inode m hr.valid hne
  have hsame := same_of_bytes hbytes
  have hframe := fun hk => (hr.own hk).shows_frame hc.static (h.cur_others hc hx hne)
    (fun _ => h.kept_others hc hS hx hne hk) (hr.shows hk)
  exact ⟨(hc.static.validIno m).mpr hr.valid, hused.trans hr.used, hsame.mode.trans hr.mode,
    hsame.links.trans hr.links, fun v hv => (hc.nodeRep (hr.node v hv) hr.valid hne).2, fun hk => (hframe hk).1,
    fun hk => (hframe hk).2, hr.tidy⟩

theorem Rep.blocks_others (hk : x.kind ≠ .dev) : blocksOf fs' (cur fs' m x) = blocksOf fs (cur fs m x) :=
  (((h.ino m x hx).own hk).frame hc.static (h.cur_others hc hx hne) fun _ =>
    h.kept_others hc hS hx hne hk).2.1

end Others

/-- The rule for all changes: what happens to inode `n` is to be shown, the rest is as before. -/
theorem Rep.confined (h : Rep fs A) (hc : Confined S n fs fs') (hS : ∀ b ∈ S, Belongs fs A n b) {x' : Option Ino}
    (hn : ∀ x, x' = some x → InoRep fs' n x)
    (hgrows : ∀ b, Belongs fs' (update A n x') n b → blockUsed fs b = true → Belongs fs A n b)
    (hfree : x' = none → ValidIno fs' n → inodeUsed fs' n = false)
    (hlive : ∀ i < nvnode, 0 < (fs'.vnodes i).ref → (fs'.vnodes i).inum = n →
      ∃ x v, x' = some x ∧ x.vn = some v ∧ v.slot = i) :
    Rep fs' (update A n x') where
  ground := hc.ground h.ground
  ino m x hm := by
    by_cases he : m = n
    · subst he
      rw [update_self] at hm
      exact hn x hm
    · rw [update_of_ne he] at hm
      exact h.ino_others hc hS hm he
  apart := by
    have hback : ∀ m b, m ≠ n → Belongs fs' (update A n x') m b → Belongs fs A m b := by
      rintro m b he ⟨x, hx, hk, hb⟩
      rw [update_of_ne he] at hx
      rw [h.blocks_others hc hS hx he hk] at hb
      exact ⟨x, hx, hk, hb⟩
    -- a block of inode `n` that another one has was in use, and then it was one of `n` before
    have hmixed : ∀ m b, Belongs fs' (update A n x') m b → Belongs fs' (update A n x') n b → m = n := by
      intro m b h1 h2
      by_contra he
      have h3 := hback m b he h1
      exact he (h.apart m n b h3 (hgrows b h2 (h.used h3)))
    intro m k b h1 h2
    by_cases hm : m = n
    · subst hm
      exact (hmixed k b h2 h1).symm
    · by_cases hk : k = n
      · subst hk
        exact hmixed m b h1 h2
      · exact h.apart m k b (hback m b hm h1) (hback k b hk h2)
  free m hv hm := by
    by_cases he : m = n
    · subst he
      rw [update_self] at hm
      exact hfree hm hv
    · rw [update_of_ne he] at hm
      have hv0 := (hc.static.validIno m).mp hv
      rw [(hc.inode m hv0 he).2]
      exact h.free m hv0 hm
  live i hi hpos := by
    by_cases he : (fs'.vnodes i).inum = n
    · rw [he, update_self]
      exact hlive i hi hpos he
    · have hsame := hc.fresh i hpos he
      rw [update_of_ne he, hsame]
      exact h.live i hi (by rw [← hsame]; exact hpos)

/-- Inode `n` keeps its blocks, and these their content. -/
theorem Rep.confined_still (h : Rep fs A) (hc : Confined [] n fs fs') (hx : A n = some x) {x' : Ino}
    (hkind : x'.kind = x.kind) (hmap : x.kind ≠ .dev → SameMap (cur fs' n x') (cur fs n x)) (hn : InoRep fs' n x')
    (hlive : ∀ i < nvnode, 0 < (fs'.vnodes i).ref → (fs'.vnodes i).inum = n → ∃ v, x'.vn = some v ∧ v.slot = i) :
    Rep fs' (update A n (some x')) := by
  refine h.confined hc nofun (fun y hy => Option.some.inj hy ▸ hn) ?_ nofun fun i hi hpos he => ?_
  · rintro b ⟨y, hy, hk, hb⟩ -
    rw [update_self] at hy
    cases hy
    rw [hkind] at hk
    have ho := (h.ino n x hx).own hk
    rw [(ho.frame hc.static (hmap hk) fun b hb => hc.kept b (ho.used b hb) List.not_mem_nil).2.1] at hb
    exact ⟨x, hx, hk, hb⟩
  · obtain ⟨v, hv⟩ := hlive i hi hpos he
    exact ⟨x', v, rfl, hv⟩

theorem not_belongs_none : ¬ Belongs fs (update A n none) n b := by
  rintro ⟨y, hy, -⟩
  rw [update_self] at hy
  cases hy

end Confined

end Xv6Vfs.Ext2
