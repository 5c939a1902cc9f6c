import Mathlib.Logic.Relation
import Xv6Vfs.Vfs.Dotdot
import Xv6Vfs.Vfs.Follow

/-! Absolute walks stay in sight of the root: nothing above the place they reach is covered by a
mount, on any of the file systems they came through. -/
namespace Xv6Vfs.Vfs
open Option

variable {m' p : Nat} {name : Name}

/-- The number that tells a directory from the others on its device: the inode number, or the first
cluster. -/
def dirId (c : Content) (v : Vnode) : Nat :=
  if v.ops = some .fat32 ∧ v.priv = some 0 then c.rootClus v.dev else v.priv.getD 0

def rootId (c : Content) (fs : FsType) (dev : Nat) : Nat :=
  if fs = .fat32 then c.rootClus dev else rootInum fs

/-- Directory `k` is the parent of directory `n`. -/
def Parent (c : Content) (fs : FsType) (dev n k : Nat) : Prop :=
  n ≠ rootId c fs dev ∧ ∃ x, c.search dev n dotdot = some x ∧
    k = if fs = .fat32 ∧ x.node = 0 then c.rootClus dev else x.node

/-- Something is mounted on directory `n`. -/
def Cov (c : Content) (s : State) (dev n : Nat) : Prop :=
  ∃ m ∈ s.mounttable.tail, ∃ p, mpointOf s m = some p ∧ (s.vnodes p).dev = dev ∧ dirId c (s.vnodes p) = n

/-- Nothing is mounted on directory `n` or above it on the same device. -/
def Clear (c : Content) (s : State) (fs : FsType) (dev n : Nat) : Prop :=
  ∀ k, Relation.ReflTransGen (Parent c fs dev) n k → ¬ Cov c s dev k

/-- Mount `m` can be reached from the root: nothing is mounted above its mountpoint, and the
mountpoint's own mount can be reached. -/
inductive Vis (c : Content) (s : State) : Nat → Prop
  | first {m : Nat} (h : s.mounttable.head? = some m) : Vis c s m
  | on {m p m' : Nat} {mt' : Mount} {fs : FsType} (hp : mpointOf s m = some p)
      (hmp : (s.vnodes p).mp = some m') (hm' : s.mounts m' = some mt') (hfs : mt'.ops = some fs)
      (hclear : ∀ k, Parent c fs mt'.dev (dirId c (s.vnodes p)) k → Clear c s fs mt'.dev k)
      (h : Vis c s m') : Vis c s m

/-- The mountpoints of a table: none is the root of a file system; on FAT32 each is known by the
cluster of its parent, and none lies directly in another. -/
structure Apart (c : Content) (s : State) : Prop where
  roots : ∀ m p m' mt' fs, mpointOf s m = some p → (s.vnodes p).mp = some m' → s.mounts m' = some mt' →
    mt'.ops = some fs → dirId c (s.vnodes p) ≠ rootId c fs mt'.dev
  entry : ∀ m p, mpointOf s m = some p → (s.vnodes p).ops = some .fat32 →
    Parent c .fat32 (s.vnodes p).dev (dirId c (s.vnodes p)) (s.vnodes p).inum
  nest : ∀ m p m' p', mpointOf s m = some p → mpointOf s m' = some p' → (s.vnodes p).ops = some .fat32 →
    (s.vnodes p').dev = (s.vnodes p).dev → (s.vnodes p').inum ≠ dirId c (s.vnodes p)

variable {c : Content} {s : State} {v w u : Vnode} {m n k dev : Nat} {mt : Mount} {fs : FsType}

theorem Clear.here (h : Clear c s fs dev n) : ¬ Cov c s dev n := h n Relation.ReflTransGen.refl

theorem Clear.up (h : Clear c s fs dev n) (hp : Parent c fs dev n k) : Clear c s fs dev k :=
  fun j hj => h j (Relation.ReflTransGen.head hp hj)

theorem Clear.of_parents (h : ¬ Cov c s dev n) (hp : ∀ k, Parent c fs dev n k → Clear c s fs dev k) :
    Clear c s fs dev n := by
  intro j hj
  rcases Relation.ReflTransGen.cases_head hj with rfl | ⟨k, h1, h2⟩
  · exact h
  · exact hp k h1 j h2

theorem Parent.unique {k' : Nat} (h : Parent c fs dev n k) (h' : Parent c fs dev n k') : k = k' := by
  obtain ⟨-, x, hx, rfl⟩ := h
  obtain ⟨-, x', hx', rfl⟩ := h'
  rw [some.inj (hx.symm.trans hx')]

theorem Clear.root (h : ¬ Cov c s dev (rootId c fs dev)) : Clear c s fs dev (rootId c fs dev) :=
  Clear.of_parents h fun _ hk => absurd rfl hk.1

theorem On.dirId_inode (hv : On c s v m mt) (hne : v.ops ≠ some .fat32) : dirId c v = v.inum := by
  simp [dirId, hne, hv.filled.2.2.2 hne]

theorem dirId_fat (hops : v.ops = some .fat32) (hp : v.priv = some n) :
    dirId c v = if n = 0 then c.rootClus v.dev else n := by
  simp [dirId, hops, hp]

theorem dirId_spot (v : Vnode) : dirId c (spot v) = dirId c v := rfl

theorem object_dirId (hv : On c s v m mt) (hd : v.type = .dir) :
    object c v = if v.ops = some .fat32 then some (.fatDir (dirId c v)) else some (.inode (dirId c v)) := by
  by_cases hf : v.ops = some .fat32
  · obtain ⟨n, hn⟩ := isSome_iff_exists.mp hv.filled.2.1
    simp [object, hf, hn, hd, dirId_fat hf hn]
  · rw [if_neg hf, object_inode c hv.filled hf, hv.dirId_inode hf]

theorem sameObject_dirId {mt' : Mount} (hv : On c s v m mt) (hw : On c s w m' mt') (hvd : v.type = .dir)
    (hwd : w.type = .dir) (h : SameObject c v w) : dirId c v = dirId c w := by
  obtain ⟨-, h2, h3⟩ := h
  rw [object_dirId hv hvd, object_dirId hw hwd, h2] at h3
  split at h3
  · exact Object.fatDir.inj (some.inj h3)
  · exact Object.inode.inj (some.inj h3)

theorem object_spot (hd : v.type = .dir) : object c (spot v) = object c v := by
  simp only [object, spot, hd, if_true]

/-- A walk is at spot `v` of mount `m`, in sight of the root. -/
structure Pos (c : Content) (s : State) (v : Vnode) (m : Nat) (mt : Mount) (fs : FsType) : Prop where
  on : On c s v m mt
  ops : mt.ops = some fs
  vis : Vis c s m
  clear : v.type = .dir → Clear c s fs mt.dev (dirId c v)
  file : v.type ≠ .dir → vfsLookupMount s v = none
  beyond : ∀ m', vfsLookupMount s v = some m' → Vis c s m'

section Steps

variable (hcfg : Config c s) (ha : Apart c s)
include hcfg

/-- Mountpoints of the device of `v` lie on the mount of `v`. -/
theorem On.point (hv : On c s v m mt) (hp : mpointOf s m' = some p) (hdev : (s.vnodes p).dev = mt.dev) :
    On c s (spot (s.vnodes p)) m mt := by
  obtain ⟨m1, mt1, h1, -⟩ := hcfg.point_on hp
  obtain ⟨rfl, rfl⟩ := h1.unique hcfg hv (hdev.trans hv.dev.symm)
  exact h1

/-- What is found mounted on `u` is mounted on its device, under its number. -/
theorem On.lookupMount (hu : On c s u m mt) (h : vfsLookupMount s u = some m') :
    ∃ p, mpointOf s m' = some p ∧ On c s (spot (s.vnodes p)) m mt ∧ (s.vnodes p).inum = u.inum := by
  obtain ⟨-, p, h1, h2, h3⟩ := lookupMount_some h
  exact ⟨p, h1, hu.point hcfg h1 (h2.trans hu.dev), h3⟩

theorem On.cov_of_lookup (hu : On c s u m mt) (hne : mt.ops ≠ some .fat32) (h : vfsLookupMount s u = some m') :
    Cov c s mt.dev (dirId c u) := by
  obtain ⟨p, h1, h2, h3⟩ := hu.lookupMount hcfg h
  refine ⟨m', List.mem_of_find?_eq_some h, p, h1, h2.dev, ?_⟩
  rw [hu.dirId_inode (hu.ops ▸ hne), ← h3]
  exact h2.dirId_inode (h2.ops ▸ hne)

omit hcfg in
theorem lookupMount_of_covers (hm : m' ∈ s.mounttable.tail) (hp : mpointOf s m' = some p)
    (hdev : (s.vnodes p).dev = u.dev) (hi : (s.vnodes p).inum = u.inum) : vfsLookupMount s u ≠ none :=
  fun hn => List.find?_eq_none.mp hn m' hm (covers_iff.mpr ⟨p, hp, hdev, hi⟩)

theorem On.lookup_of_cov (hu : On c s u m mt) (hne : mt.ops ≠ some .fat32)
    (h : Cov c s mt.dev (dirId c u)) : vfsLookupMount s u ≠ none := by
  obtain ⟨m', hm, p, h1, h2, h3⟩ := h
  have hp := hu.point hcfg h1 h2
  refine lookupMount_of_covers hm h1 (h2.trans hu.dev.symm) ?_
  rw [hu.dirId_inode (hu.ops ▸ hne)] at h3
  exact (hp.dirId_inode (hp.ops ▸ hne)).symm.trans h3

include ha in
theorem On.lookup_of_cov_fat (hu : On c s u m mt) (hf : mt.ops = some .fat32)
    (hpar : Parent c .fat32 mt.dev (dirId c u) u.inum) (h : Cov c s mt.dev (dirId c u)) :
    vfsLookupMount s u ≠ none := by
  obtain ⟨m', hm, p, h1, h2, h3⟩ := h
  have hp := hu.point hcfg h1 h2
  refine lookupMount_of_covers hm h1 (h2.trans hu.dev.symm) ?_
  have h4 := ha.entry m' p h1 (hp.ops.trans hf)
  rw [h2, h3] at h4
  exact h4.unique hpar

omit hcfg in
theorem Vis.of_parents (hp : mpointOf s m' = some p) (hon : On c s (spot (s.vnodes p)) m mt) (hfs : mt.ops = some fs)
    (hvis : Vis c s m) (h : ∀ k, Parent c fs mt.dev (dirId c (s.vnodes p)) k → Clear c s fs mt.dev k) : Vis c s m' :=
  Vis.on hp hon.mp hon.alloc hfs h hvis

include ha in
theorem Apart.root_free (hu : On c s u m mt) (hfs : mt.ops = some fs) : ¬ Cov c s mt.dev (rootId c fs mt.dev) := by
  rintro ⟨m', -, p, h1, h2, h3⟩
  have hp := hu.point hcfg h1 h2
  exact ha.roots m' p m mt fs h1 hp.mp hp.alloc hfs h3

theorem Config.root_dirId (hm : m ∈ s.mounttable) :
    ∃ mt fs r, mt.root = some r ∧ mt.ops = some fs ∧ Tree c fs mt.dev ∧ On c s (spot (s.vnodes r)) m mt ∧
      (s.vnodes r).type = .dir ∧ (s.vnodes r).inum = rootInum fs ∧
      dirId c (s.vnodes r) = rootId c fs mt.dev := by
  obtain ⟨mt, fs, r, h1, h2, h3, h4, h5, h6, h7, h8⟩ := hcfg.root_on hm
  refine ⟨mt, fs, r, h1, h2, h3, h4, h5, h6, ?_⟩
  by_cases hf : fs = .fat32
  · subst hf
    have htree : FatTree c mt.dev := h3
    have hops : (s.vnodes r).ops = some .fat32 := h4.ops.trans h2
    rw [dirId_fat hops (h8 rfl), if_neg htree.root, rootId, if_pos rfl]
  · have hne : mt.ops ≠ some .fat32 := by simpa [h2] using hf
    rwa [← dirId_spot, h4.dirId_inode (h4.ops ▸ hne), rootId, if_neg hf]

include ha in
theorem root_pos (hm : m ∈ s.mounttable) (hvis : Vis c s m) :
    ∃ mt fs r, mt.root = some r ∧ s.mounts m = some mt ∧ Pos c s (spot (s.vnodes r)) m mt fs := by
  obtain ⟨mt, fs, r, h1, h2, h3, h4, h5, h6, h7⟩ := hcfg.root_dirId hm
  have hid : dirId c (spot (s.vnodes r)) = rootId c fs mt.dev := h7
  have hfree := ha.root_free hcfg h4 h2
  have hnone : vfsLookupMount s (spot (s.vnodes r)) = none := by
    by_contra hno
    obtain ⟨m', hm'⟩ := ne_none_iff_exists'.mp hno
    by_cases hf : fs = .fat32
    · subst hf
      obtain ⟨p, e1, e2, e3⟩ := h4.lookupMount hcfg hm'
      have htree : FatTree c mt.dev := h3
      have e4 : (s.vnodes p).inum = 0 := e3.trans h6
      have e5 : (s.vnodes p).priv = some (c.rootClus (s.vnodes p).dev) :=
        e2.fatRoot (e2.ops.trans h2) e4
      have e6 : (s.vnodes p).dev = mt.dev := e2.dev
      refine ha.roots m' p m mt .fat32 e1 e2.mp e2.alloc h2 ?_
      have e7 : (s.vnodes p).ops = some .fat32 := e2.ops.trans h2
      rw [dirId_fat e7 e5, e6, if_neg htree.root, rootId, if_pos rfl]
    · have hne : mt.ops ≠ some .fat32 := by simpa [h2] using hf
      have hcov := h4.cov_of_lookup hcfg hne hm'
      rw [hid] at hcov
      exact hfree hcov
  refine ⟨mt, fs, r, h1, h4.alloc, h4, h2, hvis, fun _ => hid ▸ Clear.root hfree, fun _ => hnone, ?_⟩
  intro m' hm'
  rw [hnone] at hm'
  cases hm'

include ha in
/-- Crossing from `u`, where nothing above is covered. -/
theorem cross_pos (hu : On c s u m mt) (hfs : mt.ops = some fs) (hvis : Vis c s m)
    (hclear : vfsLookupMount s u = none → u.type = .dir → Clear c s fs mt.dev (dirId c u))
    (hbeyond : ∀ m', vfsLookupMount s u = some m' → Vis c s m') (h : cross s u = some w) :
    ∃ m' mt' fs', Pos c s w m' mt' fs' := by
  cases hl : vfsLookupMount s u with
  | none =>
    obtain rfl : u = w := by simpa [cross, hl] using h
    refine ⟨m, mt, fs, hu, hfs, hvis, hclear hl, fun _ => hl, ?_⟩
    intro m' hm'
    rw [hl] at hm'
    cases hm'
  | some m' =>
    obtain ⟨mt', fs', r, h1, h2, h3⟩ :=
      root_pos hcfg ha (mem_tail (List.mem_of_find?_eq_some hl)) (hbeyond m' hl)
    obtain rfl : spot (s.vnodes r) = w := by simpa [cross, hl, h2, h1] using h
    exact ⟨m', mt', fs', h3⟩

/-- One lookup in an inode file system: the directory itself, its parent, or a child. -/
theorem inode_seek_cases (hv : On c s v m mt) (hfs : mt.ops = some fs) (hne : fs ≠ .fat32) (hdots : Dots c mt.dev)
    (h : seek c v name = some u)
    (hup : name = dotdot → v.inum = rootInum fs → ∀ x, c.search mt.dev v.inum dotdot = some x → x.node = v.inum) :
    dirId c u = dirId c v ∨ Parent c fs mt.dev (dirId c v) (dirId c u) ∨
      ((∀ p m', mpointOf s m' = some p → (s.vnodes p).dev = mt.dev → (s.vnodes p).inum = u.inum → u.type = .dir) ∧
        (u.type = .dir → Parent c fs mt.dev (dirId c u) (dirId c v))) := by
  have hops : v.ops = some fs := hv.ops.trans hfs
  have htree := hcfg.inodeTree hv.alloc hfs hne
  have hneo : v.ops ≠ some .fat32 := by simpa [hops] using hne
  have hu := seek_on hcfg hv h
  have hneu : u.ops ≠ some .fat32 := by
    rwa [hu.ops, ← hv.ops]
  rw [hu.dirId_inode hneu, hv.dirId_inode hneo]
  rw [hv.seek_inode hops hne, hv.dev] at h
  obtain ⟨x, hx, rfl⟩ := map_eq_some_iff.mp h
  have hroot : rootId c fs mt.dev = rootInum fs := if_neg hne
  by_cases h1 : name = dot
  · exact .inl (hdots.self v.inum x (h1 ▸ hx))
  by_cases h2 : name = dotdot
  · subst h2
    by_cases h3 : v.inum = rootInum fs
    · exact .inl (hup rfl h3 x hx)
    · refine .inr (.inl ⟨by rw [hroot]; exact h3, x, hx, ?_⟩)
      rw [if_neg (by simp [hne])]
      rfl
  · refine .inr (.inr ⟨fun p m' hp hpd hpi => ?_, fun hd => ?_⟩)
    · obtain ⟨m1, mt1, h3, -, h4, h5⟩ := hcfg.point_on hp
      obtain ⟨rfl, rfl⟩ := h3.unique hcfg hv (hpd.trans hv.dev.symm)
      have h6 : (s.vnodes p).ops ≠ some .fat32 := by
        have : (s.vnodes p).ops = v.ops := h3.ops.trans hv.ops.symm
        rwa [this]
      have h7 := h4.inode h6 v.inum name x (by rw [hpd]; exact hx) hpi.symm
      exact h7.trans h5
    · obtain ⟨y, hy, hyn, -⟩ := htree.parent v.inum name x ⟨h1, h2⟩ hx hd
      refine ⟨by rw [hroot]; exact htree.below v.inum name x ⟨h1, h2⟩ hx, y, hy, ?_⟩
      rw [if_neg (by simp [hne]), hyn]

include ha in
theorem inode_down_pos (hv : Pos c s v m mt fs) (hne : fs ≠ .fat32) (hd : v.type = .dir) (hdots : Dots c mt.dev)
    (h : seek c v name = some u)
    (hup : name = dotdot → v.inum = rootInum fs → ∀ x, c.search mt.dev v.inum dotdot = some x → x.node = v.inum)
    (hw : cross s u = some w) : ∃ m' mt' fs', Pos c s w m' mt' fs' := by
  have hu := seek_on hcfg hv.on h
  have hclear := hv.clear hd
  have hneo : mt.ops ≠ some .fat32 := by simpa [hv.ops] using hne
  refine cross_pos hcfg ha hu hv.ops hv.vis (fun hl hud => ?_) (fun m' hm' => ?_) hw
  · rcases inode_seek_cases hcfg hv.on hv.ops hne hdots h hup with h1 | h1 | ⟨-, h1⟩
    · rw [h1]
      exact hclear
    · exact hclear.up h1
    · refine Clear.of_parents (fun hc => hu.lookup_of_cov hcfg hneo hc hl) fun k hk => ?_
      rw [hk.unique (h1 hud)]
      exact hclear
  · have hcov := hu.cov_of_lookup hcfg hneo hm'
    obtain ⟨p, e1, e2, e3⟩ := hu.lookupMount hcfg hm'
    rcases inode_seek_cases hcfg hv.on hv.ops hne hdots h hup with h1 | h1 | ⟨h1, h2⟩
    · rw [h1] at hcov
      exact absurd hcov hclear.here
    · exact absurd hcov (hclear.up h1).here
    · have hpar := h2 (h1 p m' e1 e2.dev e3)
      have hid : dirId c (s.vnodes p) = dirId c u := by
        rw [hu.dirId_inode (hu.ops ▸ hneo), ← e3]
        exact e2.dirId_inode (e2.ops ▸ hneo)
      refine Vis.of_parents e1 e2 hv.ops hv.vis fun k hk => ?_
      rw [hid] at hk
      rw [hk.unique hpar]
      exact hclear

include ha in
theorem fat_down_pos (hv : Pos c s v m mt .fat32) (hd : v.type = .dir) (h : seek c v name = some u)
    (hw : cross s u = some w) : ∃ m' mt' fs', Pos c s w m' mt' fs' := by
  have hu := seek_on hcfg hv.on h
  have hclear := hv.clear hd
  have hops : v.ops = some .fat32 := hv.on.ops.trans hv.ops
  have htree := hcfg.fatTree hv.on.alloc hv.ops
  obtain ⟨clus, hclus⟩ := isSome_iff_exists.mp hv.on.filled.2.1
  have hseek := h
  simp only [seek, hops, hclus] at h
  split at h
  · obtain rfl : v = u := by simpa [hv.on.norm] using h
    exact cross_pos hcfg ha hv.on hv.ops hv.vis (fun _ => hv.clear) hv.beyond hw
  case isFalse hself =>
    obtain ⟨x, hx, rfl⟩ := map_eq_some_iff.mp h
    rw [hv.on.dev] at hx hself
    have h0 : clus ≠ 0 := by
      rintro rfl
      rw [htree.zero] at hx
      cases hx
    have hid : dirId c v = clus := by rw [dirId_fat hops hclus, if_neg h0]
    have hidu : dirId c (found .fat32 v x clus) =
        if x.node = 0 then c.rootClus mt.dev else x.node := by
      rw [dirId_fat rfl rfl]
      simp only [found, spot, vnodeOf, hv.on.dev]
    rw [hid] at hclear
    refine cross_pos hcfg ha hu hv.ops hv.vis (fun hl hud => ?_) (fun m' hm' => ?_) hw
    · by_cases h2 : name = dotdot
      · subst h2
        refine hclear.up ⟨fun he => hself (.inr ⟨rfl, by simpa [rootId] using he⟩), x, hx, ?_⟩
        simpa using hidu
      · have hord : Ordinary name := ⟨fun h1 => hself (.inl h1), h2⟩
        obtain ⟨hn0, hnr, y, hy, -, hyn⟩ := htree.parent clus name x hord hx hud
        rw [if_neg hn0] at hidu
        have hpar : Parent c .fat32 mt.dev x.node clus :=
          ⟨by simpa [rootId] using hnr, y, hy, by simpa using hyn.symm⟩
        refine Clear.of_parents (fun hc => hu.lookup_of_cov_fat hcfg ha hv.ops ?_ hc hl) fun k hk => ?_
        · rw [hidu]
          exact hpar
        · rw [hidu] at hk
          rw [hk.unique hpar]
          exact hclear
    · obtain ⟨p, e1, e2, e3⟩ := hu.lookupMount hcfg hm'
      refine Vis.of_parents e1 e2 hv.ops hv.vis fun k hk => ?_
      have e4 := ha.entry m' p e1 (e2.ops.trans hv.ops)
      have e5 : (s.vnodes p).dev = mt.dev := e2.dev
      have e6 : (s.vnodes p).inum = clus := e3
      rw [e5, e6] at e4
      rw [hk.unique e4]
      exact hclear

include ha in
/-- ".." out of a mounted file system: the parent of its mountpoint. -/
theorem up_pos (hvis : Vis c s m) (hp : mpointOf s m = some p) (h : seek c (s.vnodes p) dotdot = some w) :
    ∃ m' mt' fs', Pos c s w m' mt' fs' := by
  cases hvis with
  | first hfirst =>
    obtain ⟨m0, ms, mt0, h1, h2, -, h4⟩ := hcfg.first
    obtain rfl : m0 = m := by simpa [h1] using hfirst
    simp [mpointOf, h2, h4] at hp
  | on hp' hmp hm' hfs hclear hvis' =>
    rename_i p' m' mt' fs
    cases hp.symm.trans hp'
    obtain ⟨m1, mt1, hon, -⟩ := hcfg.point_on hp
    obtain rfl : m1 = m' := some.inj (hon.mp.symm.trans hmp)
    obtain rfl : mt1 = mt' := some.inj (hon.alloc.symm.trans hm')
    have hw := seek_on hcfg hon h
    have hne := ha.roots m p m1 mt1 fs hp hmp hm' hfs
    suffices hstep : Clear c s fs mt1.dev (dirId c w) ∧ vfsLookupMount s w = none by
      refine ⟨m1, mt1, fs, hw, hfs, hvis', fun _ => hstep.1, fun _ => hstep.2, fun m2 h2 => ?_⟩
      rw [hstep.2] at h2
      cases h2
    by_cases hf : fs = .fat32
    · subst hf
      have hops : (s.vnodes p).ops = some .fat32 := hon.ops.trans hfs
      have hpd : (s.vnodes p).dev = mt1.dev := hon.dev
      obtain ⟨clus, hclus⟩ := isSome_iff_exists.mp hon.filled.2.1
      have hclus' : (s.vnodes p).priv = some clus := hclus
      rw [rootId, if_pos rfl, dirId_fat hops hclus', hpd] at hne
      have h0 : clus ≠ 0 := fun he => hne (if_pos he)
      rw [if_neg h0] at hne
      rw [← seek_spot, hon.seek_fat hfs hclus, if_neg hne] at h
      obtain ⟨x, hx, rfl⟩ := map_eq_some_iff.mp h
      have hid : dirId c (s.vnodes p) = clus := by rw [dirId_fat hops hclus', if_neg h0]
      constructor
      · refine hclear _ ⟨by rw [hid]; simpa [rootId] using hne, x, by rw [hid]; exact hx, ?_⟩
        rw [dirId_fat rfl rfl]
        simp [found, spot, vnodeOf, hpd]
      · by_contra hno
        obtain ⟨m2, hm2⟩ := ne_none_iff_exists'.mp hno
        obtain ⟨p2, e1, e2, e3⟩ := hw.lookupMount hcfg hm2
        have e4 : (s.vnodes p2).dev = mt1.dev := e2.dev
        exact ha.nest m p m2 p2 hp e1 hops (e4.trans hpd.symm) (hid ▸ e3)
    · have hneo : mt1.ops ≠ some .fat32 := by simpa [hfs] using hf
      have hpi : dirId c (s.vnodes p) = (s.vnodes p).inum := hon.dirId_inode (hon.ops ▸ hneo)
      rw [← seek_spot, hon.seek_inode (hon.ops.trans hfs) hf, hon.dev] at h
      obtain ⟨x, hx, rfl⟩ := map_eq_some_iff.mp h
      have hclearx : Clear c s fs mt1.dev (dirId c (found fs (spot (s.vnodes p)) x x.node)) := by
        refine hclear _ ⟨hne, x, by rw [hpi]; exact hx, ?_⟩
        rw [if_neg (by simp [hf]), hw.dirId_inode (hw.ops ▸ hneo)]
        rfl
      refine ⟨hclearx, ?_⟩
      by_contra hno
      obtain ⟨m2, hm2⟩ := ne_none_iff_exists'.mp hno
      exact hclearx.here (hw.cov_of_lookup hcfg hneo hm2)

include ha in
/-- One step of a walk stays in sight of the root. -/
theorem hop_pos (hdots : ∀ m mt, s.mounts m = some mt → mt.ops ≠ some .fat32 → Dots c mt.dev) (hv : Pos c s v m mt fs)
    (h : hop c s v name = some w) : ∃ m' mt' fs', Pos c s w m' mt' fs' := by
  have hdown : ∀ u, v.type = .dir → seek c v name = some u → cross s u = some w →
      (name = dotdot → crossUp s v = some none) → ∃ m' mt' fs', Pos c s w m' mt' fs' := by
    intro u hd hu hw hcross
    by_cases hf : fs = .fat32
    · subst hf
      exact fat_down_pos hcfg ha hv hd hu hw
    · have hneo : mt.ops ≠ some .fat32 := by simpa [hv.ops] using hf
      refine inode_down_pos hcfg ha hv hf hd (hdots m mt hv.on.alloc hneo) hu (fun hn hr x hx => ?_) hw
      obtain ⟨y, hy, hyn, -⟩ := (hcfg.inodeTree hv.on.alloc hv.ops hf).top
      rw [hr] at hx
      rw [some.inj (hx.symm.trans hy), hyn, hr]
  unfold hop at h
  by_cases hn : name = dotdot
  · rw [if_pos hn] at h
    by_cases hd : v.type ≠ .dir
    · simp [hd] at h
    rw [if_neg hd] at h
    cases hc : crossUp s v with
    | none => simp [hc] at h
    | some o =>
      rw [hc] at h
      cases o with
      | none =>
        obtain ⟨u, hu, hw⟩ := bind_eq_some_iff.mp h
        exact hdown u (not_not.mp hd) hu hw fun _ => hc
      | some p =>
        obtain ⟨m', h1, h2⟩ := crossUp_some hc
        obtain rfl : m = m' := some.inj (hv.on.mp.symm.trans h1)
        exact up_pos hcfg ha hv.vis h2 h
  · rw [if_neg hn] at h
    obtain ⟨hd, u, h1, -, h3⟩ := descend_on hcfg hv.on h
    exact hdown u hd h1 h3 fun he => absurd he hn

include ha in
theorem trek_pos (hdots : ∀ m mt, s.mounts m = some mt → mt.ops ≠ some .fat32 → Dots c mt.dev) (names : List Name)
    (hv : Pos c s v m mt fs) (h : trek c s v names = some w) : ∃ m' mt' fs', Pos c s w m' mt' fs' := by
  induction names generalizing v m mt fs with
  | nil =>
    cases h
    exact ⟨m, mt, fs, hv⟩
  | cons name names ih =>
    obtain ⟨u, h1, h2⟩ := bind_eq_some_iff.mp h
    obtain ⟨m', mt', fs', hu⟩ := hop_pos hcfg ha hdots hv h1
    exact ih hu h2

/-- What a walk in sight of the root has reached is not covered. -/
theorem Pos.not_mountedOn (hv : Pos c s v m mt fs) : ¬ MountedOn c s m' v := by
  rintro ⟨hm', p, hp, hsame⟩
  have hpd : (s.vnodes p).dev = mt.dev := hsame.1.trans hv.on.dev
  have hon := hv.on.point hcfg hp hpd
  obtain ⟨-, -, -, -, -, hpt⟩ := hcfg.point_on hp
  have hsame' : SameObject c (spot (s.vnodes p)) v := ⟨hsame.1, hsame.2.1, (object_spot hpt).trans hsame.2.2⟩
  by_cases hd : v.type = .dir
  · have hid : dirId c (spot (s.vnodes p)) = dirId c v := sameObject_dirId hon hv.on hpt hd hsame'
    exact (hv.clear hd).here ⟨m', hm', p, hp, hpd, hid⟩
  · have hnone := hv.file hd
    by_cases hf : v.ops = some .fat32
    · have h1 := hsame.2.2
      obtain ⟨n, hn⟩ := isSome_iff_exists.mp hv.on.filled.2.1
      obtain ⟨n', hn'⟩ := isSome_iff_exists.mp hon.filled.2.1
      have hn'' : (s.vnodes p).priv = some n' := hn'
      have hpf : (s.vnodes p).ops = some .fat32 := hsame.2.1.trans hf
      simp [object, hf, hn, hd, hpf, hn'', hpt] at h1
    · have hi : (spot (s.vnodes p)).inum = v.inum := SameObject.inode hon hv.on hf hsame'
      exact lookupMount_of_covers hm' hp hsame.1 hi hnone

end Steps

end Xv6Vfs.Vfs
