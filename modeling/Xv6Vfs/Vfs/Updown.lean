import Xv6Vfs.Vfs.NameiSim

/-! Single steps up and down in a mount configuration: which spot a step arrives at, and on
which mount it lies. -/
namespace Xv6Vfs.Vfs
open Option

variable {p : Nat} {name : Name}

variable {fs : FsType} {m : Nat} {mt : Mount} {v w : Vnode}

/-- A spot of mount `m`. -/
structure On (c : Content) (s : State) (v : Vnode) (m : Nat) (mt : Mount) : Prop where
  alloc : s.mounts m = some mt
  mp : v.mp = some m
  dev : v.dev = mt.dev
  ops : v.ops = mt.ops
  filled : Filled v
  fatRoot : v.ops = some .fat32 → v.inum = 0 → v.priv = some (c.rootClus v.dev)
  norm : spot v = v

def rootInum : FsType → Nat
  | .xv6fs => 1
  | .ext2 => 2
  | .fat32 => 0

section Steps

variable {c : Content} {s : State}

theorem spot_ext (hv : spot v = v) (hw : spot w = w) (h1 : v.type = w.type) (h2 : v.dev = w.dev) (h3 : v.ops = w.ops)
    (h4 : v.mp = w.mp) (h5 : v.inum = w.inum) (h6 : v.priv = w.priv) : v = w := by
  rw [← hv, ← hw]
  simp only [spot, h1, h2, h3, h4, h5, h6]

section

variable (hcfg : Config c s)
include hcfg

theorem On.unique {m' : Nat} {mt' : Mount} (hv : On c s v m mt) (hw : On c s w m' mt')
    (hdev : v.dev = w.dev) : m = m' ∧ mt = mt' := by
  obtain rfl := hcfg.devs m m' mt mt' hv.alloc hw.alloc (hv.dev.symm.trans (hdev.trans hw.dev))
  exact ⟨rfl, some.inj (hv.alloc.symm.trans hw.alloc)⟩

omit hcfg in
theorem Genuine.on (h : Genuine c s m v) (hmp : v.mp = some m) : ∃ mt, On c s (spot v) m mt := by
  obtain ⟨mt, h1, h2, h3⟩ := h.mount
  exact ⟨mt, h1, hmp, h2, h3, h.filled, h.fatRoot, rfl⟩

theorem Config.root_on (hm : m ∈ s.mounttable) : ∃ mt fs r, mt.root = some r ∧ mt.ops = some fs ∧ Tree c fs mt.dev ∧
      On c s (spot (s.vnodes r)) m mt ∧ (s.vnodes r).type = .dir ∧
      (s.vnodes r).inum = rootInum fs ∧ (s.vnodes r).dev = mt.dev ∧
      (fs = .fat32 → (s.vnodes r).priv = some (c.rootClus mt.dev)) := by
  obtain ⟨mt, fs, r, h1, h2, h3, h4, h5, h6⟩ := hcfg.mounted m hm
  have hmp : (spot (s.vnodes r)).mp = some m := by
    rw [h6]
    rfl
  obtain ⟨mt', hon⟩ := (hcfg.genuine r h5 m hm hmp).on hmp
  obtain rfl : mt = mt' := some.inj (h1.symm.trans hon.alloc)
  have htype : (spot (s.vnodes r)).type = .dir := by
    rw [h6]
    simp [spot, rootVnode]
  have hinum : (spot (s.vnodes r)).inum = rootInum fs := by
    rw [h6]
    cases fs <;> rfl
  refine ⟨mt, fs, r, h4, h2, h3, hon, htype, hinum, hon.dev, fun hf => ?_⟩
  have hpriv : (spot (s.vnodes r)).priv = some (c.rootClus mt.dev) := by
    rw [h6, hf]
    rfl
  exact hpriv

theorem Config.tree (hm : s.mounts m = some mt) (hfs : mt.ops = some fs) : Tree c fs mt.dev := by
  obtain ⟨mt', fs', r, h1, h2, h3, -⟩ := hcfg.mounted m (hcfg.only m (by simp [hm]))
  obtain rfl : mt = mt' := some.inj (hm.symm.trans h1)
  obtain rfl : fs = fs' := some.inj (hfs.symm.trans h2)
  exact h3

theorem Config.inodeTree (hm : s.mounts m = some mt) (hfs : mt.ops = some fs) (hne : fs ≠ .fat32) :
    InodeTree c mt.dev (rootInum fs) := by
  have h := hcfg.tree hm hfs
  cases fs with
  | xv6fs => exact h
  | ext2 => exact h
  | fat32 => exact absurd rfl hne

theorem Config.fatTree (hm : s.mounts m = some mt) (hfs : mt.ops = some .fat32) : FatTree c mt.dev :=
  hcfg.tree hm hfs

theorem Config.point_on (hp : mpointOf s m = some p) :
    ∃ m' mt', On c s (spot (s.vnodes p)) m' mt' ∧ s.mounttable.idxOf m' < s.mounttable.idxOf m ∧
      Genuine c s m' (s.vnodes p) ∧ (s.vnodes p).type = .dir := by
  obtain ⟨h1, h2, ⟨m', hm', hmp, hlt⟩, -⟩ := hcfg.points m p hp
  have hg := hcfg.genuine p h1 m' hm' hmp
  obtain ⟨mt', hon⟩ := hg.on hmp
  exact ⟨m', mt', hon, hlt, hg, h2⟩

omit hcfg in
theorem lookupMount_some (h : vfsLookupMount s v = some m) :
    m ∈ s.mounttable ∧ ∃ p, mpointOf s m = some p ∧ (s.vnodes p).dev = v.dev ∧
      (s.vnodes p).inum = v.inum :=
  ⟨mem_tail (List.mem_of_find?_eq_some h), covers_iff.mp (List.find?_some h)⟩

theorem seek_on (hv : On c s v m mt) (h : seek c v name = some w) : On c s w m mt := by
  have hinode : ∀ (fs : FsType) (x : Hit), v.ops = some fs → fs ≠ .fat32 →
      On c s (found fs v x x.node) m mt := by
    intro fs x hops hfs
    refine ⟨hv.alloc, hv.mp, hv.dev, hops.symm.trans hv.ops,
      vnodeOf_filled hv.filled x _ 0 fun _ => rfl, fun hf => ?_, rfl⟩
    exact absurd (some.inj hf) hfs
  unfold seek at h
  split at h
  case h_1 hops _ =>
    obtain ⟨x, -, rfl⟩ := map_eq_some_iff.mp h
    exact hinode .xv6fs x hops (by simp)
  case h_2 hops _ =>
    obtain ⟨x, -, rfl⟩ := map_eq_some_iff.mp h
    exact hinode .ext2 x hops (by simp)
  case h_3 clus hops hpriv =>
    split at h
    · cases h
      rwa [hv.norm]
    · obtain ⟨x, hx, rfl⟩ := map_eq_some_iff.mp h
      refine ⟨hv.alloc, hv.mp, hv.dev, hops.symm.trans hv.ops,
        vnodeOf_filled hv.filled x _ 0 fun hn => absurd rfl hn, fun _ h0 => ?_, rfl⟩
      have h0' : clus = 0 := h0
      rw [h0', hv.dev, (hcfg.fatTree hv.alloc (hv.ops.symm.trans hops)).zero name] at hx
      simp at hx
  case h_4 => simp at h

/-- Crossing stays, or goes to the root of the mount found. -/
theorem cross_cases (h : cross s v = some w) : (vfsLookupMount s v = none ∧ w = v) ∨
      ∃ m mt fs r p m' mt', vfsLookupMount s v = some m ∧ w = spot (s.vnodes r) ∧
        On c s w m mt ∧ mt.ops = some fs ∧ w.type = .dir ∧ w.inum = rootInum fs ∧
        (fs = .fat32 → w.priv = some (c.rootClus mt.dev)) ∧
        mpointOf s m = some p ∧ (s.vnodes p).dev = v.dev ∧ (s.vnodes p).inum = v.inum ∧
        On c s (spot (s.vnodes p)) m' mt' ∧ s.mounttable.idxOf m' < s.mounttable.idxOf m := by
  unfold cross at h
  split at h
  case h_1 hm => exact .inl ⟨hm, (some.inj h).symm⟩
  case h_2 m hm =>
    obtain ⟨hmem, p, h1, h2, h3⟩ := lookupMount_some hm
    obtain ⟨mt, fs, r, h4, h5, h6, h7, h8, h9, h10, h11⟩ := hcfg.root_on hmem
    obtain ⟨m', mt', h12, h13, -⟩ := hcfg.point_on h1
    have hr : (s.mounts m).bind Mount.root = some r := by
      simp [h7.alloc, h4]
    rw [hr] at h
    cases h
    exact .inr ⟨m, mt, fs, r, p, m', mt', hm, rfl, h7, h5, h8, h9, h11, h1, h2, h3, h12, h13⟩

theorem cross_on (hv : On c s v m mt) (h : cross s v = some w) : ∃ m' mt', On c s w m' mt' := by
  rcases cross_cases hcfg h with ⟨-, rfl⟩ | ⟨m', mt', -, -, -, -, -, -, -, h1, -⟩
  · exact ⟨m, mt, hv⟩
  · exact ⟨m', mt', h1⟩

theorem On.crossUp (hv : On c s v m mt) (hfs : mt.ops = some fs) :
    Vfs.crossUp s v = some (if v.inum = rootInum fs then mt.mountpoint else none) := by
  obtain ⟨mt', fs', r, h1, h2, -, h4, -, h6, h7, -⟩ :=
    hcfg.root_on (hcfg.only m (by simp [hv.alloc]))
  obtain rfl : mt = mt' := some.inj (hv.alloc.symm.trans h4.alloc)
  obtain rfl : fs = fs' := some.inj (hfs.symm.trans h2)
  have hdev : v.dev = (s.vnodes r).dev := hv.dev.trans h7.symm
  simp only [Vfs.crossUp, hv.mp, hv.alloc, h1]
  cases mt.mountpoint with
  | none => simp
  | some p =>
    simp only [hdev, h6, true_and]
    split <;> rfl

theorem descend_on (hv : On c s v m mt) (h : descend c s v name = some w) :
    v.type = .dir ∧ ∃ u, seek c v name = some u ∧ On c s u m mt ∧ cross s u = some w := by
  unfold descend at h
  split at h
  · simp at h
  case isFalse hd =>
    obtain ⟨u, h1, h2⟩ := bind_eq_some_iff.mp h
    exact ⟨not_not.mp hd, u, h1, seek_on hcfg hv h1, h2⟩

theorem hop_on (hv : On c s v m mt) (h : hop c s v dotdot = some w) : ∃ m' mt', On c s w m' mt' := by
  unfold hop at h
  rw [if_pos rfl] at h
  split at h
  · simp at h
  split at h
  · simp at h
  · obtain ⟨u, h1, h2⟩ := bind_eq_some_iff.mp h
    exact cross_on hcfg (seek_on hcfg hv h1) h2
  case h_3 p hp =>
    obtain ⟨m', -, hpt⟩ := crossUp_some hp
    obtain ⟨m1, mt1, h1, -⟩ := hcfg.point_on hpt
    rw [← seek_spot] at h
    exact ⟨m1, mt1, seek_on hcfg h1 h⟩

omit hcfg in
theorem On.seek_inode (hv : On c s v m mt) (hops : v.ops = some fs) (hfs : fs ≠ .fat32) (name : Name) :
    seek c v name = (c.search v.dev v.inum name).map fun h => found fs v h h.node := by
  have hpriv : v.priv = some v.inum := hv.filled.2.2.2 (by rw [hops]; simpa using hfs)
  cases fs with
  | xv6fs => simp [seek, hops, hpriv]
  | ext2 => simp [seek, hops, hpriv]
  | fat32 => exact absurd rfl hfs

/-- Going up from a directory in the middle of an inode file system. -/
theorem hop_inside (hv : On c s v m mt) (hw : On c s w m mt) (hops : mt.ops = some fs)
    (hfs : fs ≠ .fat32) (hvd : v.type = .dir) (hwd : w.type = .dir)
    (hne : w.inum ≠ rootInum fs ∨ mt.mountpoint = none) {x : Hit} (hx : c.search mt.dev w.inum dotdot = some x)
    (hxn : x.node = v.inum) (hxd : x.type = .dir) : hop c s w dotdot = cross s v := by
  have hup : crossUp s w = some none := by
    rw [hw.crossUp hcfg hops]
    rcases hne with hne | hne
    · rw [if_neg hne]
    · rw [hne, ite_self]
  have hpv : v.priv = some v.inum :=
    hv.filled.2.2.2 (by rw [hv.ops, hops]; simpa using hfs)
  have hseek : seek c w dotdot = some v := by
    rw [hw.seek_inode (hw.ops.trans hops) hfs, hw.dev, hx, map_some]
    congr 1
    refine spot_ext rfl hv.norm (hxd.trans hvd.symm) (hw.dev.trans hv.dev.symm) ?_
      (hw.mp.trans hv.mp.symm) hxn ?_
    · exact hops.symm.trans hv.ops.symm
    · rw [hpv, ← hxn]
      rfl
  unfold hop
  rw [if_pos rfl, if_neg (by simp [hwd]), hup]
  simp only [hseek, bind_some]

theorem hop_out (hw : On c s w m mt) (hops : mt.ops = some fs) (hwd : w.type = .dir)
    (hroot : w.inum = rootInum fs) (hp : mpointOf s m = some p) : hop c s w dotdot = seek c (s.vnodes p) dotdot := by
  have hmp : mt.mountpoint = some p := by
    simpa [mpointOf, hw.alloc] using hp
  unfold hop
  rw [if_pos rfl, if_neg (by simp [hwd]), hw.crossUp hcfg hops, if_pos hroot, hmp]

end

end Steps

end Xv6Vfs.Vfs
