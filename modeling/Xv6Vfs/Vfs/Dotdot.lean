import Xv6Vfs.Vfs.Updown

/-! The dot-dot law: appending "/.." drops the last component. It holds along a path exactly if
no directory passed through is a FAT32 one, and none is covered by a further mount while the
path goes on inside it. -/
namespace Xv6Vfs.Vfs
open List

variable {m' ma mw : Nat} {names : List Name} {mt' mta mtw : Mount}

variable {m m0 : Nat} {mt mt0 : Mount} {name : Name} {v v0 w w0 w1 : Vnode}

/-- No directory on the way from `v` belongs to FAT32, and none that the way leaves inside its
own file system is a mountpoint. -/
def PlainWay (c : Content) (s : State) : Vnode → List Name → Prop
  | _, [] => True
  | v, name :: names => v.ops ≠ some .fat32 ∧
      ∀ w, descend c s v name = some w →
        (w.mp = v.mp → vfsLookupMount s v = none) ∧ PlainWay c s w names

section Law

variable {c : Content} {s : State}

theorem place_append (names : List Name) (name : Name) :
    place c s v (names ++ [name]) = (place c s v names).bind fun w => descend c s w name := by
  induction names generalizing v with
  | nil =>
    simp only [nil_append, place, Option.bind_some]
    cases descend c s v name <;> rfl
  | cons x names ih =>
    simp only [cons_append, place]
    cases descend c s v x with
    | none => rfl
    | some w => exact ih

theorem plainWay_append (names : List Name) (name : Name) : PlainWay c s v (names ++ [name]) ↔ PlainWay c s v names ∧
      ∀ u, place c s v names = some u → PlainWay c s u [name] := by
  induction names generalizing v with
  | nil => simp [place, PlainWay]
  | cons x names ih =>
    simp only [cons_append, PlainWay, place]
    constructor
    · rintro ⟨h1, h2⟩
      refine ⟨⟨h1, fun w hw => ⟨(h2 w hw).1, (ih.mp (h2 w hw).2).1⟩⟩, fun u hu => ?_⟩
      obtain ⟨w, hw, hu⟩ := Option.bind_eq_some_iff.mp hu
      exact (ih.mp (h2 w hw).2).2 u hu
    · rintro ⟨⟨h1, h2⟩, h3⟩
      refine ⟨h1, fun w hw => ⟨(h2 w hw).1, ih.mpr ⟨(h2 w hw).2, fun u hu => h3 u ?_⟩⟩⟩
      rwa [hw]

theorem place_on (hcfg : Config c s) (hv : On c s v m mt) (names : List Name) (h : place c s v names = some w) :
    ∃ m' mt', On c s w m' mt' := by
  induction names generalizing v m mt with
  | nil =>
    cases h
    exact ⟨m, mt, hv⟩
  | cons x names ih =>
    obtain ⟨u, h1, h2⟩ := Option.bind_eq_some_iff.mp h
    obtain ⟨-, t, h3, h4, h5⟩ := descend_on hcfg hv h1
    obtain ⟨m', mt', h6⟩ := cross_on hcfg h4 h5
    exact ih h6 h2

theorem SameObject.inode (hv : On c s v m mt) (hw : On c s w m' mt') (hne : w.ops ≠ some .fat32)
    (h : SameObject c v w) : v.inum = w.inum :=
  (sameObject_iff c hv.filled hw.filled h.1 h.2.1 (h.2.1 ▸ hne)).mp h

theorem On.descend_inode (hv : On c s v m mt) (hcfg : Config c s) (hne : v.ops ≠ some .fat32)
    (h : descend c s v name = some w) : v.type = .dir ∧ ∃ fs x, mt.ops = some fs ∧ fs ≠ .fat32 ∧
      InodeTree c mt.dev (rootInum fs) ∧ c.search mt.dev v.inum name = some x ∧
      On c s (found fs v x x.node) m mt ∧ cross s (found fs v x x.node) = some w := by
  obtain ⟨hvd, u, hseek, hu, hcross⟩ := descend_on hcfg hv h
  obtain ⟨fs, hfs⟩ : ∃ fs, mt.ops = some fs := by
    obtain ⟨-, -, h3, -⟩ := hv.filled
    rw [hv.ops] at h3
    exact Option.isSome_iff_exists.mp h3
  have hfsne : fs ≠ .fat32 := by
    rintro rfl
    exact hne (hv.ops.trans hfs)
  rw [hv.seek_inode (hv.ops.trans hfs) hfsne, hv.dev] at hseek
  obtain ⟨x, hx, rfl⟩ := Option.map_eq_some_iff.mp hseek
  exact ⟨hvd, fs, x, hfs, hfsne, hcfg.inodeTree hv.alloc hfs hfsne, hx, hu, hcross⟩

theorem On.cross_stays (hv : On c s v m mt) (hcfg : Config c s) (h : cross s v = some w) (hdev : w.dev = v.dev) :
    vfsLookupMount s v = none ∧ w = v := by
  rcases cross_cases hcfg h with ⟨hnone, rfl⟩ |
    ⟨m2, mt2, -, -, p, m3, mt3, -, -, hon2, -, -, -, -, -, hpd, -, hon3, hlt⟩
  · exact ⟨hnone, rfl⟩
  · obtain ⟨rfl, rfl⟩ := hon2.unique hcfg hv hdev
    obtain ⟨rfl, rfl⟩ := hon3.unique hcfg hv hpd
    omega

section

variable (hcfg : Config c s)
include hcfg

/-- A step down by an ordinary name and back up, in an inode file system. -/
theorem up_down (hv : On c s v m mt) (hne : v.ops ≠ some .fat32) (hord : Ordinary name)
    (h : descend c s v name = some w) (hwd : w.type = .dir) (hfree : w.mp = v.mp → vfsLookupMount s v = none) :
    hop c s w dotdot = some v := by
  obtain ⟨hvd, fs, x, hfs, hfsne, htree, hx, hu, hcross⟩ := hv.descend_inode hcfg hne h
  rcases cross_cases hcfg hcross with ⟨hnone, rfl⟩ |
    ⟨m2, mt2, fs2, r2, p, m3, mt3, hm2, hw2, hon2, hops2, htype2, hinum2, -, hp, hpd, hpi, hon3, -⟩
  · obtain ⟨y, hy, hyn, hyd⟩ := htree.parent v.inum name x hord hx hwd
    rw [hop_inside hcfg hv hu hfs hfsne hvd hwd (.inl (htree.below v.inum name x hord hx)) hy hyn hyd, cross, hfree rfl]
  · obtain ⟨rfl, rfl⟩ := hu.unique hcfg hon3 hpd.symm
    obtain ⟨m4, mt4, hon4, -, hgen, hpt⟩ := hcfg.point_on hp
    have hpops : (s.vnodes p).ops = some fs := hon3.ops.trans hfs
    have hxd : x.type = .dir := by
      have hm4 : m4 = m := Option.some.inj (hon4.mp.symm.trans hon3.mp)
      subst hm4
      have hxi : x.node = (s.vnodes p).inum := hpi.symm
      rw [hgen.inode (by rw [hpops]; simpa using hfsne) v.inum name x
        ((congrArg (fun d => c.search d v.inum name) hon3.dev).trans hx) hxi]
      exact hpt
    obtain ⟨y, hy, hyn, hyd⟩ := htree.parent v.inum name x hord hx hxd
    rw [hop_out hcfg hon2 hops2 htype2 hinum2 hp, ← seek_spot, hon3.seek_inode hpops hfsne]
    have hpin : (spot (s.vnodes p)).inum = x.node := hpi
    rw [hon3.dev, hpin, hy, Option.map_some]
    have hpv : v.priv = some v.inum := hv.filled.2.2.2 hne
    congr 1
    refine spot_ext rfl hv.norm (hyd.trans hvd.symm) (hon3.dev.trans hv.dev.symm)
      (hfs.symm.trans hv.ops.symm) (hon3.mp.trans hv.mp.symm) hyn ?_
    rw [hpv, ← hyn]
    rfl

/-- The root of everything: `v0` is the root of the first mount. -/
structure Top (c : Content) (s : State) (v0 : Vnode) (m0 : Nat) (mt0 : Mount) : Prop where
  on : On c s v0 m0 mt0
  ops : mt0.ops = some .xv6fs
  free : mt0.mountpoint = none
  dir : v0.type = .dir
  inum : v0.inum = 1

theorem hop_top (h0 : Top c s v0 m0 mt0) (hw : On c s w m0 mt0) (hwd : w.type = .dir)
    (hwi : w.inum = 1) : hop c s w dotdot = cross s v0 := by
  obtain ⟨y, hy, hyn, hyd⟩ := (hcfg.inodeTree h0.on.alloc h0.ops (by simp)).top
  exact hop_inside hcfg h0.on hw h0.ops (by simp) h0.dir hwd (.inr h0.free)
    (by rw [hwi]; exact hy) (hyn.trans h0.inum.symm) hyd

/-- Along a plain way each ".." drops the last name, and the root stays. -/
theorem trek_ups (h0 : Top c s v0 m0 mt0) (hroot : vfsLookupMount s v0 = none) (names : List Name)
    (hord : ∀ n ∈ names, Ordinary n) (hplain : PlainWay c s v0 names) (hw : place c s v0 names = some w)
    (hwd : w.type = .dir) (k : Nat) :
    trek c s w (List.replicate k dotdot) = place c s v0 (names.take (names.length - k)) := by
  induction names using List.reverseRecOn generalizing w k with
  | nil =>
    cases hw
    induction k with
    | zero => rfl
    | succ k ih =>
      have h1 : hop c s v0 dotdot = some v0 := by
        rw [hop_top hcfg h0 h0.on h0.dir h0.inum, cross, hroot]
      rw [replicate_succ, trek, h1, Option.bind_some]
      simpa using ih
  | append_singleton names name ih =>
    rw [place_append] at hw
    obtain ⟨v, hv, hdesc⟩ := Option.bind_eq_some_iff.mp hw
    obtain ⟨hp1, hp2⟩ := (plainWay_append names name).mp hplain
    obtain ⟨hne, hfree⟩ := hp2 v hv
    obtain ⟨m, mt, hon⟩ := place_on hcfg h0.on names hv
    cases k with
    | zero =>
      simp only [replicate_zero, trek, Nat.sub_zero, take_length, place_append, hv, Option.bind_some, hdesc]
    | succ k =>
      have hup := up_down hcfg hon hne (hord name (by simp)) hdesc hwd (hfree w hdesc).1
      have htake : (names ++ [name]).take ((names ++ [name]).length - (k + 1)) =
          names.take (names.length - k) := by
        rw [length_append, length_singleton, Nat.add_sub_add_right, take_append_of_le_length (by omega)]
      rw [replicate_succ, trek, hup, Option.bind_some, htake]
      exact ih (fun n hn => hord n (mem_append_left _ hn)) hp1 hv (descend_on hcfg hon hdesc).1 k

omit hcfg in
theorem hop_dir (h : hop c s v dotdot = some w) : v.type = .dir := by
  unfold hop at h
  rw [if_pos rfl] at h
  split at h
  · simp at h
  case isFalse hd => exact not_not.mp hd

theorem top_free (h0 : Top c s v0 m0 mt0) (hw : On c s w m mt) (hsame : SameObject c w v0)
    (hhop : hop c s w dotdot = some w1) (hsame1 : SameObject c w1 v0) : vfsLookupMount s v0 = none := by
  obtain ⟨rfl, rfl⟩ := hw.unique hcfg h0.on hsame.1
  have hne : v0.ops ≠ some .fat32 := by
    rw [h0.on.ops, h0.ops]
    simp
  have hwi : w.inum = 1 := (hsame.inode hw h0.on hne).trans h0.inum
  rw [hop_top hcfg h0 hw (hop_dir hhop) hwi] at hhop
  exact (h0.on.cross_stays hcfg hhop hsame1.1).1

/-- If going down and up inside an inode file system comes back, nothing is mounted on the
directory in between. -/
theorem inside_free (hv : On c s v m mt) (hne : v.ops ≠ some .fat32) (hord : Ordinary name)
    (h : descend c s v name = some w0) (hwd0 : w0.type = .dir) (hmp : w0.mp = v.mp) (hw : On c s w m' mt')
    (hsame : SameObject c w w0) (hhop : hop c s w dotdot = some w1) (hsame1 : SameObject c w1 v) :
    vfsLookupMount s v = none := by
  obtain ⟨hvd, fs, x, hfs, hfsne, htree, hx, hu, hcross⟩ := hv.descend_inode hcfg hne h
  rcases cross_cases hcfg hcross with ⟨-, rfl⟩ |
    ⟨m2, mt2, -, -, p, m3, mt3, -, -, hon2, -, -, -, -, -, hpd, -, hon3, hlt⟩
  · obtain ⟨rfl, rfl⟩ := hw.unique hcfg hu hsame.1
    have hwi : w.inum = x.node := hsame.inode hw hu (by rw [hu.ops, hfs]; simpa using hfsne)
    obtain ⟨y, hy, hyn, hyd⟩ := htree.parent v.inum name x hord hx hwd0
    have hbelow := htree.below v.inum name x hord hx
    rw [← hwi] at hy hbelow
    rw [hop_inside hcfg hv hw hfs hfsne hvd (hop_dir hhop) (.inl hbelow) hy hyn hyd] at hhop
    exact (hv.cross_stays hcfg hhop hsame1.1).1
  · obtain ⟨rfl, rfl⟩ := hon3.unique hcfg hu hpd
    obtain rfl : m2 = m3 := Option.some.inj (hon2.mp.symm.trans (hmp.trans hv.mp))
    omega

omit hcfg in
theorem On.seek_fat (hv : On c s v m mt) (hops : mt.ops = some .fat32) {clus : Nat} (hp : v.priv = some clus) :
    seek c v dotdot = if clus = c.rootClus mt.dev then some v
      else (c.search mt.dev clus dotdot).map fun h => found .fat32 v h clus := by
  have h1 : dotdot ≠ dot := by decide
  simp only [seek, hv.ops, hops, hp, hv.dev, h1, false_or, true_and, hv.norm]

/-- A FAT32 vnode for the root directory that is not the root vnode itself: from it ".." never
gets to the mount below. -/
theorem fat_stuck (hw : On c s w m mt) (hops : mt.ops = some .fat32) (hi : w.inum ≠ 0)
    (hroot : object c w = some (.fatDir (c.rootClus mt.dev))) (hv : On c s v ma mta)
    (hlt : s.mounttable.idxOf ma < s.mounttable.idxOf m) (hhop : hop c s w dotdot = some w1) (hdev : w1.dev = v.dev) :
    False := by
  have htree : FatTree c mt.dev := hcfg.fatTree hw.alloc hops
  have hup : crossUp s w = some none := by
    rw [hw.crossUp hcfg hops, if_neg (show w.inum ≠ rootInum .fat32 from hi)]
  obtain ⟨-, hpriv, -⟩ := hw.filled
  obtain ⟨clus, hclus⟩ := Option.isSome_iff_exists.mp hpriv
  have hwd := hop_dir hhop
  unfold hop at hhop
  rw [if_pos rfl, if_neg (by simp [hwd]), hup] at hhop
  obtain ⟨u, hu, hcross⟩ := Option.bind_eq_some_iff.mp hhop
  simp only [object, hw.ops, hops, hclus, hwd, if_true, Option.some.injEq, Object.fatDir.injEq, hw.dev] at hroot
  rw [hw.seek_fat hops hclus] at hu
  split at hu
  · cases hu
    rcases cross_cases hcfg hcross with ⟨-, rfl⟩ |
      ⟨m2, mt2, -, -, p, m3, mt3, -, -, hon2, -, -, -, -, -, hpd, -, hon3, hlt3⟩
    · obtain ⟨rfl, rfl⟩ := hw.unique hcfg hv hdev
      omega
    · obtain ⟨rfl, rfl⟩ := hon2.unique hcfg hv hdev
      obtain ⟨rfl, rfl⟩ := hon3.unique hcfg hw hpd
      omega
  case isFalse hne =>
    have h0 : clus = 0 := by
      by_contra hc
      rw [if_neg hc] at hroot
      exact hne hroot
    rw [h0, htree.zero] at hu
    simp at hu

omit hcfg in
/-- A directory vnode that stands for FAT32 directory `n` has first cluster `n`, or 0 for the
root. -/
theorem On.fatDir {n : Nat} (hw : On c s w m mt) (hops : mt.ops = some .fat32) (h : object c w = some (.fatDir n)) :
    ∃ clus, w.priv = some clus ∧ (if clus = 0 then c.rootClus mt.dev else clus) = n := by
  obtain ⟨-, hpriv, -⟩ := hw.filled
  obtain ⟨clus, hclus⟩ := Option.isSome_iff_exists.mp hpriv
  simp only [object, hw.ops, hops, hclus, hw.dev] at h
  split at h
  · exact ⟨clus, hclus, Object.fatDir.inj (Option.some.inj h)⟩
  · simp at h

omit hcfg in
theorem On.object_fatRoot (hv : On c s v m mt) (hops : mt.ops = some .fat32) (hd : v.type = .dir)
    (hp : v.priv = some (c.rootClus mt.dev)) : object c v = some (.fatDir (c.rootClus mt.dev)) := by
  simp [object, hv.ops, hops, hp, hd, hv.dev]

/-- ".." of a mountpoint in a FAT32 root directory is a vnode other than the root vnode. -/
theorem fat_point_alias {m2 p : Nat} (hp : mpointOf s m2 = some p)
    (hon : On c s (spot (s.vnodes p)) m mt) (hops : mt.ops = some .fat32)
    (hpi : (s.vnodes p).inum = c.rootClus mt.dev) (h : seek c (s.vnodes p) dotdot = some w1) : w1.inum ≠ 0 := by
  have htree := hcfg.fatTree hon.alloc hops
  obtain ⟨-, -, -, -, hentry⟩ := hcfg.points m2 p hp
  have hdev : (s.vnodes p).dev = mt.dev := hon.dev
  rcases hentry (hon.ops.trans hops) with ⟨-, h0⟩ | ⟨nm, x, hx, hpriv, hxd⟩
  · exact absurd (hpi.symm.trans h0) htree.root
  rw [hdev, hpi] at hx
  have hord : Ordinary nm := by
    by_contra hno
    rw [htree.dots nm hno] at hx
    simp at hx
  obtain ⟨hn0, hnr, y, hy, -⟩ := htree.parent _ nm x hord hx hxd
  rw [← seek_spot, hon.seek_fat hops hpriv, if_neg hnr, hy] at h
  cases h
  exact hn0

/-- ".." from below a FAT32 root arrives at a vnode other than the root vnode. -/
theorem fat_alias (hv : On c s v m mt) (hops : mt.ops = some .fat32)
    (hvp : v.priv = some (c.rootClus mt.dev)) (hord : Ordinary name) (h : descend c s v name = some w0)
    (hwd0 : w0.type = .dir) (hw : On c s w mw mtw) (hsame : SameObject c w w0) (hhop : hop c s w dotdot = some w1)
    (hdev1 : w1.dev = v.dev) : w1.inum ≠ 0 := by
  have htree := hcfg.fatTree hv.alloc hops
  obtain ⟨hvd, u, hseek, hu, hcross⟩ := descend_on hcfg hv h
  have hseek' : (c.search mt.dev (c.rootClus mt.dev) name).map
      (fun x => found .fat32 v x (c.rootClus mt.dev)) = some u := by
    rw [← hseek]
    simp only [seek, hv.ops, hops, hvp, hv.dev, hord.1, hord.2, false_and, or_self, if_false]
  obtain ⟨x, hx, rfl⟩ := Option.map_eq_some_iff.mp hseek'
  have hwd := hop_dir hhop
  rcases cross_cases hcfg hcross with ⟨-, rfl⟩ |
    ⟨m2, mt2, fs2, -, p2, m3, mt3, -, -, hon2, hops2, htype2, hinum2, hpriv2, hp2, hpd, hpi, hon3, hlt⟩
  · obtain ⟨hn0, hnr, y, hy, -⟩ := htree.parent _ name x hord hx hwd0
    obtain ⟨rfl, rfl⟩ := hw.unique hcfg hu hsame.1
    have hobj : object c w = some (.fatDir x.node) := by
      rw [hsame.2.2]
      have hxd : x.type = .dir := hwd0
      simp [object, found, spot, vnodeOf, hxd, hn0]
    obtain ⟨clus, hclus, hif⟩ := hw.fatDir hops hobj
    have hcn : clus = x.node := by
      by_cases hc : clus = 0
      · rw [if_pos hc] at hif
        exact absurd hif.symm hnr
      · rwa [if_neg hc] at hif
    have hi : w.inum ≠ rootInum .fat32 := by
      intro hi
      have := hw.fatRoot (hw.ops.trans hops) hi
      rw [hclus, hcn, hw.dev] at this
      exact hnr (Option.some.inj this)
    unfold hop at hhop
    rw [if_pos rfl, if_neg (by simp [hwd]), hw.crossUp hcfg hops, if_neg hi] at hhop
    simp only [hw.seek_fat hops hclus, hcn, if_neg hnr, hy, Option.map_some, Option.bind_some] at hhop
    rcases cross_cases hcfg hhop with ⟨-, rfl⟩ |
      ⟨m2, mt2, -, -, p, m3, mt3, -, -, hon2, -, -, -, -, -, hpd, -, hon3, hlt⟩
    · exact hn0
    · obtain ⟨rfl, rfl⟩ := hon2.unique hcfg hv hdev1
      obtain ⟨rfl, rfl⟩ := hon3.unique hcfg hw hpd
      omega
  · obtain ⟨rfl, rfl⟩ := hon3.unique hcfg hu hpd
    obtain ⟨rfl, rfl⟩ := hw.unique hcfg hon2 hsame.1
    by_cases hi : w.inum = rootInum fs2
    · rw [hop_out hcfg hw hops2 hwd hi hp2] at hhop
      exact fat_point_alias hcfg hp2 hon3 hops hpi hhop
    · intro _
      cases fs2 with
      | xv6fs => exact hi ((hsame.inode hw hon2 (by simp [hon2.ops, hops2])).trans hinum2)
      | ext2 => exact hi ((hsame.inode hw hon2 (by simp [hon2.ops, hops2])).trans hinum2)
      | fat32 =>
        have hobj : object c w = some (.fatDir (c.rootClus mtw.dev)) := by
          rw [hsame.2.2]
          exact hon2.object_fatRoot hops2 htype2 (hpriv2 rfl)
        exact fat_stuck hcfg hw hops2 hi hobj hv hlt hhop hdev1

/-- Below the root of a FAT32 mount the way back up ends at that root. -/
theorem fat_no_return {v' w2 : Vnode} (hv' : On c s v' ma mta) (hne : v'.ops ≠ some .fat32)
    {name' : Name} (h' : descend c s v' name' = some v) (hfat : v.ops = some .fat32) (hord : Ordinary name)
    (h : descend c s v name = some w0) (hwd0 : w0.type = .dir) (hw : On c s w mw mtw) (hsame : SameObject c w w0)
    (hhop : hop c s w dotdot = some w1) (hsame1 : SameObject c w1 v) (hhop1 : hop c s w1 dotdot = some w2)
    (hsame2 : SameObject c w2 v') : False := by
  obtain ⟨-, u, -, hu, hcross⟩ := descend_on hcfg hv' h'
  rcases cross_cases hcfg hcross with ⟨-, rfl⟩ |
    ⟨m, mt, fs, -, p, m3, mt3, -, -, hon, hops, htype, -, hpriv, -, hpd, -, hon3, hlt⟩
  · exact hne ((hv'.ops.trans hu.ops.symm).trans hfat)
  · obtain rfl : fs = .fat32 := Option.some.inj (hops.symm.trans (hon.ops.symm.trans hfat))
    obtain ⟨rfl, rfl⟩ := hon3.unique hcfg hu hpd
    obtain ⟨m1, mt1, hw1⟩ := hop_on hcfg hw hhop
    obtain ⟨rfl, rfl⟩ := hw1.unique hcfg hon hsame1.1
    have hi := fat_alias hcfg hon hops (hpriv rfl) hord h hwd0 hw hsame hhop hsame1.1
    have hobj : object c w1 = some (.fatDir (c.rootClus mt1.dev)) := by
      rw [hsame1.2.2]
      exact hon.object_fatRoot hops htype (hpriv rfl)
    exact fat_stuck hcfg hw1 hops hi hobj hv' hlt hhop1 hsame2.1

end

/-- Every number of "..", taken from `w`, leads to the directory the shortened list of names
leads to. -/
def Returns (c : Content) (s : State) (v0 : Vnode) (names : List Name) (w : Vnode) : Prop :=
  ∀ k, ∃ wk v, trek c s w (List.replicate k dotdot) = some wk ∧
    place c s v0 (names.take (names.length - k)) = some v ∧ SameObject c wk v

theorem Returns.up (h : Returns c s v0 (names ++ [name]) w) :
    ∃ w1, hop c s w dotdot = some w1 ∧ Returns c s v0 names w1 := by
  have htake : ∀ k, (names ++ [name]).take ((names ++ [name]).length - (k + 1)) =
      names.take (names.length - k) := by
    intro k
    rw [length_append, length_singleton, Nat.add_sub_add_right, take_append_of_le_length (by omega)]
  obtain ⟨w1, -, h1, -⟩ := h 1
  obtain ⟨u, hu, -⟩ := Option.bind_eq_some_iff.mp h1
  refine ⟨u, hu, fun k => ?_⟩
  obtain ⟨wk, v, h2, h3, h4⟩ := h (k + 1)
  rw [replicate_succ, trek, hu] at h2
  rw [htake] at h3
  exact ⟨wk, v, h2, h3, h4⟩

theorem Returns.here (h : Returns c s v0 names w) (hv : place c s v0 names = some v) : SameObject c w v := by
  obtain ⟨wk, u, h1, h2, h3⟩ := h 0
  rw [Nat.sub_zero, take_length, hv] at h2
  cases h1
  cases h2
  exact h3

/-- Only a plain way can be gone back. -/
theorem plain_of_returns (hcfg : Config c s) (h0 : Top c s v0 m0 mt0) (names : List Name)
    (hord : ∀ n ∈ names, Ordinary n) {wn : Vnode} (hwn : place c s v0 names = some wn) (hwd : wn.type = .dir)
    (hw : On c s w m mt) (hret : Returns c s v0 names w) : vfsLookupMount s v0 = none ∧ PlainWay c s v0 names := by
  induction names using List.reverseRecOn generalizing w wn m mt with
  | nil =>
    obtain ⟨w1, v, h1, h2, h3⟩ := hret 1
    obtain ⟨u, hu, h1⟩ := Option.bind_eq_some_iff.mp h1
    cases h1
    cases h2
    exact ⟨top_free hcfg h0 hw (hret.here rfl) hu h3, trivial⟩
  | append_singleton names name ih =>
    have hsame := hret.here hwn
    obtain ⟨w1, hhop, hret1⟩ := hret.up
    rw [place_append] at hwn
    obtain ⟨v, hv, hdesc⟩ := Option.bind_eq_some_iff.mp hwn
    obtain ⟨mv, mtv, hon⟩ := place_on hcfg h0.on names hv
    obtain ⟨m1, mt1, hon1⟩ := hop_on hcfg hw hhop
    obtain ⟨hroot, hplain⟩ := ih (fun n hn => hord n (mem_append_left _ hn)) hv
      (descend_on hcfg hon hdesc).1 hon1 hret1
    have hsame1 := hret1.here hv
    have hordn : Ordinary name := hord name (by simp)
    refine ⟨hroot, (plainWay_append names name).mpr ⟨hplain, fun u hu => ?_⟩⟩
    obtain rfl : v = u := Option.some.inj (hv.symm.trans hu)
    have hne : v.ops ≠ some .fat32 := by
      intro hfat
      induction names using List.reverseRecOn with
      | nil =>
        cases hv
        rw [h0.on.ops, h0.ops] at hfat
        simp at hfat
      | append_singleton names name' _ =>
        obtain ⟨w2, hhop1, hret2⟩ := hret1.up
        rw [place_append] at hv
        obtain ⟨v', hv', hdesc'⟩ := Option.bind_eq_some_iff.mp hv
        obtain ⟨ma, mta, hon'⟩ := place_on hcfg h0.on names hv'
        obtain ⟨hne', -⟩ := ((plainWay_append names name').mp hplain).2 v' hv'
        exact fat_no_return hcfg hon' hne' hdesc' hfat hordn hdesc hwd hw hsame hhop hsame1 hhop1
          (hret2.here hv')
    refine ⟨hne, fun u hu => ⟨fun hmp => ?_, trivial⟩⟩
    obtain rfl : wn = u := Option.some.inj (hdesc.symm.trans hu)
    exact inside_free hcfg hon hne hordn hdesc hwd hmp hw hsame hhop hsame1

end Law

end Xv6Vfs.Vfs
