import Xv6Vfs.Vfs.Tidy
import Xv6Vfs.Vfs.Visible

/-! Runs over devices that hold trees, with mounts placed where path walks can tell them apart: every
state is a mount configuration. -/
namespace Xv6Vfs.Vfs
open List Option

variable {op : Op} {b p : Nat} {w : Vnode}

/-- Every device that can be mounted holds a tree. -/
structure Trees (c : Content) : Prop where
  tree : ∀ dev fs x, c.image dev fs = some x → Tree c fs dev
  root : ∀ dev fs x, c.image dev fs = some x → x.1 = .dir
  dots : ∀ dev fs x, c.image dev fs = some x → fs ≠ .fat32 → Dots c dev
  loops : ∀ dev x n k, c.image dev .fat32 = some x → Parent c .fat32 dev n k → k ≠ n

/-- A place to mount on: not the root of a mounted file system; on FAT32 a directory known by its
parent's cluster, and neither directly above nor directly below another mountpoint. -/
structure Fit (c : Content) (s : State) (u : Vnode) : Prop where
  root : ∀ m mt r, s.mounts m = some mt → mt.root = some r → ¬ SameObject c u (s.vnodes r)
  entry : u.ops = some .fat32 → Parent c .fat32 u.dev (dirId c u) u.inum
  nest : u.ops = some .fat32 → ∀ m p, mpointOf s m = some p → (s.vnodes p).dev = u.dev →
    (s.vnodes p).inum ≠ dirId c u ∧ u.inum ≠ dirId c (s.vnodes p)

/-- The calls of a run over the devices `c`: xv6fs is booted from and never mounted again, only idle
file systems are unmounted, no file is created, lookups go to directories, and every mount is placed well. -/
def Op.placed (c : Content) (y : Sys) (op : Op) : Prop :=
  op.legal y ∧ op.idle y ∧
  match op with
  | .mount c' cwd path _ fs _ => c' = c ∧ (fs = some .xv6fs ↔ y.vfs.mounttable = []) ∧
      (y.vfs.mounttable = [] → path = [slash]) ∧
      (path ≠ [slash] → ∀ u, leads c y.vfs cwd path = some u → Fit c y.vfs u)
  | .namei c' _ _ => c' = c
  | .open c' _ _ mode => c' = c ∧ mode.testBit oCreate = false
  | .lookup c' d _ => c' = c ∧ (y.vfs.vnodes d).type = .dir
  | _ => True

/-- A system in order whose mounts are a configuration over the devices `c`. -/
structure World (c : Content) (y : Sys) : Prop where
  tidy : Tidy y
  config : y.vfs.mounttable ≠ [] → Config c y.vfs
  real : AllReal c y.vfs y.vfs
  apart : Apart c y.vfs
  dots : ∀ m mt, y.vfs.mounts m = some mt → mt.ops ≠ some .fat32 → Dots c mt.dev
  loops : ∀ m mt n k, y.vfs.mounts m = some mt → mt.ops = some .fat32 →
    Parent c .fat32 mt.dev n k → k ≠ n

variable {c : Content} {s s' : State} {y y' : Sys} {addr dev root : Nat} {path : List UInt8}
variable {cwd mpoint : Option Nat} {fs : FsType} {mt : Mount} {i m : Nat} {v : Vnode}

theorem Genuine.of_mount (h : Genuine c s m v) (hm : s'.mounts m = s.mounts m) : Genuine c s' m v :=
  ⟨hm ▸ h.mount, h.filled, h.inode, h.fatRoot, h.fat⟩

theorem Real.of_mount (h : Real c s m v) (hm : s'.mounts m = s.mounts m) : Real c s' m v :=
  ⟨h.genuine.of_mount hm, h.linked⟩

theorem World.table_ne (h : World c y) (hm : y.vfs.mounts m = some mt) : y.vfs.mounttable ≠ [] :=
  ne_nil_of_mem (h.tidy.only m (by simp [hm]))

theorem World.upFound (h : World c y) : UpFound c y.vfs := by
  intro m mt p hm hp
  exact ((h.config (h.table_ne hm)).points m p (by simp [mpointOf, hm, hp])).2.2.2.1

theorem FatEntry.congr (h : FatEntry c v) (hi : ident w = ident v) : FatEntry c w := by
  have h1 : FatEntry c (ident w) := by
    rwa [hi]
  exact h1

theorem ident_dirId (h : ident w = ident v) : dirId c w = dirId c v := by
  have h1 : dirId c (ident w) = dirId c (ident v) := congrArg (dirId c) h
  exact h1

/-- What the configuration says about one mountpoint. -/
def PointOk (c : Content) (s : State) (m p : Nat) : Prop :=
  0 < refs s p ∧ (s.vnodes p).type = .dir ∧
    (∃ m' ∈ s.mounttable, (s.vnodes p).mp = some m' ∧ s.mounttable.idxOf m' < s.mounttable.idxOf m) ∧
    HasUp c (s.vnodes p) ∧ ((s.vnodes p).ops = some .fat32 → FatEntry c (s.vnodes p))

theorem PointOk.congr (h : PointOk c s m p) (hlive : 0 < refs s' p) (hid : ident (s'.vnodes p) = ident (s.vnodes p))
    (hord : ∀ m' ∈ s.mounttable, (s.vnodes p).mp = some m' → s.mounttable.idxOf m' < s.mounttable.idxOf m →
      m' ∈ s'.mounttable ∧ s'.mounttable.idxOf m' < s'.mounttable.idxOf m) : PointOk c s' m p := by
  obtain ⟨-, h2, ⟨m', h3, h4, h5⟩, h6, h7⟩ := h
  obtain ⟨h8, h9⟩ := hord m' h3 h4 h5
  refine ⟨hlive, (ident_type hid).trans h2, ⟨m', h8, (ident_mp hid).trans h4, h9⟩, h6.congr hid,
    fun hf => (h7 ?_).congr hid⟩
  exact (ident_ops hid).symm.trans hf

/-- What it says about one mount. -/
def MountOk (c : Content) (s : State) (m : Nat) : Prop :=
  ∃ mt fs r, s.mounts m = some mt ∧ mt.ops = some fs ∧ Tree c fs mt.dev ∧ mt.root = some r ∧
    0 < refs s r ∧ spot (s.vnodes r) = spot (rootVnode c fs mt.dev m .dir 0)

theorem MountOk.congr (h : MountOk c s m) (hm : s'.mounts m = s.mounts m)
    (hlive : ∀ r, 0 < refs s r → (∃ mt, s.mounts m = some mt ∧ mt.root = some r) →
      0 < refs s' r ∧ ident (s'.vnodes r) = ident (s.vnodes r)) : MountOk c s' m := by
  obtain ⟨mt, fs, r, h1, h2, h3, h4, h5, h6⟩ := h
  obtain ⟨h7, h8⟩ := hlive r h5 ⟨mt, h1, h4⟩
  exact ⟨mt, fs, r, hm.trans h1, h2, h3, h4, h7, (spot_congr h8).trans h6⟩

theorem Tidy.config (h : Tidy y)
    (hfirst : ∃ m ms mt, y.vfs.mounttable = m :: ms ∧ y.vfs.mounts m = some mt ∧ mt.ops = some .xv6fs ∧
      mt.mountpoint = none) (hmounted : ∀ m ∈ y.vfs.mounttable, MountOk c y.vfs m)
    (hpoints : ∀ m p, mpointOf y.vfs m = some p → PointOk c y.vfs m p) (hreal : AllReal c y.vfs y.vfs) :
    Config c y.vfs where
  filled := h.filled
  only := h.only
  first := hfirst
  mounted := hmounted
  devs := fun m m' mt mt' hm hm' => h.table.devs m (h.only m (by simp [hm])) m' (h.only m' (by simp [hm']))
    mt mt' hm hm'
  points := hpoints
  genuine := fun i hi m hm hmp => (hreal i hi m hm hmp).genuine

/-- Mountpoints that keep their identity stay apart. -/
theorem Apart.congr (h : Apart c s)
    (hp : ∀ m p, mpointOf s' m = some p → mpointOf s m = some p ∧ ident (s'.vnodes p) = ident (s.vnodes p))
    (hm : ∀ m mt, s'.mounts m = some mt → s.mounts m = some mt) : Apart c s' where
  roots := by
    intro m p m' mt' fs h1 h2 h3 h4
    obtain ⟨h5, h6⟩ := hp m p h1
    rw [ident_dirId h6]
    exact h.roots m p m' mt' fs h5 ((ident_mp h6).symm.trans h2) (hm m' mt' h3) h4
  entry := by
    intro m p h1 h2
    obtain ⟨h5, h6⟩ := hp m p h1
    rw [ident_dirId h6, ident_dev h6, ident_inum h6]
    exact h.entry m p h5 ((ident_ops h6).symm.trans h2)
  nest := by
    intro m p m' p' h1 h2 h3 h4
    obtain ⟨h5, h6⟩ := hp m p h1
    obtain ⟨h7, h8⟩ := hp m' p' h2
    rw [ident_dirId h6, ident_inum h8]
    exact h.nest m p m' p' h5 h7 ((ident_ops h6).symm.trans h3)
      ((ident_dev h8).symm.trans (h4.trans (ident_dev h6)))

theorem World.transfer (h : World c y) (ht : Tidy y') (hm : y'.vfs.mounts = y.vfs.mounts)
    (htab : y'.vfs.mounttable = y.vfs.mounttable) (hr : AllReal c y.vfs y'.vfs)
    (hid : ∀ i, 0 < refs y.vfs i → 0 < refs y'.vfs i → ident (y'.vfs.vnodes i) = ident (y.vfs.vnodes i)) :
    World c y' := by
  have hpoint : ∀ m p, mpointOf y'.vfs m = some p →
      mpointOf y.vfs m = some p ∧ ident (y'.vfs.vnodes p) = ident (y.vfs.vnodes p) := by
    intro m p hp
    have hp' : mpointOf y.vfs m = some p := by
      simpa only [mpointOf, hm] using hp
    exact ⟨hp', hid p (h.tidy.mpoint_live hp') (ht.mpoint_live hp)⟩
  have hreal : AllReal c y'.vfs y'.vfs := by
    intro i hi m hmem hmp
    exact (hr i hi m (htab ▸ hmem) hmp).of_mount (by rw [hm])
  refine ⟨ht, fun hne => ?_, hreal, h.apart.congr hpoint fun m mt h1 => hm ▸ h1, hm ▸ h.dots, hm ▸ h.loops⟩
  have hcfg := h.config (htab ▸ hne)
  refine ht.config (by rw [hm, htab]; exact hcfg.first) (fun m hmem => ?_) (fun m p hp => ?_) hreal
  · have hok : MountOk c y.vfs m := hcfg.mounted m (htab ▸ hmem)
    refine hok.congr (by rw [hm]) fun r hr hroot => ?_
    obtain ⟨mt, h1, h2⟩ := hroot
    have hlive : 0 < refs y'.vfs r := ht.owned (hm ▸ h1) (.inl h2)
    exact ⟨hlive, hid r hr hlive⟩
  · obtain ⟨h1, h2⟩ := hpoint m p hp
    have hok : PointOk c y.vfs m p := hcfg.points m p h1
    refine hok.congr (ht.mpoint_live hp) h2 fun m' hm' _ hlt => ?_
    rw [htab]
    exact ⟨hm', hlt⟩

theorem idxOf_lt_of_erased {l1 l2 : List Nat} {a : Nat} (ha : a ≠ m) (hb : b ≠ m)
    (h : (l1 ++ m :: l2).idxOf a < (l1 ++ m :: l2).idxOf b) : (l1 ++ l2).idxOf a < (l1 ++ l2).idxOf b := by
  simp only [idxOf_append, idxOf_cons_ne _ ha.symm, idxOf_cons_ne _ hb.symm] at h ⊢
  by_cases h1 : a ∈ l1
  · by_cases h2 : b ∈ l1
    · simpa [h1, h2] using h
    · have := idxOf_lt_length_of_mem h1
      simp only [h1, h2, if_true, if_false]
      omega
  · by_cases h2 : b ∈ l1
    · have := idxOf_lt_length_of_mem h2
      simp only [h1, h2, if_true, if_false] at h
      omega
    · simp only [h1, h2, if_false] at h ⊢
      omega

theorem World.removed (h : World c y) {k : Nat} (hr : Removed y.vfs path k m mt s')
    (hidle : Idle y.vfs m mt) : World c ⟨s', y.held⟩ := by
  have ht := h.tidy.removed hr hidle
  have hnd := h.tidy.table.nodup
  have hlive : ∀ i, 0 < refs s' i → 0 < refs y.vfs i := by
    intro i hi
    have := hr.gave.count i
    omega
  have hold : ∀ b bt, s'.mounts b = some bt → b ≠ m ∧ y.vfs.mounts b = some bt := by
    intro b bt hb
    have hne : b ≠ m := by
      intro he
      simp [he, hr.mounts] at hb
    exact ⟨hne, hr.old hne ▸ hb⟩
  have hpoint : ∀ b p, mpointOf s' b = some p →
      mpointOf y.vfs b = some p ∧ ident (s'.vnodes p) = ident (y.vfs.vnodes p) := by
    intro b p hp
    obtain ⟨bt, hb, hbp⟩ := bind_eq_some_iff.mp hp
    obtain ⟨-, hb'⟩ := hold b bt hb
    exact ⟨by simp [mpointOf, hb', hbp], hr.gave.same p (ht.mpoint_live hp)⟩
  have hreal : AllReal c s' s' := by
    intro i hi b hb hmp
    obtain ⟨h1, h2⟩ := (hr.mem hnd).mp hb
    have hid := hr.gave.same i hi
    exact ((h.real i (hlive i hi) b h1 ((ident_mp hid).symm.trans hmp)).congr hid).of_mount (hr.old h2)
  have hcfg := h.config (h.table_ne hr.mount)
  refine ⟨ht, fun _ => ?_, hreal, h.apart.congr hpoint fun b bt hb => (hold b bt hb).2,
    fun b bt hb => h.dots b bt (hold b bt hb).2, fun b bt n k hb => h.loops b bt n k (hold b bt hb).2⟩
  obtain ⟨l1, l2, e1, e2, e3⟩ := hr.split
  refine ht.config ?_ (fun b hb => ?_) (fun b p hp => ?_) hreal
  · obtain ⟨m0, ms, mt0, h1, h2, h3, h4⟩ := hcfg.first
    obtain ⟨h5, h6⟩ := hr.rootKept hnd m0 (by simp [h1])
    obtain ⟨ms', h7⟩ := head?_eq_some_iff.mp h5
    exact ⟨m0, ms', mt0, h7, h6.trans h2, h3, h4⟩
  · obtain ⟨h1, h2⟩ := (hr.mem hnd).mp hb
    have hok : MountOk c y.vfs b := hcfg.mounted b h1
    refine hok.congr (hr.old h2) fun r _ hroot => ?_
    obtain ⟨bt, h3, h4⟩ := hroot
    have hlive' : 0 < refs s' r := ht.owned ((hr.old h2).trans h3) (.inl h4)
    exact ⟨hlive', hr.gave.same r hlive'⟩
  · obtain ⟨h1, h2⟩ := hpoint b p hp
    have hok : PointOk c y.vfs b p := hcfg.points b p h1
    have hplive := ht.mpoint_live hp
    refine hok.congr hplive h2 fun m' hm' hpm hlt => ?_
    obtain ⟨b', h3, h4⟩ := ht.mp p hplive
    obtain rfl : b' = m' := some.inj (h3.symm.trans ((ident_mp h2).trans hpm))
    obtain ⟨bt, hbt, -⟩ := bind_eq_some_iff.mp hp
    have hb' : b' ∈ s'.mounttable := ht.only b' h4
    have hne : ∀ x, x ∈ s'.mounttable → x ≠ m := fun x hx => ((hr.mem hnd).mp hx).2
    refine ⟨hb', ?_⟩
    rw [e1] at hlt
    rw [e3]
    exact idxOf_lt_of_erased (hne b' hb') (hold b bt hbt).1 hlt

/-- What `mountfn` has made: a vnode of the new mount, its root, and nothing else. -/
structure Fresh (c : Content) (s : State) (addr dev root : Nat) (fs : FsType) (s' : State) : Prop where
  above : Above s [] s'
  real : AllReal c s s'
  mine : ∀ i, 0 < refs s' i → (s'.vnodes i).mp = some addr → i = root
  live : 0 < refs s' root
  image : ∃ x, c.image dev fs = some x ∧
    ident (s'.vnodes root) = ident (rootVnode c fs dev addr x.1 x.2)

theorem MpOk.unused (h : MpOk s) (hfree : s.mounts addr = none) (hi : 0 < refs s i) : (s.vnodes i).mp ≠ some addr := by
  intro he
  obtain ⟨m, h1, h2⟩ := h i hi
  obtain rfl : addr = m := some.inj (he.symm.trans h1)
  simp [hfree] at h2

theorem rootNew_new (h : MpOk s) (hfree : s.mounts addr = none) (hv : v.mp = some addr)
    (hs : s'.vnodes = s.vnodes) : rootNew v s' = vnodeNew v s' := by
  unfold rootNew
  split
  · rfl
  · unfold igetOr
    rw [hv, bind_some]
    cases hget : vfsIget addr v.inum v.ikey s' with
    | none => rfl
    | some x =>
      obtain ⟨h1, h2, -⟩ := vfsIget_spec hget
      rw [hs] at h2
      exact absurd h2 (h.unused hfree (by rw [refs, hs] at h1; exact h1))

theorem mountfn_fresh (h : World c y) (hfree : y.vfs.mounts addr = none) {s1 : State}
    (hs : mountfn c fs dev addr y.vfs = some (some root, s1)) : Fresh c y.vfs addr dev root fs s1 := by
  obtain ⟨r, t, e1, e2, e3, -, e5, -⟩ := mountfn_effect c fs dev hfree
  obtain ⟨rfl, rfl⟩ := Prod.mk.inj (some.inj (e1.symm.trans hs))
  have hne : ∀ m ∈ y.vfs.mounttable, m ≠ addr := fun m hm => ne_of_free hfree (h.tidy.alloc m hm)
  have hroot : ∃ x, c.image dev fs = some x ∧
      ident (t.vnodes root) = ident (rootVnode c fs dev addr x.1 x.2) := by
    unfold mountfn at hs
    cases hx : c.image dev fs with
    | none => simp [hx] at hs
    | some x =>
      simp only [hx] at hs
      split at hs
      · cases hs
      obtain ⟨w, hw, hw'⟩ := map_eq_some_iff.mp hs
      have hnew : rootNew (rootVnode c fs dev addr x.1 x.2) (y.vfs.setMount addr
          (some (newMount fs dev none)) (y.vfs.pages - mountPages fs)) = vnodeNew _ _ :=
        rootNew_new h.tidy.mp hfree rfl rfl
      simp only [newMount] at hnew
      rw [hnew] at hw
      obtain ⟨r, t', f1, -, f3, -⟩ := (Holds.refl _).new _ (rootVnode_fits y.vfs (newMount fs dev none)
        (y.vfs.pages - mountPages fs) c fs dev addr x.1 x.2)
      obtain rfl : (r, t') = w := some.inj (f1.symm.trans hw)
      cases r with
      | none => cases hw'
      | some j =>
        obtain ⟨h1, h2⟩ := Prod.mk.inj hw'
        obtain rfl : j = root := some.inj h1
        refine ⟨x, rfl, ?_⟩
        rw [← h2]
        exact f3 j rfl
  have hcase : ∀ i, 0 < refs t i → 0 < refs y.vfs i ∧ ident (t.vnodes i) = ident (y.vfs.vnodes i) ∨ i = root := by
    intro i hi
    rcases e2.mem hi with h1 | h1
    · exact .inl ⟨h1, e2.same i h1⟩
    · exact .inr (by simpa using h1)
  have hrmp : (t.vnodes root).mp = some addr := by
    obtain ⟨x, -, h2⟩ := hroot
    exact ident_mp h2
  refine ⟨⟨fun i => ?_, e2.same, e2.filled h.tidy.filled, fun m hm => ?_, e3⟩, fun i hi m hm hmp => ?_,
    fun i hi hmp => ?_, e2.live (.inr (by simp)), hroot⟩
  · have := e2.count i
    simp only [count_nil]
    omega
  · rw [e5 root rfl, Function.update_of_ne (hne m hm)]
  · rcases hcase i hi with ⟨h1, h2⟩ | rfl
    · exact (h.real i h1 m hm ((ident_mp h2).symm.trans hmp)).congr h2
    · exact absurd (some.inj (hmp.symm.trans hrmp)) (hne m hm)
  · rcases hcase i hi with ⟨h1, h2⟩ | h1
    · exact absurd ((ident_mp h2).symm.trans hmp) (h.tidy.mp.unused hfree h1)
    · exact h1

theorem abortMount_false {b : Bool} (h : abortMount addr mpoint s = some (b, s')) : b = false := by
  obtain ⟨s1, -, h⟩ := bind_eq_some_iff.mp h
  obtain ⟨mt, -, h⟩ := bind_eq_some_iff.mp h
  obtain ⟨s2, -, h⟩ := map_eq_some_iff.mp h
  exact (Prod.mk.inj h).1.symm

theorem attach_true (h : attach addr mpoint path dev s = some (true, s')) :
    s'.vnodes = s.vnodes ∧ ∃ mt, s.mounts addr = some mt ∧
      s'.mounts addr = some { mt with valid := true, mountpoint := mpoint, dev := dev, path := path.take 127 } := by
  unfold attach at h
  split at h
  · exact absurd (abortMount_false h) (by simp)
  · obtain ⟨mt, h1, h2⟩ := map_eq_some_iff.mp h
    obtain ⟨-, rfl⟩ := Prod.mk.inj h2
    exact ⟨rfl, mt, h1, by simp [State.setMount]⟩

/-- What a successful mount has made of the vnodes. -/
structure Settled (c : Content) (s : State) (cwd : Option Nat) (path : List UInt8) (dev addr : Nat)
    (fs : FsType) (root : Nat) (mpoint : Option Nat) (s' : State) : Prop where
  entry : s'.mounts addr = some ⟨true, some fs, some root, mpoint, dev, path.take 127⟩
  real : AllReal c s s'
  mine : ∀ i, 0 < refs s' i → (s'.vnodes i).mp = some addr → i = root
  image : ∃ x, c.image dev fs = some x ∧
    ident (s'.vnodes root) = ident (rootVnode c fs dev addr x.1 x.2)
  point : ∀ p, mpoint = some p → path ≠ [slash] ∧ leads c s cwd path = some (spot (s'.vnodes p)) ∧
    ∃ m ∈ s.mounttable, (s'.vnodes p).mp = some m

theorem vfsMount_settled (h : World c y) (hcwd : cwdHeld cwd y.held = true) (hfree : y.vfs.mounts addr = none)
    (hlen : path.length < 128) (hempty : y.vfs.mounttable = [] → path = [slash]) {fs : Option FsType}
    (hs : vfsMount c cwd path dev fs addr y.vfs = some (true, s')) :
    ∃ fs' root mpoint, fs = some fs' ∧ Settled c y.vfs cwd path dev addr fs' root mpoint s' := by
  have h128 : path.take 128 = path := take_of_length_le (by omega)
  unfold vfsMount at hs
  split at hs
  · cases hs
  cases fs with
  | none => cases hs
  | some fs =>
    obtain ⟨⟨r, s1⟩, h1, hs⟩ := bind_eq_some_iff.mp hs
    cases r with
    | none => simp at hs
    | some root =>
      have hf := mountfn_fresh h hfree h1
      obtain ⟨r, t, e1, e2, e3, -, e5, e6⟩ := mountfn_effect c fs dev hfree
      obtain ⟨rfl, rfl⟩ := Prod.mk.inj (some.inj (e1.symm.trans h1))
      have hm1 : t.mounts addr = some (newMount fs dev (some root)) := by simp [e5 root rfl]
      simp only [reduceCtorEq, if_false, h128] at hs
      split at hs
      · obtain ⟨f1, mt, f2, f3⟩ := attach_true hs
        obtain rfl := some.inj (hm1.symm.trans f2)
        refine ⟨fs, root, none, rfl, f3, ?_, ?_, ?_, by simp⟩
        · intro i hi m hm hmp
          rw [refs, f1] at hi
          rw [f1] at hmp ⊢
          exact hf.real i hi m hm hmp
        · intro i hi hmp
          rw [refs, f1] at hi
          rw [f1] at hmp
          exact hf.mine i hi hmp
        · rw [f1]
          exact hf.image
      case isFalse hpath =>
        have hne : y.vfs.mounttable ≠ [] := fun he => hpath (hempty he)
        obtain ⟨⟨w, s2⟩, h2, hs⟩ := bind_eq_some_iff.mp hs
        have hlive := h.tidy.cwd_live hcwd
        have hstart : ∀ i, cwd = some i →
            0 < refs y.vfs i ∧ ∃ m ∈ y.vfs.mounttable, (y.vfs.vnodes i).mp = some m := by
          intro i hi
          obtain ⟨m, h3, h4⟩ := h.tidy.mp i (hlive i hi)
          exact ⟨hlive i hi, m, h.tidy.only m h4, h3⟩
        obtain ⟨r, t2, g1, g2, -, g4⟩ :=
          vfsNamei_follow (h.config hne) (real_closed (h.config hne) h.dots) hf.above hf.real hstart path
        obtain ⟨rfl, rfl⟩ := Prod.mk.inj (some.inj (g1.symm.trans h2))
        cases r with
        | none => exact absurd (abortMount_false hs) (by simp)
        | some p =>
          obtain ⟨u, g5, g6⟩ := g4 p rfl
          dsimp only at hs
          split at hs
          · exact absurd (abortMount_false hs) (by simp)
          obtain ⟨hsound, hup⟩ := Took.ready h.tidy.sound h.upFound hfree e2 e3 (e6 h.tidy.mp (by simp)) (e5 root rfl)
          have hh := vfsNamei_holds c cwd path hsound.live hup (fun i hi => e2.live (.inl (hlive i hi))) h2
          obtain ⟨f1, mt, f2, f3⟩ := attach_true hs
          rw [hh.mounts] at f2
          cases hm1.symm.trans f2
          obtain ⟨m, hm, hmp⟩ := g6.mount
          have hpmp : (s'.vnodes p).mp = some m := by
            rw [f1]
            exact g6.mp_eq hmp
          refine ⟨fs, root, some p, rfl, f3, ?_, ?_, ?_, fun q hq => ?_⟩
          · intro i hi m' hm' hmp'
            rw [refs, f1] at hi
            rw [f1] at hmp' ⊢
            exact g2 i hi m' hm' hmp'
          · intro i hi hi'
            rw [refs, f1] at hi
            rcases (hh.live_iff i).mp hi with h5 | h5
            · rw [f1] at hi'
              exact hf.mine i h5 ((ident_mp (hh.same i h5)).symm.trans hi')
            · obtain rfl : i = p := by simpa using h5
              have := some.inj (hpmp.symm.trans hi')
              exact absurd this (ne_of_free hfree (h.tidy.alloc m hm))
          · obtain ⟨x, h5, h6⟩ := hf.image
            refine ⟨x, h5, ?_⟩
            rw [f1]
            exact (hh.same root hf.live).trans h6
          · cases hq
            refine ⟨hpath, ?_, m, hm, hpmp⟩
            rw [f1, g6.here]
            exact g5

theorem rootVnode_inum (c : Content) (fs : FsType) (dev addr : Nat) (type : VType) (size : Nat) :
    (rootVnode c fs dev addr type size).inum = rootInum fs := by
  cases fs <;> rfl

/-- The root vnode of a tree agrees with its device. -/
theorem rootVnode_real (ht : Tree c fs dev) (hm : s.mounts addr = some mt) (hdev : mt.dev = dev)
    (hops : mt.ops = some fs) (size : Nat) : Real c s addr (rootVnode c fs dev addr .dir size) := by
  have hinode : fs ≠ .fat32 → InodeTree c dev (rootInum fs) := by
    intro hne
    cases fs with
    | xv6fs => exact ht
    | ext2 => exact ht
    | fat32 => exact absurd rfl hne
  refine ⟨⟨⟨mt, hm, hdev.symm, hops.symm⟩, rootVnode_filled c fs dev addr .dir size, ?_, ?_, ?_⟩, ?_⟩
  · intro hne n name x hx hn
    have hfs : fs ≠ .fat32 := fun he => hne (congrArg some he)
    obtain ⟨u, hu, hun, hud⟩ := (hinode hfs).top
    rw [rootVnode_inum] at hn
    have htype : (rootVnode c fs dev addr .dir size).type = .dir := by simp [rootVnode]
    rw [htype, ← hud]
    exact (hinode hfs).types n name x _ dotdot u hx hu (hn.trans hun.symm)
  · intro hf _
    obtain rfl : fs = .fat32 := some.inj hf
    rfl
  · intro hf name x hx
    obtain rfl : fs = .fat32 := some.inj hf
    have htree : FatTree c dev := ht
    have hx' : c.search dev 0 name = some x := hx
    rw [htree.zero] at hx'
    cases hx'
  · intro _
    by_cases hf : fs = .fat32
    · subst hf
      rw [if_pos (show (rootVnode c .fat32 dev addr .dir size).ops = some .fat32 from rfl)]
      exact .inl ⟨rfl, rfl⟩
    · have hne : ¬ (rootVnode c fs dev addr .dir size).ops = some .fat32 := by simpa [rootVnode] using hf
      rw [if_neg hne]
      intro node hnode
      obtain ⟨u, hu, -⟩ := (hinode hf).top
      have h1 := (rootVnode_filled c fs dev addr .dir size).2.2.2 hne
      obtain rfl : rootInum fs = node := by
        rw [← rootVnode_inum c fs dev addr .dir size]
        exact some.inj (h1.symm.trans hnode)
      exact .inr (by rw [show (rootVnode c fs dev addr .dir size).dev = dev from rfl, hu]; rfl)

theorem HasUp.of_parent {k : Nat} (hops : v.ops = some .fat32) (h : Parent c .fat32 v.dev (dirId c v) k) :
    HasUp c v := by
  intro node hnode
  obtain ⟨h1, x, h2, -⟩ := h
  rw [dirId_fat hops hnode] at h1 h2
  have h0 : node ≠ 0 := by
    intro he
    simp [he, rootId] at h1
  rw [if_neg h0] at h2
  exact .inr (by simp [h2])

theorem sameObject_of_dirId {m' : Nat} {mt' : Mount} (hv : On c s v m mt) (hw : On c s w m' mt') (hvd : v.type = .dir)
    (hwd : w.type = .dir) (hdev : v.dev = w.dev) (hops : v.ops = w.ops) (h : dirId c v = dirId c w) :
    SameObject c v w := by
  refine ⟨hdev, hops, ?_⟩
  rw [object_dirId hv hvd, object_dirId hw hwd, hops, h]

theorem Added.mounts_cases (ha : Added s addr dev path fs root mpoint s') {bt : Mount} (hb : s'.mounts b = some bt) :
    b = addr ∧ bt = ⟨true, some fs, some root, mpoint, dev, path.take 127⟩ ∨ s.mounts b = some bt := by
  by_cases he : b = addr
  · subst he
    exact .inl ⟨rfl, (some.inj (ha.self.symm.trans hb)).symm⟩
  · rw [ha.mounts, Function.update_of_ne he] at hb
    exact .inr hb

section Added

variable (h : World c y) (ha : Added y.vfs addr dev path fs root mpoint s')
variable (hs : Settled c y.vfs cwd path dev addr fs root mpoint s') (hfree : y.vfs.mounts addr = none)
include h ha

theorem Added.point_cases (hp : mpointOf s' b = some p) :
    b = addr ∧ mpoint = some p ∨
      mpointOf y.vfs b = some p ∧ ident (s'.vnodes p) = ident (y.vfs.vnodes p) := by
  obtain ⟨bt, h1, h2⟩ := bind_eq_some_iff.mp hp
  rcases ha.mounts_cases h1 with ⟨rfl, rfl⟩ | h3
  · exact .inl ⟨rfl, h2⟩
  · have h4 : mpointOf y.vfs b = some p := by simp [mpointOf, h3, h2]
    exact .inr ⟨h4, ha.took.same p (h.tidy.mpoint_live h4)⟩

include hs hfree

theorem Settled.allReal (htree : Tree c fs dev) (hdir : ∀ x, c.image dev fs = some x → x.1 = .dir) :
    AllReal c s' s' := by
  intro i hi m hm hmp
  rw [ha.table] at hm
  rcases mem_append.mp hm with h1 | h1
  · exact (hs.real i hi m h1 hmp).of_mount (ha.old hfree (h.tidy.alloc m h1))
  · obtain rfl := mem_singleton.mp h1
    obtain rfl := hs.mine i hi hmp
    obtain ⟨x, h2, h3⟩ := hs.image
    rw [hdir x h2] at h3
    exact (rootVnode_real htree hs.entry rfl rfl x.2).congr h3

theorem Settled.pointOk (htidy : Tidy ⟨s', y.held⟩)
    (hfit : path ≠ [slash] → ∀ u, leads c y.vfs cwd path = some u → Fit c y.vfs u) (hp : mpoint = some p) :
    PointOk c s' addr p := by
  obtain ⟨hne, hlead, m, hm, hmp⟩ := hs.point p hp
  have hpt : mpointOf s' addr = some p := by simp [mpointOf, ha.self, hp]
  have hlive : 0 < refs s' p := htidy.mpoint_live hpt
  have hd := (ha.dir p hp).1
  have hreal := hs.real p hlive m hm hmp
  have hnot : addr ∉ y.vfs.mounttable := fun h1 => ne_of_free hfree (h.tidy.alloc addr h1) rfl
  have hlink := hreal.linked hd
  refine ⟨hlive, hd, ⟨m, by rw [ha.table]; exact mem_append_left _ hm, hmp, ?_⟩, ?_, fun hf => ?_⟩
  · have h1 := idxOf_lt_length_of_mem hm
    rw [ha.table, idxOf_append_of_mem hm, idxOf_append_of_notMem hnot]
    omega
  · by_cases hf : (s'.vnodes p).ops = some .fat32
    · exact HasUp.of_parent hf ((hfit hne _ hlead).entry hf)
    · rwa [if_neg hf] at hlink
  · rwa [if_pos hf] at hlink

theorem Settled.apart (hcfg : Config c y.vfs ∨ mpoint = none)
    (hloops : ∀ m mt n k, y.vfs.mounts m = some mt → mt.ops = some .fat32 → Parent c .fat32 mt.dev n k → k ≠ n)
    (hfit : path ≠ [slash] → ∀ u, leads c y.vfs cwd path = some u → Fit c y.vfs u)
    (hlive : ∀ p, mpoint = some p → 0 < refs s' p) : Apart c s' := by
  have hnew : ∀ p, mpoint = some p → Fit c y.vfs (spot (s'.vnodes p)) ∧
      ∃ m ∈ y.vfs.mounttable, (s'.vnodes p).mp = some m ∧ Real c y.vfs m (s'.vnodes p) := by
    intro p hp
    obtain ⟨hne, hlead, m, hm, hmp⟩ := hs.point p hp
    exact ⟨hfit hne _ hlead, m, hm, hmp, hs.real p (hlive p hp) m hm hmp⟩
  refine ⟨fun b p m' mt' fs' h1 h2 h3 h4 => ?_, fun b p h1 h2 => ?_, fun b p b' p' h1 h2 h3 h4 => ?_⟩
  · have hmnt : m' ∈ y.vfs.mounttable → y.vfs.mounts m' = some mt' := fun hm =>
      (ha.old hfree (h.tidy.alloc m' hm)).symm.trans h3
    rcases ha.point_cases h h1 with ⟨-, hp⟩ | ⟨hp, hid⟩
    · obtain ⟨hf, m, hm, hmp, hreal⟩ := hnew p hp
      obtain rfl : m = m' := some.inj (hmp.symm.trans h2)
      have hc := hcfg.resolve_right (by simp [hp])
      intro he
      obtain ⟨mt, hon⟩ := hreal.genuine.on hmp
      obtain rfl := some.inj (hon.alloc.symm.trans (hmnt hm))
      obtain ⟨mt1, fs1, r, e1, e2, -, e4, e5, -, e7⟩ := hc.root_dirId hm
      cases hon.alloc.symm.trans e4.alloc
      cases h4.symm.trans e2
      have hsame := sameObject_of_dirId hon e4 (ha.dir p hp).1 e5 (hon.dev.trans e4.dev.symm)
        (hon.ops.trans e4.ops.symm) (he.trans e7.symm)
      exact hf.root m mt r hon.alloc e1 ⟨hsame.1, hsame.2.1, hsame.2.2.trans (object_spot e5)⟩
    · have hm' : m' ∈ y.vfs.mounttable := by
        have h5 := h.tidy.mp p (h.tidy.mpoint_live hp)
        obtain ⟨b', h6, h7⟩ := h5
        obtain rfl : b' = m' := some.inj (h6.symm.trans ((ident_mp hid).symm.trans h2))
        exact h.tidy.only b' h7
      rw [ident_dirId hid]
      exact h.apart.roots b p m' mt' fs' hp ((ident_mp hid).symm.trans h2) (hmnt hm') h4
  · rcases ha.point_cases h h1 with ⟨-, hp⟩ | ⟨hp, hid⟩
    · exact (hnew p hp).1.entry h2
    · rw [ident_dirId hid, ident_dev hid, ident_inum hid]
      exact h.apart.entry b p hp ((ident_ops hid).symm.trans h2)
  · rcases ha.point_cases h h1 with ⟨-, hp⟩ | ⟨hp, hid⟩ <;>
      rcases ha.point_cases h h2 with ⟨-, hp'⟩ | ⟨hp', hid'⟩
    · cases hp.symm.trans hp'
      obtain ⟨hf, m, hm, hmp, hreal⟩ := hnew p hp
      obtain ⟨mt, e1, e2, e3⟩ := hreal.genuine.mount
      have hpar := hf.entry h3
      refine hloops m mt _ _ e1 (e3.symm.trans h3) ?_
      rwa [← e2]
    · have h5 := ((hnew p hp).1.nest h3 b' p' hp' ((ident_dev hid').symm.trans h4)).1
      rwa [ident_inum hid']
    · have h5 : (spot (s'.vnodes p')).ops = some .fat32 := by
        obtain ⟨-, m, hm, hmp, hreal⟩ := hnew p' hp'
        obtain ⟨mt, e1, e2, e3⟩ := hreal.genuine.mount
        obtain ⟨b1, e4, e5⟩ := h.tidy.mp p (h.tidy.mpoint_live hp)
        have e6 := (h.real p (h.tidy.mpoint_live hp) b1 (h.tidy.only b1 e5) e4).genuine.mount
        obtain ⟨mt1, e7, e8, e9⟩ := e6
        have e10 : mt.dev = mt1.dev := by
          rw [← e2, ← e8, h4, ident_dev hid]
        obtain rfl := h.tidy.table.devs m hm b1 (h.tidy.only b1 e5) mt mt1 e1 e7 e10
        cases e1.symm.trans e7
        exact e3.trans (e9.symm.trans ((ident_ops hid).symm.trans h3))
      have h6 := ((hnew p' hp').1.nest h5 b p hp ((ident_dev hid).symm.trans h4.symm)).2
      rwa [ident_dirId hid]
    · rw [ident_dirId hid, ident_inum hid']
      exact h.apart.nest b p b' p' hp hp' ((ident_ops hid).symm.trans h3)
        ((ident_dev hid').symm.trans (h4.trans (ident_dev hid)))

/-- A successful mount in a good place. -/
theorem World.added (htrees : Trees c) (hlen : path.length < 128) (hfs : fs = .xv6fs ↔ y.vfs.mounttable = [])
    (hfit : path ≠ [slash] → ∀ u, leads c y.vfs cwd path = some u → Fit c y.vfs u) : World c ⟨s', y.held⟩ := by
  obtain ⟨x, himage, hroot⟩ := hs.image
  have htree := htrees.tree dev fs x himage
  have htidy := h.tidy.added ha hfree hlen hfs.mp
  have hreal := hs.allReal h ha hfree htree (htrees.root dev fs)
  have hpoint : ∀ p, mpoint = some p → y.vfs.mounttable ≠ [] := by
    intro p hp he
    have := ha.first he (h.tidy.empty he)
    simp [hp] at this
  have hlive : ∀ p, mpoint = some p → 0 < refs s' p := fun p hp =>
    htidy.owned ha.self (.inr hp)
  have hcfg : Config c y.vfs ∨ mpoint = none := by
    cases hp : mpoint with
    | none => exact .inr rfl
    | some p => exact .inl (h.config (hpoint p hp))
  refine ⟨htidy, fun _ => ?_, hreal, hs.apart h ha hfree hcfg h.loops hfit hlive, fun b bt hb hne => ?_,
    fun b bt n k hb hf => ?_⟩
  · refine htidy.config ?_ (fun b hb => ?_) (fun b p hp => ?_) hreal
    · cases hT : y.vfs.mounttable with
      | nil =>
        refine ⟨addr, [], _, by simp [ha.table, hT], ha.self, ?_, ha.first hT (h.tidy.empty hT)⟩
        exact congrArg some (hfs.mpr hT)
      | cons a l =>
        obtain ⟨m0, ms, mt0, h1, h2, h3, h4⟩ := (h.config (by simp [hT])).first
        refine ⟨m0, ms ++ [addr], mt0, by simp [ha.table, h1], ?_, h3, h4⟩
        exact (ha.old hfree (by simp [h2])).trans h2
    · rw [ha.table] at hb
      rcases mem_append.mp hb with h1 | h1
      · have hok : MountOk c y.vfs b := (h.config (ne_nil_of_mem h1)).mounted b h1
        refine hok.congr (ha.old hfree (h.tidy.alloc b h1)) fun r hr _ => ?_
        exact ⟨ha.took.live (.inl hr), ha.took.same r hr⟩
      · obtain rfl := mem_singleton.mp h1
        refine ⟨_, fs, root, ha.self, rfl, htree, rfl, htidy.owned ha.self (.inl rfl), ?_⟩
        rw [spot_congr hroot, htrees.root dev fs x himage]
        rfl
    · rcases ha.point_cases h hp with ⟨rfl, hp'⟩ | ⟨hp', hid⟩
      · exact hs.pointOk h ha hfree htidy hfit hp'
      · have hb : b ∈ y.vfs.mounttable := by
          obtain ⟨bt, hbt, -⟩ := bind_eq_some_iff.mp hp'
          exact h.tidy.only b (by simp [hbt])
        have hok : PointOk c y.vfs b p := (h.config (ne_nil_of_mem hb)).points b p hp'
        refine hok.congr (htidy.mpoint_live hp) hid fun m' hm' _ hlt => ?_
        rw [ha.table, idxOf_append_of_mem hm', idxOf_append_of_mem hb]
        exact ⟨mem_append_left _ hm', hlt⟩
  · rcases ha.mounts_cases hb with ⟨rfl, rfl⟩ | h1
    · exact htrees.dots dev fs x himage fun he => hne (congrArg some he)
    · exact h.dots b bt h1 hne
  · rcases ha.mounts_cases hb with ⟨rfl, rfl⟩ | h1
    · obtain rfl : fs = .fat32 := some.inj hf
      exact htrees.loops dev x n k himage
    · exact h.loops b bt n k h1 hf

end Added

theorem World.calm (h : World c y) (hop : op.placed c y) : op.Calm y := by
  obtain ⟨hlegal, hidle, hop⟩ := hop
  refine ⟨hlegal, ?_, ?_, hidle⟩
  · cases op with
    | mount c' cwd path dev fs addr =>
      obtain ⟨-, h2, h3, -⟩ := hop
      exact fun he => ⟨h2.mp he, h3 (h2.mp he)⟩
    | _ => trivial
  · cases op with
    | mount c' cwd path dev fs addr =>
      obtain ⟨rfl, -⟩ := hop
      exact h.upFound
    | namei c' cwd path =>
      obtain rfl : c' = c := hop
      exact h.upFound
    | «open» c' cwd path mode =>
      obtain ⟨rfl, -⟩ := hop
      exact h.upFound
    | _ => trivial

theorem World.start (h : World c y) (hcwd : cwdHeld cwd y.held = true) : ∀ i, cwd = some i →
    0 < refs y.vfs i ∧ ∃ m ∈ y.vfs.mounttable, (y.vfs.vnodes i).mp = some m := by
  intro i hi
  have hlive := h.tidy.cwd_live hcwd i hi
  obtain ⟨m, h3, h4⟩ := h.tidy.mp i hlive
  exact ⟨hlive, m, h.tidy.only m h4, h3⟩

theorem vfsNamei_empty (h : World c y) (ht : y.vfs.mounttable = []) (hcwd : cwdHeld cwd y.held = true)
    (path : List UInt8) : vfsNamei c cwd path y.vfs = some (none, y.vfs) := by
  have hstart : pathStart path cwd y.vfs = none := by
    cases hcw : cwd with
    | none => simp [pathStart, ht]
    | some d =>
      have := h.tidy.cwd_live hcwd d hcw
      rw [h.tidy.empty ht d] at this
      omega
  simp [vfsNamei, hstart]

/-- An `open` that creates nothing keeps what `vfs_namei` has found. -/
theorem vfsOpen_real {r : Option Nat} {mode : Nat} (hh : Holds s r.toList s') (hreal : AllReal c s s')
    (hr : vfsNamei c cwd path s = some (r, s')) (hmode : mode.testBit oCreate = false) :
    ∃ w, vfsOpen c cwd path mode s = some w ∧ AllReal c s w.2 := by
  unfold vfsOpen
  rw [hr, bind_some]
  cases r with
  | none => exact ⟨(none, s'), by simp [hmode], hreal⟩
  | some ip =>
    dsimp only [openCheck]
    split
    · obtain ⟨t, h1, h2, h3, -⟩ := vput_spec (hh.live (.inr mem_cons_self))
      refine ⟨(none, t), by rw [h1]; rfl, hreal.congr fun i hi => ⟨?_, h3 i hi⟩⟩
      have hi' : 0 < refs t i := hi
      have := h2 i
      omega
    · exact ⟨_, rfl, hreal⟩

/-- Every well-placed call keeps the configuration. -/
theorem exec_world (htrees : Trees c) (h : World c y) (hop : op.placed c y) :
    ∃ y', exec op y = some y' ∧ World c y' := by
  obtain ⟨y', h1, h2, -⟩ := exec_tidy h.tidy (h.calm hop)
  refine ⟨y', h1, ?_⟩
  have hup := h.upFound
  obtain ⟨hlegal, hidle, hop⟩ := hop
  cases op with
  | mount c' cwd path dev fs addr =>
    obtain ⟨rfl, hfs, hempty, hfit⟩ := hop
    obtain ⟨e1, e2, e3⟩ := hlegal
    have h128 : path.take 128 = path := take_of_length_le (by omega)
    obtain ⟨b, s', h4, h5, h6⟩ := vfsMount_effect h.tidy.sound hup (h.tidy.cwd_live e1) e2 path dev
      (fun he => ⟨hfs.mp he, by rw [h128]; exact hempty (hfs.mp he)⟩)
    have hex : exec (.mount c' cwd path dev fs addr) y = some ⟨s', y.held⟩ := by simp [exec, e1, e2, h4]
    cases hex.symm.trans h1
    cases b with
    | false =>
      obtain ⟨f1, f2, f3⟩ := h5 rfl
      have hkept : ∀ i, 0 < refs s' i → 0 < refs y.vfs i ∧ ident (s'.vnodes i) = ident (y.vfs.vnodes i) := by
        intro i hi
        have hi' := (f1.mem hi).resolve_right (by simp)
        exact ⟨hi', f1.same i hi'⟩
      exact h.transfer h2 f2 f3 (h.real.congr hkept) fun i hi _ => f1.same i hi
    | true =>
      obtain ⟨fs', root, mpoint, rfl, ha⟩ := h6 rfl
      obtain ⟨fs2, root2, mpoint2, e4, hs⟩ := vfsMount_settled h e1 e2 e3 hempty h4
      cases e4
      have hsame := some.inj (ha.self.symm.trans hs.entry)
      simp only [Mount.mk.injEq, some.injEq, true_and] at hsame
      obtain ⟨rfl, rfl, -⟩ := hsame
      refine h.added ha hs e2 htrees e3 ⟨fun he => hfs.mp (congrArg some he), fun he => ?_⟩ hfit
      exact some.inj (hfs.mpr he)
  | umount path =>
    obtain ⟨b, s', h4, h5, h6⟩ := h.tidy.umount_effect path
    have hex : exec (.umount path) y = some ⟨s', y.held⟩ := by simp [exec, h4]
    cases hex.symm.trans h1
    cases b with
    | false =>
      rcases h5 rfl with ⟨rfl, -⟩ | ⟨rfl, -⟩
      · exact h
      · exact h
    | true =>
      obtain ⟨k, m, mt, hr⟩ := h6 rfl
      exact h.removed hr (hidle m hr.mem_tail mt hr.mount hr.path)
  | namei c' cwd path =>
    obtain rfl : c' = c := hop
    have e1 : cwdHeld cwd y.held = true := hlegal
    by_cases ht : y.vfs.mounttable = []
    · have hex : exec (.namei c' cwd path) y = some y := by simp [exec, e1, vfsNamei_empty h ht e1]
      cases hex.symm.trans h1
      exact h
    · have hcfg := h.config ht
      obtain ⟨r, s', f1, f2, -⟩ := vfsNamei_follow hcfg (real_closed hcfg h.dots) (Above.refl h.tidy.filled)
        h.real (h.start e1) path
      have hh := vfsNamei_holds c' cwd path h.tidy.sound.live hup (h.tidy.cwd_live e1) f1
      have hex : exec (.namei c' cwd path) y = some ⟨s', r.toList ++ y.held⟩ := by simp [exec, e1, f1]
      cases hex.symm.trans h1
      exact h.transfer h2 hh.mounts hh.table f2 fun i hi _ => hh.same i hi
  | «open» c' cwd path mode =>
    obtain ⟨rfl, hmode⟩ := hop
    have e1 : cwdHeld cwd y.held = true := hlegal
    by_cases ht : y.vfs.mounttable = []
    · have hex : exec (.open c' cwd path mode) y = some y := by
        simp [exec, e1, vfsOpen, vfsNamei_empty h ht e1, hmode]
      cases hex.symm.trans h1
      exact h
    · have hcfg := h.config ht
      obtain ⟨r, s', f1, f2, -⟩ := vfsNamei_follow hcfg (real_closed hcfg h.dots) (Above.refl h.tidy.filled)
        h.real (h.start e1) path
      have hh := vfsNamei_holds c' cwd path h.tidy.sound.live hup (h.tidy.cwd_live e1) f1
      obtain ⟨⟨w, t⟩, g1, g2⟩ := vfsOpen_real hh f2 f1 hmode
      have hw := vfsOpen_holds c' cwd path mode h.tidy.sound.live hup (h.tidy.cwd_live e1) g1
      have hex : exec (.open c' cwd path mode) y = some ⟨t, w.toList ++ y.held⟩ := by simp [exec, e1, g1]
      cases hex.symm.trans h1
      exact h.transfer h2 hw.mounts hw.table g2 fun i hi _ => hw.same i hi
  | lookup c' d name =>
    obtain ⟨rfl, hd⟩ := hop
    have e1 : d ∈ y.held := hlegal
    have hlive := h.tidy.live (.inl e1)
    obtain ⟨m, e2, e3⟩ := h.tidy.mp d hlive
    have hm := h.tidy.only m e3
    have hcfg := h.config (ne_nil_of_mem hm)
    obtain ⟨l, f1, f2⟩ := lookup_found (real_closed hcfg h.dots) h.real hlive hd hm e2 name
    have hh := (lookup_balanced c' (Holds.refl y.vfs) hlive name f1).holds
    have hex : exec (.lookup c' d name) y =
        some ⟨l.st, (if l.ok then (l.stored.bind id).toList else []) ++ y.held⟩ := by simp [exec, e1, f1]
    cases hex.symm.trans h1
    exact h.transfer h2 hh.mounts hh.table f2.real fun i hi _ => hh.same i hi
  | close v =>
    have e1 : v ∈ y.held := hlegal
    obtain ⟨s', f1, f2, f3, f4, f5, -⟩ := vput_spec (h.tidy.live (.inl e1))
    have hex : exec (.close v) y = some ⟨s', y.held.erase v⟩ := by simp [exec, e1, f1]
    cases hex.symm.trans h1
    refine h.transfer h2 f4 f5 (h.real.congr fun i hi => ⟨?_, f3 i hi⟩) fun i _ hi => f3 i hi
    have hi' : 0 < refs s' i := hi
    have := f2 i
    omega
  | memory n =>
    cases h1
    exact h.transfer h2 rfl rfl h.real fun _ _ _ => rfl

theorem vfsInit_world (c : Content) (pages : Nat) : World c (vfsInit pages) := by
  refine ⟨vfsInit_tidy pages, fun hne => absurd rfl hne, ?_, ⟨?_, ?_, ?_⟩, ?_, ?_⟩ <;>
    simp [vfsInit, AllReal, refs, emptyVnode, mpointOf]

theorem run_world (htrees : Trees c) {ops : List Op} (h : World c y)
    (hok : Run.Meets exec (fun y op => op.placed c y) ops y) : ∃ y', Run.run exec ops y = some y' ∧ World c y' :=
  Run.run_total (World c) (fun _ _ h hop => exec_world htrees h hop) h hok

end Xv6Vfs.Vfs
