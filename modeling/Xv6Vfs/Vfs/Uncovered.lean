import Xv6Vfs.Vfs.World

/-! A path walk never ends on a directory that is covered by a mount, as long as mounts are placed
where walks can tell them apart. -/
namespace Xv6Vfs.Vfs
open List Option

variable {dev : Nat} {ops : List Op} {path : List UInt8}

variable {c : Content} {s : State} {y : Sys} {v : Vnode} {m : Nat}

/-- A directory that a vnode stands for is also what its spot stands for. -/
theorem mountedOn_spot (hcfg : Config c s) (h : MountedOn c s m v) : MountedOn c s m (spot v) := by
  obtain ⟨hm, p, hp, hdev, hops, hobj⟩ := h
  refine ⟨hm, p, hp, hdev, hops, ?_⟩
  obtain ⟨m', mt', hon, -, -, hd⟩ := hcfg.point_on hp
  by_cases hvd : v.type = .dir
  · exact hobj.trans (object_spot hvd).symm
  · by_cases hf : v.ops = some .fat32
    · obtain ⟨n, hn⟩ := isSome_iff_exists.mp hon.filled.2.1
      have hn' : (s.vnodes p).priv = some n := hn
      have hpf : (s.vnodes p).ops = some .fat32 := hops.trans hf
      cases hv : v.priv with
      | none => simp [object, hpf, hn', hd, hf, hv] at hobj
      | some k => simp [object, hpf, hn', hd, hf, hv, hvd] at hobj
    · rw [hobj]
      simp only [object, spot]
      cases hv : v.ops with
      | none => cases v.priv <;> rfl
      | some fs =>
        cases fs with
        | fat32 => exact absurd hv hf
        | xv6fs => cases v.priv <;> rfl
        | ext2 => cases v.priv <;> rfl

/-- In a configuration whose mountpoints are apart, absolute walks end on uncovered vnodes. -/
theorem World.uncovered (h : World c y) {cwd : Option Nat} (habs : path.head? = some slash) :
    ∃ r s', vfsNamei c cwd path y.vfs = some (r, s') ∧
      ∀ vp, r = some vp → ∀ m, ¬ MountedOn c y.vfs m (s'.vnodes vp) := by
  cases hT : y.vfs.mounttable with
  | nil =>
    refine ⟨none, y.vfs, ?_, by simp⟩
    simp [vfsNamei, pathStart, habs, hT]
  | cons m0 ms =>
    have hcfg := h.config (by simp [hT])
    have hstart : pathStart path cwd y.vfs = pathStart path none y.vfs := by simp [pathStart, habs]
    have hnamei : vfsNamei c cwd path y.vfs = vfsNamei c none path y.vfs := by
      simp only [vfsNamei, hstart]
    have hnone : ∀ i, (none : Option Nat) = some i →
        0 < refs y.vfs i ∧ ∃ m ∈ y.vfs.mounttable, (y.vfs.vnodes i).mp = some m := by simp
    obtain ⟨r, s', h1, -, -, h4⟩ :=
      vfsNamei_follow hcfg (real_closed hcfg h.dots) (Above.refl h.tidy.filled) h.real hnone path
    refine ⟨r, s', hnamei.trans h1, fun vp hvp m hm => ?_⟩
    obtain ⟨v, h5, h6⟩ := h4 vp hvp
    have hm0 : m0 ∈ y.vfs.mounttable := by simp [hT]
    have hvis : Vis c y.vfs m0 := Vis.first (by simp [hT])
    obtain ⟨mt0, fs0, r0, e1, e2, e3⟩ := root_pos hcfg h.apart hm0 hvis
    have hlead : trek c y.vfs (spot (y.vfs.vnodes r0)) (components path) = some v := by
      simpa [leads, pathStart, habs, hT, e2, e1] using h5
    obtain ⟨m', mt', fs', hpos⟩ := trek_pos hcfg h.apart h.dots (components path) e3 hlead
    have hm' := mountedOn_spot hcfg hm
    rw [h6.here] at hm'
    exact hpos.not_mountedOn hcfg hm'

/-- Over devices that hold trees, in every run whose mounts are well placed and whose unmounts are of
idle file systems, every absolute path walk comes back, and never with a covered directory. -/
theorem walk_never_ends_covered (c : Content) (htrees : Trees c) (pages : Nat) (ops : List Op)
    (hok : Run.Meets exec (fun y op => op.placed c y) ops (vfsInit pages)) :
    ∃ y, Run.run exec ops (vfsInit pages) = some y ∧ ∀ cwd path, path.head? = some slash →
      ∃ r s', vfsNamei c cwd path y.vfs = some (r, s') ∧
        ∀ vp, r = some vp → ∀ m, ¬ MountedOn c y.vfs m (s'.vnodes vp) := by
  obtain ⟨y, h1, h2⟩ := run_world htrees (vfsInit_world c pages) hok
  exact ⟨y, h1, fun cwd path habs => h2.uncovered habs⟩

/-- `Fit`, computed. -/
def fitNow (c : Content) (s : State) (u : Vnode) : Bool :=
  (s.mounttable.all fun m => ((s.mounts m).bind Mount.root).all fun r =>
    !decide (u.dev = (s.vnodes r).dev ∧ u.ops = (s.vnodes r).ops ∧ object c u = object c (s.vnodes r))) &&
  (decide (u.ops ≠ some .fat32) ||
    decide (dirId c u ≠ c.rootClus u.dev) &&
    ((c.search u.dev (dirId c u) dotdot).any fun x =>
      decide (u.inum = if x.node = 0 then c.rootClus u.dev else x.node)) &&
    s.mounttable.all fun m => (mpointOf s m).all fun p => decide ((s.vnodes p).dev = u.dev →
      (s.vnodes p).inum ≠ dirId c u ∧ u.inum ≠ dirId c (s.vnodes p)))

theorem World.fit (h : World c y) {u : Vnode} (hb : fitNow c y.vfs u = true) : Fit c y.vfs u := by
  simp only [fitNow, Bool.and_eq_true, Bool.or_eq_true, decide_eq_true_eq] at hb
  obtain ⟨h1, h2⟩ := hb
  refine ⟨fun m mt r hm hr hsame => ?_, fun hf => ?_, fun hf m p hp => ?_⟩
  · have h3 := all_eq_true.mp h1 m (h.tidy.only m (by simp [hm]))
    obtain ⟨h4, h5, h6⟩ := hsame
    simp [hm, hr, h4, h5, h6] at h3
  · obtain ⟨⟨h3, h4⟩, -⟩ := h2.resolve_left (not_not.mpr hf)
    obtain ⟨x, h5, h6⟩ := (any_eq_true _ _).mp h4
    exact ⟨by simpa [rootId] using h3, x, h5, by simpa using h6⟩
  · obtain ⟨-, h3⟩ := h2.resolve_left (not_not.mpr hf)
    obtain ⟨mt, hm, -⟩ := bind_eq_some_iff.mp hp
    have h4 := all_eq_true.mp h3 m (h.tidy.only m (by simp [hm]))
    simpa only [hp, all_some, decide_eq_true_eq] using h4

/-- `Op.placed`, computed, for an operation over the devices `c`. -/
def placedNow (c : Content) (y : Sys) (op : Op) : Bool :=
  op.calmNow y &&
  match op with
  | .mount _ cwd path _ fs _ => (decide (fs = some .xv6fs) == decide (y.vfs.mounttable = [])) &&
      (decide (y.vfs.mounttable ≠ []) || decide (path = [slash])) &&
      (decide (path = [slash]) || (leads c y.vfs cwd path).all (fitNow c y.vfs))
  | .open _ _ _ mode => !mode.testBit oCreate
  | .lookup _ d _ => decide ((y.vfs.vnodes d).type = .dir)
  | _ => true

/-- The operation reads the devices `c`. -/
def Op.reads (c : Content) : Op → Prop
  | .mount c' _ _ _ _ _ => c' = c
  | .namei c' _ _ => c' = c
  | .open c' _ _ _ => c' = c
  | .lookup c' _ _ => c' = c
  | _ => True

theorem World.placed (h : World c y) {op : Op} (hc : op.reads c) (hb : placedNow c y op = true) : op.placed c y := by
  simp only [placedNow, Bool.and_eq_true] at hb
  obtain ⟨h1, h2⟩ := hb
  have hup : op.upFound y := by
    cases op with
    | mount c' cwd path dev fs addr =>
      obtain rfl : c' = c := hc
      exact h.upFound
    | namei c' cwd path =>
      obtain rfl : c' = c := hc
      exact h.upFound
    | «open» c' cwd path mode =>
      obtain rfl : c' = c := hc
      exact h.upFound
    | _ => trivial
  have hcalm := h.tidy.calm hup h1
  refine ⟨hcalm.legal, hcalm.idle, ?_⟩
  cases op with
  | mount c' cwd path dev fs addr =>
    simp only [Bool.and_eq_true, Bool.or_eq_true, decide_eq_true_eq, beq_iff_eq] at h2
    obtain ⟨⟨h3, h4⟩, h5⟩ := h2
    refine ⟨hc, by simpa using h3, fun he => h4.resolve_left (not_not.mpr he), fun hne u hu => ?_⟩
    have h6 := h5.resolve_left hne
    rw [hu] at h6
    exact h.fit h6
  | namei c' cwd path => exact hc
  | «open» c' cwd path mode => exact ⟨hc, by simpa using h2⟩
  | lookup c' d name => exact ⟨hc, by simpa using h2⟩
  | _ => trivial

theorem World.meets (htrees : Trees c) (h : World c y) (hc : ∀ op ∈ ops, op.reads c)
    (hb : Run.check exec (placedNow c) ops y = true) : Run.Meets exec (fun y op => op.placed c y) ops y := by
  induction ops generalizing y with
  | nil => trivial
  | cons op ops ih =>
    simp only [Run.check, Bool.and_eq_true] at hb
    have hop := h.placed (hc op mem_cons_self) hb.1
    obtain ⟨y', h1, h2⟩ := exec_world htrees h hop
    refine ⟨hop, fun z hz => ?_⟩
    obtain rfl : y' = z := some.inj (h1.symm.trans hz)
    refine ih h2 (fun b hb' => hc b (mem_cons_of_mem op hb')) ?_
    simpa [h1] using hb.2

/-- The entries of three devices: xv6fs with "f" and "a", FAT32 with "a/b", and ext2 with "x". -/
def groveEntries : List ((Nat × Nat × Name) × Hit) :=
  [((1, 1, dotdot), ⟨1, 0, .dir, 0, 0, 64⟩), ((1, 1, [102]), ⟨5, 0, .dir, 0, 0, 64⟩),
   ((1, 5, dotdot), ⟨1, 0, .dir, 0, 0, 64⟩), ((1, 1, [97]), ⟨6, 0, .dir, 0, 0, 64⟩),
   ((1, 6, dotdot), ⟨1, 0, .dir, 0, 0, 64⟩),
   ((2, 2, [97]), ⟨3, 0, .dir, 0, 0, 0⟩), ((2, 3, dotdot), ⟨0, 32, .dir, 0, 0, 0⟩),
   ((2, 3, [98]), ⟨4, 64, .dir, 0, 0, 0⟩), ((2, 4, dotdot), ⟨3, 32, .dir, 0, 0, 0⟩),
   ((3, 2, dotdot), ⟨2, 0, .dir, 0, 0, 1024⟩), ((3, 2, [120]), ⟨7, 0, .dir, 0, 0, 1024⟩),
   ((3, 7, dotdot), ⟨2, 0, .dir, 0, 0, 1024⟩)]

def grove : Content where
  search dev node name := (groveEntries.find? fun e => e.1 = (dev, node, name)).map Prod.snd
  rootClus _ := 2
  image dev fs := if (dev, fs) ∈ [(1, FsType.xv6fs), (2, .fat32), (3, .ext2)] then some (.dir, 1024) else none
  create _ _ _ := none

theorem grove_mem {n : Nat} {name : Name} {x : Hit} (h : grove.search dev n name = some x) :
    ((dev, n, name), x) ∈ groveEntries := by
  obtain ⟨e, h1, rfl⟩ := map_eq_some_iff.mp h
  have h2 : e.1 = (dev, n, name) := by simpa using find?_some h1
  have h3 := mem_of_find?_eq_some h1
  obtain ⟨k, x⟩ := e
  exact h2 ▸ h3

theorem grove_inodeTree {root : Nat}
    (htop : (grove.search dev root dotdot).any fun u => decide (u.node = root ∧ u.type = .dir))
    (hparent : groveEntries.all fun e => decide (e.1.1 = dev → e.1.2.2 ≠ dotdot → e.2.node ≠ root ∧
      (grove.search dev e.2.node dotdot).any fun u => decide (u.node = e.1.2.1 ∧ u.type = .dir))) :
    InodeTree grove dev root := by
  have htypes : ∀ e ∈ groveEntries, e.2.type = .dir := by decide
  have hchild : ∀ n name h, Ordinary name → grove.search dev n name = some h → h.node ≠ root ∧
      (grove.search dev h.node dotdot).any fun u => decide (u.node = n ∧ u.type = .dir) := by
    intro n name h hord hs
    have h1 := all_eq_true.mp hparent _ (grove_mem hs)
    exact of_decide_eq_true h1 rfl hord.2
  refine ⟨fun n name h hord hs _ => ?_, ?_, fun n name h hord hs => (hchild n name h hord hs).1,
    fun n name h n' name' h' hs hs' _ => ?_⟩
  · obtain ⟨u, h1, h2⟩ := (any_eq_true _ _).mp (hchild n name h hord hs).2
    exact ⟨u, h1, of_decide_eq_true h2⟩
  · obtain ⟨u, h1, h2⟩ := (any_eq_true _ _).mp htop
    exact ⟨u, h1, of_decide_eq_true h2⟩
  · exact (htypes _ (grove_mem hs)).trans (htypes _ (grove_mem hs')).symm

theorem grove_fatTree : FatTree grove 2 := by
  have hall : ∀ e ∈ groveEntries, e.1.1 = 2 → e.1.2.1 ≠ 0 ∧ (e.1.2.1 = 2 → e.1.2.2 ≠ dot ∧ e.1.2.2 ≠ dotdot) ∧
      (e.1.2.2 ≠ dotdot → e.2.node ≠ 0 ∧ e.2.node ≠ 2 ∧ (grove.search 2 e.2.node dotdot).any fun u =>
        decide (u.type = .dir ∧ (if u.node = 0 then 2 else u.node) = e.1.2.1)) := by
    decide +kernel
  have hslots : ∀ e ∈ groveEntries, ∀ e' ∈ groveEntries, e.1.1 = 2 → e'.1.1 = 2 → e.1.2.1 = e'.1.2.1 →
      e.2.off = e'.2.off → e.2.type = e'.2.type ∧ e.2.node = e'.2.node := by
    decide +kernel
  refine ⟨by decide, fun name => ?_, fun name hno => ?_, fun n name h hord hs _ => ?_,
    fun n name h name' h' hs hs' ho => hslots _ (grove_mem hs) _ (grove_mem hs') rfl rfl rfl ho⟩
  · by_contra hne
    obtain ⟨x, hx⟩ := ne_none_iff_exists'.mp hne
    exact (hall _ (grove_mem hx) rfl).1 rfl
  · by_contra hne
    obtain ⟨x, hx⟩ := ne_none_iff_exists'.mp hne
    exact hno ((hall _ (grove_mem hx) rfl).2.1 rfl)
  · obtain ⟨h1, h2, h3⟩ := (hall _ (grove_mem hs) rfl).2.2 hord.2
    obtain ⟨u, h4, h5⟩ := (any_eq_true _ _).mp h3
    exact ⟨h1, h2, u, h4, of_decide_eq_true h5⟩

theorem grove_image {fs : FsType} {x : VType × Nat} (h : grove.image dev fs = some x) :
    x.1 = .dir ∧ ((dev = 1 ∧ fs = .xv6fs) ∨ (dev = 2 ∧ fs = .fat32) ∨ (dev = 3 ∧ fs = .ext2)) := by
  simp only [grove] at h
  split at h
  case isTrue hmem =>
    cases h
    exact ⟨rfl, by simpa using hmem⟩
  · cases h

theorem grove_trees : Trees grove := by
  have hdots : ∀ e ∈ groveEntries, e.1.2.2 ≠ dot ∧
      (e.1.1 ≠ 2 → e.1.2.2 = dotdot → (grove.search e.1.1 e.2.node dotdot).isSome) := by
    decide +kernel
  have hloops : ∀ e ∈ groveEntries, e.1.2.2 = dotdot → e.1.1 = 2 →
      (if e.2.node = 0 then 2 else e.2.node) ≠ e.1.2.1 := by
    decide +kernel
  refine ⟨fun dev fs x h => ?_, fun dev fs x h => (grove_image h).1, fun dev fs x h hne => ⟨fun n u hu => ?_,
    fun n u hu => ?_⟩, fun dev x n k h hp => ?_⟩
  · rcases (grove_image h).2 with ⟨rfl, rfl⟩ | ⟨rfl, rfl⟩ | ⟨rfl, rfl⟩
    · exact grove_inodeTree (by decide +kernel) (by decide +kernel)
    · exact grove_fatTree
    · exact grove_inodeTree (by decide +kernel) (by decide +kernel)
  · exact absurd rfl (hdots _ (grove_mem hu)).1
  · refine (hdots _ (grove_mem hu)).2 (fun h2 => hne ?_) rfl
    have h2' : dev = 2 := h2
    rcases (grove_image h).2 with ⟨rfl, rfl⟩ | ⟨rfl, rfl⟩ | ⟨rfl, rfl⟩
    · cases h2'
    · rfl
    · cases h2'
  · obtain ⟨-, u, hu, rfl⟩ := hp
    rcases (grove_image h).2 with ⟨rfl, h3⟩ | ⟨rfl, -⟩ | ⟨rfl, h3⟩
    · cases h3
    · have := hloops _ (grove_mem hu) rfl rfl
      simpa [grove] using this
    · cases h3

/-- FAT32 on "/f", ext2 on the FAT32 directory "/f/a"; the latter is unmounted and mounted on "/a",
and a path through ".." is opened. -/
def wellPlaced : List Op :=
  [.mount grove none [47] 1 (some .xv6fs) 10,
   .mount grove none [47, 102] 2 (some .fat32) 11,
   .mount grove none [47, 102, 47, 97] 3 (some .ext2) 12,
   .umount [47, 102, 47, 97],
   .mount grove none [47, 102, 47, 46, 46, 47, 97] 3 (some .ext2) 12,
   .namei grove none [47, 97, 47, 46, 46, 47, 102, 47, 97, 47, 98]]

theorem wellPlaced_uncovered : ∃ y, Run.run exec wellPlaced (vfsInit 100) = some y ∧
    ∀ cwd path, path.head? = some slash → ∃ r s', vfsNamei grove cwd path y.vfs = some (r, s') ∧
      ∀ vp, r = some vp → ∀ m, ¬ MountedOn grove y.vfs m (s'.vnodes vp) := by
  refine walk_never_ends_covered grove grove_trees 100 wellPlaced ?_
  refine (vfsInit_world grove 100).meets grove_trees (fun op hop => ?_) (by decide +kernel)
  simp only [wellPlaced, mem_cons, not_mem_nil, or_false] at hop
  rcases hop with rfl | rfl | rfl | rfl | rfl | rfl
  · rfl
  · rfl
  · rfl
  · trivial
  · rfl
  · rfl

theorem covered_of_run
    (h : ((Run.run exec ops (vfsInit 100)).bind fun y => (vfsNamei grove none path y.vfs).bind fun w => w.1.bind
      fun vp => (mpointOf y.vfs m).map fun p => decide (m ∈ y.vfs.mounttable.tail ∧
      (y.vfs.vnodes p).dev = (w.2.vnodes vp).dev ∧ (y.vfs.vnodes p).ops = (w.2.vnodes vp).ops ∧
      object grove (y.vfs.vnodes p) = object grove (w.2.vnodes vp))) = some true) :
    ∃ y vp s', Run.run exec ops (vfsInit 100) = some y ∧
      vfsNamei grove none path y.vfs = some (some vp, s') ∧ MountedOn grove y.vfs m (s'.vnodes vp) := by
  obtain ⟨y, hy, h⟩ := bind_eq_some_iff.mp h
  obtain ⟨⟨r, s'⟩, hw, h⟩ := bind_eq_some_iff.mp h
  obtain ⟨vp, hr, h⟩ := bind_eq_some_iff.mp h
  obtain ⟨p, hp, h⟩ := map_eq_some_iff.mp h
  obtain rfl : r = some vp := hr
  obtain ⟨h1, h2⟩ := of_decide_eq_true h
  exact ⟨y, vp, s', hy, hw, h1, p, hp, h2⟩

/-- A mount on "//" covers the root, and the walk of "/" ends there. A mount on "/a/" covers the root
of the mount on "/a", and the walk of "/a" ends there. A mount on "/f/a/b/.." of a FAT32 volume covers
"/f/a" under the cluster of "b", and the walk of "/f/a" ends there. -/
theorem walk_ends_covered :
    (∃ y vp s', Run.run exec [.mount grove none [47] 1 (some .xv6fs) 10,
        .mount grove none [47, 47] 3 (some .ext2) 12] (vfsInit 100) = some y ∧
      vfsNamei grove none [47] y.vfs = some (some vp, s') ∧ MountedOn grove y.vfs 12 (s'.vnodes vp)) ∧
    (∃ y vp s', Run.run exec [.mount grove none [47] 1 (some .xv6fs) 10,
        .mount grove none [47, 97] 3 (some .ext2) 12,
        .mount grove none [47, 97, 47] 2 (some .fat32) 11] (vfsInit 100) = some y ∧
      vfsNamei grove none [47, 97] y.vfs = some (some vp, s') ∧ MountedOn grove y.vfs 11 (s'.vnodes vp)) ∧
    ∃ y vp s', Run.run exec [.mount grove none [47] 1 (some .xv6fs) 10,
        .mount grove none [47, 102] 2 (some .fat32) 11,
        .mount grove none [47, 102, 47, 97, 47, 98, 47, 46, 46] 3 (some .ext2) 12] (vfsInit 100) = some y ∧
      vfsNamei grove none [47, 102, 47, 97] y.vfs = some (some vp, s') ∧
      MountedOn grove y.vfs 12 (s'.vnodes vp) :=
  ⟨covered_of_run (by decide +kernel), covered_of_run (by decide +kernel),
    covered_of_run (by decide +kernel)⟩


end Xv6Vfs.Vfs
