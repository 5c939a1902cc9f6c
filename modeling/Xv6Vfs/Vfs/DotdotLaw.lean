import Xv6Vfs.Vfs.Dotdot

/-! The dot-dot law for `vfs_namei` itself. -/
namespace Xv6Vfs.Vfs
open List Option

section Law

variable {c : Content} {s : State}

theorem trek_append (v : Vnode) (names names' : List Name) :
    trek c s v (names ++ names') = (trek c s v names).bind fun w => trek c s w names' := by
  induction names generalizing v with
  | nil => rfl
  | cons x names ih =>
    simp only [cons_append, trek]
    cases hop c s v x with
    | none => rfl
    | some w => exact ih w

theorem trek_ordinary (v : Vnode) (names : List Name) (hord : ∀ n ∈ names, Ordinary n) :
    trek c s v names = place c s v names := by
  induction names generalizing v with
  | nil => rfl
  | cons x names ih =>
    have hx : hop c s v x = descend c s v x := if_neg (hord x mem_cons_self).2
    simp only [trek, place, hx]
    cases descend c s v x with
    | none => rfl
    | some w => exact ih w fun n hn => hord n (mem_cons_of_mem x hn)

/-- What lies on the way to a directory is a directory. -/
theorem place_take_dir (v : Vnode) (names : List Name) {w u : Vnode} (hw : place c s v names = some w)
    (hwd : w.type = .dir) (j : Nat) (hu : place c s v (names.take j) = some u) : u.type = .dir := by
  induction names generalizing v j with
  | nil =>
    rw [take_nil, hw] at hu
    exact some.inj hu ▸ hwd
  | cons x names ih =>
    obtain ⟨t, h1, h2⟩ := bind_eq_some_iff.mp hw
    cases j with
    | zero =>
      cases hu
      unfold descend at h1
      split at h1
      · simp at h1
      case isFalse hd => exact not_not.mp hd
    | succ j =>
      rw [take_succ_cons, place, h1] at hu
      exact ih t h2 j hu

theorem place_take_some (v : Vnode) (names : List Name) {w : Vnode}
    (hw : place c s v names = some w) (j : Nat) : ∃ u, place c s v (names.take j) = some u := by
  induction names generalizing v j with
  | nil => exact ⟨w, by rw [take_nil, hw]⟩
  | cons x names ih =>
    obtain ⟨t, h1, h2⟩ := bind_eq_some_iff.mp hw
    cases j with
    | zero => exact ⟨v, rfl⟩
    | succ j =>
      rw [take_succ_cons, place, h1]
      exact ih t h2 j

/-- For a directory the spot tells what it is. -/
theorem sameObject_spot {v w : Vnode} (hv : v.type = .dir) : SameObject c (spot w) v ↔ SameObject c w v := by
  refine and_congr Iff.rfl (and_congr_right fun hops => ?_)
  have hops' : w.ops = v.ops := hops
  by_cases hcase : w.ops = some .fat32 ∧ w.type ≠ .dir
  · have hvf : v.ops = some .fat32 := hops' ▸ hcase.1
    simp only [object, spot, hcase.1, hcase.2, hvf, hv, if_true, if_false]
    cases w.priv <;> cases v.priv <;> simp
  · have h1 : object c (spot w) = object c w := by
      unfold object
      simp only [spot]
      split
      case h_1 h2 _ =>
        have h3 : w.type = .dir := by
          by_contra h4
          exact hcase ⟨h2, h4⟩
        simp [h3]
      · rfl
      · rfl
    rw [h1]

/-- `P` followed by `k` copies of "/.." resolves to the directory its components without the
last `k` lead to. -/
def DotdotAt (c : Content) (s : State) (cwd : Option Nat) (path : List UInt8) (v0 : Vnode)
    (k : Nat) : Prop :=
  ∃ vp s' v, vfsNamei c cwd (path ++ ups k) s = some (some vp, s') ∧
    place c s v0 ((components path).take ((components path).length - k)) = some v ∧
    SameObject c (s'.vnodes vp) v

theorem Config.top (hcfg : Config c s) {v0 : Vnode} (hv0 : rootSpot s = some v0) : ∃ m0 mt0, Top c s v0 m0 mt0 := by
  obtain ⟨m, ms, mt, h1, h2, h3, h4⟩ := hcfg.first
  have hmem : m ∈ s.mounttable := by
    simp [h1]
  obtain ⟨mt', fs, r, h5, h6, h7, h8, h9, h10, -, -⟩ := hcfg.root_on hmem
  obtain rfl : mt = mt' := some.inj (h2.symm.trans h8.alloc)
  obtain rfl : fs = .xv6fs := some.inj (h6.symm.trans h3)
  obtain rfl : spot (s.vnodes r) = v0 := by
    simpa [rootSpot, pathStart, h1, h2, h5] using hv0
  exact ⟨m, mt, h8, h3, h4, h9, h10⟩

/-- For every mount configuration and every absolute path of ordinary components to a directory:
"/.." drops the last component, any number of times, if and only if nothing is mounted on the
root and the way is plain. -/
theorem dotdot_law_iff (c : Content) (s : State) (cwd : Option Nat) (path : List UInt8) (v0 : Vnode) (vp : Nat)
    (s1 : State) (hcfg : Config c s) (hroom : Room s) (habs : path.head? = some slash)
    (hord : ∀ n ∈ components path, Ordinary n) (hv0 : rootSpot s = some v0)
    (hres : vfsNamei c cwd path s = some (some vp, s1)) (hdir : (s1.vnodes vp).type = .dir) :
    (∀ k, DotdotAt c s cwd path v0 k) ↔
      vfsLookupMount s v0 = none ∧ PlainWay c s v0 (components path) := by
  obtain ⟨m0, mt0, h0⟩ := hcfg.top hv0
  obtain ⟨v, hplace, hvd⟩ : ∃ v, place c s v0 (components path) = some v ∧ v.type = .dir := by
    obtain ⟨r, s', h1, h2⟩ := vfsNamei_sim hcfg hroom cwd habs hv0
    cases hres.symm.trans h1
    rcases h2 with ⟨h3, -⟩ | ⟨vp', v, h3, h4, rfl⟩
    · simp at h3
    · cases h3
      exact ⟨_, (trek_ordinary v0 _ hord).symm.trans h4, hdir⟩
  have key : ∀ k, DotdotAt c s cwd path v0 k ↔ ∃ wk u,
      trek c s v (List.replicate k dotdot) = some wk ∧
      place c s v0 ((components path).take ((components path).length - k)) = some u ∧
      SameObject c wk u := by
    intro k
    have hhead : (path ++ ups k).head? = some slash := by
      cases path with
      | nil => simp at habs
      | cons a l => simpa using habs
    have htrek : trek c s v0 (components (path ++ ups k)) =
        trek c s v (List.replicate k dotdot) := by
      rw [components_ups, trek_append, trek_ordinary v0 _ hord, hplace, bind_some]
    obtain ⟨r, s', h1, h2⟩ := vfsNamei_sim hcfg hroom cwd hhead hv0
    rw [htrek] at h2
    constructor
    · rintro ⟨vq, s'', u, h3, h4, h5⟩
      cases h3.symm.trans h1
      rcases h2 with ⟨h6, -⟩ | ⟨vq', wk, h6, h7, rfl⟩
      · simp at h6
      · cases h6
        exact ⟨_, u, h7, h4, (sameObject_spot (place_take_dir v0 _ hplace hvd _ h4)).mpr h5⟩
    · rintro ⟨wk, u, h3, h4, h5⟩
      rcases h2 with ⟨-, h6⟩ | ⟨vq', wk', rfl, h7, rfl⟩
      · rw [h3] at h6
        simp at h6
      · cases h3.symm.trans h7
        exact ⟨vq', s', u, h1, h4, (sameObject_spot (place_take_dir v0 _ hplace hvd _ h4)).mp h5⟩
  constructor
  · intro hall
    obtain ⟨m, mt, hon⟩ := place_on hcfg h0.on _ hplace
    exact plain_of_returns hcfg h0 _ hord hplace hvd hon fun k => (key k).mp (hall k)
  · rintro ⟨hroot, hplain⟩ k
    have h1 := trek_ups hcfg h0 hroot _ hord hplain hplace hvd k
    obtain ⟨u, hu⟩ : ∃ u, place c s v0
        ((components path).take ((components path).length - k)) = some u :=
      place_take_some v0 _ hplace _
    exact (key k).mpr ⟨u, u, h1.trans hu, hu, rfl, rfl, rfl⟩

end Law

/-- Device 1 is xv6fs with directories "/f" (inode 5) and "/a" (inode 2); device 2 is FAT32 with
one directory "a" (cluster 3) in its root (cluster 2). -/
def twoTrees : Content where
  search dev node name :=
    match dev, node, name with
    | 1, 1, [102] => some ⟨5, 0, .dir, 0, 0, 32⟩
    | 1, 1, [97] => some ⟨2, 0, .dir, 0, 0, 32⟩
    | 1, 1, [46, 46] => some ⟨1, 0, .dir, 0, 0, 64⟩
    | 1, 5, [46, 46] => some ⟨1, 0, .dir, 0, 0, 64⟩
    | 1, 2, [46, 46] => some ⟨1, 0, .dir, 0, 0, 64⟩
    | 2, 2, [97] => some ⟨3, 0, .dir, 0, 0, 0⟩
    | 2, 3, [46, 46] => some ⟨2, 32, .dir, 0, 0, 0⟩
    | _, _, _ => none
  rootClus _ := 2
  image _ _ := some (.dir, 1024)
  create _ _ _ := none

/-- "/f/a/../.." with FAT32 mounted on "/f" resolves to the FAT32 root, not to "/". -/
theorem dotdot_stays_in_fat : ∃ y v0 vp s1,
    Run.run exec [.mount twoTrees none [47] 1 (some .xv6fs) 10,
      .mount twoTrees none [47, 102] 2 (some .fat32) 11] (vfsInit 100) = some y ∧
    rootSpot y.vfs = some v0 ∧
    vfsNamei twoTrees none [47, 102, 47, 97] y.vfs = some (some vp, s1) ∧
    (s1.vnodes vp).type = .dir ∧
    ¬ DotdotAt twoTrees y.vfs none [47, 102, 47, 97] v0 2 := by
  have h : ((Run.run exec [.mount twoTrees none [47] 1 (some .xv6fs) 10,
      .mount twoTrees none [47, 102] 2 (some .fat32) 11] (vfsInit 100)).map fun y =>
      ((rootSpot y.vfs).map Vnode.dev,
        (vfsNamei twoTrees none [47, 102, 47, 97] y.vfs).bind fun r =>
          r.1.map fun vp => (r.2.vnodes vp).type,
        (vfsNamei twoTrees none [47, 102, 47, 97, 47, 46, 46, 47, 46, 46] y.vfs).map fun r =>
          r.1.map fun vp => (r.2.vnodes vp).dev)) = some (some 1, some .dir, some (some 2)) := by
    decide +kernel
  obtain ⟨y, hy, he⟩ := map_eq_some_iff.mp h
  simp only [Prod.mk.injEq] at he
  obtain ⟨h1, h2, h3⟩ := he
  obtain ⟨v0, hv0, hdev0⟩ := map_eq_some_iff.mp h1
  obtain ⟨⟨r, s1⟩, hr, h2⟩ := bind_eq_some_iff.mp h2
  obtain ⟨vp, rfl, htype⟩ := map_eq_some_iff.mp h2
  refine ⟨y, v0, vp, s1, hy, hv0, hr, htype, ?_⟩
  rintro ⟨vq, s', v, hq, hv, hsame⟩
  have e1 : skipelem [47, 102, 47, 97] = some ([102], [97]) := by decide
  have e2 : skipelem [97] = some ([97], []) := by decide
  have hcomp : components [47, 102, 47, 97] = [[102], [97]] := by
    rw [components_some e1, components_some e2, components_none (by decide)]
  rw [hcomp] at hv
  obtain rfl : v0 = v := some.inj hv
  have hq' : vfsNamei twoTrees none [47, 102, 47, 97, 47, 46, 46, 47, 46, 46] y.vfs =
      some (some vq, s') := hq
  rw [hq'] at h3
  have hdev : (s'.vnodes vq).dev = 2 := by simpa using h3
  have := hsame.1
  rw [hdev, hdev0] at this
  simp at this

/-- On every device the root has one directory "a". The root's inode has the number of the device. -/
def sameTrees : Content where
  search dev node name :=
    if name = dotdot then some ⟨dev, 0, .dir, 0, 0, 64⟩
    else if node = dev ∧ name = [97] then some ⟨5, 0, .dir, 0, 0, 32⟩
    else none
  rootClus _ := 2
  image _ _ := some (.dir, 1024)
  create _ _ _ := none

/-- xv6fs on "/" and ext2 on "/a". -/
def ext2Below : State where
  vnodes i :=
    if i = 0 then rootVnode sameTrees .xv6fs 1 10 .dir 0
    else if i = 1 then rootVnode sameTrees .ext2 2 11 .dir 0
    else if i = 2 then vnodeOf .xv6fs (rootVnode sameTrees .xv6fs 1 10 .dir 0) ⟨5, 0, .dir, 0, 0, 32⟩ 5 0
    else emptyVnode
  mounts m :=
    if m = 10 then some ⟨true, some .xv6fs, some 0, none, 1, [47]⟩
    else if m = 11 then some ⟨true, some .ext2, some 1, some 2, 2, [47, 97]⟩
    else none
  mounttable := [10, 11]
  pages := 4

theorem sameTrees_search {dev node : Nat} {name : Name} {h : Hit} (hs : sameTrees.search dev node name = some h) :
    h.type = .dir ∧ (name = dotdot ∧ h.node = dev ∨ node = dev ∧ h.node = 5) := by
  unfold sameTrees at hs
  dsimp only at hs
  split_ifs at hs with h1 h2
  · cases hs
    exact ⟨rfl, .inl ⟨h1, rfl⟩⟩
  · cases hs
    exact ⟨rfl, .inr ⟨h2.1, rfl⟩⟩

theorem sameTrees_tree {dev : Nat} (hdev : dev ≠ 5) : InodeTree sameTrees dev dev := by
  refine ⟨?_, ⟨_, rfl, rfl, rfl⟩, ?_, ?_⟩
  · intro n name h hord hs _
    obtain ⟨-, ⟨h1, -⟩ | ⟨rfl, -⟩⟩ := sameTrees_search hs
    · exact absurd h1 hord.2
    · exact ⟨_, rfl, rfl, rfl⟩
  · intro n name h hord hs
    obtain ⟨-, ⟨h1, -⟩ | ⟨-, h2⟩⟩ := sameTrees_search hs
    · exact absurd h1 hord.2
    · exact fun he => hdev (he.symm.trans h2)
  · intro n name h n' name' h' hs hs' _
    rw [(sameTrees_search hs).1, (sameTrees_search hs').1]

theorem ext2Below_live {i : Nat} (h : 0 < refs ext2Below i) : i = 0 ∨ i = 1 ∨ i = 2 := by
  by_contra hne
  simp only [not_or] at hne
  simp [refs, ext2Below, hne, emptyVnode] at h

theorem ext2Below_mount {m : Nat} {mt : Mount} (h : ext2Below.mounts m = some mt) :
    m = 10 ∧ mt = ⟨true, some .xv6fs, some 0, none, 1, [47]⟩ ∨
      m = 11 ∧ mt = ⟨true, some .ext2, some 1, some 2, 2, [47, 97]⟩ := by
  unfold ext2Below at h
  dsimp only at h
  split_ifs at h with h1 h2
  · exact .inl ⟨h1, (some.inj h).symm⟩
  · exact .inr ⟨h2, (some.inj h).symm⟩

theorem ext2Below_filled : AllFilled ext2Below := by
  intro i hi
  rcases ext2Below_live hi with rfl | rfl | rfl
  · exact rootVnode_filled sameTrees .xv6fs 1 10 .dir 0
  · exact rootVnode_filled sameTrees .ext2 2 11 .dir 0
  · exact vnodeOf_filled (rootVnode_filled sameTrees .xv6fs 1 10 .dir 0) _ 5 0 fun _ => rfl

theorem ext2Below_config : Config sameTrees ext2Below where
  filled := ext2Below_filled
  only := by
    intro m hm
    obtain ⟨mt, hmt⟩ := isSome_iff_exists.mp hm
    rcases ext2Below_mount hmt with ⟨rfl, -⟩ | ⟨rfl, -⟩ <;> decide
  first := ⟨10, [11], _, rfl, rfl, rfl, rfl⟩
  mounted := by
    intro m hm
    rcases mem_cons.mp hm with rfl | hm
    · exact ⟨_, .xv6fs, 0, rfl, rfl, sameTrees_tree (by decide), rfl, by decide, rfl⟩
    · obtain rfl := mem_singleton.mp hm
      exact ⟨_, .ext2, 1, rfl, rfl, sameTrees_tree (by decide), rfl, by decide, rfl⟩
  devs := by
    intro m m' mt mt' h h' hd
    rcases ext2Below_mount h with ⟨rfl, rfl⟩ | ⟨rfl, rfl⟩ <;>
      rcases ext2Below_mount h' with ⟨rfl, rfl⟩ | ⟨rfl, rfl⟩ <;> first | rfl | cases hd
  points := by
    intro m p hp
    obtain ⟨mt, h1, h2⟩ := bind_eq_some_iff.mp hp
    rcases ext2Below_mount h1 with ⟨rfl, rfl⟩ | ⟨rfl, rfl⟩
    · cases h2
    · cases h2
      exact ⟨by decide, rfl, ⟨10, by decide, rfl, by decide⟩, fun _ _ => .inr rfl, fun hf => by cases hf⟩
  genuine := by
    intro i hi m hm hmp
    have hdir : (ext2Below.vnodes i).type = .dir ∧ (ext2Below.vnodes i).ops ≠ some .fat32 := by
      rcases ext2Below_live hi with rfl | rfl | rfl <;> exact ⟨rfl, by decide⟩
    refine ⟨?_, ext2Below_filled i hi, fun _ n name h hs _ => ?_, fun hf => absurd hf hdir.2,
      fun hf => absurd hf hdir.2⟩
    · rcases ext2Below_live hi with rfl | rfl | rfl <;> cases hmp <;> exact ⟨_, rfl, rfl, rfl⟩
    · rw [hdir.1]
      exact (sameTrees_search hs).1

/-- "/a/a" lies in the ext2 file system, and "/a/a/../.." is "/". -/
theorem dotdot_out_of_ext2 : ∃ v0 vp s1, rootSpot ext2Below = some v0 ∧
    vfsNamei sameTrees none [47, 97, 47, 97] ext2Below = some (some vp, s1) ∧ (s1.vnodes vp).dev = 2 ∧
    (∀ k, DotdotAt sameTrees ext2Below none [47, 97, 47, 97] v0 k) := by
  have h : ((vfsNamei sameTrees none [47, 97, 47, 97] ext2Below).bind fun r =>
      r.1.map fun vp => ((r.2.vnodes vp).type, (r.2.vnodes vp).dev)) = some (.dir, 2) := by
    decide +kernel
  obtain ⟨⟨r, s1⟩, hr, h2⟩ := bind_eq_some_iff.mp h
  obtain ⟨vp, rfl, hvp⟩ := map_eq_some_iff.mp h2
  obtain ⟨htype, hdev⟩ := Prod.mk.inj hvp
  have e1 : skipelem [47, 97, 47, 97] = some ([97], [97]) := by decide
  have e2 : skipelem [97] = some ([97], []) := by decide
  have hcomp : components [47, 97, 47, 97] = [[97], [97]] := by
    rw [components_some e1, components_some e2, components_none (by decide)]
  refine ⟨_, vp, s1, rfl, hr, hdev, ?_⟩
  refine (dotdot_law_iff sameTrees ext2Below none [47, 97, 47, 97] _ vp s1 ext2Below_config
    ⟨⟨3, 4, by decide, by decide, by decide, rfl, rfl⟩, by decide⟩ rfl ?_ rfl hr htype).mpr ?_
  · rw [hcomp]
    intro n hn
    obtain rfl : n = [97] := by simpa using hn
    exact ⟨by decide, by decide⟩
  · rw [hcomp]
    refine ⟨rfl, by decide, fun w hw => ?_⟩
    obtain rfl := some.inj hw
    exact ⟨fun _ => rfl, by decide, fun w _ => ⟨fun _ => rfl, trivial⟩⟩

end Xv6Vfs.Vfs
