import Xv6Vfs.Vfs.Tidy

/-! The mount table over whole runs: what it always looks like, what unmounting undoes, and that
no vnode outlives its mount. -/
namespace Xv6Vfs.Vfs
open List Option

variable {path : List UInt8}

variable {y z : Sys} {s1 : State}

theorem Tidy.path_unique (h : Tidy y) {m m' : Nat} {mt : Mount} (hm : y.vfs.mounts m = some mt)
    (hpath : mt.path = path) (hlen : path.length < 128) (hm' : pathIs y.vfs path m' = true) : m' = m := by
  unfold pathIs at hm'
  cases hmt : y.vfs.mounts m' with
  | none => simp [hmt] at hm'
  | some mt' =>
    simp only [hmt, decide_eq_true_eq] at hm'
    have h1 := h.short m' mt' hmt
    rw [take_of_length_le (by omega), take_of_length_le (by omega)] at hm'
    exact h.table.paths m' (h.only m' (by simp [hmt])) m (h.only m (by simp [hm])) mt' mt hmt hm
      (hm'.trans hpath.symm)

/-- `vfs_umount` of `path` in `z` brings back the table and the counts of `y`. -/
def Restores (path : List UInt8) (z y : Sys) : Prop :=
  ∃ t, vfsUmount path z.vfs = some (true, t) ∧ t.mounttable = y.vfs.mounttable ∧
    t.mounts = y.vfs.mounts ∧ ∀ i, refs t i = refs y.vfs i

/-- The newest mount is found by its path, and taken out again. -/
theorem Tidy.restores (h : Tidy y) (hz : Tidy z) {addr dev root : Nat} {fs : FsType} {mpoint : Option Nat}
    (ha : Added y.vfs addr dev path fs root mpoint s1) (hfree : y.vfs.mounts addr = none) (hlen : path.length < 128)
    (hne : y.vfs.mounttable ≠ []) (ht : z.vfs.mounttable = s1.mounttable) (hm : z.vfs.mounts = s1.mounts)
    (hheld : z.held.Perm y.held) : Restores path z y := by
  have htable : z.vfs.mounttable = y.vfs.mounttable ++ [addr] := ht.trans ha.table
  have hself : z.vfs.mounts addr = some ⟨true, some fs, some root, mpoint, dev, path.take 127⟩ := by
    rw [hm, ha.self]
  have hpath : path.take 127 = path := take_of_length_le (by omega)
  have hfind : pathIs z.vfs path addr = true := by
    simp [pathIs, hself, hpath]
  have hunique : ∀ m, pathIs z.vfs path m = true → m = addr :=
    fun m h1 => hz.path_unique hself hpath hlen h1
  have hnd := hz.table.nodup
  rw [htable] at hnd
  have hnot : addr ∉ y.vfs.mounttable := fun h1 =>
    disjoint_of_nodup_append hnd h1 (mem_singleton.mpr rfl)
  have htail : addr ∈ z.vfs.mounttable.tail := by
    rw [htable, tail_append_of_ne_nil hne]
    simp
  obtain ⟨b, t, h1, h2, h3⟩ := hz.umount_effect path
  cases b with
  | false =>
    exfalso
    rcases h2 rfl with ⟨-, h4⟩ | ⟨-, h4⟩
    · exact any_eq_false.mp h4 addr htail hfind
    · obtain ⟨m, h5, h6⟩ := (any_eq_true _ _).mp h4
      have h7 := hunique m h6
      rw [htable, head?_append_of_ne_nil _ hne] at h5
      exact hnot (h7 ▸ mem_of_mem_head? h5)
  | true =>
    obtain ⟨k, m, mt, hr⟩ := h3 rfl
    obtain rfl := hunique m hr.path
    obtain ⟨l1, l2, e1, -, e3⟩ := hr.split
    rw [htable] at e1
    obtain ⟨rfl, -, rfl⟩ := (append_cons_inj_of_notMem hnot not_mem_nil).mp e1
    have ht' : t.mounttable = y.vfs.mounttable := by
      rw [e3, append_nil]
    have hm' : t.mounts = y.vfs.mounts := by
      rw [hr.mounts, hm, ha.mounts, Function.update_idem, ← hfree, Function.update_eq_self]
    refine ⟨t, h1, ht', hm', fun i => ?_⟩
    rw [hz.removed_count hr, h.count, mountRefs_congr hm' ht', (hheld.append_right _).count_eq]

/-- Unmounting undoes a mount made in `y`, whatever happens in between, once the table is back and
the processes hold what they held. -/
def UmountInverts (y : Sys) : Prop :=
  ∀ c cwd path dev fs addr s1 later z, y.vfs.mounttable ≠ [] → Op.Calm y (.mount c cwd path dev fs addr) →
    vfsMount c cwd path dev fs addr y.vfs = some (true, s1) →
    Run.Meets exec (fun y op => op.Calm y) later ⟨s1, y.held⟩ →
    Run.run exec later ⟨s1, y.held⟩ = some z → z.vfs.mounttable = s1.mounttable →
    z.vfs.mounts = s1.mounts → z.held.Perm y.held → Restores path z y

theorem Tidy.inverts (h : Tidy y) : UmountInverts y := by
  intro c cwd path dev fs addr s1 later z hne hcalm hmount hlater hrun ht hm hheld
  obtain ⟨h1, h2, h3⟩ := hcalm.legal
  have h128 : path.take 128 = path := take_of_length_le (by omega)
  obtain ⟨b, s', h4, -, h6⟩ := vfsMount_effect h.sound hcalm.upFound (h.cwd_live h1) h2 path dev
    (fun he => ⟨(hcalm.rootOnly he).1, by rw [h128]; exact (hcalm.rootOnly he).2⟩)
  obtain ⟨rfl, rfl⟩ := Prod.mk.inj (some.inj (h4.symm.trans hmount))
  obtain ⟨fs', root, mpoint, rfl, ha⟩ := h6 rfl
  have hy1 : Tidy ⟨s', y.held⟩ := h.added ha h2 h3 fun he => (hcalm.rootOnly (congrArg some he)).1
  obtain ⟨z', h7, h8, -⟩ := run_tidy hy1 hlater
  cases h7.symm.trans hrun
  exact h.restores h8 ha h2 h3 hne ht hm hheld

/-- A run in which only idle file systems are unmounted, and ".." is found in every directory that
carries a mount, comes to its end. The table is then in order, every reference is owned by a
process or by a mount as its root or its mountpoint, the root mount has stayed, and unmounting
undoes mounting. -/
theorem mount_table_of_calm (pages : Nat) (ops : List Op)
    (hok : Run.Meets exec (fun y op => op.Calm y) ops (vfsInit pages)) :
    ∃ y, Run.run exec ops (vfsInit pages) = some y ∧ TableOk y.vfs ∧
      (∀ i, refs y.vfs i = (y.held ++ mountRefs y.vfs).count i) ∧
      (∀ u v x, ops = u ++ v → Run.run exec u (vfsInit pages) = some x → RootKept x.vfs y.vfs) ∧
      UmountInverts y := by
  obtain ⟨y, h1, h2, -⟩ := run_tidy (vfsInit_tidy pages) hok
  refine ⟨y, h1, h2.table, h2.count, fun u v x hsplit hx => ?_, h2.inverts⟩
  subst hsplit
  obtain ⟨hu, hv⟩ := Run.Meets.append.mp hok
  obtain ⟨x', h3, h4, -⟩ := run_tidy (vfsInit_tidy pages) hu
  obtain rfl := some.inj (h3.symm.trans hx)
  obtain ⟨y', h5, -, h6⟩ := run_tidy h4 (hv x' hx)
  rw [Run.run_append, hx, bind_some] at h1
  cases h5.symm.trans h1
  exact h6

/-- Directories "a" and "b" in the root of device 1, "x" in the roots of the others. -/
def nested : Content where
  search dev node name :=
    if name = dotdot then some ⟨if dev = 1 then 1 else 2, 0, .dir, 0, 0, 1024⟩
    else if (dev, node, name) = (1, 1, [97]) then some ⟨5, 0, .dir, 0, 0, 1024⟩
    else if (dev, node, name) = (1, 1, [98]) then some ⟨6, 0, .dir, 0, 0, 1024⟩
    else if (node, name) = (2, [120]) then some ⟨7, 0, .dir, 0, 0, 1024⟩
    else none
  rootClus _ := 2
  image _ _ := some (.dir, 1024)
  create _ _ _ := none

theorem nested_upFound (s : State) : UpFound nested s := by
  intro m mt p _ _ node _
  exact .inr rfl

/-- xv6fs on "/", ext2 on "/a" and FAT32 on "/a/x". -/
def nestedMounts : List Op :=
  [.mount nested none [47] 1 (some .xv6fs) 10,
   .mount nested none [47, 97] 2 (some .ext2) 11,
   .mount nested none [47, 97, 47, 120] 3 (some .fat32) 12]

/-- The directories, with a file that can be created. -/
def nestedFile : Content := { nested with create := fun _ _ _ => some (⟨9, 64, .file, 0, 0, 0⟩, true) }

/-- Create "/a/x/n", close it, and unmount from the inside out; then mount device 2 on "/b". -/
def innerFirst : List Op :=
  nestedMounts ++ [.open nestedFile none [47, 97, 47, 120, 47, 110] (1 <<< oCreate), .close 5,
    .umount [47, 97, 47, 120], .umount [47, 97], .mount nested none [47, 98] 2 (some .ext2) 13]

theorem innerFirst_calm : Run.Meets exec (fun y op => op.Calm y) innerFirst (vfsInit 100) := by
  refine (vfsInit_tidy 100).meets (fun op hop z => ?_) (by decide +kernel)
  simp only [innerFirst, nestedMounts, cons_append, nil_append, mem_cons, not_mem_nil, or_false] at hop
  rcases hop with rfl | rfl | rfl | rfl | rfl | rfl | rfl | rfl
  · exact nested_upFound z.vfs
  · exact nested_upFound z.vfs
  · exact nested_upFound z.vfs
  · exact nested_upFound z.vfs
  · trivial
  · trivial
  · trivial
  · exact nested_upFound z.vfs

theorem innerFirst_table : ∃ y, Run.run exec innerFirst (vfsInit 100) = some y ∧ TableOk y.vfs ∧
    (∀ i, refs y.vfs i = (y.held ++ mountRefs y.vfs).count i) ∧
    (∀ u v x, innerFirst = u ++ v → Run.run exec u (vfsInit 100) = some x → RootKept x.vfs y.vfs) ∧
    UmountInverts y :=
  mount_table_of_calm 100 innerFirst innerFirst_calm

/-- A directory "a" in every root, and no "..". -/
def noUp : Content where
  search _ _ name := if name = [97] then some ⟨5, 0, .dir, 0, 0, 1024⟩ else none
  rootClus := nested.rootClus
  image := nested.image
  create := nested.create

/-- Two ways to break the table. A process has "/a/x" as its directory, "/a" is unmounted under it, and the process
mounts on "..": the walk reads a `struct mount` that is freed. Or ".." is missing in "/a", on which ext2 is mounted: for
a mount on "/a/.." the walk comes back with the vnode it dropped at "a", and `vput` panics. -/
theorem table_breaks :
    (∃ y, Run.run exec [.mount nested none [47] 1 (some .xv6fs) 10, .mount nested none [47, 97] 2 (some .ext2) 11,
        .namei nested none [47, 97, 47, 120], .umount [47, 97]] (vfsInit 100) = some y ∧
      Op.legal (.mount nested (some 3) [46, 46] 3 (some .fat32) 12) y ∧
      exec (.mount nested (some 3) [46, 46] 3 (some .fat32) 12) y = none) ∧
    ∃ y, Run.run exec [.mount noUp none [47] 1 (some .xv6fs) 10,
        .mount noUp none [47, 97] 2 (some .ext2) 11] (vfsInit 100) = some y ∧
      Op.legal (.mount noUp none [47, 97, 47, 46, 46] 3 (some .fat32) 12) y ∧
      exec (.mount noUp none [47, 97, 47, 46, 46] 3 (some .fat32) 12) y = none := by
  constructor
  · have h : ((Run.run exec [.mount nested none [47] 1 (some .xv6fs) 10, .mount nested none [47, 97] 2 (some .ext2) 11,
        .namei nested none [47, 97, 47, 120], .umount [47, 97]] (vfsInit 100)).map fun y =>
        (cwdHeld (some 3) y.held, (y.vfs.mounts 12).isNone,
          (exec (.mount nested (some 3) [46, 46] 3 (some .fat32) 12) y).isNone)) = some (true, true, true) := by
      decide +kernel
    obtain ⟨y, hy, he⟩ := map_eq_some_iff.mp h
    simp only [Prod.mk.injEq, isNone_iff_eq_none] at he
    exact ⟨y, hy, ⟨he.1, he.2.1, by decide⟩, he.2.2⟩
  · have h : ((Run.run exec [.mount noUp none [47] 1 (some .xv6fs) 10,
        .mount noUp none [47, 97] 2 (some .ext2) 11] (vfsInit 100)).map fun y => ((y.vfs.mounts 12).isNone,
          (exec (.mount noUp none [47, 97, 47, 46, 46] 3 (some .fat32) 12) y).isNone)) = some (true, true) := by
      decide +kernel
    obtain ⟨y, hy, he⟩ := map_eq_some_iff.mp h
    simp only [Prod.mk.injEq, isNone_iff_eq_none] at he
    exact ⟨y, hy, ⟨rfl, he.1, by decide⟩, he.2⟩

/-- In such a run every vnode in use belongs to a valid mount of the table. -/
theorem no_vnode_outlives_its_mount (pages : Nat) (ops : List Op)
    (hok : Run.Meets exec (fun y op => op.Calm y) ops (vfsInit pages)) :
    ∃ y, Run.run exec ops (vfsInit pages) = some y ∧ ∀ i, 0 < refs y.vfs i →
      ∃ m mt, (y.vfs.vnodes i).mp = some m ∧ m ∈ y.vfs.mounttable ∧ y.vfs.mounts m = some mt ∧
        mt.valid = true := by
  obtain ⟨y, h1, h2, -⟩ := run_tidy (vfsInit_tidy pages) hok
  refine ⟨y, h1, fun i hi => ?_⟩
  obtain ⟨m, h3, h4⟩ := h2.mp i hi
  obtain ⟨mt, h5, h6, -⟩ := h2.table.valid m (h2.only m h4)
  exact ⟨m, mt, h3, h2.only m h4, h5, h6⟩

theorem innerFirst_belongs : ∃ y, Run.run exec innerFirst (vfsInit 100) = some y ∧
    ∀ i, 0 < refs y.vfs i → ∃ m mt, (y.vfs.vnodes i).mp = some m ∧ m ∈ y.vfs.mounttable ∧
      y.vfs.mounts m = some mt ∧ mt.valid = true :=
  no_vnode_outlives_its_mount 100 innerFirst innerFirst_calm

/-- "/a" is opened, and then unmounted: the open vnode, and the one that "/a/x" is mounted on,
belong to freed mounts. An xv6fs on "/a" leaves its root vnode behind even if nobody uses it, as xv6fs has no
`unmount`. -/
theorem busy_umount_leaves_vnodes :
    (∃ y, Run.run exec (nestedMounts ++ [.namei nested none [47, 97], .umount [47, 97]]) (vfsInit 100) = some y ∧
      (∃ i ∈ y.held, 0 < refs y.vfs i ∧ (y.vfs.vnodes i).mp = some 11) ∧
      (∃ i, mpointOf y.vfs 12 = some i ∧ 0 < refs y.vfs i ∧ (y.vfs.vnodes i).mp = some 11) ∧
      y.vfs.mounts 11 = none ∧ 11 ∉ y.vfs.mounttable) ∧
    ∃ y, Run.run exec [.mount nested none [47] 1 (some .xv6fs) 10, .mount nested none [47, 97] 2 (some .xv6fs) 11,
        .umount [47, 97]] (vfsInit 100) = some y ∧ y.held = [] ∧
      (∃ i, 0 < refs y.vfs i ∧ (y.vfs.vnodes i).mp = some 11) ∧ y.vfs.mounts 11 = none ∧ 11 ∉ y.vfs.mounttable := by
  constructor
  · have h : ((Run.run exec (nestedMounts ++ [.namei nested none [47, 97], .umount [47, 97]])
        (vfsInit 100)).map fun y => ((y.held, refs y.vfs 1, (y.vfs.vnodes 1).mp),
          (mpointOf y.vfs 12, refs y.vfs 4, (y.vfs.vnodes 4).mp),
          (y.vfs.mounts 11).isNone, y.vfs.mounttable)) =
        some (([1], 1, some 11), (some 4, 1, some 11), true, [10, 12]) := by
      decide +kernel
    obtain ⟨y, hy, he⟩ := map_eq_some_iff.mp h
    simp only [Prod.mk.injEq, isNone_iff_eq_none] at he
    obtain ⟨⟨h1, h2, h3⟩, ⟨h4, h5, h6⟩, h7, h8⟩ := he
    refine ⟨y, hy, ⟨1, by simp [h1], by omega, h3⟩, ⟨4, h4, by omega, h6⟩, h7, ?_⟩
    rw [h8]
    decide
  · have h : ((Run.run exec [.mount nested none [47] 1 (some .xv6fs) 10, .mount nested none [47, 97] 2 (some .xv6fs) 11,
        .umount [47, 97]] (vfsInit 100)).map fun y => (y.held, refs y.vfs 1, (y.vfs.vnodes 1).mp,
          (y.vfs.mounts 11).isNone, y.vfs.mounttable)) = some ([], 1, some 11, true, [10]) := by
      decide +kernel
    obtain ⟨y, hy, he⟩ := map_eq_some_iff.mp h
    simp only [Prod.mk.injEq, isNone_iff_eq_none] at he
    obtain ⟨h1, h2, h3, h4, h5⟩ := he
    refine ⟨y, hy, h1, ⟨1, by omega, h3⟩, h4, ?_⟩
    rw [h5]
    decide

end Xv6Vfs.Vfs
