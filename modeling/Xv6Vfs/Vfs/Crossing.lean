import Xv6Vfs.Vfs.MountRun

/-! When `cross_mount` is exact. Mountpoints are compared by device and inode number. That is
the identity of an xv6fs or ext2 directory; a FAT32 vnode carries there the first cluster of
the directory its entry lies in, which it shares with all its siblings. -/
namespace Xv6Vfs.Vfs
open List Option

variable {s : State} {v : Vnode}

/-- What a vnode stands for on its device: an inode, a FAT32 directory by its first cluster, or a
FAT32 file by the position of its entry. -/
inductive Object where
  | inode (n : Nat)
  | fatDir (clus : Nat)
  | fatFile (parent off : Nat)
deriving DecidableEq

/-- First cluster 0 in a FAT32 directory entry is the root directory. -/
def object (c : Content) (v : Vnode) : Option Object :=
  match v.ops, v.priv with
  | some .fat32, some clus =>
    if v.type = .dir then some (.fatDir (if clus = 0 then c.rootClus v.dev else clus))
    else some (.fatFile v.inum v.ikey)
  | some _, some n => some (.inode n)
  | _, _ => none

def SameObject (c : Content) (v w : Vnode) : Prop :=
  v.dev = w.dev ∧ v.ops = w.ops ∧ object c v = object c w

/-- Mount `m` was made on the very directory `v` denotes. -/
def MountedOn (c : Content) (s : State) (m : Nat) (v : Vnode) : Prop :=
  m ∈ s.mounttable.tail ∧ ∃ p, mpointOf s m = some p ∧ SameObject c (s.vnodes p) v

def CrossExact (c : Content) (s : State) (v : Vnode) : Prop :=
  ∀ m, vfsLookupMount s v = some m ↔ MountedOn c s m v

/-- Every mountpoint of `v`'s device that is a FAT32 directory, or of another file system type
than `v`, has the parent cluster (inode number) of `v` only if it is the directory `v` denotes,
and always then. -/
def ParentTells (c : Content) (s : State) (v : Vnode) : Prop :=
  ∀ m ∈ s.mounttable.tail, ∀ p, mpointOf s m = some p → (s.vnodes p).dev = v.dev →
    ((s.vnodes p).ops = some .fat32 ∨ (s.vnodes p).ops ≠ v.ops) →
    ((s.vnodes p).inum = v.inum ↔ SameObject c (s.vnodes p) v)

theorem covers_iff {m : Nat} :
    covers s v m = true ↔
      ∃ p, mpointOf s m = some p ∧ (s.vnodes p).dev = v.dev ∧ (s.vnodes p).inum = v.inum := by
  unfold covers mpointOf
  cases (s.mounts m).bind Mount.mountpoint <;> simp

/-- `vfs_lookup_mount` finds a mount exactly if it covers: no two mounts of the table do. -/
theorem vfsLookupMount_iff {held : List Nat} (h : Core s held) (v : Vnode) (m : Nat) :
    vfsLookupMount s v = some m ↔ m ∈ s.mounttable.tail ∧ covers s v m = true := by
  constructor
  · intro hm
    exact ⟨mem_of_find?_eq_some hm, find?_some hm⟩
  · rintro ⟨hm, hc⟩
    cases hf : vfsLookupMount s v with
    | none =>
      have := find?_eq_none.mp hf m hm
      exact absurd hc this
    | some m' =>
      obtain ⟨p, h1, h2, h3⟩ := covers_iff.mp hc
      obtain ⟨p', h4, h5, h6⟩ := covers_iff.mp (find?_some hf)
      have hm' := mem_of_find?_eq_some hf
      rw [h.distinct m hm m' hm' p p' h1 h4 (h2.trans h5.symm) (h3.trans h6.symm)]

theorem object_inode (c : Content) (h : Filled v) (hne : v.ops ≠ some .fat32) : object c v = some (.inode v.inum) := by
  have hp := h.2.2.2 hne
  unfold object
  cases ho : v.ops with
  | none => simp [Filled, ho] at h
  | some fs =>
    cases fs with
    | fat32 => exact absurd ho hne
    | xv6fs => simp [hp]
    | ext2 => simp [hp]

theorem sameObject_iff (c : Content) {w : Vnode} (hv : Filled v) (hw : Filled w) (hdev : v.dev = w.dev)
    (hops : v.ops = w.ops) (hne : v.ops ≠ some .fat32) : SameObject c v w ↔ v.inum = w.inum := by
  rw [SameObject, object_inode c hv hne, object_inode c hw (hops ▸ hne)]
  constructor
  · intro h
    simpa using h.2.2
  · intro h
    exact ⟨hdev, hops, by rw [h]⟩

/-- Exactness in terms of the table and the vnodes. -/
theorem crossExact_iff {held : List Nat} (h : Core s held) (c : Content) (hv : Filled v) :
    CrossExact c s v ↔ ParentTells c s v := by
  constructor
  · intro hx m hm p hp hdev _
    constructor
    · intro hi
      have h1 := (vfsLookupMount_iff h v m).mpr ⟨hm, covers_iff.mpr ⟨p, hp, hdev, hi⟩⟩
      obtain ⟨-, q, hq, hsame⟩ := (hx m).mp h1
      obtain rfl : p = q := some.inj (hp.symm.trans hq)
      exact hsame
    · intro hsame
      have h1 := (vfsLookupMount_iff h v m).mp ((hx m).mpr ⟨hm, p, hp, hsame⟩)
      obtain ⟨q, hq, -, hi⟩ := covers_iff.mp h1.2
      obtain rfl : p = q := some.inj (hp.symm.trans hq)
      exact hi
  · intro ht m
    have key : m ∈ s.mounttable.tail → ∀ p, mpointOf s m = some p → (s.vnodes p).dev = v.dev →
        ((s.vnodes p).inum = v.inum ↔ SameObject c (s.vnodes p) v) := by
      intro hm p hp hdev
      by_cases hcase : (s.vnodes p).ops = some .fat32 ∨ (s.vnodes p).ops ≠ v.ops
      · exact ht m hm p hp hdev hcase
      · simp only [not_or, not_not] at hcase
        have hfp := h.filled p (h.mpoint_live (mem_tail hm) hp)
        exact (sameObject_iff c hfp hv hdev hcase.2 hcase.1).symm
    rw [vfsLookupMount_iff h, covers_iff]
    constructor
    · rintro ⟨hm, p, hp, hdev, hi⟩
      exact ⟨hm, p, hp, (key hm p hp hdev).mp hi⟩
    · rintro ⟨hm, p, hp, hsame⟩
      exact ⟨hm, p, hp, hsame.1, (key hm p hp hsame.1).mpr hsame⟩

/-- In every reachable state and for every vnode a process has got hold of, `cross_mount` is
exact if and only if the parent cluster tells each mounted-on directory apart. -/
theorem cross_mount_exact_iff (pages : Nat) (ops : List Op) (y : Sys) (c : Content) (vp : Nat)
    (hup : Run.Meets exec (fun y op => op.upFound y) ops (vfsInit pages))
    (hrun : Run.run exec ops (vfsInit pages) = some y) (hvp : vp ∈ y.held) :
    CrossExact c y.vfs (y.vfs.vnodes vp) ↔ ParentTells c y.vfs (y.vfs.vnodes vp) := by
  have h := run_inv (vfsInit_inv pages) hup hrun
  exact crossExact_iff h.core c (h.core.filled vp (h.core.live (.inl hvp)))

/-- A FAT32 volume on device 2 with two directories "a" and "b" in its root, and "f" in the root
file system. Every directory has its "..". -/
def siblings : Content where
  search dev node name :=
    if name = dotdot then some ⟨1, 32, .dir, 0, 0, 0⟩
    else if (dev, node, name) = (1, 1, [102]) then some ⟨5, 0, .dir, 0, 0, 32⟩
    else if (dev, node, name) = (2, 2, [97]) then some ⟨3, 0, .dir, 0, 0, 0⟩
    else if (dev, node, name) = (2, 2, [98]) then some ⟨4, 32, .dir, 0, 0, 0⟩
    else none
  rootClus _ := 2
  image _ _ := some (.dir, 1024)
  create _ _ _ := none

theorem siblings_upFound (s : State) : UpFound siblings s := by
  intro m mt p _ _ node _
  exact .inr rfl

/-- Mount "/", then FAT32 on "/f" and ext2 on "/f/a"; open "/f" and look up "b" in it. -/
def mountOnFat : List Op :=
  [.mount siblings none [47] 1 (some .xv6fs) 10,
   .mount siblings none [47, 102] 2 (some .fat32) 11,
   .mount siblings none [47, 102, 47, 97] 3 (some .ext2) 12,
   .namei siblings none [47, 102], .lookup siblings 1 [98]]

theorem mountOnFat_upFound (y : Sys) : Run.Meets exec (fun y op => op.upFound y) mountOnFat y := by
  refine Run.Meets.of_forall (fun op hop z => ?_) y
  simp only [mountOnFat, mem_cons, not_mem_nil, or_false] at hop
  rcases hop with rfl | rfl | rfl | rfl | rfl
  · exact siblings_upFound z.vfs
  · exact siblings_upFound z.vfs
  · exact siblings_upFound z.vfs
  · exact siblings_upFound z.vfs
  · trivial

/-- "b" is taken for the mountpoint "a" beside it. -/
theorem sibling_crosses : ∃ y, Run.run exec mountOnFat (vfsInit 100) = some y ∧ 5 ∈ y.held ∧
    ¬ CrossExact siblings y.vfs (y.vfs.vnodes 5) := by
  have h : ((Run.run exec mountOnFat (vfsInit 100)).map fun y =>
      (decide (5 ∈ y.held), vfsLookupMount y.vfs (y.vfs.vnodes 5),
        (mpointOf y.vfs 12).map fun p => object siblings (y.vfs.vnodes p),
        object siblings (y.vfs.vnodes 5))) =
      some (true, some 12, some (some (.fatDir 3)), some (.fatDir 4)) := by
    decide +kernel
  obtain ⟨y, hy, he⟩ := map_eq_some_iff.mp h
  simp only [Prod.mk.injEq, decide_eq_true_eq, map_eq_some_iff] at he
  obtain ⟨hheld, hm, ⟨p, hp, hobj⟩, hobj5⟩ := he
  refine ⟨y, hy, hheld, fun hx => ?_⟩
  obtain ⟨-, q, hq, -, -, hsame⟩ := (hx 12).mp hm
  obtain rfl : p = q := some.inj (hp.symm.trans hq)
  rw [hobj, hobj5] at hsame
  simp at hsame

/-- Look up "f" in "/" as well. -/
def lookupMountpoint : List Op := mountOnFat ++ [.namei siblings none [47], .lookup siblings 0 [102]]

/-- The root of the FAT32 volume stays what it is, and "f" is crossed to the volume mounted on it. -/
theorem fat_root_crossing : ∃ y, Run.run exec lookupMountpoint (vfsInit 100) = some y ∧ 1 ∈ y.held ∧ 6 ∈ y.held ∧
    CrossExact siblings y.vfs (y.vfs.vnodes 1) ∧ vfsLookupMount y.vfs (y.vfs.vnodes 1) = none ∧
    CrossExact siblings y.vfs (y.vfs.vnodes 6) ∧ vfsLookupMount y.vfs (y.vfs.vnodes 6) = some 11 := by
  have h : ((Run.run exec lookupMountpoint (vfsInit 100)).map fun y =>
      (y.held, vfsLookupMount y.vfs (y.vfs.vnodes 1), vfsLookupMount y.vfs (y.vfs.vnodes 6))) =
      some ([6, 0, 5, 1], none, some 11) := by
    decide +kernel
  have htable : ((Run.run exec lookupMountpoint (vfsInit 100)).map fun y =>
      (y.vfs.mounttable.tail, mpointOf y.vfs 11, mpointOf y.vfs 12)) = some ([11, 12], some 2, some 4) := by
    decide +kernel
  have hnodes : ((Run.run exec lookupMountpoint (vfsInit 100)).map fun y => [1, 2, 4, 6].map fun i =>
      ((y.vfs.vnodes i).dev, (y.vfs.vnodes i).ops, (y.vfs.vnodes i).inum)) =
      some [(2, some .fat32, 0), (1, some .xv6fs, 5), (2, some .fat32, 2), (1, some .xv6fs, 5)] := by
    decide +kernel
  have hobj : ((Run.run exec lookupMountpoint (vfsInit 100)).map fun y => [1, 4].map fun i =>
      object siblings (y.vfs.vnodes i)) = some [some (.fatDir 2), some (.fatDir 3)] := by
    decide +kernel
  have hup : Run.Meets exec (fun y op => op.upFound y) lookupMountpoint (vfsInit 100) :=
    Run.Meets.append.mpr ⟨mountOnFat_upFound _, fun y _ => ⟨siblings_upFound y.vfs, fun _ _ =>
      ⟨trivial, fun _ _ => trivial⟩⟩⟩
  obtain ⟨y, hy, he⟩ := map_eq_some_iff.mp h
  rw [hy] at htable hnodes hobj
  simp only [map_some, some.injEq, Prod.mk.injEq, map_cons, map_nil, cons.injEq] at he htable hnodes hobj
  obtain ⟨hheld, h1, h6⟩ := he
  have hiff := fun i hi => cross_mount_exact_iff 100 lookupMountpoint y siblings i hup hy hi
  have hh1 : 1 ∈ y.held := by simp [hheld]
  have hh6 : 6 ∈ y.held := by simp [hheld]
  refine ⟨y, hy, hh1, hh6, (hiff 1 hh1).mpr ?_, h1, (hiff 6 hh6).mpr ?_, h6⟩
  · intro m hm p hp hdev _
    rw [htable.1, mem_cons, mem_singleton] at hm
    rcases hm with rfl | rfl
    · cases htable.2.1.symm.trans hp
      omega
    · cases htable.2.2.symm.trans hp
      refine ⟨fun hi => by omega, fun hs => ?_⟩
      have := hobj.2.1.symm.trans (hs.2.2.trans hobj.1)
      simp at this
  · intro m hm p hp hdev hops
    rw [htable.1, mem_cons, mem_singleton] at hm
    rcases hm with rfl | rfl
    · cases htable.2.1.symm.trans hp
      rw [hnodes.2.1.2.1, hnodes.2.2.2.1.2.1] at hops
      simp at hops
    · cases htable.2.2.symm.trans hp
      omega

end Xv6Vfs.Vfs
