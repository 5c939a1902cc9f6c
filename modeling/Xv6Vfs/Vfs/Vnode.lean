import Mathlib.Data.List.Dedup
import Mathlib.Logic.Function.Basic

/-! The vnode table of the VFS: `alloc_vnode`, `vget`, `vfs_iget` and `vput`, run to
completion one after the other. Private data is reduced to what it denotes, an inode number
or a first cluster; a page of memory is taken for it and given back by `destroy`. -/
namespace Xv6Vfs.Vfs
open List

variable {s' s1 : State}

variable {held : List Nat} {i : Nat} {s s0 : State}

def nvnode : Nat := 200

inductive FsType where
  | xv6fs | ext2 | fat32
deriving DecidableEq

/-- `V_FILE`, `V_DIR`, `V_DEV`; `none` is the 0 of a slot that no backend has filled. -/
inductive VType where
  | none | file | dir | dev
deriving DecidableEq

structure Vnode where
  type : VType
  dev : Nat
  major : Int
  minor : Int
  ops : Option FsType
  mp : Option Nat
  ref : Nat
  inum : Nat
  ikey : Nat
  size : Nat
  priv : Option Nat
deriving DecidableEq

/-- A `struct mount`; `mountpoint` is absent for the root mount. -/
structure Mount where
  valid : Bool
  ops : Option FsType
  root : Option Nat
  mountpoint : Option Nat
  dev : Nat
  path : List UInt8
deriving DecidableEq

/-- `vnode_table`, the allocated mount structures by address, `mounttable[0..nmount)` and the
number of free pages. -/
structure State where
  vnodes : Nat → Vnode
  mounts : Nat → Option Mount
  mounttable : List Nat
  pages : Nat

def State.setVnode (s : State) (i : Nat) (v : Vnode) : State :=
  { s with vnodes := Function.update s.vnodes i v }

def allocVnode (s : State) : Option (Nat × State) :=
  ((List.range nvnode).find? fun i => (s.vnodes i).ref = 0).map fun i =>
    (i, s.setVnode i
      { s.vnodes i with
        ref := 1, type := .none, ops := none, mp := none, priv := none
        inum := 0, ikey := 0, major := 0, minor := 0 })

def vget (i : Nat) (s : State) : State :=
  s.setVnode i { s.vnodes i with ref := (s.vnodes i).ref + 1 }

def vfsIget (mp inum ikey : Nat) (s : State) : Option (Nat × State) :=
  ((List.range nvnode).find? fun i =>
    0 < (s.vnodes i).ref ∧ (s.vnodes i).mp = some mp ∧ (s.vnodes i).inum = inum ∧
      (s.vnodes i).ikey = ikey).map fun i => (i, vget i s)

/-- Drop a reference; undefined where the code panics on `ref underflow`. The last reference
clears the slot and `destroy` returns the page of the private data. -/
def vput (i : Nat) (s : State) : Option State :=
  if (s.vnodes i).ref < 1 then none
  else if (s.vnodes i).ref = 1 then
    let v := s.vnodes i
    some { s.setVnode i
        { v with ref := 0, priv := none, ops := none, mp := none, type := .none } with
      pages := if v.ops.isSome ∧ v.priv.isSome then s.pages + 1 else s.pages }
  else some (s.setVnode i { s.vnodes i with ref := (s.vnodes i).ref - 1 })

/-- The common tail of `xv6fs_vnode_from_inode`, `ext2_vnode_alloc` and `fvalloc`: a slot, a
page for the private data, then the identity. Without a page the slot is put back. -/
def vnodeNew (v : Vnode) (s : State) : Option (Option Nat × State) :=
  match allocVnode s with
  | none => some (none, s)
  | some (i, s1) =>
    if s1.pages = 0 then (vput i s1).map fun s2 => (none, s2)
    else some (some i, { s1.setVnode i { v with ref := 1 } with pages := s1.pages - 1 })

/-- Reference counts by slot. -/
def refs (s : State) (i : Nat) : Nat := (s.vnodes i).ref

/-- Everything in a vnode but its reference count and the cached size. -/
def ident (v : Vnode) : Vnode := { v with ref := 0, size := 0 }

/-- A vnode as the backends leave it. xv6fs and ext2 name it by its inode number; FAT32 by the
position of its directory entry, which is not what the private data denotes. -/
def Filled (v : Vnode) : Prop :=
  v.mp.isSome ∧ v.priv.isSome ∧ v.ops.isSome ∧ (v.ops ≠ some .fat32 → v.priv = some v.inum)

/-- Every referenced slot of the table is filled. -/
def AllFilled (s : State) : Prop := ∀ i, 0 < refs s i → Filled (s.vnodes i)

/-- Every referenced vnode belongs to an allocated mount. -/
def MpOk (s : State) : Prop :=
  ∀ i, 0 < refs s i → ∃ m, (s.vnodes i).mp = some m ∧ (s.mounts m).isSome

/-- A vnode that may go to a slot of the table. -/
structure Fits (s : State) (v : Vnode) : Prop where
  filled : AllFilled s → Filled v
  mp : MpOk s → ∃ m, v.mp = some m ∧ (s.mounts m).isSome

/-- How many of the vnodes `held` were not live in `s0`; each has a page. -/
def fresh (s0 : State) (held : List Nat) : Nat :=
  (held.dedup.filter fun i => refs s0 i = 0).length

/-- Relative to `s0`, the code in progress holds the references `held` and nothing else has
changed: counts agree up to them, vnodes that were live keep their identity. -/
structure Holds (s0 : State) (held : List Nat) (s : State) : Prop where
  count : ∀ i, refs s i = refs s0 i + held.count i
  same : ∀ i, 0 < refs s0 i → ident (s.vnodes i) = ident (s0.vnodes i)
  mounts : s.mounts = s0.mounts
  table : s.mounttable = s0.mounttable
  filled : AllFilled s0 → AllFilled s
  mp : MpOk s0 → MpOk s
  pages : AllFilled s0 → s.pages + fresh s0 held = s0.pages

theorem fresh_cons (s0 : State) (i : Nat) (held : List Nat) :
    fresh s0 (i :: held) = fresh s0 held + if i ∉ held ∧ refs s0 i = 0 then 1 else 0 := by
  unfold fresh
  by_cases hi : i ∈ held
  · simp [dedup_cons_of_mem hi, hi]
  · by_cases h0 : refs s0 i = 0 <;> simp [dedup_cons_of_notMem hi, hi, h0]

theorem Holds.refl (s : State) : Holds s [] s :=
  ⟨fun _ => rfl, fun _ _ => rfl, rfl, rfl, id, id, fun _ => rfl⟩

theorem Holds.live_iff (h : Holds s0 held s) (i : Nat) : 0 < refs s i ↔ 0 < refs s0 i ∨ i ∈ held := by
  rw [h.count i, ← count_pos_iff]
  omega

theorem Holds.live (h : Holds s0 held s) (hi : 0 < refs s0 i ∨ i ∈ held) : 0 < refs s i :=
  (h.live_iff i).mpr hi

theorem Filled.congr {v w : Vnode} (h : Filled v) (hi : ident w = ident v) : Filled w := by
  have h1 : Filled (ident w) := by
    rwa [hi]
  exact h1

theorem AllFilled.congr (h : AllFilled s)
    (hs : ∀ i, 0 < refs s' i → 0 < refs s i ∧ ident (s'.vnodes i) = ident (s.vnodes i)) : AllFilled s' :=
  fun i hi => (h i (hs i hi).1).congr (hs i hi).2

theorem MpOk.congr (h : MpOk s) (hm : s'.mounts = s.mounts)
    (hs : ∀ i, 0 < refs s' i → 0 < refs s i ∧ ident (s'.vnodes i) = ident (s.vnodes i)) : MpOk s' := by
  intro i hi
  obtain ⟨h1, h2⟩ := hs i hi
  obtain ⟨m, h3, h4⟩ := h i h1
  have h5 := congrArg Vnode.mp h2
  exact ⟨m, h5.trans h3, hm ▸ h4⟩

@[simp] theorem setVnode_same (s : State) (i : Nat) (v : Vnode) : (s.setVnode i v).vnodes i = v := by
  simp [State.setVnode]

theorem setVnode_ne (s : State) {j : Nat} (v : Vnode) (h : j ≠ i) : (s.setVnode i v).vnodes j = s.vnodes j := by
  simp [State.setVnode, h]

@[simp] theorem setVnode_mounts (s : State) (i : Nat) (v : Vnode) : (s.setVnode i v).mounts = s.mounts := rfl

@[simp] theorem setVnode_table (s : State) (i : Nat) (v : Vnode) : (s.setVnode i v).mounttable = s.mounttable := rfl

@[simp] theorem setVnode_pages (s : State) (i : Nat) (v : Vnode) : (s.setVnode i v).pages = s.pages := rfl

theorem vget_ident (i j : Nat) (s : State) : ident ((vget i s).vnodes j) = ident (s.vnodes j) := by
  by_cases h : j = i
  · subst h
    simp [vget, ident]
  · simp [vget, setVnode_ne s _ h]

theorem vget_refs (i j : Nat) (s : State) : refs (vget i s) j = refs s j + if i = j then 1 else 0 := by
  by_cases h : j = i
  · subst h
    simp [vget, refs]
  · simp [vget, refs, setVnode_ne s _ h, Ne.symm h]

theorem vget_live (hi : 0 < refs s i) (j : Nat) (hj : 0 < refs (vget i s) j) :
    0 < refs s j ∧ ident ((vget i s).vnodes j) = ident (s.vnodes j) := by
  rw [vget_refs] at hj
  refine ⟨?_, vget_ident i j s⟩
  by_cases he : i = j
  · exact he ▸ hi
  · simpa [he] using hj

theorem Holds.get (h : Holds s0 held s) (hi : 0 < refs s i) : Holds s0 (i :: held) (vget i s) where
  count := by
    intro j
    rw [vget_refs, h.count j, count_cons]
    simp only [beq_iff_eq, Nat.add_assoc]
  same := by
    intro j hj
    rw [vget_ident]
    exact h.same j hj
  mounts := h.mounts
  table := h.table
  filled h0 := (h.filled h0).congr (vget_live hi)
  mp h0 := (h.mp h0).congr rfl (vget_live hi)
  pages := by
    intro h0
    have h1 : ¬ (i ∉ held ∧ refs s0 i = 0) := by
      rcases (h.live_iff i).mp hi with h2 | h2
      · omega
      · exact fun h3 => h3.1 h2
    rw [fresh_cons, if_neg h1]
    exact h.pages h0

/-- Dropping a reference of a live vnode: the count goes down by one and what stays live keeps
its identity. -/
theorem vput_spec (hi : 0 < refs s i) :
    ∃ s', vput i s = some s' ∧ (∀ j, refs s' j + (if i = j then 1 else 0) = refs s j) ∧
      (∀ j, 0 < refs s' j → ident (s'.vnodes j) = ident (s.vnodes j)) ∧
      s'.mounts = s.mounts ∧ s'.mounttable = s.mounttable ∧
      s'.pages = s.pages + if refs s i = 1 ∧ (s.vnodes i).ops.isSome ∧ (s.vnodes i).priv.isSome
        then 1 else 0 := by
  simp only [refs] at hi
  unfold vput
  rw [if_neg (by omega)]
  split
  case isTrue h1 =>
    refine ⟨_, rfl, fun j => ?_, fun j hj => ?_, rfl, rfl, ?_⟩
    · by_cases he : j = i
      · subst he
        simp [refs, h1]
      · simp [refs, setVnode_ne s _ he, Ne.symm he]
    · have he : j ≠ i := by
        intro he
        subst he
        simp [refs] at hj
      simp only [setVnode_ne s _ he]
    · simp only [refs, h1, true_and]
      split <;> simp
  case isFalse h1 =>
    refine ⟨_, rfl, fun j => ?_, fun j _ => ?_, rfl, rfl, ?_⟩
    · by_cases he : j = i
      · subst he
        simp only [refs, setVnode_same, if_true]
        omega
      · simp [refs, setVnode_ne s _ he, Ne.symm he]
    · by_cases he : j = i
      · subst he
        simp [ident]
      · rw [setVnode_ne s _ he]
    · simp [refs, h1]

/-- A held reference can be dropped without underflow. -/
theorem Holds.put (h : Holds s0 (i :: held) s) : ∃ s', vput i s = some s' ∧ Holds s0 held s' ∧
      ∀ j, 0 < refs s' j → ident (s'.vnodes j) = ident (s.vnodes j) := by
  have hpos := h.live (.inr mem_cons_self)
  obtain ⟨s', h1, h2, h3, h4, h5, h6⟩ := vput_spec hpos
  have hc : ∀ j, refs s' j = refs s0 j + held.count j := by
    intro j
    have h7 := h.count j
    have h8 := h2 j
    simp only [count_cons, beq_iff_eq] at h7
    omega
  have hold : ∀ j, 0 < refs s' j → 0 < refs s j ∧ ident (s'.vnodes j) = ident (s.vnodes j) :=
    fun j hj => ⟨by have := h2 j; omega, h3 j hj⟩
  refine ⟨s', h1, ⟨hc, fun j hj => ?_, h4.trans h.mounts, h5.trans h.table, fun h0 => (h.filled h0).congr hold,
    fun h0 => (h.mp h0).congr h4 hold, fun h0 => ?_⟩, h3⟩
  · rw [h3 j (by have := hc j; omega)]
    exact h.same j hj
  · have h7 := h.pages h0
    obtain ⟨-, h8, h9, -⟩ := h.filled h0 i hpos
    have h10 : refs s i = 1 ↔ i ∉ held ∧ refs s0 i = 0 := by
      rw [← count_eq_zero (a := i)]
      have := hc i
      have := h2 i
      simp only [if_true] at this
      omega
    rw [fresh_cons] at h7
    simp only [h8, h9, h10, and_true] at h6
    omega

theorem allocVnode_spec (h : allocVnode s = some (i, s1)) :
    refs s i = 0 ∧ i < nvnode ∧ ∃ v, v.ref = 1 ∧ v.ops = none ∧ s1 = s.setVnode i v := by
  unfold allocVnode at h
  rw [Option.map_eq_some_iff] at h
  obtain ⟨k, hk, he⟩ := h
  cases he
  have h0 := find?_some hk
  have hm := mem_of_find?_eq_some hk
  exact ⟨by simpa [refs] using h0, mem_range.mp hm, _, rfl, rfl, rfl⟩

theorem Holds.perm {held' : List Nat} (h : Holds s0 held s) (hp : held.Perm held') : Holds s0 held' s where
  count i := (h.count i).trans (by rw [hp.count_eq i])
  same := h.same
  mounts := h.mounts
  table := h.table
  filled := h.filled
  mp := h.mp
  pages h0 := by
    have h1 : fresh s0 held' = fresh s0 held := ((hp.dedup.filter _).length_eq).symm
    rw [h1]
    exact h.pages h0

/-- Filling a slot that nobody references takes one reference, on that slot, and a page. -/
theorem Holds.fill (h : Holds s0 held s) (hi : refs s i = 0) (hp : s.pages ≠ 0) (v : Vnode) (hv : v.ref = 1)
    (hf : Fits s v) : Holds s0 (i :: held) { s.setVnode i v with pages := s.pages - 1 } := by
  have hdead : ¬ (0 < refs s0 i ∨ i ∈ held) := by
    rw [← h.live_iff]
    omega
  simp only [not_or, Nat.not_lt, Nat.le_zero] at hdead
  have hne : ∀ j, 0 < refs s j → j ≠ i := by
    intro j hj he
    subst he
    omega
  refine ⟨fun j => ?_, fun j hj => ?_, h.mounts, h.table, fun hs j hj => ?_, fun hs j hj => ?_, fun hs => ?_⟩
  · by_cases he : j = i
    · subst he
      have h1 : refs { s.setVnode j v with pages := s.pages - 1 } j = 1 := by
        simp [refs, hv]
      rw [h1, hdead.1, count_cons_self, count_eq_zero.mpr hdead.2]
    · simpa [refs, setVnode_ne s v he, count_cons, Ne.symm he] using h.count j
  · simp only [setVnode_ne s v (hne j (h.live (.inl hj)))]
    exact h.same j hj
  · by_cases he : j = i
    · subst he
      simp only [setVnode_same]
      exact hf.filled (h.filled hs)
    · simp only [refs, setVnode_ne s v he] at hj ⊢
      exact h.filled hs j hj
  · by_cases he : j = i
    · subst he
      simp only [setVnode_same]
      exact hf.mp (h.mp hs)
    · simp only [refs, setVnode_ne s v he] at hj ⊢
      exact h.mp hs j hj
  · have h1 := h.pages hs
    rw [fresh_cons, if_pos ⟨hdead.2, hdead.1⟩]
    simp only
    omega

/-- Taking a slot and putting it back leaves what `alloc_vnode` found. -/
theorem Holds.alloc_put (h : Holds s0 held s) (ha : allocVnode s = some (i, s1)) :
    ∃ s2, vput i s1 = some s2 ∧ Holds s0 held s2 ∧
      ∀ j, 0 < refs s j → ident (s2.vnodes j) = ident (s.vnodes j) := by
  obtain ⟨hi, -, w, hw, hops, rfl⟩ := allocVnode_spec ha
  have hpos : 0 < refs (s.setVnode i w) i := by
    simp [refs, hw]
  obtain ⟨s2, h1, h2, h3, h4, h5, h6⟩ := vput_spec hpos
  have hc : ∀ j, refs s2 j = refs s j := by
    intro j
    have h6 := h2 j
    by_cases he : j = i
    · subst he
      simp only [refs, setVnode_same, hw, if_true] at h6 hi ⊢
      omega
    · simpa [refs, setVnode_ne s w he, Ne.symm he] using h6
  have hid : ∀ j, 0 < refs s j → ident (s2.vnodes j) = ident (s.vnodes j) := by
    intro j hj
    have he : j ≠ i := by
      intro he
      subst he
      omega
    rw [h3 j (hc j ▸ hj), setVnode_ne s w he]
  have hpg : s2.pages = s.pages := by
    simpa [hops] using h6
  have hold : ∀ j, 0 < refs s2 j → 0 < refs s j ∧ ident (s2.vnodes j) = ident (s.vnodes j) :=
    fun j hj => ⟨hc j ▸ hj, hid j (hc j ▸ hj)⟩
  refine ⟨s2, h1, ⟨fun j => (hc j).trans (h.count j), fun j hj => ?_, h4.trans h.mounts,
    h5.trans h.table, fun h0 => (h.filled h0).congr hold, fun h0 => (h.mp h0).congr h4 hold, fun h0 => ?_⟩, hid⟩
  · rw [hid j (h.live (.inl hj))]
    exact h.same j hj
  · rw [hpg]
    exact h.pages h0

/-- A new vnode costs one reference on it; a failure, for want of a slot or a page, costs
nothing. -/
theorem Holds.new (h : Holds s0 held s) (v : Vnode) (hf : Fits s v) :
    ∃ r s', vnodeNew v s = some (r, s') ∧ Holds s0 (r.toList ++ held) s' ∧
      (∀ i, r = some i → ident (s'.vnodes i) = ident v) ∧
      (∀ j, 0 < refs s j → ident (s'.vnodes j) = ident (s.vnodes j)) ∧
      (r = none → (∀ i < nvnode, 0 < refs s i) ∨ s.pages = 0) := by
  unfold vnodeNew
  cases ha : allocVnode s with
  | none =>
    refine ⟨none, s, rfl, h, by simp, fun _ _ => rfl, fun _ => .inl fun i hi => ?_⟩
    simp only [allocVnode, Option.map_eq_none_iff, find?_eq_none, mem_range] at ha
    have := ha i hi
    simp only [decide_eq_true_eq] at this
    exact Nat.pos_of_ne_zero this
  | some p =>
    obtain ⟨i, s1⟩ := p
    dsimp only
    split
    case isTrue hp =>
      obtain ⟨s2, h1, h2, h3⟩ := h.alloc_put ha
      obtain ⟨-, -, w, -, -, rfl⟩ := allocVnode_spec ha
      exact ⟨none, s2, by simp [h1], h2, by simp, h3, fun _ => .inr hp⟩
    case isFalse hp =>
      obtain ⟨hi, -, w, hw, -, rfl⟩ := allocVnode_spec ha
      refine ⟨some i, _, rfl, ?_, fun j hj => ?_, fun j hj => ?_, by simp⟩
      · have hh := h.fill hi hp { v with ref := 1 } rfl ⟨fun hs => hf.filled hs, fun hs => hf.mp hs⟩
        simpa [State.setVnode] using hh
      · cases hj
        simp [ident]
      · have he : j ≠ i := by
          intro he
          subst he
          omega
        simp [State.setVnode, he]

/-- A hit of `vfs_iget` is a live vnode of the mount with the identity asked for. -/
theorem vfsIget_spec {mp inum ikey : Nat} (h : vfsIget mp inum ikey s = some (i, s')) :
    0 < refs s i ∧ (s.vnodes i).mp = some mp ∧ (s.vnodes i).inum = inum ∧
      (s.vnodes i).ikey = ikey ∧ s' = vget i s := by
  unfold vfsIget at h
  rw [Option.map_eq_some_iff] at h
  obtain ⟨k, hk, he⟩ := h
  cases he
  have h0 := find?_some hk
  simp only [decide_eq_true_eq] at h0
  exact ⟨h0.1, h0.2.1, h0.2.2.1, h0.2.2.2, rfl⟩

end Xv6Vfs.Vfs
