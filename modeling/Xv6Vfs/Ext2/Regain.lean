import Mathlib.Data.List.Perm.Basic
import Xv6Vfs.Lib.Run
import Xv6Vfs.Vfs.Vnode

/-! Inodes of one ext2 mount under concurrency. `vput` frees the slot of a vnode under
`vnode_lock`; `ext2_destroy` writes a dirty inode out afterwards. `ext2_iget` asks `vfs_iget`,
reads the inode, takes a slot and fills it in, each a step of its own. -/
namespace Xv6Vfs.Ext2.Regain
open Xv6Vfs.Vfs List

/-- What `ext2_inode_disk` holds of a file. -/
structure Image where
  size : Nat
  links : Nat
  block : Nat → Nat
  atime : Nat
  mtime : Nat
  ctime : Nat

/-- An operation through a vnode: what it makes of the inode, whether it sets `dirty` and whether it
ends with `ext2_writeback`. What it changes it marks or writes. -/
structure Update where
  apply : Image → Image
  dirties : Bool
  back : Bool
  marks : dirties = false → back = false → ∀ m, apply m = m

/-- The pointers that `ext2_bmap` has set. -/
def setPointers (blocks : List (Nat × Nat)) (block : Nat → Nat) : Nat → Nat :=
  blocks.foldl (fun f x => Function.update f x.1 x.2) block

/-- `ext2_i_truncate` clears the direct pointers up to the first that is zero, and the indirect one. -/
def clearPointers (block : Nat → Nat) (k : Nat) : Nat :=
  if k = 12 ∨ k < 12 ∧ ∀ j ≤ k, block j ≠ 0 then 0 else block k

namespace Update

def read (t : Nat) : Update := ⟨fun m => { m with atime := t }, true, false, nofun⟩

def write (t : Nat) (blocks : List (Nat × Nat)) (off : Nat) : Update where
  apply m := { m with block := setPointers blocks m.block, size := max m.size off, mtime := t, ctime := t }
  dirties := true
  back := true
  marks := nofun

/-- A write that fails in the middle keeps its pointers but not the size. -/
def failedWrite (blocks : List (Nat × Nat)) : Update where
  apply m := { m with block := setPointers blocks m.block }
  dirties := !blocks.isEmpty
  back := false
  marks h _ m := by
    simp only [Bool.not_eq_false', List.isEmpty_iff] at h
    simp [h, setPointers]

def link (t : Nat) : Update := ⟨fun m => { m with links := m.links + 1, ctime := t }, true, true, nofun⟩

def failedLink (t : Nat) : Update := ⟨fun m => { m with ctime := t }, true, false, nofun⟩

def truncate (t : Nat) : Update where
  apply m := { m with block := clearPointers m.block, size := 0, mtime := t, ctime := t }
  dirties := true
  back := true
  marks := nofun

/-- `ext2_create` of a directory, through the vnode of the new inode: the entries "." and ".." and
two links, left to `vput` to write. -/
def newDir (block : Nat) : Update where
  apply m := { m with block := setPointers [(0, block)] m.block, size := 1024, links := 2 }
  dirties := true
  back := false
  marks := nofun

/-- The same in the directory it is in. -/
def subDir (t : Nat) (blocks : List (Nat × Nat)) (size : Nat) : Update where
  apply m := { m with
    block := setPointers blocks m.block, size := max m.size size, links := m.links + 1, mtime := t, ctime := t }
  dirties := true
  back := true
  marks := nofun

end Update

/-- A vnode; `inum` is absent while the slot is being filled in. -/
structure Slot where
  ref : Nat
  inum : Option Nat
  ino : Image
  dirty : Bool

/-- Where a process is in `ext2_iget`. -/
inductive Phase where
  | idle
  | missed (n : Nat)
  | loaded (n : Nat) (m : Image)
  | building (n : Nat) (m : Image) (i : Nat)

/-- A `vput` between its section and `ext2_destroy`. -/
structure Left where
  inum : Nat
  ino : Image
  dirty : Bool

/-- `truth n` is inode `n` with all operations through any of its vnodes, in their order; `seen`
are the images that were read from disk or written to it, each with the truth at that time. The
driver keeps neither. -/
structure Race where
  slots : Nat → Slot
  disk : Nat → Image
  phase : Nat → Phase
  leaving : List Left
  truth : Nat → Image
  seen : List (Image × Image)

inductive Step where
  | get (p n : Nat)
  | load (p : Nat)
  | giveUp (p : Nat)
  | alloc (p : Nat)
  | fill (p : Nat) (page : Bool)
  | update (i : Nat) (u : Update)
  | dup (i : Nat)
  | put (i : Nat)
  | destroy (k : Nat)

def Race.setSlot (y : Race) (i : Nat) (v : Slot) : Race :=
  { y with slots := Function.update y.slots i v }

def Race.setPhase (y : Race) (p : Nat) (x : Phase) : Race :=
  { y with phase := Function.update y.phase p x }

/-- The live vnode of inode `n`. -/
def Race.find (y : Race) (n : Nat) : Option Nat :=
  (List.range nvnode).find? fun i => 0 < (y.slots i).ref ∧ (y.slots i).inum = some n

def Race.write (y : Race) (n : Nat) (m : Image) : Race :=
  { y with disk := Function.update y.disk n m, seen := (m, y.truth n) :: y.seen }

/-- Undefined for steps that are not at the process's place in the code or not on a vnode that
someone refers to. -/
def step : Step → Race → Option Race
  | .get p n, y =>
    match y.phase p with
    | .idle =>
      some (match y.find n with
        | some i => y.setSlot i { y.slots i with ref := (y.slots i).ref + 1 }
        | none => y.setPhase p (.missed n))
    | _ => none
  | .load p, y =>
    match y.phase p with
    | .missed n =>
      some { y.setPhase p (.loaded n (y.disk n)) with seen := (y.disk n, y.truth n) :: y.seen }
    | _ => none
  | .giveUp p, y =>
    match y.phase p with
    | .missed _ => some (y.setPhase p .idle)
    | _ => none
  | .alloc p, y =>
    match y.phase p with
    | .loaded n m =>
      some (match (List.range nvnode).find? fun i => (y.slots i).ref = 0 with
        | none => y.setPhase p .idle
        | some i => (y.setPhase p (.building n m i)).setSlot i ⟨1, none, m, false⟩)
    | _ => none
  | .fill p page, y =>
    match y.phase p with
    | .building n m i =>
      some ((y.setPhase p .idle).setSlot i
        (if page then ⟨1, some n, m, false⟩ else ⟨0, none, m, false⟩))
    | _ => none
  | .update i u, y =>
    match y.slots i with
    | ⟨ref + 1, some n, m, dirty⟩ =>
      let z := { y with truth := Function.update y.truth n (u.apply (y.truth n)) }
      some (if u.back then (z.setSlot i ⟨ref + 1, some n, u.apply m, false⟩).write n (u.apply m)
        else z.setSlot i ⟨ref + 1, some n, u.apply m, dirty || u.dirties⟩)
    | _ => none
  | .dup i, y =>
    match y.slots i with
    | ⟨ref + 1, some n, m, dirty⟩ => some (y.setSlot i ⟨ref + 2, some n, m, dirty⟩)
    | _ => none
  | .put i, y =>
    match y.slots i with
    | ⟨1, some n, m, dirty⟩ =>
      some { y.setSlot i ⟨0, none, m, dirty⟩ with leaving := ⟨n, m, dirty⟩ :: y.leaving }
    | ⟨ref + 2, some n, m, dirty⟩ => some (y.setSlot i ⟨ref + 1, some n, m, dirty⟩)
    | _ => none
  | .destroy k, y =>
    (y.leaving[k]?).map fun d =>
      let z := { y with leaving := y.leaving.eraseIdx k }
      if d.dirty then z.write d.inum d.ino else z

/-- All processes outside, all vnodes free. -/
def start (disk : Nat → Image) : Race where
  slots := fun _ => ⟨0, none, ⟨0, 0, fun _ => 0, 0, 0, 0⟩, false⟩
  disk := disk
  phase := fun _ => .idle
  leaving := []
  truth := disk
  seen := []

/-- Slot `i` is a vnode of inode `n`. -/
def Live (y : Race) (i n : Nat) : Prop := 0 < (y.slots i).ref ∧ (y.slots i).inum = some n

/-- The inode that the process has missed and has not filled in a vnode for yet. -/
@[grind] def Phase.sought : Phase → Option Nat
  | .idle => none
  | .missed n | .loaded n _ | .building n _ _ => some n

/-- The image of it that the process has in its hands. -/
@[grind] def Phase.image : Phase → Option Image
  | .loaded _ m | .building _ m _ => some m
  | _ => none

/-- The slot that it is filling in. -/
@[grind] def Phase.slot : Phase → Option Nat
  | .building _ _ i => some i
  | _ => none

/-- The condition on a step: no second miss of an inode before the first one has become a vnode,
and no read of an inode that a `vput` has yet to write. -/
def Settled (y : Race) : Step → Prop
  | .get _ n => y.find n = none → ∀ q, (y.phase q).sought ≠ some n
  | .load p => ∀ n, y.phase p = .missed n → ∀ d ∈ y.leaving, d.inum = n → d.dirty = false
  | _ => True

/-- An inode has one vnode or one process that is about to make one; the vnode is as the operations
have made it, and the disk too but for a dirty vnode or a `vput` that is about to write. -/
structure Good (y : Race) : Prop where
  bound : ∀ i, 0 < (y.slots i).ref → i < nvnode
  uniq : ∀ i j n, Live y i n → Live y j n → i = j
  one : ∀ p q n, (y.phase p).sought = some n → (y.phase q).sought = some n → p = q
  absent : ∀ p i n, (y.phase p).sought = some n → ¬ Live y i n
  slot : ∀ p i, (y.phase p).slot = some i → (y.slots i).ref = 1 ∧ (y.slots i).inum = none
  alone : ∀ p q i, (y.phase p).slot = some i → (y.phase q).slot = some i → p = q
  cache : ∀ i n, Live y i n → (y.slots i).ino = y.truth n
  behind : ∀ n, y.disk n ≠ y.truth n → (∃ i, Live y i n ∧ (y.slots i).dirty = true) ∨
    ∃ d ∈ y.leaving, d.inum = n ∧ d.dirty = true
  due : ∀ d ∈ y.leaving, d.dirty = true → d.ino = y.truth d.inum ∧ (∀ i, ¬ Live y i d.inum) ∧
    ∀ p, (y.phase p).sought = some d.inum → (y.phase p).image = none
  image : ∀ p n m, (y.phase p).sought = some n → (y.phase p).image = some m → m = y.truth n
  seen : ∀ e ∈ y.seen, e.1 = e.2

variable {y y' z : Race} {p q i j n : Nat} {m : Image} {v : Slot} {x : Phase}

@[grind =] theorem slots_setSlot : (y.setSlot i v).slots j = if j = i then v else y.slots j := by
  simp [Race.setSlot, Function.update_apply]

@[grind =] theorem phase_setSlot : (y.setSlot i v).phase q = y.phase q := rfl
@[grind =] theorem disk_setSlot : (y.setSlot i v).disk n = y.disk n := rfl
@[grind =] theorem truth_setSlot : (y.setSlot i v).truth n = y.truth n := rfl
@[grind =] theorem leaving_setSlot : (y.setSlot i v).leaving = y.leaving := rfl
@[grind =] theorem seen_setSlot : (y.setSlot i v).seen = y.seen := rfl

@[grind =] theorem phase_setPhase : (y.setPhase p x).phase q = if q = p then x else y.phase q := by
  simp [Race.setPhase, Function.update_apply]

@[grind =] theorem slots_setPhase : (y.setPhase p x).slots j = y.slots j := rfl
@[grind =] theorem disk_setPhase : (y.setPhase p x).disk n = y.disk n := rfl
@[grind =] theorem truth_setPhase : (y.setPhase p x).truth n = y.truth n := rfl
@[grind =] theorem leaving_setPhase : (y.setPhase p x).leaving = y.leaving := rfl
@[grind =] theorem seen_setPhase : (y.setPhase p x).seen = y.seen := rfl

theorem find_none (h : y.find n = none) (hi : i < nvnode) : ¬ Live y i n := by
  intro hl
  simp only [Race.find, find?_eq_none, mem_range, decide_eq_true_eq] at h
  exact h i hi hl

theorem find_some (h : y.find n = some i) : Live y i n := by
  have h1 := find?_some h
  rwa [decide_eq_true_eq] at h1

/-- Where the vnode is clean, the disk has it all. -/
theorem Good.clean (h : Good y) (hl : Live y i n) (hd : (y.slots i).dirty = false) : y.disk n = y.truth n := by
  by_contra hne
  rcases h.behind n hne with ⟨j, hj, h1⟩ | ⟨d, h1, rfl, h2⟩
  · obtain rfl := h.uniq j i n hj hl
    rw [hd] at h1
    cases h1
  · exact (h.due d h1 h2).2.1 i hl

theorem Good.recount (h : Good y) (hl : Live y i n) {ref : Nat} (hr : 0 < ref) :
    Good (y.setSlot i { y.slots i with ref := ref }) := by
  have hlive : ∀ j n, Live (y.setSlot i { y.slots i with ref := ref }) j n ↔ Live y j n := by
    grind [Live]
  obtain ⟨h1, h2, h3, h4, h5, h6, h7, h8, h9, h10, h11⟩ := h
  constructor
  case bound | slot => grind [Live]
  all_goals grind

theorem Good.giveUp (h : Good y) : Good (y.setPhase p .idle) := by
  have hlive : ∀ j n, Live (y.setPhase p .idle) j n ↔ Live y j n := fun _ _ => Iff.rfl
  obtain ⟨h1, h2, h3, h4, h5, h6, h7, h8, h9, h10, h11⟩ := h
  constructor
  all_goals grind

/-- A process searches for an inode that no other process does. -/
theorem Good.miss (h : Good y) (hs : ∀ q, (y.phase q).sought ≠ some n) (hl : ∀ i, ¬ Live y i n) :
    Good (y.setPhase p (.missed n)) := by
  have hlive : ∀ j n', Live (y.setPhase p (.missed n)) j n' ↔ Live y j n' := fun _ _ => Iff.rfl
  obtain ⟨h1, h2, h3, h4, h5, h6, h7, h8, h9, h10, h11⟩ := h
  constructor
  all_goals grind

/-- It reads the inode, which no `vput` has yet to write. -/
theorem Good.load (h : Good y) (hp : y.phase p = .missed n) (hd : ∀ d ∈ y.leaving, d.inum = n → d.dirty = false) :
    y.disk n = y.truth n ∧ Good (y.setPhase p (.loaded n (y.disk n))) := by
  obtain ⟨h1, h2, h3, h4, h5, h6, h7, h8, h9, h10, h11⟩ := h
  have ht : y.disk n = y.truth n := by grind
  have hlive : ∀ j n', Live (y.setPhase p (.loaded n (y.disk n))) j n' ↔ Live y j n' := fun _ _ => Iff.rfl
  refine ⟨ht, ?_⟩
  constructor
  all_goals grind

/-- A free slot is taken for an image that was read from disk. -/
theorem Good.alloc (h : Good y) (hp : y.phase p = .loaded n m) (hi : (y.slots i).ref = 0) (hlt : i < nvnode) :
    Good ((y.setPhase p (.building n m i)).setSlot i ⟨1, none, m, false⟩) := by
  obtain ⟨z, hz⟩ : ∃ z, z = (y.setPhase p (.building n m i)).setSlot i ⟨1, none, m, false⟩ := ⟨_, rfl⟩
  rw [← hz]
  have hseek : ∀ q, (z.phase q).sought = (y.phase q).sought ∧ (z.phase q).image = (y.phase q).image := by
    grind
  have hlive : ∀ j n', Live z j n' ↔ Live y j n' := by
    grind [Live]
  obtain ⟨h1, h2, h3, h4, h5, h6, h7, h8, h9, h10, h11⟩ := h
  constructor
  case behind =>
    intro n' hn'
    rcases h8 n' (by grind) with ⟨j, hj, hd⟩ | hd
    · exact .inl ⟨j, by grind [Live]⟩
    · exact .inr (by grind)
  all_goals grind [Live]

/-- The new vnode becomes visible with the image that was read, or its slot is given back. -/
theorem Good.fill (h : Good y) (hp : y.phase p = .building n m i) (page : Bool) :
    Good ((y.setPhase p .idle).setSlot i (if page then ⟨1, some n, m, false⟩ else ⟨0, none, m, false⟩)) := by
  obtain ⟨h1, h2, h3, h4, h5, h6, h7, h8, h9, h10, h11⟩ := h
  have hs : (y.phase p).sought = some n ∧ (y.phase p).image = some m ∧ (y.phase p).slot = some i := by grind
  have hdisk : y.disk n = y.truth n := by grind
  have hnot : ∀ n', ¬ Live y i n' := by grind [Live]
  obtain ⟨z, hz⟩ : ∃ z, z = (y.setPhase p .idle).setSlot i
    (if page then ⟨1, some n, m, false⟩ else ⟨0, none, m, false⟩) := ⟨_, rfl⟩
  have hl : ∀ j n', Live z j n' ↔ Live y j n' ∨ j = i ∧ n' = n ∧ page = true := by
    intro j n'
    grind [Live]
  rw [← hz]
  constructor
  case behind =>
    intro n' hn'
    rcases h8 n' (by grind) with ⟨j, hj, hd⟩ | hd
    · exact .inl ⟨j, by grind⟩
    · exact .inr (by grind)
  all_goals grind

/-- An operation through the only vnode of an inode. -/
theorem Good.update (h : Good y) (hl : Live y i n) (hslots : ∀ j, z.slots j = if j = i then v else y.slots j)
    (hv : v.ref = (y.slots i).ref ∧ v.inum = some n) (htruth : ∀ k, z.truth k = if k = n then v.ino else y.truth k)
    (hdisk : ∀ k, k ≠ n → z.disk k = y.disk k) (hn : v.dirty = false → z.disk n = v.ino)
    (hphase : ∀ q, z.phase q = y.phase q) (hleft : z.leaving = y.leaving) (hseen : ∀ e ∈ z.seen, e.1 = e.2) :
    Good z := by
  have hlive : ∀ j n', Live z j n' ↔ Live y j n' := by grind [Live]
  have hi : ∀ n', Live y i n' → n' = n := by grind [Live]
  obtain ⟨h1, h2, h3, h4, h5, h6, h7, h8, h9, h10, h11⟩ := h
  constructor
  case slot => grind [Live]
  case behind =>
    intro n' hn'
    by_cases hne : n' = n
    · subst hne
      exact .inl ⟨i, by grind⟩
    · rcases h8 n' (by grind) with ⟨j, hj, hd⟩ | hd
      · exact .inl ⟨j, by grind⟩
      · exact .inr (by grind)
  all_goals grind

/-- The last reference goes: the slot is free, the inode is yet to be written if it is dirty. -/
theorem Good.putLast (h : Good y) {dirty : Bool} (hv : y.slots i = ⟨1, some n, m, dirty⟩) :
    Good { y.setSlot i ⟨0, none, m, dirty⟩ with leaving := ⟨n, m, dirty⟩ :: y.leaving } := by
  have hl : Live y i n := by simp [Live, hv]
  obtain ⟨z, hz⟩ : ∃ z, z = { y.setSlot i ⟨0, none, m, dirty⟩ with
    leaving := ⟨n, m, dirty⟩ :: y.leaving } := ⟨_, rfl⟩
  have hslots : ∀ j, z.slots j = if j = i then ⟨0, none, m, dirty⟩ else y.slots j :=
    fun _ => hz ▸ slots_setSlot
  have hsame : (∀ q, z.phase q = y.phase q) ∧ (∀ k, z.disk k = y.disk k) ∧
      (∀ k, z.truth k = y.truth k) ∧ z.seen = y.seen ∧ z.leaving = ⟨n, m, dirty⟩ :: y.leaving := by
    rw [hz]
    exact ⟨fun _ => rfl, fun _ => rfl, fun _ => rfl, rfl, rfl⟩
  have hlive : ∀ j n', Live z j n' ↔ j ≠ i ∧ Live y j n' := by
    grind [Live]
  rw [← hz]
  obtain ⟨h1, h2, h3, h4, h5, h6, h7, h8, h9, h10, h11⟩ := h
  constructor
  case behind =>
    -- a dirty vnode is still there, or it is the one that goes and is due now
    intro n' hn'
    rcases h8 n' (by grind) with ⟨j, hj, hd⟩ | hd
    · by_cases he : j = i
      · exact .inr ⟨⟨n, m, dirty⟩, by grind [Live]⟩
      · exact .inl ⟨j, by grind⟩
    · exact .inr (by grind)
  all_goals grind

theorem Good.destroy (h : Good y) {k : Nat} {d : Left} (hd : y.leaving[k]? = some d) :
    Good (let z := { y with leaving := y.leaving.eraseIdx k }
      if d.dirty then z.write d.inum d.ino else z) := by
  have hcover : ∀ e, e ∈ y.leaving ↔ e = d ∨ e ∈ y.leaving.eraseIdx k := by
    intro e
    obtain ⟨hk, rfl⟩ := List.getElem?_eq_some_iff.mp hd
    exact (getElem_cons_eraseIdx_perm hk).mem_iff.symm.trans mem_cons
  obtain ⟨z, hz⟩ : ∃ z, z = (let z := { y with leaving := y.leaving.eraseIdx k }
      if d.dirty then z.write d.inum d.ino else z) := ⟨_, rfl⟩
  rw [← hz]
  have hsame : (∀ j, z.slots j = y.slots j) ∧ (∀ q, z.phase q = y.phase q) ∧
      (∀ n, z.truth n = y.truth n) ∧ z.leaving = y.leaving.eraseIdx k := by
    rw [hz]
    dsimp only
    split <;> exact ⟨fun _ => rfl, fun _ => rfl, fun _ => rfl, rfl⟩
  have hdisk : ∀ n, z.disk n = if d.dirty = true ∧ n = d.inum then d.ino else y.disk n := by
    intro n
    rw [hz]
    cases d.dirty <;> simp [Race.write, Function.update_apply]
  have hseen : z.seen = if d.dirty = true then (d.ino, y.truth d.inum) :: y.seen else y.seen := by
    rw [hz]
    cases d.dirty <;> rfl
  have hlive : ∀ j n', Live z j n' ↔ Live y j n' := by
    grind [Live]
  obtain ⟨h1, h2, h3, h4, h5, h6, h7, h8, h9, h10, h11⟩ := h
  constructor
  all_goals grind

end Xv6Vfs.Ext2.Regain
