import Mathlib.Data.List.Nodup
import Xv6Vfs.Vfs.Mount

/-! The mount table over whole runs: what is mounted is referenced, no two mounts share a
mountpoint by device and inode number, and every live vnode is filled in. -/
namespace Xv6Vfs.Vfs
open Function List

variable {a : Nat} {held' : List Nat}

variable {i m : Nat} {mt : Mount} {v w : Vnode}

def mpointOf (s : State) (m : Nat) : Option Nat := (s.mounts m).bind Mount.mountpoint

/-- References a mount owns: its root and its mountpoint. -/
def mountOwns (mounts : Nat → Option Mount) (m : Nat) : List Nat :=
  match mounts m with
  | some mt => mt.root.toList ++ mt.mountpoint.toList
  | none => []

def mountRefs (s : State) : List Nat := s.mounttable.flatMap (mountOwns s.mounts)

/-- The table and the vnodes fit together while `held` is referenced from elsewhere. Counts may
be too high: a failed mount of xv6fs keeps its root. -/
structure Core (s : State) (held : List Nat) : Prop where
  owns : ∀ i, (held ++ mountRefs s).count i ≤ refs s i
  filled : AllFilled s
  alloc : ∀ m ∈ s.mounttable, (s.mounts m).isSome
  nodup : s.mounttable.Nodup
  distinct : ∀ m ∈ s.mounttable.tail, ∀ m' ∈ s.mounttable.tail, ∀ p p',
    mpointOf s m = some p → mpointOf s m' = some p' →
    (s.vnodes p).dev = (s.vnodes p').dev → (s.vnodes p).inum = (s.vnodes p').inum → m = m'

/-- `Core` between operations, where only the table owns mounts. -/
structure Inv (y : Sys) : Prop where
  core : Core y.vfs y.held
  only : ∀ m, (y.vfs.mounts m).isSome → m ∈ y.vfs.mounttable

section

variable (h : ident v = ident w)
include h

theorem ident_dev : v.dev = w.dev := by
  have h1 : (ident v).dev = (ident w).dev := congrArg Vnode.dev h
  exact h1

theorem ident_inum : v.inum = w.inum := by
  have h1 : (ident v).inum = (ident w).inum := congrArg Vnode.inum h
  exact h1

theorem ident_mp : v.mp = w.mp := by
  have h1 : (ident v).mp = (ident w).mp := congrArg Vnode.mp h
  exact h1

theorem ident_type : v.type = w.type := by
  have h1 : (ident v).type = (ident w).type := congrArg Vnode.type h
  exact h1

theorem ident_ops : v.ops = w.ops := by
  have h1 : (ident v).ops = (ident w).ops := congrArg Vnode.ops h
  exact h1

end

theorem mem_mountRefs {s : State} (hm : m ∈ s.mounttable) (hmt : s.mounts m = some mt)
    (hi : mt.root = some i ∨ mt.mountpoint = some i) : i ∈ mountRefs s := by
  refine mem_flatMap.mpr ⟨m, hm, ?_⟩
  rcases hi with hi | hi <;> simp [mountOwns, hmt, hi]

theorem mem_tail {α : Type*} {l : List α} {a : α} (h : a ∈ l.tail) : a ∈ l :=
  mem_of_mem_tail h

section Core

variable {s s' : State} {held : List Nat}

theorem Core.live (h : Core s held) (hi : i ∈ held ∨ i ∈ mountRefs s) : 0 < refs s i := by
  have h1 : 0 < (held ++ mountRefs s).count i :=
    count_pos_iff.mpr (mem_append.mpr hi)
  have h2 := h.owns i
  omega

theorem Core.mpoint_live (h : Core s held) {p : Nat} (hm : m ∈ s.mounttable) (hp : mpointOf s m = some p) :
    0 < refs s p := by
  obtain ⟨mt, hmt, hpt⟩ := Option.bind_eq_some_iff.mp hp
  exact h.live (.inr (mem_mountRefs hm hmt (.inr hpt)))

/-- A change of the vnodes alone: what stays live keeps its identity. -/
theorem Core.transfer (h : Core s held) (hm : s'.mounts = s.mounts) (ht : s'.mounttable = s.mounttable)
    (ho : ∀ i, (held' ++ mountRefs s).count i ≤ refs s' i) (hf : AllFilled s')
    (hid : ∀ i, 0 < refs s i → 0 < refs s' i → ident (s'.vnodes i) = ident (s.vnodes i)) : Core s' held' := by
  have hr : mountRefs s' = mountRefs s := by
    simp only [mountRefs, hm, ht]
  have hp : ∀ m, mpointOf s' m = mpointOf s m := by
    intro m
    simp only [mpointOf, hm]
  refine ⟨fun i => hr ▸ ho i, hf, ?_, ht ▸ h.nodup, ?_⟩
  · rw [hm, ht]
    exact h.alloc
  · rw [ht]
    intro m h1 m' h2 p p' h3 h4 h5 h6
    rw [hp] at h3 h4
    have hlive : ∀ m ∈ s.mounttable.tail, ∀ q, mpointOf s m = some q →
        ident (s'.vnodes q) = ident (s.vnodes q) := by
      intro m hm q hq
      obtain ⟨mt, hmt, hqt⟩ := Option.bind_eq_some_iff.mp hq
      have hmem := mem_mountRefs (mem_tail hm) hmt (.inr hqt)
      have hpos : 0 < (held' ++ mountRefs s).count q :=
        count_pos_iff.mpr (mem_append_right _ hmem)
      exact hid q (h.live (.inr hmem)) (Nat.lt_of_lt_of_le hpos (ho q))
    have e1 := hlive m h1 p h3
    have e2 := hlive m' h2 p' h4
    rw [ident_dev e1, ident_dev e2] at h5
    rw [ident_inum e1, ident_inum e2] at h6
    exact h.distinct m h1 m' h2 p p' h3 h4 h5 h6

theorem Core.holds (h : Core s held) {hs : List Nat} (hh : Holds s hs s') : Core s' (hs ++ held) := by
  refine h.transfer hh.mounts hh.table (fun i => ?_) (hh.filled h.filled) fun i hi _ => hh.same i hi
  have h1 := h.owns i
  have h2 := hh.count i
  simp only [count_append] at h1 ⊢
  omega

theorem Core.put (h : Core s (i :: held)) : ∃ s', vput i s = some s' ∧ Core s' held ∧ s'.mounts = s.mounts ∧
      s'.mounttable = s.mounttable := by
  obtain ⟨s', h1, h2, h3, h4, h5, -⟩ := vput_spec (h.live (.inl mem_cons_self))
  refine ⟨s', h1, h.transfer h4 h5 (fun j => ?_) ?_ fun j _ hj => h3 j hj, h4, h5⟩
  · have h6 := h.owns j
    have h7 := h2 j
    simp only [cons_append, count_cons, beq_iff_eq] at h6
    omega
  · exact h.filled.congr fun j hj => ⟨by have := h2 j; omega, h3 j hj⟩

theorem Core.forget (h : Core s (i :: held)) : Core s held := by
  refine h.transfer rfl rfl (fun j => ?_) h.filled fun _ _ _ => rfl
  have h1 := h.owns j
  simp only [cons_append, count_cons] at h1
  omega

theorem Core.perm (h : Core s held) (hp : held.Perm held') : Core s held' :=
  h.transfer rfl rfl (fun i => by rw [← (hp.append_right _).count_eq i]; exact h.owns i)
    h.filled fun _ _ _ => rfl

theorem Core.putOpt {v : Option Nat} (h : Core s (v.toList ++ held)) :
    ∃ s', vputOpt v s = some s' ∧ Core s' held ∧ s'.mounts = s.mounts ∧
      s'.mounttable = s.mounttable := by
  cases v with
  | none => exact ⟨s, rfl, h, rfl, rfl⟩
  | some i => exact h.put

theorem Core.unmount (h : Core s (mt.root.toList ++ held)) (hs : Vfs.unmount mt s = some s') :
    Core s' held ∧ s'.mounts = s.mounts ∧ s'.mounttable = s.mounttable := by
  unfold Vfs.unmount at hs
  cases hr : mt.root with
  | none =>
    rw [hr] at h hs
    split at hs
    · cases hs
      exact ⟨h, rfl, rfl⟩
    · simp at hs
  | some i =>
    rw [hr] at h hs
    split at hs
    · cases hs
      exact ⟨h.forget, rfl, rfl⟩
    · obtain ⟨s2, h1, h2, h3, h4⟩ := h.put
      obtain rfl : s2 = s' := Option.some.inj (h1.symm.trans hs)
      exact ⟨h2, h3, h4⟩

/-- A mount outside the table may change. -/
theorem Core.setMount (h : Core s held) (ha : a ∉ s.mounttable) (x : Option Mount) (n : Nat) :
    Core (s.setMount a x n) held := by
  have hne : ∀ m ∈ s.mounttable, (s.setMount a x n).mounts m = s.mounts m := by
    intro m hm
    have : m ≠ a := fun he => ha (he ▸ hm)
    simp [State.setMount, this]
  have hr : mountRefs (s.setMount a x n) = mountRefs s := by
    refine flatMap_congr fun m hm => ?_
    simp only [mountOwns, hne m hm]
  have hp : ∀ m ∈ s.mounttable, mpointOf (s.setMount a x n) m = mpointOf s m := by
    intro m hm
    simp only [mpointOf, hne m hm]
  refine ⟨fun i => hr ▸ h.owns i, h.filled, fun m hm => (hne m hm).symm ▸ h.alloc m hm, h.nodup, ?_⟩
  intro m h1 m' h2 p p' h3 h4
  rw [hp m (mem_tail h1)] at h3
  rw [hp m' (mem_tail h2)] at h4
  exact h.distinct m h1 m' h2 p p' h3 h4

/-- Entering a mount hands its references over to the table. -/
theorem Core.attach {root : Nat} (ha : a ∉ s.mounttable) (hroot : mt.root = some root)
    (h : Core s (mt.mountpoint.toList ++ root :: held))
    (hfree : ∀ p, mt.mountpoint = some p → s.mounttable.tail.any (covers s (s.vnodes p)) = false) :
    Core { s.setMount a (some mt) s.pages with mounttable := s.mounttable ++ [a] } held := by
  have h1 := h.setMount ha (some mt) s.pages
  have hr : mountRefs { s.setMount a (some mt) s.pages with mounttable := s.mounttable ++ [a] } =
      mountRefs (s.setMount a (some mt) s.pages) ++ (root :: mt.mountpoint.toList) := by
    simp [mountRefs, State.setMount, mountOwns, hroot]
  have hself : mpointOf (s.setMount a (some mt) s.pages) a = mt.mountpoint := by
    simp [mpointOf, State.setMount]
  have hother : ∀ m ∈ s.mounttable, mpointOf (s.setMount a (some mt) s.pages) m = mpointOf s m := by
    intro m hm
    have : m ≠ a := fun he => ha (he ▸ hm)
    simp [mpointOf, State.setMount, this]
  have hnew : ∀ m ∈ s.mounttable.tail, ∀ p q, mt.mountpoint = some p →
      mpointOf s m = some q → (s.vnodes q).dev = (s.vnodes p).dev →
      (s.vnodes q).inum = (s.vnodes p).inum → False := by
    intro m hm p q hp hq h5 h6
    have h7 := any_eq_false.mp (hfree p hp) m hm
    simp only [mpointOf] at hq
    simp [covers, hq, h5, h6] at h7
  refine ⟨fun i => ?_, h1.filled, fun m hm => ?_, ?_, ?_⟩
  · rw [hr]
    have h2 := h1.owns i
    simp only [refs, State.setMount, count_append, count_cons] at h2 ⊢
    omega
  · rcases mem_append.mp hm with hm | hm
    · exact h1.alloc m hm
    · obtain rfl := mem_singleton.mp hm
      simp [State.setMount]
  · exact nodup_append.mpr ⟨h.nodup, by simp, fun b hb c hc => by
      obtain rfl := mem_singleton.mp hc
      exact fun he => ha (he ▸ hb)⟩
  · intro m hm m' hm' p p' h3 h4 h5 h6
    have htail : ∀ b, b ∈ (s.mounttable ++ [a]).tail → b ∈ s.mounttable.tail ∨ b = a := by
      intro b hb
      cases hT : s.mounttable with
      | nil => simp [hT] at hb
      | cons c l => simpa [hT] using hb
    rcases htail m hm with h1 | h1
    · have h7 : mpointOf s m = some p := (hother m (mem_tail h1)).symm.trans h3
      rcases htail m' hm' with h2 | h2
      · exact h.distinct m h1 m' h2 p p' h7 ((hother m' (mem_tail h2)).symm.trans h4) h5 h6
      · rw [h2] at h4
        exact (hnew m h1 p' p (hself.symm.trans h4) h7 h5 h6).elim
    · rcases htail m' hm' with h2 | h2
      · have h7 : mpointOf s m' = some p' := (hother m' (mem_tail h2)).symm.trans h4
        rw [h1] at h3
        exact (hnew m' h2 p p' (hself.symm.trans h3) h7 h5.symm h6.symm).elim
      · exact h1.trans h2.symm

/-- Taking a mount out of the table hands its references back. -/
theorem Core.detach (h : Core s held) {l1 l2 : List Nat} (ht : s.mounttable = l1 ++ m :: l2) (hl : l1 ≠ [])
    (hm : s.mounts m = some mt) : Core { s with mounts := update s.mounts m none, mounttable := l1 ++ l2 }
      (mt.root.toList ++ (mt.mountpoint.toList ++ held)) := by
  have hnd := h.nodup
  rw [ht] at hnd
  have hmem : ∀ b, b ∈ l1 ++ l2 → b ∈ s.mounttable ∧ b ≠ m := by
    intro b hb
    have h2 : m ∉ l1 ++ l2 := (nodup_middle.mp hnd).notMem
    refine ⟨?_, fun he => h2 (he ▸ hb)⟩
    rw [ht]
    rcases mem_append.mp hb with hb | hb
    · exact mem_append_left _ hb
    · exact mem_append_right _ (mem_cons_of_mem _ hb)
  have htail : ∀ b, b ∈ (l1 ++ l2).tail → b ∈ s.mounttable.tail ∧ b ≠ m := by
    intro b hb
    refine ⟨?_, (hmem b (mem_tail hb)).2⟩
    cases l1 with
    | nil => exact absurd rfl hl
    | cons c l =>
      rw [ht]
      rcases mem_append.mp hb with hb | hb
      · exact mem_append_left _ hb
      · exact mem_append_right _ (mem_cons_of_mem _ hb)
  have hsame : ∀ b, b ≠ m → update s.mounts m none b = s.mounts b := by
    intro b hb
    simp [hb]
  refine ⟨fun i => ?_, h.filled, fun b hb => ?_, ?_, ?_⟩
  · have h2 := h.owns i
    have e1 : ∀ l : List Nat, m ∉ l →
        l.flatMap (mountOwns (update s.mounts m none)) = l.flatMap (mountOwns s.mounts) := by
      intro l hl
      refine flatMap_congr fun b hb => ?_
      simp only [mountOwns, hsame b fun he => hl (he ▸ hb)]
    have h3 : m ∉ l1 ++ l2 := (nodup_middle.mp hnd).notMem
    have e2 : mountOwns s.mounts m = mt.root.toList ++ mt.mountpoint.toList := by
      simp [mountOwns, hm]
    simp only [refs, mountRefs, ht, flatMap_append, flatMap_cons, e2, count_append] at h2
    simp only [refs, mountRefs, e1 (l1 ++ l2) h3, flatMap_append, count_append]
    omega
  · have h2 := hmem b hb
    simp only [hsame b h2.2]
    exact h.alloc b h2.1
  · exact (nodup_middle.mp hnd).of_cons
  · intro b hb b' hb' p p' h3 h4
    have h5 := htail b hb
    have h6 := htail b' hb'
    simp only [mpointOf, hsame b h5.2] at h3
    simp only [mpointOf, hsame b' h6.2] at h4
    exact h.distinct b h5.1 b' h6.1 p p' h3 h4

end Core

end Xv6Vfs.Vfs
