import Xv6Vfs.Vfs.Lives

/-! One life of a vnode slot after the other: counts, reuse of slots, and `destroy` once for
every allocation that a backend has filled in, in every interleaving. -/
namespace Xv6Vfs.Vfs
open List Option

variable {y y' : Conc} {p : Nat}

theorem Lives.iget (h : Lives y) (hp : y.phase p = .idle) (k : Key) : Lives (y.iget p k) := by
  unfold Conc.iget
  cases hg : vfsIget k.mp k.inum k.ikey y.st with
  | none => exact h.setPhase (by simp) (by simp [hp])
  | some r =>
    obtain ⟨i, s⟩ := r
    obtain ⟨hi, hmp, -, -, rfl⟩ := vfsIget_spec hg
    refine h.more hi (fun q k' hq => ?_) p
    rw [(h.building q i k' hq).2.2.2.1] at hmp
    cases hmp

theorem sect_lives (a : Sect) (h : Lives y) (ha : sect a y = some y') : Lives y' := by
  cases a with
  | iget p k =>
    simp only [sect] at ha
    split at ha
    case isTrue hp =>
      cases ha
      exact h.iget hp k
    case isFalse => cases ha
  | giveUp p =>
    simp only [sect] at ha
    split at ha
    case h_1 k hp =>
      cases ha
      exact h.setPhase (by simp) (by simp [hp])
    case h_2 => cases ha
  | alloc p =>
    simp only [sect] at ha
    split at ha
    case h_1 hp =>
      cases ha
      exact h.alloc p none (by simp [hp])
    case h_2 k hp =>
      cases ha
      exact h.alloc p (some k) (by simp [hp])
    case h_3 => cases ha
  | fill p v =>
    simp only [sect] at ha
    split at ha
    case h_1 i k fs x hp hops hpriv =>
      split at ha
      · cases ha
        exact h.fill hp hops hpriv
      · cases ha
    case h_2 => cases ha
  | vget p i =>
    simp only [sect] at ha
    split at ha
    case isTrue hp =>
      cases ha
      exact h.more (h.live hp.2) (fun q k => h.not_building hp.1 hp.2 q k) p
    case isFalse => cases ha
  | hand p q i =>
    simp only [sect] at ha
    split at ha
    case isTrue hp =>
      cases ha
      exact h.hand hp.1 hp.2 q
    case isFalse => cases ha
  | put p i =>
    simp only [sect] at ha
    split at ha
    case isFalse => cases ha
    case isTrue hm =>
      split at ha
      case h_1 hp =>
        obtain ⟨z, h1, h2⟩ := h.put hm (.inl hp)
        rw [h1] at ha
        exact some.inj ha ▸ h2
      case h_2 j k hp =>
        split at ha
        case isTrue he =>
          subst he
          obtain ⟨z, h1, h2⟩ := h.put hm (.inr ⟨k, hp⟩)
          rw [h1] at ha
          exact some.inj ha ▸ h2
        case isFalse => cases ha
      case h_3 => cases ha
  | destroy n =>
    obtain ⟨d, hd, rfl⟩ := map_eq_some_iff.mp ha
    exact h.destroy hd

theorem concInit_lives (pages : Nat) : Lives (concInit pages) where
  count := fun _ => rfl
  bound := fun i hi => absurd hi (by simp [concInit, refs])
  inj := fun i j hi => absurd hi (by simp [concInit, refs])
  building := fun p i k hp => by cases hp
  filled := fun i hi => absurd hi (by simp [concInit, refs])
  known := fun a ha => absurd rfl ha
  due := fun d hd => by simp [concInit, Conc.dues] at hd
  once := nodup_nil
  all := fun a ha => absurd rfl ha

theorem run_lives {pages : Nat} {ops : List Sect} (hrun : Run.run sect ops (concInit pages) = some y) : Lives y :=
  Run.run_preserves Lives (fun _ a _ h ha => sect_lives a h ha) (concInit_lives pages) hrun

/-- The life of a vnode as its users see it. An allocation is over when no reference to its slot
is left that belongs to it. `destroy` has been called once for every allocation that a backend
had filled in, that is over, and whose last `vput` has returned; never before, never twice, and
with the private data of that allocation. -/
structure Lifecycle (y : Conc) : Prop where
  counted : ∀ i, refs y.st i = (y.held.map Prod.snd).count i
  unreferenced : ∀ i s, allocVnode y.st = some (i, s) → ∀ p, (p, i) ∉ y.held
  noUnderflow : ∀ p i, (p, i) ∈ y.held → (vputSection i y.st).isSome
  atMostOnce : ∀ a, (y.destroyed.map Destroy.life).count a ≤ 1
  afterLast : ∀ d ∈ y.destroyed, ∀ p i, (p, i) ∈ y.held → y.life i ≠ d.life
  ownPriv : ∀ d ∈ y.destroyed, ∃ x, d.priv = some x ∧ y.given d.life = some (d.ops, x)
  atLeastOnce : ∀ a, y.given a ≠ none → (∀ p i, (p, i) ∈ y.held → y.life i ≠ a) →
    (∀ d ∈ y.leaving, d.life ≠ a) → a ∈ y.destroyed.map Destroy.life

/-- In every interleaving of the sections, by any number of processes that use only references
they own. -/
theorem lifecycle_of_run {pages : Nat} {ops : List Sect}
    (hrun : Run.run sect ops (concInit pages) = some y) : Lifecycle y := by
  have h := run_lives hrun
  refine ⟨h.count, fun i s ha p hm => ?_, fun p i hm => ?_, fun a => ?_, fun d hd p i hm => ?_,
    fun d hd => ?_, fun a ha hover hleft => ?_⟩
  · have h1 := h.live hm
    have h2 := (allocVnode_spec ha).1
    omega
  · obtain ⟨v, d, h1, -⟩ := vputSection_spec (h.live hm)
    rw [h1]
    rfl
  · have h1 : (y.destroyed.map Destroy.life).Nodup := by
      have h2 := h.once
      rw [Conc.dues, map_append] at h2
      exact (nodup_append.mp h2).2.1
    exact nodup_iff_count_le_one.mp h1 a
  · exact (h.due d (mem_append_right _ hd)).2.2 i (h.live hm)
  · exact (h.due d (mem_append_right _ hd)).2.1
  · rcases h.all a ha with ⟨i, h1, h2⟩ | h1
    · rw [h.count i] at h1
      obtain ⟨⟨p, j⟩, hm, rfl⟩ := mem_map.mp (count_pos_iff.mp h1)
      exact absurd h2 (hover p j hm)
    · obtain ⟨d, hd, hl⟩ := mem_map.mp h1
      rcases mem_append.mp hd with h3 | h3
      · exact absurd hl (hleft d h3)
      · exact mem_map.mpr ⟨d, h3, hl⟩

/-- An ext2 vnode for inode 12 of mount 1. -/
def sampleVnode : Vnode := ⟨.file, 2, 0, 0, some .ext2, some 1, 0, 12, 0, 0, some 7⟩

/-- Two processes share a vnode; the slot is taken again before `destroy` has run. -/
def sharedRun : List Sect :=
  [.iget 0 ⟨1, 12, 0⟩, .alloc 0, .fill 0 sampleVnode, .iget 1 ⟨1, 12, 0⟩, .put 0 0, .put 1 0,
    .alloc 2, .destroy 0]

theorem sharedRun_lifecycle : ∃ y, Run.run sect sharedRun (concInit 10) = some y ∧
    y.destroyed = [⟨0, .ext2, some 7⟩] ∧ Lifecycle y := by
  have h : (Run.run sect sharedRun (concInit 10)).map (fun y => y.destroyed) =
      some [⟨0, .ext2, some 7⟩] := by
    decide +kernel
  obtain ⟨y, hy, hd⟩ := map_eq_some_iff.mp h
  exact ⟨y, hy, hd, lifecycle_of_run hy⟩

/-- Without memory for the private data the slot is given back as `alloc_vnode` left it: its life
is over and no `destroy` was or will be called for it. -/
theorem unfilled_not_destroyed : ∃ y, Run.run sect [.alloc 0, .put 0 0] (concInit 0) = some y ∧
    y.allocs = 1 ∧ y.held = [] ∧ y.leaving = [] ∧ 0 ∉ y.destroyed.map Destroy.life := by
  have h : (Run.run sect [.alloc 0, .put 0 0] (concInit 0)).map
      (fun y => (y.allocs, y.held, y.leaving, y.destroyed.map Destroy.life)) = some (1, [], [], []) := by
    decide +kernel
  obtain ⟨y, hy, he⟩ := map_eq_some_iff.mp h
  obtain ⟨h1, h2, h3, h4⟩ : y.allocs = 1 ∧ y.held = [] ∧ y.leaving = [] ∧
      y.destroyed.map Destroy.life = [] := by
    simpa only [Prod.mk.injEq] using he
  exact ⟨y, hy, h1, h2, h3, by rw [h4]; exact not_mem_nil⟩

end Xv6Vfs.Vfs
