import Xv6Vfs.Fd.Calls

/-! Processes come and go: `fork` copies descriptors and the current directory, `exit` gives
them back. -/
namespace Xv6Vfs.Fd
open Xv6Vfs.Vfs Xv6Vfs.Count List Option

section Process

variable {ex vx : List Nat} {k k' : Kernel} {p : Nat}

theorem vnodesHeld_setProc (k : Kernel) (hp : p < nproc) (x : Proc) (i : Nat) :
    (vnodesHeld (k.setProc p x)).count i + (if (k.procs p).cwd = some i then 1 else 0) =
      (vnodesHeld k).count i + if x.cwd = some i then 1 else 0 := by
  have h1 : (fun q => ((k.setProc p x).procs q).cwd) =
      Function.update (fun q => (k.procs q).cwd) p x.cwd := by
    funext q
    by_cases hq : q = p
    · subst hq
      simp [Kernel.setProc]
    · simp [Kernel.setProc, hq]
  have h2 := held_update nodup_range (fun q => (k.procs q).cwd) (mem_range.mpr hp) x.cwd i
  simp only [vnodesHeld, h1, count_append]
  simp only [held] at h2
  have h3 : (k.setProc p x).files = k.files := rfl
  rw [h3]
  omega

/-- Another state and current directory of a process, with the same descriptors. -/
theorem Refs.setProc (h : Refs ex vx k) (hp : p < nproc) {x : Proc} {vx' : List Nat}
    (hof : x.ofile = (k.procs p).ofile) (hidle : x.state ≠ .live → (∀ fd, x.ofile fd = none) ∧ x.cwd = none)
    (hc : Core k.vfs (vx' ++ vnodesHeld (k.setProc p x))) : Refs ex vx' (k.setProc p x) where
  count := by
    intro f hf
    have h1 : slot (k.setProc p x) = slot k := by
      funext ⟨q, fd⟩
      by_cases hq : q = p
      · subst hq
        simp [slot, Kernel.setProc, hof]
      · simp [slot, Kernel.setProc, hq]
    have h2 := h.count f hf
    simp only [slots, h1] at h2 ⊢
    exact h2
  bound := by
    intro q fd f hs
    refine h.bound q fd f ?_
    by_cases hq : q = p
    · subst hq
      simpa [Kernel.setProc, hof] using hs
    · simpa [Kernel.setProc, hq] using hs
  taken := h.taken
  free := h.free
  vnode := h.vnode
  idle := by
    intro q hq
    by_cases he : q = p
    · subst he
      have hst : x.state ≠ .live := by simpa [Kernel.setProc] using hq
      simpa [Kernel.setProc] using hidle hst
    · simpa [Kernel.setProc, he] using h.idle q (by simpa [Kernel.setProc, he] using hq)
  cwd := by
    intro q hq
    by_cases he : q = p
    · exact he ▸ hp
    · exact h.cwd q (by simpa [Kernel.setProc, he] using hq)
  core := hc
  only := h.only

theorem Refs.setState (h : Refs ex vx k) (hp : p < nproc) {st : ProcState}
    (hidle : st ≠ .live → (k.procs p).state ≠ .live) : Refs ex vx (k.setProc p { k.procs p with state := st }) := by
  refine h.setProc hp rfl (fun hx => h.idle p (hidle hx)) (Core.recount h.core fun i => ?_)
  have h1 := vnodesHeld_setProc k hp { k.procs p with state := st } i
  rw [count_append, count_append]
  exact congrArg (vx.count i + ·) (Nat.add_right_cancel h1)

/-- The loop of `kfork` gives the child a reference for each descriptor it copies. -/
theorem dupFiles_refs {np : Nat} (hnp : np < nproc) (hne : p ≠ np) (fds : List Nat) (hnd : fds.Nodup)
    (hfds : ∀ fd ∈ fds, fd < nofile) (h : Refs [] [] k) (hlive : (k.procs np).state = .live)
    (hempty : ∀ fd ∈ fds, (k.procs np).ofile fd = none) (hd : dupFiles p np fds k = some k') :
    Refs [] [] k' ∧ k'.procs p = k.procs p ∧ (k'.procs np).state = .live ∧
      (k'.procs np).cwd = (k.procs np).cwd := by
  induction fds generalizing k with
  | nil =>
    cases hd
    exact ⟨h, rfl, hlive, rfl⟩
  | cons fd fds ih =>
    have hrest : ∀ fd' ∈ fds, fd' < nofile := fun fd' hm => hfds fd' (mem_cons_of_mem fd hm)
    cases hof : (k.procs p).ofile fd with
    | none =>
      simp only [dupFiles, hof] at hd
      exact ih hnd.of_cons hrest h hlive (fun fd' hm => hempty fd' (mem_cons_of_mem fd hm)) hd
    | some f =>
      simp only [dupFiles, hof] at hd
      obtain ⟨k1, h1, h2⟩ := bind_eq_some_iff.mp hd
      have r1 := filedup_refs h (h.bound p fd f hof).2.2 h1
      have hprocs : k1.procs = k.procs := by
        unfold filedup at h1
        split at h1
        · simp at h1
        · exact (some.inj h1) ▸ rfl
      have r2 := give_refs r1 hnp (hfds fd mem_cons_self) (by rw [hprocs]; exact hlive)
        (by rw [hprocs]; exact hempty fd mem_cons_self)
      obtain ⟨e1, e2, e3, e4⟩ := ih hnd.of_cons hrest r2
        (by simpa [Kernel.setFd, Kernel.setProc, hprocs] using hlive)
        (by
          intro fd' hm
          have hfd : fd' ≠ fd := fun he => (nodup_cons.mp hnd).1 (he ▸ hm)
          simpa [Kernel.setFd, Kernel.setProc, hprocs, hfd] using
            hempty fd' (mem_cons_of_mem fd hm)) h2
      refine ⟨e1, ?_, e3, ?_⟩
      · rw [e2]
        simp [Kernel.setFd, Kernel.setProc, hprocs, hne]
      · rw [e4]
        simp [Kernel.setFd, Kernel.setProc, hprocs]

theorem mem_vnodesHeld_cwd {d : Nat} (hp : p < nproc) (hd : (k.procs p).cwd = some d) : d ∈ vnodesHeld k :=
  mem_append_right _ (mem_filterMap.mpr ⟨p, mem_range.mpr hp, hd⟩)

theorem kfork_refs (h : Refs [] [] k) (hp : k.running p = true) {memory : Bool} {r : Int}
    (hs : kfork p memory k = some (r, k')) : Refs [] [] k' := by
  obtain ⟨hp, hlive⟩ := running_iff.mp hp
  unfold kfork at hs
  split at hs
  · cases hs
    exact h
  case h_2 np hfind =>
    have hnp := mem_range.mp (mem_of_find?_eq_some hfind)
    have hunused : (k.procs np).state = .unused := by simpa using find?_some hfind
    obtain ⟨hnone, hcwd⟩ := h.idle np (by simp [hunused])
    have hne : p ≠ np := by
      rintro rfl
      simp [hlive] at hunused
    split at hs
    · obtain ⟨k1, h1, h2⟩ := bind_eq_some_iff.mp hs
      obtain ⟨d, hd, he⟩ := map_eq_some_iff.mp h2
      cases he
      obtain ⟨r1, -, hlive1, hcwd1⟩ := dupFiles_refs hnp hne _ nodup_range
        (fun fd hm => mem_range.mp hm) (h.setState hnp (by simp)) (by simp [Kernel.setProc])
        (by simpa [Kernel.setProc] using fun fd _ => hnone fd) h1
      have hn1 : (k1.procs np).cwd = none := by
        rw [hcwd1]
        simpa [Kernel.setProc] using hcwd
      have hpos : 0 < refs k1.vfs d := r1.core.live (.inl (mem_vnodesHeld_cwd hp hd))
      have hget := r1.core.holds ((Holds.refl k1.vfs).get hpos)
      have r2 := r1.setVfs hget r1.only
      -- The reference taken by `idup` goes to the child.
      refine r2.setProc hnp rfl (by simp [hlive1]) (Core.recount r2.core fun i => ?_)
      have h3 := vnodesHeld_setProc { k1 with vfs := vget d k1.vfs } hnp
        { k1.procs np with cwd := some d } i
      rw [hn1] at h3
      simp only [reduceCtorEq, if_false, Nat.add_zero, some.injEq] at h3
      rw [nil_append, h3, count_append, count_singleton]
      simp only [beq_iff_eq]
      omega
    · cases hs
      exact h

theorem fileclose_procs {f : Nat} (h : fileclose f k = some k') : k'.procs = k.procs := by
  unfold fileclose at h
  dsimp only at h
  split at h
  · simp at h
  split at h
  · exact some.inj h ▸ rfl
  split at h
  · exact some.inj h ▸ rfl
  · cases h
    unfold pipeclose
    dsimp only
    split <;> rfl
  all_goals
    obtain ⟨s, -, rfl⟩ := map_eq_some_iff.mp h
    rfl

/-- The loop of `kexit`: the descriptor is cleared after its file is closed. -/
theorem closeFiles_refs (fds : List Nat) (h : Refs [] [] k) (hc : closeFiles p fds k = some k') :
    Refs [] [] k' ∧ (∀ fd, (k'.procs p).ofile fd = if fd ∈ fds then none else (k.procs p).ofile fd) ∧
      (k'.procs p).cwd = (k.procs p).cwd := by
  induction fds generalizing k with
  | nil =>
    cases hc
    exact ⟨h, by simp, rfl⟩
  | cons fd fds ih =>
    cases hof : (k.procs p).ofile fd with
    | none =>
      simp only [closeFiles, hof] at hc
      obtain ⟨e1, e2, e3⟩ := ih h hc
      refine ⟨e1, fun fd' => ?_, e3⟩
      rw [e2 fd']
      by_cases he : fd' = fd
      · simp [he, hof]
      · simp [he]
    | some f =>
      simp only [closeFiles, hof] at hc
      obtain ⟨k1, h1, h2⟩ := bind_eq_some_iff.mp hc
      obtain ⟨k2, h3, r2⟩ := fileclose_refs (take_refs h hof)
      rw [fileclose_setFd, h1] at h3
      cases h3
      obtain ⟨e1, e2, e3⟩ := ih r2 h2
      have hprocs := fileclose_procs h1
      refine ⟨e1, fun fd' => ?_, ?_⟩
      · rw [e2 fd']
        by_cases he : fd' = fd
        · simp [he, Kernel.setFd, Kernel.setProc]
        · simp [he, Kernel.setFd, Kernel.setProc, hprocs]
      · rw [e3]
        simp [Kernel.setFd, Kernel.setProc, hprocs]

theorem kexit_refs (h : Refs [] [] k) (hp : k.running p = true) (hs : kexit p k = some k') : Refs [] [] k' := by
  obtain ⟨hp, hlive⟩ := running_iff.mp hp
  unfold kexit at hs
  split at hs
  · simp at hs
  obtain ⟨k1, h1, h2⟩ := bind_eq_some_iff.mp hs
  obtain ⟨d, hd, h3⟩ := bind_eq_some_iff.mp h2
  obtain ⟨s, hput, rfl⟩ := map_eq_some_iff.mp h3
  obtain ⟨r1, hof, -⟩ := closeFiles_refs _ h h1
  have hnone : ∀ fd, (k1.procs p).ofile fd = none := by
    intro fd
    cases hx : (k1.procs p).ofile fd with
    | none => rfl
    | some f =>
      have hm := mem_range.mpr (r1.bound p fd f hx).2.1
      rw [hof fd, if_pos hm] at hx
      simp at hx
  -- The process gives up its current directory before `vput` drops the reference.
  have r2 : Refs [] [d] (k1.setProc p { k1.procs p with state := .zombie, cwd := none }) := by
    refine r1.setProc hp rfl (fun _ => ⟨hnone, rfl⟩) (Core.recount r1.core fun i => ?_)
    have h4 := vnodesHeld_setProc k1 hp { k1.procs p with state := .zombie, cwd := none } i
    rw [hd] at h4
    simp only [reduceCtorEq, if_false, Nat.add_zero, some.injEq] at h4
    rw [nil_append, ← h4, count_append, count_singleton]
    simp only [beq_iff_eq]
    omega
  obtain ⟨s', e1, e2, e3, e4⟩ := Core.put r2.core
  obtain rfl : s' = s := some.inj (e1.symm.trans hput)
  exact r2.setVfs e2 (by rw [e3, e4]; exact r2.only)

theorem reap_refs (h : Refs [] [] k) (hs : reap p k = some k') : Refs [] [] k' := by
  unfold reap at hs
  split at hs
  case isTrue hz =>
    cases hs
    exact h.setState hz.1 fun _ => by simp [hz.2]
  · simp at hs

end Process

end Xv6Vfs.Fd
