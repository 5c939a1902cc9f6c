import Xv6Vfs.Fd.Refs

/-! Every operation on the file table moves references between the table, the descriptors and
the system call in progress without losing or inventing one. -/
namespace Xv6Vfs.Fd
open Xv6Vfs.Vfs Xv6Vfs.Count Function List Option

variable {ex : List Nat} {f fd g p pi : Nat}

section Primitives

variable {ex vx : List Nat} {k k' : Kernel} {f : Nat}

theorem count_cons_ne {l : List Nat} (h : g ≠ f) : (f :: l).count g = l.count g := by
  rw [count_cons, if_neg (by simpa using Ne.symm h), Nat.add_zero]

theorem filealloc_spec (h : filealloc k = some (f, k')) :
    f < nfile ∧ (k.files f).ref = 0 ∧ k' = k.setFile f { k.files f with ref := 1 } := by
  obtain ⟨g, hg, he⟩ := map_eq_some_iff.mp h
  cases he
  have h0 := find?_some hg
  exact ⟨mem_range.mp (mem_of_find?_eq_some hg), by simpa using h0, rfl⟩

theorem filealloc_refs (h : Refs ex vx k) (ha : filealloc k = some (f, k')) : Refs (f :: ex) vx k' := by
  obtain ⟨hf, h0, rfl⟩ := filealloc_spec ha
  refine h.setRef hf ?_ (fun g hg => count_cons_ne hg) (by simp)
  rw [h0, count_cons_self]
  omega

theorem filedup_refs (h : Refs ex vx k) (hf : f < nfile) (ha : filedup f k = some k') : Refs (f :: ex) vx k' := by
  unfold filedup at ha
  split at ha
  · simp at ha
  · cases ha
    refine h.setRef hf ?_ (fun g hg => count_cons_ne hg) (by simp)
    rw [count_cons_self]
    omega

theorem Refs.setPipes (h : Refs ex vx k) (pipes : Nat → Pipe) (n : Nat) :
    Refs ex vx { k with pipes := pipes, vfs := { k.vfs with pages := n } } :=
  { h with
    core := h.core.transfer rfl rfl h.core.owns h.core.filled fun _ _ _ => rfl
    only := h.only }

theorem pipeclose_refs (h : Refs ex vx k) (pi : Nat) (w : Bool) : Refs ex vx (pipeclose pi w k) := by
  unfold pipeclose
  simp only
  split
  · exact h.setPipes _ k.vfs.pages
  · exact h.setPipes _ _

/-- The last reference: the file is free again, and what it owned is in hand. -/
theorem clearFile_refs (h : Refs (f :: ex) vx k) (href : (k.files f).ref = 1) :
    Refs ex ((k.files f).owns.toList ++ vx)
      (k.setFile f (k.files f).freed) := by
  have hf := h.taken f mem_cons_self
  have hc : ∀ i, ((k.files f).owns.toList ++ vx ++ vnodesHeld (k.setFile f (k.files f).freed)).count i =
      (vx ++ vnodesHeld k).count i := by
    intro i
    have h1 := vnodesHeld_setFile k hf (k.files f).freed i
    have h2 : (k.files f).freed.owns = none := rfl
    rw [h2] at h1
    simp only [reduceCtorEq, if_false, Nat.add_zero] at h1
    have h3 : (k.files f).owns.toList.count i = if (k.files f).owns = some i then 1 else 0 := by
      cases (k.files f).owns with
      | none => simp
      | some v => simp [count_singleton]
    rw [count_append, count_append, count_append, h3, ← h1]
    omega
  refine h.setFile hf ?_ (fun g hg => (count_cons_ne hg).symm) (fun _ => rfl) (by simp [File.freed])
    (Core.recount h.core hc)
  have h0 : (k.files f).freed.ref = 0 := rfl
  rw [h0, href, count_cons_self]
  omega

/-- `fileclose` of a reference in hand succeeds and uses it up. -/
theorem fileclose_refs (h : Refs (f :: ex) vx k) : ∃ k', fileclose f k = some k' ∧ Refs ex vx k' := by
  have hf := h.taken f mem_cons_self
  have href := h.count f hf
  rw [count_cons_self] at href
  unfold fileclose
  simp only
  rw [if_neg (by omega)]
  split
  case isTrue h1 =>
    refine ⟨_, rfl, h.setRef hf ?_ (fun g hg => (count_cons_ne hg).symm) (by omega)⟩
    rw [count_cons_self]
    omega
  case isFalse h1 =>
    have hclear := clearFile_refs h (by omega)
    have hput : (k.files f).type = .inode ∨ (k.files f).type = .device →
        ∃ k', ((k.files f).vnode.bind fun v =>
          vput v (k.setFile f (k.files f).freed).vfs).map
            (fun s => { k.setFile f (k.files f).freed with vfs := s }) =
            some k' ∧ Refs ex vx k' := by
      intro ht
      obtain ⟨v, hv⟩ := isSome_iff_exists.mp (h.vnode f ht)
      have howns : (k.files f).owns = some v := by
        rw [File.owns, if_pos ht, hv]
      rw [howns] at hclear
      obtain ⟨s', h2, h3, h4, h5⟩ := Core.put hclear.core
      refine ⟨_, by rw [hv, bind_some, h2]; rfl, hclear.setVfs h3 ?_⟩
      rw [h4, h5]
      exact hclear.only
    have hnone : (k.files f).type = .none ∨ (k.files f).type = .pipe →
        Refs ex vx (k.setFile f (k.files f).freed) := by
      intro ht
      have howns : (k.files f).owns = none := by
        rw [File.owns, if_neg (by rcases ht with ht | ht <;> simp [ht])]
      rwa [howns] at hclear
    cases ht : (k.files f).type with
    | none => exact ⟨_, rfl, hnone (.inl ht)⟩
    | pipe => exact ⟨_, rfl, pipeclose_refs (hnone (.inr ht)) _ _⟩
    | inode => exact hput (.inl ht)
    | device => exact hput (.inr ht)

theorem fdalloc_spec (h : fdalloc p f k = some (fd, k')) :
    fd < nofile ∧ (k.procs p).ofile fd = none ∧ k' = k.setFd p fd (some f) := by
  obtain ⟨g, hg, he⟩ := map_eq_some_iff.mp h
  cases he
  have h0 := find?_some hg
  exact ⟨mem_range.mp (mem_of_find?_eq_some hg), by simpa using h0, rfl⟩

theorem give_refs (h : Refs (f :: ex) vx k) (hp : p < nproc) (hfd : fd < nofile) (hlive : (k.procs p).state = .live)
    (hnone : (k.procs p).ofile fd = none) : Refs ex vx (k.setFd p fd (some f)) := by
  have hf := h.taken f mem_cons_self
  refine h.setFd hp hfd (fun _ => hlive) (fun g hg => some.inj hg ▸ hf)
    (fun g hg => h.taken g (mem_cons_of_mem f hg)) fun g _ => ?_
  rw [hnone, count_cons]
  simp only [some.injEq, reduceCtorEq, if_false, beq_iff_eq]
  omega

theorem take_refs (h : Refs ex vx k) (hs : (k.procs p).ofile fd = some f) : Refs (f :: ex) vx (k.setFd p fd none) := by
  obtain ⟨hp, hfd, hf⟩ := h.bound p fd f hs
  refine h.setFd hp hfd (by simp) (by simp) ?_ fun g _ => ?_
  · intro g hg
    rcases mem_cons.mp hg with rfl | hg
    · exact hf
    · exact h.taken g hg
  · rw [hs, count_cons]
    simp only [some.injEq, reduceCtorEq, if_false, beq_iff_eq]
    omega

theorem fdalloc_refs (h : Refs (f :: ex) vx k) (hp : p < nproc) (hlive : (k.procs p).state = .live)
    (ha : fdalloc p f k = some (fd, k')) : Refs ex vx k' := by
  obtain ⟨hfd, hnone, rfl⟩ := fdalloc_spec ha
  exact give_refs h hp hfd hlive hnone

theorem pipeclose_setFd (k : Kernel) (pi : Nat) (w : Bool) (p fd : Nat) (x : Option Nat) :
    pipeclose pi w (k.setFd p fd x) = (pipeclose pi w k).setFd p fd x := by
  have hp : (k.setFd p fd x).pipes = k.pipes := rfl
  simp only [pipeclose, hp]
  by_cases h : (((k.pipes pi).shut w).readopen || ((k.pipes pi).shut w).writeopen) = true
  · rw [if_pos h, if_pos h]
    rfl
  · rw [if_neg h, if_neg h]
    rfl

/-- `fileclose` does not look at the descriptors. -/
theorem fileclose_setFd (k : Kernel) (f p fd : Nat) (x : Option Nat) :
    fileclose f (k.setFd p fd x) = (fileclose f k).map fun k' => k'.setFd p fd x := by
  have hfile : (k.setFd p fd x).files f = k.files f := rfl
  by_cases h1 : (k.files f).ref < 1
  · simp only [fileclose, hfile, if_pos h1, map_none]
  by_cases h2 : 1 < (k.files f).ref
  · simp only [fileclose, hfile, if_neg h1, if_pos h2]
    rfl
  simp only [fileclose, hfile, if_neg h1, if_neg h2]
  have hput : ((k.files f).vnode.bind fun v => vput v ((k.setFd p fd x).setFile f (k.files f).freed).vfs) =
      (k.files f).vnode.bind fun v => vput v (k.setFile f (k.files f).freed).vfs := rfl
  cases (k.files f).type with
  | none => rfl
  | pipe =>
    exact congrArg some (pipeclose_setFd (k.setFile f (k.files f).freed) _ _ p fd x)
  | inode =>
    simp only [hput]
    cases (k.files f).vnode.bind fun v => vput v (k.setFile f (k.files f).freed).vfs <;> rfl
  | device =>
    simp only [hput]
    cases (k.files f).vnode.bind fun v => vput v (k.setFile f (k.files f).freed).vfs <;> rfl

end Primitives

section Calls

variable {k k' : Kernel} {p : Nat} {r : Int}

theorem argfd_spec {fd : Int} {n : Nat} (h : argfd p fd k = some (n, f)) : (k.procs p).ofile n = some f := by
  unfold argfd at h
  split at h
  · simp at h
  · obtain ⟨g, hg, he⟩ := map_eq_some_iff.mp h
    cases he
    exact hg

theorem running_iff : k.running p = true ↔ p < nproc ∧ (k.procs p).state = .live := by
  simp [Kernel.running]

theorem sysDup_refs (h : Refs [] [] k) (hp : k.running p = true) {fd : Int}
    (hs : sysDup p fd k = some (r, k')) : Refs [] [] k' := by
  obtain ⟨hp, hlive⟩ := running_iff.mp hp
  unfold sysDup at hs
  split at hs
  · cases hs
    exact h
  case h_2 n f hf =>
    split at hs
    · cases hs
      exact h
    case h_2 fd' k1 ha =>
      -- The descriptor is filled before the count goes up; the two steps commute.
      obtain ⟨k2, hd, he⟩ := map_eq_some_iff.mp hs
      cases he
      obtain ⟨hfd, hnone, rfl⟩ := fdalloc_spec ha
      have hbound := (h.bound p n f (argfd_spec hf)).2.2
      have hdup : filedup f k = some (k.setFile f { k.files f with ref := (k.files f).ref + 1 }) := by
        unfold filedup at hd ⊢
        split at hd
        · simp at hd
        case isFalse hne => exact if_neg hne
      have h1 := give_refs (filedup_refs h hbound hdup) hp hfd hlive hnone
      unfold filedup at hd
      split at hd
      · simp at hd
      · cases hd
        exact h1

theorem sysClose_refs (h : Refs [] [] k) {fd : Int} (hs : sysClose p fd k = some (r, k')) : Refs [] [] k' := by
  unfold sysClose at hs
  split at hs
  · cases hs
    exact h
  case h_2 n f hf =>
    obtain ⟨k1, h1, h2⟩ := fileclose_refs (take_refs h (argfd_spec hf))
    rw [h1] at hs
    cases hs
    exact h2

theorem closeBoth_refs (h : Refs [f, g] [] k) :
    ∃ k', ((fileclose f k).bind (fileclose g)) = some k' ∧ Refs [] [] k' := by
  obtain ⟨k1, h1, h2⟩ := fileclose_refs h
  obtain ⟨k2, h3, h4⟩ := fileclose_refs h2
  exact ⟨k2, by rw [h1, bind_some, h3], h4⟩

theorem bind_map_closed {α : Type} {x : α} :
    ((fileclose f k).bind fun k1 => (fileclose g k1).map fun k2 => (x, k2)) =
      ((fileclose f k).bind (fileclose g)).map fun k2 => (x, k2) := by
  rw [map_bind]
  rfl

theorem setPipe_refs (h : Refs ex [] k) (hf : f ∈ ex) (howns : (k.files f).owns = none) (href : (k.files f).ref ≠ 0)
    (pi : Nat) (rd wr : Bool) :
    Refs ex [] (k.setFile f { k.files f with type := .pipe, readable := rd, writable := wr, pipe := pi }) := by
  have hb := h.taken f hf
  refine h.setFile hb rfl (fun _ _ => rfl) (fun h0 => absurd h0 href) (by simp)
    (Core.recount h.core fun i => ?_)
  have h1 := vnodesHeld_setFile k hb
    { k.files f with type := .pipe, readable := rd, writable := wr, pipe := pi } i
  rwa [howns] at h1

theorem filealloc_owns {vx : List Nat} (h : Refs ex vx k) (ha : filealloc k = some (f, k')) :
    (k'.files f).owns = none ∧ (k'.files f).ref = 1 ∧
      (∀ g, g ≠ f → k'.files g = k.files g) ∧ k'.procs = k.procs ∧ k'.vfs = k.vfs := by
  obtain ⟨-, h0, rfl⟩ := filealloc_spec ha
  have ht := h.free f h0
  refine ⟨?_, ?_, fun g hg => ?_, rfl, rfl⟩
  · simp [Kernel.setFile, File.owns, ht]
  · simp [Kernel.setFile]
  · simp [Kernel.setFile, hg]

theorem pipealloc_refs (h : Refs [] [] k) {o : Option (Nat × Nat)} (hs : pipealloc pi k = some (o, k')) :
    Refs (o.elim [] fun x => [x.1, x.2]) [] k' ∧ (o ≠ none → k'.procs = k.procs) := by
  unfold pipealloc at hs
  split at hs
  · cases hs
    exact ⟨h, fun _ => rfl⟩
  case h_2 f0 k1 h0 =>
    have r1 := filealloc_refs h h0
    obtain ⟨o1, n1, -, p1, -⟩ := filealloc_owns h h0
    split at hs
    · obtain ⟨k2, h2, he⟩ := map_eq_some_iff.mp hs
      cases he
      obtain ⟨k3, h3, h4⟩ := fileclose_refs r1
      cases h3.symm.trans h2
      exact ⟨h4, fun hn => absurd rfl hn⟩
    case h_2 f1 k2 h2 =>
      have r2 := filealloc_refs r1 h2
      obtain ⟨o2, n2, same, p2, -⟩ := filealloc_owns r1 h2
      have hne : f0 ≠ f1 := by
        rintro rfl
        have := (filealloc_spec h2).2.1
        omega
      have hother := same f0 hne
      have r3 : Refs [f0, f1] [] k2 := r2.recount (List.Perm.swap _ _ _)
      split at hs
      · rw [bind_map_closed] at hs
        obtain ⟨k3, h3, h4⟩ := closeBoth_refs r3
        rw [h3] at hs
        cases hs
        exact ⟨h4, fun hn => absurd rfl hn⟩
      · cases hs
        refine ⟨?_, fun _ => p2.trans p1⟩
        have r4 := r3.setPipes (update k2.pipes pi ⟨true, true⟩) (k2.vfs.pages - 1)
        have r5 := setPipe_refs r4 (f := f0) (by simp) (by rw [hother]; exact o1)
          (by rw [hother, n1]; simp) pi true false
        refine setPipe_refs r5 (f := f1) (by simp) ?_ ?_ pi false true
        · simp only [Kernel.setFile, update_of_ne hne.symm]
          exact o2
        · simp only [Kernel.setFile, update_of_ne hne.symm]
          rw [n2]
          simp

theorem sysPipe_refs (h : Refs [] [] k) (hp : k.running p = true) {copied : Bool}
    (hs : sysPipe p pi copied k = some (r, k')) : Refs [] [] k' := by
  obtain ⟨hp, hlive⟩ := running_iff.mp hp
  obtain ⟨⟨o, k1⟩, h1, hs⟩ := bind_eq_some_iff.mp hs
  obtain ⟨r1, hprocs⟩ := pipealloc_refs h h1
  cases o with
  | none =>
    cases hs
    exact r1
  | some x =>
    obtain ⟨rf, wf⟩ := x
    have hlive1 : (k1.procs p).state = .live := by
      rwa [hprocs (by simp)]
    have hclose : ∀ k2, Refs [rf, wf] [] k2 →
        ((fileclose rf k2).bind fun k3 => (fileclose wf k3).map fun k4 => ((-1 : Int), k4)) =
          some (r, k') → Refs [] [] k' := by
      intro k2 hk hs
      rw [bind_map_closed] at hs
      obtain ⟨k3, h3, h4⟩ := closeBoth_refs hk
      rw [h3] at hs
      cases hs
      exact h4
    dsimp only at hs
    split at hs
    · exact hclose k1 r1 hs
    case h_2 fd0 k2 h2 =>
      have r2 := fdalloc_refs r1 hp hlive1 h2
      obtain ⟨-, -, rfl⟩ := fdalloc_spec h2
      have hs0 : ((k1.setFd p fd0 (some rf)).procs p).ofile fd0 = some rf := by
        simp [Kernel.setFd, Kernel.setProc]
      split at hs
      · exact hclose _ (take_refs r2 hs0) hs
      case h_2 fd1 k3 h3 =>
        have hlive2 : ((k1.setFd p fd0 (some rf)).procs p).state = .live := by
          simpa [Kernel.setFd, Kernel.setProc] using hlive1
        have r3 := fdalloc_refs r2 hp hlive2 h3
        obtain ⟨-, hnone, rfl⟩ := fdalloc_spec h3
        have hne : fd0 ≠ fd1 := by
          rintro rfl
          rw [hs0] at hnone
          simp at hnone
        split at hs
        · cases hs
          exact r3
        · refine hclose _ ((take_refs (take_refs r3 (f := rf) ?_) (f := wf) ?_).recount (List.Perm.swap _ _ _)) hs
          · simp [Kernel.setFd, Kernel.setProc, hne]
          · simp [Kernel.setFd, Kernel.setProc, hne.symm]

end Calls

end Xv6Vfs.Fd
