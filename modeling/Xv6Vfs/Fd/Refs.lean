import Mathlib.Data.List.ProdSigma
import Xv6Vfs.Fd.File
import Xv6Vfs.Vfs.Table

/-! Who owns what: descriptor slots own file references, open files and current directories own
vnode references. `Refs ex vx` allows for references `ex` and `vx` that the system call in
progress holds. -/
namespace Xv6Vfs.Fd
open Xv6Vfs.Vfs Xv6Vfs.Count Function List

variable {s : State} {f fd p : Nat} {ex' vx' : List Nat}

def allFds : List (Nat × Nat) := List.range nproc ×ˢ List.range nofile

def slot (k : Kernel) (q : Nat × Nat) : Option Nat := (k.procs q.1).ofile q.2

/-- The number of descriptors, over all processes, that point to file `f`. -/
def slots (k : Kernel) (f : Nat) : Nat := held allFds (slot k) f

/-- The vnode a file owns. -/
def File.owns (x : File) : Option Nat :=
  if x.type = .inode ∨ x.type = .device then x.vnode else none

def vnodesHeld (k : Kernel) : List Nat :=
  (List.range nfile).filterMap (fun f => (k.files f).owns) ++
    (List.range nproc).filterMap (fun p => (k.procs p).cwd)

structure Refs (ex vx : List Nat) (k : Kernel) : Prop where
  count : ∀ f < nfile, (k.files f).ref = slots k f + ex.count f
  bound : ∀ p fd f, (k.procs p).ofile fd = some f → p < nproc ∧ fd < nofile ∧ f < nfile
  taken : ∀ f ∈ ex, f < nfile
  free : ∀ f, (k.files f).ref = 0 → (k.files f).type = .none
  vnode : ∀ f, (k.files f).type = .inode ∨ (k.files f).type = .device → (k.files f).vnode.isSome
  idle : ∀ p, (k.procs p).state ≠ .live → (∀ fd, (k.procs p).ofile fd = none) ∧ (k.procs p).cwd = none
  cwd : ∀ p, (k.procs p).cwd.isSome → p < nproc
  core : Core k.vfs (vx ++ vnodesHeld k)
  only : ∀ m, (k.vfs.mounts m).isSome → m ∈ k.vfs.mounttable

theorem Core.recount {l l' : List Nat} (h : Core s l) (hc : ∀ i, l'.count i = l.count i) : Core s l' :=
  h.transfer rfl rfl (fun i => by
    have := h.owns i
    simp only [count_append, hc] at this ⊢
    exact this) h.filled fun _ _ _ => rfl

theorem allFds_nodup : allFds.Nodup := nodup_range.product nodup_range

theorem mem_allFds (hp : p < nproc) (hfd : fd < nofile) : (p, fd) ∈ allFds :=
  mem_product.mpr ⟨mem_range.mpr hp, mem_range.mpr hfd⟩

theorem slot_setFd (k : Kernel) (p fd : Nat) (x : Option Nat) : slot (k.setFd p fd x) = update (slot k) (p, fd) x := by
  funext ⟨q, fd'⟩
  by_cases hq : q = p
  · subst hq
    by_cases hf : fd' = fd
    · subst hf
      simp [slot, Kernel.setFd, Kernel.setProc]
    · simp [slot, Kernel.setFd, Kernel.setProc, hf]
  · simp [slot, Kernel.setFd, Kernel.setProc, hq]

theorem slots_setFile (k : Kernel) (f g : Nat) (x : File) : slots (k.setFile f x) g = slots k g := rfl

theorem vnodesHeld_setFd (k : Kernel) (p fd : Nat) (x : Option Nat) : vnodesHeld (k.setFd p fd x) = vnodesHeld k := by
  have h : (fun q => ((k.setFd p fd x).procs q).cwd) = fun q => (k.procs q).cwd := by
    funext q
    by_cases hq : q = p
    · subst hq
      simp [Kernel.setFd, Kernel.setProc]
    · simp [Kernel.setFd, Kernel.setProc, hq]
  simp only [vnodesHeld, h]
  rfl

theorem vnodesHeld_setFile (k : Kernel) (hf : f < nfile) (x : File) (i : Nat) :
    (vnodesHeld (k.setFile f x)).count i + (if (k.files f).owns = some i then 1 else 0) =
      (vnodesHeld k).count i + if x.owns = some i then 1 else 0 := by
  have h1 : (fun g => ((k.setFile f x).files g).owns) =
      update (fun g => (k.files g).owns) f x.owns := by
    funext g
    by_cases hg : g = f
    · subst hg
      simp [Kernel.setFile]
    · simp [Kernel.setFile, hg]
  have h2 := held_update nodup_range (fun g => (k.files g).owns) (mem_range.mpr hf) x.owns i
  simp only [vnodesHeld, h1, count_append]
  simp only [held] at h2
  have h3 : (k.setFile f x).procs = k.procs := rfl
  rw [h3]
  omega

section Refs

variable {ex vx : List Nat} {k : Kernel}

section

variable (h : Refs ex vx k)
include h

theorem Refs.recount (hp : ex.Perm ex') : Refs ex' vx k :=
  { h with
    count := fun f hf => by rw [← hp.count_eq f]; exact h.count f hf
    taken := fun f hf => h.taken f (hp.mem_iff.mpr hf) }

theorem Refs.setVfs (hc : Core s (vx' ++ vnodesHeld k))
    (ho : ∀ m, (s.mounts m).isSome → m ∈ s.mounttable) : Refs ex vx' { k with vfs := s } :=
  { h with core := hc, only := ho }

theorem Refs.setFile (hf : f < nfile) {x : File}
    (href : x.ref + ex.count f = (k.files f).ref + ex'.count f) (hother : ∀ g, g ≠ f → ex'.count g = ex.count g)
    (hfree : x.ref = 0 → x.type = .none) (hv : x.type = .inode ∨ x.type = .device → x.vnode.isSome)
    (hc : Core k.vfs (vx' ++ vnodesHeld (k.setFile f x))) : Refs ex' vx' (k.setFile f x) where
  count := by
    intro g hg
    have h1 := h.count f hf
    rw [slots_setFile]
    by_cases he : g = f
    · subst he
      simp only [Kernel.setFile, update_self]
      omega
    · simp only [Kernel.setFile, update_of_ne he, hother g he]
      exact h.count g hg
  bound := h.bound
  taken := by
    intro g hg
    by_cases he : g = f
    · exact he ▸ hf
    · have h1 := count_pos_iff.mpr hg
      rw [hother g he] at h1
      exact h.taken g (count_pos_iff.mp h1)
  free := by
    intro g
    by_cases he : g = f
    · subst he
      simpa [Kernel.setFile] using hfree
    · simpa [Kernel.setFile, he] using h.free g
  vnode := by
    intro g
    by_cases he : g = f
    · subst he
      simpa [Kernel.setFile] using hv
    · simpa [Kernel.setFile, he] using h.vnode g
  idle := h.idle
  cwd := h.cwd
  core := hc
  only := h.only

theorem Refs.setRef {n : Nat} (hf : f < nfile)
    (href : n + ex.count f = (k.files f).ref + ex'.count f) (hother : ∀ g, g ≠ f → ex'.count g = ex.count g)
    (hn : n ≠ 0) : Refs ex' vx (k.setFile f { k.files f with ref := n }) := by
  refine h.setFile hf href hother (fun h0 => absurd h0 hn) (h.vnode f) (Core.recount h.core fun i => ?_)
  have h1 := vnodesHeld_setFile k hf { k.files f with ref := n } i
  have h2 : File.owns { k.files f with ref := n } = (k.files f).owns := rfl
  rw [h2] at h1
  rw [count_append, count_append]
  exact congrArg (vx.count i + ·) (Nat.add_right_cancel h1)

theorem Refs.setFd (hp : p < nproc) (hfd : fd < nofile) {x : Option Nat}
    (hlive : x.isSome → (k.procs p).state = .live) (hx : ∀ f, x = some f → f < nfile) (hex : ∀ f ∈ ex', f < nfile)
    (hc : ∀ f < nfile, (if x = some f then 1 else 0) + ex'.count f = (if (k.procs p).ofile fd =
      some f then 1 else 0) + ex.count f) : Refs ex' vx (k.setFd p fd x) where
  count := by
    intro f hf
    have h1 := h.count f hf
    have h2 := held_update allFds_nodup (slot k) (mem_allFds hp hfd) x f
    have h3 := hc f hf
    have h4 : slot k (p, fd) = (k.procs p).ofile fd := rfl
    have h5 : ((k.setFd p fd x).files f).ref = (k.files f).ref := rfl
    rw [h4] at h2
    rw [h5]
    simp only [slots, slot_setFd] at h1 ⊢
    omega
  bound := by
    intro q fd' f hs
    have h1 : slot (k.setFd p fd x) (q, fd') = some f := hs
    rw [slot_setFd] at h1
    by_cases he : (q, fd') = (p, fd)
    · cases he
      rw [update_self] at h1
      exact ⟨hp, hfd, hx f h1⟩
    · rw [update_of_ne he] at h1
      exact h.bound q fd' f h1
  taken := hex
  free := h.free
  vnode := h.vnode
  idle := by
    intro q hq
    by_cases he : q = p
    · subst he
      have hst : (k.procs q).state ≠ .live := by
        simpa [Kernel.setFd, Kernel.setProc] using hq
      have hxn : x = none := by
        by_contra hx
        exact hst (hlive (Option.isSome_iff_ne_none.mpr hx))
      obtain ⟨h1, h2⟩ := h.idle q hst
      refine ⟨fun fd' => ?_, by simpa [Kernel.setFd, Kernel.setProc] using h2⟩
      by_cases hf : fd' = fd
      · simp [Kernel.setFd, Kernel.setProc, hf, hxn]
      · simp [Kernel.setFd, Kernel.setProc, hf, h1 fd']
    · simpa [Kernel.setFd, Kernel.setProc, he] using h.idle q (by
        simpa [Kernel.setFd, Kernel.setProc, he] using hq)
  cwd := by
    intro q hq
    refine h.cwd q ?_
    by_cases he : q = p
    · subst he
      simpa [Kernel.setFd, Kernel.setProc] using hq
    · simpa [Kernel.setFd, Kernel.setProc, he] using hq
  core := by
    rw [vnodesHeld_setFd]
    exact h.core
  only := h.only

end

end Refs

end Xv6Vfs.Fd
