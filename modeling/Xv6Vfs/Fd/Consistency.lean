import Xv6Vfs.Fd.Process
import Xv6Vfs.Vfs.MountRun

/-! Descriptors and file references agree over whole runs, up to the device nodes that
`sys_open` refuses. -/
namespace Xv6Vfs.Fd
open Xv6Vfs.Vfs Xv6Vfs.Count List Option

variable {path : Option (List UInt8)}

/-- Each reference count is the number of descriptors on the file, and no descriptor points to
a file without references. -/
def Consistent (k : Kernel) : Prop :=
  (∀ f < nfile, (k.files f).ref = slots k f) ∧
    ∀ p < nproc, ∀ fd < nofile, ∀ f, (k.procs p).ofile fd = some f → (k.files f).ref ≠ 0

/-- The descriptors of `p` and all reference counts are as before. -/
def Undone (p : Nat) (k k' : Kernel) : Prop :=
  (k'.procs p).ofile = (k.procs p).ofile ∧ (∀ f, (k'.files f).ref = (k.files f).ref) ∧
    ∀ i, refs k'.vfs i = refs k.vfs i

/-- The path names a device node with a major number outside the table, while a file and a
descriptor are free. -/
def RefusedDevice (k : Kernel) (p : Nat) (c : Content) (path : Option (List UInt8)) (mode : Nat) :
    Prop :=
  ∃ name vp s, path = some name ∧ vfsOpen c (k.procs p).cwd name mode k.vfs = some (some vp, s) ∧
    badMajor (s.vnodes vp) = true ∧ (∃ f < nfile, (k.files f).ref = 0) ∧
      ∃ fd < nofile, (k.procs p).ofile fd = none

/-- What a step has to meet: the walk finds ".." in every mountpoint, and no refused device. -/
def Op.sound (k : Kernel) : Op → Prop
  | .open p c path mode => UpFound c k.vfs ∧ ¬ RefusedDevice k p c path mode
  | _ => True

section Open

variable {k k' : Kernel} {p : Nat} {c : Content} {mode vp f : Nat}

theorem Refs.consistent (h : Refs [] [] k) : Consistent k := by
  refine ⟨fun f hf => by simpa using h.count f hf, fun p hp fd hfd f hs h0 => ?_⟩
  have h1 := h.count f (h.bound p fd f hs).2.2
  have h2 : 0 < slots k f := held_pos (mem_allFds hp hfd) hs
  omega

theorem Refs.mountsLive (h : Refs [] [] k) : MountsLive k.vfs :=
  Inv.mountsLive (y := ⟨k.vfs, vnodesHeld k⟩) ⟨h.core, h.only⟩

/-- `vfs_open` hands over one reference, or none. -/
theorem Refs.opened (h : Refs [] [] k) (hp : p < nproc) (hup : UpFound c k.vfs) {name : List UInt8}
    {r : Option Nat × State} (hr : vfsOpen c (k.procs p).cwd name mode k.vfs = some r) :
    Holds k.vfs r.1.toList r.2 ∧ Refs [] r.1.toList { k with vfs := r.2 } := by
  have hh := vfsOpen_holds c (k.procs p).cwd name mode h.mountsLive hup
    (fun i hi => h.core.live (.inl (mem_vnodesHeld_cwd hp hi))) hr
  refine ⟨hh, h.setVfs (h.core.holds hh) ?_⟩
  rw [hh.mounts, hh.table]
  exact h.only

theorem vfsTruncate_holds (vp : Nat) (s : State) : Holds s [] (vfsTruncate vp s) := by
  have hv : ∀ i, ident ((vfsTruncate vp s).vnodes i) = ident (s.vnodes i) ∧
      refs (vfsTruncate vp s) i = refs s i := by
    intro i
    by_cases hi : i = vp
    · subst hi
      simp [vfsTruncate, State.setVnode, ident, refs]
    · simp [vfsTruncate, State.setVnode, refs, hi]
  have hold : ∀ i, 0 < refs (vfsTruncate vp s) i → 0 < refs s i ∧ _ := fun i hi => ⟨(hv i).2 ▸ hi, (hv i).1⟩
  exact ⟨fun i => (hv i).2, fun i _ => (hv i).1, rfl, rfl, (·.congr hold), (·.congr rfl hold), fun _ => rfl⟩

theorem Refs.giveVnode (h : Refs [] [vp] k) (hf : f < nfile) (howns : (k.files f).owns = none) {x : File}
    (href : x.ref = (k.files f).ref) (hpos : x.ref ≠ 0) (ht : x.type = .inode ∨ x.type = .device)
    (hv : x.vnode = some vp) : Refs [] [] (k.setFile f x) := by
  have hx : x.owns = some vp := by rw [File.owns, if_pos ht, hv]
  refine h.setFile hf (by rw [href]) (fun _ _ => rfl) (fun h0 => absurd h0 hpos)
    (fun _ => by simp [hv]) (Core.recount h.core fun i => ?_)
  have h1 := vnodesHeld_setFile k hf x i
  rw [howns, hx] at h1
  simp only [reduceCtorEq, if_false, Nat.add_zero, some.injEq] at h1
  rw [nil_append, h1, count_append, count_singleton]
  simp only [beq_iff_eq]
  omega

theorem openFill_refs (h : Refs [] [vp] k) (hf : f < nfile) (howns : (k.files f).owns = none)
    (href : (k.files f).ref ≠ 0) : Refs [] [] (openFill mode vp f k) := by
  have hs : ∀ b : Prop, [Decidable b] →
      Refs [] [vp] { k with vfs := if b then vfsTruncate vp k.vfs else k.vfs } := by
    intro b _
    split
    · exact h.setVfs (h.core.holds (vfsTruncate_holds vp k.vfs)) h.only
    · exact h
  have h1 := hs (mode.testBit oTrunc = true ∧ (k.vfs.vnodes vp).type = .file)
  refine h1.giveVnode hf howns rfl href ?_ rfl
  split
  · exact .inr rfl
  · exact .inl rfl

/-- The file taken and given back: nothing else happens in `fileclose`. -/
theorem fileclose_unused (ht : (k.files f).type = .none) (href : (k.files f).ref = 1) :
    fileclose f k = some (k.setFile f (k.files f).freed) := by
  simp [fileclose, ht, href]

/-- `sys_open` keeps the counts, and a failing one takes everything back, unless the vnode is a
refused device. -/
theorem sysOpen_refs (h : Refs [] [] k) (hp : k.running p = true) (hup : UpFound c k.vfs)
    (hdev : ¬ RefusedDevice k p c path mode) {r : Int} (hs : sysOpen p c path mode k = some (r, k')) :
    Refs [] [] k' ∧ (r = -1 → Undone p k k') := by
  obtain ⟨hp, hlive⟩ := running_iff.mp hp
  cases path with
  | none =>
    cases hs
    exact ⟨h, fun _ => ⟨rfl, fun _ => rfl, fun _ => rfl⟩⟩
  | some name =>
    obtain ⟨⟨o, s⟩, h1, hs⟩ := bind_eq_some_iff.mp hs
    obtain ⟨hh, r1⟩ := h.opened hp hup h1
    cases o with
    | none =>
      cases hs
      exact ⟨r1, fun _ => ⟨rfl, fun _ => rfl, fun i => by simpa using hh.count i⟩⟩
    | some vp =>
      obtain ⟨s2, hput, hcount, -⟩ := hh.put
      obtain ⟨s3, hput3, hcore, hm3, ht3⟩ := Core.put r1.core
      obtain rfl : s2 = s3 := some.inj (hput.symm.trans hput3)
      have r2 := r1.setVfs hcore (by rw [hm3, ht3]; exact r1.only)
      have hrefs : ∀ i, refs s2 i = refs k.vfs i := fun i => by simpa using hcount.count i
      dsimp only at hs
      split at hs
      · rw [hput] at hs
        cases hs
        exact ⟨r2, fun _ => ⟨rfl, fun _ => rfl, hrefs⟩⟩
      case h_2 f k2 hfa =>
        have r3 := filealloc_refs r1 hfa
        obtain ⟨howns, href, -, -, -⟩ := filealloc_owns r1 hfa
        obtain ⟨hf, hf0, rfl⟩ := filealloc_spec hfa
        split at hs
        · -- No descriptor: the file goes back with its count of 0.
          obtain ⟨k3, hclose, r4⟩ := fileclose_refs r3
          have hk3 := hclose.symm.trans (fileclose_unused (by
            simp only [Kernel.setFile, Function.update_self]
            exact h.free f hf0) href)
          cases hk3
          rw [hclose, bind_some] at hs
          obtain ⟨s4, hput4, hcore4, hm4, ht4⟩ := Core.put r4.core
          obtain rfl : s2 = s4 := some.inj (hput.symm.trans hput4)
          have hs' := (congrArg (Option.map _) hput4).symm.trans hs
          cases hs'
          refine ⟨r4.setVfs hcore4 (by rw [hm4, ht4]; exact r4.only), fun _ => ⟨rfl, fun g => ?_, hrefs⟩⟩
          by_cases hg : g = f
          · subst hg
            simp [Kernel.setFile, File.freed, show (k.files g).ref = 0 from hf0]
          · simp [Kernel.setFile, hg]
        case h_2 fd k3 hfd =>
          have r4 := fdalloc_refs r3 hp hlive hfd
          obtain ⟨hfd16, hfdn, rfl⟩ := fdalloc_spec hfd
          split at hs
          case isTrue hbad =>
            exact absurd ⟨name, vp, s, rfl, h1, hbad, ⟨f, hf, hf0⟩, fd, hfd16, hfdn⟩ hdev
          case isFalse =>
            cases hs
            refine ⟨openFill_refs r4 hf howns fun h0 => absurd (href.symm.trans h0) Nat.one_ne_zero, fun hr => ?_⟩
            omega

theorem filealloc_some (h : ∃ f < nfile, (k.files f).ref = 0) : ∃ f k', filealloc k = some (f, k') := by
  cases hfind : (List.range nfile).find? fun f => (k.files f).ref = 0 with
  | none =>
    obtain ⟨f, hf, h0⟩ := h
    have := find?_eq_none.mp hfind f (mem_range.mpr hf)
    simp [h0] at this
  | some f => exact ⟨f, _, by rw [filealloc, hfind, map_some]⟩

theorem fdalloc_some (f : Nat) (h : ∃ fd < nofile, (k.procs p).ofile fd = none) :
    ∃ fd k', fdalloc p f k = some (fd, k') := by
  cases hfind : (List.range nofile).find? fun fd => (k.procs p).ofile fd = none with
  | none =>
    obtain ⟨fd, hfd, h0⟩ := h
    have := find?_eq_none.mp hfind fd (mem_range.mpr hfd)
    simp [h0] at this
  | some fd => exact ⟨fd, _, by rw [fdalloc, hfind, map_some]⟩

/-- A refused device leaves the caller with a descriptor on a free file. -/
theorem refused_dangles (h : Refs [] [] k) (hp : k.running p = true) (hup : UpFound c k.vfs)
    (hdev : RefusedDevice k p c path mode) :
    ∃ k', sysOpen p c path mode k = some (-1, k') ∧ ¬ Consistent k' ∧ ¬ Undone p k k' := by
  obtain ⟨hp, -⟩ := running_iff.mp hp
  obtain ⟨name, vp, s, rfl, hopen, hbad, hfile, hfd⟩ := hdev
  obtain ⟨hh, r1⟩ := h.opened hp hup hopen
  obtain ⟨s2, hput, -⟩ := hh.put
  obtain ⟨f, k2, hfa⟩ := filealloc_some (k := { k with vfs := s }) hfile
  obtain ⟨-, href, -, hprocs, hvfs⟩ := filealloc_owns r1 hfa
  obtain ⟨hf, hf0, hk2⟩ := filealloc_spec hfa
  have htype : (k2.files f).type = .none := by
    rw [hk2]
    simp only [Kernel.setFile, Function.update_self]
    exact h.free f hf0
  obtain ⟨fd, k3, hfda⟩ := fdalloc_some (k := k2) (p := p) f (by rw [hprocs]; exact hfd)
  obtain ⟨hfd16, hnone, rfl⟩ := fdalloc_spec hfda
  have hclose := fileclose_unused (f := f) (k := { k2.setFd p fd (some f) with vfs := s2 }) htype href
  refine ⟨{ k2.setFd p fd (some f) with vfs := s2 }.setFile f (k2.files f).freed, ?_, fun hc => ?_, fun hu => ?_⟩
  · have hvfs3 : (k2.setFd p fd (some f)).vfs = s := hvfs
    simp only [sysOpen, hopen, bind_some, hfa, hfda, hvfs3]
    rw [if_pos hbad, show vput vp s = some s2 from hput, bind_some, hclose]
    rfl
  · refine hc.2 p hp fd hfd16 f ?_ ?_
    · simp [Kernel.setFile, Kernel.setFd, Kernel.setProc]
    · simp [Kernel.setFile, File.freed]
  · have h1 := congrFun hu.1 fd
    rw [hprocs] at hnone
    rw [show (k.procs p).ofile fd = none from hnone] at h1
    simp [Kernel.setFile, Kernel.setFd, Kernel.setProc] at h1

end Open

section Run

variable {k k' : Kernel}

theorem exec_refs {op : Op} (h : Refs [] [] k) (hok : op.sound k) (hs : exec op k = some k') : Refs [] [] k' := by
  have hcall : ∀ {p : Nat} {o : Option (Int × Kernel)},
      (if k.running p then o.map Prod.snd else none) = some k' →
        k.running p = true ∧ ∃ r, o = some (r, k') := by
    intro p o ho
    split at ho
    case isTrue hp =>
      obtain ⟨⟨r, k1⟩, h1, rfl⟩ := map_eq_some_iff.mp ho
      exact ⟨hp, r, h1⟩
    · simp at ho
  cases op with
  | «open» p c path mode =>
    obtain ⟨hp, r, h1⟩ := hcall hs
    exact (sysOpen_refs h hp hok.1 hok.2 h1).1
  | dup p fd =>
    obtain ⟨hp, r, h1⟩ := hcall hs
    exact sysDup_refs h hp h1
  | close p fd =>
    obtain ⟨-, r, h1⟩ := hcall hs
    exact sysClose_refs h h1
  | pipe p pi copied =>
    obtain ⟨hp, r, h1⟩ := hcall hs
    exact sysPipe_refs h hp h1
  | fork p memory =>
    obtain ⟨hp, r, h1⟩ := hcall hs
    exact kfork_refs h hp h1
  | exit p =>
    simp only [exec] at hs
    split at hs
    case isTrue hp => exact kexit_refs h hp hs
    · simp at hs
  | wait p => exact reap_refs h hs
  | memory n =>
    cases hs
    exact h.setPipes k.pipes n

end Run

/-- In every run of system calls that opens no refused device, the counts agree with the
descriptors; there an open keeps them and undoes itself when it fails exactly if it does not
meet a refused device. -/
theorem descriptors_consistent_iff (k0 k : Kernel) (ops : List Op) (h0 : Refs [] [] k0)
    (hok : Run.Meets exec Op.sound ops k0) (hrun : Run.run exec ops k0 = some k) :
    Consistent k ∧ ∀ p c path mode, k.running p = true → UpFound c k.vfs →
      ((∀ r k', sysOpen p c path mode k = some (r, k') →
        Consistent k' ∧ (r = -1 → Undone p k k')) ↔ ¬ RefusedDevice k p c path mode) := by
  have h : Refs [] [] k :=
    Run.run_invariant (Refs [] []) (fun _ _ _ hinv hop hs => exec_refs hinv hop hs) h0 hok hrun
  refine ⟨h.consistent, fun p c path mode hp hup => ⟨fun hall hdev => ?_, fun hdev r k' hs => ?_⟩⟩
  · obtain ⟨k', hs, hbad, -⟩ := refused_dangles h hp hup hdev
    exact hbad (hall _ k' hs).1
  · obtain ⟨h1, h2⟩ := sysOpen_refs h hp hup hdev hs
    exact ⟨h1.consistent, h2⟩

/-- The first process runs, with current directory `d`, and nothing is open. -/
def boot (s : State) (d : Nat) : Kernel where
  vfs := s
  files _ := ⟨.none, 0, false, false, 0, none, 0, 0, false⟩
  procs p := if p = 0 then ⟨.live, fun _ => none, some d⟩ else ⟨.unused, fun _ => none, none⟩
  pipes _ := ⟨false, false⟩

theorem boot_refs {s : State} {d : Nat} (h : Inv ⟨s, [d]⟩) : Refs [] [] (boot s d) where
  count f _ := by
    have h1 : slot (boot s d) = fun _ => none := by
      funext ⟨p, fd⟩
      by_cases hp : p = 0 <;> simp [slot, boot, hp]
    rw [slots, h1]
    simp [held, boot]
  bound p fd f hs := by
    by_cases hp : p = 0 <;> simp [boot, hp] at hs
  taken := by simp
  free _ _ := rfl
  vnode _ hs := by simp [boot] at hs
  idle p hs := by
    by_cases hp : p = 0 <;> simp_all [boot]
  cwd p hs := by
    by_cases hp : p = 0
    · simp [hp, nproc]
    · simp [boot, hp] at hs
  core := h.core
  only := h.only

/-- An xv6fs with a file "a" and a device node "d" of major number 20 in its root. -/
def oneDevice : Content where
  search _ _ name :=
    match name with
    | [97] => some ⟨5, 0, .file, 0, 0, 0⟩
    | [100] => some ⟨6, 0, .dev, 20, 0, 0⟩
    | [46, 46] => some ⟨1, 0, .dir, 0, 0, 64⟩
    | _ => none
  rootClus _ := 2
  image _ _ := some (.dir, 64)
  create _ _ _ := none

def mountRoot : List Vfs.Op :=
  [.mount oneDevice none [47] 1 (some .xv6fs) 10, .namei oneDevice none [47]]

theorem oneDevice_upFound (s : State) : UpFound oneDevice s :=
  fun _ _ _ _ _ _ _ => .inr rfl

theorem mountRoot_refs {y : Sys} (hy : Run.run Vfs.exec mountRoot (vfsInit 100) = some y)
    (hheld : y.held = [0]) : Refs [] [] (boot y.vfs 0) := by
  have hinv : Inv y := by
    refine run_inv (vfsInit_inv 100) (Run.Meets.of_forall (fun op hop z => ?_) _) hy
    simp only [mountRoot, mem_cons, not_mem_nil, or_false] at hop
    rcases hop with rfl | rfl
    · exact oneDevice_upFound z.vfs
    · exact oneDevice_upFound z.vfs
  refine boot_refs ?_
  rwa [← hheld]

/-- Opening "/d" returns -1 and leaves descriptor 0 on a free file. -/
theorem refused_device_breaks : ∃ y k, Run.run Vfs.exec mountRoot (vfsInit 100) = some y ∧
    Refs [] [] (boot y.vfs 0) ∧
    sysOpen 0 oneDevice (some [47, 100]) 0 (boot y.vfs 0) = some (-1, k) ∧
    ¬ Consistent k ∧ ¬ Undone 0 (boot y.vfs 0) k := by
  have h : ((Run.run Vfs.exec mountRoot (vfsInit 100)).bind fun y =>
      (sysOpen 0 oneDevice (some [47, 100]) 0 (boot y.vfs 0)).map fun r =>
        (y.held, r.1, (r.2.procs 0).ofile 0, (r.2.files 0).ref)) = some ([0], -1, some 0, 0) := by
    decide +kernel
  obtain ⟨y, hy, h1⟩ := bind_eq_some_iff.mp h
  obtain ⟨⟨r, k⟩, hopen, he⟩ := map_eq_some_iff.mp h1
  simp only [Prod.mk.injEq] at he
  obtain ⟨hheld, rfl, hfd, href⟩ := he
  refine ⟨y, k, hy, mountRoot_refs hy hheld, hopen, fun hc => ?_, fun hu => ?_⟩
  · exact hc.2 0 (by decide) 0 (by decide) 0 hfd href
  · rw [hu.1] at hfd
    simp [boot] at hfd

/-- Opening "/a", duplicating the descriptor, a fork and the exit of the child. -/
def ordinaryCalls : List Op :=
  [.open 0 oneDevice (some [47, 97]) 2, .dup 0 0, .fork 0 true, .exit 1]

theorem ordinary_calls_consistent : ∃ y k, Run.run Vfs.exec mountRoot (vfsInit 100) = some y ∧
    Run.run exec ordinaryCalls (boot y.vfs 0) = some k ∧ (k.files 0).ref = 2 ∧ Consistent k := by
  have h : ((Run.run Vfs.exec mountRoot (vfsInit 100)).bind fun y =>
      (vfsOpen oneDevice (some 0) [47, 97] 2 y.vfs).bind fun r =>
        (Run.run exec ordinaryCalls (boot y.vfs 0)).map fun k =>
          (y.held, r.1.map fun vp => badMajor (r.2.vnodes vp), (k.files 0).ref)) =
      some ([0], some false, 2) := by
    decide +kernel
  obtain ⟨y, hy, h1⟩ := bind_eq_some_iff.mp h
  obtain ⟨r, hr, h2⟩ := bind_eq_some_iff.mp h1
  obtain ⟨k, hk, he⟩ := map_eq_some_iff.mp h2
  simp only [Prod.mk.injEq] at he
  obtain ⟨hheld, hbad, href⟩ := he
  have hok : Run.Meets exec Op.sound ordinaryCalls (boot y.vfs 0) := by
    refine ⟨⟨oneDevice_upFound _, ?_⟩, fun _ _ => ⟨trivial, fun _ _ => ⟨trivial, fun _ _ =>
      ⟨trivial, fun _ _ => trivial⟩⟩⟩⟩
    rintro ⟨name, vp, s, hn, hopen, hb, -⟩
    cases hn
    cases hr.symm.trans hopen
    simp [hb] at hbad
  exact ⟨y, k, hy, hk, href,
    (descriptors_consistent_iff (boot y.vfs 0) k _ (mountRoot_refs hy hheld) hok hk).1⟩

end Xv6Vfs.Fd
