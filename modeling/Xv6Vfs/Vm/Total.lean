import Xv6Vfs.Vm.Teardown

/-! On a file with a layout that fits, `kexec` succeeds or fails cleanly. -/
namespace Xv6Vfs.Vm
open Xv6Vfs.Radix Xv6Vfs.Bytes Xv6Vfs.Vfs Option

variable {len sp sz : Nat} {ranges : List (Nat × Nat)}

section Headers

variable {h : Hal} {pas : Nat → Nat} {free0 : List Nat} {file : List UInt8}

theorem Ph.rejected_false {ph : Ph} (hr : ¬ ph.rejected = true) :
    ph.filesz ≤ ph.memsz ∧ ph.vaddr + ph.memsz < 2 ^ 64 ∧ ph.vaddr % pgsize = 0 := by
  simp only [Ph.rejected, decide_eq_true_eq, not_or, not_lt, not_le, not_not] at hr
  exact hr

/-- The loop over the headers builds an image, whether or not it gets to its end. -/
theorem loadHeaders_spec (hs : List (Option Ph)) {pt : PT h} {free : List Nat}
    (hi : Image h pas free0 sz ranges pt free) (hl : LayoutFrom h file hs sz ranges) :
    ∃ ok sz' pt' free' ranges', loadHeaders h file hs sz pt free = some (ok, sz', pt', free') ∧
      Image h pas free0 sz' ranges' pt' free' ∧
      (ok = true → pgRoundUp sz' + (userstack + 1) * pgsize ≤ h.top) := by
  induction hs generalizing sz ranges pt free with
  | nil => exact ⟨true, sz, pt, free, ranges, rfl, hi, fun _ => hl⟩
  | cons o rest ih =>
    cases o with
    | none => exact ⟨false, sz, pt, free, ranges, rfl, hi, by simp⟩
    | some ph =>
      simp only [LayoutFrom] at hl
      simp only [loadHeaders]
      by_cases htype : ph.type ≠ elfProgLoad
      · rw [if_pos htype] at hl ⊢
        exact ih hi hl
      by_cases hrej : ph.rejected = true
      · rw [if_neg htype, if_pos hrej]
        exact ⟨false, sz, pt, free, ranges, rfl, hi, by simp⟩
      rw [if_neg htype, if_neg hrej] at hl ⊢
      obtain ⟨hfit, hrest⟩ := hl
      have hstart := hfit.start
      have hlow := hi.low
      have hi0 : Image h pas free0 (max sz ph.vaddr) ranges pt free :=
        hi.grow (Nat.le_max_left _ _) (Nat.max_le.mpr ⟨hlow, hstart⟩)
      obtain ⟨r, pt1, free1, h1, h2, -⟩ := hi0.uvmalloc_spec (ph.vaddr + ph.memsz)
        (ph.flags.testBit 1) (ph.flags.testBit 0) hfit.room
      simp only [h1, bind_some]
      rcases h2 with ⟨rfl, hi1⟩ | ⟨hr, hi1, -⟩
      · exact ⟨false, _, pt1, free1, ranges, rfl, hi1, by simp⟩
      by_cases hr0 : r = 0
      · rw [if_pos hr0]
        obtain ⟨hz, -⟩ := Nat.max_eq_zero_iff.mp (hr.symm.trans hr0)
        rw [hz]
        exact ⟨false, 0, pt1, free1, _, rfl, hr0 ▸ hi1, by simp⟩
      rw [if_neg hr0]
      obtain ⟨ok, h3, h4⟩ := hi1.loadseg_spec (Ph.rejected_false hrej).2.2
        hfit.covered hfit.ends
      simp only [h3, bind_some]
      cases ok with
      | false => exact ⟨false, r, pt1, free1, _, rfl, hi1, by simp⟩
      | true =>
        subst hr
        exact ih hi1 (hrest hr0 (h4.mp rfl))

end Headers

section Stack

variable {h : Hal} {pt : PT h} {free : List Nat} {stackbase : Nat}

/-- The stack: one page that the user may write, with room below it. -/
structure StackPage (h : Hal) (pt : PT h) (stackbase : Nat) : Prop where
  aligned : stackbase % pgsize = 0
  above : pgsize ≤ stackbase
  low : stackbase + pgsize ≤ maxva
  mapped : ∃ pg, get h.level pt (vpn stackbase) = some pg ∧ pg.user = true ∧ pg.write = true

/-- Moving the stack pointer down by `len` and to a multiple of 16 does not wrap. -/
theorem sp_below (h1 : len ≤ sp) (h2 : sp ≤ maxva) : (sp + 2 ^ 64 - len) % 2 ^ 64 / 16 * 16 + len ≤ sp := by
  simp only [maxva] at h2
  omega

/-- Copies to the stack page touch neither the process nor the free pages. -/
theorem StackPage.copyout (hs : StackPage h pt stackbase) (p : Proc h) (free : List Nat) (fuel : Nat)
    (h1 : stackbase ≤ sp) (h2 : sp + len ≤ stackbase + pgsize) :
    ∃ ok, copyout h pt fuel sp len p free = some (ok, p, free) := by
  cases fuel with
  | zero => exact ⟨true, rfl⟩
  | succ fuel =>
    simp only [Vm.copyout]
    by_cases h0 : len = 0
    · exact ⟨true, by rw [if_pos h0]⟩
    rw [if_neg h0]
    have hal := hs.aligned
    have hlow := hs.low
    obtain ⟨pg, hg, hu, hw⟩ := hs.mapped
    have hpage : pgRoundDown sp = stackbase := by
      simp only [pgRoundDown, pgsize] at *
      omega
    have hwalk : walkaddr h pt stackbase = some pg.pa := by
      rw [walkaddr, if_neg (by simp only [pgsize] at *; omega), hg, bind_some, if_pos hu]
    have hn : len - min (pgsize - (sp - stackbase)) len = 0 := by omega
    rw [hpage, if_neg (by simp only [pgsize] at *; omega), hwalk]
    simp only [bind_some, reached_of_get hg, hg, any_some, hw, hn]
    by_cases hpa : pg.pa = 0
    · exact ⟨false, by rw [if_pos hpa]⟩
    · refine ⟨true, ?_⟩
      rw [if_neg hpa, if_neg (by simp), if_pos trivial]
      cases fuel with
      | zero => rfl
      | succ fuel => simp [Vm.copyout]

theorem StackPage.pushArgs (hs : StackPage h pt stackbase) (p : Proc h) (free : List Nat) (argv : List (List UInt8))
    (hargs : ∀ arg ∈ argv, arg.length < pgsize) (argc : Nat) (h1 : stackbase ≤ sp) (h2 : sp ≤ stackbase + pgsize) :
    ∃ o, pushArgs h pt stackbase argv argc sp p free = some (o, p, free) ∧
      ∀ sp', o = some sp' → stackbase ≤ sp' ∧ sp' ≤ stackbase + pgsize := by
  induction argv generalizing argc sp with
  | nil =>
    refine ⟨some sp, rfl, fun sp' he => ?_⟩
    cases he
    exact ⟨h1, h2⟩
  | cons arg argv ih =>
    have hlen := hargs arg List.mem_cons_self
    have habove := hs.above
    have hlow := hs.low
    simp only [Vm.pushArgs]
    by_cases hmax : maxarg ≤ argc
    · exact ⟨none, by rw [if_pos hmax], by simp⟩
    rw [if_neg hmax]
    have hsp := sp_below (show arg.length + 1 ≤ sp by omega) (by omega)
    generalize (sp + 2 ^ 64 - (arg.length + 1)) % 2 ^ 64 / 16 * 16 = sp1 at hsp ⊢
    by_cases hlt : sp1 < stackbase
    · exact ⟨none, by rw [if_pos hlt], by simp⟩
    rw [if_neg hlt]
    have hfit : sp1 + (arg.length + 1) ≤ stackbase + pgsize := by omega
    obtain ⟨ok, hc⟩ := hs.copyout p free (arg.length + 1) (Nat.not_lt.mp hlt) hfit
    simp only [hc, bind_some]
    cases ok with
    | false => exact ⟨none, rfl, by simp⟩
    | true =>
      exact ih (fun a ha => hargs a (List.mem_cons_of_mem _ ha)) _ (by omega) (by omega)

variable {pas : Nat → Nat} {free0 : List Nat} {sz : Nat} {ranges : List (Nat × Nat)}

/-- Taking the user permission from a page leaves all pages where they are. -/
theorem Owned.clear (hi : Owned h pas free0 sz pt free) {va : Nat} (hva : va < maxva) :
    Owned h pas free0 sz
      (alter (fun pg => some { pg with user := false }) h.level pt (vpn va)) free := by
  have hget : ∀ v < keys h,
      get h.level (alter (fun pg => some { pg with user := false }) h.level pt (vpn va)) v =
        if v = vpn va then (get h.level pt v).map (fun pg => { pg with user := false })
        else get h.level pt v := by
    intro v hv
    have hs := same_iff (vpn_lt (h := h) hva) hv
    rw [alter_get]
    by_cases he : v = vpn va
    · rw [if_pos (hs.mpr he.symm), if_pos he, he]
      cases get h.level pt (vpn va) <;> rfl
    · rw [if_neg (fun hx => he (hs.mp hx).symm), if_neg he]
  refine ⟨hi.low, fun v hv hs => ?_, fun f hf => ?_, ?_⟩
  · refine hi.only v hv ?_
    rw [hget v hv] at hs
    split at hs
    · simpa using hs
    · exact hs
  · obtain ⟨pg, hg, hpa⟩ := hi.kernel f hf
    have hlow := ((h.fixed_iff f.1 (h.fixed_aligned f hf)).mp ⟨f, hf, rfl⟩).2
    rw [hget _ (vpn_lt hlow), hg]
    split
    · exact ⟨_, rfl, hpa⟩
    · exact ⟨pg, rfl, hpa⟩
  · obtain ⟨e1, e2⟩ := alter_accounts (fun pg : Page => some { pg with user := false }) pt (vpn va)
    have e3 := e1.map Page.pa
    have e4 : ((get h.level pt (vpn va)).bind fun pg => some { pg with user := false }).toList.map
        Page.pa = (get h.level pt (vpn va)).toList.map Page.pa := by
      cases get h.level pt (vpn va) <;> rfl
    rw [List.map_append, List.map_append, e4] at e3
    refine List.Perm.trans ?_ hi.stock
    exact (((List.perm_append_right_iff _).mp e3).append e2).append_right free

/-- What follows the loop over the headers, when there is room for the stack. -/
theorem Image.buildStack_spec (hi : Image h pas free0 sz ranges pt free)
    (hroom : pgRoundUp sz + (userstack + 1) * pgsize ≤ h.top) (p : Proc h)
    (argv : List (List UInt8)) (hargc : argv.length < maxarg) (hargs : ∀ arg ∈ argv, arg.length < pgsize) :
    ∃ o sz' pt' free', buildStack h argv sz pt p free = some (o, sz', pt', p, free') ∧
      Owned h pas free0 sz' pt' free' := by
  have hsz := pgRoundUp_bounds hi.low
  have htop := h.top_le
  have hi0 := hi.grow hsz.1 hsz.2.1
  simp only [buildStack]
  generalize pgRoundUp sz = base at *
  have hbase : pgRoundUp base = base := by
    rw [pgRoundUp_eq hsz.2.1]
    simp only [pgsize] at hsz
    omega
  have hus : (userstack + 1) * pgsize = 8192 := rfl
  have hnew : pgRoundUp (base + 8192) = base + 8192 := by
    rw [pgRoundUp_eq (by omega)]
    simp only [pgsize] at hsz
    omega
  have hmod : (base + (userstack + 1) * pgsize) % 2 ^ 64 = base + 8192 := by
    rw [hus]
    simp only [maxva] at *
    omega
  rw [hmod]
  obtain ⟨r, pt1, free1, h1, h2, -⟩ := hi0.uvmalloc_spec (base + 8192) true false (by omega)
  simp only [h1, bind_some]
  rcases h2 with ⟨rfl, hi1⟩ | ⟨hr, hi1, hin⟩
  · exact ⟨none, base, pt1, free1, rfl, hi1.toOwned⟩
  obtain rfl : r = base + 8192 := by omega
  rw [hbase, hnew] at hin
  have hmapped := hin (by omega)
  have hkeys := le_keys h
  obtain ⟨mem, hguard⟩ := hmapped (vpn base) (vpn_lt (by omega)) (Nat.le_refl _)
    (by simp only [vpn, pgsize]; omega)
  obtain ⟨mem', hstack⟩ := hmapped (vpn (base + pgsize)) (vpn_lt (by simp only [pgsize]; omega))
    (by simp only [vpn, pgsize]; omega) (by simp only [vpn, pgsize]; omega)
  have hclear : uvmclear h pt1 (base + 8192 - (userstack + 1) * pgsize) =
      some (alter (fun pg => some { pg with user := false }) h.level pt1 (vpn base)) := by
    have he : base + 8192 - (userstack + 1) * pgsize = base := by omega
    rw [uvmclear, he, if_neg (by simp [h.valid_low base (by omega), reached_of_get hguard])]
  rw [if_neg (by omega), hclear]
  have hi2 := hi1.toOwned.clear (show base < maxva by omega)
  have hsb : base + 8192 - userstack * pgsize = base + pgsize := by
    simp only [userstack, pgsize]
    omega
  have hsp : StackPage h (alter (fun pg => some { pg with user := false }) h.level pt1 (vpn base))
      (base + pgsize) := by
    refine ⟨by rw [Nat.add_mod_right]; exact hsz.2.2.1, by omega, by simp only [pgsize]; omega,
      ⟨mem', true, true, false⟩, ?_, rfl, rfl⟩
    have hs := same_iff (h := h) (v := vpn base) (w := vpn (base + pgsize)) (vpn_lt (by omega))
      (vpn_lt (by simp only [pgsize]; omega))
    rw [alter_get, if_neg (fun hx => absurd (hs.mp hx) (by simp only [vpn, pgsize]; omega)), hstack]
  simp only [bind_some, hsb]
  obtain ⟨o, h3, h4⟩ := hsp.pushArgs p free1 argv hargs 0 (show base + pgsize ≤ base + 8192 by
    simp only [pgsize]; omega) (by simp only [pgsize]; omega)
  simp only [h3, bind_some]
  cases o with
  | none => exact ⟨none, _, _, free1, rfl, hi2⟩
  | some sp =>
    obtain ⟨h5, h6⟩ := h4 sp rfl
    have hlen : (argv.length + 1) * 8 ≤ sp := by
      simp only [pgsize, maxarg] at h5 hargc
      omega
    have hfit := sp_below hlen (by simp only [pgsize] at h6; omega)
    dsimp only
    generalize (sp + 2 ^ 64 - (argv.length + 1) * 8) % 2 ^ 64 / 16 * 16 = sp1 at hfit ⊢
    by_cases hlt : sp1 < base + pgsize
    · rw [if_pos hlt]
      exact ⟨none, _, _, free1, rfl, hi2⟩
    · rw [if_neg hlt]
      obtain ⟨ok, hc⟩ := hsp.copyout p free1 ((argv.length + 1) * 8) (Nat.not_lt.mp hlt)
        (show sp1 + (argv.length + 1) * 8 ≤ _ by omega)
      simp only [hc, map_some]
      cases ok with
      | false => exact ⟨none, _, _, free1, rfl, hi2⟩
      | true => exact ⟨some sp1, _, _, free1, rfl, hi2⟩

end Stack

/-- Returned from `kexec` with all vnode references as before: with the number of arguments, or
with -1 and the process and the free pages as before. -/
def CleanExec {h : Hal} (argv : List (List UInt8)) (k : Kernel h) (o : Option (Int × Kernel h)) :
    Prop :=
  ∃ r k', o = some (r, k') ∧ (∀ i, refs k'.vfs i = refs k.vfs i) ∧
    (r = argv.length ∨ r = -1 ∧ k'.proc = k.proc ∧ k'.free.Perm k.free)

/-- What `sys_exec` passes on: less than `MAXARG` strings of less than a page. -/
def Accepted (argv : List (List UInt8)) : Prop :=
  argv.length < maxarg ∧ ∀ arg ∈ argv, arg.length < pgsize

section Total

variable {h : Hal} {c : Content} {cwd : Option Nat} {pas : Nat → Nat → Nat}
  {file : Nat → List UInt8} {path : List UInt8} {argv : List (List UInt8)} {k : Kernel h}

/-- The end of `kexec` returns, whether or not the stack could be built. -/
theorem commit_clean {free0 : List Nat} {pt : PT h}
    (hproc : UserTable h (pas k.proc.frame) k.proc.pagetable k.proc.sz) (hargs : Accepted argv)
    (hi : Image h (pas k.proc.frame) free0 sz ranges pt k.free)
    (hroom : pgRoundUp sz + (userstack + 1) * pgsize ≤ h.top) (entry : Nat) :
    ∃ r k', commit h argv entry sz pt k = some (r, k') ∧ k'.vfs = k.vfs ∧
      (r = argv.length ∨ r = -1 ∧ k'.proc = k.proc ∧ k'.free.Perm free0) := by
  obtain ⟨o, sz', pt', free', h1, h2⟩ := hi.buildStack_spec hroom k.proc argv hargs.1 hargs.2
  simp only [commit, h1, bind_some]
  cases o with
  | none =>
    obtain ⟨free2, h3, h4⟩ := h2.free_spec
    exact ⟨-1, { k with free := free2 }, by rw [h3]; rfl, rfl, .inr ⟨rfl, rfl, h4⟩⟩
  | some sp =>
    obtain ⟨free2, h3, -⟩ := hproc.free_spec
    refine ⟨argv.length, { k with
      proc := { k.proc with pagetable := pt', sz := sz', a1 := sp, epc := entry, sp := sp }
      free := free2 }, ?_, rfl, .inl rfl⟩
    rw [h3]
    rfl

/-- With a layout that fits, `kexec` returns and gives back what it took. -/
theorem kexec_clean (hl : MountsLive k.vfs) (hup : UpFound c k.vfs) (hcwd : ∀ i, cwd = some i → 0 < refs k.vfs i)
    (hproc : UserTable h (pas k.proc.frame) k.proc.pagetable k.proc.sz) (hargs : Accepted argv) {o : Option Nat}
    {s1 : State} (hname : vfsNamei c cwd path k.vfs = some (o, s1)) (hlay : ∀ vp, o = some vp → Layout h (file vp)) :
    CleanExec argv k (kexec h c cwd pas file path argv k) := by
  have hholds := vfsNamei_holds c cwd path hl hup hcwd hname
  simp only [kexec, hname, bind_some]
  cases o with
  | none => exact ⟨-1, _, rfl, fun i => by simpa using hholds.count i, .inr ⟨rfl, rfl, .refl _⟩⟩
  | some vp =>
    obtain ⟨s2, hput, hholds2, -⟩ := Holds.put hholds
    have hrefs : ∀ i, refs s2 i = refs k.vfs i := fun i => by simpa using hholds2.count i
    have hclosed : CleanExec argv k ((vput vp s1).map fun s => (-1, { k with vfs := s })) :=
      ⟨-1, { k with vfs := s2 }, by rw [hput]; rfl, hrefs, .inr ⟨rfl, rfl, .refl _⟩⟩
    dsimp only
    cases helf : readKernel (file vp) 0 64 with
    | none => exact hclosed
    | some elf =>
      dsimp only
      by_cases hmagic : u32 elf 0 ≠ elfMagic
      · rwa [if_pos hmagic]
      rw [if_neg hmagic]
      obtain ⟨q, free1, h1, hnone, hsome, -⟩ := procPagetable_spec h (pas k.proc.frame) k.free
      simp only [h1, bind_some]
      cases q with
      | none =>
        exact ⟨-1, { k with vfs := s2, free := free1 }, by rw [hput]; rfl, hrefs, .inr ⟨rfl, rfl, hnone rfl⟩⟩
      | some pt =>
        obtain ⟨ok, sz, pt', free2, ranges, h2, hi, hroom⟩ := loadHeaders_spec
          (headers (file vp) elf) (hsome pt rfl) (hlay vp rfl elf helf (not_not.mp hmagic))
        simp only [h2, bind_some]
        cases ok with
        | true =>
          obtain ⟨r, k', h3, h4, h5⟩ := commit_clean
            (k := { k with vfs := s2, free := free2 }) hproc hargs hi (hroom rfl) (u64 elf 24)
          refine ⟨r, k', ?_, fun i => by rw [h4]; exact hrefs i, h5⟩
          simp only [if_true, hput, bind_some]
          exact h3
        | false =>
          obtain ⟨free3, h3, h4⟩ := hi.free_spec
          refine ⟨-1, { k with vfs := s2, free := free3 }, ?_, hrefs, .inr ⟨rfl, rfl, h4⟩⟩
          simp [badOpen, h3, hput]

end Total

end Xv6Vfs.Vm
