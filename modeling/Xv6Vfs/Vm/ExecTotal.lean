import Xv6Vfs.Vm.Stuck

/-! The files on which `kexec` is total. -/
namespace Xv6Vfs.Vm
open Xv6Vfs.Radix Xv6Vfs.Bytes Xv6Vfs.Vfs Option Nat

variable {ph : Ph}

section Stuck

variable {h : Hal} {pas : Nat → Nat} {free0 : List Nat} {sz : Nat} {ranges : List (Nat × Nat)}
  {pt : PT h} {free : List Nat} {file : List UInt8}

/-- A segment that begins above `MAXVA` is the same as one behind a lost image. -/
theorem loadHeaders_above {rest : List (Option Ph)} (hrej : ¬ ph.rejected = true) (htype : ¬ ph.type ≠ elfProgLoad)
    (hbig : maxva < ph.vaddr) (hlow : sz ≤ maxva) {r : Bool × Nat × PT h × List Nat}
    (hr : loadHeaders h file (some ph :: rest) sz pt free = some r) : Lost r.2.1 := by
  obtain ⟨-, h1, h2⟩ := Ph.rejected_false hrej
  have hlost : Lost ph.vaddr := by
    refine ⟨hbig, ?_⟩
    simp only [pgsize] at *
    omega
  refine @Lost.loadHeaders h pt free ph.vaddr hlost file (some ph :: rest) r ?_
  rw [← hr]
  simp only [loadHeaders, if_neg htype, if_neg hrej, Nat.max_eq_right (Nat.le_trans hlow (Nat.le_of_lt hbig)),
    Nat.max_self]

theorem Ph.fits_empty (hrej : ¬ ph.rejected = true) (hstart : ph.vaddr ≤ maxva)
    (hroom : (ph.range sz).1 < (ph.range sz).2 → (ph.range sz).2 ≤ h.top) (hsize : ph.newSize sz = 0) :
    ph.Fits file h sz ranges := by
  obtain ⟨h1, -, -⟩ := Ph.rejected_false hrej
  have h0 : ph.loadSize = 0 := by
    unfold Ph.newSize at hsize
    have : ph.filesz = 0 := by omega
    rw [Ph.loadSize, this, zero_mod]
  exact ⟨hstart, hroom, fun i _ hlt => by omega, fun _ => by omega⟩

/-- Where a layout does not fit, the loop over the headers panics, or leaves an image that cannot
be freed, or one without room for the stack. -/
theorem loadHeaders_stuck (hs : List (Option Ph)) (hi : Image h pas free0 sz ranges pt free)
    (hmem : (hs.length + 2) * ample h ≤ free.length) (hn : ¬ LayoutFrom h file hs sz ranges)
    {r : Bool × Nat × PT h × List Nat} (hr : loadHeaders h file hs sz pt free = some r) :
    Lost r.2.1 ∨ r.1 = true ∧ Owned h pas free0 r.2.1 r.2.2.1 r.2.2.2 ∧
      h.top < pgRoundUp r.2.1 + (userstack + 1) * pgsize ∧ 2 * ample h ≤ r.2.2.2.length := by
  induction hs generalizing sz ranges pt free with
  | nil =>
    cases hr
    exact .inr ⟨rfl, hi.toOwned, Nat.not_le.mp hn, by simpa using hmem⟩
  | cons o rest ih =>
    have hlen : (rest.length + 1 + 2) * ample h = (rest.length + 2) * ample h + ample h := by
      rw [show rest.length + 1 + 2 = rest.length + 2 + 1 by omega, succ_mul]
    have htwo : 2 * ample h ≤ (rest.length + 2) * ample h := Nat.mul_le_mul_right _ (by omega)
    rw [List.length_cons, hlen] at hmem
    cases o with
    | none => exact absurd trivial hn
    | some ph =>
      simp only [LayoutFrom] at hn
      by_cases htype : ph.type ≠ elfProgLoad
      · rw [if_pos htype] at hn
        simp only [loadHeaders, if_pos htype] at hr
        exact ih hi (by omega) hn hr
      by_cases hrej : ph.rejected = true
      · rw [if_neg htype, if_pos hrej] at hn
        exact absurd trivial hn
      rw [if_neg htype, if_neg hrej] at hn
      by_cases hstart : ph.vaddr ≤ maxva
      swap
      · exact .inl (loadHeaders_above hrej htype (Nat.not_le.mp hstart) hi.low hr)
      have hi0 : Image h pas free0 (max sz ph.vaddr) ranges pt free :=
        hi.grow (Nat.le_max_left _ _) (Nat.max_le.mpr ⟨hi.low, hstart⟩)
      simp only [loadHeaders, if_neg htype, if_neg hrej] at hr
      by_cases hroom : (ph.range sz).1 < (ph.range sz).2 → (ph.range sz).2 ≤ h.top
      swap
      · obtain ⟨h1, h2⟩ := Classical.not_imp.mp hroom
        have hu : uvmalloc h pt (max sz ph.vaddr) (ph.vaddr + ph.memsz) (ph.flags.testBit 1)
            (ph.flags.testBit 0) free = none := hi0.uvmalloc_stuck h1 (Nat.not_le.mp h2) (by omega)
        rw [hu] at hr
        simp at hr
      obtain ⟨r1, pt1, free1, h1, h2, h3⟩ := hi0.uvmalloc_spec (ph.vaddr + ph.memsz)
        (ph.flags.testBit 1) (ph.flags.testBit 0) hroom
      obtain ⟨hr1, hfree1⟩ := h3 (by omega)
      have hsize : r1 = ph.newSize sz := hr1
      by_cases h0 : r1 = 0
      · exact absurd ⟨Ph.fits_empty hrej hstart hroom (hsize ▸ h0), fun hx => absurd (hsize ▸ h0) hx⟩ hn
      have hi1 : Image h pas free0 r1 (ph.range sz :: ranges) pt1 free1 :=
        (h2.resolve_left fun hx => h0 hx.1).2.1
      simp only [h1, bind_some, if_neg h0] at hr
      have hal := (Ph.rejected_false hrej).2.2
      by_cases hcov : ∀ i, i % pgsize = 0 → i < ph.loadSize →
          (∀ j, j % pgsize = 0 → j < i → ph.Chunk file j) →
            Covered (ph.range sz :: ranges) (ph.vaddr + i)
      swap
      · simp only [not_forall] at hcov
        obtain ⟨i, hi2, hi3, hi4, hi5⟩ := hcov
        have hw := hi1.walkaddr_none (a := ph.vaddr + i) (by simp only [pgsize] at *; omega) hi5
        have hload : loadseg h pt1 file ph = none :=
          loadLoop_uncovered hi2 hi3 hi4 hw _ 0 rfl (Nat.zero_le i)
        simp [hload] at hr
      by_cases hends : ph.Readable file → ph.loadSize ≤ 2 ^ 32 - pgsize
      swap
      · obtain ⟨h4, h5⟩ := Classical.not_imp.mp hends
        have hload : loadseg h pt1 file ph = none :=
          loadLoop_endless h4 (Nat.not_le.mp h5) _ 0 rfl (by decide)
        simp [hload] at hr
      have hfits : ph.Fits file h sz ranges := ⟨hstart, hroom, hcov, hends⟩
      obtain ⟨-, hread, hrest⟩ : ph.newSize sz ≠ 0 ∧ ph.Readable file ∧
          ¬ LayoutFrom h file rest (ph.newSize sz) (ph.range sz :: ranges) := by
        simpa [hfits] using hn
      obtain ⟨ok, h4, h5⟩ := hi1.loadseg_spec hal hcov hends
      rw [h4, h5.mpr hread] at hr
      rw [← hsize] at hrest
      exact ih hi1 (by omega) hrest hr

theorem Owned.commit_stuck {k : Kernel h} (hi : Owned h pas free0 sz pt k.free)
    (hroom : h.top < pgRoundUp sz + (userstack + 1) * pgsize) (hmem : 2 * ample h ≤ k.free.length)
    (argv : List (List UInt8)) (entry : Nat) : commit h argv entry sz pt k = none := by
  have hsz := pgRoundUp_bounds hi.low
  have hi0 := hi.grow hsz.1 hsz.2.1
  have hround : pgRoundUp (pgRoundUp sz) = pgRoundUp sz := by
    rw [pgRoundUp_eq hsz.2.1]
    simp only [pgsize] at hsz
    omega
  have hmod : (pgRoundUp sz + (userstack + 1) * pgsize) % 2 ^ 64 =
      pgRoundUp sz + (userstack + 1) * pgsize := by
    refine mod_eq_of_lt ?_
    simp only [userstack, pgsize, maxva] at *
    omega
  have hlt : pgRoundUp (pgRoundUp sz) < pgRoundUp sz + (userstack + 1) * pgsize := by
    rw [hround]
    simp only [userstack, pgsize]
    omega
  unfold commit buildStack
  dsimp only
  rw [hmod, hi0.uvmalloc_stuck hlt hroom hmem]
  rfl

end Stuck

section Total

variable {c : Content} {s : State} {cwd : Option Nat} {path : List UInt8}

/-- Memory and a process for which `kexec` gets to a header at fault. -/
theorem kexec_stuck (h : Hal) (pas : Nat → Nat → Nat) (file : Nat → List UInt8) {vp : Nat}
    {s1 : State} (hname : vfsNamei c cwd path s = some (some vp, s1)) (hn : ¬ Layout h (file vp)) :
    ∃ free proc, UserTable h (pas proc.frame) proc.pagetable proc.sz ∧
      kexec h c cwd pas file path [] ⟨s, free, proc⟩ = none := by
  simp only [Layout, not_forall] at hn
  obtain ⟨elf, helf, hmagic, hn⟩ := hn
  -- A list long enough for the tables and for every header.
  let need := (1 + h.fixed.length * h.level) + ((headers (file vp) elf).length + 2) * ample h
  obtain ⟨o, free1, h1, -, h3, h4⟩ := procPagetable_spec h (pas 0) (List.replicate need 1)
  rw [List.length_replicate] at h4
  obtain ⟨h4, h5⟩ := h4 (by omega)
  obtain ⟨pt, rfl⟩ := ne_none_iff_exists'.mp h4
  have hi := h3 pt rfl
  refine ⟨List.replicate need 1, ⟨pt, 0, 0, 0, 0, 0⟩, hi.userTable, ?_⟩
  simp only [kexec, hname, bind_some, helf, ne_eq, hmagic, not_true_eq_false, if_false, h1]
  cases hr : loadHeaders h (file vp) (headers (file vp) elf) 0 pt free1 with
  | none => rfl
  | some r =>
    obtain ⟨ok, sz, pt', free'⟩ := r
    simp only [bind_some]
    rcases loadHeaders_stuck _ hi (by omega) hn hr with hlost | ⟨rfl, hi', hroom, hmem⟩
    · cases ok with
      | false =>
        simp only [Bool.false_eq_true, if_false, badOpen]
        rw [Lost.free_none hlost]
        rfl
      | true =>
        simp only [if_true]
        cases vput vp s1 with
        | none => rfl
        | some s2 => exact Lost.commit hlost _ _
    · simp only [if_true]
      cases vput vp s1 with
      | none => rfl
      | some s2 => exact Owned.commit_stuck hi' hroom hmem _ _

end Total

section Samples

/-- A volume with one file, "/a". -/
def oneFile : Content where
  search _ node name := if node = 1 ∧ name = [97] then some ⟨5, 0, .file, 0, 0, 124⟩ else none
  rootClus _ := 0
  image _ _ := none
  create _ _ _ := none

def oneMount : State where
  vnodes i := if i = 0 then ⟨.dir, 1, 0, 0, some .xv6fs, some 10, 1, 1, 0, 0, some 1⟩
    else ⟨.none, 0, 0, 0, none, none, 0, 0, 0, 0, none⟩
  mounts m := if m = 10 then some ⟨true, some .xv6fs, some 0, none, 1, [47]⟩ else none
  mounttable := [10]
  pages := 4

theorem oneMount_live : MountsLive oneMount := by
  intro m mt hm i hi
  by_cases h10 : m = 10
  · subst h10
    cases hm
    rcases hi with hi | hi
    · cases hi
      decide
    · simp at hi
  · simp [oneMount, h10] at hm

theorem oneMount_up : UpFound oneFile oneMount := by
  intro m mt p hm hp
  by_cases h10 : m = 10
  · subst h10
    cases hm
    simp at hp
  · simp [oneMount, h10] at hm

theorem oneMount_namei : ∃ vp s1, vfsNamei oneFile none [47, 97] oneMount = some (some vp, s1) := by
  have h : ((vfsNamei oneFile none [47, 97] oneMount).bind fun r => r.1) = some 1 := by
    decide +kernel
  obtain ⟨⟨r, s1⟩, hr, h2⟩ := bind_eq_some_iff.mp h
  obtain rfl : r = some 1 := h2
  exact ⟨1, s1, hr⟩

def number (n v : Nat) : List UInt8 := (List.range n).map (Bytes.le v)

/-- An ELF file with one program header, and four bytes behind it. -/
def elfFile (vaddr memsz : Nat) : List UInt8 :=
  number 4 elfMagic ++ List.replicate 28 0 ++ number 8 64 ++ List.replicate 16 0 ++ number 2 1 ++
    List.replicate 6 0 ++ number 4 1 ++ number 4 5 ++ number 8 120 ++ number 8 vaddr ++
    List.replicate 8 0 ++ number 8 4 ++ number 8 memsz ++ List.replicate 8 0 ++ [19, 0, 0, 0]

theorem layout_iff {file : List UInt8} {hs : List (Option Ph)} (hlen : 64 ≤ file.length)
    (hph : headers file (ofList file) = hs) (hmagic : u32 (ofList file) 0 = elfMagic) (h : Hal) :
    Layout h file ↔ LayoutFrom h file hs 0 [] := by
  have hread : readKernel file 0 64 = some (ofList file) := by
    rw [readKernel, if_pos (by omega), List.drop_zero]
  constructor
  · intro hl
    have := hl _ hread hmagic
    rwa [hph] at this
  · intro hl elf helf _
    cases hread.symm.trans helf
    rwa [hph]

theorem small_layout (h : Hal) (htop : 3 * pgsize ≤ h.top) : Layout h (elfFile 0 4096) := by
  have hph : headers (elfFile 0 4096) (ofList (elfFile 0 4096)) =
      [some ⟨1, 5, 120, 0, 4, 4096⟩] := by
    decide +kernel
  have hlen : (elfFile 0 4096).length = 124 := by decide +kernel
  rw [layout_iff (by omega) hph (by decide +kernel)]
  generalize elfFile 0 4096 = file at *
  have hfit : Ph.Fits file ⟨1, 5, 120, 0, 4, 4096⟩ h 0 [] := by
    refine ⟨by decide, fun _ => ?_, fun i h1 h2 _ => ?_, fun _ => by decide⟩
    · simp only [Ph.range, pgsize] at *
      omega
    · refine ⟨_, List.mem_cons_self, ?_⟩
      simp only [Ph.range, Ph.loadSize, pgRoundUp, pgsize] at *
      omega
  exact ⟨hfit, fun _ _ => htop⟩

/-- One page at twice `MAXVA` does not. -/
theorem high_layout (h : Hal) : ¬ Layout h (elfFile (2 * maxva) 4096) := by
  have hph : headers (elfFile (2 * maxva) 4096) (ofList (elfFile (2 * maxva) 4096)) =
      [some ⟨1, 5, 120, 2 * maxva, 4, 4096⟩] := by
    decide +kernel
  have hlen : (elfFile (2 * maxva) 4096).length = 124 := by decide +kernel
  rw [layout_iff (by omega) hph (by decide +kernel)]
  intro hl
  exact absurd (hl : _ ∧ _).1.start (by decide)

end Samples

end Xv6Vfs.Vm
