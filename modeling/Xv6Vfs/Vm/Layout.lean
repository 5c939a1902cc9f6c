import Xv6Vfs.Vm.Space

/-! The layouts of program headers that `kexec` can cope with, and the image it has built after
some of them. -/
namespace Xv6Vfs.Vm
open Xv6Vfs.Radix Xv6Vfs.Bytes

variable {sz0 x : Nat}

/-- Some range holds `a`. -/
def Covered (ranges : List (Nat × Nat)) (a : Nat) : Prop := ∃ r ∈ ranges, r.1 ≤ a ∧ a < r.2

section Segment

variable (file : List UInt8) (ph : Ph)

/-- The size that `loadseg` gets, a `uint`. -/
def Ph.loadSize : Nat := ph.filesz % 2 ^ 32

/-- The page of the segment at offset `i` can be read from the file. -/
def Ph.Chunk (i : Nat) : Prop :=
  (ph.off % 2 ^ 32 + i) % 2 ^ 32 + min (ph.loadSize - i) pgsize ≤ file.length

/-- The whole segment can be read from the file. -/
def Ph.Readable : Prop := ∀ i, i % pgsize = 0 → i < ph.loadSize → ph.Chunk file i

/-- The pages that `uvmalloc` maps for the segment, from the rounded size so far. -/
def Ph.range (sz : Nat) : Nat × Nat := (pgRoundUp (max sz ph.vaddr), ph.vaddr + ph.memsz)

def Ph.newSize (sz : Nat) : Nat := max (max sz ph.vaddr) (ph.vaddr + ph.memsz)

/-- What a segment has to meet when `sz` bytes are used and `ranges` are mapped: it begins at
`MAXVA` at most, the pages it adds end below the pages of the kernel, every page that is loaded
before the file ends is mapped, and the loop of `loadseg` ends. -/
structure Ph.Fits (h : Hal) (sz : Nat) (ranges : List (Nat × Nat)) : Prop where
  start : ph.vaddr ≤ maxva
  room : (ph.range sz).1 < (ph.range sz).2 → (ph.range sz).2 ≤ h.top
  covered : ∀ i, i % pgsize = 0 → i < ph.loadSize →
    (∀ j, j % pgsize = 0 → j < i → ph.Chunk file j) →
      Covered (ph.range sz :: ranges) (ph.vaddr + i)
  ends : ph.Readable file → ph.loadSize ≤ 2 ^ 32 - pgsize

end Segment

/-- The headers in order, up to the first one that makes `kexec` fail; behind the last one there
is room for the stack. -/
def LayoutFrom (h : Hal) (file : List UInt8) : List (Option Ph) → Nat → List (Nat × Nat) → Prop
  | [], sz, _ => pgRoundUp sz + (userstack + 1) * pgsize ≤ h.top
  | none :: _, _, _ => True
  | some ph :: rest, sz, ranges =>
    if ph.type ≠ elfProgLoad then LayoutFrom h file rest sz ranges
    else if ph.rejected then True
    else ph.Fits file h sz ranges ∧
      (ph.newSize sz ≠ 0 → ph.Readable file →
        LayoutFrom h file rest (ph.newSize sz) (ph.range sz :: ranges))

/-- The condition on the content of an executable file. -/
def Layout (h : Hal) (file : List UInt8) : Prop :=
  ∀ elf, readKernel file 0 64 = some elf → u32 elf 0 = elfMagic →
    LayoutFrom h file (headers file elf) 0 []

/-- A user table of `sz` bytes: the pages of the kernel are mapped, all others lie below the size,
and together with the free pages they are the pages `free0`. -/
structure Owned (h : Hal) (pas : Nat → Nat) (free0 : List Nat) (sz : Nat) (pt : PT h)
    (free : List Nat) : Prop where
  low : sz ≤ maxva
  only : ∀ v < keys h, (get h.level pt v).isSome →
    v < vpn (pgRoundUp sz) ∨ ∃ f ∈ h.fixed, v = vpn f.1
  kernel : ∀ f ∈ h.fixed, ∃ pg, get h.level pt (vpn f.1) = some pg ∧ pg.pa = pas f.1
  stock : (stock h pt free).Perm (h.fixed.map (fun f => pas f.1) ++ free0)

/-- The address space under construction: the user pages are those of `ranges`. -/
structure Image (h : Hal) (pas : Nat → Nat) (free0 : List Nat) (sz : Nat)
    (ranges : List (Nat × Nat)) (pt : PT h) (free : List Nat) : Prop
    extends Owned h pas free0 sz pt free where
  mapped : ∀ a, a % pgsize = 0 → Covered ranges a →
    a < h.top ∧ ∃ pg, get h.level pt (vpn a) = some pg ∧ pg.user = true
  users : ∀ v < keys h, ∀ pg, get h.level pt v = some pg → pg.user = true →
    Covered ranges (v * pgsize)

section Image

variable {h : Hal} {pas : Nat → Nat} {free0 : List Nat} {sz : Nat} {ranges : List (Nat × Nat)}
  {pt : PT h} {free : List Nat}

theorem pgRoundUp_eq (hx : x ≤ maxva) : pgRoundUp x = (x + 4095) / 4096 * 4096 := by
  refine Nat.mod_eq_of_lt ?_
  unfold maxva at hx
  omega

theorem pgRoundUp_bounds (hx : x ≤ maxva) :
    x ≤ pgRoundUp x ∧ pgRoundUp x ≤ maxva ∧ pgRoundUp x % pgsize = 0 ∧ pgRoundUp x < x + 4096 := by
  rw [pgRoundUp_eq hx]
  simp only [maxva, pgsize] at *
  omega

theorem Owned.grow (hi : Owned h pas free0 sz pt free) (h1 : sz ≤ sz0) (h2 : sz0 ≤ maxva) :
    Owned h pas free0 sz0 pt free :=
  { hi with
    low := h2
    only := fun v hv hs => by
      rcases hi.only v hv hs with h3 | h3
      · refine .inl (Nat.lt_of_lt_of_le h3 ?_)
        rw [pgRoundUp_eq hi.low, pgRoundUp_eq h2]
        simp only [vpn, pgsize]
        omega
      · exact .inr h3 }

theorem Image.grow (hi : Image h pas free0 sz ranges pt free) (h1 : sz ≤ sz0) (h2 : sz0 ≤ maxva) :
    Image h pas free0 sz0 ranges pt free :=
  { hi with toOwned := hi.toOwned.grow h1 h2 }

theorem Image.congr (hi : Image h pas free0 sz ranges pt free) {pt' : PT h} {free' : List Nat}
    (hget : ∀ v < keys h, get h.level pt' v = get h.level pt v)
    (hst : (Vm.stock h pt' free').Perm (Vm.stock h pt free)) :
    Image h pas free0 sz ranges pt' free' where
  low := hi.low
  only v hv hs := hi.only v hv (hget v hv ▸ hs)
  kernel f hf := by
    obtain ⟨pg, h2, h3⟩ := hi.kernel f hf
    have hva := ((h.fixed_iff f.1 (h.fixed_aligned f hf)).mp ⟨f, hf, rfl⟩).2
    exact ⟨pg, by rw [hget _ (vpn_lt hva), h2], h3⟩
  stock := hst.trans hi.stock
  mapped a ha hc := by
    obtain ⟨h1, pg, h2, h3⟩ := hi.mapped a ha hc
    exact ⟨h1, pg, by rw [hget _ (vpn_lt (Nat.lt_of_lt_of_le h1 h.top_le)), h2], h3⟩
  users v hv pg hg := hi.users v hv pg (hget v hv ▸ hg)

theorem Owned.unmapped (hi : Owned h pas free0 sz pt free) {v : Nat}
    (h1 : vpn (pgRoundUp sz) ≤ v) (h2 : v < vpn h.top) : get h.level pt v = none := by
  have hv : v < keys h := by
    have h3 := le_keys h
    have h4 := h.top_le
    simp only [vpn, pgsize, maxva] at *
    omega
  cases hg : get h.level pt v with
  | none => rfl
  | some pg =>
    rcases hi.only v hv (by simp [hg]) with h3 | ⟨f, hf, rfl⟩
    · omega
    · have h3 := ((h.fixed_iff f.1 (h.fixed_aligned f hf)).mp ⟨f, hf, rfl⟩).1
      simp only [vpn, pgsize] at h2
      omega

end Image

end Xv6Vfs.Vm
