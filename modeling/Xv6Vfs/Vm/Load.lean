import Xv6Vfs.Vm.Layout

/-! With a layout that fits, `uvmalloc` and `loadseg` extend the image or fail cleanly. -/
namespace Xv6Vfs.Vm
open Xv6Vfs.Radix Xv6Vfs.Bytes Nat

variable {newsz : Nat}

section Alloc

variable {h : Hal} {pas : Nat → Nat} {free0 : List Nat} {sz : Nat} {ranges : List (Nat × Nat)}
  {pt : PT h} {free : List Nat}

/-- What is asked for in the worst case when memory below `MAXVA` is allocated. -/
def ample (h : Hal) : Nat := 2 ^ 26 * (h.level + 1)

theorem Covered.cons {ranges : List (Nat × Nat)} {a : Nat} (hc : Covered ranges a)
    (r : Nat × Nat) : Covered (r :: ranges) a := by
  obtain ⟨r', hr, h1⟩ := hc
  exact ⟨r', List.mem_cons_of_mem r hr, h1⟩

section

variable (hi : Image h pas free0 sz ranges pt free)
include hi

theorem Image.skip {lo : Nat} (hlo : newsz ≤ lo) : Image h pas free0 sz ((lo, newsz) :: ranges) pt free :=
  { hi with
    mapped := fun a ha hc => by
      obtain ⟨r, hr, h1, h2⟩ := hc
      rcases List.mem_cons.mp hr with rfl | hr
      · exact absurd (Nat.lt_of_lt_of_le h2 hlo) (Nat.not_lt.mpr h1)
      · exact hi.mapped a ha ⟨r, hr, h1, h2⟩
    users := fun v hv pg hg hu => (hi.users v hv pg hg hu).cons _ }

theorem Image.extend {write exec : Bool} {pt' : PT h} {free' : List Nat}
    (hlt : pgRoundUp sz < newsz) (htop : newsz ≤ h.top)
    (hin : ∀ v < keys h, vpn (pgRoundUp sz) ≤ v → v < vpn (pgRoundUp newsz) →
      ∃ mem, get h.level pt' v = some ⟨mem, true, write, exec⟩)
    (hout : ∀ v < keys h, v < vpn (pgRoundUp sz) ∨ vpn (pgRoundUp newsz) ≤ v → get h.level pt' v = get h.level pt v)
    (hst : (Vm.stock h pt' free').Perm (Vm.stock h pt free)) :
    Image h pas free0 newsz ((pgRoundUp sz, newsz) :: ranges) pt' free' := by
  have hmax := h.top_le
  have hsz := pgRoundUp_bounds hi.low
  have hnew := pgRoundUp_bounds (Nat.le_trans htop hmax)
  have hkeys := le_keys h
  have hkeep : ∀ v < keys h, ∀ pg, get h.level pt v = some pg → get h.level pt' v = some pg := by
    intro v hv pg hg
    rw [hout v hv ?_, hg]
    by_contra hc
    have h1 := hi.unmapped (v := v) (by omega) (by
      have := h.top_aligned
      simp only [vpn, pgsize] at *
      omega)
    rw [h1] at hg
    simp at hg
  refine ⟨⟨Nat.le_trans htop hmax, fun v hv hs => ?_, fun f hf => ?_, hst.trans hi.stock⟩,
    fun a ha hc => ?_, fun v hv pg hg hu => ?_⟩
  · by_cases hv1 : v < vpn (pgRoundUp newsz)
    · exact .inl hv1
    · rw [hout v hv (by omega)] at hs
      rcases hi.only v hv hs with h3 | h3
      · exact .inl (by simp only [vpn, pgsize] at *; omega)
      · exact .inr h3
  · obtain ⟨pg, h2, h3⟩ := hi.kernel f hf
    have hva := ((h.fixed_iff f.1 (h.fixed_aligned f hf)).mp ⟨f, hf, rfl⟩).2
    exact ⟨pg, hkeep _ (vpn_lt hva) pg h2, h3⟩
  · obtain ⟨r, hr, h1, h2⟩ := hc
    rcases List.mem_cons.mp hr with rfl | hr
    · simp only at h1 h2
      obtain ⟨mem, hg⟩ := hin (vpn a) (vpn_lt (by omega))
        (by simp only [vpn, pgsize] at *; omega) (by simp only [vpn, pgsize] at *; omega)
      exact ⟨by omega, _, hg, rfl⟩
    · obtain ⟨h3, pg, h4, h5⟩ := hi.mapped a ha ⟨r, hr, h1, h2⟩
      exact ⟨h3, pg, hkeep _ (vpn_lt (by omega)) pg h4, h5⟩
  · by_cases hv1 : vpn (pgRoundUp sz) ≤ v ∧ v < vpn (pgRoundUp newsz)
    · refine ⟨_, List.mem_cons_self, ?_⟩
      simp only [vpn, pgsize] at *
      omega
    · rw [hout v hv (by omega)] at hg
      exact (hi.users v hv pg hg hu).cons _

omit hi in
/-- `uvmdealloc` of the pages that `uvmalloc` has added. -/
theorem uvmdealloc_spec {a j : Nat} (hal : a % pgsize = 0) (hlt : a + j * pgsize ≤ maxva) :
    ∃ pt' free', uvmdealloc h pt (a + j * pgsize) a free = some (pt', free') ∧
      (∀ v < keys h, get h.level pt' v = if vpn a ≤ v ∧ v < vpn a + j then none
        else get h.level pt v) ∧
      (Vm.stock h pt' free').Perm (Vm.stock h pt free) := by
  have hround : ∀ x, x % pgsize = 0 → x ≤ maxva → pgRoundUp x = x := by
    intro x hx hm
    rw [pgRoundUp_eq hm]
    simp only [pgsize] at hx
    omega
  have h1 := hround a hal (by omega)
  have h2 := hround (a + j * pgsize) (by rw [add_mul_mod_self_right]; exact hal) hlt
  unfold uvmdealloc
  by_cases hj : j = 0
  · subst hj
    rw [if_pos (by omega)]
    refine ⟨pt, free, rfl, fun v _ => ?_, List.Perm.refl _⟩
    rw [if_neg (by omega)]
  · have hpos : 0 < j * pgsize := Nat.mul_pos (Nat.pos_of_ne_zero hj) (by decide)
    have hsub : (a + j * pgsize - a) / pgsize = j := by
      rw [Nat.add_sub_cancel_left, Nat.mul_div_cancel _ (by decide)]
    rw [if_neg (by omega), h1, h2, if_pos (by omega), hsub]
    exact uvmunmap_spec hal hlt

/-- `uvmalloc` from the size of the image: it fails for want of memory only, and then leaves the
image as it was. -/
theorem Image.uvmalloc_spec (newsz : Nat) (write exec : Bool) (hroom : pgRoundUp sz < newsz → newsz ≤ h.top) :
    ∃ r pt' free', uvmalloc h pt sz newsz write exec free = some (r, pt', free') ∧
      (r = 0 ∧ Image h pas free0 sz ranges pt' free' ∨
        r = max sz newsz ∧ Image h pas free0 r ((pgRoundUp sz, newsz) :: ranges) pt' free' ∧
          (pgRoundUp sz < newsz → ∀ v < keys h, vpn (pgRoundUp sz) ≤ v → v < vpn (pgRoundUp newsz) →
            ∃ mem, get h.level pt' v = some ⟨mem, true, write, exec⟩)) ∧
      (ample h ≤ free.length → r = max sz newsz ∧ free.length ≤ free'.length + ample h) := by
  have hsz := pgRoundUp_bounds hi.low
  have hmax := h.top_le
  unfold uvmalloc
  by_cases hlt : newsz < sz
  · rw [if_pos hlt, Nat.max_eq_left (Nat.le_of_lt hlt)]
    exact ⟨sz, pt, free, rfl, .inr ⟨rfl, hi.skip (by omega), fun h0 => by omega⟩, fun _ => ⟨rfl, by omega⟩⟩
  rw [if_neg hlt]
  have hnewmax : max sz newsz = newsz := Nat.max_eq_right (by omega)
  rw [hnewmax]
  by_cases hmore : pgRoundUp sz < newsz
  · have htop := hroom hmore
    have hnew := pgRoundUp_bounds (Nat.le_trans htop hmax)
    have hta := h.top_aligned
    -- The number of pages is the distance of the rounded sizes.
    have hk : pgRoundUp sz + (newsz - pgRoundUp sz + 4095) / pgsize * pgsize = pgRoundUp newsz := by
      rw [pgRoundUp_eq hi.low, pgRoundUp_eq (Nat.le_trans htop hmax)] at *
      simp only [pgsize] at *
      omega
    have hvk : vpn (pgRoundUp sz) + (newsz - pgRoundUp sz + 4095) / pgsize = vpn (pgRoundUp newsz) := by
      rw [← hk]
      simp only [vpn, pgsize] at *
      omega
    obtain ⟨ok, j, pt', free', hg, hj, hok, hin, hout, hst, hmem⟩ := @growLoop_spec h pt free _
      ((newsz - pgRoundUp sz + 4095) / pgsize) write exec hsz.2.2.1 (by omega)
      (fun j hj => hi.unmapped (v := vpn (pgRoundUp sz) + j) (by omega) (by
        have h1 : vpn (pgRoundUp newsz) ≤ vpn h.top := by
          simp only [vpn, pgsize] at *
          omega
        omega))
    have hample : ample h ≤ free.length →
        (newsz - pgRoundUp sz + 4095) / pgsize * (h.level + 1) ≤ free.length := by
      intro h0
      refine Nat.le_trans (Nat.mul_le_mul_right _ ?_) h0
      simp only [pgsize, maxva] at *
      omega
    have hle : (newsz - pgRoundUp sz + 4095) / pgsize * (h.level + 1) ≤ ample h := by
      refine Nat.mul_le_mul_right _ ?_
      simp only [pgsize, maxva] at *
      omega
    simp only [hg, Option.bind_some]
    cases ok with
    | true =>
      obtain rfl := hok rfl
      rw [hvk] at hin hout
      refine ⟨newsz, pt', free', rfl, .inr ⟨rfl, ?_, fun _ => hin⟩, fun h0 => ⟨rfl, ?_⟩⟩
      · exact hi.extend hmore htop hin hout hst
      · have := (hmem (hample h0)).2
        omega
    | false =>
      have hnomem : ¬ ample h ≤ free.length := fun h0 => by
        have := (hmem (hample h0)).1
        simp at this
      have hjle : j * pgsize ≤ (newsz - pgRoundUp sz + 4095) / pgsize * pgsize :=
        Nat.mul_le_mul_right _ hj
      obtain ⟨pt2, free2, h1, h2, h3⟩ := @uvmdealloc_spec h pt' free' _ j
        hsz.2.2.1 (by omega)
      refine ⟨0, pt2, free2, by simp [h1], .inl ⟨rfl, hi.congr (fun v hv => ?_) (h3.trans hst)⟩,
        fun h0 => absurd h0 hnomem⟩
      rw [h2 v hv]
      by_cases hvin : vpn (pgRoundUp sz) ≤ v ∧ v < vpn (pgRoundUp sz) + j
      · rw [if_pos hvin, hi.unmapped hvin.1]
        simp only [vpn, pgsize] at *
        omega
      · rw [if_neg hvin, hout v hv (by omega)]
  · have hk : (newsz - pgRoundUp sz + 4095) / pgsize = 0 := by
      simp only [pgsize]
      omega
    dsimp only
    rw [hk]
    exact ⟨newsz, pt, free, rfl, .inr ⟨rfl, (hi.grow (by omega) (by omega)).skip (by omega),
      fun h0 => absurd h0 hmore⟩, fun _ => ⟨rfl, by omega⟩⟩

end

end Alloc

section Segment

variable {h : Hal} {pas : Nat → Nat} {free0 : List Nat} {sz : Nat} {ranges : List (Nat × Nat)}
  {pt : PT h} {free : List Nat} {file : List UInt8} {ph : Ph}

theorem Image.walkaddr_some (hi : Image h pas free0 sz ranges pt free) {a : Nat}
    (ha : a % pgsize = 0) (hc : Covered ranges a) : ∃ pa, walkaddr h pt a = some pa := by
  obtain ⟨h1, pg, h2, h3⟩ := hi.mapped a ha hc
  have := h.top_le
  exact ⟨pg.pa, by rw [walkaddr, if_neg (by omega), h2, Option.bind_some, if_pos h3]⟩

theorem readKernel_chunk (i : Nat) :
    (readKernel file ((ph.off % 2 ^ 32 + i) % 2 ^ 32) (min (ph.loadSize - i) pgsize)).isSome ↔
      ph.Chunk file i := by
  unfold readKernel Ph.Chunk
  split <;> simp_all

/-- The pages behind `i` are read, one page a round; `i` does not wrap, since a segment that
long cannot be read to its end. -/
theorem loadLoop_spec (hcov : ∀ i, i % pgsize = 0 → i < ph.loadSize →
      (∀ j, j % pgsize = 0 → j < i → ph.Chunk file j) → ∃ pa, walkaddr h pt (ph.vaddr + i) = some pa)
    (hends : ph.Readable file → ph.loadSize ≤ 2 ^ 32 - pgsize) (fuel i : Nat) (hfuel : 2 ^ 32 < i + fuel * pgsize)
    (hi : i % pgsize = 0) (hlt : i < 2 ^ 32) (hread : ∀ j, j % pgsize = 0 → j < i → ph.Chunk file j) :
    ∃ ok, loadLoop h pt file ph.vaddr (ph.off % 2 ^ 32) ph.loadSize fuel i = some ok ∧
      (ok = true ↔ ph.Readable file) := by
  have hpg : pgsize = 4096 := rfl
  induction fuel generalizing i with
  | zero => omega
  | succ fuel ih =>
    rw [succ_mul] at hfuel
    simp only [loadLoop]
    by_cases hlt' : i < ph.loadSize
    · obtain ⟨pa, hpa⟩ := hcov i hi hlt' hread
      have hchunk := @readKernel_chunk file ph i
      rw [if_pos hlt']
      simp only [hpa]
      cases hk : readKernel file ((ph.off % 2 ^ 32 + i) % 2 ^ 32) (min (ph.loadSize - i) pgsize) with
      | none =>
        rw [hk] at hchunk
        refine ⟨false, rfl, by simp, fun hr => ?_⟩
        exact absurd (hchunk.mpr (hr i hi hlt')) (by simp)
      | some b =>
        rw [hk] at hchunk
        have hread' : ∀ j, j % pgsize = 0 → j < i + pgsize → ph.Chunk file j := by
          intro j hj hlt2
          by_cases he : j < i
          · exact hread j hj he
          · obtain rfl : j = i := by
              rw [hpg] at *
              omega
            exact hchunk.mp rfl
        by_cases hwrap : i + pgsize < 2 ^ 32
        · simp only [mod_eq_of_lt hwrap]
          exact ih (i + pgsize) (by omega) (by rw [add_mod_right]; exact hi) hwrap hread'
        · have hall : ph.Readable file := fun j hj hlt2 => hread' j hj (by
            have : ph.loadSize < 2 ^ 32 := mod_lt _ (by decide)
            omega)
          have := hends hall
          rw [hpg] at *
          omega
    · rw [if_neg hlt']
      exact ⟨true, rfl, fun _ j hj hlt2 => hread j hj (by omega), fun _ => rfl⟩

theorem Image.loadseg_spec (hi : Image h pas free0 sz ranges pt free) (hal : ph.vaddr % pgsize = 0)
    (hcov : ∀ i, i % pgsize = 0 → i < ph.loadSize →
      (∀ j, j % pgsize = 0 → j < i → ph.Chunk file j) → Covered ranges (ph.vaddr + i))
    (hends : ph.Readable file → ph.loadSize ≤ 2 ^ 32 - pgsize) :
    ∃ ok, loadseg h pt file ph = some ok ∧ (ok = true ↔ ph.Readable file) := by
  refine loadLoop_spec (fun i h1 h2 h3 => ?_) hends (2 ^ 20 + 1) 0 (by decide) rfl (by decide)
    (fun j _ hj => absurd hj (Nat.not_lt_zero j))
  exact hi.walkaddr_some (by simp only [pgsize] at *; omega) (hcov i h1 h2 h3)

end Segment

end Xv6Vfs.Vm
