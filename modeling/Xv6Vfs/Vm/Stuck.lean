import Xv6Vfs.Vm.Total

/-! Without a layout that fits, `kexec` panics or never returns, if there is enough memory to get
to the header at fault. -/
namespace Xv6Vfs.Vm
open Xv6Vfs.Radix Xv6Vfs.Bytes Xv6Vfs.Vfs Option Nat

variable {a k newsz : Nat}

/-- A size above `MAXVA`, which the rounding does not wrap. No table of that size can be freed. -/
def Lost (sz : Nat) : Prop := maxva < sz ∧ sz ≤ 2 ^ 64 - pgsize

theorem Lost.round {sz : Nat} (hl : Lost sz) : Lost (pgRoundUp sz) ∧ pgRoundUp sz % pgsize = 0 ∧ sz ≤ pgRoundUp sz := by
  obtain ⟨h1, h2⟩ := hl
  have h3 : pgRoundUp sz = (sz + 4095) / 4096 * 4096 := by
    refine mod_eq_of_lt ?_
    simp only [pgsize] at h2
    omega
  unfold Lost
  rw [h3]
  simp only [pgsize, maxva] at *
  omega

section Lost

variable {h : Hal} {pt : PT h} {free : List Nat} {sz : Nat}

/-- The loop of `uvmunmap` panics when it gets to `MAXVA`. -/
theorem uvmunmap_none {doFree : Bool} {j : Nat} (ha : a + j * pgsize = maxva) (hk : j < k) :
    uvmunmap h doFree k a pt free = none := by
  induction k generalizing a j pt free with
  | zero => omega
  | succ k ih =>
    cases j with
    | zero =>
      have hv := h.valid_maxva
      rw [← ha, Nat.zero_mul, Nat.add_zero] at hv
      simp [uvmunmap, hv]
    | succ j =>
      have hrec : ∀ pt free, uvmunmap h doFree k (a + pgsize) pt free = none := fun pt free =>
        ih (j := j) (by rw [← ha, succ_mul]; omega) (by omega)
      simp only [uvmunmap]
      split
      · rfl
      · split
        · exact hrec _ _
        · exact hrec _ _

theorem Lost.free_none (hl : Lost sz) : procFreepagetable h pt sz free = none := by
  unfold procFreepagetable
  cases unmapFixed h h.fixed pt free with
  | none => rfl
  | some r =>
    have hr := hl.round
    have hpos : 0 < sz := Nat.lt_of_le_of_lt (Nat.zero_le _) hl.1
    rw [bind_some, uvmfree, if_pos hpos, uvmunmap_none (j := 2 ^ 26) (by decide)]
    · rfl
    · simp only [Lost, maxva, pgsize] at hr ⊢
      omega

/-- The pages the loop of `uvmalloc` has mapped are valid. -/
theorem growLoop_valid {write exec : Bool} {a' : Nat} {pt' : PT h} {free' : List Nat}
    (hg : growLoop h write exec (k + 1) a pt free = some (true, a', pt', free')) : h.valid (a + k * pgsize) = true := by
  induction k generalizing a pt free with
  | zero =>
    cases free with
    | nil => simp [growLoop] at hg
    | cons mem free =>
      simp only [growLoop] at hg
      obtain ⟨r, h1, -⟩ := bind_eq_some_iff.mp hg
      rw [Nat.zero_mul, Nat.add_zero]
      by_contra hc
      simp [mappages, hc] at h1
  | succ k ih =>
    cases free with
    | nil => simp [growLoop] at hg
    | cons mem free =>
      rw [growLoop] at hg
      obtain ⟨r, -, h2⟩ := bind_eq_some_iff.mp hg
      split at h2
      · have h3 := ih h2
        rwa [succ_mul, Nat.add_comm (k * pgsize), ← Nat.add_assoc]
      · simp at h2

theorem Lost.uvmalloc (hl : Lost sz) {write exec : Bool} {r : Nat × PT h × List Nat}
    (hu : uvmalloc h pt sz newsz write exec free = some r) : r.1 = 0 ∨ Lost r.1 := by
  unfold Vm.uvmalloc at hu
  split at hu
  · exact .inr (some.inj hu ▸ hl)
  case isFalse hge =>
    obtain ⟨g, h1, h2⟩ := bind_eq_some_iff.mp hu
    obtain ⟨ok, a', pt', free'⟩ := g
    cases ok with
    | false =>
      obtain ⟨q, -, rfl⟩ := map_eq_some_iff.mp (show Option.map _ _ = some r from h2)
      exact .inl rfl
    | true =>
      cases h2
      have hr := hl.round
      refine .inr ⟨Nat.lt_of_lt_of_le hl.1 (Nat.not_lt.mp hge), ?_⟩
      cases hk : (newsz - pgRoundUp sz + 4095) / pgsize with
      | zero =>
        simp only [Lost, pgsize] at *
        omega
      | succ k =>
        rw [hk] at h1
        have hv := h.valid_high _ (growLoop_valid h1)
        simp only [Lost, pgsize] at *
        omega

theorem Lost.loadHeaders (hl : Lost sz) {file : List UInt8} (hs : List (Option Ph)) {r : Bool × Nat × PT h × List Nat}
    (hr : loadHeaders h file hs sz pt free = some r) : Lost r.2.1 := by
  induction hs generalizing sz pt free with
  | nil => exact some.inj hr ▸ hl
  | cons o rest ih =>
    cases o with
    | none => exact some.inj hr ▸ hl
    | some ph =>
      simp only [Vm.loadHeaders] at hr
      split at hr
      · exact ih hl hr
      split at hr
      · exact some.inj hr ▸ hl
      case isFalse hrej =>
        obtain ⟨-, h1, h2⟩ := Ph.rejected_false hrej
        have hl0 : Lost (max sz ph.vaddr) := by
          simp only [Lost, pgsize] at *
          omega
        obtain ⟨q, hu, hr⟩ := bind_eq_some_iff.mp hr
        split at hr
        · exact some.inj hr ▸ hl0
        case isFalse hq =>
          have hl1 : Lost q.1 := (hl0.uvmalloc hu).resolve_left hq
          obtain ⟨ok, -, hr⟩ := bind_eq_some_iff.mp hr
          split at hr
          · exact ih hl1 hr
          · exact some.inj hr ▸ hl1

theorem uvmalloc_result {write exec : Bool} {r : Nat × PT h × List Nat}
    (hu : uvmalloc h pt sz newsz write exec free = some r) : r.1 = 0 ∨ r.1 = sz ∨ r.1 = newsz := by
  unfold Vm.uvmalloc at hu
  split at hu
  · exact .inr (.inl (some.inj hu ▸ rfl))
  · obtain ⟨g, -, h2⟩ := bind_eq_some_iff.mp hu
    split at h2
    · exact .inr (.inr (some.inj h2 ▸ rfl))
    · obtain ⟨q, -, rfl⟩ := map_eq_some_iff.mp h2
      exact .inl rfl

theorem Lost.sp_above {top : Nat} (hl : Lost top) (hal : top % pgsize = 0) :
    (top + 2 ^ 64 - (0 + 1) * 8) % 2 ^ 64 / 16 * 16 = top - 16 ∧
      maxva ≤ pgRoundDown (top - 16) ∧ ¬ top - 16 < top - userstack * pgsize := by
  simp only [Lost, pgsize, maxva, pgRoundDown, userstack] at *
  omega

theorem copyout_above {p : Proc h} {fuel sp len : Nat} (hva : maxva ≤ pgRoundDown sp)
    (hlen : len ≠ 0) : copyout h pt (fuel + 1) sp len p free = some (false, p, free) := by
  rw [copyout, if_neg hlen, if_pos hva]

/-- The stack would lie above `MAXVA`, where nothing can be copied to. -/
theorem Lost.buildStack (hl : Lost sz) {p : Proc h} {r : Option Nat × Nat × PT h × Proc h × List Nat}
    (hr : buildStack h [] sz pt p free = some r) : r.1 = none ∧ Lost r.2.1 := by
  obtain ⟨hbase, hal, -⟩ := hl.round
  obtain ⟨q, hu, hr⟩ := bind_eq_some_iff.mp hr
  split at hr
  · cases hr
    exact ⟨rfl, hbase⟩
  case isFalse hq =>
    have hlost := (hbase.uvmalloc hu).resolve_left hq
    have halq : q.1 % pgsize = 0 := by
      rcases (uvmalloc_result hu).resolve_left hq with h1 | h1
      · rw [h1, hal]
      · rw [h1]
        simp only [userstack, pgsize] at hal ⊢
        omega
    obtain ⟨h1, h2, h3⟩ := hlost.sp_above halq
    obtain ⟨pt2, -, hr⟩ := bind_eq_some_iff.mp hr
    obtain ⟨w, hw, hr⟩ := bind_eq_some_iff.mp hr
    cases hw
    change (if _ then _ else _) = some r at hr
    rw [List.length_nil, h1, if_neg h3, copyout_above h2 (by decide)] at hr
    cases hr
    exact ⟨rfl, hlost⟩

theorem Lost.commit (hl : Lost sz) (entry : Nat) (k : Kernel h) : commit h [] entry sz pt k = none := by
  unfold Vm.commit
  cases hb : Vm.buildStack h [] sz pt k.proc k.free with
  | none => rfl
  | some r =>
    obtain ⟨h1, h2⟩ := hl.buildStack hb
    simp only [bind_some, h1, h2.free_none, map_none]

end Lost

section Stuck

variable {h : Hal} {pas : Nat → Nat} {free0 : List Nat} {sz : Nat} {ranges : List (Nat × Nat)}
  {pt : PT h} {free : List Nat} {file : List UInt8} {ph : Ph}

theorem mappages_remap {va : Nat} {pg : Page} (hg : (get h.level pt (vpn va)).isSome) :
    mappages h pt va pg free = none := by
  unfold mappages
  split
  · rfl
  · rw [(insert_remap ..).mpr hg]

/-- With enough memory the loop of `uvmalloc` gets to the pages of the kernel, or to `MAXVA`. -/
theorem growLoop_stuck {write exec : Bool} (hal : a % pgsize = 0) (ha : a ≤ maxva) (hk0 : 0 < k)
    (hk : h.top < a + k * pgsize) (hnone : ∀ v, vpn a ≤ v → v < vpn h.top → get h.level pt v = none)
    (hker : ∀ f ∈ h.fixed, (get h.level pt (vpn f.1)).isSome)
    (hmem : (2 ^ 26 + 1 - vpn a) * (h.level + 1) ≤ free.length) : growLoop h write exec k a pt free = none := by
  have hpg : pgsize = 4096 := rfl
  have htop := h.top_le
  have htal := h.top_aligned
  induction k generalizing a pt free with
  | zero => omega
  | succ k ih =>
    have hn : 2 ^ 26 + 1 - vpn a = 2 ^ 26 - vpn a + 1 := by
      simp only [vpn, pgsize, maxva] at *
      omega
    rw [hn, succ_mul] at hmem
    cases free with
    | nil => simp at hmem
    | cons mem free =>
      simp only [growLoop]
      by_cases hlt : a < h.top
      · have hv1 : vpn (a + pgsize) = vpn a + 1 := by
          simp only [vpn, pgsize]
          omega
        have hroom : vpn a < vpn h.top := by
          simp only [vpn, pgsize] at *
          omega
        obtain ⟨ok, pt1, free1, hm, hget, -, hfail, hlen⟩ := @mappages_spec h pt _ hal
          (Nat.lt_of_lt_of_le hlt htop) ⟨mem, true, write, exec⟩ free (hnone _ (Nat.le_refl _) hroom)
        simp only [List.length_cons] at hmem
        have hmem' : (2 ^ 26 - vpn a) * (h.level + 1) ≤ free1.length ∧ ok = true := by
          have hpos : h.level + 1 ≤ (2 ^ 26 - vpn a) * (h.level + 1) := by
            refine Nat.le_mul_of_pos_left _ ?_
            simp only [vpn, pgsize, maxva] at *
            omega
          cases ok with
          | false => have := hfail rfl; omega
          | true => have := hlen rfl; exact ⟨by omega, rfl⟩
        obtain ⟨hmem', rfl⟩ := hmem'
        have hkeys : vpn h.top < keys h ∨ vpn h.top = keys h := by
          have := le_keys h
          simp only [vpn, pgsize, maxva] at *
          omega
        simp only [hm, bind_some, if_true]
        refine ih (by rw [add_mod_right]; exact hal) ?_ ?_ ?_ (fun v h1 h2 => ?_) (fun f hf => ?_) ?_
        · rw [hpg] at *
          omega
        · rw [hpg] at *
          omega
        · rw [succ_mul] at hk
          omega
        · rw [hget v (by omega), if_neg (by omega)]
          exact hnone v (by omega) h2
        · have hf2 := ((h.fixed_iff f.1 (h.fixed_aligned f hf)).mp ⟨f, hf, rfl⟩)
          rw [hget _ (vpn_lt hf2.2), if_neg (fun hx => ?_)]
          · exact hker f hf
          · simp only [vpn, pgsize] at *
            omega
        · rwa [hv1, show 2 ^ 26 + 1 - (vpn a + 1) = 2 ^ 26 - vpn a by omega]
      · by_cases hmax : a < maxva
        · obtain ⟨f, hf, rfl⟩ := (h.fixed_iff a hal).mpr ⟨by omega, hmax⟩
          rw [mappages_remap (hker f hf)]
          rfl
        · obtain rfl : a = maxva := by omega
          simp [mappages, h.valid_maxva]

theorem Owned.uvmalloc_stuck (hi : Owned h pas free0 sz pt free) {write exec : Bool} (hlt : pgRoundUp sz < newsz)
    (htop : h.top < newsz) (hmem : 2 * ample h ≤ free.length) : uvmalloc h pt sz newsz write exec free = none := by
  have hsz := pgRoundUp_bounds hi.low
  unfold uvmalloc
  rw [if_neg (by omega)]
  dsimp only
  have hmem' : (2 ^ 26 + 1 - vpn (pgRoundUp sz)) * (h.level + 1) ≤ free.length := by
    refine Nat.le_trans ?_ hmem
    rw [ample, ← Nat.mul_assoc]
    exact Nat.mul_le_mul_right _ (by omega)
  have hker : ∀ f ∈ h.fixed, (get h.level pt (vpn f.1)).isSome := by
    intro f hf
    obtain ⟨pg, hg, -⟩ := hi.kernel f hf
    simp [hg]
  rw [growLoop_stuck hsz.2.2.1 hsz.2.1 ?_ ?_ (fun v h1 h2 => hi.unmapped h1 h2) hker hmem']
  · rfl
  · simp only [pgsize]
    omega
  · simp only [pgsize]
    omega

theorem Image.walkaddr_none (hi : Image h pas free0 sz ranges pt free) (ha : a % pgsize = 0) (hc : ¬ Covered ranges a) :
    walkaddr h pt a = none := by
  unfold walkaddr
  split
  · rfl
  case isFalse hlt =>
    cases hg : get h.level pt (vpn a) with
    | none => rfl
    | some pg =>
      rw [bind_some, if_neg]
      intro hu
      have := hi.users _ (vpn_lt (Nat.not_le.mp hlt)) pg hg hu
      rw [vpn, Nat.div_mul_cancel (dvd_of_mod_eq_zero ha)] at this
      exact hc this

/-- `loadseg` panics at the first page that is not mapped, if the file lasts that long. -/
theorem loadLoop_uncovered {i0 : Nat} (hi0 : i0 % pgsize = 0) (hlt : i0 < ph.loadSize)
    (hread : ∀ j, j % pgsize = 0 → j < i0 → ph.Chunk file j) (hwalk : walkaddr h pt (ph.vaddr + i0) = none)
    (fuel i : Nat) (hi : i % pgsize = 0) (hle : i ≤ i0) :
    loadLoop h pt file ph.vaddr (ph.off % 2 ^ 32) ph.loadSize fuel i = none := by
  induction fuel generalizing i with
  | zero => rfl
  | succ fuel ih =>
    rw [loadLoop, if_pos (by omega)]
    by_cases he : i = i0
    · rw [he, hwalk]
    · have hsize : ph.loadSize < 2 ^ 32 := mod_lt _ (by decide)
      have hnext : i + pgsize ≤ i0 := by
        simp only [pgsize] at *
        omega
      have hchunk := (@readKernel_chunk file ph i).mpr (hread i hi (by omega))
      obtain ⟨b, hb⟩ := isSome_iff_exists.mp hchunk
      split
      · rfl
      · rw [hb]
        have hmod : (i + pgsize) % 2 ^ 32 = i + pgsize := mod_eq_of_lt (by omega)
        rw [hmod]
        exact ih _ (by rw [add_mod_right]; exact hi) hnext

/-- The offset wraps before it gets to the end of a segment in the last page of 4 GiB. -/
theorem loadLoop_endless (hread : ph.Readable file) (hbig : 2 ^ 32 - pgsize < ph.loadSize)
    (fuel i : Nat) (hi : i % pgsize = 0) (hlt : i < 2 ^ 32) :
    loadLoop h pt file ph.vaddr (ph.off % 2 ^ 32) ph.loadSize fuel i = none := by
  induction fuel generalizing i with
  | zero => rfl
  | succ fuel ih =>
    have hin : i < ph.loadSize := by
      simp only [pgsize] at *
      omega
    rw [loadLoop, if_pos hin]
    obtain ⟨b, hb⟩ := isSome_iff_exists.mp
      ((@readKernel_chunk file ph i).mpr (hread i hi hin))
    split
    · rfl
    · rw [hb]
      refine ih _ ?_ (mod_lt _ (by decide))
      simp only [pgsize] at *
      omega

end Stuck

end Xv6Vfs.Vm
