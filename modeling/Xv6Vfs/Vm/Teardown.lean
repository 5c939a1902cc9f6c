import Xv6Vfs.Vm.Load

/-! Creating and freeing user page tables gives every page back. -/
namespace Xv6Vfs.Vm
open Xv6Vfs.Radix Xv6Vfs.Bytes List Nat

variable {a sz : Nat} {as free0 : List Nat}

section Teardown

variable {h : Hal} {pas : Nat → Nat} {pt : PT h} {free : List Nat}

def unmapAll (h : Hal) (as : List Nat) (pt : PT h) : PT h := as.foldl (fun t a => unmap h t a) pt

/-- Addresses of different pages below `MAXVA`. -/
structure Apart (as : List Nat) : Prop where
  nodup : as.Nodup
  aligned : ∀ a ∈ as, a % pgsize = 0
  low : ∀ a ∈ as, a < maxva

theorem vpn_inj {b : Nat} (ha : a % pgsize = 0) (hb : b % pgsize = 0) (he : vpn a = vpn b) : a = b := by
  simp only [vpn, pgsize] at *
  omega

theorem Apart.tail (h : Apart (a :: as)) : Apart as :=
  ⟨h.nodup.of_cons, fun b hb => h.aligned b (mem_cons_of_mem a hb), fun b hb => h.low b (mem_cons_of_mem a hb)⟩

theorem Apart.head_ne (h : Apart (a :: as)) : ∀ b ∈ as, vpn b ≠ vpn a := by
  intro b hb he
  have := vpn_inj (h.aligned b (mem_cons_of_mem a hb)) (h.aligned a mem_cons_self) he
  exact (nodup_cons.mp h.nodup).1 (this ▸ hb)

theorem fixed_apart (h : Hal) : Apart (h.fixed.map Prod.fst) := by
  refine ⟨h.fixed_nodup, fun a ha => ?_, fun a ha => ?_⟩ <;>
    obtain ⟨f, hf, rfl⟩ := mem_map.mp ha
  · exact h.fixed_aligned f hf
  · exact ((h.fixed_iff f.1 (h.fixed_aligned f hf)).mp ⟨f, hf, rfl⟩).2

/-- Unmapping the pages `as`, which are not freed. -/
theorem unmapAll_spec (as : List Nat) (hap : Apart as)
    (hp : ∀ a ∈ as, ∃ pg, get h.level pt (vpn a) = some pg ∧ pg.pa = pas a) :
    (∀ v < keys h, (∃ a ∈ as, v = vpn a) → get h.level (unmapAll h as pt) v = none) ∧
    (∀ v < keys h, (∀ a ∈ as, v ≠ vpn a) → get h.level (unmapAll h as pt) v = get h.level pt v) ∧
    ∀ f, (as.map pas ++ stock h (unmapAll h as pt) f).Perm (stock h pt f) := by
  induction as generalizing pt with
  | nil => exact ⟨by simp, fun _ _ _ => rfl, fun f => List.Perm.refl _⟩
  | cons a as ih =>
    obtain ⟨pg, hg, hpa⟩ := hp a mem_cons_self
    obtain ⟨h1, h2⟩ := unmap_spec (hap.low a mem_cons_self) hg
    have hkeep : ∀ b ∈ as, ∃ pg, get h.level (unmap h pt a) (vpn b) = some pg ∧ pg.pa = pas b := by
      intro b hb
      obtain ⟨pg', hg', hpa'⟩ := hp b (mem_cons_of_mem a hb)
      refine ⟨pg', ?_, hpa'⟩
      rw [h1 _ (vpn_lt (hap.tail.low b hb)), if_neg (hap.head_ne b hb), hg']
    obtain ⟨e1, e2, e3⟩ := ih hap.tail hkeep
    refine ⟨fun v hv hex => ?_, fun v hv hall => ?_, fun f => ?_⟩
    · by_cases hin : ∃ b ∈ as, v = vpn b
      · exact e1 v hv hin
      · obtain ⟨b, hb, rfl⟩ := hex
        rcases mem_cons.mp hb with rfl | hb
        · refine (e2 _ hv fun b hb he => hin ⟨b, hb, he⟩).trans ?_
          rw [h1 _ hv, if_pos rfl]
        · exact absurd ⟨b, hb, rfl⟩ hin
    · refine (e2 v hv fun b hb => hall b (mem_cons_of_mem a hb)).trans ?_
      rw [h1 v hv, if_neg (hall a mem_cons_self)]
    · rw [map_cons, ← hpa]
      exact ((e3 f).cons _).trans (h2 f)

theorem unmapFixed_eq (fs : List (Nat × Bool × Bool)) (hap : Apart (fs.map Prod.fst))
    (hp : ∀ f ∈ fs, ∃ pg, get h.level pt (vpn f.1) = some pg ∧ pg.pa = pas f.1) :
    unmapFixed h fs pt free = some (unmapAll h (fs.map Prod.fst) pt, free) := by
  induction fs generalizing pt with
  | nil => rfl
  | cons f fs ih =>
    obtain ⟨va, perm⟩ := f
    obtain ⟨pg, hg, -⟩ := hp (va, perm) mem_cons_self
    have hlow := hap.low va mem_cons_self
    simp only [unmapFixed, uvmunmap_one hlow hg, Option.bind_some]
    refine ih hap.tail fun f' hf' => ?_
    obtain ⟨pg', hg', hpa'⟩ := hp f' (mem_cons_of_mem _ hf')
    refine ⟨pg', ?_, hpa'⟩
    have hm := mem_map_of_mem (f := Prod.fst) hf'
    rw [(unmap_spec hlow hg).1 _ (vpn_lt (hap.tail.low _ hm)), if_neg (hap.head_ne _ hm), hg']

/-- `uvmfree` of a table without mappings behind its size. -/
theorem uvmfree_spec {sz : Nat} (hsz : sz ≤ maxva)
    (honly : ∀ v < keys h, vpn (pgRoundUp sz) ≤ v → get h.level pt v = none) :
    ∃ free', uvmfree h pt sz free = some free' ∧ free'.Perm (stock h pt free) := by
  have hb := pgRoundUp_bounds hsz
  have hpos : 0 < keys h := Nat.lt_of_lt_of_le (by decide) (le_keys h)
  -- After the loop nothing is mapped, and the tables are all that is left.
  have hfree : ∀ (pt' : PT h) free', (∀ v < keys h, get h.level pt' v = none) →
      ∃ free2, freewalk h.level pt' free' = some free2 ∧ free2.Perm (stock h pt' free') := by
    intro pt' free' hnone
    have hl : leaves h.level pt' = [] := by
      refine leaves_nil pt' fun w => ?_
      have hs : Same h.level w (w % keys h) := (mod_mod w (keys h)).symm
      rw [get_congr pt' hs]
      exact hnone _ (mod_lt _ hpos)
    obtain ⟨free2, h1, h2⟩ := freewalk_spec pt' free' hl
    refine ⟨free2, h1, ?_⟩
    simpa [stock, hl] using h2
  unfold uvmfree
  by_cases h0 : 0 < sz
  · rw [if_pos h0]
    have hk : 0 + pgRoundUp sz / pgsize * pgsize ≤ maxva := by
      have := div_mul_le_self (pgRoundUp sz) pgsize
      omega
    obtain ⟨pt', free', h1, h2, h3⟩ := uvmunmap_spec (h := h) (a := 0)
      (by decide) hk
    obtain ⟨free2, h4, h5⟩ := hfree pt' free' fun v hv => by
      rw [h2 v hv]
      by_cases hin : vpn 0 ≤ v ∧ v < vpn 0 + pgRoundUp sz / pgsize
      · rw [if_pos hin]
      · rw [if_neg hin, honly v hv]
        simp only [vpn, pgsize] at *
        omega
    exact ⟨free2, by rw [h1]; exact h4, h5.trans h3⟩
  · rw [if_neg h0]
    obtain rfl : sz = 0 := by omega
    exact hfree pt free fun v hv => honly v hv (Nat.zero_le v)

/-- A user table: the pages of the kernel are mapped, all others lie below the size. -/
structure UserTable (h : Hal) (pas : Nat → Nat) (pt : PT h) (sz : Nat) : Prop where
  low : sz ≤ maxva
  only : ∀ v < keys h, (get h.level pt v).isSome →
    v < vpn (pgRoundUp sz) ∨ ∃ f ∈ h.fixed, v = vpn f.1
  kernel : ∀ f ∈ h.fixed, ∃ pg, get h.level pt (vpn f.1) = some pg ∧ pg.pa = pas f.1

theorem UserTable.free_spec (ht : UserTable h pas pt sz) :
    ∃ free', procFreepagetable h pt sz free = some free' ∧
      (h.fixed.map (fun f => pas f.1) ++ free').Perm (stock h pt free) := by
  have hap := fixed_apart h
  obtain ⟨e1, e2, e3⟩ := unmapAll_spec (h.fixed.map Prod.fst) hap (by
    intro a ha
    obtain ⟨f, hf, rfl⟩ := mem_map.mp ha
    exact ht.kernel f hf)
  obtain ⟨free', h1, h2⟩ := uvmfree_spec (h := h)
    ht.low (by
      intro v hv hge
      by_cases hin : ∃ a ∈ h.fixed.map Prod.fst, v = vpn a
      · exact e1 v hv hin
      · rw [e2 v hv fun a ha he => hin ⟨a, ha, he⟩]
        cases hg : get h.level pt v with
        | none => rfl
        | some pg =>
          rcases ht.only v hv (by simp [hg]) with h3 | ⟨f, hf, h3⟩
          · omega
          · exact absurd ⟨f.1, mem_map_of_mem hf, h3⟩ hin)
  refine ⟨free', ?_, ?_⟩
  · rw [procFreepagetable, unmapFixed_eq h.fixed hap ht.kernel, Option.bind_some, h1]
  · have h3 := e3 free
    rw [map_map] at h3
    exact (List.Perm.append_left _ h2).trans h3

theorem Owned.userTable (hi : Owned h pas free0 sz pt free) : UserTable h pas pt sz :=
  ⟨hi.low, hi.only, hi.kernel⟩

theorem Owned.free_spec (hi : Owned h pas free0 sz pt free) :
    ∃ free', procFreepagetable h pt sz free = some free' ∧ free'.Perm free0 := by
  obtain ⟨free', h1, h2⟩ := hi.userTable.free_spec
  exact ⟨free', h1, (perm_append_left_iff _).mp (h2.trans hi.stock)⟩

/-- While the pages of the kernel are mapped: those of `done` are. -/
structure Partly (h : Hal) (pas : Nat → Nat) (free0 done : List Nat) (pt : PT h)
    (free : List Nat) : Prop where
  only : ∀ v < keys h, (get h.level pt v).isSome → ∃ a ∈ done, v = vpn a
  mapped : ∀ a ∈ done, ∃ pg, get h.level pt (vpn a) = some pg ∧ pg.pa = pas a
  users : ∀ v < keys h, ∀ pg, get h.level pt v = some pg → pg.user = false
  stock : (stock h pt free).Perm (done.map pas ++ free0)

theorem Partly.unmapAll {done : List Nat} (hp : Partly h pas free0 done pt free) (hap : Apart done) :
    Partly h pas free0 [] (unmapAll h done pt) free := by
  obtain ⟨e1, e2, e3⟩ := unmapAll_spec done hap hp.mapped
  refine ⟨fun v hv hs => ?_, by simp, fun v hv pg hg => ?_, ?_⟩
  · by_cases hin : ∃ a ∈ done, v = vpn a
    · simp [e1 v hv hin] at hs
    · rw [e2 v hv fun a ha he => hin ⟨a, ha, he⟩] at hs
      exact absurd (hp.only v hv hs) hin
  · by_cases hin : ∃ a ∈ done, v = vpn a
    · simp [e1 v hv hin] at hg
    · rw [e2 v hv fun a ha he => hin ⟨a, ha, he⟩] at hg
      exact hp.users v hv pg hg
  · exact (perm_append_left_iff _).mp ((e3 free).trans hp.stock)

theorem mapFixed_spec (fs : List (Nat × Bool × Bool)) (done : List Nat) (hap : Apart (fs.map Prod.fst ++ done))
    (hp : Partly h pas free0 done pt free) :
    ∃ ok pt' free', mapFixed h pas fs done pt free = some (ok, pt', free') ∧
      (ok = true → Partly h pas free0 ((fs.map Prod.fst).reverse ++ done) pt' free') ∧
      (ok = false → Partly h pas free0 [] pt' free') ∧
      (fs.length * h.level ≤ free.length → ok = true ∧ free.length ≤ free'.length + fs.length * h.level) := by
  induction fs generalizing done pt free with
  | nil => exact ⟨true, pt, free, rfl, fun _ => hp, by simp, fun _ => ⟨rfl, by simp⟩⟩
  | cons f fs ih =>
    obtain ⟨va, write, exec⟩ := f
    have hmem : va ∈ va :: (fs.map Prod.fst ++ done) := mem_cons_self
    have hlow := hap.low va hmem
    have hne : ∀ b ∈ done, vpn b ≠ vpn va := fun b hb =>
      hap.head_ne b (mem_append_right _ hb)
    have hnone : get h.level pt (vpn va) = none := by
      cases hg : get h.level pt (vpn va) with
      | none => rfl
      | some pg =>
        obtain ⟨a, ha, he⟩ := hp.only _ (vpn_lt hlow) (by simp [hg])
        exact absurd he.symm (hne a ha)
    obtain ⟨ok, pt1, free1, hm, hget, hst, hfail, hlen⟩ := mappages_spec (h := h)
      (hap.aligned va hmem) hlow ⟨pas va, false, write, exec⟩ free hnone
    have hkeep : ∀ a ∈ done, ∃ pg, get h.level pt1 (vpn a) = some pg ∧ pg.pa = pas a := by
      intro a ha
      obtain ⟨pg, hg, hpa⟩ := hp.mapped a ha
      refine ⟨pg, ?_, hpa⟩
      rw [hget _ (vpn_lt (hap.low a (mem_cons_of_mem _ (mem_append_right _ ha)))), if_neg (fun hx => hne a ha hx.2), hg]
    have hmul : (fs.length + 1) * h.level = fs.length * h.level + h.level := succ_mul _ _
    simp only [mapFixed, hm, Option.bind_some]
    cases ok with
    | false =>
      have hp1 : Partly h pas free0 done pt1 free1 := by
        refine ⟨fun v hv hs => ?_, hkeep, fun v hv pg hg => ?_, ?_⟩
        · rw [hget v hv, if_neg (by simp)] at hs
          exact hp.only v hv hs
        · rw [hget v hv, if_neg (by simp)] at hg
          exact hp.users v hv pg hg
        · simpa using hst.trans hp.stock
      refine ⟨false, _, free1, rfl, by simp, fun _ => hp1.unmapAll ?_, fun h0 => ?_⟩
      · exact ⟨(nodup_append.mp hap.tail.nodup).2.1,
          fun a ha => hap.aligned a (mem_cons_of_mem _ (mem_append_right _ ha)),
          fun a ha => hap.low a (mem_cons_of_mem _ (mem_append_right _ ha))⟩
      · have := hfail rfl
        simp only [length_cons] at h0
        omega
    | true =>
      have hperm : (va :: (fs.map Prod.fst ++ done)).Perm (fs.map Prod.fst ++ va :: done) :=
        perm_middle.symm
      have hp1 : Partly h pas free0 (va :: done) pt1 free1 := by
        refine ⟨fun v hv hs => ?_, fun a ha => ?_, fun v hv pg hg => ?_, ?_⟩
        · by_cases he : v = vpn va
          · exact ⟨va, mem_cons_self, he⟩
          · rw [hget v hv, if_neg (fun hx => he hx.2)] at hs
            obtain ⟨a, ha, he'⟩ := hp.only v hv hs
            exact ⟨a, mem_cons_of_mem _ ha, he'⟩
        · rcases mem_cons.mp ha with rfl | ha
          · exact ⟨_, by rw [hget _ (vpn_lt hlow), if_pos ⟨rfl, rfl⟩], rfl⟩
          · exact hkeep a ha
        · rw [hget v hv] at hg
          split at hg
          · exact Option.some.inj hg ▸ rfl
          · exact hp.users v hv pg hg
        · simpa using hst.trans (hp.stock.cons (pas va))
      obtain ⟨ok2, pt2, free2, h1, h2, h3, h4⟩ := ih (va :: done)
        ⟨hperm.nodup_iff.mp hap.nodup, fun a ha => hap.aligned a (hperm.mem_iff.mpr ha),
          fun a ha => hap.low a (hperm.mem_iff.mpr ha)⟩ hp1
      refine ⟨ok2, pt2, free2, h1, fun h0 => ?_, h3, fun h0 => ?_⟩
      · simpa using h2 h0
      · have h5 := hlen rfl
        simp only [length_cons] at h0 ⊢
        obtain ⟨h6, h7⟩ := h4 (by omega)
        exact ⟨h6, by omega⟩

/-- `proc_pagetable`: an image without segments, or every page back. -/
theorem procPagetable_spec (h : Hal) (pas : Nat → Nat) (free : List Nat) :
    ∃ o free', procPagetable h pas free = some (o, free') ∧
      (o = none → free'.Perm free) ∧
      (∀ pt, o = some pt → Image h pas free 0 [] pt free') ∧
      (1 + h.fixed.length * h.level ≤ free.length →
        o ≠ none ∧ free.length ≤ free'.length + (1 + h.fixed.length * h.level)) := by
  cases free with
  | nil => exact ⟨none, [], rfl, fun _ => List.Perm.refl _, by simp, fun h0 => by simp at h0⟩
  | cons root free =>
    have h0 : Partly h pas (root :: free) [] (empty h.level root) free := by
      refine ⟨fun v _ hs => ?_, by simp, fun v _ pg hg => ?_, ?_⟩
      · simp [get_empty] at hs
      · simp [get_empty] at hg
      · simp [Vm.stock, leaves_empty, tables_empty]
    obtain ⟨ok, pt, free', h1, h2, h3, h4⟩ := mapFixed_spec h.fixed [] (by
      rw [append_nil]
      exact fixed_apart h) h0
    simp only [procPagetable, h1, Option.bind_some]
    cases ok with
    | true =>
      refine ⟨some pt, free', rfl, by simp, fun pt' he => ?_, fun hl => ⟨by simp, ?_⟩⟩
      · cases he
        have hp := h2 rfl
        rw [append_nil] at hp
        refine ⟨⟨Nat.zero_le _, fun v hv hs => ?_, fun f hf => ?_, ?_⟩, fun a _ hc => ?_, fun v hv pg hg hu => ?_⟩
        · obtain ⟨a, ha, he⟩ := hp.only v hv hs
          obtain ⟨f, hf, rfl⟩ := mem_map.mp (mem_reverse.mp ha)
          exact .inr ⟨f, hf, he⟩
        · exact hp.mapped f.1 (mem_reverse.mpr (mem_map_of_mem hf))
        · refine hp.stock.trans (List.Perm.append_right _ ?_)
          have := ((h.fixed.map Prod.fst).reverse_perm.map pas)
          rwa [map_map] at this
        · obtain ⟨r, hr, -⟩ := hc
          exact absurd hr not_mem_nil
        · simp [hp.users v hv pg hg] at hu
      · simp only [length_cons] at hl ⊢
        have := (h4 (by omega)).2
        omega
    | false =>
      have hp := h3 rfl
      obtain ⟨free2, h5, h6⟩ := @uvmfree_spec h pt free' _ (Nat.zero_le maxva)
        (fun v hv _ => by
          cases hg : get h.level pt v with
          | none => rfl
          | some pg =>
            obtain ⟨a, ha, -⟩ := hp.only v hv (by simp [hg])
            exact absurd ha not_mem_nil)
      refine ⟨none, free2, by simp [h5], fun _ => h6.trans (by simpa using hp.stock), by simp, fun hl => ?_⟩
      simp only [length_cons] at hl
      have := (h4 (by omega)).1
      simp at this

end Teardown

end Xv6Vfs.Vm
