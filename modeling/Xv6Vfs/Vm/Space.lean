import Xv6Vfs.Vm.Exec

/-! What the page-table functions do to the mappings below `MAXVA`, and where the pages go. -/
namespace Xv6Vfs.Vm
open Xv6Vfs.Radix List Option Nat

variable {pg : Page}

/-- The number of pages a table can map. -/
def keys (h : Hal) : Nat := fanout ^ (h.level + 1)

/-- All pages of a table, and the free ones. -/
def stock (h : Hal) (pt : PT h) (free : List Nat) : List Nat :=
  (leaves h.level pt).map Page.pa ++ tables h.level pt ++ free

section Space

variable {h : Hal} {pt pt' : PT h} {free free' : List Nat} {a va k : Nat}

theorem le_keys (h : Hal) : 2 ^ 27 ≤ keys h :=
  calc 2 ^ 27 = fanout ^ 3 := by decide
    _ ≤ fanout ^ (h.level + 1) := Nat.pow_le_pow_right (by decide) (succ_le_succ h.level_pos)

theorem same_iff {v w : Nat} (hv : v < keys h) (hw : w < keys h) : Same h.level v w ↔ v = w := by
  unfold Same
  rw [show fanout ^ (h.level + 1) = keys h from rfl, mod_eq_of_lt hv, mod_eq_of_lt hw]

theorem vpn_lt (hva : va < maxva) : vpn va < keys h := by
  have := le_keys h
  unfold vpn pgsize
  unfold maxva at hva
  omega

theorem stock_cons (pt : PT h) (mem : Nat) (free : List Nat) :
    (stock h pt (mem :: free)).Perm (mem :: stock h pt free) := perm_middle

theorem mappages_spec (hal : va % pgsize = 0) (hva : va < maxva) (pg : Page) (free : List Nat)
    (hnone : get h.level pt (vpn va) = none) :
    ∃ ok pt' free', mappages h pt va pg free = some (ok, pt', free') ∧
      (∀ v < keys h, get h.level pt' v = if ok = true ∧ v = vpn va then some pg
        else get h.level pt v) ∧
      (stock h pt' free').Perm ((if ok then [pg.pa] else []) ++ stock h pt free) ∧
      (ok = false → free.length < h.level) ∧ (ok = true → free.length ≤ free'.length + h.level) := by
  unfold mappages
  rw [if_neg (by simp [hal, h.valid_low va hva])]
  cases hr : insert h.level pt (vpn va) pg free with
  | remap =>
    rw [insert_remap, hnone] at hr
    simp at hr
  | full t f =>
    obtain ⟨hg, hget, hlen⟩ := insert_full hr
    refine ⟨false, t, f, rfl, fun v _ => by simp [hget v], ?_, fun _ => hlen, by simp⟩
    simp only [stock, Bool.false_eq_true, if_false, nil_append, append_assoc]
    exact List.Perm.append (hg.values.map _) hg.pages
  | done t f =>
    obtain ⟨hg, hget⟩ := insert_done hr
    refine ⟨true, t, f, rfl, fun v hv => ?_, ?_, by simp, fun _ => insert_done_length hr⟩
    · rw [hget v]
      have hs := same_iff (vpn_lt (h := h) hva) hv
      by_cases he : v = vpn va
      · rw [if_pos (hs.mpr he.symm), if_pos ⟨rfl, he⟩]
      · rw [if_neg (fun hx => he (hs.mp hx).symm), if_neg (fun hx => he hx.2)]
    · simp only [stock, if_true, append_assoc]
      rw [← append_assoc [pg.pa]]
      exact List.Perm.append (hg.values.map Page.pa) hg.pages

/-- The loop of `uvmalloc` over unmapped pages below `MAXVA`: it maps a first part of them, all
of them if memory suffices. -/
theorem growLoop_spec (write exec : Bool) (hal : a % pgsize = 0) (hlt : a + k * pgsize ≤ maxva)
    (hnone : ∀ j < k, get h.level pt (vpn a + j) = none) :
    ∃ ok j pt' free', growLoop h write exec k a pt free = some (ok, a + j * pgsize, pt', free') ∧
      j ≤ k ∧ (ok = true → j = k) ∧
      (∀ v < keys h, vpn a ≤ v → v < vpn a + j → ∃ mem, get h.level pt' v = some ⟨mem, true, write, exec⟩) ∧
      (∀ v < keys h, v < vpn a ∨ vpn a + j ≤ v → get h.level pt' v = get h.level pt v) ∧
      (stock h pt' free').Perm (stock h pt free) ∧
      (k * (h.level + 1) ≤ free.length → ok = true ∧ free.length ≤ free'.length + k * (h.level + 1)) := by
  induction k generalizing a pt free with
  | zero =>
    refine ⟨true, 0, pt, free, by simp [growLoop], Nat.le_refl 0, fun _ => rfl, ?_, fun _ _ _ => rfl,
      List.Perm.refl _, by simp⟩
    intro v _ h1 h2
    omega
  | succ k ih =>
    cases free with
    | nil =>
      refine ⟨false, 0, pt, [], by simp [growLoop], by omega, by simp, ?_, fun _ _ _ => rfl, List.Perm.refl _, ?_⟩
      · intro v _ h1 h2
        omega
      · intro h0
        simp only [length_nil, le_zero_eq, Nat.mul_eq_zero] at h0
        omega
    | cons mem free =>
      have hk : (k + 1) * pgsize = k * pgsize + pgsize := succ_mul k pgsize
      have hpg : pgsize = 4096 := rfl
      have hva : a < maxva := by omega
      obtain ⟨ok, pt1, free1, hm, hget, hstock, hfail, hlen⟩ := mappages_spec hal hva
        ⟨mem, true, write, exec⟩ free (by simpa using hnone 0 (succ_pos k))
      have hmul : (k + 1) * (h.level + 1) = k * (h.level + 1) + (h.level + 1) := succ_mul _ _
      cases ok with
      | false =>
        refine ⟨false, 0, pt1, mem :: free1, ?_, by omega, by simp, ?_, ?_, ?_, ?_⟩
        · simp [growLoop, hm]
        · intro v _ h1 h2
          omega
        · intro v hv _
          simpa using hget v hv
        · simp only [Bool.false_eq_true, if_false, nil_append] at hstock
          exact (stock_cons pt1 mem free1).trans ((hstock.cons mem).trans (stock_cons pt mem free).symm)
        · intro h0
          have := hfail rfl
          simp only [length_cons] at h0
          omega
      | true =>
        have hv1 : vpn (a + pgsize) = vpn a + 1 := by
          simp only [vpn, hpg]
          omega
        have hnone1 : ∀ j < k, get h.level pt1 (vpn (a + pgsize) + j) = none := by
          intro j hj
          have hb : vpn a + 1 + j < keys h := by
            have := le_keys h
            simp only [vpn, hpg, maxva] at *
            omega
          rw [hv1, hget _ hb, if_neg (by omega)]
          have := hnone (j + 1) (by omega)
          rwa [show vpn a + (j + 1) = vpn a + 1 + j by omega] at this
        obtain ⟨ok2, j, pt2, free2, hg, hj, hok, hin, hout, hst, hmem⟩ :=
          ih (a := a + pgsize) (by rw [add_mod_right]; exact hal) (by omega) hnone1
        refine ⟨ok2, j + 1, pt2, free2, ?_, by omega, fun h0 => by rw [hok h0], ?_, ?_, ?_, ?_⟩
        · simp only [growLoop, hm, bind_some, if_true]
          rw [hg, succ_mul, Nat.add_comm (j * pgsize), Nat.add_assoc]
        · intro v hv h1 h2
          by_cases he : v = vpn a
          · refine ⟨mem, ?_⟩
            rw [hout v hv (by omega), hget v hv, if_pos ⟨rfl, he⟩]
          · exact hin v hv (by omega) (by omega)
        · intro v hv h1
          rw [hout v hv (by omega), hget v hv, if_neg (by omega)]
        · refine hst.trans (hstock.trans ?_)
          exact (stock_cons pt mem free).symm
        · intro h0
          simp only [length_cons] at h0 ⊢
          have h1 := hlen rfl
          obtain ⟨h2, h3⟩ := hmem (by omega)
          exact ⟨h2, by omega⟩

theorem unmap_spec (hva : va < maxva) (hg : get h.level pt (vpn va) = some pg) :
    (∀ v < keys h, get h.level (unmap h pt va) v = if v = vpn va then none else get h.level pt v) ∧
      ∀ f, (pg.pa :: stock h (unmap h pt va) f).Perm (stock h pt f) := by
  constructor
  · intro v hv
    rw [unmap, alter_get]
    have hs := same_iff (vpn_lt (h := h) hva) hv
    by_cases he : v = vpn va
    · rw [if_pos (hs.mpr he.symm), hg, if_pos he]
      rfl
    · rw [if_neg (fun hx => he (hs.mp hx).symm), if_neg he]
  · intro f
    have hacc := alter_accounts (fun _ => none) pt (vpn va)
    rw [hg] at hacc
    simp only [bind_some, toList_none, toList_some, append_nil] at hacc
    have e1 := (hacc.1.map Page.pa).append (hacc.2.append_right f)
    rw [map_append, append_assoc] at e1
    simp only [stock, append_assoc]
    exact (perm_middle.symm).trans e1

/-- The loop of `uvmunmap` below `MAXVA`: the pages go to the free list. -/
theorem uvmunmap_spec (hal : a % pgsize = 0) (hlt : a + k * pgsize ≤ maxva) :
    ∃ pt' free', uvmunmap h true k a pt free = some (pt', free') ∧
      (∀ v < keys h, get h.level pt' v = if vpn a ≤ v ∧ v < vpn a + k then none
        else get h.level pt v) ∧
      (stock h pt' free').Perm (stock h pt free) := by
  induction k generalizing a pt free with
  | zero =>
    refine ⟨pt, free, rfl, fun v _ => ?_, List.Perm.refl _⟩
    rw [if_neg (by omega)]
  | succ k ih =>
    have hk : (k + 1) * pgsize = k * pgsize + pgsize := succ_mul k pgsize
    have hpg : pgsize = 4096 := rfl
    have hva : a < maxva := by omega
    have hv1 : vpn (a + pgsize) = vpn a + 1 := by
      simp only [vpn, hpg]
      omega
    have hvalid := h.valid_low a hva
    have hrec := fun pt free => @ih pt free (a + pgsize)
      (by rw [add_mod_right]; exact hal) (by omega)
    cases hg : get h.level pt (vpn a) with
    | none =>
      obtain ⟨pt', free', h1, h2, h3⟩ := hrec pt free
      refine ⟨pt', free', ?_, fun v hv => ?_, h3⟩
      · simp only [uvmunmap, hvalid, hg]
        exact h1
      · rw [h2 v hv, hv1]
        by_cases he : v = vpn a
        · rw [if_neg (by omega), if_pos (by omega), he, hg]
        · by_cases hin : vpn a + 1 ≤ v ∧ v < vpn a + 1 + k
          · rw [if_pos hin, if_pos (by omega)]
          · rw [if_neg hin, if_neg (by omega)]
    | some pg =>
      obtain ⟨hget, hst⟩ := unmap_spec hva hg
      obtain ⟨pt', free', h1, h2, h3⟩ := hrec (unmap h pt a) (pg.pa :: free)
      refine ⟨pt', free', ?_, fun v hv => ?_, h3.trans ((stock_cons _ _ _).trans (hst free))⟩
      · simp only [uvmunmap, hvalid, hg]
        exact h1
      · rw [h2 v hv, hv1]
        by_cases hin : vpn a + 1 ≤ v ∧ v < vpn a + 1 + k
        · rw [if_pos hin, if_pos (by omega)]
        · rw [if_neg hin, hget v hv]
          by_cases he : v = vpn a
          · rw [if_pos he, if_pos (by omega)]
          · rw [if_neg he, if_neg (by omega)]

theorem uvmunmap_one (hva : va < maxva) (hg : get h.level pt (vpn va) = some pg) :
    uvmunmap h false 1 va pt free = some (unmap h pt va, free) := by
  simp [uvmunmap, h.valid_low va hva, hg]

end Space

end Xv6Vfs.Vm
