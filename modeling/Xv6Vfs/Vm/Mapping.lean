import Xv6Vfs.Vm.Rep

/-! A page table in memory as a partial map from page numbers to entries. -/
namespace Xv6Vfs.Vm.Phys
open Xv6Vfs.Radix Function List Option Nat

variable {i n p v : Nat}

section Ranges

variable {β : Type}

/-- `k` pages from `v` on are mapped. -/
def mapRange (M : Nat → Option β) (v k : Nat) (f : Nat → β) : Nat → Option β := fun x =>
  if v ≤ x ∧ x < v + k then some (f (x - v)) else M x

def clearRange (M : Nat → Option β) (v k : Nat) : Nat → Option β := fun x =>
  if v ≤ x ∧ x < v + k then none else M x

@[simp] theorem mapRange_zero (M : Nat → Option β) (v : Nat) (f : Nat → β) : mapRange M v 0 f = M :=
  funext fun _ => if_neg (by omega)

@[simp] theorem clearRange_zero (M : Nat → Option β) (v : Nat) : clearRange M v 0 = M :=
  funext fun _ => if_neg (by omega)

theorem mapRange_one (M : Nat → Option β) (v : Nat) (f : Nat → β) (x : Nat) :
    mapRange M v 1 f x = if x = v then some (f 0) else M x := by
  unfold mapRange
  by_cases h : x = v
  · rw [if_pos (by omega), if_pos h, h, Nat.sub_self]
  · rw [if_neg (by omega), if_neg h]

theorem clearRange_one (M : Nat → Option β) (v x : Nat) : clearRange M v 1 x = if x = v then none else M x :=
  ite_congr (propext (by omega)) (fun _ => rfl) fun _ => rfl

theorem mapRange_congr {M : Nat → Option β} {k : Nat} {f g : Nat → β} (h : ∀ j, j < k → f j = g j) :
    mapRange M v k f = mapRange M v k g :=
  funext fun x => ite_congr rfl (fun hx => by rw [h (x - v) (by omega)]) fun _ => rfl

theorem map_mapRange {γ : Type} (M : Nat → Option β) (v k : Nat) (f : Nat → β) (g : β → γ) :
    (fun x => (mapRange M v k f x).map g) = mapRange (fun x => (M x).map g) v k fun j => g (f j) :=
  funext fun _ => apply_ite (Option.map g) _ _ _

theorem map_clearRange {γ : Type} (M : Nat → Option β) (v k : Nat) (g : β → γ) :
    (fun x => (clearRange M v k x).map g) = clearRange (fun x => (M x).map g) v k :=
  funext fun _ => apply_ite (Option.map g) _ _ _

theorem mapRange_succ (M : Nat → Option β) (v k : Nat) (f : Nat → β) :
    mapRange (mapRange M v 1 fun _ => f 0) (v + 1) k (fun j => f (j + 1)) = mapRange M v (k + 1) f := by
  funext x
  simp only [mapRange]
  by_cases h : v + 1 ≤ x ∧ x < v + 1 + k
  · rw [if_pos h, if_pos (by omega), show x - (v + 1) + 1 = x - v by omega]
  · rw [if_neg h]
    by_cases hx : v ≤ x ∧ x < v + 1
    · rw [if_pos hx, if_pos (by omega), show x - v = 0 by omega]
    · rw [if_neg hx, if_neg (by omega)]

theorem clearRange_succ (M : Nat → Option β) (v k : Nat) :
    clearRange (clearRange M v 1) (v + 1) k = clearRange M v (k + 1) := by
  funext x
  simp only [clearRange]
  by_cases h : v + 1 ≤ x ∧ x < v + 1 + k
  · rw [if_pos h, if_pos (by omega)]
  · rw [if_neg h]
    exact ite_congr (propext (by omega)) (fun _ => rfl) fun _ => rfl

theorem clearRange_of_none {M : Nat → Option β} (h : M v = none) : clearRange M v 1 = M := by
  funext x
  rw [clearRange_one]
  by_cases hx : x = v
  · rw [if_pos hx, hx, h]
  · rw [if_neg hx]

end Ranges

/-- Tree `t` maps page `v` by the entry `M v`. Entries that no address leads to are empty. -/
structure Maps (F : Format) (M : Nat → Option Nat) (t : Tree Nat F.hal.level) : Prop where
  agree : ∀ va, F.hal.valid va = true → get F.hal.level t (vpn va) = M (vpn va)
  outside : ∀ v, (∀ va, F.hal.valid va = true → ¬ Same F.hal.level (vpn va) v) → get F.hal.level t v = none

/-- The table at `root` consists of the pages `T` and maps pages by `M`. -/
def Holds (F : Format) (root : Nat) (mem : Mem) (T : List Nat) (M : Nat → Option Nat) : Prop :=
  ∃ t : Tree Nat F.hal.level, Rep F id mem F.hal.level t ∧ rootPage F.hal.level t = root ∧
    (tables F.hal.level t).Perm T ∧ Maps F M t

/-- The pages that `kalloc` returns are distinct physical pages and none of the tables. -/
structure Fresh (T free : List Nat) : Prop where
  nodup : (T ++ free).Nodup
  phys : ∀ p ∈ T ++ free, PhysPage p

variable {F : Format} {root a va w : Nat} {mem mem' : Mem} {T T' free free' : List Nat} {M : Nat → Option Nat}

theorem Fresh.perm (h : Fresh T free) (hp : (T' ++ free').Perm (T ++ free)) : Fresh T' free' :=
  ⟨hp.symm.nodup h.nodup, fun p hm => h.phys p (hp.subset hm)⟩

theorem Fresh.tables (h : Fresh T free) : Fresh T [] := by
  refine ⟨?_, fun p hp => h.phys p ?_⟩
  · rw [append_nil]
    exact (nodup_append.mp h.nodup).1
  · rw [append_nil] at hp
    exact mem_append_left _ hp

theorem Fresh.uncons (h : Fresh T (p :: free)) : (p ∉ T ∧ p ∉ free) ∧ Fresh T free := by
  have hnd := nodup_cons.mp (perm_middle.nodup h.nodup)
  refine ⟨?_, hnd.2, fun q hq => h.phys q (perm_middle.symm.subset (mem_cons_of_mem p hq))⟩
  rw [← not_or, ← mem_append]
  exact hnd.1

section

variable (h : Holds F root mem T M)
include h

theorem Holds.congr (hm : ∀ p ∈ T, mem' p = mem p) : Holds F root mem' T M := by
  obtain ⟨t, hr, hroot, hT, hM⟩ := h
  exact ⟨t, hr.congr fun p hp => hm p (hT.subset hp), hroot, hT, hM⟩

theorem Holds.perm (hp : T.Perm T') : Holds F root mem T' M := by
  obtain ⟨t, hr, hroot, hT, hM⟩ := h
  exact ⟨t, hr, hroot, hT.trans hp, hM⟩

omit h in
theorem Holds.blank (hz : ∀ i, mem root i = 0) : Holds F root mem [root] fun _ => none := by
  refine ⟨empty _ root, Rep.blank hz, rootPage_empty _ _, by rw [tables_empty], fun va _ => ?_, fun v _ => ?_⟩
  · exact get_empty ..
  · exact get_empty ..

/-- What `walk` with `alloc` can return for page `v`, which is to be mapped by `w`. -/
inductive Alloc (F : Format) (root : Nat) (mem : Mem) (T free : List Nat) (M : Nat → Option Nat) (v w : Nat) :
    Option (Nat × Nat) × Mem × List Nat → Prop
  | remap {p i : Nat} (hM : M v ≠ none) (hv : pteV (mem p i) = true) :
    Alloc F root mem T free M v w (some (p, i), mem, free)
  | full {mem' : Mem} {T' free' : List Nat} (hM : M v = none) (h : Holds F root mem' T' M)
    (hp : (T' ++ free').Perm (T ++ free)) (hm : ∀ q, q ∉ T ++ free → mem' q = mem q) :
    Alloc F root mem T free M v w (none, mem', free')
  | done {p i : Nat} {mem' : Mem} {T' free' : List Nat} (hM : M v = none) (hv : pteV (mem' p i) = false)
    (h : Holds F root (mem'.store p i w) T' (mapRange M v 1 fun _ => w))
    (hp : (T' ++ free').Perm (T ++ free)) (hm : ∀ q, q ∉ T ++ free → mem'.store p i w q = mem q) :
    Alloc F root mem T free M v w (some (p, i), mem', free')

omit h in
theorem Maps.insert {t t' : Tree Nat F.hal.level} (h : Maps F M t) (hva : F.hal.valid a = true)
    (hg : ∀ v, get F.hal.level t' v = if Same F.hal.level (vpn a) v then some w else get F.hal.level t v) :
    Maps F (mapRange M (vpn a) 1 fun _ => w) t' := by
  constructor
  · intro va hv
    rw [hg, mapRange_one]
    by_cases he : vpn va = vpn a
    · rw [if_pos he, if_pos (by rw [he]; rfl)]
    · rw [if_neg he, if_neg fun hs => he (F.valid_inj a va hva hv hs).symm, h.agree va hv]
  · intro v hv
    rw [hg, if_neg (hv a hva), h.outside v hv]

omit h in
theorem Maps.alter {t : Tree Nat F.hal.level} (f : Nat → Option Nat) (h : Maps F M t) (hva : F.hal.valid a = true) :
    Maps F (update M (vpn a) ((M (vpn a)).bind f)) (alter f F.hal.level t (vpn a)) := by
  constructor
  · intro va hv
    rw [alter_get, h.agree a hva]
    by_cases he : vpn va = vpn a
    · rw [he, update_self, if_pos (show Same F.hal.level (vpn a) (vpn a) from rfl)]
    · rw [update_of_ne he, if_neg fun hs => he (F.valid_inj a va hva hv hs).symm, h.agree va hv]
  · intro v hv
    rw [alter_get, if_neg (hv a hva), h.outside v hv]

theorem Holds.alloc (hf : Fresh T free) (hva : F.hal.valid a = true) (hw : pteV w = true) :
    ∃ r, walk F root a true mem free = some r ∧ Alloc F root mem T free M (vpn a) w r := by
  obtain ⟨t, hr, hroot, hT, hM⟩ := h
  have hTf : (tables F.hal.level t ++ free).Perm (T ++ free) := hT.append_right free
  have hfr := hf.perm hTf
  have hmem : ∀ q, q ∉ T ++ free → q ∉ tables F.hal.level t ∧ q ∉ free := fun q hq => by
    rw [← not_or, ← mem_append]
    exact fun hq' => hq (hTf.subset hq')
  refine ⟨_, if_pos hva, ?_⟩
  have hsim : Walked F id F.hal.level t w mem free (Radix.insert F.hal.level t (vpn a) w free)
      (walkLevel F a true F.hal.level (rootPage F.hal.level t) mem free) := walk_insert hw hr hfr.nodup hfr.phys
  rw [hroot] at hsim
  revert hsim
  generalize walkLevel F a true F.hal.level root mem free = r
  intro hsim
  cases hx : Radix.insert F.hal.level t (vpn a) w free with
  | remap =>
    have hsome := (insert_remap _ t (vpn a) w free).mp hx
    rw [hM.agree a hva, isSome_iff_ne_none] at hsome
    rw [hx] at hsim
    cases hsim with
    | remap hv => exact .remap hsome hv
  | full t' free' =>
    have hnone : M (vpn a) = none := by
      rw [← hM.agree a hva, ← not_isSome_iff_eq_none, ← insert_remap _ t (vpn a) w free, hx]
      exact nofun
    have hg := insert_full hx
    rw [hx] at hsim
    cases hsim with
    | full hr' hp hm =>
      refine .full hnone ⟨t', hr', hp.trans hroot, List.Perm.refl _, fun va hv => ?_, fun v hv => ?_⟩
        (hg.1.pages.trans hTf) fun q hq => hm q (hmem q hq).1 (hmem q hq).2
      · rw [hg.2.1, hM.agree va hv]
      · rw [hg.2.1, hM.outside v hv]
  | done t' free' =>
    have hnone : M (vpn a) = none := by
      rw [← hM.agree a hva, ← not_isSome_iff_eq_none, ← insert_remap _ t (vpn a) w free, hx]
      exact nofun
    have hg := insert_done hx
    rw [hx] at hsim
    cases hsim with
    | done hv hi hr' hp hm =>
      refine .done hnone hv ⟨t', hr', hp.trans hroot, List.Perm.refl _, hM.insert hva hg.2⟩ (hg.1.pages.trans hTf)
        fun q hq => (store_of_ne ?_).trans (hm q (hmem q hq).1 (hmem q hq).2)
      rintro rfl
      exact hi.elim (hmem _ hq).1 (hmem _ hq).2

/-- What `walk` without `alloc` can return for page `v`. -/
inductive Look (F : Format) (root : Nat) (mem : Mem) (T : List Nat) (M : Nat → Option Nat) (v : Nat) :
    Option (Nat × Nat) → Prop
  | missing (hM : M v = none) : Look F root mem T M v none
  | found {p i : Nat} (hp : p ∈ T) (hw : mem p i = (M v).getD 0) (hv : ∀ w, M v = some w → pteV w = true)
    (hs : ∀ f, (∀ w, (M v).bind f = some w → pteV w = true) →
      Holds F root (mem.store p i (((M v).bind f).getD 0)) T (update M v ((M v).bind f))) :
    Look F root mem T M v (some (p, i))

theorem Holds.look (hf : Fresh T []) (hva : F.hal.valid a = true) (free : List Nat) :
    ∃ r, walk F root a false mem free = some (r, mem, free) ∧ Look F root mem T M (vpn a) r := by
  obtain ⟨t, hr, hroot, hT, hM⟩ := h
  have hfr : Fresh (tables F.hal.level t) [] := hf.perm (hT.append_right [])
  have hnd : (tables F.hal.level t).Nodup := by
    rw [← append_nil (tables F.hal.level t)]
    exact hfr.nodup
  have hph : ∀ p ∈ tables F.hal.level t, PhysPage p := fun p hp => hfr.phys p (mem_append_left _ hp)
  unfold walk
  rw [if_pos hva, ← hroot]
  have hMa := hM.agree a hva
  cases hc : reached F.hal.level t (vpn a) with
  | false =>
    refine ⟨none, by rw [walk_missing free hr hph hc], .missing ?_⟩
    rw [← hMa]
    refine eq_none_iff_forall_ne_some.mpr fun w hw => ?_
    rw [reached_of_get hw] at hc
    cases hc
  | true =>
    obtain ⟨p, i, hw, hfound⟩ := walk_found free hr hnd hph hc
    have hword := word_id.mp (hMa ▸ hfound.word)
    refine ⟨some (p, i), by rw [hw], .found (hT.subset hfound.page) hword.1 hword.2 fun f hval => ?_⟩
    have hrep := hfound.store f (((M (vpn a)).bind f).getD 0) (word_id.mpr (by rw [hMa]; exact ⟨rfl, hval⟩))
    exact ⟨_, hrep, rootPage_alter .., (alter_accounts f t (vpn a)).2.trans hT, hM.alter f hva⟩

theorem Holds.lookup (hf : Fresh T []) (hva : F.hal.valid va = true) : lookup F root va mem = some (M (vpn va)) := by
  obtain ⟨r, hr, hl⟩ := h.look hf hva []
  rw [Phys.lookup, hr, map_some]
  cases hl with
  | missing hM =>
    rw [hM]
    rfl
  | @found p i _ hw hv _ =>
    show some (if pteV (mem p i) then some (mem p i) else none) = _
    rw [hw]
    cases hM : M (vpn va) with
    | none => rfl
    | some w => rw [getD_some, if_pos (hv w hM)]

theorem Holds.valid (hf : Fresh T []) (hva : F.hal.valid va = true) (hw : M (vpn va) = some w) : pteV w = true := by
  obtain ⟨r, -, hl⟩ := h.look hf hva []
  cases hl with
  | missing hM =>
    rw [hM] at hw
    cases hw
  | found _ _ hv _ => exact hv w hw

theorem Holds.uvmclear (hf : Fresh T []) (hrun : uvmclear F root va mem = some mem') :
    Holds F root mem' T (update M (vpn va) ((M (vpn va)).map fun w => ldiff w F.pteU)) := by
  rw [Phys.uvmclear] at hrun
  by_cases hva : F.hal.valid va = true
  · obtain ⟨r, hr, hl⟩ := h.look hf hva []
    rw [hr, bind_some] at hrun
    cases hl with
    | missing hM => cases hrun
    | @found p i hp hw hv hs =>
      cases hrun
      have h0 := hs (fun w => some (ldiff w F.pteU)) fun w hw => by
        obtain ⟨w0, h0, hw⟩ := bind_eq_some_iff.mp hw
        rw [← some.inj hw, pteV, testBit_ldiff, ← pteV, ← pteV, hv w0 h0, F.pteU_valid]
        rfl
      dsimp only
      rw [hw]
      cases hM : M (vpn va) with
      | none =>
        rw [hM] at h0
        have hz : ldiff 0 F.pteU = 0 := eq_of_testBit_eq fun i => by rw [testBit_ldiff, zero_testBit]; rfl
        rwa [getD_none, hz]
      | some w =>
        rwa [hM] at h0
  · rw [show walk F root va false mem [] = none from if_neg hva] at hrun
    cases hrun

end

theorem valid_next (hva : F.hal.valid a = true) : (a + pgsize) % 2 ^ 64 = a + pgsize :=
  mod_eq_of_lt (add_lt_of_lt_sub (F.hal.valid_high a hva))

theorem vpn_next (a : Nat) : vpn (a + pgsize) = vpn a + 1 := add_div_right a (by decide)

theorem walk_invalid {alloc : Bool} (h : F.hal.valid a ≠ true) : walk F root a alloc mem free = none := if_neg h

/-- `mappages` maps a first part of the pages, all of them if it returns 0. -/
theorem Holds.mapLoop {perm pa : Nat} {ok : Bool} (h : Holds F root mem T M) (hf : Fresh T free) (hpa : pa < 2 ^ 64)
    (hrun : mapLoop F root perm n a pa mem free = some (ok, mem', free')) :
    ∃ k T', k ≤ n ∧ (ok = true → k = n) ∧ (ok = false → k < n) ∧
      Holds F root mem' T' (mapRange M (vpn a) k fun j => F.leaf ((pa + j * pgsize) % 2 ^ 64) perm) ∧
      (T' ++ free').Perm (T ++ free) ∧ (∀ q, q ∉ T ++ free → mem' q = mem q) := by
  induction n generalizing a pa mem T free M with
  | zero =>
    obtain ⟨rfl, rfl, rfl⟩ := hrun
    refine ⟨0, T, Nat.le_refl 0, fun _ => rfl, nofun, ?_, List.Perm.refl _, fun _ _ => rfl⟩
    rwa [mapRange_zero]
  | succ n ih =>
    rw [Phys.mapLoop] at hrun
    by_cases hva : F.hal.valid a = true
    · obtain ⟨r, hr, hal⟩ := h.alloc hf hva (F.leaf_valid (F.pa2pte pa ||| F.encodePerm perm))
      rw [hr, bind_some] at hrun
      cases hal with
      | remap _ hv =>
        dsimp only at hrun
        rw [if_pos hv] at hrun
        cases hrun
      | full hM h' hp hm =>
        obtain ⟨rfl, rfl, rfl⟩ := hrun
        refine ⟨0, _, Nat.zero_le _, nofun, fun _ => succ_pos n, ?_, hp, hm⟩
        rwa [mapRange_zero]
      | done hM hv h' hp hm =>
        dsimp only at hrun
        rw [if_neg (by rw [hv]; decide), valid_next hva] at hrun
        obtain ⟨k, T', hk, htrue, hfalse, hh, hperm, hframe⟩ :=
          ih h' (hf.perm hp) (mod_lt _ (by decide)) hrun
        refine ⟨k + 1, T', succ_le_succ hk, fun h => by rw [htrue h], fun h => succ_lt_succ (hfalse h), ?_,
          hperm.trans hp, fun q hq => ?_⟩
        · have h0 : (pa + 0 * pgsize) % 2 ^ 64 = pa := by rw [Nat.zero_mul, Nat.add_zero, mod_eq_of_lt hpa]
          have hj : ∀ j, (pa + (j + 1) * pgsize) % 2 ^ 64 = ((pa + pgsize) % 2 ^ 64 + j * pgsize) % 2 ^ 64 :=
            fun j => by rw [mod_add_mod, succ_mul, Nat.add_assoc, Nat.add_comm pgsize]
          rw [← mapRange_succ]
          simp only [h0, hj, ← vpn_next]
          exact hh
        · rw [hframe q fun hq' => hq (hp.subset hq'), hm q hq]
    · rw [walk_invalid hva] at hrun
      cases hrun

theorem unmapPages_eq {npages : Nat} (h : va + npages * pgsize < 2 ^ 64) : unmapPages va npages = npages := by
  rw [unmapPages, mod_eq_of_lt h, Nat.add_sub_cancel_left, Nat.mul_div_cancel _ (by decide)]

theorem unmapLoop_valid {n : Nat} {doFree : Bool} {r : Mem × List Nat}
    (h : unmapLoop F root doFree n a mem free = some r) {j : Nat} (hj : j < n) :
    F.hal.valid (a + j * pgsize) = true := by
  induction n generalizing a mem free j with
  | zero => exact absurd hj (Nat.not_lt_zero j)
  | succ n ih =>
    rw [Phys.unmapLoop] at h
    by_cases hva : F.hal.valid a = true
    · cases j with
      | zero => rwa [Nat.zero_mul, Nat.add_zero]
      | succ j =>
        have hn := @ih (a + pgsize)
        obtain ⟨x, -, h⟩ := bind_eq_some_iff.mp h
        rw [valid_next hva] at h
        rw [succ_mul, Nat.add_comm (j * pgsize), ← Nat.add_assoc]
        have hj := lt_of_succ_lt_succ hj
        split at h
        · exact hn h hj
        · split at h
          · exact hn h hj
          · exact hn h hj
    · rw [walk_invalid hva] at h
      cases h

/-- The pages that `uvmunmap` frees, the last one first. -/
def freed (F : Format) (M : Nat → Option Nat) (v : Nat) : Nat → List Nat
  | 0 => []
  | n + 1 => freed F M (v + 1) n ++ ((M v).map F.pte2pa).toList

theorem mem_freed : p ∈ freed F M v n ↔ ∃ j w, j < n ∧ M (v + j) = some w ∧ F.pte2pa w = p := by
  induction n generalizing v with
  | zero => simp [freed]
  | succ n ih =>
    rw [freed, mem_append, ih, mem_toList, map_eq_some_iff]
    constructor
    · rintro (⟨j, w, hj, hw, hp⟩ | ⟨w, hw, hp⟩)
      · exact ⟨j + 1, w, succ_lt_succ hj, by rwa [Nat.add_right_comm] at hw, hp⟩
      · exact ⟨0, w, succ_pos n, hw, hp⟩
    · rintro ⟨j, w, hj, hw, hp⟩
      cases j with
      | zero => exact .inr ⟨w, hw, hp⟩
      | succ j => exact .inl ⟨j, w, lt_of_succ_lt_succ hj, by rwa [Nat.add_right_comm], hp⟩

theorem freed_congr {M' : Nat → Option Nat} (h : ∀ x, v ≤ x → x < v + n → M' x = M x) :
    freed F M' v n = freed F M v n := by
  induction n generalizing v with
  | zero => rfl
  | succ n ih => rw [freed, freed, h v (Nat.le_refl v) (by omega), ih fun x h1 h2 => h x (by omega) (by omega)]

theorem freed_succ (M : Nat → Option Nat) (v n : Nat) :
    freed F M v (n + 1) = ((M (v + n)).map F.pte2pa).toList ++ freed F M v n := by
  induction n generalizing v with
  | zero => exact (append_nil _).symm
  | succ n ih =>
    rw [freed, ih, append_assoc, show v + 1 + n = v + (n + 1) by omega]
    rfl

theorem freed_inj {j : Nat} (h : (freed F M v n).Nodup) (hij : i < j) (hj : j < n) {x y : Nat}
    (hx : M (v + i) = some x) (hy : M (v + j) = some y) : F.pte2pa x ≠ F.pte2pa y := by
  induction n with
  | zero => exact absurd hj (Nat.not_lt_zero j)
  | succ n ih =>
    rw [freed_succ, nodup_append] at h
    by_cases hjn : j = n
    · subst hjn
      refine (h.2.2 (F.pte2pa y) ?_ (F.pte2pa x) (mem_freed.mpr ⟨i, x, hij, hx, rfl⟩)).symm
      rw [hy]
      exact mem_singleton_self _
    · exact ih h.2.1 (by omega)

theorem update_none (v : Nat) : update M v none = clearRange M v 1 := by
  funext x
  rw [clearRange_one, update_apply]

theorem store_congr {q : Nat} (hp : mem' p = mem p) (hq : mem' q = mem q) : mem'.store p i w q = mem.store p i w q := by
  rw [Mem.store, Mem.store, update_apply, update_apply, hp, hq]

theorem free_page (doFree : Bool) (pa : Nat) (mem : Mem) (free : List Nat) :
    ∃ mem1, (if doFree then kfree pa mem free else (mem, free)) = (mem1, (if doFree then [pa] else []) ++ free) ∧
      ∀ q, (doFree = true → q ≠ pa) → mem1 q = mem q := by
  cases doFree with
  | false => exact ⟨mem, rfl, fun _ _ => rfl⟩
  | true => exact ⟨_, rfl, fun q hq => update_of_ne (hq rfl) ..⟩

/-- `uvmunmap` clears its pages. Freed pages are filled, and become the first free ones. -/
theorem Holds.unmapLoop {doFree : Bool} (h : Holds F root mem T M) (hf : Fresh T [])
    (hpages : doFree = true → ∀ p ∈ freed F M (vpn a) n, p ∉ T)
    (hrun : unmapLoop F root doFree n a mem free = some (mem', free')) :
    Holds F root mem' T (clearRange M (vpn a) n) ∧
      (∀ q, q ∉ T → (doFree = true → q ∉ freed F M (vpn a) n) → mem' q = mem q) ∧
      free' = (if doFree then freed F M (vpn a) n else []) ++ free := by
  induction n generalizing a mem free M with
  | zero =>
    obtain ⟨rfl, rfl⟩ := hrun
    refine ⟨by rwa [clearRange_zero], fun _ _ _ => rfl, ?_⟩
    cases doFree with
    | false => rfl
    | true => rfl
  | succ n ih =>
    rw [Phys.unmapLoop] at hrun
    have hfreed : freed F M (vpn a) (n + 1) = freed F M (vpn (a + pgsize)) n ++ ((M (vpn a)).map F.pte2pa).toList := by
      rw [vpn_next, freed]
    have hclear := clearRange_succ M (vpn a) n
    rw [← vpn_next] at hclear
    rw [hfreed, ← hclear]
    rw [hfreed] at hpages
    by_cases hva : F.hal.valid a = true
    · have hrest : doFree = true → ∀ p ∈ freed F M (vpn (a + pgsize)) n, p ∉ T :=
        fun hd p hp => hpages hd p (mem_append_left _ hp)
      obtain ⟨r, hr, hl⟩ := h.look hf hva free
      rw [hr, bind_some] at hrun
      rw [valid_next hva] at hrun
      cases hl with
      | missing hM =>
        rw [hM, clearRange_of_none hM, map_none, toList_none, append_nil]
        exact ih h hrest hrun
      | @found p i hp hw hv hs =>
        dsimp only at hrun
        cases hM : M (vpn a) with
        | none =>
          rw [clearRange_of_none hM, map_none, toList_none, append_nil]
          rw [hw, hM, if_neg (by decide)] at hrun
          exact ih h hrest hrun
        | some w =>
          rw [hw, hM, getD_some, if_pos (hv w hM)] at hrun
          obtain ⟨mem1, h1, hm1⟩ := free_page doFree (F.pte2pa w) mem free
          rw [h1] at hrun
          rw [hM] at hpages
          have hT1 : ∀ q ∈ T, mem1 q = mem q := fun q hq => hm1 q fun hd he =>
            hpages hd q (mem_append_right _ (by rw [he]; exact mem_singleton_self _)) hq
          have h2 : Holds F root (mem1.store p i 0) T (clearRange M (vpn a) 1) := by
            have h0 := hs (fun _ => none) (by rw [hM]; exact nofun)
            rw [hM, bind_some, update_none] at h0
            exact h0.congr fun q hq => store_congr (hT1 p hp) (hT1 q hq)
          have hlater : freed F (clearRange M (vpn a) 1) (vpn (a + pgsize)) n = freed F M (vpn (a + pgsize)) n :=
            freed_congr fun x hx _ => by
              rw [vpn_next] at hx
              rw [clearRange_one, if_neg (by omega)]
          rw [← hlater] at hrest
          obtain ⟨h3, h4, h5⟩ := ih h2 hrest hrun
          rw [hlater] at h4 h5
          refine ⟨h3, fun q hq hn => ?_, ?_⟩
          · have hqp : q ≠ p := by
              rintro rfl
              exact hq hp
            rw [h4 q hq fun hd hq' => hn hd (mem_append_left _ hq'), store_of_ne hqp, hm1 q fun hd he =>
              hn hd (mem_append_right _ (by rw [he]; exact mem_singleton_self _))]
          · rw [h5]
            cases doFree with
            | false => rfl
            | true => exact (append_assoc ..).symm
    · rw [walk_invalid hva] at hrun
      cases hrun

end Xv6Vfs.Vm.Phys
