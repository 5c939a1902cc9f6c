import Xv6Vfs.Vm.Translate

/-! `uvmcopy` copies an address space page by page, or gives back what it took. -/
namespace Xv6Vfs.Vm.Phys
open Xv6Vfs.Radix Function List Option Nat

variable {ok : Bool} {page w : Nat} {T' : List Nat}

variable {F : Format} {old new v : Nat} {mem0 mem mem' : Mem} {To T pool free0 free free' : List Nat}
  {P C C' : Nat → Option Nat}

/-- The state of the loop at page `v`: the child has copies of the pages below. `pool` are the
tables of the child and the free pages at the start. -/
structure Copied (F : Format) (old new : Nat) (mem0 : Mem) (To pool : List Nat) (P C : Nat → Option Nat) (v : Nat)
    (mem : Mem) (free T : List Nat) (C' : Nat → Option Nat) : Prop where
  parent : Holds F old mem To P
  child : Holds F new mem T C'
  pages : (T ++ freed F C' 0 v ++ free).Perm pool
  frame : ∀ q, q ∉ pool → mem q = mem0 q
  copies : ∀ x w, x < v → P x = some w →
    ∃ page, page ∈ pool ∧ C' x = some (F.leaf page (F.flags w)) ∧ mem page = mem0 (F.pte2pa w)
  skipped : ∀ x, x < v → P x = none → C' x = none
  rest : ∀ x, v ≤ x → C' x = C x

/-- The state after a failure: nothing is mapped below page `m`, and what is not a table is free. -/
def Undone (F : Format) (old new : Nat) (To pool : List Nat) (P : Nat → Option Nat) (m : Nat) (mem : Mem)
    (free : List Nat) : Prop :=
  ∃ T C', Holds F new mem T C' ∧ Holds F old mem To P ∧ (T ++ free).Perm pool ∧
    ∀ x, x < m → F.hal.valid (x * pgsize) = true → C' x = none

/-- What the loop needs: the pool is apart from the tables of the parent. -/
structure Pool (To pool : List Nat) : Prop where
  nodup : (To ++ pool).Nodup
  phys : ∀ p ∈ To ++ pool, PhysPage p

theorem Pool.parent (h : Pool To pool) : Fresh To [] := by
  refine ⟨?_, fun p hp => h.phys p ?_⟩
  · rw [append_nil]
    exact (nodup_append.mp h.nodup).1
  · rw [append_nil] at hp
    exact mem_append_left _ hp

theorem Pool.apart (h : Pool To pool) {p : Nat} (hp : p ∈ To) : p ∉ pool := fun hq =>
  (nodup_append.mp h.nodup).2.2 p hp p hq rfl

section

variable (h : Copied F old new mem0 To pool P C v mem free T C')
include h

theorem Copied.nodup (hp : Pool To pool) :
    (T ++ freed F C' 0 v ++ free).Nodup := h.pages.symm.nodup (nodup_append.mp hp.nodup).2.1

theorem Copied.fresh (hp : Pool To pool) : Fresh T free := by
  have hsub : (T ++ free).Sublist (T ++ freed F C' 0 v ++ free) :=
    (sublist_append_left T _).append (List.Sublist.refl free)
  exact ⟨hsub.nodup (h.nodup hp), fun p hm => hp.phys p (mem_append_right _ (h.pages.subset (hsub.subset hm)))⟩

theorem Copied.skip (hP : P v = none) (hC : C v = none) : Copied F old new mem0 To pool P C (v + 1) mem free T C' := by
  have hv : C' v = none := (h.rest v (Nat.le_refl v)).trans hC
  refine { h with pages := ?_, copies := fun x w hx hw => ?_, skipped := fun x hx hn => ?_, rest := fun x hx => ?_ }
  · rw [freed_succ, Nat.zero_add, hv]
    exact h.pages
  · refine h.copies x w ?_ hw
    have hne : x ≠ v := by
      rintro rfl
      rw [hP] at hw
      cases hw
    omega
  · by_cases hxv : x = v
    · rw [hxv, hv]
    · exact h.skipped x (by omega) hn
  · exact h.rest x (by omega)

end

theorem vpn_mul (v : Nat) : vpn (v * pgsize) = v := Nat.mul_div_cancel v (by decide)

/-- The child maps the page iff the parent does, with the same permissions and contents. -/
def SamePage (F : Format) (mem mem' : Mem) : Option Nat → Option Nat → Prop
  | none, none => True
  | some w, some w' => F.flags w' = F.flags w ∧ F.rwxu (F.flags w') = F.rwxu (F.flags w) ∧
      mem' (F.pte2pa w') = mem (F.pte2pa w) ∧ mem' (F.pte2pa w) = mem (F.pte2pa w) ∧ F.pte2pa w' ≠ F.pte2pa w
  | _, _ => False

/-- No two addresses of different pages below `m` are mapped to one physical page. -/
def Unshared (F : Format) (root m : Nat) (mem : Mem) : Prop :=
  ∀ va vb x y, F.hal.valid va = true → F.hal.valid vb = true → vpn va < vpn vb → vpn vb < m →
    lookup F root va mem = some (some x) → lookup F root vb mem = some (some y) → F.pte2pa x ≠ F.pte2pa y

section Loop

variable (hp : Pool To pool)
include hp

section

variable (h : Copied F old new mem0 To pool P C v mem free T C')
include h

/-- Memory may change in the tables of the child and the free pages. -/
theorem Copied.kept (hm : ∀ q, q ∉ T ++ free → mem' q = mem q) :
    Holds F old mem' To P ∧ (∀ q, q ∉ pool → mem' q = mem0 q) ∧ ∀ x w, x < v → P x = some w →
      ∃ page, page ∈ pool ∧ C' x = some (F.leaf page (F.flags w)) ∧ mem' page = mem0 (F.pte2pa w) := by
  have hin : ∀ q ∈ T ++ free, q ∈ pool := fun q hq => h.pages.subset <| by
    rw [mem_append] at hq
    exact hq.elim (fun hq => mem_append_left _ (mem_append_left _ hq)) (mem_append_right _)
  have hout : ∀ q, q ∉ pool → mem' q = mem q := fun q hq => hm q fun hq' => hq (hin q hq')
  have hcopy : ∀ q ∈ freed F C' 0 v, mem' q = mem q := fun q hq => hm q fun hq' => by
    have hnd := h.nodup hp
    rw [append_assoc, nodup_append, nodup_append] at hnd
    rw [mem_append] at hq'
    cases hq' with
    | inl hq' => exact hnd.2.2 q hq' q (mem_append_left _ hq) rfl
    | inr hq' => exact hnd.2.1.2.2 q hq q hq' rfl
  refine ⟨h.parent.congr fun q hq => hout q (hp.apart hq), fun q hq => ?_, fun x w hx hw => ?_⟩
  · rw [hout q hq, h.frame q hq]
  · obtain ⟨page, h1, h2, h3⟩ := h.copies x w hx hw
    refine ⟨page, h1, h2, ?_⟩
    rw [hcopy page (mem_freed.mpr ⟨x, _, hx, by rw [Nat.zero_add]; exact h2, ?_⟩), h3]
    exact F.leaf_pa page _ (hp.phys page (mem_append_right _ h1)) (F.flags_perm w)

omit h in
/-- No page for a table: the copy is freed. -/
theorem Copied.unmapped (h : Copied F old new mem0 To pool P C v mem (page :: free) T C')
    (hchild : Holds F new mem' T' C') (hpages : (T' ++ free').Perm (T ++ free))
    (hm : ∀ q, q ∉ T ++ page :: free → mem' q = mem q) (u : Nat) :
    Copied F old new mem0 To pool P C v (mem'.fill page u) (page :: free') T' C' := by
  have hpage : page ∉ T' := fun hq => by
    have hq' := hpages.subset (mem_append_left _ hq)
    rw [mem_append] at hq'
    exact hq'.elim (h.fresh hp).uncons.1.1 (h.fresh hp).uncons.1.2
  have hne : ∀ q, q ≠ page → mem'.fill page u q = mem' q := fun q hq => update_of_ne hq ..
  have hfill : ∀ q, q ∉ T ++ page :: free → mem'.fill page u q = mem q := fun q hq => by
    rw [hne q fun he => hq (he ▸ mem_append_right _ mem_cons_self), hm q hq]
  obtain ⟨h1, h2, h3⟩ := h.kept hp hfill
  refine ⟨h1, hchild.congr fun q hq => hne q fun he => hpage (he ▸ hq), ?_, h2, h3, h.skipped, h.rest⟩
  refine List.Perm.trans ?_ h.pages
  have hcount := perm_iff_count.mp hpages
  refine perm_iff_count.mpr fun a => ?_
  have hcount := hcount a
  simp only [count_append, count_cons] at hcount ⊢
  omega

omit h in
theorem Copied.mapped (h : Copied F old new mem0 To pool P C v mem (page :: free) T C') (hP : P v = some w)
    (hchild : Holds F new mem' T' (mapRange C' v 1 fun _ => F.leaf page (F.flags w)))
    (hpages : (T' ++ free').Perm (T ++ free)) (hm : ∀ q, q ∉ T ++ page :: free → mem' q = mem q)
    (hcopy : mem' page = mem0 (F.pte2pa w)) :
    Copied F old new mem0 To pool P C (v + 1) mem' free' T' (mapRange C' v 1 fun _ => F.leaf page (F.flags w)) := by
  have hpage : page ∈ pool := h.pages.subset (mem_append_right _ mem_cons_self)
  have hpa := F.leaf_pa page _ (hp.phys page (mem_append_right _ hpage)) (F.flags_perm w)
  obtain ⟨h1, h2, h3⟩ := h.kept hp hm
  have hlt : ∀ x, x ≠ v → mapRange C' v 1 (fun _ => F.leaf page (F.flags w)) x = C' x := fun x hx => by
    rw [mapRange_one, if_neg hx]
  have hat : mapRange C' v 1 (fun _ => F.leaf page (F.flags w)) v = some (F.leaf page (F.flags w)) := by
    rw [mapRange_one, if_pos rfl]
  refine ⟨h1, hchild, ?_, h2, fun x w' hx hw => ?_, fun x hx hn => ?_, fun x hx => ?_⟩
  · have hfreed : freed F (mapRange C' v 1 fun _ => F.leaf page (F.flags w)) 0 (v + 1) = page :: freed F C' 0 v := by
      rw [freed_succ, Nat.zero_add, hat, freed_congr fun x _ hx => hlt x (by omega)]
      exact congrArg (· :: _) hpa
    rw [hfreed]
    refine List.Perm.trans ?_ h.pages
    have hcount := perm_iff_count.mp hpages
    refine perm_iff_count.mpr fun a => ?_
    have hcount := hcount a
    simp only [count_append, count_cons] at hcount ⊢
    omega
  · by_cases hxv : x = v
    · subst hxv
      cases hP.symm.trans hw
      exact ⟨page, hpage, hat, hcopy⟩
    · rw [hlt x hxv]
      exact h3 x w' (by omega) hw
  · have hxv : x ≠ v := by
      rintro rfl
      rw [hP] at hn
      cases hn
    rw [hlt x hxv, h.skipped x (by omega) hn]
  · rw [hlt x (by omega), h.rest x (by omega)]

omit h in
/-- The next page of the parent is copied to a free page. -/
theorem Copied.map (h : Copied F old new mem0 To pool P C v mem (page :: free) T C') (hP : P v = some w)
    (hdata : F.pte2pa w ∉ pool)
    (hrun : mappages F new (v * pgsize) pgsize page (F.flags w) ((mem.fill page 0x0505050505050505).copy page
      (F.pte2pa w)) free = some (ok, mem', free')) :
    (ok = true → ∃ T' C'', Copied F old new mem0 To pool P C (v + 1) mem' free' T' C'') ∧
      (ok = false → ∃ T', Copied F old new mem0 To pool P C v (mem'.fill page 0x0101010101010101)
        (page :: free') T' C') := by
  have hpage : page ∈ pool := h.pages.subset (mem_append_right _ mem_cons_self)
  have hphys := hp.phys page (mem_append_right _ hpage)
  obtain ⟨⟨hpT, hpf⟩, hfr⟩ := (h.fresh hp).uncons
  have hne : F.pte2pa w ≠ page := fun he => hdata (he ▸ hpage)
  revert hrun
  generalize hmem1 : (mem.fill page 0x0505050505050505).copy page (F.pte2pa w) = mem1
  intro hrun
  have hother : ∀ q, q ≠ page → mem1 q = mem q := fun q hq => by
    rw [← hmem1]
    exact (update_of_ne hq ..).trans (update_of_ne hq ..)
  have hcopy : mem1 page = mem0 (F.pte2pa w) := by
    rw [← hmem1, Mem.copy, update_self]
    exact (update_of_ne hne ..).trans (h.frame _ hdata)
  have hchild : Holds F new mem1 T C' := h.child.congr fun q hq => hother q fun he => hpT (he ▸ hq)
  rw [mappages] at hrun
  split at hrun
  · cases hrun
  · obtain ⟨k, T', hk, htrue, hfalse, hh, hpages, hm⟩ := hchild.mapLoop hfr (Nat.lt_trans hphys.2 (by decide)) hrun
    rw [vpn_mul] at hh
    have hm' : ∀ q, q ∉ T ++ page :: free → mem' q = mem q := fun q hq => by
      rw [mem_append, mem_cons, not_or, not_or] at hq
      rw [hm q (by rw [mem_append, not_or]; exact ⟨hq.1, hq.2.2⟩), hother q hq.2.1]
    constructor
    · intro hok
      have hk1 : k = 1 := htrue hok
      subst hk1
      have hleaf : (page + 0 * pgsize) % 2 ^ 64 = page := by
        rw [Nat.zero_mul, Nat.add_zero, mod_eq_of_lt (Nat.lt_trans hphys.2 (by decide))]
      rw [mapRange_congr (g := fun _ => F.leaf page (F.flags w)) fun j hj => by
        rw [lt_one_iff.mp hj, hleaf]] at hh
      refine ⟨T', _, h.mapped hp hP hh hpages hm' ?_⟩
      rw [hm page (by rw [mem_append, not_or]; exact ⟨hpT, hpf⟩), hcopy]
    · intro hok
      have hk0 : k = 0 := lt_one_iff.mp (hfalse hok)
      rw [hk0, mapRange_zero] at hh
      exact ⟨T', h.unmapped hp hh hpages hm' _⟩

/-- `err`: the pages copied so far are unmapped and freed. -/
theorem Copied.undo {m : Nat}
    (hva : F.hal.valid (v * pgsize) = true) (hempty : ∀ x, x < m → F.hal.valid (x * pgsize) = true → C x = none)
    (hrun : copyErr F new (v * pgsize) mem free = some (ok, mem', free')) :
    ok = false ∧ Undone F old new To pool P m mem' free' := by
  obtain ⟨⟨mem1, free1⟩, hun, heq⟩ := map_eq_some_iff.mp hrun
  cases heq
  have hnd := h.nodup hp
  rw [append_assoc, nodup_append] at hnd
  have hn : unmapPages 0 (v * pgsize / pgsize) = v := by
    have := F.hal.valid_high _ hva
    rw [Nat.mul_div_cancel v (by decide)]
    exact unmapPages_eq (by omega)
  have hout : true = true → ∀ p ∈ freed F C' (vpn 0) v, p ∉ T := fun _ p hp' hT =>
    hnd.2.2 p hT p (mem_append_left _ hp') rfl
  rw [uvmunmap, if_neg (by decide), hn] at hun
  obtain ⟨h1, h2, h3⟩ := h.child.unmapLoop (h.fresh hp).tables hout hun
  refine ⟨rfl, T, _, h1, h.parent.congr fun q hq => h2 q (fun hT => hp.apart hq ?_) fun _ hq' => hp.apart hq ?_, ?_,
    fun x hx hvx => ?_⟩
  · exact h.pages.subset (mem_append_left _ (mem_append_left _ hT))
  · exact h.pages.subset (mem_append_left _ (mem_append_right _ hq'))
  · rw [h3, if_pos rfl, ← append_assoc]
    exact h.pages
  · have h0 : vpn 0 = 0 := rfl
    rw [clearRange, h0, Nat.zero_add]
    by_cases hxv : 0 ≤ x ∧ x < v
    · rw [if_pos hxv]
    · rw [if_neg hxv, h.rest x (by omega), hempty x hx hvx]

theorem Copied.loop {n : Nat} (hdata : ∀ x w, F.hal.valid (x * pgsize) = true → P x = some w → F.pte2pa w ∉ pool)
    (hempty : ∀ x, x < v + n → F.hal.valid (x * pgsize) = true → C x = none)
    (hrun : copyLoop F old new n (v * pgsize) mem free = some (ok, mem', free')) :
    (ok = true → ∃ T' C'', Copied F old new mem0 To pool P C (v + n) mem' free' T' C'') ∧
      (ok = false → Undone F old new To pool P (v + n) mem' free') := by
  induction n generalizing v mem free T C' with
  | zero =>
    cases hrun
    exact ⟨fun _ => ⟨T, C', h⟩, nofun⟩
  | succ n ih =>
    rw [copyLoop] at hrun
    by_cases hva : F.hal.valid (v * pgsize) = true
    · obtain ⟨r, hr, hl⟩ := h.parent.look hp.parent hva free
      have hC : C v = none := hempty v (by omega) hva
      rw [hr, bind_some] at hrun
      rw [valid_next hva, ← succ_mul] at hrun
      rw [show v + (n + 1) = v + 1 + n by omega] at hempty ⊢
      rw [vpn_mul] at hl
      cases hl with
      | missing hP => exact ih (h.skip hP hC) hempty hrun
      | found _ hw hv _ =>
        dsimp only at hrun
        cases hP : P v with
        | none =>
          rw [hw, hP, if_neg (by decide)] at hrun
          exact ih (h.skip hP hC) hempty hrun
        | some w =>
          rw [hw, hP, getD_some, if_pos (hv w hP)] at hrun
          cases free with
          | nil =>
            obtain ⟨rfl, hundo⟩ := h.undo hp hva hempty hrun
            exact ⟨nofun, fun _ => hundo⟩
          | cons page free =>
            obtain ⟨⟨ok1, mem1, free1⟩, hmap, hrun⟩ := bind_eq_some_iff.mp hrun
            rw [mod_eq_of_lt (F.flags_uint w)] at hmap
            obtain ⟨htrue, hfalse⟩ := h.map hp hP (hdata v w hva hP) hmap
            cases ok1 with
            | true =>
              obtain ⟨T', C'', h'⟩ := htrue rfl
              exact ih h' hempty hrun
            | false =>
              obtain ⟨T', h'⟩ := hfalse rfl
              obtain ⟨rfl, hundo⟩ := h'.undo hp hva hempty hrun
              exact ⟨nofun, fun _ => hundo⟩
    · rw [show walk F old (v * pgsize) false mem free = none from if_neg hva] at hrun
      cases hrun

theorem Copied.samePage {va : Nat}
    (hva : F.hal.valid va = true) (hlt : vpn va < v) (hdata : ∀ w, P (vpn va) = some w → F.pte2pa w ∉ pool) :
    SamePage F mem0 mem (P (vpn va)) (C' (vpn va)) := by
  cases hw : P (vpn va) with
  | none =>
    rw [h.skipped _ hlt hw]
    trivial
  | some w =>
    obtain ⟨page, h1, h2, h3⟩ := h.copies _ w hlt hw
    have hphys := hp.phys page (mem_append_right _ h1)
    have hpa : F.pte2pa (F.leaf page (F.flags w)) = page := F.leaf_pa page _ hphys (F.flags_perm w)
    have hfl : F.flags (F.leaf page (F.flags w)) = F.flags w :=
      (F.leaf_flags page _ hphys (F.flags_perm w)).trans (F.norm_flags w (h.parent.valid hp.parent hva hw))
    rw [h2]
    refine ⟨hfl, by rw [hfl], ?_, h.frame _ (hdata w hw), ?_⟩
    · rw [hpa, h3]
    · rw [hpa]
      exact fun he => hdata w hw (he ▸ h1)

theorem Copied.unshared : Unshared F new v mem := by
  intro va vb x y hva hvb hlt hm hx hy
  have hf := (h.fresh hp).tables
  rw [h.child.lookup hf hva, ← Nat.zero_add (vpn va)] at hx
  rw [h.child.lookup hf hvb, ← Nat.zero_add (vpn vb)] at hy
  have hnd := h.nodup hp
  rw [append_assoc, nodup_append, nodup_append] at hnd
  exact freed_inj hnd.2.1.1 hlt hm (some.inj hx) (some.inj hy)

end

end Loop

/-- Parent and child of a fork: two tables that share nothing, a child without pages below `sz`,
and free pages that are not in use. -/
structure Forkable (F : Format) (old new sz : Nat) (mem : Mem) (free : List Nat) : Prop where
  parent : ∃ P, Holds F old mem (tablePages F mem F.hal.level old) P
  child : ∃ C, Holds F new mem (tablePages F mem F.hal.level new) C
  fresh : Fresh (tablePages F mem F.hal.level old ++ tablePages F mem F.hal.level new) free
  data : ∀ va w, F.hal.valid va = true → lookup F old va mem = some (some w) →
    F.pte2pa w ∉ tablePages F mem F.hal.level new ++ free
  empty : ∀ va, F.hal.valid va = true → vpn va < (sz + 4095) / pgsize → lookup F new va mem = some none

/-- After `uvmcopy` returned 0, the child has a copy of every page below `sz`. After it returned
-1 nothing is mapped there, and the pages it took are free again or tables. -/
theorem uvmcopy_faithful (arch : Arch) {old new sz : Nat} {mem mem' : Mem} {free free' : List Nat} {ok : Bool}
    (h : Forkable arch.format old new sz mem free)
    (hrun : uvmcopy arch.format old new sz mem free = some (ok, mem', free')) :
    (∀ va, arch.format.hal.valid va = true → lookup arch.format old va mem' = lookup arch.format old va mem) ∧
    (ok = true → Unshared arch.format new ((sz + 4095) / pgsize) mem' ∧
      ∀ va, arch.format.hal.valid va = true → vpn va < (sz + 4095) / pgsize →
        ∃ e e', lookup arch.format old va mem = some e ∧ lookup arch.format new va mem' = some e' ∧
          SamePage arch.format mem mem' e e') ∧
    (ok = false → (tablePages arch.format mem' arch.format.hal.level new ++ free').Perm
        (tablePages arch.format mem arch.format.hal.level new ++ free) ∧
      ∀ va, arch.format.hal.valid va = true → vpn va < (sz + 4095) / pgsize →
        lookup arch.format new va mem' = some none) := by
  generalize arch.format = F at *
  obtain ⟨P, hP⟩ := h.parent
  obtain ⟨C, hC⟩ := h.child
  have hfresh := h.fresh
  have hpool : Pool (tablePages F mem F.hal.level old) (tablePages F mem F.hal.level new ++ free) := by
    constructor
    · rw [← append_assoc]
      exact hfresh.nodup
    · rw [← append_assoc]
      exact hfresh.phys
  have hstart : Copied F old new mem (tablePages F mem F.hal.level old) (tablePages F mem F.hal.level new ++ free) P C 0
      mem free (tablePages F mem F.hal.level new) C := by
    refine ⟨hP, hC, ?_, fun _ _ => rfl, fun _ _ hx => absurd hx (Nat.not_lt_zero _),
      fun _ hx => absurd hx (Nat.not_lt_zero _), fun _ _ => rfl⟩
    rw [freed, append_nil]
  have hchild := hstart.fresh hpool
  have hlookP := fun va (hva : F.hal.valid va = true) => hP.lookup hpool.parent hva
  have hlookC := fun va (hva : F.hal.valid va = true) => hC.lookup hchild.tables hva
  have hdata : ∀ x w, F.hal.valid (x * pgsize) = true → P x = some w →
      F.pte2pa w ∉ tablePages F mem F.hal.level new ++ free := fun x w hv hx =>
    h.data _ w hv (by rw [hlookP _ hv, vpn_mul, hx])
  have hempty : ∀ x, x < 0 + (sz + 4095) / pgsize → F.hal.valid (x * pgsize) = true → C x = none := by
    intro x hx hv
    rw [Nat.zero_add] at hx
    have := h.empty _ hv (by rwa [vpn_mul])
    rw [hlookC _ hv, vpn_mul] at this
    exact some.inj this
  rw [uvmcopy, ← Nat.zero_mul pgsize] at hrun
  obtain ⟨htrue, hfalse⟩ := hstart.loop hpool hdata hempty hrun
  rw [Nat.zero_add] at htrue hfalse
  cases ok with
  | true =>
    obtain ⟨T, C', hc⟩ := htrue rfl
    have hlookN := fun va (hva : F.hal.valid va = true) => hc.child.lookup (hc.fresh hpool).tables hva
    refine ⟨fun va hva => ?_, fun _ => ⟨hc.unshared hpool, fun va hva hlt => ⟨_, _, hlookP va hva, hlookN va hva, ?_⟩⟩,
      fun hne => by cases hne⟩
    · rw [hc.parent.lookup hpool.parent hva, hlookP va hva]
    · refine hc.samePage hpool hva hlt fun w hw => h.data va w hva ?_
      rw [hlookP va hva, hw]
  | false =>
    obtain ⟨T, C', h1, h2, h3, h4⟩ := hfalse rfl
    have hfull : Fresh T free' := ⟨h3.symm.nodup (nodup_append.mp hpool.nodup).2.1, fun p hp =>
      hpool.phys p (mem_append_right _ (h3.subset hp))⟩
    have hf := hfull.tables
    refine ⟨fun va hva => ?_, fun hne => (by cases hne), fun _ => ⟨((h1.tablePages hf).append_right free').trans h3,
      fun va hva hlt => ?_⟩⟩
    · rw [h2.lookup hpool.parent hva, hlookP va hva]
    · rw [h1.lookup hf hva, h4 _ hlt (F.valid_page va hva)]

/-- A guard page at 0 and a stack page above it. -/
def guardMem : Option Mem :=
  (mappages Riscv.format 0x80000000 0 8192 0x90000000 (Riscv.pteR ||| Riscv.pteW ||| Riscv.pteU) (fun _ _ => 0)
    [0x80001000, 0x80002000]).bind fun r => uvmclear Riscv.format 0x80000000 0 r.2.1

def guardFree : List Nat := [0x80003000, 0x80004000, 0x80005000, 0x80006000]

theorem guardMem_forkable {mem : Mem} (h : guardMem = some mem) :
    Forkable Riscv.format 0x80000000 0x80010000 8192 mem guardFree := by
  have hblank : guardMem.map (fun m => m 0x80010000) = some fun _ => 0 := rfl
  have hold : guardMem.map (fun m => tablePages Riscv.format m 2 0x80000000) =
      some [0x80000000, 0x80001000, 0x80002000] := by decide +kernel
  have hnew : guardMem.map (fun m => tablePages Riscv.format m 2 0x80010000) = some [0x80010000] := by decide +kernel
  rw [h, map_some] at hblank hold hnew
  obtain ⟨⟨ok, mem1, free1⟩, hmap, hclear⟩ := bind_eq_some_iff.mp h
  have hfr0 : Fresh [0x80000000] [0x80001000, 0x80002000] := ⟨by decide, by decide⟩
  obtain ⟨k, T, hk, -, -, hh, hp, -⟩ := (Holds.blank fun _ => rfl).mapLoop hfr0 (by decide) hmap
  have hc := hh.uvmclear (hfr0.perm hp).tables hclear
  have hpages := hc.tablePages (hfr0.perm hp).tables
  have hold : tablePages Riscv.format mem Riscv.format.hal.level 0x80000000 =
    [0x80000000, 0x80001000, 0x80002000] := some.inj hold
  have hnew : tablePages Riscv.format mem Riscv.format.hal.level 0x80010000 = [0x80010000] := some.inj hnew
  have hb : Holds Riscv.format 0x80010000 mem [0x80010000] fun _ => none :=
    Holds.blank fun i => congrFun (some.inj hblank) i
  have hf2 : Fresh [0x80010000] [] := ⟨by decide, by decide⟩
  refine ⟨⟨_, hc.perm hpages.symm⟩, ⟨_, by rw [hnew]; exact hb⟩, ?_, fun va w hva hw => ?_, fun va hva _ => ?_⟩
  · rw [hold, hnew]
    exact ⟨by decide, by decide⟩
  · rw [hc.lookup (hfr0.perm hp).tables hva] at hw
    rw [hnew]
    have hw := some.inj hw
    by_cases h0 : vpn va = vpn 0
    · rw [h0, update_self] at hw
      obtain ⟨x, hx, rfl⟩ := map_eq_some_iff.mp hw
      unfold mapRange at hx
      split at hx
      · cases hx
        decide +kernel
      · cases hx
    · rw [update_of_ne h0] at hw
      unfold mapRange at hw
      split at hw
      case isTrue hin =>
        have h1 : vpn va - vpn 0 = 1 := by
          have hk2 : k ≤ 2 := hk
          omega
        cases hw
        rw [h1]
        decide +kernel
      case isFalse => cases hw
  · rw [hb.lookup hf2 hva]

theorem guard_page_copied : ∃ mem mem' free' e e', guardMem = some mem ∧
    uvmcopy Riscv.format 0x80000000 0x80010000 8192 mem guardFree = some (true, mem', free') ∧
    lookup Riscv.format 0x80000000 0 mem = some e ∧ lookup Riscv.format 0x80010000 0 mem' = some e' ∧
    SamePage Riscv.format mem mem' e e' := by
  have hsome : (guardMem.bind fun mem => (uvmcopy Riscv.format 0x80000000 0x80010000 8192 mem guardFree).bind fun r =>
      if r.1 then some r else none).isSome = true := by decide +kernel
  obtain ⟨r, hr⟩ := isSome_iff_exists.mp hsome
  obtain ⟨mem, hmem, hr⟩ := bind_eq_some_iff.mp hr
  obtain ⟨⟨ok, mem', free'⟩, hcopy, hr⟩ := bind_eq_some_iff.mp hr
  cases ok with
  | false => cases hr
  | true =>
    obtain ⟨-, h, -⟩ := uvmcopy_faithful .riscv (guardMem_forkable hmem) hcopy
    obtain ⟨e, e', h1, h2, h3⟩ := (h rfl).2 0 (by decide) (by decide)
    exact ⟨mem, mem', free', e, e', hmem, hcopy, h1, h2, h3⟩

end Xv6Vfs.Vm.Phys
