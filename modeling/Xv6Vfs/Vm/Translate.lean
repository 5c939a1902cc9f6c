import Xv6Vfs.Lib.Run
import Xv6Vfs.Vm.Mapping

/-! A table built by `mappages` and `uvmunmap` is a map from pages to physical pages and
permissions. -/
namespace Xv6Vfs.Vm.Phys
open Xv6Vfs.Radix Xv6Vfs.Run List Option Nat

variable {ok : Bool} {F : Format} {npages va : Nat} {free' : List Nat}

theorem tablePages_eq {mem : Mem} {l : Nat} {t : Tree Nat l} (h : Rep F id mem l t)
    (hph : ∀ p ∈ tables l t, PhysPage p) :
    tablePages F mem l (rootPage l t) = tables l t := by
  induction l with
  | zero => rfl
  | succ l ih =>
    refine congrArg (Table.page t :: ·) (flatMap_congr fun i hi => ?_)
    have hi := mem_range.mp hi
    have he := h i hi
    have hroot : rootPage (l + 1) t = Table.page t := rfl
    rw [hroot]
    cases hs : Table.ent t i with
    | none =>
      rw [he.1 hs, if_neg (by decide)]
      rfl
    | some s =>
      have hsub : ∀ p ∈ tables l s, PhysPage p := fun p hp => hph p (mem_cons_of_mem _ (mem_below hi hs hp))
      rw [(he.2 s hs).1, if_pos (Format.pteV_table F _), F.table_pa _ (hsub _ (rootPage_mem l s)), elim_some]
      exact ih (he.2 s hs).2 hsub

theorem Holds.tablePages {root : Nat} {mem : Mem} {T : List Nat} {M : Nat → Option Nat} (h : Holds F root mem T M)
    (hf : Fresh T []) : (tablePages F mem F.hal.level root).Perm T := by
  obtain ⟨t, hr, hroot, hT, -⟩ := h
  rwa [← hroot, tablePages_eq hr fun p hp => hf.phys p (mem_append_left _ (hT.subset hp))]

/-- The calls, and writes to other pages between them. `pages` is what `kalloc` will return. -/
inductive Call where
  | map (va size pa perm : Nat) (pages : List Nat)
  | unmap (va npages : Nat) (doFree : Bool)
  | write (p i w : Nat)

/-- The pages that a call is about. The end of a range is computed in 64 bits. -/
def Call.range : Call → Nat × Nat
  | .map va size .. => (vpn va, size / pgsize)
  | .unmap va npages _ => (vpn va, unmapPages va npages)
  | .write .. => (0, 0)

def Call.InRange (c : Call) (v : Nat) : Prop := c.range.1 ≤ v ∧ v < c.range.1 + c.range.2

/-- A call and whether it returned 0. -/
abbrev Event : Type := Call × Bool

section Calls

variable (F : Format) (root : Nat)

def exec : Event → Mem → Option Mem
  | (.map va size pa perm pages, ok), mem =>
    (mappages F root va size pa perm mem pages).bind fun r => if r.1 = ok then some r.2.1 else none
  | (.unmap va npages doFree, ok), mem =>
    (uvmunmap F root va npages doFree mem []).bind fun r => if ok then some r.1 else none
  | (.write p i w, ok), mem => if ok then some (mem.store p i w) else none

/-- New pages are distinct and fresh, physical addresses have 56 bits; freed and written pages
are no tables. -/
def Allowed (mem : Mem) : Event → Prop
  | (.map _ size pa perm pages, _) =>
    Fresh (tablePages F mem F.hal.level root) pages ∧ pa + size ≤ 2 ^ 56 ∧ F.Perm perm
  | (.unmap va npages doFree, _) => doFree = true → ∀ a w, F.hal.valid a = true →
      (Call.unmap va npages doFree).InRange (vpn a) → lookup F root a mem = some (some w) →
      F.pte2pa w ∉ tablePages F mem F.hal.level root
  | (.write p _ _, _) => p ∉ tablePages F mem F.hal.level root

end Calls

/-- Physical page and permissions, for each page number. -/
abbrev Translation : Type := Nat → Option (Nat × Nat)

/-- What the calls mean: a failed `mappages` has mapped a first part of its range. -/
inductive Effect : Event → Translation → Translation → Prop
  | mapped {va size pa perm : Nat} {pages : List Nat} {M : Translation} : Effect (.map va size pa perm pages, true) M
      (mapRange M (vpn va) (size / pgsize) fun j => ((pa / pgsize + j) * pgsize, perm))
  | failed {va size pa perm k : Nat} {pages : List Nat} {M : Translation} (hk : k < size / pgsize) :
    Effect (.map va size pa perm pages, false) M
      (mapRange M (vpn va) k fun j => ((pa / pgsize + j) * pgsize, perm))
  | unmapped {va npages : Nat} {doFree : Bool} {M : Translation} :
    Effect (.unmap va npages doFree, true) M (clearRange M (vpn va) (unmapPages va npages))
  | written {p i w : Nat} {M : Translation} : Effect (.write p i w, true) M M

theorem Effect.outside {c : Event} {M M' : Translation} (h : Effect c M M') {v : Nat} (hv : ¬ c.1.InRange v) :
    M' v = M v := by
  simp only [Call.InRange] at hv
  cases h with
  | mapped => exact if_neg hv
  | failed hk => exact if_neg fun h => hv ⟨h.1, Nat.lt_trans h.2 (Nat.add_lt_add_left hk _)⟩
  | unmapped => exact if_neg hv
  | written => rfl

/-- The entry found is valid and has this page and these permissions. -/
def Translates (F : Format) : Option Nat → Option (Nat × Nat) → Prop
  | none, none => True
  | some w, some x => pteV w = true ∧ F.pte2pa w = x.1 ∧ F.rwxu (F.flags w) = F.rwxu x.2
  | _, _ => False

section Proof

variable {F : Format} {root : Nat} {mem mem' : Mem} {M : Translation}

/-- The table in memory holds the translation. -/
def Refines (F : Format) (root : Nat) (mem : Mem) (M : Translation) : Prop :=
  (∀ v x, M v = some x → PhysPage x.1 ∧ F.Perm x.2) ∧
    ∃ T, Fresh T [] ∧ Holds F root mem T fun v => (M v).map fun x => F.leaf x.1 x.2

section

variable (h : Refines F root mem M)
include h

theorem Refines.lookup (hva : F.hal.valid va = true) :
    lookup F root va mem = some ((M (vpn va)).map fun x => F.leaf x.1 x.2) := by
  obtain ⟨-, T, hf, hh⟩ := h
  exact hh.lookup hf hva

theorem Refines.translates (hva : F.hal.valid va = true) :
    ∃ e, Phys.lookup F root va mem = some e ∧ Translates F e (M (vpn va)) := by
  refine ⟨_, h.lookup hva, ?_⟩
  cases hM : M (vpn va) with
  | none => trivial
  | some x =>
    have hx := h.1 _ x hM
    refine ⟨F.leaf_valid _, F.leaf_pa _ _ hx.1 hx.2, ?_⟩
    show F.rwxu (F.flags (F.pa2pte x.1 ||| F.encodePerm x.2 ||| F.vCache)) = F.rwxu x.2
    rw [F.leaf_flags _ _ hx.1 hx.2]
    exact F.norm_perm x.2

omit h in
theorem leaf_page (pa perm j : Nat) (h : pa + j * pgsize < 2 ^ 56) :
    F.leaf ((pa + j * pgsize) % 2 ^ 64) perm = F.leaf ((pa / pgsize + j) * pgsize) perm := by
  rw [mod_eq_of_lt (Nat.lt_trans h (by decide)), Format.leaf, Format.leaf, F.pa2pte_page,
    add_mul_div_right _ _ (by decide)]

theorem Refines.mapped {size pa perm : Nat} {pages : List Nat}
    (hpages : Fresh (tablePages F mem F.hal.level root) pages) (hpa : pa + size ≤ 2 ^ 56) (hperm : F.Perm perm)
    (hrun : mappages F root va size pa perm mem pages = some (ok, mem', free')) :
    ∃ k, k ≤ size / pgsize ∧ (ok = true → k = size / pgsize) ∧ (ok = false → k < size / pgsize) ∧
      Refines F root mem' (mapRange M (vpn va) k fun j => ((pa / pgsize + j) * pgsize, perm)) := by
  obtain ⟨hx, T, hf, hh⟩ := h
  have hfr : Fresh T pages := hpages.perm ((hh.tablePages hf).symm.append_right pages)
  have hb : ∀ j, j < size / pgsize → pa + j * pgsize < 2 ^ 56 ∧ PhysPage ((pa / pgsize + j) * pgsize) := by
    intro j hj
    simp only [PhysPage, pgsize] at *
    omega
  rw [mappages] at hrun
  split at hrun
  · cases hrun
  · obtain ⟨k, T', hk, htrue, hfalse, hh', hp, -⟩ := hh.mapLoop hfr (by omega) hrun
    refine ⟨k, hk, htrue, hfalse, fun v x hv => ?_, T', (hfr.perm hp).tables, ?_⟩
    · unfold mapRange at hv
      split at hv
      case isTrue hin =>
        cases hv
        exact ⟨(hb _ (by omega)).2, hperm⟩
      case isFalse => exact hx v x hv
    · rw [map_mapRange]
      rwa [mapRange_congr fun j hj => leaf_page pa perm j (hb j (Nat.lt_of_lt_of_le hj hk)).1] at hh'

theorem Refines.unmapped {doFree : Bool} (hal : Allowed F root mem (.unmap va npages doFree, ok))
    (hrun : uvmunmap F root va npages doFree mem [] = some (mem', free')) :
    Refines F root mem' (clearRange M (vpn va) (unmapPages va npages)) := by
  have hlook := fun a (ha : F.hal.valid a = true) => h.lookup ha
  obtain ⟨hx, T, hf, hh⟩ := h
  rw [uvmunmap] at hrun
  split at hrun
  · cases hrun
  · have hpages : doFree = true →
        ∀ p ∈ freed F (fun v => (M v).map fun x => F.leaf x.1 x.2) (vpn va) (unmapPages va npages), p ∉ T := by
      intro hd p hp hT
      obtain ⟨j, w, hj, hw, rfl⟩ := mem_freed.mp hp
      have hva := unmapLoop_valid hrun hj
      have hv : vpn (va + j * pgsize) = vpn va + j := add_mul_div_right _ _ (by decide)
      refine hal hd _ w hva ?_ ?_ ((hh.tablePages hf).symm.subset hT)
      · rw [hv]
        exact ⟨Nat.le_add_right _ _, Nat.add_lt_add_left hj _⟩
      · rw [hlook _ hva, hv, hw]
    obtain ⟨h1, -, -⟩ := hh.unmapLoop hf hpages hrun
    refine ⟨fun v x hv => ?_, T, hf, ?_⟩
    · unfold clearRange at hv
      split at hv
      · cases hv
      · exact hx v x hv
    · rwa [map_clearRange]

theorem Refines.step {c : Event} (hal : Allowed F root mem c)
    (hrun : exec F root c mem = some mem') : ∃ M', Effect c M M' ∧ Refines F root mem' M' := by
  obtain ⟨c, ok⟩ := c
  cases c with
  | map va size pa perm pages =>
    obtain ⟨⟨ok', mem1, free1⟩, h1, h2⟩ := bind_eq_some_iff.mp hrun
    obtain ⟨h3, h4, h5⟩ := hal
    split at h2
    case isTrue hok =>
      cases h2
      subst hok
      obtain ⟨k, hk, htrue, hfalse, hR⟩ := h.mapped h3 h4 h5 h1
      cases ok' with
      | true =>
        rw [htrue rfl] at hR
        exact ⟨_, .mapped, hR⟩
      | false => exact ⟨_, .failed (hfalse rfl), hR⟩
    case isFalse => cases h2
  | unmap va npages doFree =>
    obtain ⟨⟨mem1, free1⟩, h1, h2⟩ := bind_eq_some_iff.mp hrun
    cases ok with
    | true =>
      cases h2
      exact ⟨_, .unmapped, h.unmapped hal h1⟩
    | false => cases h2
  | write p i w =>
    cases ok with
    | true =>
      cases hrun
      obtain ⟨hx, T, hf, hh⟩ := h
      refine ⟨M, .written, hx, T, hf, hh.congr fun q hq => store_of_ne ?_⟩
      rintro rfl
      exact hal ((hh.tablePages hf).symm.subset hq)
    | false => cases hrun

omit h in
theorem Refines.blank (hroot : PhysPage root) (hz : ∀ i, mem root i = 0) : Refines F root mem fun _ => none := by
  refine ⟨nofun, [root], ⟨nodup_cons.mpr ⟨not_mem_nil, nodup_nil⟩, fun p hp => ?_⟩, Holds.blank hz⟩
  rw [mem_singleton.mp hp]
  exact hroot

/-- A table that calls have built from an empty one. -/
def Built (F : Format) (root : Nat) (mem : Mem) : Prop :=
  ∃ mem0 calls, PhysPage root ∧ (∀ i, mem0 root i = 0) ∧ Meets (exec F root) (Allowed F root) calls mem0 ∧
    run (exec F root) calls mem0 = some mem

theorem Refines.run {calls : List Event} (hok : Meets (exec F root) (Allowed F root) calls mem)
    (hrun : run (exec F root) calls mem = some mem') : ∃ M', Steps Effect calls M M' ∧ Refines F root mem' M' := by
  have hstep : ∀ s c s' M, Refines F root s M → Allowed F root s c → exec F root c s = some s' →
      ∃ M', Effect c M M' ∧ Refines F root s' M' := fun _ _ _ _ h hal hc => h.step hal hc
  exact run_simulates (Refines F root) hstep h hok hrun

end

theorem Built.refines (h : Built F root mem) : ∃ M, Refines F root mem M := by
  obtain ⟨mem0, calls, hroot, hz, hok, hrun⟩ := h
  obtain ⟨M, -, hM⟩ := (Refines.blank hroot hz).run hok hrun
  exact ⟨M, hM⟩

end Proof

/-- From an empty table on, after any calls each valid address translates to what was mapped last
and not unmapped since, and one more call changes no translation outside its range. -/
theorem page_table_map (arch : Arch) {root : Nat} {mem mem' : Mem} {calls : List Event} (hroot : PhysPage root)
    (hz : ∀ i, mem root i = 0) (hok : Meets (exec arch.format root) (Allowed arch.format root) calls mem)
    (hrun : run (exec arch.format root) calls mem = some mem') :
    (∃ M, Steps Effect calls (fun _ => none) M ∧ ∀ va, arch.format.hal.valid va = true →
      ∃ e, lookup arch.format root va mem' = some e ∧ Translates arch.format e (M (vpn va))) ∧
    ∀ c mem2, Allowed arch.format root mem' c → exec arch.format root c mem' = some mem2 →
      ∀ va, arch.format.hal.valid va = true → ¬ c.1.InRange (vpn va) →
        lookup arch.format root va mem2 = lookup arch.format root va mem' := by
  obtain ⟨M, hM, hR⟩ := (Refines.blank hroot hz).run hok hrun
  refine ⟨⟨M, hM, fun va hva => hR.translates hva⟩, fun c mem2 hal hc va hva hout => ?_⟩
  obtain ⟨M', he, hR'⟩ := hR.step hal hc
  rw [hR.lookup hva, hR'.lookup hva, he.outside hout]

def mapStacks : List Event :=
  [(.map kstackRegionBottom (2 * pgsize) 0x90000000 (Loongarch.pteR ||| Loongarch.pteW)
    [0x80001000, 0x80002000, 0x80003000], true)]

/-- Two pages at the lowest stack are mapped; the second one stays when the first is unmapped. -/
theorem lowest_stacks_mapped : ∃ mem' mem2 w1 w2,
    run (exec Loongarch.format 0x80000000) mapStacks (fun _ _ => 0) = some mem' ∧
    lookup Loongarch.format 0x80000000 kstackRegionBottom mem' = some (some w1) ∧
    Loongarch.format.pte2pa w1 = 0x90000000 ∧
    lookup Loongarch.format 0x80000000 (kstackRegionBottom + pgsize) mem' = some (some w2) ∧
    Loongarch.format.pte2pa w2 = 0x90001000 ∧
    exec Loongarch.format 0x80000000 (.unmap kstackRegionBottom 1 false, true) mem' = some mem2 ∧
    lookup Loongarch.format 0x80000000 (kstackRegionBottom + pgsize) mem2 = some (some w2) := by
  have hsome : ((run (exec Loongarch.format 0x80000000) mapStacks fun _ _ => 0).bind
      (exec Loongarch.format 0x80000000 (.unmap kstackRegionBottom 1 false, true))).isSome = true := by decide +kernel
  obtain ⟨mem2, h2⟩ := isSome_iff_exists.mp hsome
  obtain ⟨mem', hrun, hexec⟩ := bind_eq_some_iff.mp h2
  have hpages : tablePages Loongarch.format (fun _ _ => 0) 3 0x80000000 = [0x80000000] := by decide +kernel
  have hok : Meets (exec Loongarch.format 0x80000000) (Allowed Loongarch.format 0x80000000) mapStacks
      fun _ _ => 0 := by
    refine ⟨⟨?_, by decide, trivial⟩, fun _ _ => trivial⟩
    rw [show Loongarch.format.hal.level = 3 from rfl, hpages]
    exact ⟨by decide, by decide⟩
  obtain ⟨⟨M, hM, h⟩, hframe⟩ := page_table_map .loongarch (by decide) (fun _ => rfl) hok hrun
  have hlast := hframe (.unmap kstackRegionBottom 1 false, true) mem2 (fun hd => by cases hd) hexec
    (kstackRegionBottom + pgsize) (by decide) (by unfold Call.InRange; decide)
  have hentry : ∀ {e x}, Translates Loongarch.format e (some x) →
      ∃ w, e = some w ∧ Loongarch.format.pte2pa w = x.1 := by
    intro e x he
    cases e with
    | none => exact he.elim
    | some w => exact ⟨w, rfl, he.2.1⟩
  obtain ⟨e1, he1, ht1⟩ := h kstackRegionBottom (by decide)
  obtain ⟨e2, he2, ht2⟩ := h (kstackRegionBottom + pgsize) (by decide)
  cases hM with
  | cons heff hnil =>
    cases hnil
    cases heff
    obtain ⟨w1, rfl, hw1⟩ := hentry ht1
    obtain ⟨w2, rfl, hw2⟩ := hentry ht2
    exact ⟨mem', mem2, w1, w2, hrun, he1, hw1, he2, hw2, hexec, hlast.trans he2⟩

end Xv6Vfs.Vm.Phys
