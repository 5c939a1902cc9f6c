import Xv6Vfs.Vm.Mapping

/-! The page tables of `Vm.PageTable` are what the words in memory mean: `mappages` and `uvmunmap`
on words refine the functions on trees of pages. -/
namespace Xv6Vfs.Vm.Phys
open Xv6Vfs.Radix Function List Option

/-- What a valid word of the lowest level says. -/
def Format.page (F : Format) (w : Nat) : Page :=
  ⟨F.pte2pa w, F.flags w &&& F.pteU != 0, F.flags w &&& F.pteW != 0, F.flags w &&& F.pteX != 0⟩

variable {F : Format} {root va pa perm n a : Nat} {mem : Mem} {free : List Nat} {pt : PT F.hal}

theorem page_leaf (hp : PhysPage pa) (hf : F.Perm perm) :
    Format.page F (F.leaf pa perm) = ⟨pa, perm &&& F.pteU != 0, perm &&& F.pteW != 0, perm &&& F.pteX != 0⟩ := by
  have hbit : ∀ b, (F.pteR ||| F.pteW ||| F.pteX ||| F.pteU) &&& b = b → F.norm perm &&& b = perm &&& b := by
    intro b hb
    rw [← hb, ← Nat.and_assoc, ← Nat.and_assoc, F.norm_perm]
  have habs : ∀ x y z : Nat, (x ||| y ||| z) &&& y = y := fun x y z => Nat.eq_of_testBit_eq fun i => by
    simp only [Nat.testBit_and, Nat.testBit_or]
    cases x.testBit i <;> cases y.testBit i <;> cases z.testBit i <;> rfl
  rw [Format.page, Format.leaf, F.leaf_pa _ _ hp hf, F.leaf_flags _ _ hp hf, hbit F.pteU ?_, hbit F.pteW ?_,
    hbit F.pteX ?_]
  · exact habs _ _ _
  · rw [Nat.or_assoc]
    exact habs _ _ _
  · rw [← Nat.or_zero (_ ||| _)]
    exact habs _ _ _

/-- The words from `root` on are the table `pt`. -/
def Stores (F : Format) (mem : Mem) (root : Nat) (pt : PT F.hal) : Prop :=
  Rep F (Format.page F) mem F.hal.level pt ∧ rootPage F.hal.level pt = root

/-- The same table and the same free pages. -/
def Tracks (F : Format) (root : Nat) (x : Mem × List Nat) (y : PT F.hal × List Nat) : Prop :=
  Stores F x.1 root y.1 ∧ x.2 = y.2

/-- One page: both sides panic, or return the same flag. -/
theorem mappages_refines (h : Stores F mem root pt) (hf : Fresh (tables F.hal.level pt) free) :
    Option.Rel (fun x y => x.1 = y.1 ∧ Tracks F root x.2 y.2) (mappages F root va pgsize pa perm mem free)
      (Vm.mappages F.hal pt va (Format.page F (F.leaf pa perm)) free) := by
  unfold Vm.mappages mappages
  by_cases ha : va % pgsize = 0
  · rw [if_neg (fun hn => hn.elim (· ha) (by decide)), show pgsize / pgsize = 1 from rfl, mapLoop]
    by_cases hva : F.hal.valid va = true
    · have hsim := @walk_insert _ (Format.page F) _ free F va (F.leaf pa perm) pt mem (F.leaf_valid _) h.1 hf.nodup
        hf.phys
      rw [if_neg (fun hn => hn.elim (· ha) (by simp [hva])), walk, if_pos hva, bind_some, ← h.2]
      revert hsim
      generalize Radix.insert F.hal.level pt (vpn va) (Format.page F (F.leaf pa perm)) free = x
      generalize walkLevel F va true F.hal.level (rootPage F.hal.level pt) mem free = r
      intro hsim
      cases hsim with
      | remap hv =>
        dsimp only
        rw [if_pos hv]
        exact .none
      | full hr hp _ => exact .some ⟨rfl, ⟨hr, hp⟩, rfl⟩
      | done hv _ hr hp _ =>
        dsimp only
        rw [if_neg (Bool.eq_false_iff.mp hv)]
        exact .some ⟨rfl, ⟨hr, hp⟩, rfl⟩
    · rw [walk_invalid hva, if_pos (.inr (Bool.eq_false_iff.mpr hva))]
      exact .none
  · rw [if_pos (.inl ha), if_pos (.inl ha)]
    exact .none

/-- The loop, if no mapped page that it frees is a table. -/
theorem unmapLoop_refines {doFree : Bool} (h : Stores F mem root pt) (hf : Fresh (tables F.hal.level pt) [])
    (hd : doFree = true → ∀ v pg, get F.hal.level pt v = some pg → pg.pa ∉ tables F.hal.level pt) :
    Option.Rel (Tracks F root) (unmapLoop F root doFree n a mem free) (Vm.uvmunmap F.hal doFree n a pt free) := by
  induction n generalizing a mem pt free with
  | zero => exact .some ⟨h, rfl⟩
  | succ n ih =>
    rw [unmapLoop, Vm.uvmunmap]
    by_cases hva : F.hal.valid a = true
    · have hph : ∀ p ∈ tables F.hal.level pt, PhysPage p := fun p hp => hf.phys p (mem_append_left _ hp)
      rw [if_neg (by simp [hva]), walk, if_pos hva, bind_some, valid_next hva, ← h.2]
      cases hc : reached F.hal.level pt (vpn a) with
      | false =>
        have hnone : get F.hal.level pt (vpn a) = none := eq_none_iff_forall_ne_some.mpr fun w hw => by
          rw [reached_of_get hw] at hc
          cases hc
        rw [walk_missing free h.1 hph hc, hnone, h.2]
        exact ih h hf hd
      | true =>
        obtain ⟨p, i, hw, hfound⟩ := walk_found free h.1 (append_nil (tables _ pt) ▸ hf.nodup) hph hc
        have hword := hfound.word
        rw [hw, h.2]
        dsimp only
        cases hg : get F.hal.level pt (vpn a) with
        | none =>
          rw [hg] at hword
          rw [show mem p i = 0 from hword]
          exact ih h hf hd
        | some pg =>
          rw [hg] at hword
          have hperm := (alter_accounts (fun _ => none) pt (vpn a)).2
          have hstore := hfound.store (fun _ => none) 0 (by rw [hg]; rfl)
          obtain ⟨mem1, hkf, hm⟩ := free_page doFree (F.pte2pa (mem p i)) mem free
          have hpa : F.pte2pa (mem p i) = pg.pa := congrArg Page.pa hword.2
          have hfree : (if doFree then pg.pa :: free else free) = (if doFree then [F.pte2pa (mem p i)] else []) ++
            free := by
            rw [hpa]
            cases doFree <;> rfl
          have hkept : ∀ q ∈ tables F.hal.level pt, mem1 q = mem q := fun q hq => hm q fun hdf he =>
            hd hdf (vpn a) pg hg (by rwa [he, hpa] at hq)
          dsimp only
          rw [if_pos hword.1, hkf, hfree]
          refine ih ⟨hstore.congr fun q hq => ?_, (rootPage_alter ..).trans h.2⟩ (hf.perm (hperm.append_right []))
            fun hdf v pg' hv hp => ?_
          · exact store_congr (hkept p hfound.page) (hkept q (hperm.subset hq))
          · refine hd hdf v pg' ?_ (hperm.subset hp)
            rw [unmap, alter_get] at hv
            split at hv
            · obtain ⟨_, _, hx⟩ := bind_eq_some_iff.mp hv
              cases hx
            · exact hv
    · rw [walk_invalid hva, if_pos (Bool.eq_false_iff.mpr hva)]
      exact .none

theorem uvmunmap_refines {npages : Nat} {doFree : Bool} (ha : va % pgsize = 0) (hn : va + npages * pgsize < 2 ^ 64)
    (h : Stores F mem root pt) (hf : Fresh (tables F.hal.level pt) [])
    (hd : doFree = true → ∀ v pg, get F.hal.level pt v = some pg → pg.pa ∉ tables F.hal.level pt) :
    Option.Rel (Tracks F root) (uvmunmap F root va npages doFree mem free)
      (Vm.uvmunmap F.hal doFree npages va pt free) := by
  rw [uvmunmap, if_neg (not_not.mpr ha), unmapPages_eq hn]
  exact unmapLoop_refines h hf hd

end Xv6Vfs.Vm.Phys
