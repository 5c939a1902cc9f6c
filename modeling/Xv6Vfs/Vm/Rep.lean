import Xv6Vfs.Vm.Phys

/-! Page tables in memory represent radix trees of entries. -/
namespace Xv6Vfs.Vm.Phys
open Xv6Vfs.Radix Function List Option

variable {α : Type} {g : Nat → α} {i j l p : Nat} {free : List Nat} {r : Option (Nat × Nat) × Mem × List Nat}

theorem px_eq (l va : Nat) : px l va = index l (vpn va) := by
  rw [px, show (0x1FF : Nat) = 2 ^ 9 - 1 from rfl, Nat.and_two_pow_sub_one_eq_mod, Nat.shiftRight_eq_div_pow,
    index, vpn, Nat.div_div_eq_div_mul, Nat.pow_add, Nat.pow_mul]
  rfl

/-- The page of the topmost table. -/
def rootPage : (l : Nat) → Tree α l → Nat
  | 0, (t : Table α) => t.page
  | _ + 1, (t : Table (Tree α _)) => t.page

@[simp] theorem rootPage_empty (l p : Nat) : rootPage l (empty l p : Tree α l) = p := by
  cases l with
  | zero => rfl
  | succ l => rfl

theorem rootPage_mem (l : Nat) (t : Tree α l) : rootPage l t ∈ tables l t := by
  cases l with
  | zero => exact mem_cons_self
  | succ l => exact mem_cons_self

/-- The word of an entry, which stands for the value `g w`. -/
def Word (g : Nat → α) (w : Nat) : Option α → Prop
  | none => w = 0
  | some a => pteV w = true ∧ g w = a

theorem word_id {w : Nat} {x : Option Nat} : Word id w x ↔ w = x.getD 0 ∧ ∀ y, x = some y → pteV y = true := by
  cases x with
  | none => exact ⟨fun h => ⟨h, nofun⟩, And.left⟩
  | some y =>
    refine ⟨fun h => ⟨h.2, fun z hz => ?_⟩, fun h => ⟨h.1 ▸ h.2 y rfl, h.1⟩⟩
    rw [← some.inj hz, ← h.2]
    exact h.1

/-- The words of the tables are the entries of the tree; a missing entry is 0. -/
def Rep (F : Format) (g : Nat → α) (mem : Mem) : (l : Nat) → Tree α l → Prop
  | 0, (t : Table α) => ∀ i, i < fanout → Word g (mem t.page i) (t.ent i)
  | l + 1, (t : Table (Tree α l)) => ∀ i, i < fanout →
      (t.ent i = none → mem t.page i = 0) ∧
        ∀ s, t.ent i = some s → mem t.page i = F.pa2pte (rootPage l s) ||| 1 ∧ Rep F g mem l s

section Frame

variable {F : Format} {mem mem' : Mem} {l : Nat}

theorem mem_below {β γ : Type} {f : β → List γ} {ent : Nat → Option β} (hi : i < fanout) {s : β} (hs : ent i = some s)
    {x : γ} (hx : x ∈ f s) : x ∈ below f ent :=
  mem_flatMap.mpr ⟨i, mem_range.mpr hi, by rw [hs]; exact hx⟩

theorem below_nodup {β γ : Type} {f : β → List γ} {ent : Nat → Option β} (h : (below f ent).Nodup) (hi : i < fanout)
    {s : β} (hs : ent i = some s) : (f s).Nodup ∧
      ∀ j s', j < fanout → j ≠ i → ent j = some s' → ∀ x ∈ f s', x ∉ f s := by
  rcases append_of_mem (mem_range.mpr hi) with ⟨u, v, hl⟩
  rw [below, hl, flatMap_append, flatMap_cons, hs, elim_some, nodup_append, nodup_append] at h
  refine ⟨h.2.1.1, fun j s' hj hji hs' x hx hx' => ?_⟩
  have hx : x ∈ (ent j).elim [] f := by
    rwa [hs']
  have hj : j ∈ u ++ i :: v := hl ▸ mem_range.mpr hj
  rw [mem_append, mem_cons] at hj
  rcases hj with hj | hj | hj
  · exact h.2.2 x (mem_flatMap.mpr ⟨j, hj, hx⟩) x (mem_append_left _ hx') rfl
  · exact hji hj
  · exact h.2.1.2.2 x hx' x (mem_flatMap.mpr ⟨j, hj, hx⟩) rfl

theorem Rep.congr {t : Tree α l} (h : Rep F g mem l t) (hm : ∀ p ∈ tables l t, mem' p = mem p) : Rep F g mem' l t := by
  induction l with
  | zero =>
    intro i hi
    rw [hm _ mem_cons_self]
    exact h i hi
  | succ l ih =>
    intro i hi
    rw [hm _ mem_cons_self]
    refine ⟨(h i hi).1, fun s hs => ⟨((h i hi).2 s hs).1, ih ((h i hi).2 s hs).2 fun p hp => ?_⟩⟩
    exact hm p (mem_cons_of_mem _ (mem_below hi hs hp))

theorem Rep.blank (h : ∀ i, mem p i = 0) : Rep F g mem l (empty l p) := by
  cases l with
  | zero => exact fun i _ => h i
  | succ l => exact fun i _ => ⟨fun _ => h i, nofun⟩

end Frame

section Walk

variable {F : Format} {va w : Nat}

/-- How `walk` with `alloc` compares with an insertion into the tree: `r` is its result in memory
`mem`, and `w` is the word to be stored. -/
inductive Walked (F : Format) (g : Nat → α) (l : Nat) (t : Tree α l) (w : Nat) (mem : Mem) (free : List Nat) :
    Inserted (Tree α l) → Option (Nat × Nat) × Mem × List Nat → Prop
  | remap {p i : Nat} (hv : pteV (mem p i) = true) :
    Walked F g l t w mem free .remap (some (p, i), mem, free)
  | full {t' : Tree α l} {mem' : Mem} {free' : List Nat} (hr : Rep F g mem' l t')
    (hp : rootPage l t' = rootPage l t) (hm : ∀ q, q ∉ tables l t → q ∉ free → mem' q = mem q) :
    Walked F g l t w mem free (.full t' free') (none, mem', free')
  | done {t' : Tree α l} {mem' : Mem} {free' : List Nat} {p i : Nat} (hv : pteV (mem' p i) = false)
    (hi : p ∈ tables l t ∨ p ∈ free) (hr : Rep F g (mem'.store p i w) l t') (hp : rootPage l t' = rootPage l t)
    (hm : ∀ q, q ∉ tables l t → q ∉ free → mem' q = mem q) :
    Walked F g l t w mem free (.done t' free') (some (p, i), mem', free')

theorem store_of_ne {mem : Mem} {q : Nat} (h : q ≠ p) : mem.store p i w q = mem q := update_of_ne h ..

theorem Rep.store {mem : Mem} {t : Table α} {x : Option α} (h : Rep F g mem 0 t) (hw : Word g w x) :
    Rep F g (mem.store t.page j w) 0 (t.set j x : Table α) := by
  intro i hi
  show Word g (mem.store t.page j w t.page i) (update t.ent j x i)
  rw [Mem.store, update_self]
  by_cases hij : i = j
  · rwa [hij, update_self, update_self]
  · rw [update_of_ne hij, update_of_ne hij]
    exact h i hi

theorem Rep.set {mem mem' : Mem} {t : Table (Tree α l)} {s s' : Tree α l} (h : Rep F g mem (l + 1) t)
    (hj : j < fanout) (hs : t.ent j = some s) (hnd : (tables (l + 1) t ++ free).Nodup) (hr : Rep F g mem' l s')
    (hp : rootPage l s' = rootPage l s) (hm : ∀ q, q ∉ tables l s → q ∉ free → mem' q = mem q) :
    Rep F g mem' (l + 1) (t.set j (some s') : Table (Tree α l)) := by
  have hnd := nodup_append.mp hnd
  have htab := nodup_cons.mp hnd.1
  have hpage : mem' t.page = mem t.page :=
    hm _ (fun hq => htab.1 (mem_below hj hs hq)) fun hq => hnd.2.2 _ mem_cons_self _ hq rfl
  intro i hi
  show (update t.ent j (some s') i = none → mem' t.page i = 0) ∧
    ∀ x, update t.ent j (some s') i = some x → mem' t.page i = _ ∧ _
  rw [hpage]
  by_cases hij : i = j
  · rw [hij, update_self]
    refine ⟨nofun, fun x hx => ?_⟩
    rw [← some.inj hx, hp]
    exact ⟨((h j hj).2 s hs).1, hr⟩
  · rw [update_of_ne hij]
    refine ⟨(h i hi).1, fun x hx => ⟨((h i hi).2 x hx).1, ((h i hi).2 x hx).2.congr fun q hq => ?_⟩⟩
    refine hm q ((below_nodup htab.2 hj hs).2 i x hi hij hx q hq) fun hf => ?_
    exact hnd.2.2 q (mem_cons_of_mem _ (mem_below hi hx hq)) q hf rfl

theorem Walked.lift {mem : Mem} {t : Table (Tree α l)} {s : Tree α l} {x : Inserted (Tree α l)}
    (hx : Walked F g l s w mem free x r) (h : Rep F g mem (l + 1) t) (hj : j < fanout) (hs : t.ent j = some s)
    (hnd : (tables (l + 1) t ++ free).Nodup) :
    Walked F g (l + 1) t w mem free (x.lift fun s' => (t.set j (some s') : Table (Tree α l))) r := by
  have hin : ∀ q, q ∈ tables l s → q ∈ tables (l + 1) t := fun q hq => mem_cons_of_mem _ (mem_below hj hs hq)
  cases hx with
  | remap hv => exact .remap hv
  | full hr hp hm => exact .full (h.set hj hs hnd hr hp hm) rfl fun q hq hf => hm q (fun hq' => hq (hin q hq')) hf
  | @done t' mem' free' p i hv hi hr hp hm =>
    refine .done hv (hi.imp_left (hin p)) (h.set hj hs hnd hr hp fun q hq hf => ?_) rfl
      fun q hq hf => hm q (fun hq' => hq (hin q hq')) hf
    have hne : q ≠ p := by
      rintro rfl
      exact hi.elim hq hf
    rw [store_of_ne hne, hm q hq hf]

theorem Format.pteV_table (F : Format) (p : Nat) : pteV (F.pa2pte p ||| 1) = true := by
  simp [pteV]

theorem Rep.newTable {mem : Mem} {t : Table (Tree α l)} (u : Nat) (h : Rep F g mem (l + 1) t)
    (hnd : (tables (l + 1) t ++ p :: free).Nodup) :
    Rep F g (((mem.fill p u).fill p 0).store t.page j (F.pa2pte p ||| 1)) (l + 1)
      (t.set j (some (empty l p)) : Table (Tree α l)) := by
  have hnd := nodup_append.mp hnd
  have hpt : p ∉ tables (l + 1) t := fun hp => hnd.2.2 p hp p mem_cons_self rfl
  have htp : t.page ≠ p := fun he => hpt (he ▸ mem_cons_self)
  have hother : ∀ q, q ≠ p → q ≠ t.page →
      ((mem.fill p u).fill p 0).store t.page j (F.pa2pte p ||| 1) q = mem q := fun q h1 h2 =>
    (update_of_ne h2 ..).trans ((update_of_ne h1 ..).trans (update_of_ne h1 ..))
  have hpage : ((mem.fill p u).fill p 0).store t.page j (F.pa2pte p ||| 1) t.page =
      update (mem t.page) j (F.pa2pte p ||| 1) := by
    rw [Mem.store, update_self]
    congr 1
    exact (update_of_ne htp ..).trans (update_of_ne htp ..)
  intro i hi
  show (update t.ent j (some (empty l p)) i = none → _) ∧
    ∀ x, update t.ent j (some (empty l p)) i = some x → _
  show (_ → ((mem.fill p u).fill p 0).store t.page j (F.pa2pte p ||| 1) t.page i = 0) ∧
    ∀ x, _ → ((mem.fill p u).fill p 0).store t.page j (F.pa2pte p ||| 1) t.page i = _ ∧ _
  rw [hpage]
  by_cases hij : i = j
  · rw [hij, update_self, update_self]
    refine ⟨nofun, fun x hx => ?_⟩
    rw [← some.inj hx, rootPage_empty]
    have hz : ((mem.fill p u).fill p 0).store t.page j (F.pa2pte p ||| 1) p = fun _ => 0 :=
      (update_of_ne htp.symm ..).trans (update_self ..)
    exact ⟨rfl, Rep.blank fun k => congrFun hz k⟩
  · rw [update_of_ne hij, update_of_ne hij]
    refine ⟨(h i hi).1, fun x hx => ⟨((h i hi).2 x hx).1, ((h i hi).2 x hx).2.congr fun q hq => ?_⟩⟩
    have hq' := mem_below hi hx hq
    exact hother q (fun he => hpt (he ▸ mem_cons_of_mem _ hq'))
      fun he => (nodup_cons.mp hnd.1).1 (he ▸ hq')

theorem Walked.new {mem mem1 : Mem} {t : Table (Tree α l)} {x : Inserted (Tree α l)} (hx : x ≠ .remap)
    (h : Walked F g (l + 1) (t.set j (some (empty l p)) : Table (Tree α l)) w mem1 free (x.lift
      fun s' => ((t.set j (some (empty l p))).set j (some s') : Table (Tree α l))) r)
    (hsub : ∀ q, q ∈ tables (l + 1) (t.set j (some (empty l p)) : Table (Tree α l)) → q ∈ tables (l + 1) t ∨ q = p)
    (hm : ∀ q, q ≠ p → q ≠ t.page → mem1 q = mem q) :
    Walked F g (l + 1) t w mem (p :: free) (x.lift fun s' => (t.set j (some s') : Table (Tree α l))) r := by
  have hset : ∀ s' : Tree α l, (t.set j (some (empty l p))).set j (some s') = t.set j (some s') := fun s' => by
    show (⟨t.page, update (update t.ent j _) j _⟩ : Table (Tree α l)) = _
    rw [update_idem]
    rfl
  have hframe : ∀ {mem' : Mem}, (∀ q, q ∉ tables (l + 1) (t.set j (some (empty l p)) : Table (Tree α l)) →
      q ∉ free → mem' q = mem1 q) → ∀ q, q ∉ tables (l + 1) t → q ∉ p :: free → mem' q = mem q := by
    intro mem' hf q hq hp
    rw [mem_cons, not_or] at hp
    rw [hf q (fun hq' => (hsub q hq').elim hq hp.1) hp.2, hm q hp.1 fun he => hq (he ▸ mem_cons_self)]
  cases x with
  | remap => exact absurd rfl hx
  | full s' f =>
    simp only [Inserted.lift, hset] at h ⊢
    cases h with
    | full hr hp hf => exact .full hr hp (hframe hf)
  | done s' f =>
    simp only [Inserted.lift, hset] at h ⊢
    cases h with
    | done hv hi hr hp hf =>
      refine .done hv ?_ hr hp (hframe hf)
      refine hi.elim (fun hi => (hsub _ hi).imp_right fun he => ?_) fun hi => .inr (mem_cons_of_mem _ hi)
      rw [he]
      exact mem_cons_self

/-- `walk` with `alloc` makes the tables that an insertion makes, and finds its place. -/
theorem walk_insert {t : Tree α l} {mem : Mem} (hw : pteV w = true) (h : Rep F g mem l t)
    (hnd : (tables l t ++ free).Nodup) (hph : ∀ p ∈ tables l t ++ free, PhysPage p) :
    Walked F g l t w mem free (Radix.insert l t (vpn va) (g w) free)
      (walkLevel F va true l (rootPage l t) mem free) := by
  induction l generalizing mem free with
  | zero =>
    have hi := index_lt 0 (vpn va)
    have he := h _ hi
    simp only [walkLevel, px_eq, Radix.insert]
    cases hs : Table.ent t (index 0 (vpn va)) with
    | some x =>
      rw [hs] at he
      exact .remap he.1
    | none =>
      rw [hs] at he
      refine .done (congrArg pteV he) (.inl mem_cons_self) ?_ rfl fun _ _ _ => rfl
      exact Rep.store h ⟨hw, rfl⟩
  | succ l ih =>
    have hi := index_lt (l + 1) (vpn va)
    have he := h _ hi
    have hroot : rootPage (l + 1) t = Table.page t := rfl
    simp only [walkLevel, px_eq, Radix.insert, hroot]
    cases hs : Table.ent t (index (l + 1) (vpn va)) with
    | some s =>
      have hword := ((he.2 s hs)).1
      have hsub : ∀ p ∈ tables l s, p ∈ tables (l + 1) t := fun p hp => mem_cons_of_mem _ (mem_below hi hs hp)
      have hrp : PhysPage (rootPage l s) := hph _ (mem_append_left _ (hsub _ (rootPage_mem l s)))
      have hnd' := nodup_append.mp hnd
      have hns : (tables l s ++ free).Nodup := by
        refine nodup_append.mpr ⟨(below_nodup (nodup_cons.mp hnd'.1).2 hi hs).1, hnd'.2.1, ?_⟩
        exact fun a ha b hb => hnd'.2.2 a (hsub a ha) b hb
      have hps : ∀ p ∈ tables l s ++ free, PhysPage p := fun p hp =>
        hph p ((mem_append.mp hp).elim (fun hp => mem_append_left _ (hsub p hp)) (mem_append_right _))
      rw [hword, if_pos (Format.pteV_table F _), F.table_pa _ hrp]
      exact (ih (he.2 s hs).2 hns hps).lift h hi hs hnd
    | none =>
      rw [he.1 hs, if_neg (by decide), if_pos trivial]
      cases free with
      | nil => exact .full h rfl fun _ _ _ => rfl
      | cons p free =>
        have h1 := h.newTable (j := index (l + 1) (vpn va)) 0x0505050505050505 hnd
        have hg : Grown (l + 1) t (p :: free) (Table.set t _ (some (empty l p)) : Table (Tree α l)) free [] :=
          Grown.new hi (Grown.refl _ _) hs
        have hnd1 := hg.pages.symm.nodup hnd
        have hsub : ∀ q, q ∈ tables (l + 1) (Table.set t _ (some (empty l p)) : Table (Tree α l)) →
            q ∈ tables (l + 1) t ∨ q = p := fun q hq => by
          have hq' := hg.pages.subset (mem_append_left _ hq)
          rw [mem_append, mem_cons] at hq'
          refine hq'.imp_right fun hq' => hq'.resolve_right fun hf => ?_
          exact (nodup_append.mp hnd1).2.2 q hq q hf rfl
        have hent : (Table.set t (index (l + 1) (vpn va)) (some (empty l p))).ent (index (l + 1) (vpn va)) =
            some (empty l p : Tree α l) := update_self ..
        have hns : (tables l (empty l p : Tree α l) ++ free).Nodup := by
          rw [tables_empty]
          exact (nodup_append.mp hnd).2.1
        have hps : ∀ q ∈ tables l (empty l p : Tree α l) ++ free, PhysPage q := fun q hq => by
          rw [tables_empty] at hq
          exact hph q (mem_append_right _ hq)
        have hx : Radix.insert l (empty l p) (vpn va) (g w) free ≠ .remap := fun hx => by
          have := (insert_remap l (empty l p) (vpn va) (g w) free).mp hx
          rw [get_empty] at this
          cases this
        have hsim := ((ih ((h1 _ hi).2 _ hent).2 hns hps).lift h1 hi hent hnd1)
        rw [rootPage_empty] at hsim
        refine Walked.new hx hsim hsub fun q h1 h2 => ?_
        exact (update_of_ne h2 ..).trans ((update_of_ne h1 ..).trans (update_of_ne h1 ..))

end Walk

section Find

variable {F : Format} {va : Nat}

@[simp] theorem rootPage_alter (f : α → Option α) (l : Nat) (t : Tree α l) (v : Nat) :
    rootPage l (alter f l t v) = rootPage l t := by
  cases l with
  | zero => rfl
  | succ l =>
    simp only [alter]
    split <;> rfl

/-- `walk` found word `i` of page `p`, the entry of `v`. -/
structure Found (F : Format) (g : Nat → α) (mem : Mem) (l : Nat) (t : Tree α l) (v p i : Nat) : Prop where
  page : p ∈ tables l t
  word : Word g (mem p i) (get l t v)
  store : ∀ f w, Word g w ((get l t v).bind f) → Rep F g (mem.store p i w) l (alter f l t v)

theorem walk_missing {t : Tree α l} {mem : Mem} (free : List Nat) (h : Rep F g mem l t)
    (hph : ∀ p ∈ tables l t, PhysPage p) (hv : reached l t (vpn va) = false) :
    walkLevel F va false l (rootPage l t) mem free = (none, mem, free) := by
  induction l with
  | zero => cases hv
  | succ l ih =>
    have hi := index_lt (l + 1) (vpn va)
    have he := h _ hi
    have hroot : rootPage (l + 1) t = Table.page t := rfl
    simp only [walkLevel, px_eq, hroot]
    simp only [reached] at hv
    cases hs : Table.ent t (index (l + 1) (vpn va)) with
    | none =>
      rw [he.1 hs, if_neg (by decide)]
      rfl
    | some s =>
      rw [hs] at hv
      have hsub : ∀ p ∈ tables l s, p ∈ tables (l + 1) t := fun p hp => mem_cons_of_mem _ (mem_below hi hs hp)
      rw [(he.2 s hs).1, if_pos (Format.pteV_table F _), F.table_pa _ (hph _ (hsub _ (rootPage_mem l s)))]
      exact ih (he.2 s hs).2 (fun p hp => hph p (hsub p hp)) hv

theorem walk_found {t : Tree α l} {mem : Mem} (free : List Nat) (h : Rep F g mem l t) (hnd : (tables l t).Nodup)
    (hph : ∀ p ∈ tables l t, PhysPage p) (hv : reached l t (vpn va) = true) :
    ∃ p i, walkLevel F va false l (rootPage l t) mem free = (some (p, i), mem, free) ∧
      Found F g mem l t (vpn va) p i := by
  induction l with
  | zero =>
    refine ⟨Table.page t, index 0 (vpn va), by rw [← px_eq]; rfl, mem_cons_self, h _ (index_lt 0 (vpn va)), ?_⟩
    exact fun f w hw => Rep.store h hw
  | succ l ih =>
    have hi := index_lt (l + 1) (vpn va)
    have he := h _ hi
    have hroot : rootPage (l + 1) t = Table.page t := rfl
    simp only [walkLevel, px_eq, hroot]
    simp only [reached] at hv
    cases hs : Table.ent t (index (l + 1) (vpn va)) with
    | none => simp [hs] at hv
    | some s =>
      rw [hs] at hv
      have hsub : ∀ p ∈ tables l s, p ∈ tables (l + 1) t := fun p hp => mem_cons_of_mem _ (mem_below hi hs hp)
      have hns := (below_nodup (nodup_cons.mp hnd).2 hi hs).1
      rw [(he.2 s hs).1, if_pos (Format.pteV_table F _), F.table_pa _ (hph _ (hsub _ (rootPage_mem l s)))]
      obtain ⟨p, i, hw, hf⟩ := ih (he.2 s hs).2 hns (fun p hp => hph p (hsub p hp)) hv
      have hget : get (l + 1) t (vpn va) = get l s (vpn va) := by simp only [Radix.get, hs, bind_some]
      refine ⟨p, i, hw, hsub p hf.page, hget ▸ hf.word, fun f w hval => ?_⟩
      rw [hget] at hval
      have halter : alter f (l + 1) t (vpn va) =
          (Table.set t (index (l + 1) (vpn va)) (some (alter f l s (vpn va))) : Table (Tree α l)) := by
        simp only [alter, hs]
        rfl
      rw [halter]
      have hnd : (tables (l + 1) t ++ []).Nodup := by rwa [append_nil]
      refine h.set hi hs hnd (hf.store f w hval) (rootPage_alter ..) fun q hq _ => store_of_ne ?_
      rintro rfl
      exact hq hf.page

end Find

end Xv6Vfs.Vm.Phys
