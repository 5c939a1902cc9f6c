import Mathlib.Algebra.Group.Nat.Defs
import Mathlib.Logic.Function.Basic
import Mathlib.Data.List.Range
import Mathlib.Data.List.Perm.Basic

/-! Radix trees of page-table pages: every table has 512 entries and a page of its own, taken
from a list of free pages. A tree of level `l` maps numbers below `512 ^ (l + 1)`. -/
namespace Xv6Vfs.Radix
open Function List Option Nat

variable {i l v : Nat} {free free' : List Nat}

def fanout : Nat := 512

structure Table (α : Type) where
  page : Nat
  ent : Nat → Option α

def Table.set {α : Type} (t : Table α) (i : Nat) (x : Option α) : Table α :=
  { t with ent := update t.ent i x }

/-- The type carries the shape: tables above, values of type `α` in the lowest tables. -/
def Tree (α : Type) : Nat → Type
  | 0 => Table α
  | l + 1 => Table (Tree α l)

/-- Index of key `v` in a table of level `l`. -/
def index (l v : Nat) : Nat := v / fanout ^ l % fanout

section Tree

variable {α : Type}

def empty : (l : Nat) → Nat → Tree α l
  | 0, p => (⟨p, fun _ => none⟩ : Table α)
  | l + 1, p => (⟨p, fun _ => none⟩ : Table (Tree α l))

def get : (l : Nat) → Tree α l → Nat → Option α
  | 0, (t : Table α), v => t.ent (index 0 v)
  | l + 1, (t : Table (Tree α l)), v => (t.ent (index (l + 1) v)).bind fun s => get l s v

/-- All tables on the way to `v` exist. -/
def reached : (l : Nat) → Tree α l → Nat → Bool
  | 0, _, _ => true
  | l + 1, (t : Table (Tree α l)), v =>
    match t.ent (index (l + 1) v) with
    | none => false
    | some s => reached l s v

/-- Outcome of an insertion: the entry is taken, no page was left for a table, or done. -/
inductive Inserted (β : Type) where
  | remap
  | full (t : β) (free : List Nat)
  | done (t : β) (free : List Nat)

def Inserted.lift {β γ : Type} (f : β → γ) : Inserted β → Inserted γ
  | .remap => .remap
  | .full t free => .full (f t) free
  | .done t free => .done (f t) free

/-- Missing tables on the way are made from free pages. -/
def insert : (l : Nat) → Tree α l → Nat → α → List Nat → Inserted (Tree α l)
  | 0, (t : Table α), v, a, free =>
    match t.ent (index 0 v) with
    | some _ => .remap
    | none => .done (t.set (index 0 v) (some a)) free
  | l + 1, (t : Table (Tree α l)), v, a, free =>
    match t.ent (index (l + 1) v) with
    | some s => (insert l s v a free).lift fun s' => t.set (index (l + 1) v) (some s')
    | none =>
      match free with
      | [] => .full t []
      | p :: free' =>
        (insert l (empty l p) v a free').lift fun s' => t.set (index (l + 1) v) (some s')

/-- Change the value at `v`, if there is one. -/
def alter (f : α → Option α) : (l : Nat) → Tree α l → Nat → Tree α l
  | 0, (t : Table α), v => t.set (index 0 v) ((t.ent (index 0 v)).bind f)
  | l + 1, (t : Table (Tree α l)), v =>
    match t.ent (index (l + 1) v) with
    | none => t
    | some s => t.set (index (l + 1) v) (some (alter f l s v))

/-- What the entries of a table hold, in order. -/
def below {β γ : Type} (f : β → List γ) (ent : Nat → Option β) : List γ :=
  (List.range fanout).flatMap fun i => (ent i).elim [] f

def leaves : (l : Nat) → Tree α l → List α
  | 0, (t : Table α) => below (fun a => [a]) t.ent
  | l + 1, (t : Table (Tree α l)) => below (leaves l) t.ent

def tables : (l : Nat) → Tree α l → List Nat
  | 0, (t : Table α) => [t.page]
  | l + 1, (t : Table (Tree α l)) => t.page :: below (tables l) t.ent

/-- Free all tables; undefined if a value is left. -/
def freewalk : (l : Nat) → Tree α l → List Nat → Option (List Nat)
  | 0, (t : Table α), free =>
    if (List.range fanout).all fun i => (t.ent i).isNone then some (t.page :: free) else none
  | l + 1, (t : Table (Tree α l)), free =>
    ((List.range fanout).foldlM (fun free i =>
      match t.ent i with
      | none => some free
      | some s => freewalk l s free) free).map fun free' => t.page :: free'

end Tree

theorem perm_swap_tail {γ : Type} (a b c : List γ) : (a ++ b ++ c).Perm (a ++ c ++ b) := by
  rw [append_assoc, append_assoc]
  exact List.Perm.append_left _ perm_append_comm

section Accounts

variable {β γ : Type} {f : β → List γ} {ent : Nat → Option β}

/-- Replacing one entry exchanges its contribution. -/
theorem below_update (f : β → List γ) (ent : Nat → Option β) (hi : i < fanout) (x : Option β) :
    (below f (update ent i x) ++ (ent i).elim [] f).Perm
      (below f ent ++ x.elim [] f) := by
  obtain ⟨l1, l2, hl⟩ := append_of_mem (mem_range.mpr hi)
  have hnd : (l1 ++ i :: l2).Nodup := hl ▸ nodup_range
  have hout : ∀ l : List Nat, i ∉ l →
      l.flatMap (fun j => (update ent i x j).elim [] f) =
        l.flatMap fun j => (ent j).elim [] f := by
    intro l hm
    refine flatMap_congr fun j hj => ?_
    have hne : j ≠ i := fun he => hm (he ▸ hj)
    rw [update_of_ne hne]
  have h1 : i ∉ l1 := fun hm => (nodup_append.mp hnd).2.2 i hm i mem_cons_self rfl
  have h2 : i ∉ l2 := (nodup_cons.mp (nodup_append.mp hnd).2.1).1
  simp only [below, hl, flatMap_append, flatMap_cons, hout l1 h1, hout l2 h2, update_self, append_assoc]
  refine List.Perm.append_left _ ?_
  calc List.Perm (x.elim [] f ++ (List.flatMap (fun j => (ent j).elim [] f) l2 ++ (ent i).elim [] f))
        ((List.flatMap (fun j => (ent j).elim [] f) l2 ++ (ent i).elim [] f) ++ x.elim [] f) :=
        perm_append_comm
    List.Perm _ (((ent i).elim [] f ++ List.flatMap (fun j => (ent j).elim [] f) l2) ++ x.elim [] f) :=
        List.Perm.append_right _ perm_append_comm
    List.Perm _ ((ent i).elim [] f ++ (List.flatMap (fun j => (ent j).elim [] f) l2 ++ x.elim [] f)) := by
        rw [append_assoc]

end Accounts

section Keys

/-- Two keys that lead to the same entry of a tree of level `l`. -/
def Same (l v w : Nat) : Prop := v % fanout ^ (l + 1) = w % fanout ^ (l + 1)

instance (l v w : Nat) : Decidable (Same l v w) := inferInstanceAs (Decidable (_ = _))

theorem index_lt (l v : Nat) : index l v < fanout := mod_lt _ (by decide)

theorem same_zero (v w : Nat) : Same 0 v w ↔ index 0 v = index 0 w := by
  simp [Same, index]

theorem same_succ (l v w : Nat) : Same (l + 1) v w ↔ index (l + 1) v = index (l + 1) w ∧ Same l v w := by
  have hpos : 0 < fanout ^ (l + 1) := Nat.pow_pos (by decide)
  have hv := mod_lt v hpos
  have hw := mod_lt w hpos
  have h : ∀ x, x % fanout ^ (l + 2) = x % fanout ^ (l + 1) + fanout ^ (l + 1) * index (l + 1) x :=
    fun x => by rw [Nat.pow_succ fanout (l + 1), mod_mul]; rfl
  unfold Same
  rw [h v, h w]
  constructor
  · intro he
    have h1 : (v % fanout ^ (l + 1) + fanout ^ (l + 1) * index (l + 1) v) / fanout ^ (l + 1) =
        (w % fanout ^ (l + 1) + fanout ^ (l + 1) * index (l + 1) w) / fanout ^ (l + 1) := by rw [he]
    rw [add_mul_div_left _ _ hpos, add_mul_div_left _ _ hpos, div_eq_of_lt hv,
      div_eq_of_lt hw, Nat.zero_add, Nat.zero_add] at h1
    refine ⟨h1, ?_⟩
    rw [h1] at he
    exact Nat.add_right_cancel he
  · rintro ⟨h1, h2⟩
    rw [h1, h2]

end Keys

section Operations

variable {α : Type}

@[simp] theorem get_empty (l p v : Nat) : get l (empty l p : Tree α l) v = none := by
  cases l <;> rfl

theorem get_set (t : Table (Tree α l)) (i : Nat) (x : Option (Tree α l)) (w : Nat) :
    get (l + 1) (t.set i x : Table (Tree α l)) w =
      if index (l + 1) w = i then x.bind (fun s => get l s w) else get (l + 1) t w := by
  by_cases h : index (l + 1) w = i
  · subst h
    simp [get, Table.set]
  · simp [get, Table.set, h]

@[simp] theorem below_none {β γ : Type} (f : β → List γ) : below f (fun _ => none) = [] := by
  simp [below]

@[simp] theorem leaves_empty (l p : Nat) : leaves l (empty l p : Tree α l) = [] := by
  cases l <;> simp [leaves, empty]

@[simp] theorem tables_empty (l p : Nat) : tables l (empty l p : Tree α l) = [p] := by
  cases l <;> simp [tables, empty]

/-- From `t` and `free` to `t'` and `free'` the values `new` came in, and free pages became
tables. -/
structure Grown (l : Nat) (t : Tree α l) (free : List Nat) (t' : Tree α l) (free' : List Nat)
    (new : List α) : Prop where
  values : (leaves l t').Perm (new ++ leaves l t)
  pages : (tables l t' ++ free').Perm (tables l t ++ free)

theorem Grown.set {t : Table (Tree α l)} (hi : i < fanout) {s s' : Tree α l} {new : List α}
    (h : Grown l s free s' free' new) (hs : t.ent i = some s) :
    Grown (l + 1) (t : Tree α (l + 1)) free (t.set i (some s') : Table (Tree α l)) free' new := by
  have h1 := below_update (leaves l) t.ent hi (some s')
  have h2 := below_update (tables l) t.ent hi (some s')
  rw [hs] at h1 h2
  simp only [elim_some] at h1 h2
  constructor
  · refine (perm_append_right_iff (leaves l s)).mp ?_
    calc List.Perm (below (leaves l) (update t.ent i (some s')) ++ leaves l s)
          (below (leaves l) t.ent ++ leaves l s') := h1
      List.Perm _ (below (leaves l) t.ent ++ (new ++ leaves l s)) := List.Perm.append_left _ h.values
      List.Perm _ (new ++ below (leaves l) t.ent ++ leaves l s) := by
        rw [← append_assoc]
        exact List.Perm.append_right _ perm_append_comm
  · have h3 : (below (tables l) (update t.ent i (some s')) ++ free').Perm
        (below (tables l) t.ent ++ free) := by
      refine (perm_append_right_iff (tables l s)).mp ?_
      calc
        List.Perm (below (tables l) (update t.ent i (some s')) ++ free' ++ tables l s)
            (below (tables l) (update t.ent i (some s')) ++ tables l s ++ free') :=
          perm_swap_tail _ _ _
        List.Perm _ (below (tables l) t.ent ++ tables l s' ++ free') := List.Perm.append_right _ h2
        List.Perm _ (below (tables l) t.ent ++ (tables l s ++ free)) := by
          rw [append_assoc]
          exact List.Perm.append_left _ h.pages
        List.Perm _ (below (tables l) t.ent ++ free ++ tables l s) := by
          rw [append_assoc]
          exact List.Perm.append_left _ perm_append_comm
    exact h3.cons t.page

theorem Grown.new {t : Table (Tree α l)} (hi : i < fanout) {p : Nat} {s' : Tree α l} {new : List α}
    (h : Grown l (empty l p) free s' free' new) (hs : t.ent i = none) :
    Grown (l + 1) (t : Tree α (l + 1)) (p :: free) (t.set i (some s') : Table (Tree α l)) free' new := by
  have h1 := below_update (leaves l) t.ent hi (some s')
  have h2 := below_update (tables l) t.ent hi (some s')
  have hl := h.values
  have ht := h.pages
  rw [hs] at h1 h2
  simp only [elim_some, elim_none, append_nil] at h1 h2
  rw [leaves_empty, append_nil] at hl
  rw [tables_empty] at ht
  constructor
  · exact (h1.trans (List.Perm.append_left _ hl)).trans perm_append_comm
  · have h3 : (below (tables l) (update t.ent i (some s')) ++ free').Perm
        (below (tables l) t.ent ++ p :: free) := by
      calc List.Perm (below (tables l) (update t.ent i (some s')) ++ free')
            (below (tables l) t.ent ++ tables l s' ++ free') := List.Perm.append_right _ h2
        List.Perm _ (below (tables l) t.ent ++ (p :: free)) := by
          rw [append_assoc]
          exact List.Perm.append_left _ ht
    exact h3.cons t.page

theorem Grown.refl (t : Tree α l) (free : List Nat) : Grown l t free t free [] :=
  ⟨List.Perm.refl _, List.Perm.refl _⟩

/-- What an insertion does: it finds the entry taken, it fails for want of a page and leaves the tables it
made, or it adds the value and takes at most one page for each level. -/
def Inserts (l : Nat) (t : Tree α l) (v : Nat) (a : α) (free : List Nat) : Inserted (Tree α l) → Prop
  | .remap => (get l t v).isSome
  | .full t' free' => get l t v = none ∧ Grown l t free t' free' [] ∧ (∀ w, get l t' w = get l t w) ∧
      free.length < l
  | .done t' free' => get l t v = none ∧ Grown l t free t' free' [a] ∧
      (∀ w, get l t' w = if Same l v w then some a else get l t w) ∧ free.length ≤ free'.length + l

/-- An insertion below entry `v` of a table, which stands for the tree `s`. -/
theorem Inserts.lift {t : Table (Tree α l)} {a : α} {s : Tree α l} {free0 : List Nat} {r : Inserted (Tree α l)}
    (h : Inserts l s v a free r) (hs : ∀ w, (t.ent (index (l + 1) v)).bind (fun s => get l s w) = get l s w)
    (hg : ∀ s' free' new, Grown l s free s' free' new →
      Grown (l + 1) t free0 (t.set (index (l + 1) v) (some s') : Table (Tree α l)) free' new)
    (hlen : free0.length ≤ free.length + 1) :
    Inserts (l + 1) t v a free0 (r.lift fun s' => (t.set (index (l + 1) v) (some s') : Table (Tree α l))) := by
  have hin : ∀ w, index (l + 1) w = index (l + 1) v → get (l + 1) t w = get l s w := fun w hw => by
    rw [get, hw, hs]
  cases r with
  | remap => exact (congrArg Option.isSome (hin v rfl)).trans h
  | full s' free' =>
    obtain ⟨h1, h2, h3, h4⟩ := h
    refine ⟨(hin v rfl).trans h1, hg _ _ _ h2, fun w => (get_set t _ _ w).trans ?_, by omega⟩
    by_cases hw : index (l + 1) w = index (l + 1) v
    · rw [if_pos hw, bind_some, h3, hin w hw]
    · rw [if_neg hw]
  | done s' free' =>
    obtain ⟨h1, h2, h3, h4⟩ := h
    refine ⟨(hin v rfl).trans h1, hg _ _ _ h2, fun w => (get_set t _ _ w).trans ?_, by omega⟩
    by_cases hw : index (l + 1) w = index (l + 1) v
    · rw [if_pos hw, bind_some, h3, hin w hw]
      simp only [same_succ, hw, true_and]
    · rw [if_neg hw, if_neg (fun hx => hw ((same_succ l v w).mp hx).1.symm)]

theorem insert_spec (l : Nat) (t : Tree α l) (v : Nat) (a : α) (free : List Nat) :
    Inserts l t v a free (insert l t v a free) := by
  induction l generalizing free with
  | zero =>
    simp only [insert]
    cases hs : Table.ent t (index 0 v) with
    | some x => simp [Inserts, get, hs]
    | none =>
      refine ⟨hs, ⟨?_, List.Perm.refl _⟩, fun w => ?_, Nat.le_refl _⟩
      · have h1 := below_update (fun a => [a]) (Table.ent t) (index_lt 0 v) (some a)
        rw [hs] at h1
        simp only [elim_some, elim_none, append_nil] at h1
        exact h1.trans perm_append_comm
      · by_cases hw : index 0 v = index 0 w
        · rw [if_pos ((same_zero v w).mpr hw)]
          simp [get, Table.set, hw]
        · rw [if_neg (fun hx => hw ((same_zero v w).mp hx))]
          exact update_of_ne (Ne.symm hw) _ _
  | succ l ih =>
    simp only [insert]
    cases hs : Table.ent t (index (l + 1) v) with
    | some s =>
      refine (ih s free).lift (fun w => ?_) (fun _ _ _ h => h.set (index_lt _ v) hs) (le_succ _)
      rw [hs, bind_some]
    | none =>
      cases free with
      | nil => exact ⟨by simp [get, hs], Grown.refl _ _, fun _ => rfl, succ_pos l⟩
      | cons p free =>
        refine (ih (empty l p) free).lift (fun w => ?_) (fun _ _ _ h => h.new (index_lt _ v) hs) (Nat.le_refl _)
        rw [hs, bind_none, get_empty]

theorem insert_remap (l : Nat) (t : Tree α l) (v : Nat) (a : α) (free : List Nat) :
    insert l t v a free = .remap ↔ (get l t v).isSome := by
  have h := insert_spec l t v a free
  cases hr : insert l t v a free with
  | remap =>
    rw [hr] at h
    exact ⟨fun _ => h, fun _ => rfl⟩
  | full t' free' =>
    rw [hr] at h
    simp [h.1]
  | done t' free' =>
    rw [hr] at h
    simp [h.1]

theorem insert_done {t t' : Tree α l} {a : α} (h : insert l t v a free = .done t' free') :
    Grown l t free t' free' [a] ∧
      ∀ w, get l t' w = if Same l v w then some a else get l t w := by
  have h1 := h ▸ insert_spec l t v a free
  exact ⟨h1.2.1, h1.2.2.1⟩

theorem insert_full {t t' : Tree α l} {a : α} (h : insert l t v a free = .full t' free') :
    Grown l t free t' free' [] ∧ (∀ w, get l t' w = get l t w) ∧ free.length < l :=
  (h ▸ insert_spec l t v a free).2

theorem insert_done_length {t t' : Tree α l} {a : α} (h : insert l t v a free = .done t' free') :
    free.length ≤ free'.length + l :=
  (h ▸ insert_spec l t v a free).2.2.2

theorem alter_get (f : α → Option α) (t : Tree α l) (v w : Nat) :
    get l (alter f l t v) w = if Same l v w then (get l t v).bind f else get l t w := by
  induction l with
  | zero =>
    by_cases hw : index 0 v = index 0 w
    · rw [if_pos ((same_zero v w).mpr hw)]
      simp [get, alter, Table.set, hw]
    · rw [if_neg (fun hx => hw ((same_zero v w).mp hx))]
      exact update_of_ne (Ne.symm hw) _ _
  | succ l ih =>
    simp only [alter]
    split
    case h_1 hs =>
      have hnone : get (l + 1) t v = none := by simp only [get, hs, bind_none]
      by_cases hsame : Same (l + 1) v w
      · have hi := ((same_succ l v w).mp hsame).1
        rw [if_pos hsame, hnone, bind_none]
        simp only [get, ← hi, hs, bind_none]
      · rw [if_neg hsame]
    case h_2 s hs =>
      refine (get_set (l := l) t (index (l + 1) v) (some (alter f l s v)) w).trans ?_
      have hv : get (l + 1) t v = get l s v := by simp only [get, hs, bind_some]
      by_cases hw : index (l + 1) w = index (l + 1) v
      · have hw' : get (l + 1) t w = get l s w := by simp only [get, hw, hs, bind_some]
        rw [if_pos hw, bind_some, ih s, hv, hw']
        by_cases hsame : Same l v w
        · rw [if_pos hsame, if_pos ((same_succ l v w).mpr ⟨hw.symm, hsame⟩)]
        · rw [if_neg hsame, if_neg (fun hx => hsame ((same_succ l v w).mp hx).2)]
      · rw [if_neg hw, if_neg (fun hx => hw ((same_succ l v w).mp hx).1.symm)]

theorem alter_accounts (f : α → Option α) (t : Tree α l) (v : Nat) :
    (leaves l (alter f l t v) ++ (get l t v).toList).Perm
      (leaves l t ++ ((get l t v).bind f).toList) ∧
    (tables l (alter f l t v)).Perm (tables l t) := by
  induction l with
  | zero =>
    have h := below_update (fun a => [a]) (Table.ent t) (index_lt 0 v)
      ((Table.ent t (index 0 v)).bind f)
    have hl : ∀ x : Option α, (x.elim [] fun a => [a]) = x.toList := fun x => by cases x <;> rfl
    rw [hl, hl] at h
    exact ⟨h, List.Perm.refl _⟩
  | succ l ih =>
    simp only [alter]
    split
    case h_1 hs =>
      have hnone : get (l + 1) t v = none := by simp only [get, hs, bind_none]
      rw [hnone]
      exact ⟨List.Perm.refl _, List.Perm.refl _⟩
    case h_2 s hs =>
      have hv : get (l + 1) t v = get l s v := by simp only [get, hs, bind_some]
      obtain ⟨ih1, ih2⟩ := ih s
      have h1 := below_update (leaves l) (Table.ent t) (index_lt (l + 1) v) (some (alter f l s v))
      have h2 := below_update (tables l) (Table.ent t) (index_lt (l + 1) v) (some (alter f l s v))
      rw [hs] at h1 h2
      simp only [elim_some] at h1 h2
      rw [hv]
      constructor
      · refine (perm_append_right_iff (leaves l s)).mp ((perm_swap_tail _ _ _).trans ?_)
        calc
          List.Perm _ (below (leaves l) (Table.ent t) ++ leaves l (alter f l s v) ++ (get l s v).toList) :=
            List.Perm.append_right _ h1
          List.Perm _ (below (leaves l) (Table.ent t) ++ (leaves l s ++ ((get l s v).bind f).toList)) := by
            rw [append_assoc]
            exact List.Perm.append_left _ ih1
          List.Perm _ (below (leaves l) (Table.ent t) ++ ((get l s v).bind f).toList ++ leaves l s) := by
            rw [← append_assoc]
            exact perm_swap_tail _ _ _
      · refine List.Perm.cons _ ((perm_append_right_iff (tables l s)).mp ?_)
        exact h2.trans (List.Perm.append_left _ ih2)

theorem reached_of_get {t : Tree α l} {a : α} (hg : get l t v = some a) : reached l t v = true := by
  induction l with
  | zero => rfl
  | succ l ih =>
    simp only [get] at hg
    obtain ⟨t', h1, h2⟩ := bind_eq_some_iff.mp hg
    simp only [reached, h1]
    exact ih h2

theorem get_congr (t : Tree α l) {w : Nat} (h : Same l v w) : get l t v = get l t w := by
  induction l with
  | zero => simp only [get, (same_zero v w).mp h]
  | succ l ih =>
    obtain ⟨h1, h2⟩ := (same_succ l v w).mp h
    simp only [get, h1]
    exact congrArg _ (funext fun s => ih s h2)

theorem leaves_nil (t : Tree α l) (h : ∀ w, get l t w = none) : leaves l t = [] := by
  induction l with
  | zero =>
    refine flatMap_eq_nil_iff.mpr fun i hi => ?_
    have h1 := h i
    have h2 : index 0 i = i := by
      simpa [index] using mod_eq_of_lt (mem_range.mp hi)
    simp only [get, h2] at h1
    rw [h1, elim_none]
  | succ l ih =>
    refine flatMap_eq_nil_iff.mpr fun i hi => ?_
    cases hs : Table.ent t i with
    | none => rfl
    | some s =>
      refine ih s fun w => ?_
      have hpos : 0 < fanout ^ (l + 1) := Nat.pow_pos (by decide)
      have hi : i < fanout := mem_range.mp hi
      have h1 : index (l + 1) (w % fanout ^ (l + 1) + fanout ^ (l + 1) * i) = i := by
        rw [index, add_mul_div_left _ _ hpos, div_eq_of_lt (mod_lt w hpos), Nat.zero_add, mod_eq_of_lt hi]
      have h2 : Same l (w % fanout ^ (l + 1) + fanout ^ (l + 1) * i) w := by
        rw [Same, add_mul_mod_self_left, mod_mod]
      have h3 := h (w % fanout ^ (l + 1) + fanout ^ (l + 1) * i)
      simp only [get, h1, hs, bind_some] at h3
      rw [← get_congr s h2, h3]

theorem freewalk_spec (t : Tree α l) (free : List Nat) (h : leaves l t = []) :
    ∃ free', freewalk l t free = some free' ∧ free'.Perm (tables l t ++ free) := by
  induction l generalizing free with
  | zero =>
    have h1 : ((List.range fanout).all fun i => (Table.ent t i).isNone) = true := by
      refine all_eq_true.mpr fun i hi => ?_
      have h2 := flatMap_eq_nil_iff.mp h i hi
      cases hs : Table.ent t i with
      | none => rfl
      | some a => simp [hs] at h2
    exact ⟨_, if_pos h1, List.Perm.refl _⟩
  | succ l ih =>
    -- The loop over the entries, for any list of indices.
    have hloop : ∀ (is : List Nat) (free : List Nat),
        (∀ i ∈ is, (Table.ent t i).elim [] (leaves l) = []) →
        ∃ free', is.foldlM (fun free i =>
          match Table.ent t i with
          | none => some free
          | some s => freewalk l s free) free = some free' ∧
          free'.Perm (is.flatMap (fun i => (Table.ent t i).elim [] (tables l)) ++ free) := by
      intro is
      induction is with
      | nil => exact fun free _ => ⟨free, rfl, List.Perm.refl _⟩
      | cons i is ihl =>
        intro free hall
        have htail := fun free => ihl free fun j hj => hall j (mem_cons_of_mem i hj)
        rw [foldlM_cons, flatMap_cons]
        cases hs : Table.ent t i with
        | none => exact htail free
        | some s =>
          have hnil := hall i mem_cons_self
          rw [hs, elim_some] at hnil
          obtain ⟨free1, h1, h2⟩ := ih s free hnil
          obtain ⟨free2, h3, h4⟩ := htail free1
          refine ⟨free2, ?_, ?_⟩
          · exact bind_eq_some_iff.mpr ⟨free1, h1, h3⟩
          · refine h4.trans ((List.Perm.append_left _ h2).trans ?_)
            rw [elim_some, ← append_assoc]
            exact List.Perm.append_right _ perm_append_comm
    obtain ⟨free', h1, h2⟩ := hloop (List.range fanout) free (flatMap_eq_nil_iff.mp h)
    exact ⟨Table.page t :: free', congrArg (Option.map _) h1, h2.cons _⟩

end Operations

end Xv6Vfs.Radix
