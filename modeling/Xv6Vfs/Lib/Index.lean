import Mathlib.Logic.Function.Basic
import Mathlib.Data.List.Basic

/-! A map from names, kept in a table whose places hold nothing or a value with its name, and a reader that goes
through the table while it changes. -/
namespace Xv6Vfs
open Function

section Map

variable {P N V : Type*}

/-- The table holds the map, every name in one place. -/
structure Indexes (f : P → Option (V × N)) (M : N → Option V) : Prop where
  sound : ∀ {p v name}, f p = some (v, name) → M name = some v
  found : ∀ {name v}, M name = some v → ∃ p, f p = some (v, name)
  once : ∀ {p q v w name}, f p = some (v, name) → f q = some (w, name) → p = q

variable [DecidableEq P] {f : P → Option (V × N)} {M : N → Option V} {p q : P} {v w : V} {name : N}

theorem update_some_iff {e : Option (V × N)} : update f p e q = some (w, name) ↔
    q = p ∧ e = some (w, name) ∨ q ≠ p ∧ f q = some (w, name) := by
  by_cases h : q = p
  · subst h
    simp
  · simp [h]

variable [DecidableEq N]

theorem Indexes.insert (h : Indexes f M) (hp : f p = none) (hM : M name = none) :
    Indexes (update f p (some (v, name))) (update M name (some v)) where
  sound {q w other} hq := by
    cases update_some_iff.mp hq with
    | inl hnew =>
      cases hnew.2
      exact update_self ..
    | inr hold =>
      have hw := h.sound hold.2
      have hne : other ≠ name := by
        rintro rfl
        rw [hM] at hw
        cases hw
      rw [update_of_ne hne, hw]
  found {other w} hw := by
    by_cases hne : other = name
    · subst hne
      rw [update_self] at hw
      cases hw
      exact ⟨p, update_self ..⟩
    · rw [update_of_ne hne] at hw
      cases h.found hw with
      | intro q hq =>
        refine ⟨q, update_some_iff.mpr (.inr ⟨?_, hq⟩)⟩
        rintro rfl
        rw [hp] at hq
        cases hq
  once {q q' w w' other} hq hq' := by
    have hfresh : ∀ {r u}, f r ≠ some (u, name) := by
      intro r u hr
      have hu := h.sound hr
      rw [hM] at hu
      cases hu
    cases update_some_iff.mp hq with
    | inl hnew =>
      cases hnew.2
      cases update_some_iff.mp hq' with
      | inl hnew' => rw [hnew.1, hnew'.1]
      | inr hold' => exact absurd hold'.2 hfresh
    | inr hold =>
      cases update_some_iff.mp hq' with
      | inl hnew' =>
        cases hnew'.2
        exact absurd hold.2 hfresh
      | inr hold' => exact h.once hold.2 hold'.2

theorem Indexes.erase (h : Indexes f M) (hp : f p = some (v, name)) :
    Indexes (update f p none) (update M name none) where
  sound {q w other} hq := by
    cases update_some_iff.mp hq with
    | inl hnew => cases hnew.2
    | inr hold =>
      have hne : other ≠ name := by
        rintro rfl
        exact hold.1 (h.once hold.2 hp)
      rw [update_of_ne hne, h.sound hold.2]
  found {other w} hw := by
    by_cases hne : other = name
    · subst hne
      rw [update_self] at hw
      cases hw
    · rw [update_of_ne hne] at hw
      cases h.found hw with
      | intro q hq =>
        refine ⟨q, update_some_iff.mpr (.inr ⟨?_, hq⟩)⟩
        rintro rfl
        rw [hp] at hq
        cases hq
        exact hne rfl
  once {q q' w w' other} hq hq' := by
    cases update_some_iff.mp hq with
    | inl hnew => cases hnew.2
    | inr hold =>
      cases update_some_iff.mp hq' with
      | inl hnew' => cases hnew'.2
      | inr hold' => exact h.once hold.2 hold'.2

end Map

section Reader

variable {N V W : Type*}

/-- A reader at `pos` finds the entry at `p`, the first one from there on, and goes on behind it. -/
structure FindsNext (f : Nat → Option (V × N)) (pos p : Nat) (e : V × N) (next : Nat) : Prop where
  le : pos ≤ p
  here : f p = some e
  skipped : ∀ q, pos ≤ q → q < p → f q = none
  lt : p < next
  behind : ∀ q, p < q → q < next → f q = none

variable [DecidableEq N]

/-- A name has a place, and the reader has seen it once if it has passed the place, and not at all otherwise. -/
def Seen (out : V → W) (f : Nat → Option (V × N)) (pos : Nat) (got : List (W × N)) (v : V) (name : N) : Prop :=
  ∃ p, f p = some (v, name) ∧ (got.filter fun e => e.2 = name) = if p < pos then [(out v, name)] else []

variable {out : V → W} {f f' : Nat → Option (V × N)} {M : N → Option V} {pos p next : Nat} {got : List (W × N)}
  {v w : V} {name other : N}

theorem Seen.change (h : Seen out f pos got v name) (hkeep : ∀ p, f p = some (v, name) → f' p = some (v, name)) :
    Seen out f' pos got v name := by
  cases h with
  | intro p hp => exact ⟨p, hkeep p hp.1, hp.2⟩

theorem Seen.read (h : Seen out f pos got v name) (hidx : Indexes f M) (hr : FindsNext f pos p (w, other) next) :
    Seen out f next (got ++ [(out w, other)]) v name := by
  cases h with
  | intro q hq =>
    refine ⟨q, hq.1, ?_⟩
    rw [List.filter_append, hq.2]
    by_cases hname : other = name
    · subst hname
      have hqp := hidx.once hq.1 hr.here
      subst hqp
      have hvw : v = w := congrArg Prod.fst (Option.some.inj (hq.1.symm.trans hr.here))
      rw [if_neg (Nat.not_lt.mpr hr.le), if_pos hr.lt, hvw]
      simp
    · have hqp : q ≠ p := by
        rintro rfl
        exact hname (congrArg Prod.snd (Option.some.inj (hr.here.symm.trans hq.1)))
      have hside : q < next ↔ q < pos := by
        constructor
        · intro hlt
          by_contra hge
          have hnone : f q = none := by
            by_cases hqlt : q < p
            · exact hr.skipped q (Nat.not_lt.mp hge) hqlt
            · exact hr.behind q (by omega) hlt
          rw [hq.1] at hnone
          cases hnone
        · intro hlt
          have hle := hr.le
          have hlt' := hr.lt
          omega
      simp [hname, hside]

end Reader

end Xv6Vfs
