import Mathlib.Logic.Relation
import Mathlib.Data.Finset.Card

/-! Loops that go from state to state by a partial function: over finitely many states a loop ends
unless some state that it reaches leads back to itself. -/
namespace Xv6Vfs.Orbit
variable {α : Type*} {next : α → Option α} {a b c : α}

/-- `n` steps can be taken. -/
def Going (next : α → Option α) : Nat → α → Prop
  | 0, _ => True
  | n + 1, a => ∃ b, next a = some b ∧ Going next n b

abbrev Reach (next : α → Option α) : α → α → Prop := Relation.ReflTransGen fun a b => next a = some b

/-- No state that is reached leads back to itself. -/
def NoCycle (next : α → Option α) (a : α) : Prop := ∀ b c, Reach next a b → next b = some c → ¬ Reach next c b

theorem Going.of_reach (h : Reach next a b) (hb : ∀ n, Going next n b) (n : Nat) : Going next n a := by
  induction h using Relation.ReflTransGen.head_induction_on generalizing n with
  | refl => exact hb n
  | head hstep _ ih =>
    cases n with
    | zero => trivial
    | succ n => exact ⟨_, hstep, ih n⟩

theorem Going.of_cycle (hb : next b = some c) (hc : Reach next c b) (n : Nat) : Going next n b := by
  have key : ∀ n x, Reach next x b → Going next n x := by
    intro n
    induction n with
    | zero => exact fun _ _ => trivial
    | succ n ih =>
      intro x hx
      cases hx.cases_head with
      | inl he => exact he ▸ ⟨c, hb, ih c hc⟩
      | inr hstep =>
        obtain ⟨y, hy, hyb⟩ := hstep
        exact ⟨y, hy, ih y hyb⟩
  exact key n b .refl

theorem Reach.unique (hb : Reach next a b) (hb0 : next b = none) (hc : Reach next a c) (hc0 : next c = none) :
    b = c := by
  have hu : Relator.RightUnique fun a b => next a = some b := fun _ _ _ h h' => Option.some.inj (h.symm.trans h')
  cases Relation.ReflTransGen.total_of_right_unique hu hb hc with
  | inl h =>
    cases h.cases_head with
    | inl he => exact he
    | inr hs =>
      obtain ⟨x, hx, -⟩ := hs
      rw [hb0] at hx
      cases hx
  | inr h =>
    cases h.cases_head with
    | inl he => exact he.symm
    | inr hs =>
      obtain ⟨x, hx, -⟩ := hs
      rw [hc0] at hx
      cases hx

/-- Each step leaves one state behind for good. -/
theorem not_going [DecidableEq α] (n : Nat) (T : Finset α) (hT : ∀ b, Reach next a b → next b ≠ none → b ∈ T)
    (hcard : T.card ≤ n) (hno : NoCycle next a) : ¬ Going next (n + 1) a := by
  rintro ⟨b, hb, hgo⟩
  have ha : a ∈ T := hT a .refl (by rw [hb]; exact Option.some_ne_none b)
  induction n generalizing a b T with
  | zero =>
    rw [Finset.card_eq_zero.mp (Nat.le_zero.mp hcard)] at ha
    exact absurd ha (Finset.notMem_empty a)
  | succ n ih =>
    obtain ⟨c, hc, hgo⟩ := hgo
    have hT' : ∀ x, Reach next b x → next x ≠ none → x ∈ T.erase a := by
      intro x hx hne
      refine Finset.mem_erase.mpr ⟨fun he => ?_, hT x (.head hb hx) hne⟩
      exact hno a b .refl hb (he ▸ hx)
    refine ih (T.erase a) hT' ?_ (fun x y hx => hno x y (.head hb hx)) c hc hgo ?_
    · rw [Finset.card_erase_of_mem ha]
      omega
    · exact hT' b .refl (by rw [hc]; exact Option.some_ne_none c)

theorem going_iff [DecidableEq α] (T : Finset α) (hT : ∀ b, Reach next a b → next b ≠ none → b ∈ T) {n : Nat}
    (hn : T.card < n) : Going next n a ↔ ¬ NoCycle next a := by
  obtain ⟨m, rfl⟩ : ∃ m, n = m + 1 := ⟨n - 1, by omega⟩
  constructor
  · intro hgo hno
    exact not_going m T hT (by omega) hno hgo
  · intro h
    rw [NoCycle] at h
    push Not at h
    obtain ⟨b, c, hb, hc, hcb⟩ := h
    exact Going.of_reach hb (Going.of_cycle hc hcb) (m + 1)

end Xv6Vfs.Orbit
