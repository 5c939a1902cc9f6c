import Mathlib.Data.List.Basic

/-! A range that is cut into pieces, where each piece says how long it is. -/
namespace Xv6Vfs
open List

/-- The pieces from an offset to `stop` begin at the listed offsets and have the lengths `len`. -/
inductive Tiles (len : Nat → Nat) (stop : Nat) : Nat → List Nat → Prop where
  | done : Tiles len stop stop []
  | cons {o : Nat} {l : List Nat} : 0 < len o → Tiles len stop (o + len o) l → Tiles len stop o (o :: l)

namespace Tiles

variable {len len' : Nat → Nat} {stop o a b r : Nat} {l l' : List Nat}

section

variable (h : Tiles len stop o l)
include h

theorem le : o ≤ stop := by
  induction h with
  | done => exact Nat.le_refl _
  | cons _ _ ih => omega

theorem bounds (ha : a ∈ l) : o ≤ a ∧ 0 < len a ∧ a + len a ≤ stop := by
  induction h with
  | done => cases ha
  | cons hpos ht ih =>
    cases ha with
    | head => exact ⟨Nat.le_refl _, hpos, ht.le⟩
    | tail _ ha =>
      have := ih ha
      omega

theorem apart (ha : a ∈ l) (hb : b ∈ l) (hne : a ≠ b) : a + len a ≤ b ∨ b + len b ≤ a := by
  induction h with
  | done => cases ha
  | cons hpos ht ih =>
    cases ha with
    | head =>
      cases hb with
      | head => exact absurd rfl hne
      | tail _ hb => exact .inl (ht.bounds hb).1
    | tail _ ha =>
      cases hb with
      | head => exact .inr (ht.bounds ha).1
      | tail _ hb => exact ih ha hb

theorem next (ha : a ∈ l) : a + len a = stop ∨ a + len a ∈ l := by
  induction h with
  | done => cases ha
  | cons hpos ht ih =>
    cases ha with
    | head =>
      cases ht with
      | done => exact .inl rfl
      | cons => exact .inr (mem_cons_of_mem _ mem_cons_self)
    | tail _ ha =>
      cases ih ha with
      | inl hend => exact .inl hend
      | inr hmem => exact .inr (mem_cons_of_mem _ hmem)

theorem congr (hlen : ∀ a ∈ l, len' a = len a) : Tiles len' stop o l := by
  induction h with
  | done => exact .done
  | @cons o l hpos ht ih =>
    have ho := hlen o mem_cons_self
    apply Tiles.cons
    · rwa [ho]
    · rw [ho]
      exact ih fun a ha => hlen a (mem_cons_of_mem _ ha)

theorem unique (h' : Tiles len stop o l') : l = l' := by
  induction h generalizing l' with
  | done =>
    cases h' with
    | done => rfl
    | cons hpos ht =>
      have := ht.le
      omega
  | cons hpos ht ih =>
    cases h' with
    | done =>
      have := ht.le
      omega
    | cons _ ht' => rw [ih ht']

theorem split (ha : a ∈ l) (hr : 0 < r) (hlt : r < len a) (h1 : len' a = r)
    (h2 : len' (a + r) = len a - r) (hlen : ∀ b ∈ l, b ≠ a → len' b = len b) :
    ∃ u v, l = u ++ a :: v ∧ Tiles len' stop o (u ++ a :: (a + r) :: v) := by
  induction h with
  | done => cases ha
  | @cons o l hpos ht ih =>
    by_cases he : o = a
    · subst he
      have hrest : Tiles len' stop (o + len o) l := ht.congr fun b hb => by
        have := (ht.bounds hb).1
        exact hlen b (mem_cons_of_mem _ hb) (by omega)
      have hend : o + r + len' (o + r) = o + len o := by omega
      have hsecond : Tiles len' stop (o + r) ((o + r) :: l) := by
        apply Tiles.cons
        · omega
        · rwa [hend]
      refine ⟨[], l, rfl, .cons (by omega) ?_⟩
      rwa [h1]
    · have ho := hlen o mem_cons_self he
      obtain ⟨u, v, hl, hs⟩ := ih ((mem_cons.mp ha).resolve_left (Ne.symm he))
        fun b hb hne => hlen b (mem_cons_of_mem _ hb) hne
      refine ⟨o :: u, v, by rw [hl]; rfl, .cons (ho ▸ hpos) ?_⟩
      rwa [ho]

end

end Tiles

/-- The offsets at which pieces begin, found by following the lengths. -/
def cuts (len : Nat → Nat) (stop : Nat) : (fuel o : Nat) → List Nat
  | 0, _ => []
  | fuel + 1, o => if o < stop then o :: cuts len stop fuel (o + len o) else []

theorem Tiles.cuts_eq {len : Nat → Nat} {stop o fuel : Nat} {l : List Nat} (h : Tiles len stop o l)
    (hf : stop < o + fuel) : cuts len stop fuel o = l := by
  induction h generalizing fuel with
  | done =>
    cases fuel with
    | zero => omega
    | succ fuel => simp [cuts]
  | cons hpos ht ih =>
    cases fuel with
    | zero =>
      have := ht.le
      omega
    | succ fuel =>
      have := ht.le
      rw [cuts, if_pos (by omega), ih (by omega)]

end Xv6Vfs
