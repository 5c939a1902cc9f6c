import Mathlib.Logic.Function.Basic
import Mathlib.Data.Nat.ModEq

/-! A queue in a ring buffer whose two indices count modulo a multiple of the ring's size. Nothing here
depends on the kernel. -/
namespace Xv6Vfs.Ring
open Function List Nat
variable {α : Type*}

/-- The ring of `n` elements holds the queue `l` between the indices `lo` and `hi`, which count modulo
`m`. -/
def Holds (n m : Nat) (ring : Nat → α) (lo hi : Nat) (l : List α) : Prop :=
  ∃ c, lo = c % m ∧ hi = (c + l.length) % m ∧ ∀ i x, l[i]? = some x → ring ((c + i) % n) = x

variable {n m lo hi : Nat} {ring : Nat → α} {l : List α}

theorem Holds.nil (h : lo < m) : Holds n m ring lo lo [] :=
  ⟨lo, (mod_eq_of_lt h).symm, (mod_eq_of_lt h).symm, nofun⟩

theorem Holds.eq_iff (h : Holds n m ring lo hi l) (hl : l.length < m) : lo = hi ↔ l = [] := by
  rcases h with ⟨c, rfl, rfl, _⟩
  constructor
  · intro he
    by_contra hne
    have hpos : 0 < l.length := length_pos_iff.mpr hne
    have hmod : c + 0 ≡ c + l.length [MOD m] := he
    have := Nat.ModEq.add_left_cancel' c hmod
    rw [Nat.ModEq, zero_mod, mod_eq_of_lt hl] at this
    omega
  · rintro rfl
    rfl

theorem Holds.push (h : Holds n m ring lo hi l) (hn : n ∣ m) (hl : l.length < n) (x : α) :
    Holds n m (update ring (hi % n) x) lo ((hi + 1) % m) (l ++ [x]) := by
  rcases h with ⟨c, hlo, hhi, hring⟩
  have hpos : hi % n = (c + l.length) % n := by rw [hhi, mod_mod_of_dvd _ hn]
  refine ⟨c, hlo, ?_, fun i y hy => ?_⟩
  · rw [hhi, mod_add_mod, length_append, length_singleton, Nat.add_assoc]
  · rw [hpos]
    by_cases hi : i < l.length
    · rw [getElem?_append_left hi] at hy
      rw [update_of_ne, hring i y hy]
      intro he
      have hmod : c + i ≡ c + l.length [MOD n] := he
      have := Nat.ModEq.add_left_cancel' c hmod
      rw [Nat.ModEq, mod_eq_of_lt hl, mod_eq_of_lt (by omega)] at this
      omega
    · rw [getElem?_append_right (by omega)] at hy
      have hi' : i - l.length = 0 := by
        by_contra hne
        rw [getElem?_eq_none (by rw [length_singleton]; omega)] at hy
        cases hy
      rw [hi'] at hy
      rw [show i = l.length by omega, update_self]
      exact Option.some.inj hy

theorem Holds.head {x : α} (h : Holds n m ring lo hi (x :: l)) (hn : n ∣ m) : ring (lo % n) = x := by
  rcases h with ⟨c, rfl, _, hring⟩
  rw [mod_mod_of_dvd _ hn]
  exact hring 0 x rfl

theorem Holds.pop {x : α} (h : Holds n m ring lo hi (x :: l)) : Holds n m ring ((lo + 1) % m) hi l := by
  rcases h with ⟨c, hlo, hhi, hring⟩
  refine ⟨c + 1, ?_, ?_, fun i y hy => ?_⟩
  · rw [hlo, mod_add_mod]
  · rw [hhi, length_cons]
    congr 1
    omega
  · rw [show c + 1 + i = c + (i + 1) by omega]
    exact hring (i + 1) y hy

end Xv6Vfs.Ring
