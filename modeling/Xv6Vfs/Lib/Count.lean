import Mathlib.Data.List.Nodup
import Mathlib.Logic.Function.Basic

/-! Counting what the slots of a table hold. -/
namespace Xv6Vfs.Count
open Function List

variable {α β : Type*} [DecidableEq β]

/-- How many of the slots `l` of a table hold `b`. -/
def held (l : List α) (g : α → Option β) (b : β) : Nat := (l.filterMap g).count b

theorem held_cons (a : α) (l : List α) (g : α → Option β) (b : β) :
    held (a :: l) g b = held l g b + if g a = some b then 1 else 0 := by
  unfold held
  cases h : g a with
  | none => simp [h]
  | some c => simp [h, count_cons]

theorem held_congr {l : List α} {g g' : α → Option β} (h : ∀ a ∈ l, g a = g' a) (b : β) : held l g b = held l g' b := by
  unfold held
  rw [filterMap_congr h]

/-- Writing one slot takes away what it held and adds what is written. -/
theorem held_update [DecidableEq α] {l : List α} (hl : l.Nodup) (g : α → Option β) {q : α} (hq : q ∈ l)
    (x : Option β) (b : β) :
    held l (update g q x) b + (if g q = some b then 1 else 0) =
      held l g b + if x = some b then 1 else 0 := by
  induction l with
  | nil => simp at hq
  | cons a l ih =>
    obtain ⟨ha, hl⟩ := nodup_cons.mp hl
    rw [held_cons, held_cons]
    by_cases he : q = a
    · subst he
      have h1 : held l (update g q x) b = held l g b := by
        refine held_congr (fun c hc => ?_) b
        have hne : c ≠ q := by
          intro h
          exact ha (h ▸ hc)
        exact update_of_ne hne x g
      rw [h1, update_self]
      omega
    · have h1 := ih hl ((mem_cons.mp hq).resolve_left he)
      rw [update_of_ne (Ne.symm he)]
      omega

theorem held_pos {l : List α} {g : α → Option β} {q : α} {b : β} (hq : q ∈ l) (h : g q = some b) : 0 < held l g b :=
  count_pos_iff.mpr (mem_filterMap.mpr ⟨q, hq, h⟩)

/-- One element of a list less has the property. -/
theorem countP_less {l : List α} (hl : l.Nodup) {p q : α → Bool} {a : α} (ha : a ∈ l) (hp : p a = true)
    (hq : q a = false) (h : ∀ c ∈ l, c ≠ a → q c = p c) : l.countP q + 1 = l.countP p := by
  induction l with
  | nil => cases ha
  | cons c l ih =>
    have hnd := nodup_cons.mp hl
    rw [countP_cons, countP_cons]
    by_cases hc : c = a
    · subst hc
      have hrest : l.countP q = l.countP p := by
        apply countP_congr
        intro b hb
        have hne : b ≠ c := by
          rintro rfl
          exact hnd.1 hb
        rw [h b (mem_cons_of_mem c hb) hne]
      simp [hp, hq, hrest]
    · have hmem := (mem_cons.mp ha).resolve_left (Ne.symm hc)
      have hrest := ih hnd.2 hmem fun b hb => h b (mem_cons_of_mem c hb)
      rw [h c mem_cons_self hc]
      omega

end Xv6Vfs.Count
