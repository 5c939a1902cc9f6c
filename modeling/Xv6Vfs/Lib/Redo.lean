import Mathlib.Logic.Function.Basic
import Mathlib.Data.List.Nodup

/-! A redo log: blocks are copied to slots, a header names their home addresses, the blocks are
installed and the header is cleared. Nothing here depends on the kernel. -/
namespace Xv6Vfs.Redo
open List
variable {α β : Type*} [DecidableEq α]

/-! ### Writes -/

def put (s : α → β) (w : α × β) : α → β := Function.update s w.1 w.2

def puts (ws : List (α × β)) (s : α → β) : α → β := ws.foldl put s

@[simp] theorem puts_nil (s : α → β) : puts [] s = s := rfl

theorem puts_cons (w : α × β) (ws : List (α × β)) (s : α → β) : puts (w :: ws) s = puts ws (put s w) := rfl

theorem puts_append (u v : List (α × β)) (s : α → β) : puts (u ++ v) s = puts v (puts u s) :=
  foldl_append

theorem puts_of_not_mem {ws : List (α × β)} {s : α → β} {a : α} (h : a ∉ ws.map Prod.fst) : puts ws s a = s a := by
  induction ws generalizing s with
  | nil => rfl
  | cons w ws ih =>
    rw [map_cons, mem_cons, not_or] at h
    rw [puts_cons, ih h.2, put, Function.update_of_ne h.1]

theorem puts_congr {ws : List (α × β)} {s s' : α → β} {a : α} (h : a ∈ ws.map Prod.fst ∨ s a = s' a) :
    puts ws s a = puts ws s' a := by
  induction ws generalizing s s' with
  | nil => exact h.resolve_left not_mem_nil
  | cons w ws ih =>
    rw [puts_cons, puts_cons]
    by_cases hw : a = w.1
    · refine ih (.inr ?_)
      rw [put, put, hw, Function.update_self, Function.update_self]
    · rw [map_cons, mem_cons] at h
      refine ih ?_
      rw [put, put, Function.update_of_ne hw, Function.update_of_ne hw]
      exact h.imp_left fun h => h.resolve_left hw

/-! ### The log -/

/-- Where the log lies and how its header is written. `enc l x` is the header block with content `x`
after the addresses `l` have been stored in it. -/
structure Area (α β : Type*) where
  head : α
  slot : Nat → α
  cap : Nat
  enc : List α → β → β
  dec : β → List α
  Stored : α → Prop
  slot_ne_head : ∀ i, slot i ≠ head
  slot_inj : ∀ i j, slot i = slot j → i = j
  dec_enc : ∀ l x, l.length ≤ cap → (∀ a ∈ l, Stored a) → dec (enc l x) = l
  enc_nil : ∀ x, enc [] (enc [] x) = enc [] x

variable (L : Area α β)

/-- An address outside the log. -/
def Area.Home (a : α) : Prop := a ≠ L.head ∧ ∀ i, i < L.cap → a ≠ L.slot i

/-- Writes to the slots from number `i` on. -/
def copies : (i : Nat) → List β → List (α × β)
  | _, [] => []
  | i, x :: xs => (L.slot i, x) :: copies (i + 1) xs

/-- Writes of the slots from number `i` on to home addresses. -/
def installs (s : α → β) : (i : Nat) → List α → List (α × β)
  | _, [] => []
  | i, a :: l => (a, s (L.slot i)) :: installs s (i + 1) l

/-- The writes of a commit of `t`, if the header block holds `x`. -/
def commitSeq (t : List (α × β)) (x : β) : List (α × β) :=
  copies L 0 (t.map Prod.snd) ++ (L.head, L.enc (t.map Prod.fst) x) ::
    (t ++ [(L.head, L.enc [] (L.enc (t.map Prod.fst) x))])

/-- A transaction for which the log has room. -/
structure Fits (t : List (α × β)) : Prop where
  length : t.length ≤ L.cap
  stored : ∀ w ∈ t, L.Stored w.1
  home : ∀ w ∈ t, L.Home w.1

variable {L}

omit [DecidableEq α] in
theorem mem_copies {i : Nat} {xs : List β} {a : α} (h : a ∈ (copies L i xs).map Prod.fst) :
    ∃ j, i ≤ j ∧ j < i + xs.length ∧ a = L.slot j := by
  induction xs generalizing i with
  | nil => cases h
  | cons x xs ih =>
    rw [copies, map_cons, mem_cons] at h
    cases h with
    | inl h => exact ⟨i, Nat.le_refl i, by simp, h⟩
    | inr h =>
      rcases ih h with ⟨j, h1, h2, h3⟩
      exact ⟨j, by omega, by rw [length_cons]; omega, h3⟩

omit [DecidableEq α] in
theorem installs_congr {s s' : α → β} {i : Nat} {l : List α}
    (h : ∀ j, i ≤ j → j < i + l.length → s (L.slot j) = s' (L.slot j)) : installs L s i l = installs L s' i l := by
  induction l generalizing i with
  | nil => rfl
  | cons a l ih =>
    rw [length_cons] at h
    rw [installs, installs, h i (Nat.le_refl i) (by omega), ih fun j h1 h2 => h j (by omega) (by omega)]

theorem installs_copies (s : α → β) (i : Nat) (t : List (α × β)) :
    installs L (puts (copies L i (t.map Prod.snd)) s) i (t.map Prod.fst) = t := by
  induction t generalizing i s with
  | nil => rfl
  | cons w t ih =>
    simp only [map_cons, copies, installs, puts_cons]
    have h : L.slot i ∉ (copies L (i + 1) (t.map Prod.snd)).map Prod.fst := fun h => by
      rcases mem_copies h with ⟨j, h1, _, h3⟩
      have := L.slot_inj _ _ h3
      omega
    rw [ih, puts_of_not_mem h, put, Function.update_self]

omit [DecidableEq α] in
theorem Area.Home.not_mem_copies {a : α} (ha : L.Home a) {xs : List β} (hx : xs.length ≤ L.cap) :
    a ∉ (copies L 0 xs).map Prod.fst := fun h => by
  rcases mem_copies h with ⟨j, _, h2, h3⟩
  exact ha.2 j (by omega) h3

omit [DecidableEq α] in
theorem head_not_mem_copies (i : Nat) (xs : List β) : L.head ∉ (copies L i xs).map Prod.fst := fun h => by
  rcases mem_copies h with ⟨j, _, _, h3⟩
  exact L.slot_ne_head j h3.symm

theorem puts_home {ws : List (α × β)} (h : ∀ a ∈ ws.map Prod.fst, L.Home a) (s : α → β) :
    puts ws s L.head = s L.head ∧ ∀ i, i < L.cap → puts ws s (L.slot i) = s (L.slot i) :=
  ⟨puts_of_not_mem fun hm => (h _ hm).1 rfl, fun i hi => puts_of_not_mem fun hm => (h _ hm).2 i hi rfl⟩

/-! ### Commits -/

section Commit

variable {t : List (α × β)} (ht : Fits L t) (s : α → β)

/-- Copies and header are written, nothing is installed. -/
def logged (L : Area α β) (t : List (α × β)) (s : α → β) : α → β :=
  put (puts (copies L 0 (t.map Prod.snd)) s) (L.head, L.enc (t.map Prod.fst) (s L.head))

include ht

omit [DecidableEq α] in
theorem Fits.fst_home : ∀ a ∈ t.map Prod.fst, L.Home a := fun a ha => by
  rcases mem_map.mp ha with ⟨w, hw, rfl⟩
  exact ht.home w hw

theorem Fits.copies_home {k : Nat} {a : α} (ha : L.Home a) : puts ((copies L 0 (t.map Prod.snd)).take k) s a = s a := by
  have hlen : (t.map Prod.snd).length ≤ L.cap := by
    rw [length_map]
    exact ht.length
  refine puts_of_not_mem fun h => ha.not_mem_copies hlen ?_
  rw [map_take] at h
  exact mem_of_mem_take h

omit ht in
theorem installs_logged : installs L (logged L t s) 0 (t.map Prod.fst) = t := by
  have h : installs L (logged L t s) 0 (t.map Prod.fst) =
      installs L (puts (copies L 0 (t.map Prod.snd)) s) 0 (t.map Prod.fst) :=
    installs_congr fun j _ _ => by rw [logged, put, Function.update_of_ne (L.slot_ne_head j)]
  rw [h, installs_copies]

theorem Fits.commit_home (x : β) {a : α} (ha : L.Home a) : puts (commitSeq L t x) s a = puts t s a := by
  have h := ht.copies_home s (k := (copies L 0 (t.map Prod.snd)).length) ha
  rw [take_length] at h
  rw [commitSeq, puts_append, puts_cons, puts_append, puts_cons, puts_nil, put, Function.update_of_ne ha.1]
  refine puts_congr (.inr ?_)
  rw [put, Function.update_of_ne ha.1, h]

end Commit

end Xv6Vfs.Redo
