import Mathlib.Algebra.Group.Nat.Defs
import Xv6Vfs.Vfs.Components

/-! `skipelem` on the bytes of memory: pointers, the 256-byte buffer and `int len`. -/
namespace Xv6Vfs.Vfs
open List Option Nat

variable {n : Nat} {w : List UInt8}

/-- `while(go(*p)) p++`. -/
def scanBytes (go : UInt8 → Bool) (mem : Nat → UInt8) : (fuel p : Nat) → Option Nat
  | 0, _ => none
  | fuel + 1, p => if go (mem p) then scanBytes go mem fuel (p + 1) else some p

/-- `VDIRSIZ` -/
def vdirsiz : Nat := 256

/-- `len`, an `int`, for a component of `n` bytes. -/
def elemLen (n : Nat) : Int := if (vdirsiz - 1 : Int) ≤ Int.bmod n (2 ^ 32) then vdirsiz - 1 else Int.bmod n (2 ^ 32)

/-- The rest of the path or 0, and the buffer `name`. Undefined where `memmove` gets a negative length, which it
takes for more than 2 GiB. -/
def skipelemAt (mem : Nat → UInt8) (fuel path : Nat) (name : Nat → UInt8) : Option (Option Nat × (Nat → UInt8)) :=
  (scanBytes (· = slash) mem fuel path).bind fun s =>
    if mem s = 0 then some (none, name)
    else (scanBytes (fun b => b ≠ slash ∧ b ≠ 0) mem fuel s).bind fun e =>
      if elemLen (e - s) < 0 then none
      else
        let len := (elemLen (e - s)).toNat
        (scanBytes (· = slash) mem fuel e).map fun rest =>
          (some rest, Function.update (fun i => if i < len then mem (s + i) else name i) len 0)

/-- The string in the buffer, if it ends there. -/
def bufString (name : Nat → UInt8) : Option Name :=
  if (List.range vdirsiz).any (name · = 0) then some (((List.range vdirsiz).map name).takeWhile (· ≠ 0)) else none

/-- Iterate `skipelem`, at most `n` times: the strings in the buffer, and whether the rest of the path was empty. -/
def elements (mem : Nat → UInt8) (fuel : Nat) : (n path : Nat) → (name : Nat → UInt8) → Option (List (Name × Bool))
  | 0, _, _ => none
  | n + 1, path, name =>
    (skipelemAt mem fuel path name).bind fun r =>
      match r.1 with
      | none => some []
      | some rest => (bufString r.2).bind fun w => (elements mem fuel n rest r.2).map fun ws => (w, mem rest = 0) :: ws

/-- The bytes `l` stand at `p`, with NUL behind them. -/
def CStr (mem : Nat → UInt8) : Nat → List UInt8 → Prop
  | p, [] => mem p = 0
  | p, b :: l => mem p = b ∧ b ≠ 0 ∧ CStr mem (p + 1) l

section Scan

variable {mem : Nat → UInt8} {p fuel : Nat} {l : List UInt8}

theorem CStr.empty_iff (h : CStr mem p l) : mem p = 0 ↔ l = [] := by
  cases l with
  | nil => exact ⟨fun _ => rfl, fun _ => h⟩
  | cons b l => simp [h.1, h.2.1]

theorem CStr.get (h : CStr mem p l) {i : Nat} (hi : i < l.length) : mem (p + i) = l[i] ∧ mem (p + i) ≠ 0 := by
  induction l generalizing p i with
  | nil => cases hi
  | cons b l ih =>
    cases i with
    | zero => exact ⟨h.1, h.1 ▸ h.2.1⟩
    | succ i =>
      rw [length_cons] at hi
      rw [← succ_add_eq_add_succ p i]
      exact ih h.2.2 (lt_of_succ_lt_succ hi)

/-- A loop over a string stops behind the bytes with `q`. -/
theorem CStr.scan (h : CStr mem p l) (hf : l.length < fuel) (go q : UInt8 → Bool) (hzero : go 0 = false)
    (hgo : ∀ b, b ≠ 0 → go b = q b) : scanBytes go mem fuel p = some (p + (l.takeWhile q).length) ∧
      CStr mem (p + (l.takeWhile q).length) (l.dropWhile q) := by
  induction l generalizing p fuel with
  | nil =>
    cases fuel with
    | zero => cases hf
    | succ fuel =>
      have h0 : mem p = 0 := h
      exact ⟨by simp [scanBytes, h0, hzero], h⟩
  | cons b l ih =>
    cases fuel with
    | zero => cases hf
    | succ fuel =>
      obtain ⟨hb, hne, ht⟩ := h
      rw [scanBytes, hb, hgo b hne]
      cases hq : q b with
      | false => simp [hq, hb, CStr, hne, ht]
      | true =>
        have hrest := ih ht (lt_of_succ_lt_succ hf)
        simpa [takeWhile_cons, dropWhile_cons, hq, Nat.add_assoc, Nat.add_comm 1] using hrest

end Scan

/-! ### The components of a path -/

/-- The non-empty parts between slashes. -/
def pathWords (l : List UInt8) : List (List UInt8) := (l.splitOn slash).filter (· ≠ [])

theorem pathWords_slash (l : List UInt8) : pathWords (slash :: l) = pathWords l := by
  simp [pathWords, List.splitOn, splitOnP_cons_eq_if_modifyHead]

theorem pathWords_dropWhile (l : List UInt8) : pathWords (l.dropWhile (· = slash)) = pathWords l := by
  induction l with
  | nil => rfl
  | cons b l ih =>
    by_cases hb : b = slash
    · rw [dropWhile_cons_of_pos (by simpa using hb), ih, hb, pathWords_slash]
    · rw [dropWhile_cons_of_neg (by simpa using hb)]

theorem pathWords_word {l : List UInt8} (hne : l.takeWhile (· ≠ slash) ≠ []) :
    pathWords l = l.takeWhile (· ≠ slash) :: pathWords (l.dropWhile (· ≠ slash)) := by
  have hw : ∀ b ∈ l.takeWhile (· ≠ slash), (b == slash) = false := fun b hb => by
    simpa using mem_takeWhile_imp hb
  have hl : l.takeWhile (· ≠ slash) ++ l.dropWhile (· ≠ slash) = l := takeWhile_append_dropWhile
  cases hd : l.dropWhile (· ≠ slash) with
  | nil =>
    rw [hd, append_nil] at hl
    rw [hl] at hw hne ⊢
    simp [pathWords, List.splitOn, splitOnP_eq_singleton hw, hne]
  | cons b t =>
    have hb : b = slash := by
      have hnot := head_dropWhile_not (fun b : UInt8 => decide (b ≠ slash)) (l := l) (by rw [hd]; nofun)
      simp only [hd, head_cons] at hnot
      simpa using hnot
    generalize l.takeWhile (· ≠ slash) = w at *
    rw [← hl, hd, hb, pathWords_slash]
    simp [pathWords, List.splitOn, splitOnP_append_cons_of_forall_mem hw slash (by simp), hne]

/-- One step of `skipelem`, in terms of the components. -/
theorem pathWords_next (l : List UInt8) : l.dropWhile (· = slash) = [] ∧ pathWords l = [] ∨
    (l.dropWhile (· = slash)).takeWhile (· ≠ slash) ≠ [] ∧
      pathWords l = (l.dropWhile (· = slash)).takeWhile (· ≠ slash) ::
        pathWords (((l.dropWhile (· = slash)).dropWhile (· ≠ slash)).dropWhile (· = slash)) := by
  rw [← pathWords_dropWhile l]
  cases hd : l.dropWhile (· = slash) with
  | nil => exact .inl ⟨rfl, rfl⟩
  | cons b t =>
    have hb : b ≠ slash := by
      have hnot := head_dropWhile_not (fun b : UInt8 => decide (b = slash)) (l := l) (by rw [hd]; nofun)
      simpa [hd] using hnot
    have hne : (b :: t).takeWhile (· ≠ slash) ≠ [] := by simp [hb]
    exact .inr ⟨hne, by rw [pathWords_word hne, pathWords_dropWhile]⟩

theorem components_eq_words (l : List UInt8) : components l = (pathWords l).map (List.take 255) := by
  cases pathWords_next l with
  | inl h => rw [components_none (by simp [skipelem, h.1]), h.2, map_nil]
  | inr h =>
    have hne : l.dropWhile (· = slash) ≠ [] := fun he => h.1 (by rw [he]; rfl)
    have hs : skipelem l = some (((l.dropWhile (· = slash)).takeWhile (· ≠ slash)).take 255,
        ((l.dropWhile (· = slash)).dropWhile (· ≠ slash)).dropWhile (· = slash)) := if_neg hne
    have hlt := skipelem_lt hs
    rw [components_some hs, h.2, map_cons, components_eq_words]
termination_by l.length
decreasing_by exact hlt

/-! ### One step -/

/-- The first `n` bytes of a buffer and NUL behind them. -/
theorem bufString_eq {name : Nat → UInt8} (hn : n < vdirsiz) (hz : name n = 0) (hne : ∀ i < n, name i ≠ 0) :
    bufString name = some ((List.range n).map name) := by
  have hany : (List.range vdirsiz).any (name · = 0) = true :=
    any_eq_true.mpr ⟨n, mem_range.mpr hn, by simpa using hz⟩
  have hsplit : vdirsiz = n + (vdirsiz - n - 1 + 1) := by omega
  rw [bufString, if_pos hany, hsplit, range_add, map_append, takeWhile_append_of_pos]
  · rw [range_succ_eq_map]
    simp [hz]
  · intro b hb
    obtain ⟨i, hi, rfl⟩ := mem_map.mp hb
    simpa using hne i (mem_range.mp hi)

theorem elemLen_eq (h : n < 2 ^ 31) : elemLen n = (min n 255 : Nat) := by
  have hmod : Int.bmod n (2 ^ 32) = n := by
    rw [Int.bmod]
    split <;> omega
  unfold elemLen vdirsiz
  rw [hmod]
  split <;> omega

section Step

variable {mem : Nat → UInt8} {p fuel : Nat} {l : List UInt8}

theorem CStr.skipelemAt_nil (h : CStr mem p l) (hf : l.length < fuel) (hw : pathWords l = []) (name : Nat → UInt8) :
    skipelemAt mem fuel p name = some (none, name) := by
  obtain ⟨h1, h2⟩ := h.scan hf (· = slash) (· = slash) (by decide) fun _ _ => rfl
  have hd : l.dropWhile (· = slash) = [] := by
    cases pathWords_next l with
    | inl h => exact h.1
    | inr h => rw [hw] at h; cases h.2
  rw [hd] at h2
  have hz : mem (p + (l.takeWhile (· = slash)).length) = 0 := h2
  rw [skipelemAt, h1, bind_some, if_pos hz]

/-- The buffer after `n` bytes of a component and NUL have gone there. -/
theorem CStr.bufString (h : CStr mem p l) {t : List UInt8} (hl : w ++ t = l) (hn : n ≤ w.length) (hlt : n < vdirsiz)
    (name : Nat → UInt8) :
    bufString (Function.update (fun i => if i < n then mem (p + i) else name i) n 0) = some (w.take n) := by
  have hlen : w.length ≤ l.length := by simp [← hl]
  have hbyte : ∀ i < n, Function.update (fun i => if i < n then mem (p + i) else name i) n 0 i = mem (p + i) := by
    intro i hi
    rw [Function.update_of_ne (Nat.ne_of_lt hi), if_pos hi]
  rw [bufString_eq hlt (Function.update_self ..) fun i hi => by rw [hbyte i hi]; exact (h.get (by omega)).2]
  refine congrArg some (ext_getElem (by simp [hn]) fun i h1 h2 => ?_)
  have hi : i < n := by simpa using h1
  simp only [getElem_map, getElem_range, getElem_take, hbyte i hi]
  rw [(h.get (by omega)).1]
  simp only [← hl]
  exact getElem_append_left (by omega)

/-- The component goes to the buffer, cut to 255 bytes, and the rest of the path begins with the next one. -/
theorem CStr.skipelemAt_cons (h : CStr mem p l) (hlen : l.length < 2 ^ 31) (hf : l.length < fuel)
    {ws : List (List UInt8)} (hw : pathWords l = w :: ws) (name : Nat → UInt8) :
    ∃ rest name' t, skipelemAt mem fuel p name = some (some rest, name') ∧
      Vfs.bufString name' = some (w.take 255) ∧ CStr mem rest t ∧ t.length < l.length ∧
      pathWords t = ws ∧ (t = [] ↔ ws = []) := by
  obtain ⟨hs1, hs2⟩ := h.scan hf (· = slash) (· = slash) (by decide) fun _ _ => rfl
  cases pathWords_next l with
  | inl h =>
    rw [hw] at h
    cases h.2
  | inr hnext =>
    obtain ⟨hne, hcons⟩ := hnext
    rw [hw] at hcons
    obtain ⟨hw, hws⟩ := List.cons.inj hcons
    have hdne : l.dropWhile (· = slash) ≠ [] := fun he => hne (by rw [he]; rfl)
    have hlt := after_name_lt hdne
    have hle := length_dropWhile_le (fun b : UInt8 => decide (b = slash)) l
    generalize p + (l.takeWhile (· = slash)).length = s at *
    generalize l.dropWhile (· = slash) = d at *
    obtain ⟨he1, he2⟩ := hs2.scan (Nat.lt_of_le_of_lt hle hf) (fun b => b ≠ slash ∧ b ≠ 0) (· ≠ slash) (by decide)
      fun b hb => by simp [hb]
    have hl : w ++ d.dropWhile (· ≠ slash) = d := by
      rw [hw]
      exact takeWhile_append_dropWhile
    rw [← hw] at he1 he2
    generalize d.dropWhile (· ≠ slash) = t at *
    obtain ⟨hr1, hr2⟩ := he2.scan (Nat.lt_trans hlt hf) (· = slash) (· = slash) (by decide) fun _ _ => rfl
    have hz : mem s ≠ 0 := fun hz => hdne (hs2.empty_iff.mp hz)
    have hlong : w.length ≤ d.length := by rw [← hl, length_append]; omega
    have hcut := hs2.bufString hl (Nat.min_le_left w.length 255) (by rw [vdirsiz]; omega) name
    rw [skipelemAt, hs1, bind_some, if_neg hz, he1, bind_some, Nat.add_sub_cancel_left, elemLen_eq (by omega),
      if_neg (by omega), hr1, map_some, Int.toNat_natCast]
    refine ⟨_, _, _, rfl, by rw [hcut, Nat.min_comm, ← take_eq_take_min], hr2,
      Nat.lt_of_le_of_lt (length_dropWhile_le _ _) hlt, hws.symm, ?_⟩
    rw [hws]
    constructor
    · intro he
      rw [he]
      rfl
    · intro he
      cases pathWords_next (t.dropWhile (· = slash)) with
      | inl hnil => rw [← hnil.1, dropWhile_idempotent]
      | inr hcons =>
        rw [he] at hcons
        cases hcons.2

end Step

/-! ### The iteration -/

/-- The components, cut to 255 bytes, each with the mark of the last one. -/
def marks : List (List UInt8) → List (Name × Bool)
  | [] => []
  | w :: ws => (w.take 255, ws = []) :: marks ws

theorem marks_fst (ws : List (List UInt8)) : (marks ws).map Prod.fst = ws.map (List.take 255) := by
  induction ws with
  | nil => rfl
  | cons w ws ih => rw [marks, map_cons, map_cons, ih]

/-- For every path that ends with NUL and is shorter than 2 GiB, as every path is that `argstr` copies: `skipelem`,
called until it returns 0, puts the components between the slashes into the buffer in order, cut to 255 bytes and with
NUL behind them, and after each call the rest is empty just if that was the last. -/
theorem elements_are_components (mem : Nat → UInt8) (path : Nat) (l : List UInt8) (name : Nat → UInt8) (fuel n : Nat)
    (h : CStr mem path l) (hlen : l.length < 2 ^ 31) (hf : l.length < fuel) (hn : l.length < n) :
    elements mem fuel n path name = some (marks (pathWords l)) ∧ (marks (pathWords l)).map Prod.fst = components l := by
  refine ⟨?_, by rw [components_eq_words, marks_fst]⟩
  induction n generalizing path l name with
  | zero => omega
  | succ n ih =>
    rw [elements]
    cases hw : pathWords l with
    | nil => rw [h.skipelemAt_nil hf hw, bind_some, marks]
    | cons w ws =>
      obtain ⟨rest, name', t, e1, e2, e3, e4, rfl, e6⟩ := h.skipelemAt_cons hlen hf hw name
      have hend : decide (mem rest = 0) = decide (pathWords t = []) := by
        rw [decide_eq_decide, e3.empty_iff, e6]
      rw [e1, bind_some]
      dsimp only
      rw [e2, bind_some, ih rest t name' e3 (by omega) (by omega) (by omega), map_some, hend, marks]

/-- "/a//bc/". -/
theorem two_elements : elements (fun i => [47, 97, 47, 47, 98, 99, 47].getD i 0) 8 8 0 (fun _ => 1) =
    some (marks (pathWords [47, 97, 47, 47, 98, 99, 47])) ∧
    marks (pathWords [47, 97, 47, 47, 98, 99, 47]) = [([97], false), ([98, 99], true)] := by
  have hw : pathWords [47, 97, 47, 47, 98, 99, 47] = [[97], [98, 99]] := by decide
  refine ⟨(elements_are_components _ 0 [47, 97, 47, 47, 98, 99, 47] _ 8 8 ?_ (by decide) (by decide) (by decide)).1, ?_⟩
  · simp [CStr]
  · rw [hw]
    rfl

end Xv6Vfs.Vfs
