import Mathlib.Data.List.DropRight
import Xv6Vfs.Vfs.Namei

/-! A path as the list of its components, and the loop of `vfs_namei` as a walk over them. -/
namespace Xv6Vfs.Vfs
open List

variable {v : Nat} {name : Name} {names : List Name} {path rest : List UInt8} {r : Option Nat × State}

theorem after_name_lt (h : path.dropWhile (· = slash) ≠ []) :
    ((path.dropWhile (· = slash)).dropWhile (· ≠ slash)).length < path.length := by
  have h1 := length_dropWhile_le (fun x : UInt8 => decide (x = slash)) path
  have h2 := head_dropWhile_not (fun x : UInt8 => decide (x = slash)) h
  cases hq : path.dropWhile (· = slash) with
  | nil => exact absurd hq h
  | cons a l =>
    simp only [hq, head_cons, length_cons] at h1 h2
    rw [dropWhile_cons_of_pos (by simpa using h2)]
    have h3 := length_dropWhile_le (fun x : UInt8 => decide (x ≠ slash)) l
    omega

theorem skipelem_lt (h : skipelem path = some (name, rest)) : rest.length < path.length := by
  unfold skipelem at h
  simp only at h
  split at h
  · simp at h
  case isFalse hne =>
    cases h
    exact (length_dropWhile_le _ _).trans_lt (after_name_lt hne)

def components (path : List UInt8) : List Name :=
  match _h : skipelem path with
  | none => []
  | some (name, rest) => name :: components rest
termination_by path.length
decreasing_by exact skipelem_lt _h

theorem components_none (h : skipelem path = none) : components path = [] := by
  rw [components]
  split
  · rfl
  case h_2 h' => simp [h] at h'

theorem components_some (h : skipelem path = some (name, rest)) : components path = name :: components rest := by
  rw [components]
  split
  case h_1 h' => simp [h] at h'
  case h_2 h' =>
    cases h.symm.trans h'
    rfl

theorem components_length_le (path : List UInt8) : (components path).length ≤ path.length := by
  cases h : skipelem path with
  | none => simp [components_none h]
  | some p =>
    obtain ⟨name, rest⟩ := p
    have h1 := skipelem_lt h
    have h2 := components_length_le rest
    rw [components_some h, length_cons]
    omega
termination_by path.length

theorem components_dropWhile (path : List UInt8) : components (path.dropWhile (· = slash)) = components path := by
  have h : skipelem (path.dropWhile (· = slash)) = skipelem path := by
    simp only [skipelem, dropWhile_idempotent]
  cases hs : skipelem path with
  | none => rw [components_none hs, components_none (h.trans hs)]
  | some p => rw [components_some hs, components_some (h.trans hs)]

theorem components_append (p t : List UInt8) : components (p ++ slash :: t) = components p ++ components t := by
  by_cases hD : p.dropWhile (· = slash) = []
  · have h1 : (p ++ slash :: t).dropWhile (· = slash) = t.dropWhile (· = slash) := by
      rw [dropWhile_append, hD]
      simp
    have h2 : skipelem p = none := by
      simp [skipelem, hD]
    rw [← components_dropWhile (p ++ slash :: t), h1, components_dropWhile, components_none h2, nil_append]
  · have h1 : (p ++ slash :: t).dropWhile (· = slash) =
        p.dropWhile (· = slash) ++ slash :: t := by
      rw [dropWhile_append, if_neg (by simpa using hD)]
    generalize hq : p.dropWhile (· = slash) = q at hD h1
    have h2 : (q ++ slash :: t).takeWhile (· ≠ slash) = q.takeWhile (· ≠ slash) := by
      rw [takeWhile_append]
      split
      case isTrue he =>
        rw [takeWhile_cons_of_neg (by simp), append_nil, (takeWhile_sublist _).eq_of_length he]
      · rfl
    have h3 : (q ++ slash :: t).dropWhile (· ≠ slash) = q.dropWhile (· ≠ slash) ++ slash :: t := by
      rw [dropWhile_append]
      split
      case isTrue he =>
        rw [isEmpty_iff.mp he, dropWhile_cons_of_neg (by simp), nil_append]
      · rfl
    have e1 : skipelem (p ++ slash :: t) = some ((q.takeWhile (· ≠ slash)).take 255,
        (q.dropWhile (· ≠ slash) ++ slash :: t).dropWhile (· = slash)) := by
      simp only [skipelem, h1, h2, h3]
      rw [if_neg (by simp)]
    have e2 : skipelem p = some ((q.takeWhile (· ≠ slash)).take 255,
        (q.dropWhile (· ≠ slash)).dropWhile (· = slash)) := by
      simp only [skipelem, hq]
      rw [if_neg hD]
    have hlt : (q.dropWhile (· ≠ slash)).length < p.length := by
      subst hq
      exact after_name_lt hD
    rw [components_some e1, components_some e2, components_dropWhile, components_dropWhile,
      components_append (q.dropWhile (· ≠ slash)) t, cons_append]
termination_by p.length
decreasing_by simpa using hlt

/-- `k` copies of "/..". -/
def ups : Nat → List UInt8
  | 0 => []
  | k + 1 => slash :: dotdot ++ ups k

theorem components_dotdot : components dotdot = [dotdot] := by
  have h : skipelem dotdot = some (dotdot, []) := by decide
  rw [components_some h, components_none (by decide)]

theorem components_ups (p : List UInt8) (k : Nat) :
    components (p ++ ups k) = components p ++ List.replicate k dotdot := by
  induction k generalizing p with
  | zero => simp [ups]
  | succ k ih =>
    have h : p ++ ups (k + 1) = p ++ slash :: (dotdot ++ ups k) := by
      simp [ups]
    rw [h, components_append, ih, components_dotdot, replicate_succ, singleton_append]

/-- The loop of `vfs_namei` over a list of components. -/
def walk (c : Content) : List Name → Nat → Option (Option Nat) → State →
    Option (Option Nat × State)
  | [], vp, _, s => some (some vp, s)
  | name :: names, vp, next, s =>
    (nameiStep c name vp next s).bind fun w =>
      match w with
      | .fail s' => some (none, s')
      | .at vp' next' s' => walk c names vp' next' s'

theorem nameiLoop_eq_walk (c : Content) (fuel : Nat) (path : List UInt8)
    (hf : (components path).length ≤ fuel) (vp : Nat) (next : Option (Option Nat)) (s : State) :
    nameiLoop c fuel path vp next s = walk c (components path) vp next s := by
  induction fuel generalizing path vp next s with
  | zero =>
    rw [length_eq_zero_iff.mp (Nat.le_zero.mp hf)]
    rfl
  | succ fuel ih =>
    cases h : skipelem path with
    | none => simp [nameiLoop, walk, h, components_none h]
    | some p =>
      obtain ⟨name, rest⟩ := p
      rw [components_some h] at hf ⊢
      have hf' : (components rest).length ≤ fuel := by simpa using hf
      simp only [nameiLoop, h, walk]
      cases nameiStep c name vp next s with
      | none => rfl
      | some w =>
        cases w with
        | fail s' => rfl
        | «at» vp' next' s' => exact ih rest hf' vp' next' s'

theorem vfsNamei_eq_walk (c : Content) (cwd : Option Nat) (path : List UInt8) (s : State)
    (hv : pathStart path cwd s = some v) : vfsNamei c cwd path s = walk c (components path) v none (vget v s) := by
  simp only [vfsNamei, hv]
  exact nameiLoop_eq_walk c _ path (components_length_le path) v none (vget v s)

theorem skipelem_rest (h : skipelem path = some (name, rest)) : rest = [] ↔ components rest = [] := by
  have hdrop : rest.dropWhile (· = slash) = rest := by
    unfold skipelem at h
    simp only at h
    split at h
    · cases h
    · cases h
      exact dropWhile_idempotent _ _
  cases hs : skipelem rest with
  | none =>
    have hnil : rest = [] := by
      unfold skipelem at hs
      simp only [hdrop] at hs
      by_contra hne
      rw [if_neg hne] at hs
      cases hs
    simp [← hnil, components_none hs]
  | some p =>
    have hne : rest ≠ [] := by
      rintro rfl
      cases hs
    simp [hne, components_some hs]

/-- `vfs_nameiparent` in front of the last component. -/
def parentEnd (d : Nat) (name : Name) (s : State) : Option (Option (Nat × Name) × State) :=
  if (s.vnodes d).type ≠ .dir then (vput d s).map fun s' => (none, s') else some (some (d, name), s)

/-- The loop of `vfs_nameiparent` is that of `vfs_namei` up to the last component. -/
theorem nameiparentLoop_eq_walk (c : Content) {fuel : Nat} (hc : components path = names ++ [name])
    (hf : names.length < fuel) (vp : Nat) (next : Option (Option Nat)) (s : State) :
    nameiparentLoop c fuel path vp next s = (walk c names vp next s).bind fun r =>
      match r.1 with
      | none => some (none, r.2)
      | some d => parentEnd d name r.2 := by
  induction fuel generalizing path names vp next s with
  | zero => omega
  | succ fuel ih =>
    cases h : skipelem path with
    | none => simp [components_none h] at hc
    | some p =>
      obtain ⟨name', rest⟩ := p
      rw [components_some h] at hc
      simp only [nameiparentLoop, h]
      cases names with
      | nil =>
        obtain ⟨rfl, hrest⟩ := List.cons.inj hc
        rw [if_pos ((skipelem_rest h).mpr hrest)]
        rfl
      | cons n names =>
        obtain ⟨rfl, hrest⟩ := List.cons.inj hc
        rw [if_neg fun he => by simp [(skipelem_rest h).mp he] at hrest, walk]
        cases nameiStep c name' vp next s with
        | none => rfl
        | some w =>
          cases w with
          | fail s' => rfl
          | «at» vp' next' s' => exact ih hrest (Nat.lt_of_succ_lt_succ hf) vp' next' s'

theorem vfsNameiparent_eq_walk (c : Content) (cwd : Option Nat) (s : State) (hv : pathStart path cwd s = some v)
    (hc : components path = names ++ [name]) :
    vfsNameiparent c cwd path s = (walk c names v none (vget v s)).bind fun r =>
      match r.1 with
      | none => some (none, r.2)
      | some d => parentEnd d name r.2 := by
  have hlen := components_length_le path
  rw [hc, length_append, length_singleton] at hlen
  simp only [vfsNameiparent, hv]
  exact nameiparentLoop_eq_walk c hc hlen v none (vget v s)

theorem vfsNameiparent_nil (c : Content) (cwd : Option Nat) (s : State) (hv : pathStart path cwd s = some v)
    (hc : components path = []) : vfsNameiparent c cwd path s = (vput v (vget v s)).map fun s' => (none, s') := by
  have hs : skipelem path = none := by
    cases h : skipelem path with
    | none => rfl
    | some p => rw [components_some h] at hc; cases hc
  simp only [vfsNameiparent, hv]
  cases path.length with
  | zero => rfl
  | succ n => simp only [nameiparentLoop, hs]

section Holds

variable {c : Content} {s s0 : State} {vp : Nat}

theorem walk_holds (hl : MountsLive s0) (hup : UpFound c s0) {next : Option (Option Nat)} (h : Holds s0 [vp] s)
    (hr : walk c names vp next s = some r) : Holds s0 r.1.toList r.2 := by
  induction names generalizing vp next s with
  | nil =>
    cases hr
    exact h
  | cons name names ih =>
    obtain ⟨w, hw, hr⟩ := Option.bind_eq_some_iff.mp hr
    have hh := nameiStep_holds c name next hl hup h hw
    cases w with
    | fail s' =>
      cases hr
      exact hh
    | «at» vp' next' s' => exact ih hh hr

/-- `vfs_namei` returns with one more reference, on the vnode it returns, and with none when it returns 0. -/
theorem vfsNamei_holds (c : Content) (cwd : Option Nat) (path : List UInt8) (hl : MountsLive s) (hup : UpFound c s)
    (hcwd : ∀ i, cwd = some i → 0 < refs s i) (hr : vfsNamei c cwd path s = some r) : Holds s r.1.toList r.2 := by
  cases hv : pathStart path cwd s with
  | none =>
    simp only [vfsNamei, hv] at hr
    cases hr
    exact Holds.refl s
  | some v =>
    rw [vfsNamei_eq_walk c cwd path s hv] at hr
    exact walk_holds hl hup ((Holds.refl s).get (pathStart_live hl hcwd hv)) hr

theorem vput_none_holds (h : Holds s0 [vp] s) {r : Option (Nat × Name) × State}
    (hr : ((vput vp s).map fun s' => (none, s')) = some r) : Holds s0 (r.1.map Prod.fst).toList r.2 := by
  obtain ⟨s1, h1, h2, -⟩ := h.put
  rw [h1] at hr
  cases hr
  exact h2

theorem vfsNameiparent_holds (c : Content) (cwd : Option Nat) (path : List UInt8) (hl : MountsLive s)
    (hup : UpFound c s) (hcwd : ∀ i, cwd = some i → 0 < refs s i) {r : Option (Nat × Name) × State}
    (hr : vfsNameiparent c cwd path s = some r) : Holds s (r.1.map Prod.fst).toList r.2 := by
  cases hv : pathStart path cwd s with
  | none =>
    simp only [vfsNameiparent, hv] at hr
    cases hr
    exact Holds.refl s
  | some v =>
    have h := (Holds.refl s).get (pathStart_live hl hcwd hv)
    cases eq_nil_or_concat' (components path) with
    | inl hc =>
      rw [vfsNameiparent_nil c cwd s hv hc] at hr
      exact vput_none_holds h hr
    | inr hc =>
      obtain ⟨names, name, hc⟩ := hc
      rw [vfsNameiparent_eq_walk c cwd s hv hc] at hr
      obtain ⟨⟨w, s'⟩, hw, hr⟩ := Option.bind_eq_some_iff.mp hr
      have hh := walk_holds hl hup h hw
      cases w with
      | none =>
        cases hr
        exact hh
      | some d =>
        simp only [parentEnd] at hr
        split at hr
        · exact vput_none_holds hh hr
        · cases hr
          exact hh

end Holds

end Xv6Vfs.Vfs
