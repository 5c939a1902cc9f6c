import Xv6Vfs.Vfs.Resolve

/-! The two path walkers in lock step: `vfs_namei` and a lookup in the directory of `vfs_nameiparent`. -/
namespace Xv6Vfs.Vfs
open Option

/-- Look `name` up in directory `d`, whose reference is given back, and cross into what is mounted there. -/
def lookupCross (c : Content) (d : Nat) (name : Name) (s : State) : Option (Option Nat × State) :=
  if (s.vnodes d).ops = none then (vput d s).map fun s' => (none, s')
  else (lookup c s d name).bind fun r =>
    (vput d r.st).bind fun s1 =>
      if r.ok then (r.stored.bind id).bind fun n => (crossMount n s1).map fun w => (some w.1, w.2)
      else some (none, s1)

section Last

variable {c : Content} {name : Name}

theorem walk_last (hn : name ≠ dotdot) (d : Nat) (next : Option (Option Nat)) (s : State) :
    walk c [name] d next s = (parentEnd d name s).bind fun r =>
      match r.1 with
      | none => some (none, r.2)
      | some (d, name) => lookupCross c d name r.2 := by
  simp only [walk, nameiStep, parentEnd, if_neg hn, bind_some]
  by_cases hdir : (s.vnodes d).type ≠ .dir
  · rw [if_pos hdir, if_pos hdir]
    cases vput d s with
    | none => rfl
    | some s' => rfl
  · rw [if_neg hdir, if_neg hdir, bind_some]
    simp only [stepDown, lookupCross]
    split
    · cases vput d s with
      | none => rfl
      | some s' => rfl
    · cases lookup c s d name with
      | none => rfl
      | some r =>
        dsimp only [bind_some]
        cases vput d r.st with
        | none => rfl
        | some s1 =>
          dsimp only [bind_some]
          split
          · cases r.stored.bind id with
            | none => rfl
            | some n =>
              dsimp only [bind_some]
              cases crossMount n s1 with
              | none => rfl
              | some w => rfl
          · rfl

theorem walk_snoc (hn : name ≠ dotdot) (names : List Name) (vp : Nat) (next : Option (Option Nat)) (s : State) :
    walk c (names ++ [name]) vp next s = (walk c names vp next s).bind fun r =>
      match r.1 with
      | none => some (none, r.2)
      | some d => walk c [name] d none r.2 := by
  induction names generalizing vp next s with
  | nil => exact (walk_last hn vp next s).trans (walk_last hn vp none s).symm
  | cons n names ih =>
    rw [List.cons_append, walk, walk]
    cases nameiStep c n vp next s with
    | none => rfl
    | some w =>
      cases w with
      | fail s' => rfl
      | «at» vp' next' s' => exact ih vp' next' s'

end Last

/-- For every path with a last component other than "." and "..", whatever the mount table, the current directory
and the contents are: `vfs_namei` does what a lookup of the returned name in the directory from `vfs_nameiparent`
does, with `cross_mount` applied, and it fails if one of the two does. -/
theorem namei_agrees_with_parent (c : Content) (cwd : Option Nat) (path : List UInt8) (s : State) (name : Name)
    (hlast : (components path).getLast? = some name) (hn : Ordinary name) :
    vfsNamei c cwd path s = (vfsNameiparent c cwd path s).bind fun r =>
      match r.1 with
      | none => some (none, r.2)
      | some (d, name) => lookupCross c d name r.2 := by
  obtain ⟨names, hc⟩ := List.getLast?_eq_some_iff.mp hlast
  cases hv : pathStart path cwd s with
  | none => simp [vfsNamei, vfsNameiparent, hv]
  | some v =>
    rw [vfsNamei_eq_walk c cwd path s hv, vfsNameiparent_eq_walk c cwd s hv hc, hc, walk_snoc hn.2]
    cases walk c names v none (vget v s) with
    | none => rfl
    | some r =>
      dsimp only [bind_some]
      cases r.1 with
      | none => rfl
      | some d => exact walk_last hn.2 d none r.2

/-- "/f/a" over two mounts, the second of them on "a". -/
theorem mountOnFat_agrees : ∃ y, Run.run exec mountOnFat (vfsInit 100) = some y ∧
    ((vfsNamei siblings none [47, 102, 47, 97] y.vfs).bind Prod.fst).isSome ∧
    vfsNamei siblings none [47, 102, 47, 97] y.vfs =
      (vfsNameiparent siblings none [47, 102, 47, 97] y.vfs).bind fun r =>
        match r.1 with
        | none => some (none, r.2)
        | some (d, name) => lookupCross siblings d name r.2 := by
  have h : ((Run.run exec mountOnFat (vfsInit 100)).map fun y =>
      ((vfsNamei siblings none [47, 102, 47, 97] y.vfs).bind Prod.fst).isSome) = some true := by
    decide +kernel
  obtain ⟨y, hy, he⟩ := map_eq_some_iff.mp h
  have h1 : skipelem [47, 102, 47, 97] = some ([102], [97]) := by decide
  have h2 : skipelem [97] = some ([97], []) := by decide
  have hlast : (components [47, 102, 47, 97]).getLast? = some [97] := by
    rw [components_some h1, components_some h2, components_none (rfl : skipelem [] = none)]
    rfl
  exact ⟨y, hy, he, namei_agrees_with_parent siblings none [47, 102, 47, 97] y.vfs [97] hlast ⟨by decide, by decide⟩⟩

end Xv6Vfs.Vfs
