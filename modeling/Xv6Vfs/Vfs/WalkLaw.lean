import Xv6Vfs.Vfs.MountTable

/-! The references of path walks are balanced exactly as far as ".." can be found. -/
namespace Xv6Vfs.Vfs
open Option

variable {c : Content} {s : State}

/-- All path walks are balanced if ".." can be found in every directory that carries a mount, and
only then. -/
theorem walks_balanced_iff (h : Sound s) :
    (UpFound c s → ∀ cwd path, (∀ i, cwd = some i → 0 < refs s i) → WalkBalanced c cwd path s) ∧
    (RootDirs s → (∀ cwd path, (∀ i, cwd = some i → 0 < refs s i) → WalkBalanced c cwd path s) →
      UpFound c s) := by
  refine ⟨fun hup cwd path hcwd => walkBalanced_of_upFound h hup hcwd path, fun hr hall m mt p hm hp => ?_⟩
  by_contra hno
  obtain ⟨r, hroot⟩ := isSome_iff_exists.mp (h.rooted m mt hm)
  obtain ⟨⟨x, t, h1, -⟩, -⟩ := hall (some r) dotdot fun i hi => by
    cases hi
    exact h.live m mt hm r (.inl hroot)
  rw [namei_up_missing h hr hm hroot hp hno] at h1
  cases h1

theorem nested_walks : ∃ y, Run.run exec nestedMounts (vfsInit 100) = some y ∧ Sound y.vfs ∧
    RootDirs y.vfs ∧ UpFound nested y.vfs ∧
    ∀ cwd path, (∀ i, cwd = some i → 0 < refs y.vfs i) → WalkBalanced nested cwd path y.vfs := by
  have hcalm : Run.Meets exec (fun y op => op.Calm y) nestedMounts (vfsInit 100) :=
    (Run.Meets.append.mp innerFirst_calm).1
  obtain ⟨y, hy, htidy, -⟩ := run_tidy (vfsInit_tidy 100) hcalm
  have h : ((Run.run exec nestedMounts (vfsInit 100)).map fun y =>
      (y.vfs.mounttable, y.vfs.mounttable.all fun m => ((y.vfs.mounts m).bind Mount.root).all fun r =>
        decide ((y.vfs.vnodes r).type = .dir ∧ (y.vfs.vnodes r).mp = some m))) =
      some ([10, 11, 12], true) := by
    decide +kernel
  rw [hy, map_some, some.injEq, Prod.mk.injEq] at h
  have hdirs : RootDirs y.vfs := by
    intro m mt r hm hr
    have h1 := List.all_eq_true.mp h.2 m (htidy.only m (by simp [hm]))
    simpa [hm, hr] using h1
  exact ⟨y, hy, htidy.sound, hdirs, nested_upFound y.vfs,
    (walks_balanced_iff htidy.sound).1 (nested_upFound y.vfs)⟩

/-- With ".." missing in "/a", the walk of "/a/.." returns a vnode it has no reference to, and ".."
from the root of "/a" follows a pointer that was never set. -/
theorem walk_unbalanced : ∃ y r, Run.run exec nestedMounts (vfsInit 100) = some y ∧
    0 < refs y.vfs r ∧ vfsNamei noUp (some r) dotdot y.vfs = none ∧
    ¬ WalkBalanced noUp none [47, 97, 47, 46, 46] y.vfs := by
  have h : ((Run.run exec nestedMounts (vfsInit 100)).map fun y =>
      (refs y.vfs 1, (vfsNamei noUp (some 1) dotdot y.vfs).isNone,
        (vfsNamei noUp none [47, 97, 47, 46, 46] y.vfs).map fun w =>
          (w.1, refs y.vfs 5, refs w.2 5))) = some (1, true, some (some 5, 0, 0)) := by
    decide +kernel
  obtain ⟨y, hy, he⟩ := map_eq_some_iff.mp h
  simp only [Prod.mk.injEq, isNone_iff_eq_none, map_eq_some_iff] at he
  obtain ⟨h1, h2, w, hw, h3, h4, h5⟩ := he
  refine ⟨y, 1, hy, by omega, h2, fun hb => ?_⟩
  obtain ⟨⟨r, t, h6, h7⟩, -⟩ := hb
  cases hw.symm.trans h6
  have h8 := h7 5
  simp only at h3 h5
  rw [h3, if_pos rfl] at h8
  omega

end Xv6Vfs.Vfs
