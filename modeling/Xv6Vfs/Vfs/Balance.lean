import Xv6Vfs.Vfs.Mount

/-! Path walks from a consistent mount table always end, with one more reference on the vnode they
return and on no other, unless ".." is missing in a directory that carries a mount. -/
namespace Xv6Vfs.Vfs
open List Option

variable {cwd : Option Nat}

/-- What path walks find: filled vnodes of allocated mounts, and mounts with a referenced root. -/
structure Sound (s : State) : Prop where
  filled : AllFilled s
  live : MountsLive s
  mp : MpOk s
  rooted : ∀ m mt, s.mounts m = some mt → mt.root.isSome
  table : ∀ m ∈ s.mounttable, (s.mounts m).isSome

variable {c : Content} {s s0 s' : State} {held : List Nat} {vp p i : Nat} {name : Name}

theorem lookup_total (c : Content) (hf : AllFilled s) (hp : 0 < refs s p) (name : Name) :
    ∃ r, lookup c s p name = some r := by
  obtain ⟨-, hpriv, hops, -⟩ := hf p hp
  obtain ⟨node, hnode⟩ := isSome_iff_exists.mp hpriv
  obtain ⟨fs, hfs⟩ := isSome_iff_exists.mp hops
  exact (lookup_ends c (Holds.refl s) hp name hfs hnode).imp fun _ => And.left

theorem create_total (c : Content) (hf : AllFilled s) (hp : 0 < refs s p) (name : Name) :
    ∃ r, create c s p name = some r := by
  obtain ⟨-, hpriv, hops, -⟩ := hf p hp
  obtain ⟨node, hnode⟩ := isSome_iff_exists.mp hpriv
  obtain ⟨fs, hfs⟩ := isSome_iff_exists.mp hops
  exact (create_ends c (Holds.refl s) hp name hfs hnode).imp fun _ => And.left

theorem openCheck_total {mode ip : Nat} (hh : Holds s0 [ip] s) : ∃ r, openCheck mode ip s = some r := by
  unfold openCheck
  split
  · obtain ⟨s1, h1, -⟩ := hh.put
    exact ⟨(none, s1), congrArg (Option.map _) h1⟩
  · exact ⟨_, rfl⟩

/-- Where a step of the walk leads: it holds one reference, or none. -/
def Walk.Fine (s0 : State) : Walk → Prop
  | .fail s => Vfs.Holds s0 [] s
  | .at vp _ s => Vfs.Holds s0 [vp] s

theorem Holds.fail (h : Holds s0 [vp] s) : ∃ w, (vput vp s).map Walk.fail = some w ∧ w.Fine s0 := by
  obtain ⟨s1, h1, h2, -⟩ := h.put
  exact ⟨.fail s1, congrArg (Option.map _) h1, h2⟩

section

variable (h0 : Sound s0)
include h0

theorem crossMount_total (h : Holds s0 [vp] s) : ∃ n t, crossMount vp s = some (n, t) ∧ Holds s0 [n] t := by
  cases hm : vfsLookupMount s (s.vnodes vp) with
  | none => exact ⟨vp, s, by rw [crossMount, hm], h⟩
  | some m =>
    have hcov := find?_some hm
    simp only [covers] at hcov
    cases hmt : s.mounts m with
    | none => simp [hmt] at hcov
    | some mt =>
      have hmt' : s0.mounts m = some mt := by rw [← h.mounts, hmt]
      obtain ⟨r, hr⟩ := isSome_iff_exists.mp (h0.rooted m mt hmt')
      obtain ⟨s1, h1, h2, -⟩ := h.put
      refine ⟨r, vget r s1, ?_, h2.get (h2.live (.inl (h0.live m mt hmt' r (.inl hr))))⟩
      simp [crossMount, hm, h1, hmt, hr]

theorem stepDown_total (h : Holds s0 [vp] s) : ∃ w, stepDown c name vp s = some w ∧ w.Fine s0 := by
  unfold stepDown
  split
  · exact h.fail
  have hlive := h.live (.inr mem_cons_self)
  obtain ⟨r, hr⟩ := lookup_total c (h.filled h0.filled) hlive name
  have hb := lookup_balanced c h hlive name hr
  rw [hr, bind_some]
  have h1 := hb.holds
  cases hok : r.ok with
  | false =>
    simp only [hok, Bool.false_eq_true, if_false, nil_append] at h1 ⊢
    obtain ⟨s1, h2, h3, -⟩ := h1.put
    exact ⟨.fail s1, by rw [h2]; rfl, h3⟩
  | true =>
    obtain ⟨n, hn⟩ := hb.stored hok
    simp only [hok, if_true, hn, bind_some, id_eq, toList_some, cons_append, nil_append] at h1 ⊢
    obtain ⟨s1, h2, h3, -⟩ := (h1.perm (List.Perm.swap vp n [])).put
    rw [h2, bind_some]
    obtain ⟨k, t, h5, h6⟩ := crossMount_total h0 h3
    exact ⟨.at k (some (some n)) t, by rw [h5]; rfl, h6⟩

theorem stepUp_total (hp : 0 < refs s0 p) (hup : HasUp c (s0.vnodes p)) (h : Holds s0 [vp] s)
    (next : Option (Option Nat)) : ∃ w, stepUp c p vp next s = some w ∧ w.Fine s0 := by
  unfold stepUp
  obtain ⟨s2, h2, h3, -⟩ := ((h.get (h.live (.inl hp))).perm (List.Perm.swap vp p [])).put
  have hlive2 : 0 < refs s2 p := h3.live (.inl hp)
  have hops : (s2.vnodes p).ops.isSome = true := (h3.filled h0.filled p hlive2).2.2.1
  obtain ⟨r, hr⟩ := lookup_total c (h3.filled h0.filled) hlive2 dotdot
  have hb := lookup_balanced c h3 hlive2 dotdot hr
  have hst := lookup_up_stored c s2 p (hup.congr (h3.same p hp)) hr
  simp only [h2, hops, if_true, hr, bind_some]
  have h1 := hb.holds
  cases hok : r.ok with
  | false =>
    have h4 : r.stored = some none := (hb.failed hok).resolve_left hst
    simp only [hok, Bool.false_eq_true, if_false, nil_append] at h1
    obtain ⟨s3, h5, h6, -⟩ := h1.put
    exact ⟨.fail s3, by simp [h5, h4], h6⟩
  | true =>
    obtain ⟨n, hn⟩ := hb.stored hok
    simp only [hok, if_true, hn, bind_some, id_eq, toList_some, cons_append, nil_append] at h1
    obtain ⟨s3, h5, h6, -⟩ := (h1.perm (List.Perm.swap p n [])).put
    exact ⟨.at n (some (some n)) s3, by simp [h5, hn], h6⟩

/-- Where ".." crosses to is the mountpoint of an allocated mount. -/
theorem crossUp_total (h : Holds s0 [vp] s) : ∃ up, crossUp s (s.vnodes vp) = some up ∧
      ∀ p, up = some p → ∃ m mt, s0.mounts m = some mt ∧ mt.mountpoint = some p := by
  obtain ⟨m, hm, hsome⟩ := h.mp h0.mp vp (h.live (.inr mem_cons_self))
  obtain ⟨mt, hmt⟩ := isSome_iff_exists.mp hsome
  have hmt' : s0.mounts m = some mt := by rw [← h.mounts, hmt]
  obtain ⟨r, hr⟩ := isSome_iff_exists.mp (h0.rooted m mt hmt')
  unfold crossUp
  simp only [hm, hmt, hr]
  cases hpt : mt.mountpoint with
  | none => exact ⟨none, rfl, by simp⟩
  | some p =>
    dsimp only
    split
    · refine ⟨some p, rfl, fun q hq => ⟨m, mt, hmt', ?_⟩⟩
      rw [hpt, some.inj hq]
    · exact ⟨none, rfl, by simp⟩

theorem nameiStep_total (hup : UpFound c s0) (name : Name) (h : Holds s0 [vp] s)
    (next : Option (Option Nat)) : ∃ w, nameiStep c name vp next s = some w ∧ w.Fine s0 := by
  unfold nameiStep
  split
  · exact h.fail
  by_cases hn : name = dotdot
  · obtain ⟨up, h1, h2⟩ := crossUp_total h0 h
    rw [if_pos hn, h1, bind_some]
    cases up with
    | none => exact stepDown_total h0 h
    | some p =>
      obtain ⟨m, mt, hm, hp⟩ := h2 p rfl
      exact stepUp_total h0 (h0.live m mt hm p (.inr hp)) (hup m mt p hm hp) h next
  · rw [if_neg hn, bind_some]
    exact stepDown_total h0 h

theorem walk_total (hup : UpFound c s0) (names : List Name) (next : Option (Option Nat))
    (h : Holds s0 [vp] s) : ∃ r s', walk c names vp next s = some (r, s') ∧ ∀ d, r = some d → Holds s0 [d] s' := by
  induction names generalizing vp next s with
  | nil =>
    refine ⟨some vp, s, rfl, fun d hd => ?_⟩
    cases hd
    exact h
  | cons name names ih =>
    obtain ⟨w, h1, h2⟩ := nameiStep_total h0 hup name h next
    simp only [walk, h1, bind_some]
    cases w with
    | fail s' => exact ⟨none, s', rfl, by simp⟩
    | «at» vp' next' s' => exact ih next' h2

end

section

variable (h : Sound s) (hup : UpFound c s) (hcwd : ∀ i, cwd = some i → 0 < refs s i)
include h hup hcwd

theorem vfsNamei_total (path : List UInt8) : ∃ r, vfsNamei c cwd path s = some r := by
  cases hv : pathStart path cwd s with
  | none => exact ⟨(none, s), by simp [vfsNamei, hv]⟩
  | some v =>
    obtain ⟨r, s', h1, -⟩ := walk_total h hup (components path) none
      ((Holds.refl s).get (pathStart_live h.live hcwd hv))
    exact ⟨(r, s'), (vfsNamei_eq_walk c cwd path s hv).trans h1⟩

theorem vfsNameiparent_total (path : List UInt8) : ∃ r, vfsNameiparent c cwd path s = some r := by
  cases hv : pathStart path cwd s with
  | none => exact ⟨(none, s), by simp [vfsNameiparent, hv]⟩
  | some v =>
    have hgo := (Holds.refl s).get (pathStart_live h.live hcwd hv)
    cases eq_nil_or_concat' (components path) with
    | inl hc =>
      obtain ⟨s1, h1, -⟩ := hgo.put
      exact ⟨(none, s1), by rw [vfsNameiparent_nil c cwd s hv hc, h1]; rfl⟩
    | inr hc =>
      obtain ⟨names, name, hc⟩ := hc
      obtain ⟨r, s', h1, h2⟩ := walk_total h hup names none hgo
      rw [vfsNameiparent_eq_walk c cwd s hv hc, h1, bind_some]
      cases r with
      | none => exact ⟨_, rfl⟩
      | some d =>
        obtain ⟨s1, h3, -⟩ := (h2 d rfl).put
        simp only [parentEnd, h3]
        split
        · exact ⟨_, rfl⟩
        · exact ⟨_, rfl⟩

theorem vfsOpen_total (path : List UInt8) (mode : Nat) : ∃ r, vfsOpen c cwd path mode s = some r := by
  obtain ⟨⟨ip, s1⟩, h1⟩ := vfsNamei_total h hup hcwd path
  have hh := vfsNamei_holds c cwd path h.live hup hcwd h1
  unfold vfsOpen
  rw [h1, bind_some]
  cases ip with
  | some ip => exact openCheck_total hh
  | none =>
    dsimp only
    split
    · obtain ⟨hl1, hup1⟩ := hh.walkable h.live hup
      have hs1 : Sound s1 :=
        ⟨hh.filled h.filled, hl1, hh.mp h.mp, hh.mounts ▸ h.rooted, hh.mounts ▸ hh.table ▸ h.table⟩
      have hcwd1 : ∀ i, cwd = some i → 0 < refs s1 i := fun i hi => hh.live (.inl (hcwd i hi))
      obtain ⟨⟨q, s2⟩, h2⟩ := vfsNameiparent_total hs1 hup1 hcwd1 path
      have hq := vfsNameiparent_holds c cwd path hl1 hup1 hcwd1 h2
      rw [h2, bind_some]
      cases q with
      | none => exact ⟨_, rfl⟩
      | some q =>
        have hlive := hq.live (.inr mem_cons_self)
        obtain ⟨⟨ip, s3⟩, h3⟩ := create_total c (hq.filled hs1.filled) hlive q.2
        obtain ⟨s4, h4, h5, -⟩ := Holds.put ((create_holds c hq hlive q.2 h3).perm perm_append_comm)
        dsimp only at h3 h4 ⊢
        rw [h3, bind_some, h4, bind_some]
        cases ip with
        | none => exact ⟨_, rfl⟩
        | some ip => exact openCheck_total h5
    · exact ⟨_, rfl⟩

/-- `vfs_namei` and `vfs_nameiparent` come back, with one more reference on the vnode they return
and none on any other. -/
def WalkBalanced (c : Content) (cwd : Option Nat) (path : List UInt8) (s : State) : Prop :=
  (∃ r s', vfsNamei c cwd path s = some (r, s') ∧
    ∀ i, refs s' i = refs s i + if r = some i then 1 else 0) ∧
  ∃ r s', vfsNameiparent c cwd path s = some (r, s') ∧
    ∀ i, refs s' i = refs s i + if r.map Prod.fst = some i then 1 else 0

omit h hup hcwd in
theorem count_toList (r : Option Nat) (i : Nat) : r.toList.count i = if r = some i then 1 else 0 := by
  cases r with
  | none => rfl
  | some j =>
    by_cases h : j = i
    · simp [h]
    · simp [h]

theorem walkBalanced_of_upFound (path : List UInt8) : WalkBalanced c cwd path s := by
  obtain ⟨⟨r, t⟩, h1⟩ := vfsNamei_total h hup hcwd path
  obtain ⟨⟨r', t'⟩, h2⟩ := vfsNameiparent_total h hup hcwd path
  refine ⟨⟨r, t, h1, fun i => ?_⟩, r', t', h2, fun i => ?_⟩
  · rw [← count_toList]
    exact (vfsNamei_holds c cwd path h.live hup hcwd h1).count i
  · rw [← count_toList]
    exact (vfsNameiparent_holds c cwd path h.live hup hcwd h2).count i

end

theorem lookup_up_missing (hf : Filled (s.vnodes p)) (h : ¬ HasUp c (s.vnodes p)) :
    lookup c s p dotdot = some ⟨false, none, s⟩ := by
  obtain ⟨-, -, hops, -⟩ := hf
  obtain ⟨fs, hfs⟩ := isSome_iff_exists.mp hops
  simp only [HasUp, not_forall, not_or, not_and, Bool.not_eq_true, isSome_eq_false_iff, isNone_iff_eq_none] at h
  obtain ⟨node, hnode, hroot, hnone⟩ := h
  unfold lookup
  simp only [hnode, hfs]
  cases fs with
  | xv6fs => simp [xv6fsLookup, hnone]
  | ext2 => simp [ext2Lookup, hnone]
  | fat32 =>
    have hdot : dotdot ≠ dot := by decide
    simp [flookup, hdot, hroot hfs, hnone]

/-- The root of every mount is a directory of that mount. -/
def RootDirs (s : State) : Prop :=
  ∀ m mt r, s.mounts m = some mt → mt.root = some r →
    (s.vnodes r).type = .dir ∧ (s.vnodes r).mp = some m

/-- From the root of a mount, ".." is looked up in the mountpoint; if it is not there, the walk
goes on with a `next` that was never set. -/
theorem namei_up_missing (h : Sound s) (hr : RootDirs s) {m r : Nat} {mt : Mount}
    (hm : s.mounts m = some mt) (hroot : mt.root = some r) (hp : mt.mountpoint = some p)
    (hup : ¬ HasUp c (s.vnodes p)) : vfsNamei c (some r) dotdot s = none := by
  obtain ⟨hdir, hmp⟩ := hr m mt r hm hroot
  have hrlive : 0 < refs s r := h.live m mt hm r (.inl hroot)
  have hplive : 0 < refs s p := h.live m mt hm p (.inr hp)
  have h1 := (Holds.refl s).get hrlive
  have hid := vget_ident r r s
  have hdir1 : ((vget r s).vnodes r).type = .dir := (congrArg Vnode.type hid).trans hdir
  have hmp1 : ((vget r s).vnodes r).mp = some m := (congrArg Vnode.mp hid).trans hmp
  have hcross : crossUp (vget r s) ((vget r s).vnodes r) = some (some p) := by
    have hm1 : (vget r s).mounts m = some mt := hm
    simp [crossUp, hmp1, hm1, hp, hroot]
  obtain ⟨s2, h2, h3, -⟩ := ((h1.get (h1.live (.inl hplive))).perm (List.Perm.swap r p [])).put
  have hplive2 : 0 < refs s2 p := h3.live (.inl hplive)
  have hfill := h3.filled h.filled p hplive2
  have hmiss : lookup c s2 p dotdot = some ⟨false, none, s2⟩ := by
    refine lookup_up_missing hfill fun h4 => hup (h4.congr ?_)
    exact (h3.same p hplive).symm
  have hops : (s2.vnodes p).ops.isSome = true := hfill.2.2.1
  obtain ⟨s3, h5, -⟩ := h3.put
  have hstep : nameiStep c dotdot r none (vget r s) = none := by
    simp [nameiStep, hdir1, hcross, stepUp, h2, hops, hmiss, h5]
  have hskip : skipelem dotdot = some (dotdot, []) := by decide
  have hstart : pathStart dotdot (some r) s = some r := by
    simp [pathStart, dotdot, slash]
  rw [vfsNamei, hstart]
  change nameiLoop c 2 dotdot r none (vget r s) = none
  simp only [nameiLoop, hskip, hstep, bind_none]

end Xv6Vfs.Vfs
