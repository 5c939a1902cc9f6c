import Xv6Vfs.Vfs.Table

/-! Every operation on the VFS keeps `Inv`, and so does every run, as long as each mountpoint
directory still has its "..". -/
namespace Xv6Vfs.Vfs
open Function List Option

variable {y y' : Sys} {addr : Nat} {s s' : State} {r : Bool × State} {cwd : Option Nat} {path : List UInt8}

theorem rootVnode_filled (c : Content) (fs : FsType) (dev addr : Nat) (type : VType) (size : Nat) :
    Filled (rootVnode c fs dev addr type size) := by
  cases fs <;> simp [Filled, rootVnode]

theorem rootVnode_fits (s : State) (x : Mount) (n : Nat) (c : Content) (fs : FsType) (dev addr : Nat) (type : VType)
    (size : Nat) : Fits (s.setMount addr (some x) n) (rootVnode c fs dev addr type size) :=
  ⟨fun _ => rootVnode_filled c fs dev addr type size, fun _ => ⟨addr, rfl, by simp [State.setMount]⟩⟩

theorem rootNew_holds (s : State) (v : Vnode) (hv : Fits s v) :
    ∃ r s', rootNew v s = some (r, s') ∧ Holds s r.toList s' := by
  unfold rootNew
  split
  · obtain ⟨r, s', h1, h2, -⟩ := (Holds.refl s).new v hv
    exact ⟨r, s', h1, by simpa using h2⟩
  · obtain ⟨r, s', h1, h2, -⟩ := (Holds.refl s).igetOr v hv
    exact ⟨r, s', h1, by simpa using h2⟩

/-- What `mountfn` leaves: on success one mount more, outside the table and without a
mountpoint, whose root is referenced. -/
structure Mounted (s : State) (held : List Nat) (addr : Nat) (root : Option Nat) (s' : State) :
    Prop where
  core : Core s' (root.toList ++ held)
  table : s'.mounttable = s.mounttable
  same : ∀ i, 0 < refs s i → ident (s'.vnodes i) = ident (s.vnodes i)
  failed : root = none → s'.mounts = s.mounts
  mounts : ∀ i, root = some i →
    ∃ mt, mt.root = some i ∧ mt.mountpoint = none ∧ s'.mounts = update s.mounts addr (some mt)

theorem mountfn_mounted (c : Content) (fs : FsType) (dev addr : Nat) {held : List Nat} (h : Core s held)
    (ha : s.mounts addr = none) {r : Option Nat × State} (hr : mountfn c fs dev addr s = some r) :
    Mounted s held addr r.1 r.2 := by
  have hnot : addr ∉ s.mounttable := by
    intro hm
    have := h.alloc addr hm
    simp [ha] at this
  have hsame : Mounted s held addr none s := ⟨h, rfl, fun _ _ => rfl, fun _ => rfl, by simp⟩
  unfold mountfn at hr
  split at hr
  · cases hr
    exact hsame
  case h_2 type size _ =>
    split at hr
    · cases hr
      exact hsame
    · dsimp only at hr
      obtain ⟨x, s2, h1, h2⟩ := rootNew_holds _ _ (rootVnode_fits s ⟨false, some fs, none, none, dev, []⟩
        (s.pages - mountPages fs) c fs dev addr type size)
      rw [h1] at hr
      have hcore := (h.setMount hnot (some ⟨false, some fs, none, none, dev, []⟩) (s.pages - mountPages fs)).holds h2
      have hnot2 : addr ∉ s2.mounttable := h2.table.symm ▸ hnot
      cases x with
      | none =>
        cases hr
        refine ⟨hcore.setMount hnot2 none _, h2.table, h2.same, fun _ => ?_, by simp⟩
        simp [State.setMount, h2.mounts, ← ha]
      | some i =>
        cases hr
        refine ⟨hcore.setMount hnot2 _ _, h2.table, h2.same, by simp, fun j hj => ?_⟩
        cases hj
        exact ⟨⟨false, some fs, some i, none, dev, []⟩, rfl, rfl, by simp [State.setMount, h2.mounts]⟩

section Finish

variable {s : State} {held : List Nat} {addr root : Nat} {mt : Mount} {mounts0 : Nat → Option Mount}

theorem abortMount_core {mpoint : Option Nat} (h : Core s (mpoint.toList ++ root :: held)) (ha : addr ∉ s.mounttable)
    (h0 : mounts0 addr = none) (hm : s.mounts = update mounts0 addr (some mt)) (hr : mt.root = some root)
    (hs : abortMount addr mpoint s = some r) :
    Core r.2 held ∧ r.2.mounts = mounts0 ∧ r.2.mounttable = s.mounttable := by
  unfold abortMount at hs
  obtain ⟨s1, h1, h2, h3, h4⟩ := h.putOpt
  have hmt : s1.mounts addr = some mt := by
    simp [h3, hm]
  rw [h1, bind_some, hmt, bind_some] at hs
  obtain ⟨s2, h5, rfl⟩ := map_eq_some_iff.mp hs
  have h2' : Core s1 (mt.root.toList ++ held) := by
    rwa [hr]
  obtain ⟨h6, h7, h8⟩ := h2'.unmount h5
  have hnot : addr ∉ s2.mounttable := by
    rwa [h8, h4]
  refine ⟨h6.setMount hnot none _, ?_, h8.trans h4⟩
  simp [freeMount, State.setMount, h7, h3, hm, ← h0]

/-- Between operations the allocated mounts are those of the table. -/
def Only (s : State) : Prop := ∀ m, (s.mounts m).isSome → m ∈ s.mounttable

theorem attach_core (mpoint : Option Nat) {dev : Nat} (h : Core s (mpoint.toList ++ root :: held))
    (ha : addr ∉ s.mounttable) (h0 : mounts0 addr = none) (hm : s.mounts = update mounts0 addr (some mt))
    (hr : mt.root = some root) (honly : ∀ m, (mounts0 m).isSome → m ∈ s.mounttable)
    (hfree : ∀ p, mpoint = some p → s.mounttable.tail.any (covers s (s.vnodes p)) = false)
    (hs : attach addr mpoint path dev s = some r) : Core r.2 held ∧ Only r.2 := by
  unfold attach at hs
  split at hs
  · obtain ⟨h1, h2, h3⟩ := abortMount_core h ha h0 hm hr hs
    refine ⟨h1, fun m hmm => ?_⟩
    rw [h2] at hmm
    rw [h3]
    exact honly m hmm
  · have hmt : s.mounts addr = some mt := by
      simp [hm]
    rw [hmt] at hs
    cases hs
    refine ⟨Core.attach ha hr h hfree, fun m hmm => ?_⟩
    by_cases he : m = addr
    · simp [he]
    · simp only [State.setMount, hm] at hmm
      rw [update_of_ne he, update_of_ne he] at hmm
      exact mem_append_left _ (honly m hmm)

end Finish

theorem Inv.mountsLive (h : Inv y) : MountsLive y.vfs := by
  intro m mt hm i hi
  have hmem : m ∈ y.vfs.mounttable := h.only m (by simp [hm])
  exact h.core.live (.inr (mem_mountRefs hmem hm hi))

theorem Inv.holds (h : Inv y) {hs : List Nat} (hh : Holds y.vfs hs s') : Inv ⟨s', hs ++ y.held⟩ := by
  refine ⟨h.core.holds hh, fun m hm => ?_⟩
  simp only [hh.mounts] at hm
  simp only [hh.table]
  exact h.only m hm

theorem Inv.cwd_live (h : Inv y) (hc : cwdHeld cwd y.held = true) : ∀ i, cwd = some i → 0 < refs y.vfs i := by
  intro i hi
  subst hi
  exact h.core.live (.inl (by simpa [cwdHeld] using hc))

/-- The walk to the mountpoint starts with the new mount already allocated. -/
theorem Mounted.ready (h : Inv y) {c : Content} (hup : UpFound c y.vfs) {root : Nat}
    (hm : Mounted y.vfs y.held addr (some root) s') : MountsLive s' ∧ UpFound c s' := by
  obtain ⟨mt, h1, h2, h3⟩ := hm.mounts root rfl
  have hold : ∀ m mt', s'.mounts m = some mt' → m ≠ addr → y.vfs.mounts m = some mt' := by
    intro m mt' hmt hne
    simpa [h3, hne] using hmt
  constructor
  · intro m mt' hmt i hi
    by_cases he : m = addr
    · subst he
      obtain rfl : mt = mt' := by simpa [h3] using hmt
      refine hm.core.live (.inl ?_)
      rcases hi with hi | hi
      · obtain rfl : root = i := by simpa [h1] using hi
        simp
      · simp [h2] at hi
    · have h4 := hold m mt' hmt he
      have hmem : m ∈ s'.mounttable := hm.table ▸ h.only m (by simp [h4])
      exact hm.core.live (.inr (mem_mountRefs hmem hmt hi))
  · intro m mt' p hmt hp
    by_cases he : m = addr
    · subst he
      obtain rfl : mt = mt' := by simpa [h3] using hmt
      simp [h2] at hp
    · have h4 := hold m mt' hmt he
      exact (hup m mt' p h4 hp).congr (hm.same p (h.mountsLive m mt' h4 p (.inr hp)))

theorem vfsMount_inv (h : Inv y) (c : Content) (hup : UpFound c y.vfs) (hc : cwdHeld cwd y.held = true)
    (path : List UInt8) (dev : Nat) (fs : Option FsType) (ha : y.vfs.mounts addr = none)
    (hr : vfsMount c cwd path dev fs addr y.vfs = some r) : Inv ⟨r.2, y.held⟩ := by
  unfold vfsMount at hr
  split at hr
  · cases hr
    exact h
  split at hr
  · cases hr
    exact h
  obtain ⟨⟨root, s1⟩, hf, hr⟩ := bind_eq_some_iff.mp hr
  have hm := mountfn_mounted c _ dev addr h.core ha hf
  have hnot : addr ∉ y.vfs.mounttable := by
    intro hmem
    have := h.core.alloc addr hmem
    simp [ha] at this
  cases root with
  | none =>
    cases hr
    refine ⟨hm.core, fun m hmm => ?_⟩
    rw [hm.failed rfl] at hmm
    rw [hm.table]
    exact h.only m hmm
  | some root =>
    obtain ⟨mt, h1, h2, h3⟩ := hm.mounts root rfl
    simp only [reduceCtorEq, if_false] at hr hm h3
    have honly : ∀ m, (y.vfs.mounts m).isSome → m ∈ s1.mounttable := hm.table.symm ▸ h.only
    have hnot1 : addr ∉ s1.mounttable := hm.table.symm ▸ hnot
    split at hr
    · obtain ⟨h4, h5⟩ := attach_core none hm.core hnot1 ha h3 h1 honly (by simp) hr
      exact ⟨h4, h5⟩
    · obtain ⟨⟨w, s2⟩, hw, hr⟩ := bind_eq_some_iff.mp hr
      obtain ⟨hl1, hup1⟩ := hm.ready h hup
      have hcwd : ∀ i, cwd = some i → 0 < refs s1 i := by
        intro i hi
        subst hi
        refine hm.core.live (.inl (mem_append_right _ ?_))
        simpa [cwdHeld] using hc
      have hh := vfsNamei_holds c cwd path hl1 hup1 hcwd hw
      have hcore := hm.core.holds hh
      have h3' := hh.mounts.trans h3
      have hnot2 : addr ∉ s2.mounttable := hh.table.symm ▸ hnot1
      have honly2 : ∀ m, (y.vfs.mounts m).isSome → m ∈ s2.mounttable := hh.table.symm ▸ honly
      have habort : ∀ mpoint, Core s2 (mpoint.toList ++ root :: y.held) →
          ∀ r, abortMount addr mpoint s2 = some r → Inv ⟨r.2, y.held⟩ := by
        intro mpoint hcm r hr
        obtain ⟨h4, h5, h6⟩ := abortMount_core hcm hnot2 ha h3' h1 hr
        exact ⟨h4, fun m hmm => h6.symm ▸ honly2 m (h5 ▸ hmm)⟩
      cases w with
      | none => exact habort none hcore r hr
      | some p =>
        dsimp only at hr
        split at hr
        · exact habort (some p) hcore r hr
        case isFalse hok =>
          obtain ⟨h4, h5⟩ := attach_core (some p) hcore hnot2 ha h3' h1 honly2 (by
            intro q hq
            cases hq
            simpa using fun hany => hok (.inr hany)) hr
          exact ⟨h4, h5⟩

section Umount

variable (mounts : Nat → Option Mount) (table : List Nat)

/-- `vput` does not look at the mounts. -/
def State.setTables (s : State) : State := { s with mounts := mounts, mounttable := table }

theorem vput_setTables (i : Nat) (s : State) :
    vput i (s.setTables mounts table) = (vput i s).map fun s' => s'.setTables mounts table := by
  unfold vput
  split
  · rw [if_pos (by assumption)]
    rfl
  split
  · rw [if_neg (by assumption), if_pos (by assumption)]
    rfl
  · rw [if_neg (by assumption), if_neg (by assumption)]
    rfl

theorem unmount_setTables (mt : Mount) (s : State) :
    unmount mt (s.setTables mounts table) = (unmount mt s).map fun s' => s'.setTables mounts table := by
  unfold unmount
  split
  · rfl
  · cases mt.root with
    | none => rfl
    | some i => exact vput_setTables mounts table i s

theorem vputOpt_setTables (v : Option Nat) (s : State) :
    vputOpt v (s.setTables mounts table) = (vputOpt v s).map fun s' => s'.setTables mounts table := by
  cases v with
  | none => rfl
  | some i => exact vput_setTables mounts table i s

end Umount

theorem vputOpt_tables {v : Option Nat} (h : vputOpt v s = some s') :
    s'.mounts = s.mounts ∧ s'.mounttable = s.mounttable := by
  have h1 := vputOpt_setTables s.mounts s.mounttable v s
  have h2 : s.setTables s.mounts s.mounttable = s := rfl
  rw [h2, h] at h1
  obtain h3 := some.inj h1
  rw [h3]
  exact ⟨rfl, rfl⟩

theorem unmount_tables {mt : Mount} (h : unmount mt s = some s') :
    s'.mounts = s.mounts ∧ s'.mounttable = s.mounttable := by
  have h1 := unmount_setTables s.mounts s.mounttable mt s
  have h2 : s.setTables s.mounts s.mounttable = s := rfl
  rw [h2, h] at h1
  obtain h3 := some.inj h1
  rw [h3]
  exact ⟨rfl, rfl⟩

theorem eraseIdx_split {l : List Nat} {k m : Nat} (h : l[k + 1]? = some m) :
    ∃ l1 l2, l = l1 ++ m :: l2 ∧ l1 ≠ [] ∧ l.eraseIdx (k + 1) = l1 ++ l2 := by
  obtain ⟨hk, hm⟩ := List.getElem?_eq_some_iff.mp h
  refine ⟨l.take (k + 1), l.drop (k + 2), ?_, ?_, eraseIdx_eq_take_drop_succ l (k + 1)⟩
  · rw [← hm, getElem_cons_drop, take_append_drop]
  · intro he
    have := congrArg List.length he
    simp only [length_take, length_nil] at this
    omega

theorem vfsUmount_inv (h : Inv y) (hr : vfsUmount path y.vfs = some r) : Inv ⟨r.2, y.held⟩ := by
  unfold vfsUmount at hr
  split at hr
  · cases hr
    exact h
  · cases hr
    exact h
  case h_3 k _ =>
    obtain ⟨m, hm, hr⟩ := bind_eq_some_iff.mp hr
    obtain ⟨mt, hmt, hr⟩ := bind_eq_some_iff.mp hr
    split at hr
    · cases hr
      exact h
    obtain ⟨s1, h1, hr⟩ := bind_eq_some_iff.mp hr
    obtain ⟨s2, h2, rfl⟩ := map_eq_some_iff.mp hr
    obtain ⟨l1, l2, ht, hl, herase⟩ := eraseIdx_split hm
    obtain ⟨hm1, ht1⟩ := unmount_tables h1
    obtain ⟨hm2, ht2⟩ := vputOpt_tables h2
    -- The references can be dropped after the table is changed: `vput` does not see the difference.
    have c0 := h.core.detach ht hl hmt
    have e1 := unmount_setTables (update y.vfs.mounts m none) (l1 ++ l2) mt y.vfs
    rw [h1] at e1
    obtain ⟨c1, -⟩ := c0.unmount e1
    have e2 := vputOpt_setTables (update y.vfs.mounts m none) (l1 ++ l2) mt.mountpoint
      { s1 with mounttable := s1.mounttable.eraseIdx (k + 1) }
    rw [h2] at e2
    obtain ⟨s3, e3, c2, -⟩ := Core.putOpt c1
    cases e2.symm.trans e3
    have hnd := h.core.nodup
    rw [ht] at hnd
    have hnot : m ∉ l1 ++ l2 := (nodup_middle.mp hnd).notMem
    have c3 := c2.setMount (a := m) hnot none (freeMount m mt s2).pages
    have hstate : (s2.setTables (update y.vfs.mounts m none) (l1 ++ l2)).setMount m none
        (freeMount m mt s2).pages = freeMount m mt s2 := by
      simp only [freeMount, State.setMount, State.setTables, hm2, hm1, ht2, ht1, herase, update_idem]
    rw [hstate] at c3
    refine ⟨c3, fun b hb => ?_⟩
    have hb' : (update y.vfs.mounts m none b).isSome := by
      simpa [freeMount, State.setMount, hm2, hm1] using hb
    have hbm : b ≠ m := by
      intro he
      simp [he] at hb'
    rw [update_of_ne hbm] at hb'
    have hmem := h.only b hb'
    rw [ht] at hmem
    have : b ∈ l1 ++ l2 := by
      rcases mem_append.mp hmem with hmem | hmem
      · exact mem_append_left _ hmem
      · exact mem_append_right _ ((mem_cons.mp hmem).resolve_left hbm)
    simpa [freeMount, State.setMount, ht2, ht1, herase] using this

/-- The directories an operation sees give ".." in every mountpoint. -/
def Op.upFound (op : Op) (y : Sys) : Prop :=
  match op with
  | .mount c _ _ _ _ _ => UpFound c y.vfs
  | .namei c _ _ => UpFound c y.vfs
  | .open c _ _ _ => UpFound c y.vfs
  | _ => True

theorem exec_inv {op : Op} (h : Inv y) (hup : op.upFound y) (hs : exec op y = some y') : Inv y' := by
  cases op with
  | mount c cwd path dev fs addr =>
    simp only [exec] at hs
    split at hs
    case isTrue hc =>
      simp only [Bool.and_eq_true, isNone_iff_eq_none] at hc
      obtain ⟨r, hr, rfl⟩ := map_eq_some_iff.mp hs
      exact vfsMount_inv h c hup hc.1 path dev fs hc.2 hr
    · simp at hs
  | umount path =>
    obtain ⟨r, hr, rfl⟩ := map_eq_some_iff.mp hs
    exact vfsUmount_inv h hr
  | namei c cwd path =>
    simp only [exec] at hs
    split at hs
    case isTrue hc =>
      obtain ⟨r, hr, rfl⟩ := map_eq_some_iff.mp hs
      exact h.holds (vfsNamei_holds c cwd path h.mountsLive hup (h.cwd_live hc) hr)
    · simp at hs
  | «open» c cwd path mode =>
    simp only [exec] at hs
    split at hs
    case isTrue hc =>
      obtain ⟨r, hr, rfl⟩ := map_eq_some_iff.mp hs
      exact h.holds (vfsOpen_holds c cwd path mode h.mountsLive hup (h.cwd_live hc) hr)
    · simp at hs
  | lookup c d name =>
    simp only [exec] at hs
    split at hs
    case isTrue hd =>
      obtain ⟨r, hr, rfl⟩ := map_eq_some_iff.mp hs
      have hlive := h.core.live (i := d) (.inl (by simpa using hd))
      have hb := (lookup_balanced c (Holds.refl y.vfs) hlive name hr).holds
      rw [append_nil] at hb
      exact h.holds hb
    · simp at hs
  | close v =>
    simp only [exec] at hs
    split at hs
    case isTrue hv =>
      obtain ⟨s', hr, rfl⟩ := map_eq_some_iff.mp hs
      have hmem : v ∈ y.held := by simpa using hv
      obtain ⟨s2, h1, h2, h3, h4⟩ := (h.core.perm (perm_cons_erase hmem)).put
      obtain rfl : s2 = s' := some.inj (h1.symm.trans hr)
      refine ⟨h2, fun m hm => ?_⟩
      rw [h3] at hm
      rw [h4]
      exact h.only m hm
    · simp at hs
  | memory n =>
    cases hs
    exact ⟨h.core.transfer rfl rfl h.core.owns h.core.filled fun _ _ _ => rfl, h.only⟩

theorem vfsInit_inv (pages : Nat) : Inv (vfsInit pages) := by
  refine ⟨⟨?_, ?_, ?_, ?_, ?_⟩, ?_⟩ <;>
    simp [vfsInit, mountRefs, AllFilled, refs, emptyVnode]

theorem run_inv {ops : List Op} (h : Inv y) (hup : Run.Meets exec (fun y op => op.upFound y) ops y)
    (hr : Run.run exec ops y = some y') : Inv y' :=
  Run.run_invariant Inv (fun _ _ _ hinv hok hs => exec_inv hinv hok hs) h hup hr

end Xv6Vfs.Vfs
