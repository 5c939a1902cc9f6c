import Xv6Vfs.Vfs.Effect

/-! Runs in which only idle file systems are unmounted. The table, the reference counts and the
mounts that vnodes belong to then stay exact. -/
namespace Xv6Vfs.Vfs
open Function List Option

variable {op : Op} {a b k : Nat} {l : List Nat} {ops : List Op}

/-- The only vnode of mount `m` in use is its root, and only the mount refers to it. -/
def Idle (s : State) (m : Nat) (mt : Mount) : Prop :=
  ∀ i, 0 < refs s i → (s.vnodes i).mp = some m → mt.root = some i ∧ refs s i = 1

/-- What the callers see to: processes pass what they hold, `kalloc` gives a free page, and
`argstr` copies at most 127 bytes of path. -/
def Op.legal (op : Op) (y : Sys) : Prop :=
  match op with
  | .mount _ cwd path _ _ addr =>
    cwdHeld cwd y.held = true ∧ y.vfs.mounts addr = none ∧ path.length < 128
  | .namei _ cwd _ => cwdHeld cwd y.held = true
  | .open _ cwd _ _ => cwdHeld cwd y.held = true
  | .lookup _ d _ => d ∈ y.held
  | .close v => v ∈ y.held
  | .umount _ => True
  | .memory _ => True

/-- xv6fs, which has no `unmount`, is only mounted as the root. -/
def Op.rootOnly (op : Op) (y : Sys) : Prop :=
  match op with
  | .mount _ _ path _ fs _ => fs = some .xv6fs → y.vfs.mounttable = [] ∧ path = [slash]
  | _ => True

/-- What is unmounted is idle. -/
def Op.idle (op : Op) (y : Sys) : Prop :=
  match op with
  | .umount path => ∀ m ∈ y.vfs.mounttable.tail, ∀ mt, y.vfs.mounts m = some mt →
      pathIs y.vfs path m = true → Idle y.vfs m mt
  | _ => True

/-- The calls of a run that stays in order. -/
structure Op.Calm (y : Sys) (op : Op) : Prop where
  legal : op.legal y
  rootOnly : op.rootOnly y
  upFound : op.upFound y
  idle : op.idle y

/-- The mount table. -/
structure TableOk (s : State) : Prop where
  room : s.mounttable.length ≤ nmountMax
  nodup : s.mounttable.Nodup
  valid : ∀ m ∈ s.mounttable, ∃ mt, s.mounts m = some mt ∧ mt.valid = true ∧ mt.root.isSome ∧
    mt.ops.isSome
  top : ∀ m mt, s.mounttable.head? = some m → s.mounts m = some mt →
    mt.mountpoint = none ∧ mt.path = [slash]
  below : ∀ m mt, m ∈ s.mounttable.tail → s.mounts m = some mt →
    mt.mountpoint.isSome ∧ mt.ops ≠ some .xv6fs
  devs : ∀ m ∈ s.mounttable, ∀ m' ∈ s.mounttable, ∀ mt mt', s.mounts m = some mt →
    s.mounts m' = some mt' → mt.dev = mt'.dev → m = m'
  paths : ∀ m ∈ s.mounttable, ∀ m' ∈ s.mounttable, ∀ mt mt', s.mounts m = some mt →
    s.mounts m' = some mt' → mt.path = mt'.path → m = m'
  points : ∀ m ∈ s.mounttable, ∀ m' ∈ s.mounttable, ∀ p p', mpointOf s m = some p →
    mpointOf s m' = some p' → (s.vnodes p).dev = (s.vnodes p').dev →
    (s.vnodes p).inum = (s.vnodes p').inum → m = m'

/-- The whole system in order: processes and mounts own every reference, and every live vnode
belongs to an allocated mount. -/
structure Tidy (y : Sys) : Prop where
  table : TableOk y.vfs
  only : ∀ m, (y.vfs.mounts m).isSome → m ∈ y.vfs.mounttable
  short : ∀ m mt, y.vfs.mounts m = some mt → mt.path.length ≤ 127
  count : ∀ i, refs y.vfs i = (y.held ++ mountRefs y.vfs).count i
  filled : AllFilled y.vfs
  mp : MpOk y.vfs

variable {c : Content} {s s' : State} {y : Sys} {addr dev root : Nat} {path : List UInt8}
variable {cwd mpoint : Option Nat} {fs : FsType} {mt : Mount} {i m : Nat}

section

variable (h : Tidy y)
include h

theorem Tidy.live (hi : i ∈ y.held ∨ i ∈ mountRefs y.vfs) : 0 < refs y.vfs i := by
  rw [h.count]
  exact count_pos_iff.mpr (mem_append.mpr hi)

theorem Tidy.owned (hm : y.vfs.mounts m = some mt)
    (hi : mt.root = some i ∨ mt.mountpoint = some i) : 0 < refs y.vfs i :=
  h.live (.inr (mem_mountRefs (h.only m (by simp [hm])) hm hi))

theorem Tidy.sound : Sound y.vfs where
  filled := h.filled
  live := fun _ _ hm _ hi => h.owned hm hi
  mp := h.mp
  rooted := by
    intro m mt hm
    obtain ⟨mt', h1, -, h3, -⟩ := h.table.valid m (h.only m (by simp [hm]))
    cases hm.symm.trans h1
    exact h3
  table := by
    intro m hm
    obtain ⟨mt, h1, -⟩ := h.table.valid m hm
    simp [h1]

theorem Tidy.cwd_live (hcwd : cwdHeld cwd y.held = true) : ∀ i, cwd = some i → 0 < refs y.vfs i := by
  intro i hi
  rw [hi] at hcwd
  exact h.live (.inl (by simpa [cwdHeld] using hcwd))

theorem Tidy.empty (ht : y.vfs.mounttable = []) (i : Nat) : refs y.vfs i = 0 := by
  by_contra hne
  obtain ⟨m, -, hm⟩ := h.mp i (Nat.pos_of_ne_zero hne)
  have := h.only m hm
  simp [ht] at this

omit h in
/-- The table only looks at the mountpoints, which are live. -/
theorem TableOk.congr (h : TableOk s) (hm : s'.mounts = s.mounts) (ht : s'.mounttable = s.mounttable)
    (hid : ∀ m ∈ s.mounttable, ∀ p, mpointOf s m = some p → ident (s'.vnodes p) = ident (s.vnodes p)) : TableOk s' := by
  have hp : ∀ m, mpointOf s' m = mpointOf s m := by
    intro m
    simp only [mpointOf, hm]
  refine ⟨ht ▸ h.room, ht ▸ h.nodup, ?_, ?_, ?_, ?_, ?_, ?_⟩ <;> rw [ht]
  · rw [hm]; exact h.valid
  · rw [hm]; exact h.top
  · rw [hm]; exact h.below
  · rw [hm]; exact h.devs
  · rw [hm]; exact h.paths
  · intro m h1 m' h2 p p' h3 h4 h5 h6
    rw [hp] at h3 h4
    have e1 := hid m h1 p h3
    have e2 := hid m' h2 p' h4
    rw [ident_dev e1, ident_dev e2] at h5
    rw [ident_inum e1, ident_inum e2] at h6
    exact h.points m h1 m' h2 p p' h3 h4 h5 h6

omit h in
theorem mountRefs_congr (hm : s'.mounts = s.mounts) (ht : s'.mounttable = s.mounttable) :
    mountRefs s' = mountRefs s := by
  simp only [mountRefs, hm, ht]

theorem Tidy.mpoint_live {p : Nat} (hp : mpointOf y.vfs m = some p) : 0 < refs y.vfs p := by
  obtain ⟨mt, hmt, hpt⟩ := bind_eq_some_iff.mp hp
  exact h.owned hmt (.inr hpt)

theorem Tidy.holds {hs : List Nat} (hh : Holds y.vfs hs s') : Tidy ⟨s', hs ++ y.held⟩ where
  table := h.table.congr hh.mounts hh.table fun _ _ p hp => hh.same p (h.mpoint_live hp)
  only := by
    intro m hm
    simp only [hh.mounts, hh.table] at hm ⊢
    exact h.only m hm
  short := by
    simp only [hh.mounts]
    exact h.short
  count := by
    intro i
    have h1 := hh.count i
    have h2 := h.count i
    simp only [mountRefs_congr hh.mounts hh.table, count_append] at h2 ⊢
    omega
  filled := hh.filled h.filled
  mp := hh.mp h.mp

theorem Tidy.unchanged (hu : Unchanged y.vfs s') : Tidy ⟨s', y.held⟩ where
  table := h.table.congr hu.mounts hu.table fun _ _ p hp => hu.took.same p (h.mpoint_live hp)
  only := by
    intro m hm
    simp only [hu.mounts, hu.table] at hm ⊢
    exact h.only m hm
  short := by
    simp only [hu.mounts]
    exact h.short
  count := by
    intro i
    have h1 := hu.took.count i
    have h2 := h.count i
    simp only [mountRefs_congr hu.mounts hu.table, count_nil] at h1 h2 ⊢
    omega
  filled := hu.took.filled h.filled
  mp := by
    refine h.mp.congr hu.mounts fun i hi => ?_
    have h1 := (hu.took.mem hi).resolve_right (by simp)
    exact ⟨h1, hu.took.same i h1⟩

theorem Tidy.close (hi : i ∈ y.held) : ∃ s', vput i y.vfs = some s' ∧ Tidy ⟨s', y.held.erase i⟩ := by
  obtain ⟨s', h1, h2, h3, h4, h5, -⟩ := vput_spec (h.live (.inl hi))
  have hlive : ∀ j, 0 < refs s' j → 0 < refs y.vfs j := by
    intro j hj
    have := h2 j
    omega
  have hcount : ∀ j, refs s' j = (y.held.erase i ++ mountRefs y.vfs).count j := by
    intro j
    have h6 := h2 j
    have h7 := h.count j
    rw [((perm_cons_erase hi).append_right _).count_eq j] at h7
    simp only [cons_append, count_cons, beq_iff_eq] at h7
    omega
  refine ⟨s', h1, h.table.congr h4 h5 fun m hm p hp => h3 p ?_, ?_, ?_, fun j => ?_, ?_, ?_⟩
  · obtain ⟨mt, hmt, hpt⟩ := bind_eq_some_iff.mp hp
    rw [hcount]
    exact count_pos_iff.mpr (mem_append_right _ (mem_mountRefs hm hmt (.inr hpt)))
  · intro m hm
    simp only [h4, h5] at hm ⊢
    exact h.only m hm
  · simp only [h4]
    exact h.short
  · simp only [mountRefs_congr h4 h5]
    exact hcount j
  · exact h.filled.congr fun j hj => ⟨hlive j hj, h3 j hj⟩
  · exact h.mp.congr h4 fun j hj => ⟨hlive j hj, h3 j hj⟩

end

theorem forall_pairs_snoc {P : Nat → Nat → Prop} (hsymm : ∀ m m', P m m' → P m' m) (hold : ∀ m ∈ l, ∀ m' ∈ l, P m m')
    (hnew : ∀ m ∈ l, P m a) (hself : P a a) : ∀ m ∈ l ++ [a], ∀ m' ∈ l ++ [a], P m m' := by
  intro m hm m' hm'
  rcases mem_append.mp hm with h1 | h1 <;> rcases mem_append.mp hm' with h2 | h2
  · exact hold m h1 m' h2
  · exact mem_singleton.mp h2 ▸ hnew m h1
  · exact mem_singleton.mp h1 ▸ hsymm _ _ (hnew m' h2)
  · exact mem_singleton.mp h1 ▸ mem_singleton.mp h2 ▸ hself

theorem mem_tail_snoc (h : b ∈ (l ++ [a]).tail) : b ∈ l.tail ∨ b = a ∧ l ≠ [] := by
  cases l with
  | nil => simp at h
  | cons c l => simpa using h

theorem ne_of_free (hfree : s.mounts addr = none) (halloc : (s.mounts m).isSome) : m ≠ addr := by
  intro he
  simp [he, hfree] at halloc

theorem Added.self (h : Added s addr dev path fs root mpoint s') :
    s'.mounts addr = some ⟨true, some fs, some root, mpoint, dev, path.take 127⟩ := by
  simp [h.mounts]

section

variable (h : Added s addr dev path fs root mpoint s') (hfree : s.mounts addr = none)
include h hfree

theorem Added.old (halloc : (s.mounts m).isSome) : s'.mounts m = s.mounts m := by
  rw [h.mounts, update_of_ne (ne_of_free hfree halloc)]

theorem Added.mountRefs (halloc : ∀ m ∈ s.mounttable, (s.mounts m).isSome) :
    Vfs.mountRefs s' = Vfs.mountRefs s ++ root :: mpoint.toList := by
  have h1 : s.mounttable.flatMap (mountOwns s'.mounts) = s.mounttable.flatMap (mountOwns s.mounts) := by
    refine flatMap_congr fun m hm => ?_
    simp only [mountOwns, h.old hfree (halloc m hm)]
  simp [Vfs.mountRefs, h.table, h1, mountOwns, h.self]

/-- A new entry keeps the table in order. -/
theorem Added.tableOk (hs : TableOk s) (hlen : path.length < 128) (hlive : ∀ m p, mpointOf s m = some p → 0 < refs s p)
    (hempty : s.mounttable = [] → ∀ i, refs s i = 0) (hfs : fs = .xv6fs → s.mounttable = []) : TableOk s' := by
  have halloc : ∀ m ∈ s.mounttable, (s.mounts m).isSome := by
    intro m hm
    obtain ⟨mt, h1, -⟩ := hs.valid m hm
    simp [h1]
  have hold : ∀ m ∈ s.mounttable, s'.mounts m = s.mounts m := fun m hm => h.old hfree (halloc m hm)
  have hself := h.self
  have h127 : path.take 127 = path := take_of_length_le (by omega)
  have h128 : path.take 128 = path := take_of_length_le (by omega)
  have hpoint : ∀ m ∈ s.mounttable, mpointOf s' m = mpointOf s m := by
    intro m hm
    simp only [mpointOf, hold m hm]
  have hnone : mpoint = none → s.mounttable = [] := by
    intro hn
    cases hT : s.mounttable with
    | nil => rfl
    | cons a l =>
      obtain ⟨mt, h1, -⟩ := hs.valid a (by simp [hT])
      obtain ⟨-, h2⟩ := hs.top a mt (by simp [hT]) h1
      have h3 := (h.fresh a (by simp [hT])).1
      simp [pathIs, h1, h2, h.top.mp hn] at h3
  refine ⟨?_, ?_, ?_, ?_, ?_, ?_, ?_, ?_⟩
  · have := h.room
    rw [h.table, length_append, length_singleton]
    omega
  · rw [h.table]
    refine nodup_append.mpr ⟨hs.nodup, by simp, fun m hm b hb => ?_⟩
    exact mem_singleton.mp hb ▸ ne_of_free hfree (halloc m hm)
  · rw [h.table]
    intro m hm
    rcases mem_append.mp hm with h1 | h1
    · rw [hold m h1]
      exact hs.valid m h1
    · rw [mem_singleton.mp h1]
      exact ⟨_, hself, rfl, rfl, rfl⟩
  · intro m mt h1 h2
    rw [h.table] at h1
    cases hT : s.mounttable with
    | nil =>
      obtain rfl : addr = m := by simpa [hT] using h1
      cases hself.symm.trans h2
      have h3 := h.first hT (hempty hT)
      exact ⟨h3, by rw [h127, ← h128]; exact h.top.mp h3⟩
    | cons a l =>
      obtain rfl : a = m := by simpa [hT] using h1
      rw [hold a (by simp [hT])] at h2
      exact hs.top a mt (by simp [hT]) h2
  · intro m mt h1 h2
    rw [h.table] at h1
    rcases mem_tail_snoc h1 with h3 | ⟨rfl, h3⟩
    · rw [hold m (mem_tail h3)] at h2
      exact hs.below m mt h3 h2
    · cases hself.symm.trans h2
      refine ⟨?_, fun he => h3 (hfs (some.inj he))⟩
      exact isSome_iff_ne_none.mpr fun hn => h3 (hnone hn)
  · rw [h.table]
    refine forall_pairs_snoc (fun m m' h1 mt mt' h2 h3 h4 => (h1 mt' mt h3 h2 h4.symm).symm) ?_ ?_ ?_
    · intro m h1 m' h2 mt mt' h3 h4
      rw [hold m h1] at h3
      rw [hold m' h2] at h4
      exact hs.devs m h1 m' h2 mt mt' h3 h4
    · intro m h1 mt mt' h3 h4 h5
      rw [hold m h1] at h3
      cases hself.symm.trans h4
      have h6 := (h.fresh m h1).2
      simp [devIs, h3, h5] at h6
    · exact fun _ _ _ _ _ => rfl
  · rw [h.table]
    refine forall_pairs_snoc (fun m m' h1 mt mt' h2 h3 h4 => (h1 mt' mt h3 h2 h4.symm).symm) ?_ ?_ ?_
    · intro m h1 m' h2 mt mt' h3 h4
      rw [hold m h1] at h3
      rw [hold m' h2] at h4
      exact hs.paths m h1 m' h2 mt mt' h3 h4
    · intro m h1 mt mt' h3 h4 h5
      rw [hold m h1] at h3
      cases hself.symm.trans h4
      have h6 := (h.fresh m h1).1
      simp [pathIs, h3, h5, h127] at h6
    · exact fun _ _ _ _ _ => rfl
  · have hsame : ∀ m p, mpointOf s m = some p → ident (s'.vnodes p) = ident (s.vnodes p) :=
      fun m p hp => h.took.same p (hlive m p hp)
    rw [h.table]
    refine forall_pairs_snoc
      (fun m m' h1 p p' h2 h3 h4 h5 => (h1 p' p h3 h2 h4.symm h5.symm).symm) ?_ ?_ ?_
    · intro m h1 m' h2 p p' h3 h4 h5 h6
      rw [hpoint m h1] at h3
      rw [hpoint m' h2] at h4
      rw [ident_dev (hsame m p h3), ident_dev (hsame m' p' h4)] at h5
      rw [ident_inum (hsame m p h3), ident_inum (hsame m' p' h4)] at h6
      exact hs.points m h1 m' h2 p p' h3 h4 h5 h6
    · intro m h1 p p' h3 h4 h5 h6
      simp only [mpointOf, hself, bind_some] at h4
      have h3' := h3
      rw [hpoint m h1] at h3'
      have hm : m ∈ s.mounttable.tail := by
        -- The first mount has no mountpoint.
        cases hT : s.mounttable with
        | nil => simp [hT] at h1
        | cons a l =>
          rw [hT] at h1
          rcases mem_cons.mp h1 with rfl | h7
          · obtain ⟨mt, h8, -⟩ := hs.valid m (by simp [hT])
            have h9 := (hs.top m mt (by simp [hT]) h8).1
            simp [mpointOf, h8, h9] at h3'
          · exact h7
      have h7 := any_eq_false.mp (h.dir p' h4).2 m hm
      simp only [mpointOf] at h3
      simp [covers, h3, h5, h6] at h7
    · exact fun _ _ _ _ _ _ => rfl

end

theorem Tidy.alloc (h : Tidy y) : ∀ m ∈ y.vfs.mounttable, (y.vfs.mounts m).isSome := h.sound.table

theorem Tidy.added (h : Tidy y) (ha : Added y.vfs addr dev path fs root mpoint s') (hfree : y.vfs.mounts addr = none)
    (hlen : path.length < 128) (hfs : fs = .xv6fs → y.vfs.mounttable = []) : Tidy ⟨s', y.held⟩ where
  table := ha.tableOk hfree h.table hlen (fun _ _ hp => h.mpoint_live hp) h.empty hfs
  only := by
    intro m hm
    simp only [ha.table, mem_append, mem_singleton]
    by_cases he : m = addr
    · exact .inr he
    · rw [ha.mounts, update_of_ne he] at hm
      exact .inl (h.only m hm)
  short := by
    intro m mt hm
    by_cases he : m = addr
    · rw [he] at hm
      cases ha.self.symm.trans hm
      exact length_take_le 127 path
    · rw [ha.mounts, update_of_ne he] at hm
      exact h.short m mt hm
  count := by
    intro i
    have h1 := ha.took.count i
    have h2 := h.count i
    simp only [ha.mountRefs hfree h.alloc, count_append, count_cons, count_nil] at h1 h2 ⊢
    omega
  filled := ha.took.filled h.filled
  mp := ha.mp

section

variable (hr : Removed s path k m mt s')
include hr

/-- The table with entry `k + 1` taken out. -/
theorem Removed.split : ∃ l1 l2, s.mounttable = l1 ++ m :: l2 ∧ l1 ≠ [] ∧ s'.mounttable = l1 ++ l2 := by
  obtain ⟨l1, l2, h1, h2, h3⟩ := eraseIdx_split hr.entry
  exact ⟨l1, l2, h1, h2, by rw [hr.table, h3]⟩

theorem Removed.mem (hnd : s.mounttable.Nodup) : b ∈ s'.mounttable ↔ b ∈ s.mounttable ∧ b ≠ m := by
  obtain ⟨l1, l2, h1, -, h3⟩ := hr.split
  rw [h1] at hnd
  have h4 : m ∉ l1 ++ l2 := (nodup_middle.mp hnd).notMem
  rw [h1, h3]
  constructor
  · intro hb
    refine ⟨?_, fun he => h4 (he ▸ hb)⟩
    rcases mem_append.mp hb with hb | hb
    · exact mem_append_left _ hb
    · exact mem_append_right _ (mem_cons_of_mem _ hb)
  · rintro ⟨hb, hne⟩
    rcases mem_append.mp hb with hb | hb
    · exact mem_append_left _ hb
    · exact mem_append_right _ ((mem_cons.mp hb).resolve_left hne)

theorem Removed.mem_tail : m ∈ s.mounttable.tail := by
  obtain ⟨l1, l2, h1, h2, -⟩ := hr.split
  cases l1 with
  | nil => exact absurd rfl h2
  | cons a l => simp [h1]

theorem Removed.tail (hb : b ∈ s'.mounttable.tail) : b ∈ s.mounttable.tail := by
  obtain ⟨l1, l2, h1, h2, h3⟩ := hr.split
  cases l1 with
  | nil => exact absurd rfl h2
  | cons a l =>
    rw [h3] at hb
    rw [h1]
    rcases mem_append.mp hb with hb | hb
    · exact mem_append_left _ hb
    · exact mem_append_right _ (mem_cons_of_mem _ hb)

theorem Removed.head : s'.mounttable.head? = s.mounttable.head? := by
  obtain ⟨l1, l2, h1, h2, h3⟩ := hr.split
  cases l1 with
  | nil => exact absurd rfl h2
  | cons a l => simp [h1, h3]

theorem Removed.mountRefs (hnd : s.mounttable.Nodup) (i : Nat) : (Vfs.mountRefs s).count i =
      (Vfs.mountRefs s').count i + (mt.root.toList ++ mt.mountpoint.toList).count i := by
  obtain ⟨l1, l2, h1, -, h3⟩ := hr.split
  have hnot : ∀ b ∈ l1 ++ l2, b ≠ m := fun b hb => ((hr.mem hnd).mp (h3 ▸ hb)).2
  have e1 : (l1 ++ l2).flatMap (mountOwns s'.mounts) = (l1 ++ l2).flatMap (mountOwns s.mounts) := by
    refine flatMap_congr fun b hb => ?_
    simp only [mountOwns, hr.mounts, update_of_ne (hnot b hb)]
  have e2 : mountOwns s.mounts m = mt.root.toList ++ mt.mountpoint.toList := by
    simp [mountOwns, hr.mount]
  rw [Vfs.mountRefs, Vfs.mountRefs, h3, e1, h1]
  simp only [flatMap_append, flatMap_cons, e2, count_append]
  omega

theorem Removed.old (hb : b ≠ m) : s'.mounts b = s.mounts b := by
  rw [hr.mounts, update_of_ne hb]

/-- Taking an entry out keeps the table in order. -/
theorem Removed.tableOk (hs : TableOk s)
    (hlive : ∀ b ∈ s'.mounttable, ∀ p, mpointOf s b = some p → 0 < refs s' p) : TableOk s' := by
  have hmem : ∀ b ∈ s'.mounttable, b ∈ s.mounttable ∧ s'.mounts b = s.mounts b := by
    intro b hb
    obtain ⟨h1, h2⟩ := (hr.mem hs.nodup).mp hb
    exact ⟨h1, hr.old h2⟩
  obtain ⟨l1, l2, h1, h2, h3⟩ := hr.split
  refine ⟨?_, ?_, ?_, ?_, ?_, ?_, ?_, ?_⟩
  · have h4 := hs.room
    rw [h1, length_append, length_cons] at h4
    rw [h3, length_append]
    omega
  · have h4 := hs.nodup
    rw [h1] at h4
    rw [h3]
    exact (nodup_middle.mp h4).of_cons
  · intro b hb
    rw [(hmem b hb).2]
    exact hs.valid b (hmem b hb).1
  · intro b bt hb hbt
    rw [(hmem b (mem_of_mem_head? hb)).2] at hbt
    exact hs.top b bt (hr.head ▸ hb) hbt
  · intro b bt hb hbt
    rw [(hmem b (Vfs.mem_tail hb)).2] at hbt
    exact hs.below b bt (hr.tail hb) hbt
  · intro b hb b' hb' bt bt' h4 h5
    rw [(hmem b hb).2] at h4
    rw [(hmem b' hb').2] at h5
    exact hs.devs b (hmem b hb).1 b' (hmem b' hb').1 bt bt' h4 h5
  · intro b hb b' hb' bt bt' h4 h5
    rw [(hmem b hb).2] at h4
    rw [(hmem b' hb').2] at h5
    exact hs.paths b (hmem b hb).1 b' (hmem b' hb').1 bt bt' h4 h5
  · have hpoint : ∀ b ∈ s'.mounttable, ∀ p, mpointOf s' b = some p →
        mpointOf s b = some p ∧ ident (s'.vnodes p) = ident (s.vnodes p) := by
      intro b hb p hp
      rw [mpointOf, (hmem b hb).2] at hp
      exact ⟨hp, hr.gave.same p (hlive b hb p hp)⟩
    intro b hb b' hb' p p' h4 h5 h6 h7
    obtain ⟨e1, e2⟩ := hpoint b hb p h4
    obtain ⟨e3, e4⟩ := hpoint b' hb' p' h5
    rw [ident_dev e2, ident_dev e4] at h6
    rw [ident_inum e2, ident_inum e4] at h7
    exact hs.points b (hmem b hb).1 b' (hmem b' hb').1 p p' e1 e3 h6 h7

end

theorem Tidy.removed_count (h : Tidy y) (hr : Removed y.vfs path k m mt s') (i : Nat) :
    refs s' i = (y.held ++ mountRefs s').count i := by
  have h1 := hr.gave.count i
  have h2 := h.count i
  have h3 := hr.mountRefs h.table.nodup i
  simp only [count_append] at h1 h2 h3 ⊢
  omega

theorem Tidy.removed (h : Tidy y) {k : Nat} (hr : Removed y.vfs path k m mt s')
    (hidle : Idle y.vfs m mt) : Tidy ⟨s', y.held⟩ where
  table := by
    refine hr.tableOk h.table fun b hb p hp => ?_
    obtain ⟨bt, hbt, hpt⟩ := bind_eq_some_iff.mp hp
    rw [← hr.old ((hr.mem h.table.nodup).mp hb).2] at hbt
    rw [h.removed_count hr]
    exact count_pos_iff.mpr (mem_append_right _ (mem_mountRefs hb hbt (.inr hpt)))
  only := by
    intro b hb
    have hne : b ≠ m := by
      intro he
      simp [he, hr.mounts] at hb
    rw [hr.old hne] at hb
    exact (hr.mem h.table.nodup).mpr ⟨h.only b hb, hne⟩
  short := by
    intro b bt hb
    have hne : b ≠ m := by
      intro he
      simp [he, hr.mounts] at hb
    rw [hr.old hne] at hb
    exact h.short b bt hb
  count := h.removed_count hr
  filled := hr.gave.filled h.filled
  mp := by
    intro i hi
    have hi' : 0 < refs s' i := hi
    have hcount := hr.gave.count i
    obtain ⟨b, h1, h2⟩ := h.mp i (by omega)
    have h3 := congrArg Vnode.mp (hr.gave.same i hi)
    simp only [ident] at h3
    refine ⟨b, h3.trans h1, ?_⟩
    have hne : b ≠ m := by
      -- The root was the only vnode of the mount, and its one reference is gone.
      intro he
      obtain ⟨h4, h5⟩ := hidle i (by omega) (he ▸ h1)
      simp only [h4, toList_some, cons_append, nil_append, count_cons_self] at hcount
      omega
    rwa [hr.old hne]

/-- What `vfs_umount` needs to come to an end. -/
theorem Tidy.umount_effect (h : Tidy y) (path : List UInt8) :
    ∃ b s', vfsUmount path y.vfs = some (b, s') ∧ (b = false → s' = y.vfs ∧
        y.vfs.mounttable.tail.any (pathIs y.vfs path) = false ∨
          s' = y.vfs ∧ y.vfs.mounttable.head?.any (pathIs y.vfs path)) ∧
      (b = true → ∃ k m mt, Removed y.vfs path k m mt s') := by
  refine vfsUmount_effect path h.alloc (fun m mt hm i => ?_) fun m mt hm hmt => ?_
  · rw [h.count, count_append]
    have hmem := h.only m (by simp [hm])
    obtain ⟨l1, l2, hl⟩ := append_of_mem hmem
    have e : mountOwns y.vfs.mounts m = mt.root.toList ++ mt.mountpoint.toList := by
      simp [mountOwns, hm]
    rw [mountRefs, hl, flatMap_append, flatMap_cons, e]
    simp only [count_append]
    omega
  · obtain ⟨mt', h1, h2, h3, h4⟩ := h.table.valid m (Vfs.mem_tail hm)
    cases hmt.symm.trans h1
    exact ⟨isSome_iff_ne_none.mp h4, (h.table.below m mt hm hmt).2, h3, h2⟩

/-- The root mount stays where it is. -/
def RootKept (s s' : State) : Prop :=
  ∀ m, s.mounttable.head? = some m → s'.mounttable.head? = some m ∧ s'.mounts m = s.mounts m

theorem RootKept.trans {s'' : State} (h : RootKept s s') (h' : RootKept s' s'') : RootKept s s'' := by
  intro m hm
  obtain ⟨h1, h2⟩ := h m hm
  obtain ⟨h3, h4⟩ := h' m h1
  exact ⟨h3, h4.trans h2⟩

theorem RootKept.of_eq (hm : s'.mounts = s.mounts) (ht : s'.mounttable = s.mounttable) : RootKept s s' := by
  intro m h1
  rw [ht, hm]
  exact ⟨h1, rfl⟩

theorem Added.rootKept (h : Added s addr dev path fs root mpoint s') (hfree : s.mounts addr = none)
    (halloc : ∀ m ∈ s.mounttable, (s.mounts m).isSome) : RootKept s s' := by
  intro m hm
  refine ⟨?_, h.old hfree (halloc m (mem_of_mem_head? hm))⟩
  rw [h.table, head?_append, hm]
  rfl

theorem Removed.rootKept (h : Removed s path k m mt s') (hnd : s.mounttable.Nodup) : RootKept s s' := by
  intro b hb
  have h1 : s'.mounttable.head? = some b := h.head.trans hb
  exact ⟨h1, h.old ((h.mem hnd).mp (mem_of_mem_head? h1)).2⟩

/-- Every call of a calm run comes to an end and leaves the system in order. -/
theorem exec_tidy (h : Tidy y) (hop : op.Calm y) : ∃ y', exec op y = some y' ∧ Tidy y' ∧ RootKept y.vfs y'.vfs := by
  obtain ⟨hlegal, hroot, hup, hidle⟩ := hop
  cases op with
  | mount c cwd path dev fs addr =>
    obtain ⟨h1, h2, h3⟩ := hlegal
    have h128 : path.take 128 = path := take_of_length_le (by omega)
    obtain ⟨b, s', h4, h5, h6⟩ := vfsMount_effect h.sound hup (h.cwd_live h1) h2 path dev
      (fun he => ⟨(hroot he).1, by rw [h128]; exact (hroot he).2⟩)
    refine ⟨⟨s', y.held⟩, by simp [exec, h1, h2, h4], ?_⟩
    cases b with
    | false => exact ⟨h.unchanged (h5 rfl), RootKept.of_eq (h5 rfl).mounts (h5 rfl).table⟩
    | true =>
      obtain ⟨fs', root, mpoint, rfl, ha⟩ := h6 rfl
      exact ⟨h.added ha h2 h3 fun he => (hroot (congrArg some he)).1, ha.rootKept h2 h.alloc⟩
  | umount path =>
    obtain ⟨b, s', h1, h2, h3⟩ := h.umount_effect path
    refine ⟨⟨s', y.held⟩, by simp [exec, h1], ?_⟩
    cases b with
    | false =>
      rcases h2 rfl with ⟨rfl, -⟩ | ⟨rfl, -⟩
      · exact ⟨h, RootKept.of_eq rfl rfl⟩
      · exact ⟨h, RootKept.of_eq rfl rfl⟩
    | true =>
      obtain ⟨k, m, mt, hr⟩ := h3 rfl
      exact ⟨h.removed hr (hidle m hr.mem_tail mt hr.mount hr.path), hr.rootKept h.table.nodup⟩
  | namei c cwd path =>
    have hcwd := h.cwd_live hlegal
    obtain ⟨⟨w, s'⟩, h1⟩ := vfsNamei_total h.sound hup hcwd path
    have h2 := vfsNamei_holds c cwd path h.sound.live hup hcwd h1
    have h3 : cwdHeld cwd y.held = true := hlegal
    refine ⟨⟨s', w.toList ++ y.held⟩, ?_, h.holds h2, RootKept.of_eq h2.mounts h2.table⟩
    simp [exec, h3, h1]
  | «open» c cwd path mode =>
    have hcwd := h.cwd_live hlegal
    obtain ⟨⟨w, s'⟩, h1⟩ := vfsOpen_total h.sound hup hcwd path mode
    have h2 := vfsOpen_holds c cwd path mode h.sound.live hup hcwd h1
    have h3 : cwdHeld cwd y.held = true := hlegal
    refine ⟨⟨s', w.toList ++ y.held⟩, ?_, h.holds h2, RootKept.of_eq h2.mounts h2.table⟩
    simp [exec, h3, h1]
  | lookup c d name =>
    have hd : d ∈ y.held := hlegal
    have hlive := h.live (.inl hd)
    obtain ⟨r, h1⟩ := lookup_total c h.filled hlive name
    have h2 := (lookup_balanced c (Holds.refl y.vfs) hlive name h1).holds
    rw [append_nil] at h2
    refine ⟨_, ?_, h.holds h2, RootKept.of_eq h2.mounts h2.table⟩
    simp [exec, hd, h1]
  | close v =>
    have hv : v ∈ y.held := hlegal
    obtain ⟨s', h1, h2⟩ := h.close hv
    obtain ⟨t, h3, -, -, h4, h5, -⟩ := vput_spec (h.live (.inl hv))
    obtain rfl : t = s' := some.inj (h3.symm.trans h1)
    exact ⟨⟨t, y.held.erase v⟩, by simp [exec, hv, h1], h2, RootKept.of_eq h4 h5⟩
  | memory n =>
    refine ⟨_, rfl, ⟨?_, h.only, h.short, h.count, h.filled, h.mp⟩, RootKept.of_eq rfl rfl⟩
    exact h.table.congr rfl rfl fun _ _ _ _ => rfl

theorem vfsInit_tidy (pages : Nat) : Tidy (vfsInit pages) := by
  refine ⟨⟨?_, ?_, ?_, ?_, ?_, ?_, ?_, ?_⟩, ?_, ?_, ?_, ?_, ?_⟩ <;>
    simp [vfsInit, mountRefs, AllFilled, MpOk, refs, emptyVnode]

theorem run_tidy (h : Tidy y) (hok : Run.Meets exec (fun y op => op.Calm y) ops y) :
    ∃ y', Run.run exec ops y = some y' ∧ Tidy y' ∧ RootKept y.vfs y'.vfs := by
  refine Run.run_total (fun z => Tidy z ∧ RootKept y.vfs z.vfs) (fun z op hz hop => ?_)
    ⟨h, RootKept.of_eq rfl rfl⟩ hok
  obtain ⟨z', h1, h2, h3⟩ := exec_tidy hz.1 hop
  exact ⟨z', h1, h2, hz.2.trans h3⟩

/-- The condition, computed: in a system in order only held and mounted vnodes need a look. -/
def Op.calmNow (y : Sys) : Op → Bool
  | .mount _ cwd path _ fs addr =>
    cwdHeld cwd y.held && (y.vfs.mounts addr).isNone && decide (path.length < 128) &&
      (decide (fs ≠ some .xv6fs) || y.vfs.mounttable.isEmpty && path == [slash])
  | .namei _ cwd _ => cwdHeld cwd y.held
  | .open _ cwd _ _ => cwdHeld cwd y.held
  | .lookup _ d _ => y.held.contains d
  | .close v => y.held.contains v
  | .umount path => y.vfs.mounttable.tail.all fun m =>
      !pathIs y.vfs path m || (y.held ++ mountRefs y.vfs).all fun i =>
        decide ((y.vfs.vnodes i).mp ≠ some m) ||
          decide ((y.vfs.mounts m).bind Mount.root = some i ∧ refs y.vfs i = 1)
  | .memory _ => true

theorem Tidy.calm (h : Tidy y) (hup : op.upFound y) (hb : op.calmNow y = true) : op.Calm y := by
  cases op with
  | mount c cwd path dev fs addr =>
    simp only [Op.calmNow, Bool.and_eq_true, isNone_iff_eq_none, decide_eq_true_eq] at hb
    obtain ⟨⟨⟨h1, h2⟩, h3⟩, h4⟩ := hb
    exact ⟨⟨h1, h2, h3⟩, fun he => by simpa [he] using h4, hup, trivial⟩
  | umount path =>
    refine ⟨trivial, trivial, trivial, fun m hm mt hmt hp i hi hmp => ?_⟩
    have h1 := all_eq_true.mp hb m hm
    simp only [hp, Bool.not_true, Bool.false_or] at h1
    rw [h.count] at hi
    have h2 := all_eq_true.mp h1 i (count_pos_iff.mp hi)
    simpa [hmp, hmt] using h2
  | namei c cwd path => exact ⟨hb, trivial, hup, trivial⟩
  | «open» c cwd path mode => exact ⟨hb, trivial, hup, trivial⟩
  | lookup c d name => exact ⟨by simpa [Op.calmNow, Op.legal] using hb, trivial, trivial, trivial⟩
  | close v => exact ⟨by simpa [Op.calmNow, Op.legal] using hb, trivial, trivial, trivial⟩
  | memory n => exact ⟨trivial, trivial, trivial, trivial⟩

theorem Tidy.meets (h : Tidy y) (hup : ∀ op ∈ ops, ∀ z, op.upFound z)
    (hb : Run.check exec (fun y op => op.calmNow y) ops y = true) : Run.Meets exec (fun y op => op.Calm y) ops y := by
  induction ops generalizing y with
  | nil => trivial
  | cons op ops ih =>
    simp only [Run.check, Bool.and_eq_true] at hb
    have hcalm := h.calm (hup op mem_cons_self y) hb.1
    obtain ⟨y', h1, h2, -⟩ := exec_tidy h hcalm
    refine ⟨hcalm, fun z hz => ?_⟩
    obtain rfl : y' = z := some.inj (h1.symm.trans hz)
    refine ih h2 (fun b hb' => hup b (mem_cons_of_mem op hb')) ?_
    simpa [h1] using hb.2

end Xv6Vfs.Vfs
