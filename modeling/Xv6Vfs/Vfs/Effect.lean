import Xv6Vfs.Vfs.Balance
import Xv6Vfs.Vfs.MountRun

/-! What `vfs_mount` and `vfs_umount` do to the table and to the reference counts, on each of
their ways out. -/
namespace Xv6Vfs.Vfs
open Function List Option

/-- The vnode table, relative to `s0`: the references `held` were taken, and what was live has
kept its identity. -/
structure Took (s0 : State) (held : List Nat) (s : State) : Prop where
  count : ∀ i, refs s i = refs s0 i + held.count i
  same : ∀ i, 0 < refs s0 i → ident (s.vnodes i) = ident (s0.vnodes i)
  filled : AllFilled s0 → AllFilled s

variable {c : Content} {s s0 s1 s2 s' : State} {held held' : List Nat} {i addr dev root : Nat}
variable {path : List UInt8} {cwd mpoint : Option Nat} {fs : FsType} {mt : Mount}

theorem Holds.took (h : Holds s0 held s) : Took s0 held s := ⟨h.count, h.same, h.filled⟩

theorem Took.refl (s : State) : Took s [] s := (Holds.refl s).took

theorem Took.live (h : Took s0 held s) (hi : 0 < refs s0 i ∨ i ∈ held) : 0 < refs s i := by
  rw [h.count i]
  rcases hi with hi | hi
  · omega
  · have := count_pos_iff.mpr hi
    omega

theorem Took.mem (h : Took s0 held s) (hi : 0 < refs s i) : 0 < refs s0 i ∨ i ∈ held := by
  rw [h.count i] at hi
  by_cases h0 : 0 < refs s0 i
  · exact .inl h0
  · exact .inr (count_pos_iff.mp (by omega))

theorem Took.trans (h : Took s0 held s1) (h' : Took s1 held' s2) : Took s0 (held' ++ held) s2 where
  count := by
    intro i
    rw [h'.count, h.count, count_append]
    omega
  same := fun i hi => (h'.same i (h.live (.inl hi))).trans (h.same i hi)
  filled := fun h0 => h'.filled (h.filled h0)

theorem Took.congr (h : Took s0 held s) (hv : s'.vnodes = s.vnodes) : Took s0 held s' := by
  have hrefs : ∀ i, refs s' i = refs s i := fun i => by rw [refs, refs, hv]
  refine ⟨fun i => (hrefs i).trans (h.count i), fun i hi => by rw [hv]; exact h.same i hi, fun h0 => ?_⟩
  exact (h.filled h0).congr fun i hi => ⟨hrefs i ▸ hi, by rw [hv]⟩

theorem Took.put (h : Took s0 (i :: held) s) :
    ∃ s', vput i s = some s' ∧ Took s0 held s' ∧ s'.mounts = s.mounts ∧ s'.mounttable = s.mounttable := by
  obtain ⟨s', h1, h2, h3, h4, h5, -⟩ := vput_spec (h.live (.inr mem_cons_self))
  have hc : ∀ j, refs s' j = refs s0 j + held.count j := by
    intro j
    have h6 := h.count j
    have h7 := h2 j
    simp only [count_cons, beq_iff_eq] at h6
    omega
  refine ⟨s', h1, ⟨hc, fun j hj => ?_, fun h0 => ?_⟩, h4, h5⟩
  · rw [h3 j (by have := hc j; omega)]
    exact h.same j hj
  · exact (h.filled h0).congr fun j hj => ⟨by have := h2 j; omega, h3 j hj⟩

theorem Took.putOpt {v : Option Nat} (h : Took s0 (v.toList ++ held) s) :
    ∃ s', vputOpt v s = some s' ∧ Took s0 held s' ∧ s'.mounts = s.mounts ∧
      s'.mounttable = s.mounttable := by
  cases v with
  | none => exact ⟨s, rfl, h, rfl, rfl⟩
  | some i => exact h.put

theorem MpOk.setMount (h : MpOk s) (x : Mount) (n : Nat) : MpOk (s.setMount addr (some x) n) := by
  intro i hi
  obtain ⟨m, h1, h2⟩ := h i hi
  refine ⟨m, h1, ?_⟩
  by_cases he : m = addr
  · simp [State.setMount, he]
  · simpa [State.setMount, he] using h2

/-- The structure that `mountfn` fills in. -/
def newMount (fs : FsType) (dev : Nat) (root : Option Nat) : Mount := ⟨false, some fs, root, none, dev, []⟩

/-- `mountfn` with a free page at `addr` fails without a trace, or leaves a mount structure there
with a reference on its root. -/
theorem mountfn_effect (c : Content) (fs : FsType) (dev : Nat) (hfree : s.mounts addr = none) :
    ∃ r s', mountfn c fs dev addr s = some (r, s') ∧ Took s r.toList s' ∧
      s'.mounttable = s.mounttable ∧ (r = none → s'.mounts = s.mounts) ∧
      (∀ root, r = some root → s'.mounts = update s.mounts addr (some (newMount fs dev (some root)))) ∧
      (MpOk s → r ≠ none → MpOk s') := by
  unfold mountfn
  cases c.image dev fs with
  | none => exact ⟨none, s, rfl, Took.refl s, rfl, fun _ => rfl, by simp, by simp⟩
  | some x =>
    dsimp only
    split
    · exact ⟨none, s, rfl, Took.refl s, rfl, fun _ => rfl, by simp, by simp⟩
    obtain ⟨r, t, h1, h2⟩ := rootNew_holds _ _ (rootVnode_fits s (newMount fs dev none) (s.pages - mountPages fs) c fs
      dev addr x.1 x.2)
    have htook : Took s r.toList t := ⟨h2.count, h2.same, h2.filled⟩
    simp only [newMount] at h1
    rw [h1]
    cases r with
    | none =>
      refine ⟨none, _, rfl, htook.congr rfl, h2.table, fun _ => ?_, by simp, by simp⟩
      simp [State.setMount, h2.mounts, ← hfree]
    | some root =>
      refine ⟨some root, _, rfl, htook.congr rfl, h2.table, by simp, fun root' he => ?_,
        fun h0 _ => (h2.mp (h0.setMount _ _)).setMount _ _⟩
      cases he
      simp [State.setMount, h2.mounts, newMount]

/-- The failure paths of `vfs_mount` give back what was taken, unless the backend has no `unmount`. -/
theorem abortMount_effect (hfs : fs ≠ .xv6fs) (h : Took s0 (mpoint.toList ++ [root]) s)
    (hm : s.mounts = update s0.mounts addr (some (newMount fs dev (some root))))
    (hfree : s0.mounts addr = none) (ht : s.mounttable = s0.mounttable) :
    ∃ s', abortMount addr mpoint s = some (false, s') ∧ Took s0 [] s' ∧ s'.mounts = s0.mounts ∧
      s'.mounttable = s0.mounttable := by
  obtain ⟨s1, h1, h2, h3, h4⟩ := h.putOpt
  obtain ⟨s2, h5, h6, h7, h8⟩ := h2.put
  have hmt : s1.mounts addr = some (newMount fs dev (some root)) := by
    simp [h3, hm]
  have hun : unmount (newMount fs dev (some root)) s1 = some s2 := by
    simp [unmount, newMount, hfs, h5]
  refine ⟨freeMount addr (newMount fs dev (some root)) s2, ?_, h6.congr rfl, ?_, (h8.trans h4).trans ht⟩
  · simp [abortMount, h1, hmt, hun]
  · simp [freeMount, State.setMount, h7, h3, hm, ← hfree]

/-- The state in which `vfs_mount` resolves the path: the new mount is allocated, but not in the
table. -/
theorem Took.ready (h : Sound s) (hup : UpFound c s) (hfree : s.mounts addr = none) (ht : Took s [root] s1)
    (htab : s1.mounttable = s.mounttable) (hmp : MpOk s1)
    (hm : s1.mounts = update s.mounts addr (some (newMount fs dev (some root)))) : Sound s1 ∧ UpFound c s1 := by
  have hold : ∀ m mt, s1.mounts m = some mt →
      m = addr ∧ mt = newMount fs dev (some root) ∨ s.mounts m = some mt := by
    intro m mt hmt
    by_cases he : m = addr
    · subst he
      simp only [hm, update_self, some.injEq] at hmt
      exact .inl ⟨rfl, hmt.symm⟩
    · rw [hm, update_of_ne he] at hmt
      exact .inr hmt
  refine ⟨⟨ht.filled h.filled, fun m mt hmt i hi => ?_, hmp, fun m mt hmt => ?_, fun m hmem => ?_⟩,
    fun m mt p hmt hp => ?_⟩
  · rcases hold m mt hmt with ⟨-, rfl⟩ | h1
    · rcases hi with hi | hi
      · obtain rfl : root = i := some.inj hi
        exact ht.live (.inr mem_cons_self)
      · cases hi
    · exact ht.live (.inl (h.live m mt h1 i hi))
  · rcases hold m mt hmt with ⟨-, rfl⟩ | h1
    · rfl
    · exact h.rooted m mt h1
  · rw [htab] at hmem
    have h1 := h.table m hmem
    have hne : m ≠ addr := by
      intro he
      rw [he, hfree] at h1
      cases h1
    rwa [hm, update_of_ne hne]
  · rcases hold m mt hmt with ⟨-, rfl⟩ | h1
    · cases hp
    · exact (hup m mt p h1 hp).congr (ht.same p (h.live m mt h1 p (.inr hp)))

/-- What a successful `vfs_mount` has added. -/
structure Added (s : State) (addr dev : Nat) (path : List UInt8) (fs : FsType) (root : Nat)
    (mpoint : Option Nat) (s' : State) : Prop where
  took : Took s (mpoint.toList ++ [root]) s'
  mounts : s'.mounts = update s.mounts addr
    (some ⟨true, some fs, some root, mpoint, dev, path.take 127⟩)
  table : s'.mounttable = s.mounttable ++ [addr]
  room : s.mounttable.length < nmountMax
  fresh : ∀ m ∈ s.mounttable, pathIs s path m = false ∧ devIs s dev m = false
  mp : MpOk s'
  top : mpoint = none ↔ path.take 128 = [slash]
  first : s.mounttable = [] → (∀ i, refs s i = 0) → mpoint = none
  dir : ∀ p, mpoint = some p → (s'.vnodes p).type = .dir ∧
    s.mounttable.tail.any (covers s' (s'.vnodes p)) = false

/-- What a failed one has left: nothing. -/
structure Unchanged (s s' : State) : Prop where
  took : Took s [] s'
  mounts : s'.mounts = s.mounts
  table : s'.mounttable = s.mounttable

theorem attach_effect (mpoint : Option Nat) (path : List UInt8) (hfs : fs ≠ .xv6fs ∨ s.mounttable.length < nmountMax)
    (h : Took s (mpoint.toList ++ [root]) s1) (hfree : s.mounts addr = none) (hmp : MpOk s1)
    (hm : s1.mounts = update s.mounts addr (some (newMount fs dev (some root)))) (ht : s1.mounttable = s.mounttable) :
    ∃ b s', attach addr mpoint path dev s1 = some (b, s') ∧ (b = false → Unchanged s s') ∧
      (b = true → Took s (mpoint.toList ++ [root]) s' ∧ s'.vnodes = s1.vnodes ∧ s'.mounts = update s.mounts addr
          (some ⟨true, some fs, some root, mpoint, dev, path.take 127⟩) ∧
        s'.mounttable = s.mounttable ++ [addr] ∧ s.mounttable.length < nmountMax ∧ MpOk s') := by
  unfold attach
  split
  case isTrue hfull =>
    rw [ht] at hfull
    obtain ⟨s', h1, h2, h3, h4⟩ := abortMount_effect (hfs.resolve_right (by omega)) h hm hfree ht
    exact ⟨false, s', h1, fun _ => ⟨h2, h3, h4⟩, by simp⟩
  case isFalse hroom =>
    have hmt : s1.mounts addr = some (newMount fs dev (some root)) := by
      simp [hm]
    rw [hmt]
    refine ⟨true, _, rfl, by simp, fun _ => ⟨h.congr rfl, rfl, ?_, ?_, ?_, ?_⟩⟩
    · simp [State.setMount, hm, newMount]
    · rw [← ht]
    · rw [← ht]
      omega
    · intro i hi
      obtain ⟨m, h2, h3⟩ := hmp i hi
      refine ⟨m, h2, ?_⟩
      by_cases he : m = addr
      · simp [State.setMount, he]
      · simpa [State.setMount, he] using h3

/-- `vfs_mount` once the backend has made its mount: resolve the path and enter the table. -/
def settleMount (c : Content) (cwd : Option Nat) (path : List UInt8) (dev addr : Nat) (s : State) :
    Option (Bool × State) :=
  if path.take 128 = [slash] then attach addr none path dev s
  else
    (vfsNamei c cwd path s).bind fun w =>
      match w.1 with
      | none => abortMount addr none w.2
      | some p =>
        if (w.2.vnodes p).type ≠ .dir ∨
            w.2.mounttable.tail.any (covers w.2 (w.2.vnodes p)) = true then
          abortMount addr (some p) w.2
        else attach addr (some p) path dev w.2

/-- The path is "/", or leads to a directory that nothing is mounted on. -/
def Placeable (c : Content) (cwd : Option Nat) (path : List UInt8) (s : State) : Prop :=
  path.take 128 = [slash] ∨ ∃ p s', vfsNamei c cwd path s = some (some p, s') ∧
    (s'.vnodes p).type = .dir ∧ s'.mounttable.tail.any (covers s' (s'.vnodes p)) = false

/-- What a backend has made: a mount structure at `addr`, outside the table, with a reference on its
root. -/
structure Made (s : State) (addr dev : Nat) (fs : FsType) (root : Nat) (s' : State) : Prop where
  took : Took s [root] s'
  table : s'.mounttable = s.mounttable
  mounts : s'.mounts = update s.mounts addr (some (newMount fs dev (some root)))
  mp : MpOk s'

theorem Made.path_effect (h : Made s addr dev fs root s1) (hs : Sound s) (hup : UpFound c s)
    (hcwd : ∀ i, cwd = some i → 0 < refs s i) (hfree : s.mounts addr = none) (path : List UInt8) :
    ∃ w s2, vfsNamei c cwd path s1 = some (w, s2) ∧ Took s (w.toList ++ [root]) s2 ∧ MpOk s2 ∧
      s2.mounts = update s.mounts addr (some (newMount fs dev (some root))) ∧
      s2.mounttable = s.mounttable := by
  obtain ⟨hsound, hup1⟩ := Took.ready hs hup hfree h.took h.table h.mp h.mounts
  have hcwd1 : ∀ i, cwd = some i → 0 < refs s1 i := fun i hi => h.took.live (.inl (hcwd i hi))
  obtain ⟨⟨w, s2⟩, hw⟩ := vfsNamei_total hsound hup1 hcwd1 path
  have hh := vfsNamei_holds c cwd path hsound.live hup1 hcwd1 hw
  exact ⟨w, s2, hw, h.took.trans hh.took, hh.mp h.mp, hh.mounts.trans h.mounts, hh.table.trans h.table⟩

section

variable (h : Sound s) (hup : UpFound c s) (hcwd : ∀ i, cwd = some i → 0 < refs s i) (hfree : s.mounts addr = none)
include h hup hcwd hfree

/-- Every way through the second half of `vfs_mount`. A backend that cannot be unmounted must not
come to the failure paths. -/
theorem settleMount_effect (hmade : Made s addr dev fs root s1)
    (hfresh : ∀ m ∈ s.mounttable, pathIs s path m = false ∧ devIs s dev m = false)
    (hfs : fs ≠ .xv6fs ∨ s.mounttable.length < nmountMax ∧ Placeable c cwd path s1) :
    ∃ b s', settleMount c cwd path dev addr s1 = some (b, s') ∧ (b = false → Unchanged s s') ∧
      (b = true → ∃ mpoint, Added s addr dev path fs root mpoint s') := by
  have hroom : fs ≠ .xv6fs ∨ s.mounttable.length < nmountMax := hfs.imp_right And.left
  unfold settleMount
  by_cases htop : path.take 128 = [slash]
  · rw [if_pos htop]
    obtain ⟨b, s', e1, e2, e3⟩ :=
      attach_effect none path hroom hmade.took hfree hmade.mp hmade.mounts hmade.table
    refine ⟨b, s', e1, e2, fun hb => ?_⟩
    obtain ⟨e4, -, e6, e7, e8, e9⟩ := e3 hb
    exact ⟨none, e4, e6, e7, e8, hfresh, e9, by simp [htop], fun _ _ => rfl, by simp⟩
  · rw [if_neg htop]
    obtain ⟨w, s2, hw, htook, hmp2, hm2, ht2⟩ := hmade.path_effect h hup hcwd hfree path
    simp only [hw, bind_some]
    have habort : ∀ mpoint : Option Nat, fs ≠ .xv6fs → Took s (mpoint.toList ++ [root]) s2 →
        ∃ b s', abortMount addr mpoint s2 = some (b, s') ∧ (b = false → Unchanged s s') ∧
          (b = true → ∃ mpoint, Added s addr dev path fs root mpoint s') := by
      intro mpoint hx hk
      obtain ⟨s', e1, e2, e3, e4⟩ := abortMount_effect hx hk hm2 hfree ht2
      exact ⟨false, s', e1, fun _ => ⟨e2, e3, e4⟩, by simp⟩
    have hplace : fs ≠ .xv6fs ∨ ∃ p, w = some p ∧ (s2.vnodes p).type = .dir ∧
        s2.mounttable.tail.any (covers s2 (s2.vnodes p)) = false := by
      rcases hfs with hx | ⟨-, hx | ⟨p, s3, h1, h2, h3⟩⟩
      · exact .inl hx
      · exact absurd hx htop
      · rw [hw] at h1
        cases h1
        exact .inr ⟨p, rfl, h2, h3⟩
    cases w with
    | none => exact habort none (hplace.resolve_right (by simp)) htook
    | some p =>
      dsimp only
      split
      case isTrue hbad =>
        refine habort (some p) (hplace.resolve_right ?_) htook
        rintro ⟨q, hq, h1, h2⟩
        cases hq
        rcases hbad with h3 | h3
        · exact h3 h1
        · rw [h2] at h3
          cases h3
      case isFalse hok =>
        simp only [not_or, not_not, Bool.not_eq_true] at hok
        obtain ⟨b, s', e1, e2, e3⟩ := attach_effect (some p) path hroom htook hfree hmp2 hm2 ht2
        refine ⟨b, s', e1, e2, fun hb => ?_⟩
        obtain ⟨e4, e5, e6, e7, e8, e9⟩ := e3 hb
        refine ⟨some p, e4, e6, e7, e8, hfresh, e9, by simp [htop], fun h7 h8 => ?_, fun q hq => ?_⟩
        · -- Nothing is mounted and no process has a current directory: there is no start.
          have hstart : pathStart path cwd s1 = none := by
            cases hcw : cwd with
            | none => simp [pathStart, hmade.table, h7]
            | some d => exact absurd (hcwd d hcw) (by simp [h8 d])
          simp [vfsNamei, hstart] at hw
        cases hq
        rw [e5]
        refine ⟨hok.1, ?_⟩
        rw [← ht2]
        refine any_eq_false.mpr fun m hm => ?_
        have h1 := any_eq_false.mp hok.2 m hm
        have hne : m ≠ addr := by
          intro he
          have h7 := h.table m (ht2 ▸ mem_tail hm)
          rw [he, hfree] at h7
          cases h7
        simpa only [covers, e6, hm2, update_of_ne hne, e5] using h1

omit h hup hcwd hfree in
theorem fresh_of_not_any (h : ¬ (s.mounttable.any fun m => pathIs s path m || devIs s dev m) = true) :
    ∀ m ∈ s.mounttable, pathIs s path m = false ∧ devIs s dev m = false := by
  intro m hm
  simpa using fun h1 => h (any_eq_true.mpr ⟨m, hm, h1⟩)

/-- Every way through `vfs_mount`. xv6fs, which cannot be unmounted, is the first mount or none. -/
theorem vfsMount_effect {fs : Option FsType} (path : List UInt8) (dev : Nat)
    (hfs : fs = some .xv6fs → s.mounttable = [] ∧ path.take 128 = [slash]) :
    ∃ b s', vfsMount c cwd path dev fs addr s = some (b, s') ∧ (b = false → Unchanged s s') ∧
      (b = true → ∃ fs' root mpoint, fs = some fs' ∧ Added s addr dev path fs' root mpoint s') := by
  unfold vfsMount
  split
  · exact ⟨false, s, rfl, fun _ => ⟨Took.refl s, rfl, rfl⟩, by simp⟩
  case isFalse hnew =>
    cases fs with
    | none => exact ⟨false, s, rfl, fun _ => ⟨Took.refl s, rfl, rfl⟩, by simp⟩
    | some fs =>
      obtain ⟨r, s1, h1, h2, h3, h4, h5, h6⟩ := mountfn_effect c fs dev hfree
      simp only [h1, bind_some]
      cases r with
      | none => exact ⟨false, s1, rfl, fun _ => ⟨h2, h4 rfl, h3⟩, by simp⟩
      | some root =>
        have hplace : fs ≠ .xv6fs ∨ s.mounttable.length < nmountMax ∧ Placeable c cwd path s1 := by
          by_cases hx : fs = .xv6fs
          · obtain ⟨h7, h8⟩ := hfs (congrArg some hx)
            exact .inr ⟨by rw [h7]; decide, .inl h8⟩
          · exact .inl hx
        obtain ⟨b, s', e1, e2, e3⟩ := settleMount_effect h hup hcwd hfree
          ⟨h2, h3, h5 root rfl, h6 h.mp (by simp)⟩ (fresh_of_not_any hnew) hplace
        refine ⟨b, s', e1, e2, fun hb => ?_⟩
        obtain ⟨mpoint, he⟩ := e3 hb
        exact ⟨fs, root, mpoint, rfl, he⟩

end

/-- The vnode table, relative to `s0`: the references `held` were given back, and what is still
live has kept its identity. -/
structure Gave (s0 : State) (held : List Nat) (s : State) : Prop where
  count : ∀ i, refs s i + held.count i = refs s0 i
  same : ∀ i, 0 < refs s i → ident (s.vnodes i) = ident (s0.vnodes i)
  filled : AllFilled s0 → AllFilled s

theorem Gave.refl (s : State) : Gave s [] s := ⟨fun _ => rfl, fun _ _ => rfl, id⟩

theorem Gave.put (h : Gave s0 held s) (hi : 0 < refs s i) :
    ∃ s', vput i s = some s' ∧ Gave s0 (i :: held) s' ∧ s'.mounts = s.mounts ∧
      s'.mounttable = s.mounttable := by
  obtain ⟨s', h1, h2, h3, h4, h5, -⟩ := vput_spec hi
  have hlive : ∀ j, 0 < refs s' j → 0 < refs s j := by
    intro j hj
    have := h2 j
    omega
  refine ⟨s', h1, ⟨fun j => ?_, fun j hj => (h3 j hj).trans (h.same j (hlive j hj)), fun h0 => ?_⟩, h4, h5⟩
  · have h6 := h.count j
    have h7 := h2 j
    simp only [count_cons, beq_iff_eq]
    omega
  · exact (h.filled h0).congr fun j hj => ⟨hlive j hj, h3 j hj⟩

theorem Gave.congr (h : Gave s0 held s) (hv : s'.vnodes = s.vnodes) : Gave s0 held s' := by
  have hrefs : ∀ i, refs s' i = refs s i := fun i => by rw [refs, refs, hv]
  refine ⟨fun i => by rw [hrefs]; exact h.count i, fun i hi => by rw [hv]; exact h.same i (hrefs i ▸ hi), fun h0 => ?_⟩
  exact (h.filled h0).congr fun i hi => ⟨hrefs i ▸ hi, by rw [hv]⟩

theorem Gave.perm (h : Gave s0 held s) (hp : held.Perm held') : Gave s0 held' s :=
  ⟨fun i => by rw [← hp.count_eq i]; exact h.count i, h.same, h.filled⟩

/-- What a successful `vfs_umount` has taken away. -/
structure Removed (s : State) (path : List UInt8) (k m : Nat) (mt : Mount) (s' : State) : Prop where
  entry : s.mounttable[k + 1]? = some m
  mount : s.mounts m = some mt
  path : pathIs s path m = true
  gave : Gave s (mt.root.toList ++ mt.mountpoint.toList) s'
  mounts : s'.mounts = update s.mounts m none
  table : s'.mounttable = s.mounttable.eraseIdx (k + 1)

/-- `vfs_umount`, for a table whose mounts own their roots and mountpoints. -/
theorem vfsUmount_effect (path : List UInt8) (halloc : ∀ m ∈ s.mounttable, (s.mounts m).isSome)
    (hown : ∀ m mt, s.mounts m = some mt → ∀ i, (mt.root.toList ++ mt.mountpoint.toList).count i ≤ refs s i)
    (hops : ∀ m mt, m ∈ s.mounttable.tail → s.mounts m = some mt →
      mt.ops ≠ none ∧ mt.ops ≠ some .xv6fs ∧ mt.root.isSome ∧ mt.valid = true) :
    ∃ b s', vfsUmount path s = some (b, s') ∧ (b = false → s' = s ∧
        s.mounttable.tail.any (pathIs s path) = false ∨ s' = s ∧ s.mounttable.head?.any (pathIs s path)) ∧
      (b = true → ∃ k m mt, Removed s path k m mt s') := by
  unfold vfsUmount
  cases hf : s.mounttable.findIdx? (pathIs s path) with
  | none =>
    refine ⟨false, s, rfl, fun _ => .inl ⟨rfl, ?_⟩, by simp⟩
    rw [findIdx?_eq_none_iff] at hf
    exact any_eq_false.mpr fun m hm => by simp [hf m (mem_tail hm)]
  | some j =>
    obtain ⟨hlt, hpath, -⟩ := findIdx?_eq_some_iff_getElem.mp hf
    cases j with
    | zero =>
      refine ⟨false, s, rfl, fun _ => .inr ⟨rfl, ?_⟩, by simp⟩
      rwa [head?_eq_getElem?, getElem?_eq_getElem hlt]
    | succ k =>
      have hget : s.mounttable[k + 1]? = some s.mounttable[k + 1] := getElem?_eq_getElem hlt
      generalize s.mounttable[k + 1] = m at hget hpath
      have hmem : m ∈ s.mounttable.tail := by
        rw [mem_iff_getElem?]
        exact ⟨k, by rw [getElem?_tail]; exact hget⟩
      obtain ⟨mt, hmt⟩ := isSome_iff_exists.mp (halloc m (mem_tail hmem))
      obtain ⟨h1, h2, h3, h4⟩ := hops m mt hmem hmt
      obtain ⟨r, hr⟩ := isSome_iff_exists.mp h3
      have hcount := hown m mt hmt
      rw [hr] at hcount
      have hr1 : 0 < refs s r := by
        have := hcount r
        simp only [toList_some, cons_append, nil_append, count_cons_self] at this
        omega
      obtain ⟨s1, e1, e2, e3, e4⟩ := (Gave.refl s).put hr1
      have hun : unmount mt s = some s1 := by
        rw [unmount, if_neg (by simp [h1, h2]), hr]
        exact e1
      have hput : ∃ s2, vputOpt mt.mountpoint { s1 with mounttable := s1.mounttable.eraseIdx (k + 1) } =
          some s2 ∧ Gave s (mt.root.toList ++ mt.mountpoint.toList) s2 ∧ s2.mounts = s.mounts ∧
          s2.mounttable = s.mounttable.eraseIdx (k + 1) := by
        have e5 : Gave s [r] { s1 with mounttable := s1.mounttable.eraseIdx (k + 1) } := e2.congr rfl
        rw [hr]
        cases hp : mt.mountpoint with
        | none => exact ⟨_, rfl, e5, e3, by rw [e4]⟩
        | some p =>
          have hp1 : 0 < refs { s1 with mounttable := s1.mounttable.eraseIdx (k + 1) } p := by
            have h5 := hcount p
            have h6 := e5.count p
            rw [hp] at h5
            simp only [toList_some, cons_append, nil_append, count_cons, count_nil, beq_self_eq_true, if_true] at h5 h6
            omega
          obtain ⟨s2, g1, g2, g3, g4⟩ := e5.put hp1
          exact ⟨s2, g1, g2.perm (List.Perm.swap r p []), g3.trans e3, g4.trans (by rw [e4])⟩
      obtain ⟨s2, e6, e7, e8, e9⟩ := hput
      refine ⟨true, freeMount m mt s2, ?_, by simp, fun _ => ⟨k, m, mt, hget, hmt, hpath, e7.congr rfl, ?_, e9⟩⟩
      · simp [hget, hmt, h4, hun, e6]
      · simp [freeMount, State.setMount, e8]

end Xv6Vfs.Vfs
