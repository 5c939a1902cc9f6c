import Xv6Vfs.Vfs.Lifecycle

/-! One vnode for each (mount, inode number, key). A miss of `vfs_iget`, `alloc_vnode` and the
filling in of the identity are separate steps, and nothing keeps a second process from missing the
same key in between. -/
namespace Xv6Vfs.Vfs
open Function Option

variable {x : Phase} {v : Vnode}

/-- No two live vnodes have the same identity. -/
def Canonical (y : Conc) : Prop :=
  ∀ i j k, 0 < refs y.st i → 0 < refs y.st j →
    (y.st.vnodes i).key = some k → (y.st.vnodes j).key = some k → i = j

/-- Process `p` has missed `k` and has not filled in a vnode for it yet. -/
def Seeks (y : Conc) (p : Nat) (k : Key) : Prop :=
  y.phase p = .missed k ∨ ∃ i, y.phase p = .building i (some k)

/-- Steps of `ext2_iget` and `fvalloc`, which allocate a vnode only after a miss, and of those
who use the vnodes. -/
def Cached (y : Conc) : Sect → Prop
  | .alloc p => y.phase p ≠ .idle
  | _ => True

/-- `vfs_iget` does not miss a key that another process has missed and not yet filled in. -/
def OneMiss (y : Conc) : Sect → Prop
  | .iget _ k => vfsIget k.mp k.inum k.ikey y.st = none → ∀ q, ¬ Seeks y q k
  | _ => True

structure Canon (y : Conc) : Prop where
  lives : Lives y
  bound : ∀ i, 0 < refs y.st i → i < nvnode
  canonical : Canonical y
  one : ∀ p q k, Seeks y p k → Seeks y q k → p = q
  absent : ∀ p k, Seeks y p k → ∀ i, 0 < refs y.st i → (y.st.vnodes i).key ≠ some k
  keyed : ∀ p i, y.phase p ≠ .building i none

variable {y y' : Conc} {p q i j : Nat} {k : Key}

theorem key_eq_some : v.key = some k ↔ v.mp = some k.mp ∧ v.inum = k.inum ∧ v.ikey = k.ikey := by
  obtain ⟨a, b, c⟩ := k
  cases h : v.mp with
  | none => simp [Vnode.key, h]
  | some m => simp [Vnode.key, h]

theorem vfsIget_none {s : State} (h : vfsIget k.mp k.inum k.ikey s = none) (hi : i < nvnode)
    (hlive : 0 < refs s i) : (s.vnodes i).key ≠ some k := by
  intro hk
  obtain ⟨h1, h2, h3⟩ := key_eq_some.mp hk
  simp only [vfsIget, map_eq_none_iff, List.find?_eq_none, List.mem_range] at h
  have := h i hi
  simp only [decide_eq_true_eq] at this
  exact this ⟨hlive, h1, h2, h3⟩

theorem seeks_setPhase (h : Seeks (y.setPhase p x) q k) :
    q ≠ p ∧ Seeks y q k ∨ q = p ∧ (x = .missed k ∨ ∃ i, x = .building i (some k)) := by
  by_cases he : q = p
  · subst he
    simp only [Seeks, Conc.setPhase, update_self] at h
    exact .inr ⟨rfl, h⟩
  · simp only [Seeks, Conc.setPhase, update_of_ne he] at h
    exact .inl ⟨he, h⟩

section

variable (h : Canon y)
include h

/-- A step that makes no vnode visible and starts no search. -/
theorem Canon.step (hl : Lives y') (hlive : ∀ i, 0 < refs y'.st i → i < nvnode ∧
      ∀ k, (y'.st.vnodes i).key = some k → 0 < refs y.st i ∧ (y.st.vnodes i).key = some k)
    (hseek : ∀ p k, Seeks y' p k → Seeks y p k) (hkey : ∀ p i, y'.phase p ≠ .building i none) : Canon y' where
  lives := hl
  bound := fun i hi => (hlive i hi).1
  canonical := by
    intro i j k hi hj hik hjk
    obtain ⟨h1, h2⟩ := (hlive i hi).2 k hik
    obtain ⟨h3, h4⟩ := (hlive j hj).2 k hjk
    exact h.canonical i j k h1 h3 h2 h4
  one := fun p q k hp hq => h.one p q k (hseek p k hp) (hseek q k hq)
  absent := by
    intro p k hp i hi hk
    obtain ⟨h1, h2⟩ := (hlive i hi).2 k hk
    exact h.absent p k (hseek p k hp) i h1 h2
  keyed := hkey

theorem Canon.keep (hl : Lives y') (hst : y'.st.vnodes = y.st.vnodes)
    (hseek : ∀ p k, Seeks y' p k → Seeks y p k) (hkey : ∀ p i, y'.phase p ≠ .building i none) : Canon y' := by
  have hrefs : ∀ i, refs y'.st i = refs y.st i := fun i => by rw [refs, refs, hst]
  refine h.step hl (fun i hi => ⟨h.bound i (hrefs i ▸ hi), fun k hk => ?_⟩) hseek hkey
  rw [hst] at hk
  exact ⟨hrefs i ▸ hi, hk⟩

omit h in
theorem vget_key (i j : Nat) (s : State) : ((vget i s).vnodes j).key = (s.vnodes j).key := by
  have h := vget_ident i j s
  have h1 := congrArg Vnode.key h
  exact h1

theorem Canon.more (hi : 0 < refs y.st i) (hb : ∀ q k, y.phase q ≠ .building i k)
    (p : Nat) : Canon { y with st := vget i y.st, held := (p, i) :: y.held } := by
  refine h.step (h.lives.more hi hb p) (fun j hj => ?_) (fun _ _ h1 => h1) h.keyed
  have hj' : 0 < refs y.st j := by
    by_cases he : i = j
    · exact he ▸ hi
    · simpa [vget_refs, he] using hj
  exact ⟨h.bound j hj', fun k hk => ⟨hj', by rwa [vget_key] at hk⟩⟩

theorem Canon.setPhase (hl : Lives (y.setPhase p x))
    (hx : ∀ k, x = .missed k → (∀ q, ¬ Seeks y q k) ∧ ∀ i, 0 < refs y.st i → (y.st.vnodes i).key ≠ some k)
    (hb : ∀ i k, x ≠ .building i k) : Canon (y.setPhase p x) := by
  refine ⟨hl, h.bound, h.canonical, fun a b k ha hb' => ?_, fun a k ha => ?_, fun a i ha => ?_⟩
  · rcases seeks_setPhase ha with ⟨h1, h2⟩ | ⟨rfl, h2 | ⟨i, h2⟩⟩
    · rcases seeks_setPhase hb' with ⟨-, h4⟩ | ⟨-, h4 | ⟨i, h4⟩⟩
      · exact h.one a b k h2 h4
      · exact absurd h2 ((hx k h4).1 a)
      · exact absurd h4 (hb i _)
    · rcases seeks_setPhase hb' with ⟨-, h4⟩ | ⟨h4, -⟩
      · exact absurd h4 ((hx k h2).1 b)
      · exact h4.symm
    · exact absurd h2 (hb i _)
  · rcases seeks_setPhase ha with ⟨-, h2⟩ | ⟨rfl, h2 | ⟨i, h2⟩⟩
    · exact h.absent a k h2
    · exact (hx k h2).2
    · exact absurd h2 (hb i _)
  · exact h.keyed a i (setPhase_building hb ha).1

theorem Canon.iget (hp : y.phase p = .idle) (hone : OneMiss y (.iget p k)) : Canon (y.iget p k) := by
  have hl := h.lives.iget hp k
  unfold Conc.iget at hl ⊢
  cases hg : vfsIget k.mp k.inum k.ikey y.st with
  | none =>
    rw [hg] at hl
    refine h.setPhase hl (fun k' he => ?_) (by simp)
    cases he
    exact ⟨hone hg, fun i hi => vfsIget_none hg (h.bound i hi) hi⟩
  | some r =>
    obtain ⟨i, s⟩ := r
    obtain ⟨hi, hmp, -, -, rfl⟩ := vfsIget_spec hg
    refine h.more hi (fun q k' hq => ?_) p
    rw [(h.lives.building q i k' hq).2.2.2.1] at hmp
    cases hmp

/-- A process that has missed `k` takes a slot for it. -/
theorem Canon.alloc (hp : y.phase p = .missed k) : Canon (y.alloc p (some k)) := by
  have hl := h.lives.alloc p (some k) (by simp [hp])
  unfold Conc.alloc at hl ⊢
  cases ha : allocVnode y.st with
  | none =>
    rw [ha] at hl
    exact h.setPhase hl (by simp) (by simp)
  | some r =>
    obtain ⟨i, s⟩ := r
    rw [ha] at hl
    obtain ⟨hi, hlt, v, hv, -, hmp, rfl⟩ := allocVnode_empty ha
    refine h.step hl (fun j hj => ?_) (fun q k' hq => ?_) (fun q j hq => ?_)
    · by_cases he : j = i
      · subst he
        refine ⟨hlt, fun k' hk => ?_⟩
        simp only [setVnode_same] at hk
        rw [key_eq_some, hmp] at hk
        cases hk.1
      · have hj' : 0 < refs y.st j := by
          simpa [refs, setVnode_ne y.st v he] using hj
        refine ⟨h.bound j hj', fun k' hk => ⟨hj', ?_⟩⟩
        simpa only [setVnode_ne y.st v he] using hk
    · rcases seeks_setPhase hq with ⟨-, h1⟩ | ⟨rfl, h1 | ⟨j, h1⟩⟩
      · exact h1
      · cases h1
      · cases h1
        exact .inl hp
    · by_cases he : q = p
      · subst he
        simp [Conc.setPhase] at hq
      · simp only [Conc.setPhase, update_of_ne he] at hq
        exact h.keyed q j hq

/-- The vnode becomes visible; its key was missed by this process and by no other. -/
theorem Canon.fill (hp : y.phase p = .building i (some k)) {fs : FsType} {x : Nat}
    (hops : v.ops = some fs) (hpriv : v.priv = some x) (hk : v.key = some k) : Canon (y.fill p i v fs x) := by
  have hl := h.lives.fill hp hops hpriv
  have hself : Seeks y p k := .inr ⟨i, hp⟩
  have hkey : (({ v with ref := (y.st.vnodes i).ref } : Vnode)).key = some k := hk
  have hrefs : ∀ j, refs (y.fill p i v fs x).st j = refs y.st j := by
    intro j
    by_cases he : j = i
    · subst he
      simp [refs, Conc.fill]
    · simp [refs, Conc.fill, setVnode_ne y.st _ he]
  have hold : ∀ j k', ((y.fill p i v fs x).st.vnodes j).key = some k' →
      j = i ∧ k' = k ∨ j ≠ i ∧ (y.st.vnodes j).key = some k' := by
    intro j k' hj
    by_cases he : j = i
    · subst he
      simp only [Conc.fill, setVnode_same, hkey] at hj
      exact .inl ⟨rfl, (some.inj hj).symm⟩
    · simp only [Conc.fill, setVnode_ne y.st _ he] at hj
      exact .inr ⟨he, hj⟩
  have hseek : ∀ q k', Seeks (y.fill p i v fs x) q k' → q ≠ p ∧ Seeks y q k' := by
    intro q k' hq
    rcases seeks_setPhase (show Seeks (y.setPhase p .idle) q k' from hq) with h1 | ⟨-, h1 | ⟨j, h1⟩⟩
    · exact h1
    · cases h1
    · cases h1
  refine ⟨hl, fun j hj => h.bound j (hrefs j ▸ hj), fun a b k' ha hb hak hbk => ?_,
    fun a b k' ha hb => h.one a b k' (hseek a k' ha).2 (hseek b k' hb).2, fun q k' hq j hj hjk => ?_,
    fun q j hq => h.keyed q j (setPhase_building (by simp) hq).1⟩
  · rw [hrefs] at ha hb
    rcases hold a k' hak with ⟨rfl, rfl⟩ | ⟨h1, h2⟩ <;> rcases hold b _ hbk with ⟨rfl, h3⟩ | ⟨h3, h4⟩
    · rfl
    · exact absurd h4 (h.absent p _ hself b hb)
    · subst h3
      exact absurd h2 (h.absent p _ hself a ha)
    · exact h.canonical a b k' ha hb h2 h4
  · rw [hrefs] at hj
    obtain ⟨h1, h2⟩ := hseek q k' hq
    rcases hold j k' hjk with ⟨rfl, rfl⟩ | ⟨-, h3⟩
    · exact h1 (h.one q p _ h2 hself)
    · exact h.absent q k' h2 j hj h3

theorem Canon.put (hm : (p, i) ∈ y.held) (hp : y.phase p = .idle ∨ ∃ k, y.phase p = .building i k)
    (hput : y.put p i = some y') : Canon y' := by
  obtain ⟨z, h1, hl⟩ := h.lives.put hm hp
  obtain rfl : z = y' := some.inj (h1.symm.trans hput)
  obtain ⟨v, d, hsec, href, -, hmore⟩ := vputSection_spec (h.lives.live hm)
  rw [Conc.put, hsec] at hput
  cases hput
  refine h.step hl (fun j hj => ?_) (fun q k hq => ?_)
    (fun q j hq => h.keyed q j (setPhase_building (by simp) hq).1)
  · by_cases he : j = i
    · subst he
      have h2 := h.lives.live hm
      have h3 : refs y.st j ≠ 1 := by
        simp only [refs, setVnode_same] at hj
        omega
      refine ⟨h.bound j h2, fun k hk => ⟨h2, ?_⟩⟩
      simpa only [setVnode_same, (hmore h3).2.2.2] using hk
    · have hj' : 0 < refs y.st j := by
        simpa [refs, setVnode_ne y.st v he] using hj
      exact ⟨h.bound j hj', fun k hk => ⟨hj', by simpa only [setVnode_ne y.st v he] using hk⟩⟩
  · rcases seeks_setPhase (show Seeks (y.setPhase p .idle) q k from hq) with ⟨-, h2⟩ | ⟨-, h2 | ⟨j, h2⟩⟩
    · exact h2
    · cases h2
    · cases h2

end

theorem sect_canon (a : Sect) (h : Canon y) (hc : Cached y a) (hone : OneMiss y a)
    (ha : sect a y = some y') : Canon y' := by
  have hl := sect_lives a h.lives ha
  cases a with
  | iget p k =>
    simp only [sect] at ha
    split at ha
    case isTrue hp =>
      cases ha
      exact h.iget hp hone
    case isFalse => cases ha
  | giveUp p =>
    simp only [sect] at ha
    split at ha
    case h_1 k hp =>
      cases ha
      exact h.setPhase hl (by simp) (by simp)
    case h_2 => cases ha
  | alloc p =>
    simp only [sect] at ha
    split at ha
    case h_1 hp => exact absurd hp hc
    case h_2 k hp =>
      cases ha
      exact h.alloc hp
    case h_3 => cases ha
  | fill p v =>
    simp only [sect] at ha
    split at ha
    case h_1 i k fs x hp hops hpriv =>
      split at ha
      case isTrue hk =>
        cases ha
        cases k with
        | none => exact absurd hp (h.keyed p i)
        | some k => exact h.fill hp hops hpriv (hk.resolve_left (by simp))
      case isFalse => cases ha
    case h_2 => cases ha
  | vget p i =>
    simp only [sect] at ha
    split at ha
    case isTrue hp =>
      cases ha
      exact h.more (h.lives.live hp.2) (fun q k => h.lives.not_building hp.1 hp.2 q k) p
    case isFalse => cases ha
  | hand p q i =>
    simp only [sect] at ha
    split at ha
    · cases ha
      exact h.keep hl rfl (fun _ _ h1 => h1) h.keyed
    · cases ha
  | put p i =>
    simp only [sect] at ha
    split at ha
    case isFalse => cases ha
    case isTrue hm =>
      split at ha
      case h_1 hp => exact h.put hm (.inl hp) ha
      case h_2 j k hp =>
        split at ha
        case isTrue he => exact h.put hm (.inr ⟨k, he ▸ hp⟩) ha
        case isFalse => cases ha
      case h_3 => cases ha
  | destroy n =>
    obtain ⟨d, hd, rfl⟩ := map_eq_some_iff.mp ha
    exact h.keep hl rfl (fun _ _ h1 => h1) h.keyed

theorem concInit_canon (pages : Nat) : Canon (concInit pages) where
  lives := concInit_lives pages
  bound := fun i hi => absurd hi (by simp [concInit, refs])
  canonical := fun i j k hi => absurd hi (by simp [concInit, refs])
  one := by
    rintro p q k (h | ⟨i, h⟩) <;> cases h
  absent := fun p k _ i hi => absurd hi (by simp [concInit, refs])
  keyed := fun p i h => by cases h

/-- As long as no key is missed twice before it is filled in, there is one vnode for each. -/
theorem canonical_of_oneMiss {pages : Nat} {ops : List Sect} (hc : Run.Meets sect Cached ops (concInit pages))
    (hone : Run.Meets sect OneMiss ops (concInit pages))
    (hrun : Run.run sect ops (concInit pages) = some y) : Canonical y := by
  have h : Canon y := Run.run_invariant Canon
    (fun s a s' h (hok : Cached s a ∧ OneMiss s a) ha => sect_canon a h hok.1 hok.2 ha)
    (concInit_canon pages) (hc.and hone) hrun
  exact h.canonical

/-- Two processes open one ext2 file by two of its names, one after the other. -/
def openedInTurn : List Sect :=
  [.iget 0 ⟨1, 12, 0⟩, .alloc 0, .fill 0 sampleVnode, .iget 1 ⟨1, 12, 0⟩]

/-- A condition on a step that holds in all of the states below: no process is on its way to a
vnode, or the vnode is there. -/
def quietB (y : Conc) : Sect → Bool
  | .alloc p => y.phase p ≠ .idle
  | .iget _ k => (vfsIget k.mp k.inum k.ikey y.st).isSome
  | _ => true

theorem quietB_cached (y : Conc) (a : Sect) (h : quietB y a = true) : Cached y a := by
  cases a with
  | alloc p => simpa [quietB, Cached] using h
  | _ => trivial

theorem quietB_oneMiss (y : Conc) (a : Sect) (h : quietB y a = true) : OneMiss y a := by
  cases a with
  | iget p k =>
    intro hn
    simp [quietB, hn] at h
  | _ => trivial

theorem openedInTurn_canonical : ∃ y, Run.run sect openedInTurn (concInit 10) = some y ∧
    y.held = [(1, 0), (0, 0)] ∧ Canonical y := by
  have h : (Run.run sect openedInTurn (concInit 10)).map (fun y => y.held) = some [(1, 0), (0, 0)] := by
    decide +kernel
  have hrest : (sect (.iget 0 ⟨1, 12, 0⟩) (concInit 10)).all
      (Run.check sect quietB openedInTurn.tail) = true := by
    decide +kernel
  obtain ⟨y, hy, hh⟩ := map_eq_some_iff.mp h
  have hc : Run.Meets sect Cached openedInTurn (concInit 10) := by
    refine ⟨trivial, fun s hs => ?_⟩
    exact Run.Meets.of_check quietB_cached (by simpa [hs, openedInTurn] using hrest)
  have hone : Run.Meets sect OneMiss openedInTurn (concInit 10) := by
    refine ⟨fun _ q => ?_, fun s hs => ?_⟩
    · rintro (h1 | ⟨i, h1⟩) <;> cases h1
    · exact Run.Meets.of_check quietB_oneMiss (by simpa [hs, openedInTurn] using hrest)
  exact ⟨y, hy, hh, canonical_of_oneMiss hc hone hy⟩

/-- The same two opens with the directory entries in different directories, so that no lock keeps
the second from asking before the first has filled in its vnode. -/
def openedTogether : List Sect :=
  [.iget 0 ⟨1, 12, 0⟩, .iget 1 ⟨1, 12, 0⟩, .alloc 0, .alloc 1, .fill 0 sampleVnode, .fill 1 sampleVnode]

def cachedB (y : Conc) : Sect → Bool
  | .alloc p => y.phase p ≠ .idle
  | _ => true

theorem openedTogether_twice : ∃ y, Run.run sect openedTogether (concInit 10) = some y ∧
    Run.Meets sect Cached openedTogether (concInit 10) ∧ ¬ Canonical y := by
  have h : (Run.run sect openedTogether (concInit 10)).map (fun y =>
      (refs y.st 0, refs y.st 1, (y.st.vnodes 0).key, (y.st.vnodes 1).key)) =
      some (1, 1, some ⟨1, 12, 0⟩, some ⟨1, 12, 0⟩) := by
    decide +kernel
  have hc : Run.check sect cachedB openedTogether (concInit 10) = true := by
    decide +kernel
  obtain ⟨y, hy, he⟩ := map_eq_some_iff.mp h
  obtain ⟨h1, h2, h3, h4⟩ : refs y.st 0 = 1 ∧ refs y.st 1 = 1 ∧
      (y.st.vnodes 0).key = some ⟨1, 12, 0⟩ ∧ (y.st.vnodes 1).key = some ⟨1, 12, 0⟩ := by
    simpa only [Prod.mk.injEq] using he
  refine ⟨y, hy, Run.Meets.of_check (fun s a ha => ?_) hc, fun hcan => ?_⟩
  · cases a with
    | alloc p => simpa [cachedB, Cached] using ha
    | _ => trivial
  · exact absurd (hcan 0 1 _ (by omega) (by omega) h3 h4) (by decide)

end Xv6Vfs.Vfs
