import Mathlib.Data.List.Perm.Basic
import Xv6Vfs.Vfs.Sections

/-! One life of a vnode slot after the other: what each section keeps. -/
namespace Xv6Vfs.Vfs
open Function List Nat

variable {x : Phase} {s : State} {k : Option Key}

/-- Calls of `destroy`, due or done. -/
def Conc.dues (y : Conc) : List Destroy := y.leaving ++ y.destroyed

/-- What every step keeps. A slot that is being filled in has one reference, that of the process
which fills it in; any other live slot carries what its allocation was given. -/
structure Lives (y : Conc) : Prop where
  count : ∀ i, refs y.st i = (y.held.map Prod.snd).count i
  bound : ∀ i, 0 < refs y.st i → y.life i < y.allocs
  inj : ∀ i j, 0 < refs y.st i → 0 < refs y.st j → y.life i = y.life j → i = j
  building : ∀ p i k, y.phase p = .building i k →
    refs y.st i = 1 ∧ (p, i) ∈ y.held ∧ (y.st.vnodes i).ops = none ∧ (y.st.vnodes i).mp = none ∧
      y.given (y.life i) = none
  filled : ∀ i, 0 < refs y.st i → (∃ p k, y.phase p = .building i k) ∨
    ∃ fs q, (y.st.vnodes i).ops = some fs ∧ (y.st.vnodes i).priv = some q ∧
      y.given (y.life i) = some (fs, q)
  known : ∀ a, y.given a ≠ none → a < y.allocs
  due : ∀ d ∈ y.dues, d.life < y.allocs ∧ (∃ q, d.priv = some q ∧ y.given d.life = some (d.ops, q)) ∧
    ∀ i, 0 < refs y.st i → y.life i ≠ d.life
  once : (y.dues.map Destroy.life).Nodup
  all : ∀ a, y.given a ≠ none → (∃ i, 0 < refs y.st i ∧ y.life i = a) ∨ a ∈ y.dues.map Destroy.life

variable {y y' : Conc} {p q i j : Nat}

section

variable (h : Lives y)
include h

theorem Lives.live (hm : (p, i) ∈ y.held) : 0 < refs y.st i := by
  rw [h.count i]
  exact count_pos_iff.mpr (mem_map.mpr ⟨(p, i), hm, rfl⟩)

theorem Lives.builder (hp : y.phase p = .building i k) (hm : (q, i) ∈ y.held) : q = p := by
  obtain ⟨h1, h2, -⟩ := h.building p i k hp
  rw [h.count i] at h1
  by_contra hne
  have h3 : ((p, i) ∈ y.held.erase (q, i)) :=
    (mem_erase_of_ne (by simpa using Ne.symm hne)).mpr h2
  have h4 := ((perm_cons_erase hm).map Prod.snd).count_eq i
  have h5 : 0 < ((y.held.erase (q, i)).map Prod.snd).count i :=
    count_pos_iff.mpr (mem_map.mpr ⟨(p, i), h3, rfl⟩)
  simp only [map_cons, count_cons_self] at h4
  omega

theorem Lives.not_building (hp : y.phase p = .idle) (hm : (p, i) ∈ y.held) (q : Nat)
    (k : Option Key) : y.phase q ≠ .building i k := by
  intro hq
  have := h.builder hq hm
  subst this
  rw [hp] at hq
  cases hq

omit h in
theorem allocVnode_empty {s1 : State} (h : allocVnode s = some (i, s1)) :
    refs s i = 0 ∧ i < nvnode ∧ ∃ v, v.ref = 1 ∧ v.ops = none ∧ v.mp = none ∧ s1 = s.setVnode i v := by
  obtain ⟨h1, h2, -⟩ := allocVnode_spec h
  obtain ⟨k, -, he⟩ := Option.map_eq_some_iff.mp h
  cases he
  exact ⟨h1, h2, _, rfl, rfl, rfl, rfl⟩

omit h in
theorem setPhase_building (hx : ∀ j k, x ≠ .building j k) (h : (y.setPhase p x).phase q = .building i k) :
    y.phase q = .building i k ∧ q ≠ p := by
  by_cases he : q = p
  · subst he
    simp only [Conc.setPhase, update_self] at h
    exact absurd h (hx i k)
  · simp only [Conc.setPhase, update_of_ne he] at h
    exact ⟨h, he⟩

theorem Lives.filled_setPhase (hp : ∀ k, y.phase p ≠ .building j k) (hj : 0 < refs y.st j) :
    (∃ q k, (y.setPhase p x).phase q = .building j k) ∨ ∃ fs q, (y.st.vnodes j).ops = some fs ∧
      (y.st.vnodes j).priv = some q ∧ y.given (y.life j) = some (fs, q) := by
  rcases h.filled j hj with ⟨q, k, hq⟩ | h1
  · have hne : q ≠ p := fun he => hp k (he ▸ hq)
    exact .inl ⟨q, k, by simpa only [Conc.setPhase, update_of_ne hne] using hq⟩
  · exact .inr h1

/-- A process that fills in nothing goes to another place in the code. -/
theorem Lives.setPhase (hx : ∀ j k, x ≠ .building j k) (hp : ∀ j k, y.phase p ≠ .building j k) :
    Lives (y.setPhase p x) where
  count := h.count
  bound := h.bound
  inj := h.inj
  building := fun q i k hq => h.building q i k (setPhase_building hx hq).1
  filled i hi := h.filled_setPhase (hp i) hi
  known := h.known
  due := h.due
  once := h.once
  all := h.all

theorem Lives.more (hi : 0 < refs y.st i) (hb : ∀ q k, y.phase q ≠ .building i k)
    (p : Nat) : Lives { y with st := vget i y.st, held := (p, i) :: y.held } := by
  have hlive : ∀ j, 0 < refs (vget i y.st) j ↔ 0 < refs y.st j := by
    intro j
    rw [vget_refs]
    by_cases he : i = j
    · subst he
      simp [hi]
    · simp [he]
  have hfield : ∀ j, ((vget i y.st).vnodes j).ops = (y.st.vnodes j).ops ∧
      ((vget i y.st).vnodes j).mp = (y.st.vnodes j).mp ∧
      ((vget i y.st).vnodes j).priv = (y.st.vnodes j).priv := by
    intro j
    have h1 := vget_ident i j y.st
    have h2 := congrArg Vnode.ops h1
    have h3 := congrArg Vnode.mp h1
    have h4 := congrArg Vnode.priv h1
    exact ⟨h2, h3, h4⟩
  refine ⟨fun j => ?_, fun j hj => h.bound j ((hlive j).mp hj),
    fun a b ha hb' => h.inj a b ((hlive a).mp ha) ((hlive b).mp hb'), fun q j k hq => ?_,
    fun j hj => ?_, h.known, fun d hd => ?_, h.once, fun a ha => ?_⟩
  · have h1 := h.count j
    simp only [vget_refs, map_cons, count_cons, beq_iff_eq]
    omega
  · have hne : i ≠ j := by
      intro he
      subst he
      exact hb q k hq
    obtain ⟨h1, h2, h3, h4, h5⟩ := h.building q j k hq
    refine ⟨?_, mem_cons_of_mem _ h2, (hfield j).1.trans h3, (hfield j).2.1.trans h4, h5⟩
    simp only [vget_refs, if_neg hne, h1]
  · rcases h.filled j ((hlive j).mp hj) with h1 | ⟨fs, x, h1, h2, h3⟩
    · exact .inl h1
    · exact .inr ⟨fs, x, (hfield j).1.trans h1, (hfield j).2.2.trans h2, h3⟩
  · obtain ⟨h1, h2, h3⟩ := h.due d hd
    exact ⟨h1, h2, fun j hj => h3 j ((hlive j).mp hj)⟩
  · rcases h.all a ha with ⟨j, h1, h2⟩ | h1
    · exact .inl ⟨j, (hlive j).mpr h1, h2⟩
    · exact .inr h1

/-- A free slot begins its next life, with a number of its own. -/
theorem Lives.alloc (p : Nat) (k : Option Key) (hp : ∀ j k, y.phase p ≠ .building j k) : Lives (y.alloc p k) := by
  unfold Conc.alloc
  cases ha : allocVnode y.st with
  | none => exact h.setPhase (by simp) hp
  | some r =>
    obtain ⟨i, s⟩ := r
    obtain ⟨hi, -, v, hv, hops, hmp, rfl⟩ := allocVnode_empty ha
    have hne : ∀ j, 0 < refs y.st j → j ≠ i := by
      intro j hj he
      subst he
      omega
    have hrefs : ∀ j, refs (y.st.setVnode i v) j = if j = i then 1 else refs y.st j := by
      intro j
      by_cases he : j = i
      · subst he
        simp [refs, hv]
      · simp [refs, setVnode_ne y.st v he, he]
    have hlive : ∀ j, 0 < refs (y.st.setVnode i v) j → j = i ∨ j ≠ i ∧ 0 < refs y.st j := by
      intro j hj
      by_cases he : j = i
      · exact .inl he
      · exact .inr ⟨he, by simpa [hrefs, he] using hj⟩
    have hphase : ∀ q j k', (update y.phase p (.building i k)) q = .building j k' →
        q = p ∧ j = i ∨ q ≠ p ∧ y.phase q = .building j k' := by
      intro q j k' hq
      by_cases he : q = p
      · subst he
        rw [update_self] at hq
        cases hq
        exact .inl ⟨rfl, rfl⟩
      · rw [update_of_ne he] at hq
        exact .inr ⟨he, hq⟩
    have hgiven : y.given y.allocs = none := by
      by_contra hg
      exact Nat.lt_irrefl _ (h.known _ hg)
    refine ⟨fun j => ?_, fun j hj => ?_, fun a b ha' hb he => ?_, fun q j k' hq => ?_, fun j hj => ?_,
      fun a ha' => lt_succ_of_lt (h.known a ha'), fun d hd => ?_, h.once, fun a ha' => ?_⟩
    · have h1 := h.count j
      simp only [hrefs, map_cons, count_cons, beq_iff_eq]
      by_cases he : j = i
      · subst he
        simp only [if_true]
        omega
      · simp [he, Ne.symm he, h1]
    · rcases hlive j hj with rfl | ⟨h1, h2⟩
      · simp
      · simpa [update_of_ne h1] using lt_succ_of_lt (h.bound j h2)
    · dsimp only at he
      rcases hlive a ha' with rfl | ⟨h1, h2⟩ <;> rcases hlive b hb with rfl | ⟨h3, h4⟩
      · rfl
      · rw [update_self, update_of_ne h3] at he
        exact absurd (h.bound b h4) (by omega)
      · rw [update_self, update_of_ne h1] at he
        exact absurd (h.bound a h2) (by omega)
      · rw [update_of_ne h1, update_of_ne h3] at he
        exact h.inj a b h2 h4 he
    · rcases hphase q j k' hq with ⟨rfl, rfl⟩ | ⟨h1, h2⟩
      · simp [hrefs, hops, hmp, hgiven, Conc.setPhase]
      · obtain ⟨h3, h4, h5, h6, h7⟩ := h.building q j k' h2
        have h8 : j ≠ i := hne j (by omega)
        refine ⟨by simp [hrefs, h8, h3], mem_cons_of_mem _ h4, ?_, ?_, ?_⟩
        · simp only [setVnode_ne y.st v h8, h5]
        · simp only [setVnode_ne y.st v h8, h6]
        · simpa only [Conc.setPhase, update_of_ne h8] using h7
    · rcases hlive j hj with rfl | ⟨h1, h2⟩
      · exact .inl ⟨p, k, by simp [Conc.setPhase]⟩
      · rcases h.filled_setPhase (hp j) h2 with hq | ⟨fs, x, h3, h4, h5⟩
        · exact .inl hq
        · refine .inr ⟨fs, x, ?_, ?_, ?_⟩
          · simp only [setVnode_ne y.st v h1, h3]
          · simp only [setVnode_ne y.st v h1, h4]
          · simpa only [Conc.setPhase, update_of_ne h1] using h5
    · obtain ⟨h1, h2, h3⟩ := h.due d hd
      refine ⟨lt_succ_of_lt h1, h2, fun j hj => ?_⟩
      rcases hlive j hj with rfl | ⟨h4, h5⟩
      · simp only [update_self]
        omega
      · simpa only [update_of_ne h4] using h3 j h5
    · rcases h.all a ha' with ⟨j, h1, h2⟩ | h1
      · have h3 := hne j h1
        exact .inl ⟨j, by simpa [hrefs, h3] using h1, by simpa only [update_of_ne h3] using h2⟩
      · exact .inr h1

/-- The backend has filled in the slot. -/
theorem Lives.fill (hp : y.phase p = .building i k) {v : Vnode} {fs : FsType} {x : Nat}
    (hops : v.ops = some fs) (hpriv : v.priv = some x) : Lives (y.fill p i v fs x) := by
  obtain ⟨h1, h2, h3, h4, h5⟩ := h.building p i k hp
  have hrefs : ∀ j, refs (y.st.setVnode i { v with ref := (y.st.vnodes i).ref }) j = refs y.st j := by
    intro j
    by_cases he : j = i
    · subst he
      simp [refs]
    · simp [refs, setVnode_ne y.st _ he]
  have hlife : ∀ j, 0 < refs y.st j → j ≠ i → y.life j ≠ y.life i := by
    intro j hj hne he
    exact hne (h.inj j i hj (by omega) he)
  refine ⟨fun j => (hrefs j).trans (h.count j), fun j hj => h.bound j (hrefs j ▸ hj),
    fun a b ha hb => h.inj a b (hrefs a ▸ ha) (hrefs b ▸ hb), fun q j k' hq => ?_, fun j hj => ?_,
    fun a ha => ?_, fun d hd => ?_, h.once, fun a ha => ?_⟩
  · obtain ⟨hq, hne⟩ := setPhase_building (by simp) hq
    obtain ⟨e1, e2, e3, e4, e5⟩ := h.building q j k' hq
    have hji : j ≠ i := by
      intro he
      subst he
      exact hne (h.builder hp e2)
    refine ⟨(hrefs j).trans e1, e2, ?_, ?_, ?_⟩
    · simp only [Conc.fill, setVnode_ne y.st _ hji, e3]
    · simp only [Conc.fill, setVnode_ne y.st _ hji, e4]
    · simp only [Conc.fill, Conc.setPhase]
      rw [update_of_ne (hlife j (by omega) hji)]
      exact e5
  · by_cases hji : j = i
    · subst hji
      exact .inr ⟨fs, x, by simp [Conc.fill, hops], by simp [Conc.fill, hpriv], by simp [Conc.fill, Conc.setPhase]⟩
    · have hj' : 0 < refs y.st j := hrefs j ▸ hj
      have hpj : ∀ k', y.phase p ≠ .building j k' := fun k' hq => by
        rw [hp] at hq
        cases hq
        exact hji rfl
      rcases h.filled_setPhase hpj hj' with hq | ⟨fs', x', e1, e2, e3⟩
      · exact .inl hq
      · refine .inr ⟨fs', x', ?_, ?_, ?_⟩
        · simp only [Conc.fill, setVnode_ne y.st _ hji, e1]
        · simp only [Conc.fill, setVnode_ne y.st _ hji, e2]
        · simp only [Conc.fill, Conc.setPhase]
          rw [update_of_ne (hlife j hj' hji)]
          exact e3
  · by_cases he : a = y.life i
    · subst he
      exact h.bound i (by omega)
    · refine h.known a ?_
      simpa only [Conc.fill, Conc.setPhase, update_of_ne he] using ha
  · obtain ⟨e1, ⟨x', e2, e3⟩, e4⟩ := h.due d hd
    refine ⟨e1, ⟨x', e2, ?_⟩, fun j hj => e4 j (hrefs j ▸ hj)⟩
    simp only [Conc.fill, Conc.setPhase]
    rw [update_of_ne (Ne.symm (e4 i (by omega)))]
    exact e3
  · by_cases he : a = y.life i
    · subst he
      exact .inl ⟨i, by have := hrefs i; simp only [Conc.fill]; omega, rfl⟩
    · have ha' : y.given a ≠ none := by
        simpa only [Conc.fill, Conc.setPhase, update_of_ne he] using ha
      rcases h.all a ha' with ⟨j, e1, e2⟩ | e1
      · exact .inl ⟨j, by have := hrefs j; simp only [Conc.fill]; omega, e2⟩
      · exact .inr e1

omit h in
theorem count_erase_slot {l : List (Nat × Nat)} (hm : (p, i) ∈ l) (j : Nat) :
    ((l.erase (p, i)).map Prod.snd).count j + (if i = j then 1 else 0) = (l.map Prod.snd).count j := by
  have h1 := ((perm_cons_erase hm).map Prod.snd).count_eq j
  simp only [map_cons, count_cons, beq_iff_eq] at h1
  omega

theorem Lives.hand (hp : y.phase p = .idle) (hm : (p, i) ∈ y.held) (q : Nat) :
    Lives { y with held := (q, i) :: y.held.erase (p, i) } := by
  refine ⟨fun j => ?_, h.bound, h.inj, fun r j k hr => ?_, h.filled, h.known, h.due, h.once, h.all⟩
  · have h1 := count_erase_slot hm j
    have h2 := h.count j
    simp only [map_cons, count_cons, beq_iff_eq]
    omega
  · obtain ⟨h1, h2, h3⟩ := h.building r j k hr
    refine ⟨h1, mem_cons_of_mem _ ((mem_erase_of_ne ?_).mpr h2), h3⟩
    intro he
    obtain ⟨rfl, rfl⟩ := Prod.mk.inj he
    exact h.not_building hp hm r k hr

theorem Lives.destroy {n : Nat} {d : Destroy} (hd : y.leaving[n]? = some d) : Lives { y with
      st := runDestroy (some (d.ops, d.priv)) y.st
      leaving := y.leaving.eraseIdx n, destroyed := d :: y.destroyed } := by
  have hperm : (y.leaving.eraseIdx n ++ d :: y.destroyed).Perm y.dues := by
    obtain ⟨hn, rfl⟩ := List.getElem?_eq_some_iff.mp hd
    exact perm_middle.trans ((getElem_cons_eraseIdx_perm hn).append_right _)
  refine ⟨h.count, h.bound, h.inj, h.building, h.filled, h.known, fun e he => ?_, ?_, fun a ha => ?_⟩
  · exact h.due e (hperm.mem_iff.mp he)
  · exact ((hperm.map Destroy.life).nodup_iff).mpr h.once
  · rcases h.all a ha with h1 | h1
    · exact .inl h1
    · exact .inr (((hperm.map Destroy.life).mem_iff).mpr h1)

omit h in
theorem vputSection_spec (hi : 0 < refs s i) :
    ∃ v d, vputSection i s = some (s.setVnode i v, d) ∧ v.ref + 1 = refs s i ∧
      (refs s i = 1 → d = (s.vnodes i).ops.map fun fs => (fs, (s.vnodes i).priv)) ∧
      (refs s i ≠ 1 → d = none ∧ v.ops = (s.vnodes i).ops ∧ v.priv = (s.vnodes i).priv ∧ v.key = (s.vnodes i).key) := by
  unfold vputSection
  simp only [refs] at hi ⊢
  rw [if_neg (by omega)]
  by_cases h1 : (s.vnodes i).ref = 1
  · rw [if_pos h1]
    exact ⟨_, _, rfl, by simp [h1], fun _ => rfl, fun h2 => absurd h1 h2⟩
  · rw [if_neg h1]
    exact ⟨_, _, rfl, by simp only; omega, fun h2 => absurd h2 h1, fun _ => ⟨rfl, rfl, rfl, rfl⟩⟩

/-- A reference is dropped. With the last one the life of the slot ends, and `destroy` is due if
a backend had filled it in. -/
theorem Lives.put (hm : (p, i) ∈ y.held) (hp : y.phase p = .idle ∨ ∃ k, y.phase p = .building i k) :
    ∃ y', y.put p i = some y' ∧ Lives y' := by
  have hi := h.live hm
  obtain ⟨v, d, hsec, href, hlast, hmore⟩ := vputSection_spec hi
  refine ⟨_, by rw [Conc.put, hsec]; rfl, ?_⟩
  have hbuild : ∀ q k, y.phase q = .building i k → q = p := by
    intro q k hq
    exact (h.builder hq hm).symm
  have hother : ∀ q j k, (y.setPhase p .idle).phase q = .building j k →
      y.phase q = .building j k ∧ q ≠ p ∧ j ≠ i := by
    intro q j k hq
    obtain ⟨h1, h2⟩ := setPhase_building (by simp) hq
    refine ⟨h1, h2, ?_⟩
    intro he
    subst he
    exact h2 (hbuild q k h1)
  have hrefs : ∀ j, refs (y.st.setVnode i v) j + (if i = j then 1 else 0) = refs y.st j := by
    intro j
    by_cases he : j = i
    · subst he
      simpa [refs] using href
    · simp [refs, setVnode_ne y.st v he, Ne.symm he]
  have hlive : ∀ j, 0 < refs (y.st.setVnode i v) j → 0 < refs y.st j := by
    intro j hj
    have := hrefs j
    omega
  have hcount : ∀ j, refs (y.st.setVnode i v) j = ((y.held.erase (p, i)).map Prod.snd).count j := by
    intro j
    have h1 := count_erase_slot hm j
    have h2 := h.count j
    have h3 := hrefs j
    omega
  have hbuilding : ∀ q j k, (y.setPhase p .idle).phase q = .building j k →
      refs (y.st.setVnode i v) j = 1 ∧ (q, j) ∈ y.held.erase (p, i) ∧
        ((y.st.setVnode i v).vnodes j).ops = none ∧ ((y.st.setVnode i v).vnodes j).mp = none ∧
        y.given (y.life j) = none := by
    intro q j k hq
    obtain ⟨h1, h2, h3⟩ := hother q j k hq
    obtain ⟨e1, e2, e3, e4, e5⟩ := h.building q j k h1
    have e6 := hrefs j
    rw [if_neg (Ne.symm h3)] at e6
    refine ⟨by omega, (mem_erase_of_ne ?_).mpr e2, ?_, ?_, e5⟩
    · simp [h2]
    · rw [setVnode_ne y.st v h3, e3]
    · rw [setVnode_ne y.st v h3, e4]
  have hfilled : ∀ j, j ≠ i → 0 < refs y.st j →
      (∃ q k, (y.setPhase p .idle).phase q = .building j k) ∨
      ∃ fs x, ((y.st.setVnode i v).vnodes j).ops = some fs ∧
        ((y.st.setVnode i v).vnodes j).priv = some x ∧ y.given (y.life j) = some (fs, x) := by
    intro j hj hpos
    have hpj : ∀ k, y.phase p ≠ .building j k := fun k hq => by
      rcases hp with hp | ⟨k', hp⟩
      · rw [hp] at hq
        cases hq
      · rw [hp] at hq
        cases hq
        exact hj rfl
    rw [setVnode_ne y.st v hj]
    exact h.filled_setPhase hpj hpos
  -- What `vput` still has to do, if the slot is free now.
  have hnew : (refs y.st i = 1 → y.given (y.life i) = none) ∧ d = none ∨
      ∃ fs x, refs y.st i = 1 ∧ d = some (fs, some x) ∧ y.given (y.life i) = some (fs, x) := by
    by_cases hone : refs y.st i = 1
    · rw [hlast hone]
      rcases h.filled i hi with ⟨q, k, hq⟩ | ⟨fs, x, e1, e2, e3⟩
      · obtain ⟨-, -, e3, -, e5⟩ := h.building q i k hq
        exact .inl ⟨fun _ => e5, by rw [e3]; rfl⟩
      · exact .inr ⟨fs, x, hone, by rw [e1, e2]; rfl, e3⟩
    · exact .inl ⟨fun h1 => absurd h1 hone, (hmore hone).1⟩
  have hstay : ∀ j, 0 < refs y.st j → 0 < refs (y.st.setVnode i v) j ∨ j = i ∧ refs y.st i = 1 := by
    intro j hj
    have h1 := hrefs j
    by_cases he : j = i
    · subst he
      simp only [if_true] at h1
      omega
    · rw [if_neg (Ne.symm he)] at h1
      omega
  have hlife : refs y.st i = 1 → ∀ j, 0 < refs (y.st.setVnode i v) j → y.life j ≠ y.life i := by
    intro hone j hj he
    have h1 := h.inj j i (hlive j hj) hi he
    subst h1
    have h2 := hrefs j
    simp only [if_true] at h2
    omega
  refine ⟨hcount, fun j hj => h.bound j (hlive j hj), fun a b ha hb => h.inj a b (hlive a ha) (hlive b hb),
    hbuilding, fun j hj => ?_, h.known, fun e he => ?_, ?_, fun a ha => ?_⟩
  · by_cases hji : j = i
    · subst hji
      have hone : refs y.st j ≠ 1 := by
        intro h1
        exact hlife h1 j hj rfl
      obtain ⟨-, e1, e2, -⟩ := hmore hone
      rcases h.filled j hi with ⟨q, k, hq⟩ | ⟨fs, x, e3, e4, e5⟩
      · exact absurd (h.building q j k hq).1 hone
      · exact .inr ⟨fs, x, by simp [e1, e3], by simp [e2, e4], e5⟩
    · exact hfilled j hji (hlive j hj)
  · rw [Conc.dues, append_assoc] at he
    rcases mem_append.mp he with he | he
    · rcases hnew with ⟨-, rfl⟩ | ⟨fs, x, hone, rfl, hg⟩
      · simp at he
      · obtain rfl : e = ⟨y.life i, fs, some x⟩ := by simpa using he
        exact ⟨h.bound i hi, ⟨x, rfl, hg⟩, hlife hone⟩
    · obtain ⟨e1, e2, e3⟩ := h.due e he
      exact ⟨e1, e2, fun j hj => e3 j (hlive j hj)⟩
  · rw [Conc.dues, append_assoc]
    rcases hnew with ⟨-, rfl⟩ | ⟨fs, x, hone, rfl, hg⟩
    · exact h.once
    · refine nodup_cons.mpr ⟨fun hc => ?_, h.once⟩
      obtain ⟨e, he, hl⟩ := mem_map.mp hc
      exact (h.due e he).2.2 i hi hl.symm
  · rw [Conc.dues, append_assoc, map_append, mem_append]
    rcases h.all a ha with ⟨j, h1, h2⟩ | h1
    · rcases hstay j h1 with h3 | ⟨rfl, hone⟩
      · exact .inl ⟨j, h3, h2⟩
      · rcases hnew with ⟨hg, -⟩ | ⟨fs, x, -, rfl, -⟩
        · exact absurd (h2 ▸ hg hone) ha
        · exact .inr (.inl (by simp [h2]))
    · exact .inr (.inr h1)

end

end Xv6Vfs.Vfs
