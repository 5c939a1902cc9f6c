import Mathlib.Logic.Basic

/-! Runs of a partial step function, and the rule that carries an invariant along a run
whose steps all meet a condition. Nothing here depends on the kernel. -/
namespace Xv6Vfs.Run
variable {σ α : Type*}

/-- Execute the operations in order; undefined from the first undefined step on. -/
def run (exec : α → σ → Option σ) : List α → σ → Option σ
  | [], s => some s
  | a :: ops, s => (exec a s).bind (run exec ops)

/-- Every step of the run is taken in a state that meets `ok`. -/
def Meets (exec : α → σ → Option σ) (ok : σ → α → Prop) : List α → σ → Prop
  | [], _ => True
  | a :: ops, s => ok s a ∧ ∀ s', exec a s = some s' → Meets exec ok ops s'

theorem run_cons {exec : α → σ → Option σ} {a : α} {ops : List α} {s t : σ} (h : run exec (a :: ops) s = some t) :
    ∃ s', exec a s = some s' ∧ run exec ops s' = some t := by
  simpa [run, Option.bind_eq_some_iff] using h

theorem run_append (exec : α → σ → Option σ) (u v : List α) (s : σ) :
    run exec (u ++ v) s = (run exec u s).bind (run exec v) := by
  induction u generalizing s with
  | nil => rfl
  | cons a ops ih =>
    simp only [List.cons_append, run]
    cases h : exec a s with
    | none => rfl
    | some s' => simpa using ih s'

theorem run_singleton (exec : α → σ → Option σ) (a : α) (s : σ) : run exec [a] s = exec a s := by
  simp [run]

theorem run_invariant {exec : α → σ → Option σ} {ok : σ → α → Prop} (Inv : σ → Prop)
    (hstep : ∀ s a s', Inv s → ok s a → exec a s = some s' → Inv s') {ops : List α} {s t : σ} (h0 : Inv s)
    (hok : Meets exec ok ops s) (hrun : run exec ops s = some t) : Inv t := by
  induction ops generalizing s with
  | nil =>
    obtain rfl : s = t := by simpa [run] using hrun
    exact h0
  | cons a ops ih =>
    obtain ⟨s', hs, ht⟩ := run_cons hrun
    exact ih (hstep s a s' h0 hok.1 hs) (hok.2 s' hs) ht

theorem run_total {exec : α → σ → Option σ} {ok : σ → α → Prop} (Inv : σ → Prop)
    (hstep : ∀ s a, Inv s → ok s a → ∃ s', exec a s = some s' ∧ Inv s') {ops : List α} {s : σ} (h0 : Inv s)
    (hok : Meets exec ok ops s) : ∃ t, run exec ops s = some t ∧ Inv t := by
  induction ops generalizing s with
  | nil => exact ⟨s, rfl, h0⟩
  | cons a ops ih =>
    obtain ⟨s', hs, hi⟩ := hstep s a h0 hok.1
    obtain ⟨t, ht, hinv⟩ := ih hi (hok.2 s' hs)
    exact ⟨t, by rw [run, hs]; exact ht, hinv⟩

theorem Meets.of_forall {exec : α → σ → Option σ} {ok : σ → α → Prop} {ops : List α}
    (h : ∀ a ∈ ops, ∀ s, ok s a) (s : σ) : Meets exec ok ops s := by
  induction ops generalizing s with
  | nil => trivial
  | cons a ops ih =>
    exact ⟨h a List.mem_cons_self s, fun s' _ => ih (fun b hb => h b (List.mem_cons_of_mem a hb)) s'⟩

theorem Meets.and {exec : α → σ → Option σ} {ok ok' : σ → α → Prop} {ops : List α} {s : σ} (h : Meets exec ok ops s)
    (h' : Meets exec ok' ops s) : Meets exec (fun s a => ok s a ∧ ok' s a) ops s := by
  induction ops generalizing s with
  | nil => trivial
  | cons a ops ih => exact ⟨⟨h.1, h'.1⟩, fun s' hs => ih (h.2 s' hs) (h'.2 s' hs)⟩

theorem Meets.append {exec : α → σ → Option σ} {ok : σ → α → Prop} {u v : List α} {s : σ} :
    Meets exec ok (u ++ v) s ↔
      Meets exec ok u s ∧ ∀ t, run exec u s = some t → Meets exec ok v t := by
  induction u generalizing s with
  | nil => simp [Meets, run]
  | cons a ops ih =>
    simp only [List.cons_append, Meets, run, Option.bind_eq_some_iff, ih]
    constructor
    · rintro ⟨h1, h2⟩
      exact ⟨⟨h1, fun t ht => (h2 t ht).1⟩, fun t ⟨s', hs, ht⟩ => (h2 s' hs).2 t ht⟩
    · rintro ⟨⟨h1, h2⟩, h3⟩
      exact ⟨h1, fun s' hs => ⟨h2 s' hs, fun t ht => h3 t ⟨s', hs, ht⟩⟩⟩

/-- The condition on the steps of a run, computed along it. -/
def check (exec : α → σ → Option σ) (ok : σ → α → Bool) : List α → σ → Bool
  | [], _ => true
  | a :: ops, s => ok s a && (exec a s).all (check exec ok ops)

theorem Meets.of_check_inv {exec : α → σ → Option σ} {ok : σ → α → Prop} {okb : σ → α → Bool}
    (Inv : σ → Prop) (hstep : ∀ s a s', Inv s → okb s a = true → exec a s = some s' → Inv s')
    (hok : ∀ s a, Inv s → okb s a = true → ok s a) {ops : List α} {s : σ} (h0 : Inv s)
    (h : check exec okb ops s = true) : Meets exec ok ops s := by
  induction ops generalizing s with
  | nil => trivial
  | cons a ops ih =>
    simp only [check, Bool.and_eq_true] at h
    refine ⟨hok s a h0 h.1, fun s' hs => ih (hstep s a s' h0 h.1 hs) ?_⟩
    simpa [hs] using h.2

theorem Meets.of_check {exec : α → σ → Option σ} {ok : σ → α → Prop} {okb : σ → α → Bool}
    (hok : ∀ s a, okb s a = true → ok s a) {ops : List α} {s : σ}
    (h : check exec okb ops s = true) : Meets exec ok ops s :=
  Meets.of_check_inv (fun _ => True) (fun _ _ _ _ _ _ => trivial) (fun s a _ => hok s a) trivial h

theorem run_preserves {exec : α → σ → Option σ} (Inv : σ → Prop)
    (hstep : ∀ s a s', Inv s → exec a s = some s' → Inv s')
    {ops : List α} {s t : σ} (h0 : Inv s) (hrun : run exec ops s = some t) : Inv t := by
  induction ops generalizing s with
  | nil =>
    obtain rfl : s = t := by simpa [run] using hrun
    exact h0
  | cons a ops ih =>
    obtain ⟨s', hs, ht⟩ := run_cons hrun
    exact ih (hstep s a s' h0 hs) ht

section Simulation

variable {τ : Type*}

/-- A run of an abstract machine, given by the relation of its steps. -/
inductive Steps (step : α → τ → τ → Prop) : List α → τ → τ → Prop
  | nil (m : τ) : Steps step [] m m
  | cons {a : α} {ops : List α} {m m' m'' : τ} (h : step a m m') (hs : Steps step ops m' m'') :
    Steps step (a :: ops) m m''

theorem run_simulates {exec : α → σ → Option σ} {ok : σ → α → Prop} {step : α → τ → τ → Prop} (R : σ → τ → Prop)
    (hstep : ∀ s a s' m, R s m → ok s a → exec a s = some s' → ∃ m', step a m m' ∧ R s' m')
    {ops : List α} {s t : σ} {m : τ} (h0 : R s m) (hok : Meets exec ok ops s) (hrun : run exec ops s = some t) :
    ∃ m', Steps step ops m m' ∧ R t m' := by
  induction ops generalizing s m with
  | nil =>
    obtain rfl : s = t := by simpa [run] using hrun
    exact ⟨m, .nil m, h0⟩
  | cons a ops ih =>
    obtain ⟨s', hs, ht⟩ := run_cons hrun
    obtain ⟨m1, h1, hR⟩ := hstep s a s' m h0 hok.1 hs
    obtain ⟨m2, h2, hR'⟩ := ih hR (hok.2 s' hs) ht
    exact ⟨m2, .cons h1 h2, hR'⟩

end Simulation

end Xv6Vfs.Run
