import Xv6Vfs.Log.Commit
import Xv6Vfs.Lib.Run

/-! The device that a commit writes to. The header holds block numbers only, so a block comes back to
its own device just if that is the device of the log. -/
namespace Xv6Vfs.Log
open Xv6Vfs.Bytes Xv6Vfs.Redo Function List

variable {a : Addr} {s s' s0 : Sys} {ws : List (Addr × Bytes)}

/-- The buffers passed to `log_write`, with their content. -/
def writes : List Op → List (Addr × Bytes)
  | [] => []
  | .write a data :: ops => (a, data) :: writes ops
  | .recycle _ :: ops => writes ops

/-- The device of the first buffer with block number `b`. -/
def firstDev (ws : List (Addr × Bytes)) (b : Nat) : Option Nat :=
  (ws.find? fun w => w.1.2 = b).map fun w => w.1.1

/-- Between transactions: the cache agrees with the disks. -/
structure Idle (s : Sys) : Prop where
  cache : s.cache = s.disk
  pins : ∀ a, s.pins a = 0
  block : s.log.block = []

/-- The state `s` inside a transaction that began in `s0` and has logged `ws`. A buffer that `bpin` was
not applied to may have lost its content. -/
structure Logged (s0 : Sys) (ws : List (Addr × Bytes)) (s : Sys) : Prop where
  disk : s.disk = s0.disk
  dev : s.log.dev = s0.log.dev
  start : s.log.start = s0.log.start
  block : ∀ b, b ∈ s.log.block ↔ b ∈ ws.map fun w => w.1.2
  length : s.log.block.length ≤ logBlocks
  pins : ∀ a, s.pins a = if firstDev ws a.2 = some a.1 then 1 else 0
  cache : ∀ a, s.cache a = puts ws s0.disk a ∨ firstDev ws a.2 ≠ some a.1 ∧ s.cache a = s0.disk a

theorem Idle.logged (h : Idle s) : Logged s [] s := by
  refine ⟨rfl, rfl, rfl, fun b => ?_, ?_, fun a => ?_, fun a => .inl ?_⟩
  · rw [h.block, map_nil]
  · rw [h.block]
    exact Nat.zero_le _
  · rw [h.pins]
    rfl
  · rw [h.cache]
    rfl

theorem firstDev_eq_none {b : Nat} : firstDev ws b = none ↔ b ∉ ws.map fun w => w.1.2 := by
  simp only [firstDev, Option.map_eq_none_iff, find?_eq_none, decide_eq_true_eq, mem_map, not_exists, not_and]

theorem firstDev_snoc (ws : List (Addr × Bytes)) (w : Addr × Bytes) (b : Nat) :
    firstDev (ws ++ [w]) b = if b ∈ ws.map fun w => w.1.2 then firstDev ws b
      else if w.1.2 = b then some w.1.1 else none := by
  by_cases hb : b ∈ ws.map fun w => w.1.2
  · rw [if_pos hb]
    have hne : firstDev ws b ≠ none := fun h => firstDev_eq_none.mp h hb
    cases hf : ws.find? fun w => decide (w.1.2 = b) with
    | none => exact absurd (by rw [firstDev, hf]; rfl) hne
    | some x => rw [firstDev, firstDev, find?_append, hf]; rfl
  · rw [if_neg hb]
    have hf : (ws.find? fun w => decide (w.1.2 = b)) = none := Option.map_eq_none_iff.mp (firstDev_eq_none.mpr hb)
    rw [firstDev, find?_append, hf, Option.none_or]
    by_cases hw : w.1.2 = b
    · simp [hw]
    · simp [hw]

theorem puts_of_firstDev {s : Store} (h : a.2 ∉ ws.map fun w => w.1.2) : puts ws s a = s a := by
  refine puts_of_not_mem fun hm => h ?_
  rcases mem_map.mp hm with ⟨w, hw, rfl⟩
  exact mem_map.mpr ⟨w, hw, rfl⟩

theorem puts_snoc (ws : List (Addr × Bytes)) (s : Store) (a x : Addr) (data : Bytes) :
    puts (ws ++ [(a, data)]) s x = if x = a then data else puts ws s x := by
  rw [puts_append, puts_cons, puts_nil, put, update_apply]

theorem Logged.absorb (data : Bytes) (h : Logged s0 ws s) (ha : a.2 ∈ s.log.block) :
    Logged s0 (ws ++ [(a, data)]) { s with cache := put s.cache (a, data) } := by
  have hin : a.2 ∈ ws.map fun w => w.1.2 := (h.block a.2).mp ha
  have hfirst : ∀ b, firstDev (ws ++ [(a, data)]) b = firstDev ws b := fun b => by
    rw [firstDev_snoc]
    by_cases hb : b ∈ ws.map fun w => w.1.2
    · rw [if_pos hb]
    · have hne : a.2 ≠ b := fun he => hb (he ▸ hin)
      rw [if_neg hb, if_neg hne, firstDev_eq_none.mpr hb]
  refine ⟨h.disk, h.dev, h.start, fun b => ?_, h.length, fun x => ?_, fun x => ?_⟩
  · rw [h.block, map_append, mem_append]
    refine ⟨.inl, fun hb => hb.elim id fun hb => ?_⟩
    rw [map_singleton, mem_singleton] at hb
    exact hb ▸ hin
  · rw [hfirst]
    exact h.pins x
  · rw [hfirst, puts_snoc]
    show update s.cache a data x = _ ∨ _ ∧ update s.cache a data x = _
    rw [update_apply]
    by_cases hx : x = a
    · rw [if_pos hx, if_pos hx]
      exact .inl rfl
    · rw [if_neg hx, if_neg hx]
      exact h.cache x

theorem Logged.add (data : Bytes) (h : Logged s0 ws s) (ha : a.2 ∉ s.log.block)
    (hlen : s.log.block.length < logBlocks) :
    Logged s0 (ws ++ [(a, data)])
      { s with
        cache := put s.cache (a, data), pins := put s.pins (a, s.pins a + 1)
        log := { s.log with block := s.log.block ++ [a.2] } } := by
  have hnot : a.2 ∉ ws.map fun w => w.1.2 := fun hm => ha ((h.block a.2).mpr hm)
  have hnone : firstDev ws a.2 = none := firstDev_eq_none.mpr hnot
  have hsame : firstDev (ws ++ [(a, data)]) a.2 = some a.1 := by
    rw [firstDev_snoc, if_neg hnot, if_pos rfl]
  have hother : ∀ b, b ≠ a.2 → firstDev (ws ++ [(a, data)]) b = firstDev ws b := fun b hb => by
    rw [firstDev_snoc]
    by_cases hm : b ∈ ws.map fun w => w.1.2
    · rw [if_pos hm]
    · rw [if_neg hm, if_neg fun he => hb he.symm, firstDev_eq_none.mpr hm]
  refine ⟨h.disk, h.dev, h.start, fun b => ?_, ?_, fun x => ?_, fun x => ?_⟩
  · rw [mem_append, map_append, mem_append, h.block]
    rfl
  · rwa [length_append, length_singleton]
  · show update s.pins a (s.pins a + 1) x = _
    by_cases hx : x = a
    · rw [hx, update_self, hsame, if_pos rfl, h.pins, hnone, if_neg nofun]
    · rw [update_of_ne hx, h.pins]
      by_cases h2 : x.2 = a.2
      · have h1 : a.1 ≠ x.1 := fun h1 => hx (Prod.ext h1.symm h2)
        rw [h2, hsame, hnone, if_neg nofun, if_neg fun h => h1 (Option.some.inj h)]
      · rw [hother x.2 h2]
  · rw [puts_snoc]
    show update s.cache a data x = _ ∨ _ ∧ update s.cache a data x = _
    rw [update_apply]
    by_cases hx : x = a
    · rw [if_pos hx, if_pos hx]
      exact .inl rfl
    · rw [if_neg hx, if_neg hx]
      refine (h.cache x).imp_right fun hc => ⟨?_, hc.2⟩
      by_cases h2 : x.2 = a.2
      · have h1 : a.1 ≠ x.1 := fun h1 => hx (Prod.ext h1.symm h2)
        rw [h2, hsame]
        exact fun h => h1 (Option.some.inj h)
      · rw [hother x.2 h2]
        exact hc.1

theorem Logged.write {data : Bytes} (h : Logged s0 ws s) (hs : exec (.write a data) s = some s') :
    Logged s0 (ws ++ [(a, data)]) s' := by
  rcases Option.map_eq_some_iff.mp hs with ⟨l, hl, rfl⟩
  unfold logWrite at hl
  split at hl
  · cases hl
  · split at hl
    · cases hl
    · rw [Option.some.injEq] at hl
      subst hl
      by_cases hb : a.2 ∈ s.log.block
      · rw [if_pos hb, if_pos hb]
        exact h.absorb data hb
      · rw [if_neg hb, if_neg hb]
        exact h.add data hb (by omega)

theorem Logged.recycle (h : Logged s0 ws s) (hs : exec (.recycle a) s = some s') : Logged s0 ws s' := by
  rw [exec] at hs
  split at hs
  · rename_i hp
    rw [Option.some.injEq] at hs
    subst hs
    refine ⟨h.disk, h.dev, h.start, h.block, h.length, h.pins, fun x => ?_⟩
    show update s.cache a (s.disk a) x = _ ∨ _ ∧ update s.cache a (s.disk a) x = _
    by_cases hx : x = a
    · rw [hx, update_self, h.disk]
      refine .inr ⟨fun hf => ?_, rfl⟩
      rw [h.pins, if_pos hf] at hp
      cases hp
    · rw [update_of_ne hx]
      exact h.cache x
  · cases hs

theorem Logged.run {ops : List Op} (h : Logged s0 ws s) (hs : Run.run exec ops s = some s') :
    Logged s0 (ws ++ writes ops) s' := by
  induction ops generalizing s ws with
  | nil =>
    rwa [writes, append_nil, ← Option.some.inj hs]
  | cons op ops ih =>
    rcases Run.run_cons hs with ⟨s1, h1, h2⟩
    cases op with
    | write a data =>
      have := ih (h.write h1) h2
      rwa [append_assoc] at this
    | recycle a => exact ih (h.recycle h1) h2

/-- The log writes of a transaction, without recycling. -/
def plain (ws : List (Addr × Bytes)) : List Op := ws.map fun w => .write w.1 w.2

theorem writes_plain (ws : List (Addr × Bytes)) : writes (plain ws) = ws := by
  induction ws with
  | nil => rfl
  | cons w ws ih => exact congrArg (w :: ·) ih

theorem writes_append (u v : List Op) : writes (u ++ v) = writes u ++ writes v := by
  induction u with
  | nil => rfl
  | cons op u ih =>
    cases op with
    | write a data => exact congrArg ((a, data) :: ·) ih
    | recycle a => exact ih

section Devices

variable {s0 s : Sys} {ws : List (Addr × Bytes)}
  (hhome : ∀ w ∈ ws, HomeBlock s0.log.start w.1.2 ∧ w.1.2 < 4294967296)
include hhome

theorem Logged.commit_disk (h : Logged s0 ws s) (ha : (area s0.log.dev s0.log.start).Home a) :
    (commit s).disk a = if a.1 = s0.log.dev ∧ a.2 ∈ s.log.block then s.cache a else s0.disk a := by
  have hb : ∀ b ∈ s.log.block, HomeBlock s.log.start b ∧ b < 4294967296 := fun b hb => by
    rcases mem_map.mp ((h.block b).mp hb) with ⟨w, hw, rfl⟩
    rw [h.start]
    exact hhome w hw
  rw [← h.dev, ← h.start] at ha
  rw [Log.commit_disk (fun b hm => (hb b hm).1) h.length (fun b hm => (hb b hm).2) ha, h.dev, h.disk]

/-- Commit brings each logged block back to its own device and leaves all others as they are, whatever
buffers are recycled before, exactly if all changed blocks are of the log's device and none of
their numbers was logged for another device first. -/
theorem commit_own_device_iff (h0 : Idle s0) (hfit : (Run.run exec (plain ws) s0).isSome) :
    (∀ ops s1, writes ops = ws → Run.run exec ops s0 = some s1 →
      ∀ a, (area s0.log.dev s0.log.start).Home a → (commit s1).disk a = puts ws s0.disk a) ↔
    ∀ a, puts ws s0.disk a ≠ s0.disk a → a.1 = s0.log.dev ∧ firstDev ws a.2 = some s0.log.dev := by
  constructor
  · intro h a hne
    rcases Option.isSome_iff_exists.mp hfit with ⟨s1, hs1⟩
    have hl := h0.logged.run hs1
    rw [writes_plain, nil_append] at hl
    have hin : a.2 ∈ ws.map fun w => w.1.2 := by
      by_contra hno
      exact hne (puts_of_firstDev hno)
    have hhb : HomeBlock s0.log.start a.2 := by
      rcases mem_map.mp hin with ⟨w, hw, he⟩
      exact he ▸ (hhome w hw).1
    have ha : (area s0.log.dev s0.log.start).Home a := home_iff.mpr (.inr hhb)
    have hdev : a.1 = s0.log.dev := by
      by_contra hd
      have := h (plain ws) s1 (writes_plain ws) hs1 a ha
      rw [hl.commit_disk hhome ha, if_neg fun hc => hd hc.1] at this
      exact hne this.symm
    refine ⟨hdev, ?_⟩
    by_contra hf
    -- the buffer is not pinned: it may be recycled before the commit
    have hp : s1.pins a = 0 := by rw [hl.pins, hdev, if_neg hf]
    have hrun : Run.run exec (plain ws ++ [.recycle a]) s0 =
        some { s1 with cache := put s1.cache (a, s1.disk a) } := by
      rw [Run.run_append, hs1, Option.bind_some, Run.run_singleton, exec, if_pos hp]
    have hws : writes (plain ws ++ [.recycle a]) = ws := by
      rw [writes_append, writes_plain]
      exact append_nil ws
    have hl' := h0.logged.run hrun
    rw [hws, nil_append] at hl'
    have := h _ _ hws hrun a ha
    rw [hl'.commit_disk hhome ha, if_pos ⟨hdev, (hl'.block _).mpr hin⟩] at this
    refine hne (this.symm.trans ?_)
    show update s1.cache a (s1.disk a) a = _
    rw [update_self, hl.disk]
  · intro h ops s1 hws hrun a ha
    have hl := h0.logged.run hrun
    rw [hws, nil_append] at hl
    rw [hl.commit_disk hhome ha]
    by_cases hne : puts ws s0.disk a = s0.disk a
    · have hc : s1.cache a = s0.disk a := (hl.cache a).elim (fun hc => hc.trans hne) And.right
      rw [hc, ite_self, hne]
    · rcases h a hne with ⟨hdev, hfirst⟩
      have hin : a.2 ∈ s1.log.block := by
        by_contra hno
        exact hne (puts_of_firstDev fun hm => hno ((hl.block _).mpr hm))
      rw [if_pos ⟨hdev, hin⟩]
      exact (hl.cache a).resolve_right fun hc => hc.1 (hdev ▸ hfirst)

end Devices

/-- One operation on the log of device 1, on empty disks. -/
def bootSys : Sys :=
  { disk := fun _ _ => 0, cache := fun _ _ => 0, pins := fun _ => 0
    log := { dev := 1, start := 2, block := [], outstanding := 1, committing := false } }

theorem bootSys_idle : Idle bootSys := ⟨rfl, fun _ => rfl, rfl⟩

/-- Two blocks of device 1, one of them written twice. -/
def ownWrites : List Op := [.write (1, 46) fun _ => 7, .write (1, 47) fun _ => 8, .write (1, 46) fun _ => 9]

theorem own_device_installed : ∃ s1, Run.run exec ownWrites bootSys = some s1 ∧
    (∀ a, (area 1 2).Home a → (commit s1).disk a = puts (writes ownWrites) bootSys.disk a) ∧
    (commit s1).disk (1, 46) 0 = 9 ∧ (commit s1).disk (1, 47) 0 = 8 ∧ s1.log.block = [46, 47] := by
  refine ⟨_, rfl, fun a ha => (commit_own_device_iff (by decide) bootSys_idle rfl).mpr (fun a ha => ?_) ownWrites _ rfl
    rfl a ha, by decide +kernel, by decide +kernel, rfl⟩
  have hin : a = (1, 46) ∨ a = (1, 47) := by
    by_contra hne
    rw [not_or] at hne
    exact ha (by simp [ownWrites, writes, puts_cons, puts_nil, put, update_of_ne hne.1, update_of_ne hne.2])
  rcases hin with rfl | rfl
  · exact ⟨rfl, rfl⟩
  · exact ⟨rfl, rfl⟩

/-- A block of device 2 is not: the commit leaves device 2 as it was. -/
theorem other_device_lost : ∃ s1, Run.run exec [.write (2, 46) fun _ => 7] bootSys = some s1 ∧
    (commit s1).disk (2, 46) 0 = 0 ∧ s1.cache (2, 46) 0 = 7 :=
  ⟨_, rfl, by decide +kernel, by decide +kernel⟩

end Xv6Vfs.Log
