import Xv6Vfs.Ext2.Regain

/-! No update of an inode is lost between a `vput` and the next `ext2_iget`, in runs that keep a
process from reading an inode another is about to write; and a run in which one is lost. -/
namespace Xv6Vfs.Ext2.Regain
open Xv6Vfs.Vfs Function List Option Nat

variable {y y' : Race} {q : Nat}

theorem start_good (disk : Nat → Image) : Good (start disk) := by
  constructor
  all_goals simp [start, Live, Phase.sought, Phase.slot]

theorem step_good (a : Step) (h : Good y) (hok : Settled y a) (ha : step a y = some y') : Good y' := by
  cases a with
  | get p n =>
    simp only [step] at ha
    split at ha
    case h_1 hp =>
      cases ha
      cases hf : y.find n with
      | some i => exact h.recount (find_some hf) (succ_pos _)
      | none => exact h.miss (hok hf) fun i hl => find_none hf (h.bound i hl.1) hl
    case h_2 => cases ha
  | load p =>
    simp only [step] at ha
    split at ha
    case h_1 n hp =>
      cases ha
      obtain ⟨ht, h1⟩ := h.load hp (hok n hp)
      exact { h1 with seen := fun e he => (mem_cons.mp he).elim (fun h2 => h2 ▸ ht) (h.seen e) }
    case h_2 => cases ha
  | giveUp p =>
    simp only [step] at ha
    split at ha
    case h_1 n hp =>
      cases ha
      exact h.giveUp
    case h_2 => cases ha
  | alloc p =>
    simp only [step] at ha
    split at ha
    case h_1 n m hp =>
      cases ha
      cases hf : (List.range nvnode).find? fun i => decide ((y.slots i).ref = 0) with
      | none => exact h.giveUp
      | some i =>
        exact h.alloc hp (by simpa using find?_some hf)
          (mem_range.mp (mem_of_find?_eq_some hf))
    case h_2 => cases ha
  | fill p page =>
    simp only [step] at ha
    split at ha
    case h_1 n m i hp =>
      cases ha
      exact h.fill hp page
    case h_2 => cases ha
  | update i u =>
    simp only [step] at ha
    split at ha
    case h_1 ref n m dirty hv =>
      cases ha
      have hl : Live y i n := by simp [Live, hv]
      have hm : m = y.truth n := by simpa only [hv] using h.cache i n hl
      cases hb : u.back with
      | true =>
        refine h.update hl (fun _ => slots_setSlot) (by simp [hv]) (fun k => ?_) (fun k hk => update_of_ne hk _ _)
          (fun _ => update_self _ _ _) (fun _ => rfl) rfl fun e he => ?_
        · simp [Race.write, Race.setSlot, update_apply, hm]
        · rcases mem_cons.mp he with rfl | he
          · simp [Race.setSlot, hm]
          · exact h.seen e he
      | false =>
        refine h.update hl (fun _ => slots_setSlot) (by simp [hv]) (fun k => ?_) (fun k _ => rfl)
          (fun hd => ?_) (fun _ => rfl) rfl h.seen
        · simp [Race.setSlot, update_apply, hm]
        · simp only [Bool.or_eq_false_iff] at hd
          show y.disk n = u.apply m
          rw [u.marks hd.2 hb, hm]
          exact h.clean hl (by rw [hv]; exact hd.1)
    case h_2 => cases ha
  | dup i =>
    simp only [step] at ha
    split at ha
    case h_1 ref n m dirty hv =>
      cases ha
      have h1 := h.recount (show Live y i n by simp [Live, hv]) (succ_pos (ref + 1))
      simpa only [hv] using h1
    case h_2 => cases ha
  | put i =>
    simp only [step] at ha
    split at ha
    case h_1 n m dirty hv =>
      cases ha
      exact h.putLast hv
    case h_2 ref n m dirty hv =>
      cases ha
      have h1 := h.recount (show Live y i n by simp [Live, hv]) (succ_pos ref)
      simpa only [hv] using h1
    case h_3 => cases ha
  | destroy k =>
    obtain ⟨d, hd, rfl⟩ := map_eq_some_iff.mp ha
    exact h.destroy hd

/-- Size, link count and block pointers of every image that was read from disk or written to it
are those that the operations so far have led to. -/
def NothingLost (y : Race) : Prop :=
  ∀ e ∈ y.seen, e.1.size = e.2.size ∧ e.1.links = e.2.links ∧ e.1.block = e.2.block

theorem loses_of_sizes {ops : List Step} {s : Race} {l : List (Nat × Nat)} {e : Nat × Nat}
    (h : (Run.run step ops s).map (fun y => y.seen.map fun e => (e.1.size, e.2.size)) = some l)
    (he : e ∈ l) (hne : e.1 ≠ e.2) : ∃ y, Run.run step ops s = some y ∧ ¬ NothingLost y := by
  obtain ⟨y, hy, rfl⟩ := map_eq_some_iff.mp h
  obtain ⟨d, hd, rfl⟩ := mem_map.mp he
  exact ⟨y, hy, fun hn => hne (hn d hd).1⟩

/-- A file of 100 bytes in block 20. -/
def smallFile : Image := ⟨100, 1, update (fun _ => 0) 0 20, 0, 0, 0⟩

/-- Process 0 opens and reads inode 12 and closes it. Before the inode is written out, process 1
opens it, appends 50 bytes and closes it. -/
def closeRace : List Step :=
  [.get 0 12, .load 0, .alloc 0, .fill 0 true, .update 0 (.read 1), .put 0,
    .get 1 12, .load 1, .alloc 1, .fill 1 true, .update 0 (.write 2 [] 150), .put 0,
    .destroy 1, .destroy 0, .get 2 12, .load 2]

/-- An inode as `ext2_create` leaves it before the entries "." and ".." are made. -/
def newInode : Image := ⟨0, 1, fun _ => 0, 0, 0, 0⟩

/-- Process 0 makes a directory; process 1 finds its name and opens it before the `vput` in
`ext2_create` has written the inode. -/
def mkdirRace : List Step :=
  [.get 0 12, .load 0, .alloc 0, .fill 0 true, .update 0 (.newDir 20), .put 0, .get 1 12, .load 1]

/-- The same calls, each process after the other. -/
def closeInTurn : List Step :=
  [.get 0 12, .load 0, .alloc 0, .fill 0 true, .update 0 (.read 1), .put 0, .destroy 0,
    .get 1 12, .load 1, .alloc 1, .fill 1 true, .update 0 (.write 2 [] 150), .put 0, .destroy 0,
    .get 2 12, .load 2]

def Step.process : Step → Option Nat
  | .get p _ | .load p | .giveUp p | .alloc p | .fill p _ => some p
  | _ => none

theorem step_phase (a : Step) (ha : step a y = some y') (hq : a.process ≠ some q) : y'.phase q = y.phase q := by
  cases a with
  | load p =>
    simp only [step] at ha
    split at ha
    · cases ha
      exact update_of_ne (by grind [Step.process]) _ _
    · cases ha
  | update i u =>
    simp only [step] at ha
    split at ha <;> cases ha
    split <;> rfl
  | put i =>
    simp only [step] at ha
    split at ha <;> cases ha <;> rfl
  | destroy k =>
    obtain ⟨d, -, rfl⟩ := map_eq_some_iff.mp ha
    split <;> rfl
  | _ => grind [step, Step.process]

/-- `Settled` for three processes, computed. -/
def settledB (y : Race) (a : Step) : Bool :=
  a.process.all (· < 3) &&
    match a with
    | .get _ n => (List.range 3).all fun q => (y.phase q).sought != some n
    | .load _ => y.leaving.all fun d => !d.dirty
    | _ => true

theorem settledB_settled (hidle : ∀ q, 3 ≤ q → y.phase q = .idle) (a : Step)
    (h : settledB y a = true) : Settled y a := by
  simp only [settledB, Bool.and_eq_true] at h
  cases a with
  | get p n =>
    intro _ q
    by_cases hq : 3 ≤ q
    · simp [hidle q hq, Phase.sought]
    · simpa using all_eq_true.mp h.2 q (mem_range.mpr (by omega))
  | load p =>
    intro n _ d hd _
    simpa using all_eq_true.mp h.2 d hd
  | _ => trivial

end Xv6Vfs.Ext2.Regain
