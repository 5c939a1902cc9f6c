import Xv6Vfs.Ext2.Readdir
import Xv6Vfs.Lib.Orbit

/-! Whether the loops over the entries of a directory end, whatever its blocks hold. -/
namespace Xv6Vfs.Ext2
open Xv6Vfs.Bytes Xv6Vfs.Vfs Xv6Vfs.Orbit Option Nat

variable {i o : Nat}

/-! ### Walks over the blocks -/

section Walk

variable {α : Type} (fs : Fs) (ino : Bytes) (visit : Bytes → Nat → Option α)

/-- The block of the entry at `off`. -/
def entryBlock (off : Nat) : Bytes := fs.disk (lbnBlock fs ino (off / bsize))

/-- The walk comes to the entry at `off`, which is in a block that is there. -/
def Enters (off : Nat) : Prop := off < iSize ino ∧ lbnBlock fs ino (off / bsize) ≠ 0

instance (off : Nat) : Decidable (Enters fs ino off) := inferInstanceAs (Decidable (_ ∧ _))

/-- The entry after the one at `off`; the size is looked at when a block is left. -/
def nextEntry (off : Nat) : Option Nat :=
  let data := entryBlock fs ino off
  let off' := off + deRecLen data (off % bsize)
  if (visit data (off % bsize)).isSome then none
  else if off % bsize + deRecLen data (off % bsize) < bsize ∨ Enters fs ino off' then some off' else none

/-- The entry at `off` is reached from the start of the directory. -/
def Reached (off : Nat) : Prop := Enters fs ino 0 ∧ Reach (nextEntry fs ino visit) 0 off

/-- Every entry that the walk reaches and that does not end it leads on. -/
def LeadsOn : Prop := ∀ off, Reached fs ino visit off → visit (entryBlock fs ino off) (off % bsize) = none →
  deRecLen (entryBlock fs ino off) (off % bsize) ≠ 0

end Walk

section Ends

variable {α : Type} {fs : Fs} {p : Priv} {visit : Bytes → Nat → Option α} {off : Nat}

/-- The rest of a walk that is at the entry at `off`. -/
def restWalk (fs : Fs) (p : Priv) (visit : Bytes → Nat → Option α) (f1 f2 off : Nat) : Option (Walk α) :=
  (scanBlock (entryBlock fs p.ino off) (visit (entryBlock fs p.ino off)) f1 (off % bsize) off).bind fun r =>
    match r with
    | .inl a => some (.hit (lbnBlock fs p.ino (off / bsize)) a)
    | .inr off' => dirWalk fs p visit f2 off'

theorem dirWalk_enters (h : Enters fs p.ino off) (fuel : Nat) :
    dirWalk fs p visit (fuel + 1) off = restWalk fs p visit (bsize + 1) fuel off := by
  rw [dirWalk, if_pos h.1, bmap_false]
  rw [if_neg h.2]
  rfl

theorem div_inside {r : Nat} (h : off % bsize + r < bsize) :
    (off + r) / bsize = off / bsize ∧ (off + r) % bsize = off % bsize + r := by
  rw [bsize] at *
  omega

/-- A walk that hangs behind an entry hangs. -/
theorem restWalk_none {off' : Nat} (h : nextEntry fs p.ino visit off = some off')
    (hrest : ∀ f1 f2, restWalk fs p visit f1 f2 off' = none) (f1 f2 : Nat) :
    restWalk fs p visit f1 f2 off = none := by
  unfold nextEntry at h
  dsimp only at h
  split at h
  · cases h
  case isFalse hv =>
    rw [not_isSome_iff_eq_none] at hv
    split at h
    case isFalse => cases h
    case isTrue hgo =>
      cases h
      cases f1 with
      | zero => rfl
      | succ f1 =>
        rw [restWalk, scanBlock, if_pos (mod_lt _ (by decide)), hv]
        by_cases hin : off % bsize + deRecLen (entryBlock fs p.ino off) (off % bsize) < bsize
        · -- still in the block
          have hblk := div_inside hin
          have hr := hrest f1 f2
          rwa [restWalk, entryBlock, hblk.1, hblk.2] at hr
        · have hent := hgo.resolve_left hin
          cases f1 with
          | zero => rfl
          | succ f1 =>
            rw [scanBlock, if_neg hin]
            cases f2 with
            | zero => rfl
            | succ f2 => exact (dirWalk_enters hent f2).trans (hrest _ _)

theorem restWalk_stuck (hv : visit (entryBlock fs p.ino off) (off % bsize) = none)
    (h0 : deRecLen (entryBlock fs p.ino off) (off % bsize) = 0) (f1 f2 : Nat) :
    restWalk fs p visit f1 f2 off = none := by
  have hscan : scanBlock (entryBlock fs p.ino off) (visit (entryBlock fs p.ino off)) f1 (off % bsize) off = none := by
    induction f1 with
    | zero => rfl
    | succ f1 ih => rw [scanBlock, if_pos (mod_lt _ (by decide)), hv, h0, Nat.add_zero, Nat.add_zero, ih]
  rw [restWalk, hscan]
  rfl

theorem dirWalk_stuck (h : Reached fs p.ino visit off) (hv : visit (entryBlock fs p.ino off) (off % bsize) = none)
    (h0 : deRecLen (entryBlock fs p.ino off) (off % bsize) = 0) (fuel : Nat) : dirWalk fs p visit fuel 0 = none := by
  have hrest : ∀ a, Reach (nextEntry fs p.ino visit) a off → ∀ f1 f2, restWalk fs p visit f1 f2 a = none := by
    intro a hr
    induction hr using Relation.ReflTransGen.head_induction_on with
    | refl => exact restWalk_stuck hv h0
    | head hstep _ ih => exact restWalk_none hstep ih
  cases fuel with
  | zero => rfl
  | succ fuel => rw [dirWalk_enters h.1, hrest 0 h.2]

theorem nextEntry_of_none (hv : visit (entryBlock fs p.ino off) (off % bsize) = none) : nextEntry fs p.ino visit off =
    if off % bsize + deRecLen (entryBlock fs p.ino off) (off % bsize) < bsize ∨
      Enters fs p.ino (off + deRecLen (entryBlock fs p.ino off) (off % bsize))
    then some (off + deRecLen (entryBlock fs p.ino off) (off % bsize)) else none := by
  unfold nextEntry
  dsimp only
  rw [hv]
  exact if_neg Bool.false_ne_true

theorem nextEntry_of_some {a : α} (hv : visit (entryBlock fs p.ino off) (off % bsize) = some a) :
    nextEntry fs p.ino visit off = none := by
  unfold nextEntry
  dsimp only
  rw [hv, if_pos isSome_some]

theorem Reached.first {a : α} (h : Reached fs p.ino visit off) (hv : visit (entryBlock fs p.ino 0) 0 = some a) :
    off = 0 := by
  cases h.2.cases_head with
  | inl he => exact he.symm
  | inr hs =>
    obtain ⟨c, hc, -⟩ := hs
    rw [nextEntry_of_some hv] at hc
    cases hc

/-- The entry at which a walk ends. -/
def WalkEnd (fs : Fs) (ino : Bytes) (visit : Bytes → Nat → Option α) : Walk α → Prop
  | .hit blk a => ∃ off, Reached fs ino visit off ∧ blk = lbnBlock fs ino (off / bsize) ∧
    visit (entryBlock fs ino off) (off % bsize) = some a
  | _ => Enters fs ino 0 → ∃ off, Reached fs ino visit off ∧ visit (entryBlock fs ino off) (off % bsize) = none ∧
    nextEntry fs ino visit off = none

/-- The rest of a walk in one block, and then in the next ones: the offset grows, and with it the number
of the block. -/
theorem restWalk_ends (hl : LeadsOn fs p.ino visit) (f1 : Nat) {f2 : Nat} (hr : Reached fs p.ino visit off)
    (hf : bsize < off % bsize + f1) (hnext : ∀ off', off / bsize < off' / bsize →
      (Enters fs p.ino off' → Reached fs p.ino visit off') →
      (¬ Enters fs p.ino off' → ∃ off, Reached fs p.ino visit off ∧
        visit (entryBlock fs p.ino off) (off % bsize) = none ∧ nextEntry fs p.ino visit off = none) →
      ∃ w, dirWalk fs p visit f2 off' = some w ∧ WalkEnd fs p.ino visit w) :
    ∃ w, restWalk fs p visit f1 f2 off = some w ∧ WalkEnd fs p.ino visit w := by
  have hb0 : off % bsize < bsize := mod_lt _ (by decide)
  induction f1 generalizing off with
  | zero => omega
  | succ f1 ih =>
    rw [restWalk, scanBlock, if_pos hb0]
    cases hv : visit (entryBlock fs p.ino off) (off % bsize) with
    | some a => exact ⟨_, rfl, off, hr, rfl, hv⟩
    | none =>
      have hstep := nextEntry_of_none hv
      have hpos := hl off hr hv
      generalize hrec : deRecLen (entryBlock fs p.ino off) (off % bsize) = r at *
      by_cases hin : off % bsize + r < bsize
      · have hblk := div_inside hin
        rw [if_pos (.inl hin)] at hstep
        have hgo := ih ⟨hr.1, hr.2.tail hstep⟩ (by omega) (by rw [hblk.1]; exact hnext) (by omega)
        rwa [restWalk, entryBlock, hblk.1, hblk.2] at hgo
      · obtain ⟨m, rfl⟩ : ∃ m, f1 = m + 1 := ⟨f1 - 1, by omega⟩
        rw [scanBlock, if_neg hin]
        refine hnext (off + r) (by rw [bsize] at *; omega) (fun he => ?_) fun he => ?_
        · rw [if_pos (.inr he)] at hstep
          exact ⟨hr.1, hr.2.tail hstep⟩
        · exact ⟨off, hr, hv, by rw [hstep, if_neg (not_or.mpr ⟨hin, he⟩)]⟩

theorem dirWalk_ends (hl : LeadsOn fs p.ino visit) (fuel : Nat) (hf : iSize p.ino / bsize < off / bsize + fuel)
    (hr : Enters fs p.ino off → Reached fs p.ino visit off)
    (hstop : ¬ Enters fs p.ino off → Enters fs p.ino 0 → ∃ off, Reached fs p.ino visit off ∧
      visit (entryBlock fs p.ino off) (off % bsize) = none ∧ nextEntry fs p.ino visit off = none) :
    ∃ w, dirWalk fs p visit (fuel + 1) off = some w ∧ WalkEnd fs p.ino visit w := by
  induction fuel generalizing off with
  | zero =>
    have hge : ¬ off < iSize p.ino := fun hlt => by
      have := Nat.div_le_div_right (Nat.le_of_lt hlt) (c := bsize)
      omega
    exact ⟨.done off, if_neg hge, hstop fun he => hge he.1⟩
  | succ fuel ih =>
    by_cases he : Enters fs p.ino off
    · rw [dirWalk_enters he]
      refine restWalk_ends hl (bsize + 1) (hr he) (by omega) fun off' hlt hr' hstop' => ?_
      exact ih (by omega) hr' fun hne _ => hstop' hne
    · by_cases hlt : off < iSize p.ino
      · have h0 : lbnBlock fs p.ino (off / bsize) = 0 := by_contra fun hne => he ⟨hlt, hne⟩
        refine ⟨.broken, ?_, hstop he⟩
        rw [dirWalk, if_pos hlt, bmap_false]
        exact if_pos h0
      · exact ⟨.done off, if_neg hlt, hstop he⟩

theorem walkDir_iff (fs : Fs) (d : Nat) (visit : Bytes → Nat → Option α) :
    (∃ w, walkDir fs d visit = some w) ↔ LeadsOn fs (fs.vnodes d).priv.ino visit := by
  constructor
  · rintro ⟨w, hw⟩ off hr hv h0
    rw [walkDir, dirWalk_stuck hr hv h0] at hw
    cases hw
  · intro hl
    obtain ⟨w, hw, -⟩ := @dirWalk_ends α fs (fs.vnodes d).priv visit 0 hl
      (iSize (fs.vnodes d).priv.ino / bsize + 1) (by rw [Nat.zero_div]; omega) (fun he => ⟨he, .refl⟩)
        (fun hne he => absurd he hne)
    exact ⟨w, hw⟩

/-- It ends at an entry that `visit` answers for, if it reaches one. -/
theorem walkDir_hit (fs : Fs) (d : Nat) (visit : Bytes → Nat → Option α) (hl : LeadsOn fs (fs.vnodes d).priv.ino visit)
    (blk : Nat) (a : α) : walkDir fs d visit = some (.hit blk a) ↔
      WalkEnd fs (fs.vnodes d).priv.ino visit (.hit blk a) := by
  obtain ⟨w, hw, hend⟩ := @dirWalk_ends α fs (fs.vnodes d).priv visit 0 hl
    (iSize (fs.vnodes d).priv.ino / bsize + 1) (by rw [Nat.zero_div]; omega) (fun he => ⟨he, .refl⟩)
      (fun hne he => absurd he hne)
  rw [walkDir, hw]
  constructor
  · intro he
    exact some.inj he ▸ hend
  · rintro ⟨off, hr, rfl, hv⟩
    have hlast := nextEntry_of_some (p := (fs.vnodes d).priv) hv
    have hnone : ¬ ∃ off, Reached fs (fs.vnodes d).priv.ino visit off ∧
        visit (entryBlock fs (fs.vnodes d).priv.ino off) (off % bsize) = none ∧
        nextEntry fs (fs.vnodes d).priv.ino visit off = none := by
      rintro ⟨off', hr', hv', hn'⟩
      rw [Reach.unique hr'.2 hn' hr.2 hlast, hv] at hv'
      cases hv'
    cases w with
    | hit blk' a' =>
      obtain ⟨off', hr', rfl, hv'⟩ := hend
      obtain rfl := Reach.unique hr'.2 (nextEntry_of_some hv') hr.2 hlast
      rw [hv] at hv'
      rw [some.inj hv']
    | broken => exact absurd (hend hr.1) hnone
    | done off => exact absurd (hend hr.1) hnone

end Ends

/-! ### The emptiness scan of `ext2_unlink` -/

section Empty

variable {fs : Fs} {held : Nat} {p : Priv}

/-- The entry after the one at `off` in the scan of a directory that is to be removed. The scan does not come past a
block for which it needs the buffer of block `held`. -/
def nextPlain (fs : Fs) (ino : Bytes) (held off : Nat) : Option Nat :=
  let data := entryBlock fs ino off
  let o := off % bsize
  let isDot := deNameLen data o = 1 ∧ data (o + 8) = 46
  let isDotdot := deNameLen data o = 2 ∧ data (o + 8) = 46 ∧ data (o + 9) = 46
  if off < iSize ino then
    if bmapNeeds ⟨ino, false, false⟩ held (off / bsize) fs then some off
    else if deInode data o ≠ 0 ∧ ¬ isDot ∧ ¬ isDotdot then none
    else some ((off + deRecLen data o) % 2 ^ 32)
  else none

theorem emptyLoop_none (fuel off : Nat) :
    emptyLoop fs p held fuel off = none ↔ Going (nextPlain fs p.ino held) fuel off := by
  have hneeds : ∀ lbn, bmapNeeds p held lbn fs = bmapNeeds ⟨p.ino, false, false⟩ held lbn fs := by
    intro lbn
    rw [bmapNeeds, bmapNeeds, bmap_false, bmap_false]
  induction fuel generalizing off with
  | zero => exact ⟨fun _ => trivial, fun _ => rfl⟩
  | succ fuel ih =>
    by_cases hlt : off < iSize p.ino
    · by_cases hn : bmapNeeds ⟨p.ino, false, false⟩ held (off / bsize) fs = true
      · have hself : nextPlain fs p.ino held off = some off := (if_pos hlt).trans (if_pos hn)
        rw [emptyLoop, if_pos hlt, hneeds, if_pos hn]
        exact ⟨fun _ => .of_cycle hself .refl _, fun _ => rfl⟩
      · rw [emptyLoop, if_pos hlt, hneeds, if_neg hn, Going, bmap_false, nextPlain, if_pos hlt, if_neg hn, ← entryBlock]
        dsimp only
        split
        · simp
        · exact (ih _).trans (by simp)
    · rw [emptyLoop, if_neg hlt, Going, nextPlain, if_neg hlt]
      simp

theorem emptyLoop_none_iff :
    emptyLoop fs p held (iSize p.ino + 1) 0 = none ↔ ¬ NoCycle (nextPlain fs p.ino held) 0 := by
  rw [emptyLoop_none]
  apply going_iff (Finset.range (iSize p.ino))
  · intro b _ hb
    exact Finset.mem_range.mpr (by_contra fun hge => hb (if_neg hge))
  · rw [Finset.card_range]
    omega

/-- A vnode from `iget` is an old one with one more reference, or new and clean. -/
theorem iget_fresh {i : Nat} (h : (iget n fs).1 = some i) : 1 < ((iget n fs).2.vnodes i).ref ∨
    ((iget n fs).2.vnodes i).ref = 1 ∧ ((iget n fs).2.vnodes i).priv = ⟨readInode fs n, false, false⟩ := by
  unfold iget vnodeAlloc at h ⊢
  cases hf : findVnode fs n with
  | some j =>
    simp only [hf] at h ⊢
    cases h
    exact .inl (by simp [Fs.setNode, (findVnode_ref hf).1])
  | none =>
    simp only [hf] at h ⊢
    generalize (List.range nvnode).find? _ = s at h ⊢
    cases s with
    | none => cases h
    | some j =>
      dsimp only at h ⊢
      split at h
      · cases h
      case isFalse hp =>
        cases h
        exact .inr (by simp [hp, Fs.setNode])

theorem vput_some {i : Nat} (h : 1 < (fs.vnodes i).ref ∨ (fs.vnodes i).ref = 1 ∧
      ((fs.vnodes i).priv.orphaned = false ∨ truncateWaits (fs.vnodes i).priv fs = false)) :
    ∃ fs1, vput i fs = some fs1 := by
  unfold vput
  rw [if_neg (by omega)]
  split
  case isTrue h1 =>
    have hret := (h.resolve_left (by omega)).2
    rw [if_neg]
    · exact ⟨_, rfl⟩
    · rintro ⟨ho, hw⟩
      rw [ho, hw] at hret
      exact hret.elim nofun nofun
  · exact ⟨_, rfl⟩

theorem dirEmpty_none (n held : Nat) (fs : Fs) :
    dirEmpty n held fs = none ↔ (iget n fs).1 ≠ none ∧ ¬ NoCycle (nextPlain fs (inodeNow fs n) held) 0 := by
  unfold dirEmpty
  dsimp only
  cases hi : (iget n fs).1 with
  | none => simp
  | some i =>
    obtain ⟨hino, hdisk⟩ := iget_inodeNow hi
    have hloop := @emptyLoop_congr fs (iget n fs).2 hdisk ⟨inodeNow fs n, false, false⟩ ((iget n fs).2.vnodes i).priv
      (hino ▸ SameMap.refl _) held (iSize (inodeNow fs n) + 1) 0
    obtain ⟨fs1, hv⟩ := vput_some ((iget_fresh hi).imp_right fun h => ⟨h.1, .inl (by rw [h.2])⟩)
    dsimp only
    rw [hino, hloop]
    have hiff := @emptyLoop_none_iff fs held ⟨inodeNow fs n, false, false⟩
    cases he : emptyLoop fs ⟨inodeNow fs n, false, false⟩ held (iSize (inodeNow fs n) + 1) 0 with
    | none => exact ⟨fun _ => ⟨nofun, hiff.mp he⟩, fun _ => rfl⟩
    | some e =>
      refine ⟨fun h => ?_, fun h => ?_⟩
      · rw [bind_some, hv] at h
        cases h
      · rw [hiff.mpr h.2] at he
        cases he

theorem dirEmpty_disk {r : Option Bool × Fs} (h : dirEmpty n held fs = some r) : r.2.disk = fs.disk := by
  unfold dirEmpty at h
  dsimp only at h
  split at h
  case h_1 hi =>
    cases h
    rw [iget_none hi]
  case h_2 i hi =>
    obtain ⟨e, -, h2⟩ := bind_eq_some_iff.mp h
    obtain ⟨fs2, h3, rfl⟩ := map_eq_some_iff.mp h2
    rw [← (iget_inodeNow hi).2]
    rcases vput_cases h3 with ⟨h1, rfl⟩ | ⟨-, rfl⟩
    · rw [((iget_fresh hi).resolve_left (by omega)).2]
      rfl
    · rfl

end Empty

/-! ### The operations -/

section Operations

variable {fs fs' : Fs} {n d : Nat} {p : Priv} {name : Name}

theorem walkDir_guarded {α : Type} (fs : Fs) (d : Nat) {visit : Bytes → Nat → Option α}
    (h : ∀ data o, deRecLen data o = 0 → visit data o ≠ none) : ∃ w, walkDir fs d visit = some w :=
  (walkDir_iff fs d visit).mpr fun _ _ hv h0 => h _ _ h0 hv

theorem dirLookup_ends (fs : Fs) (d : Nat) (name : Name) : dirLookup d name fs ≠ none := by
  obtain ⟨w, hw⟩ := @walkDir_guarded _ fs d (visitLookup name) fun data o h0 hv => by
    rw [visitLookup, if_pos h0] at hv
    split at hv <;> cases hv
  rw [dirLookup, hw]
  exact some_ne_none _

theorem dirAdd_ends (name : Name) (inum ftype : Nat)
    (hret : ∀ lbn, bmapWaits (fs.vnodes d).priv lbn fs = false) : dirAdd d name inum ftype fs ≠ none := by
  obtain ⟨w, hw⟩ := @walkDir_guarded _ fs d (visitAdd (cstr name) inum ftype) fun data o h0 hv => by
    unfold visitAdd at hv
    rw [if_pos h0] at hv
    cases hv
  rw [dirAdd, hw, bind_some]
  split
  · exact some_ne_none _
  · exact some_ne_none _
  · exact some_ne_none _
  · dsimp only
    rw [hret, if_neg Bool.false_ne_true]
    split <;> exact some_ne_none _

/-- The offset grows with each entry that is passed over. -/
theorem readdirLoop_ends (late : Option Bytes) (fuel off : Nat) (hf : iSize p.ino ≤ off + fuel) :
    readdirLoop fs p late (fuel + 1) off ≠ none := by
  induction fuel generalizing off with
  | zero =>
    rw [readdirLoop, if_neg (by omega)]
    exact some_ne_none _
  | succ fuel ih =>
    rw [readdirLoop]
    dsimp only
    split
    · split
      · exact some_ne_none _
      · split
        · exact some_ne_none _
        · split
          · exact some_ne_none _
          · exact ih _ (by omega)
    · exact some_ne_none _

/-- The inode is freed if it has no vnode. -/
theorem orphan_some {ino : Bytes} (h : spaceBlock fs (iBlock (readInode fs n) 12) = false) :
    ∃ fs', orphan n ino fs = some fs' := by
  unfold orphan
  dsimp only
  cases hi : (iget n fs).1 with
  | none => exact ⟨_, rfl⟩
  | some i =>
    refine vput_some ?_
    have hbg : (iget n fs).2.bg = fs.bg := (iget_static n fs).bg
    have hr := iget_fresh hi
    generalize (iget n fs).2 = fs1 at hr hbg
    simp only [writeInode, Fs.bwrite, Fs.setPriv, Fs.setNode, Function.update_self]
    refine hr.imp_right fun hr => ⟨hr.1, .inr ?_⟩
    unfold truncateWaits
    dsimp only
    rw [iBlock_freeArray, hr.2, decide_eq_false_iff_not]
    rintro ⟨-, hs, -⟩
    rw [spaceBlock, hbg, ← spaceBlock, h] at hs
    cases hs

theorem dropEntry_some {blk : Nat} (t d o : Nat) {ino : Bytes} (hb : inoBlock fs n ≠ blk)
    (h : spaceBlock fs (iBlock (readInode fs n) 12) = false) : ∃ fs', dropEntry t d blk o n ino fs = some fs' := by
  unfold dropEntry
  dsimp only
  split
  · have hread : readInode (fs.bwrite blk (put32 (fs.disk blk) o 0)) n = readInode fs n := by
      rw [readInode, readInode]
      exact congrArg (drop · _) (bwrite_disk fs _ hb)
    obtain ⟨fs', h⟩ := @orphan_some (fs.bwrite blk (put32 (fs.disk blk) o 0)) n (lessLinks ino) (by rw [hread]; exact h)
    exact ⟨_, by rw [h]; rfl⟩
  · exact ⟨_, rfl⟩

theorem Timed.nextPlain (h : Timed fs fs') (n held : Nat) :
    nextPlain fs' (Ext2.inodeNow fs' n) held = nextPlain fs (Ext2.inodeNow fs n) held := by
  have hm := h.inodeNow n
  funext off
  unfold Ext2.nextPlain entryBlock
  rw [bmapNeeds, bmapNeeds, bmap_false, bmap_false, h.lbnBlock hm, h.disk, hm.size, hm.ptr 12 (Nat.le_refl _)]

/-- The entries of directory `d` and of the directory to be removed, as the two scans of `ext2_unlink` see them. -/
structure UnlinkEnds (fs : Fs) (d : Nat) (name : Name) : Prop where
  /-- No entry before the one with the name has length 0. -/
  leadsOn : LeadsOn fs (fs.vnodes d).priv.ino (visitUnlink name)
  /-- The block of the entry is not that of its inode. If the name is that of a directory, then the entries that are
  followed up to the first one besides "." and ".." do not lead back, nor to this block. -/
  found : ∀ off, Reached fs (fs.vnodes d).priv.ino (visitUnlink name) off →
    let data := entryBlock fs (fs.vnodes d).priv.ino off
    let blk := lbnBlock fs (fs.vnodes d).priv.ino (off / bsize)
    let inum := deInode data (off % bsize)
    visitUnlink name data (off % bsize) ≠ none → inoBlock fs inum ≠ blk ∧
      (isDir (readInode fs inum) → (iget inum fs).1 ≠ none → NoCycle (nextPlain fs (inodeNow fs inum) blk) 0)

/-- The indirect blocks of the directory and of the inode with the name are not blocks that `ext2_balloc` and
`ext2_bfree` lock. -/
structure SpaceApart (fs : Fs) (d : Nat) (name : Name) : Prop where
  grow : ∀ lbn, bmapWaits (fs.vnodes d).priv lbn fs = false
  free : ∀ off, Reached fs (fs.vnodes d).priv.ino (visitUnlink name) off →
    let data := entryBlock fs (fs.vnodes d).priv.ino off
    visitUnlink name data (off % bsize) ≠ none →
      spaceBlock fs (iBlock (readInode fs (deInode data (off % bsize))) 12) = false

theorem visitUnlink_eq {data : Bytes} {a : Nat} (h : visitUnlink name data o = some a) : a = o := by
  rw [visitUnlink] at h
  split at h
  · exact (some.inj h).symm
  · cases h

/-- What is left to do once the entry is found. -/
theorem unlink_hit {t blk : Nat} (h : walkDir fs d (visitUnlink name) = some (.hit blk o))
    (hfree : spaceBlock fs (iBlock (readInode fs (deInode (fs.disk blk) o)) 12) = false) :
    unlink t d name fs ≠ none ↔ inoBlock fs (deInode (fs.disk blk) o) ≠ blk ∧
      (isDir (readInode fs (deInode (fs.disk blk) o)) →
        dirEmpty (deInode (fs.disk blk) o) blk (touch t false true d fs) ≠ none) := by
  have ht := touch_timed t false true d fs
  have hstatic := touch_static t false true d fs
  unfold unlink
  dsimp only
  rw [ht.walkDir, h]
  dsimp only [bind_some]
  rw [ht.disk, ht.readInode, hstatic.inoBlock]
  generalize deInode (fs.disk blk) o = inum at *
  by_cases hb : inoBlock fs inum = blk
  · rw [if_pos hb]
    exact ⟨fun h => absurd rfl h, fun h => absurd hb h.1⟩
  rw [if_neg hb]
  -- the state in which the entry is dropped has the same inodes on disk
  have hdrop : ∀ {fs1 : Fs}, Static (touch t false true d fs) fs1 → fs1.disk = (touch t false true d fs).disk →
      ∃ fs', dropEntry t d blk o inum (readInode fs inum) fs1 = some fs' := by
    intro fs1 hs hdisk
    have hs := hstatic.trans hs
    refine dropEntry_some t d o (by rwa [hs.inoBlock]) ?_
    rw [spaceBlock, hs.bg, ← spaceBlock, readInode, hs.inoBlock, hs.inoOffset, hdisk, ht.disk, ← readInode, hfree]
  split
  case isTrue hdir =>
    cases he : dirEmpty inum blk (touch t false true d fs) with
    | none => exact ⟨fun hn => absurd rfl hn, fun hn => absurd rfl (hn.2 hdir)⟩
    | some r =>
      refine ⟨fun _ => ⟨hb, fun _ => some_ne_none _⟩, fun _ => ?_⟩
      rw [bind_some]
      split
      · obtain ⟨fs1, hd⟩ := @hdrop (dropParentLink d r.2) ((dirEmpty_static he).trans (setPriv_static _ _ _))
          (dirEmpty_disk he)
        rw [hd]
        exact some_ne_none _
      · exact some_ne_none _
  case isFalse hdir =>
    obtain ⟨fs1, hd⟩ := hdrop (Static.refl _) rfl
    rw [hd]
    exact ⟨fun _ => ⟨hb, fun hdir' => absurd hdir' hdir⟩, fun _ => some_ne_none _⟩

theorem unlink_iff (t : Nat) (ha : SpaceApart fs d name) : unlink t d name fs ≠ none ↔ UnlinkEnds fs d name := by
  have ht := touch_timed t false true d fs
  have hscan := walkDir_iff fs d (visitUnlink name)
  constructor
  · intro h
    have hl : LeadsOn fs (fs.vnodes d).priv.ino (visitUnlink name) := by
      refine hscan.mp (ne_none_iff_exists'.mp fun hw => h ?_)
      rw [unlink, ht.walkDir, hw]
      rfl
    refine ⟨hl, fun off hr => ?_⟩
    intro data blk inum hv
    obtain ⟨a, hva⟩ := ne_none_iff_exists'.mp hv
    obtain rfl := visitUnlink_eq hva
    have hhit := (walkDir_hit fs d _ hl _ _).mpr ⟨off, hr, rfl, hva⟩
    obtain ⟨hb, hdir⟩ := (unlink_hit hhit (ha.free off hr hv)).mp h
    refine ⟨hb, fun hd hi => by_contra fun hc => hdir hd ((dirEmpty_none _ _ _).mpr ⟨?_, ?_⟩)⟩
    · rwa [ht.iget]
    · rwa [ht.nextPlain]
  · intro h
    obtain ⟨w, hw⟩ := hscan.mpr h.leadsOn
    cases w with
    | hit blk o =>
      obtain ⟨off, hr, rfl, hv⟩ := (walkDir_hit fs d _ h.leadsOn blk o).mp hw
      obtain rfl := visitUnlink_eq hv
      have hsome : visitUnlink name (entryBlock fs (fs.vnodes d).priv.ino off) (off % bsize) ≠ none := by
        rw [hv]
        exact some_ne_none _
      obtain ⟨hb, hc⟩ := h.found off hr hsome
      refine (unlink_hit hw (ha.free off hr hsome)).mpr ⟨hb, fun hdir he => ?_⟩
      obtain ⟨hi, hcycle⟩ := (dirEmpty_none _ _ _).mp he
      rw [ht.iget] at hi
      rw [ht.nextPlain] at hcycle
      exact hcycle (hc hdir hi)
    | broken =>
      rw [unlink, ht.walkDir, hw]
      exact some_ne_none _
    | done off =>
      rw [unlink, ht.walkDir, hw]
      exact some_ne_none _

/-- The operations on a directory end, whatever its blocks hold, but for `ext2_unlink`, which ends exactly if its scans
lead on and do not need the buffer that it holds. -/
theorem directory_ops_end_iff {fs : Fs} {d : Nat} {name : Name} (ha : SpaceApart fs d name) (t inum ftype off : Nat)
    (late : Option Bytes) : (dirLookup d name fs ≠ none ∧ dirAdd d name inum ftype fs ≠ none ∧
      readdir d late off fs ≠ none ∧ unlink t d name fs ≠ none) ↔ UnlinkEnds fs d name := by
  rw [unlink_iff t ha]
  exact ⟨fun h => h.2.2.2, fun h => ⟨dirLookup_ends fs d name, dirAdd_ends name inum ftype ha.grow,
    readdirLoop_ends late _ off (Nat.le_add_left _ _), h⟩⟩

theorem small_unlink_ends : UnlinkEnds (smallFs false) 0 devName ∧ unlink 0 0 devName (smallFs false) ≠ none := by
  have hfacts : visitUnlink devName (entryBlock (smallFs false) ((smallFs false).vnodes 0).priv.ino 0) 0 = some 0 ∧
      deInode (entryBlock (smallFs false) ((smallFs false).vnodes 0).priv.ino 0) 0 = 3 ∧
      isDir (readInode (smallFs false) 3) = false ∧
      inoBlock (smallFs false) 3 ≠ lbnBlock (smallFs false) ((smallFs false).vnodes 0).priv.ino 0 ∧
      spaceBlock (smallFs false) (iBlock (readInode (smallFs false) 3) 12) = false ∧ spaceBlock (smallFs false)
        (iBlock (indirectBlock ((smallFs false).vnodes 0).priv true
          (smallFs false)).1.ino 12) = false := by
    decide +kernel
  obtain ⟨hvisit, hinum, hfile, hblk, hfree, hgrow⟩ := hfacts
  have hends : UnlinkEnds (smallFs false) 0 devName := by
    constructor
    · intro off hr hv
      rw [hr.first hvisit, zero_mod, hvisit] at hv
      cases hv
    · intro off hr data blk inum _
      obtain rfl := hr.first hvisit
      have hi : inum = 3 := hinum
      rw [hi, hfile]
      exact ⟨hblk, nofun⟩
  have hapart : SpaceApart (smallFs false) 0 devName := by
    constructor
    · intro lbn
      refine decide_eq_false fun h => ?_
      exact Bool.false_ne_true (hgrow.symm.trans h.2.2.2.1)
    · intro off hr data _
      obtain rfl := hr.first hvisit
      rw [show deInode data (0 % bsize) = 3 from hinum, hfree]
  exact ⟨hends, ((directory_ops_end_iff hapart 0 3 ftReg 0 none).mpr hends).2.2.2⟩

/-- The same directory with its block zeroed. -/
def zeroedFs : Fs := (smallFs false).bwrite 256 fun _ => 0

/-- A directory that has an entry "x" for itself. -/
def selfFs : Fs := (smallFs false).bwrite 256 (freshDirBlock [120] 2 ftDir)

theorem zeroed_unlink_hangs : (unlink 0 0 devName zeroedFs = none ∧
    ∀ fuel, dirWalk zeroedFs (zeroedFs.vnodes 0).priv (visitUnlink devName) fuel 0 = none) ∧
    walkDir selfFs 0 (visitUnlink [120]) = some (.hit 256 0) ∧ deInode (selfFs.disk 256) 0 = (selfFs.vnodes 0).inum ∧
    unlink 0 0 [120] selfFs = none ∧ ∀ fuel, emptyLoop selfFs (selfFs.vnodes 0).priv 256 fuel 0 = none := by
  have hfacts : (Enters zeroedFs (zeroedFs.vnodes 0).priv.ino 0 ∧
      visitUnlink devName (entryBlock zeroedFs (zeroedFs.vnodes 0).priv.ino 0) 0 = none ∧
      deRecLen (entryBlock zeroedFs (zeroedFs.vnodes 0).priv.ino 0) 0 = 0) ∧
      walkDir selfFs 0 (visitUnlink [120]) = some (.hit 256 0) ∧ deInode (selfFs.disk 256) 0 = (selfFs.vnodes 0).inum ∧ (unlink 0 0 [120] selfFs).isNone ∧
      0 < iSize (selfFs.vnodes 0).priv.ino ∧ bmapNeeds (selfFs.vnodes 0).priv 256 0 selfFs = true := by
    decide +kernel
  obtain ⟨⟨henters, hvisit, hlen⟩, hwalk, hself, hnone, hsize, hneeds⟩ := hfacts
  have hstuck := @dirWalk_stuck _ zeroedFs (zeroedFs.vnodes 0).priv (visitUnlink devName) 0
    ⟨henters, .refl⟩ hvisit hlen
  refine ⟨⟨?_, hstuck⟩, hwalk, hself, isNone_iff_eq_none.mp hnone, fun fuel => ?_⟩
  · rw [unlink, (touch_timed 0 false true 0 zeroedFs).walkDir, walkDir, hstuck]
    rfl
  · cases fuel with
    | zero => rfl
    | succ fuel => rw [emptyLoop, if_pos hsize, Nat.zero_div, if_pos hneeds]

end Operations

end Xv6Vfs.Ext2
