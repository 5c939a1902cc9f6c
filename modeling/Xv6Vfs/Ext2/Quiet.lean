import Xv6Vfs.Ext2.Accounts

/-! Runs in which no step allocates or frees anything leave the free counts right; the first
allocation makes the group descriptor wrong. -/
namespace Xv6Vfs.Ext2
open Xv6Vfs.Bytes Xv6Vfs.Vfs Function Option

variable {y : Sys} {r : Bool × Fs} {ino ino' : Bytes} {i inum k n : Nat}

section Timed

variable {fs fs' : Fs}

/-- Only times, links and flags of vnodes differ. -/
structure Timed (fs fs' : Fs) : Prop where
  static : Static fs fs'
  disk : fs'.disk = fs.disk
  taken : fs'.taken = fs.taken
  pages : fs'.pages = fs.pages
  ref : ∀ i, (fs'.vnodes i).ref = (fs.vnodes i).ref
  inum : ∀ i, (fs'.vnodes i).inum = (fs.vnodes i).inum
  map : ∀ i, SameMap (fs'.vnodes i).priv.ino (fs.vnodes i).priv.ino

theorem Timed.trans {fs'' : Fs} (h : Timed fs fs') (h' : Timed fs' fs'') : Timed fs fs'' where
  static := h.static.trans h'.static
  disk := h'.disk.trans h.disk
  taken := h'.taken.trans h.taken
  pages := h'.pages.trans h.pages
  ref := fun i => (h'.ref i).trans (h.ref i)
  inum := fun i => (h'.inum i).trans (h.inum i)
  map := fun i => (h'.map i).trans (h.map i)

theorem setPriv_timed {i : Nat} {p : Priv} (h : SameMap p.ino (fs.vnodes i).priv.ino) : Timed fs (fs.setPriv i p) := by
  have hv : ∀ j, ((fs.setPriv i p).vnodes j).ref = (fs.vnodes j).ref ∧
      ((fs.setPriv i p).vnodes j).inum = (fs.vnodes j).inum ∧
      SameMap ((fs.setPriv i p).vnodes j).priv.ino (fs.vnodes j).priv.ino := by
    intro j
    by_cases hj : j = i
    · subst hj
      simp [Fs.setPriv, Fs.setNode, h]
    · simp [Fs.setPriv, Fs.setNode, hj, SameMap.refl]
  exact ⟨setPriv_static fs i p, rfl, rfl, rfl, fun j => (hv j).1, fun j => (hv j).2.1, fun j => (hv j).2.2⟩

theorem touch_timed (t : Nat) (access mod : Bool) (i : Nat) (fs : Fs) :
    Timed fs (touch t access mod i fs) := setPriv_timed (updateTime_same t _ _ _).toSameMap

section

variable (h : Timed fs fs')
include h

theorem Timed.still : Still fs fs' := still_of_disk h.static h.disk

theorem Timed.lbnBlock (hm : SameMap ino' ino) (k : Nat) :
    lbnBlock fs' ino' k = lbnBlock fs ino k := (map_congr hm fun _ => by rw [h.disk]).2 k

theorem Timed.walkDir {α : Type} (d : Nat) (visit : Bytes → Nat → Option α) :
    walkDir fs' d visit = walkDir fs d visit := by
  have hw : ∀ fuel off, dirWalk fs' (fs'.vnodes d).priv visit fuel off =
      dirWalk fs (fs.vnodes d).priv visit fuel off := by
    intro fuel
    induction fuel with
    | zero => exact fun _ => rfl
    | succ fuel ih =>
      intro off
      simp only [dirWalk, bmap_false, (h.map d).size, h.lbnBlock (h.map d), h.disk, ih]
  unfold Ext2.walkDir
  dsimp only
  rw [(h.map d).size, hw]

theorem Timed.findVnode (n : Nat) : findVnode fs' n = findVnode fs n := by
  unfold Ext2.findVnode
  simp only [h.ref, h.inum]

theorem Timed.readInode (n : Nat) : readInode fs' n = readInode fs n := by
  unfold Ext2.readInode inoBlock inoOffset
  rw [h.disk, h.static.bg, h.static.inodeSize]

theorem Timed.iget (n : Nat) : (iget n fs').1 = (iget n fs).1 := by
  rw [iget_fst, iget_fst, h.findVnode]
  simp only [h.ref, h.taken, h.pages]

theorem Timed.nameThere {d : Nat} {name : Name} (hn : NameThere fs d name) : NameThere fs' d name := by
  obtain ⟨blk, inum, hw, hi⟩ := hn
  exact ⟨blk, inum, by rw [h.walkDir, hw], by rwa [h.iget]⟩

theorem Timed.inodeNow (n : Nat) : SameMap (inodeNow fs' n) (inodeNow fs n) := by
  unfold Ext2.inodeNow
  rw [h.findVnode, h.readInode]
  split
  · exact h.map _
  · exact SameMap.refl _

end

theorem emptyLoop_congr (hd : fs'.disk = fs.disk) {p p' : Priv} (hm : SameMap p'.ino p.ino)
    (held fuel off : Nat) : emptyLoop fs' p' held fuel off = emptyLoop fs p held fuel off := by
  have hl := (@map_congr fs fs' _ _ hm fun _ => by rw [hd]).2
  have h12 := hm.ptr 12 (Nat.le_refl _)
  induction fuel generalizing off with
  | zero => rfl
  | succ fuel ih => simp only [emptyLoop, bmapNeeds, bmap_false, hm.size, hl, h12, hd, ih]

end Timed

section Operations

variable {fs fs1 : Fs} {t d : Nat} {name : Name}

theorem nameTaken_still (h : nameTaken d name fs = some r) : Still fs r.2 := by
  obtain ⟨⟨o, fs1⟩, h1, h2⟩ := bind_eq_some_iff.mp h
  obtain ⟨w, -, hw⟩ := map_eq_some_iff.mp h1
  split at hw
  case h_1 blk inum =>
    cases o with
    | none =>
      cases h2
      exact congrArg Prod.snd hw ▸ iget_still inum fs
    | some i =>
      obtain ⟨fs2, h3, rfl⟩ := map_eq_some_iff.mp h2
      obtain ⟨hs, hdrop⟩ := iget_drops (congrArg Prod.fst hw)
      rw [congrArg Prod.snd hw] at hs hdrop
      exact hs.trans (vput_still hdrop h3)
  · cases hw
    exact some.inj h2 ▸ Still.refl fs

theorem nameTaken_there (hn : NameThere fs d name) (h : nameTaken d name fs = some r) : r.1 = true := by
  obtain ⟨blk, inum, hw, hi⟩ := hn
  obtain ⟨⟨o, fs1⟩, h1, h2⟩ := bind_eq_some_iff.mp h
  have he : iget inum fs = (o, fs1) := by simpa [dirLookup, hw] using h1
  rw [he] at hi
  cases o with
  | none => exact absurd rfl hi
  | some i =>
    obtain ⟨fs2, -, rfl⟩ := map_eq_some_iff.mp h2
    rfl

theorem nameTaken_false (h : nameTaken d name fs = some r) (hr : r.1 = false) : r.2 = fs := by
  obtain ⟨⟨o, fs1⟩, h1, h2⟩ := bind_eq_some_iff.mp h
  cases o with
  | some i =>
    obtain ⟨fs2, -, rfl⟩ := map_eq_some_iff.mp h2
    simp at hr
  | none =>
    cases h2
    obtain ⟨w, -, hw⟩ := map_eq_some_iff.mp h1
    split at hw
    · have := iget_none (congrArg Prod.fst hw)
      rwa [congrArg Prod.snd hw] at this
    · exact (congrArg Prod.snd hw).symm

theorem ialloc_full (h : InodesFull fs) (mode : Nat) : ialloc mode t fs = (0, fs) := by
  have hn := (@bitmapAlloc_none (bgInodeBitmap fs.bg) (sInodesCount fs.sb) 1 fs).mpr h
  unfold ialloc
  rw [hn]

section

variable (hq : NameThere fs d name ∨ InodesFull fs)
include hq

theorem create_still {dir : Bool} {r : Option Nat × Fs}
    (h : create t d name dir fs = some r) : Still fs r.2 ∧ r.1 = none := by
  have ht := touch_timed t false true d fs
  obtain ⟨r0, h0, h⟩ := bind_eq_some_iff.mp h
  have hs := ht.still.trans (nameTaken_still h0)
  rcases hq with hq | hq
  · rw [if_pos (nameTaken_there (ht.nameThere hq) h0)] at h
    exact some.inj h ▸ ⟨hs, rfl⟩
  · split at h
    · exact some.inj h ▸ ⟨hs, rfl⟩
    · simp only [ialloc_full (hs.inodesFull hq), if_true] at h
      exact some.inj h ▸ ⟨hs, rfl⟩

theorem mkdir_still (h : mkdir t d name fs = some r) : Still fs r.2 := by
  obtain ⟨⟨o, fs1⟩, h1, h2⟩ := bind_eq_some_iff.mp h
  obtain ⟨hs, rfl⟩ := create_still hq h1
  exact some.inj h2 ▸ hs

theorem mknod_still {major minor : Nat} (h : mknod t d name major minor fs = some r) : Still fs r.2 := by
  have ht := touch_timed t false true d fs
  obtain ⟨r0, h0, h⟩ := bind_eq_some_iff.mp h
  have hs := ht.still.trans (nameTaken_still h0)
  rcases hq with hq | hq
  · rw [if_pos (nameTaken_there (ht.nameThere hq) h0)] at h
    exact some.inj h ▸ hs
  · split at h
    · exact some.inj h ▸ hs
    · simp only [ialloc_full (hs.inodesFull hq), if_true] at h
      exact some.inj h ▸ hs

end

theorem bmap_placed {p : Priv} (h : Placed fs p.ino k) :
    bmap p k true fs = (lbnBlock fs p.ino k, p, fs) := by
  unfold Placed at h
  by_cases h0 : lbnBlock fs p.ino k = 0
  · rw [if_pos h0] at h
    have hb : balloc fs = (0, fs) :=
      Prod.ext ((balloc_eq_zero_iff fs).mpr h) (balloc_zero ((balloc_eq_zero_iff fs).mpr h))
    have hi : indirectBlock p true fs = (p, fs) := by
      unfold indirectBlock
      simp [hb]
    rw [h0]
    rw [lbnBlock_eq] at h0
    unfold bmap
    by_cases h1 : k < ndirect
    · rw [if_pos h1] at h0
      simp [h1, h0, hb]
    · rw [if_neg h1] at h0
      by_cases h2 : k - ndirect < nindirect
      · rw [if_pos h2, indirect] at h0
        by_cases h3 : iBlock p.ino 12 = 0
        · simp [h1, h2, hi, h3]
        · rw [if_neg h3] at h0
          simp [h1, h2, hi, h3, h0, hb]
      · simp [h1, h2]
  · exact bmap_mapped h0

theorem Still.placed (h : Still fs fs1) (hl : lbnBlock fs1 ino' k = lbnBlock fs ino k)
    (h12 : iBlock ino' 12 = iBlock ino 12) (hp : Placed fs ino k) : Placed fs1 ino' k := by
  unfold Placed at *
  rw [hl, h.record, h12]
  split at hp
  case isTrue h0 => exact if_pos h0 ▸ h.bitmapFull hp
  case isFalse h0 => exact if_neg h0 ▸ hp

theorem writeLoop_still (i : Nat) (user : List UInt8) (n fuel total off : Nat)
    (h : ∀ k, off / bsize ≤ k → k * bsize < off + (n - total) → Placed fs (fs.vnodes i).priv.ino k) :
    Still fs (writeLoop i user n fuel total off fs).2.2 ∧
      ((writeLoop i user n fuel total off fs).2.2.vnodes i).inum = (fs.vnodes i).inum := by
  induction fuel generalizing total off fs with
  | zero => exact ⟨Still.refl fs, rfl⟩
  | succ fuel ih =>
    unfold writeLoop
    split
    case isFalse => exact ⟨Still.refl fs, rfl⟩
    case isTrue hlt =>
      have hdiv := Nat.div_mul_le_self off bsize
      have hp := h (off / bsize) (Nat.le_refl _) (by omega)
      have hset : fs.setPriv i (fs.vnodes i).priv = fs := by
        simp [Fs.setPriv, Fs.setNode]
      simp only [bmap_placed hp, hset]
      unfold Placed at hp
      by_cases h0 : lbnBlock fs (fs.vnodes i).priv.ino (off / bsize) = 0
      · rw [if_pos h0]
        exact ⟨Still.refl fs, rfl⟩
      rw [if_neg h0] at hp ⊢
      have hw := fun data => bwrite_still hp.1 data
      split
      · exact ⟨hw _, rfl⟩
      · rename_i hlen
        generalize blit (fs.disk (lbnBlock fs (fs.vnodes i).priv.ino (off / bsize))) (off % bsize) _ _ = data
        have h12 : ∀ k, lbnBlock (fs.bwrite (lbnBlock fs (fs.vnodes i).priv.ino (off / bsize)) data)
            (fs.vnodes i).priv.ino k = lbnBlock fs (fs.vnodes i).priv.ino k :=
          (map_congr (SameMap.refl _) fun _ => update_of_ne (Ne.symm hp.2) _ _).2
        have hnext := @ih (fs.bwrite (lbnBlock fs (fs.vnodes i).priv.ino (off / bsize)) data)
          (total + min (bsize - off % bsize) (n - total)) (off + min (bsize - off % bsize) (n - total))
          fun k hk1 hk2 => (hw data).placed (h12 k) rfl (h k
            ((Nat.div_le_div_right (Nat.le_add_right _ _)).trans hk1) (by omega))
        exact ⟨(hw data).trans hnext.1, hnext.2⟩

/-- The end of an operation on slot `i`. -/
theorem Still.touched (h : Still fs fs1) (hi : (fs1.vnodes i).inum = (fs.vnodes i).inum) (hs : Stored fs i) :
    Still fs (writeback i (touch t false true i fs1)) := by
  have ht := touch_timed t false true i fs1
  have h1 := h.trans ht.still
  exact h1.trans (writeback_still (h1.stored ((ht.inum i).trans hi) hs))

theorem write_still {off : Nat} (user : List UInt8) (hs : Stored fs i)
    (h : ∀ k, off / bsize ≤ k → k * bsize < off + n → Placed fs (fs.vnodes i).priv.ino k) :
    Still fs (write t i user n off fs).2 := by
  obtain ⟨h1, h2⟩ := writeLoop_still i user n n 0 off h
  unfold write
  dsimp only
  split
  · apply Still.touched _ _ hs
    · refine h1.trans ?_
      split
      · exact setNode_still _ _ _
      · rfl
    · rw [← h2]
      split
      · simp [Fs.setNode]
      · rfl
  · exact h1

theorem truncate_still (hs : Stored fs i) (h0 : iBlock (fs.vnodes i).priv.ino 0 = 0)
    (h12 : iBlock (fs.vnodes i).priv.ino 12 = 0) : Still fs (truncate t i fs) := by
  unfold truncate
  dsimp only
  rw [iTruncate_husk h0 h12]
  apply (setNode_still fs i _).touched _ hs
  simp [Fs.setNode]

theorem dirAdd_still (hr : HasRoom fs d name inum) (h : dirAdd d name inum ftReg fs = some r) :
    Still fs r.2 ∧ ∀ j, (r.2.vnodes j).inum = (fs.vnodes j).inum := by
  obtain ⟨w, hw, h⟩ := bind_eq_some_iff.mp h
  have hroom := hr w hw
  split at h
  · exact some.inj h ▸ ⟨Still.refl fs, fun _ => rfl⟩
  · exact some.inj h ▸ ⟨Still.refl fs, fun _ => rfl⟩
  · exact some.inj h ▸ ⟨bwrite_still hroom _, fun _ => rfl⟩
  case h_4 off =>
    have hset : fs.setPriv d (fs.vnodes d).priv = fs := by
      simp [Fs.setPriv, Fs.setNode]
    dsimp only at hroom
    simp only [bmap_placed hroom, hset] at h
    unfold Placed at hroom
    split at h
    · cases h
    by_cases h0 : lbnBlock fs (fs.vnodes d).priv.ino (off / bsize) = 0
    · rw [if_pos h0] at h
      exact some.inj h ▸ ⟨Still.refl fs, fun _ => rfl⟩
    · rw [if_neg h0] at hroom h
      cases h
      refine ⟨(setPriv_still fs d _).trans (@bwrite_still (fs.setPriv d _) _ hroom.1 _), fun j => ?_⟩
      by_cases hj : j = d
      · simp [Fs.bwrite, Fs.setPriv, Fs.setNode, hj]
      · simp [Fs.bwrite, Fs.setPriv, Fs.setNode, hj]

theorem Timed.hasRoom {fs' : Fs} (h : Timed fs fs') (hr : HasRoom fs d name inum) : HasRoom fs' d name inum := by
  intro w hw
  rw [h.walkDir] at hw
  have hroom := hr w hw
  split at hroom
  · rwa [h.still.record]
  · exact h.still.placed (h.lbnBlock (h.map d) _) ((h.map d).ptr 12 (Nat.le_refl _)) hroom
  · trivial

theorem link_still {old : Nat}
    (hq : isDir (fs.vnodes old).priv.ino ∨ NameThere fs d name ∨ HasRoom fs d name (fs.vnodes old).inum ∧
      Stored fs d ∧ Stored fs old) (h : link t d name old fs = some r) : Still fs r.2 := by
  unfold link at h
  split at h
  · exact some.inj h ▸ Still.refl fs
  case isFalse hdir =>
    obtain ⟨r0, h0, h⟩ := bind_eq_some_iff.mp h
    have hs0 := nameTaken_still h0
    split at h
    · exact some.inj h ▸ hs0
    case isFalse hfree =>
      rcases hq with hq | hq | ⟨hroom, hsd, hso⟩
      · exact absurd hq hdir
      · exact absurd (nameTaken_there hq h0) hfree
      rw [nameTaken_false h0 (by simpa using hfree)] at h
      obtain ⟨b, h2, rfl⟩ := map_eq_some_iff.mp h
      have ho := @setPriv_timed fs old ⟨put32 (setLinks (fs.vnodes old).priv.ino
        (iLinks (fs.vnodes old).priv.ino + 1)) 12 t, true, (fs.vnodes old).priv.orphaned⟩
        ((put32_same _ 12 t (by omega)).toSameMap.trans (setLinks_sameMap _ _))
      have ht := ho.trans (touch_timed t false true d _)
      rw [ho.inum] at h2
      obtain ⟨hs, hi⟩ := dirAdd_still (ht.hasRoom hroom) h2
      have h3 := ht.still.trans hs
      have hi' : ∀ j, (b.2.vnodes j).inum = (fs.vnodes j).inum := fun j => (hi j).trans (ht.inum j)
      split
      · have h4 := h3.trans (writeback_still (h3.stored (hi' old) hso))
        exact h4.trans (writeback_still (h4.stored ((writeback_inum old b.2 d).trans (hi' d)) hsd))
      · exact h3.trans (setPriv_still _ _ _)

theorem dirEmpty_live {held : Nat} {r : Option Bool × Fs} (hf : findVnode fs n = some i)
    (h : dirEmpty n held fs = some r) : r.2 = fs := by
  have hpos := (findVnode_ref hf).1
  simp only [dirEmpty, iget, hf] at h
  obtain ⟨e, -, h2⟩ := bind_eq_some_iff.mp h
  obtain ⟨fs2, h3, rfl⟩ := map_eq_some_iff.mp h2
  unfold vput at h3
  simp only [Fs.setNode, update_self, update_idem] at h3
  rw [if_neg (by omega), if_neg (by omega)] at h3
  cases h3
  simp

theorem dirEmpty_still {held : Nat} {r : Option Bool × Fs} (h : dirEmpty n held fs = some r) :
    Still fs r.2 ∧ ∀ j, (r.2.vnodes j).inum = (fs.vnodes j).inum ∨ (r.2.vnodes j).inum = n := by
  unfold dirEmpty at h
  dsimp only at h
  split at h
  · exact some.inj h ▸ ⟨iget_still n fs, iget_inum n fs⟩
  case h_2 i hi =>
    obtain ⟨e, -, h2⟩ := bind_eq_some_iff.mp h
    obtain ⟨fs2, h3, rfl⟩ := map_eq_some_iff.mp h2
    obtain ⟨hs, hd⟩ := iget_drops hi
    refine ⟨hs.trans (vput_still hd h3), fun j => ?_⟩
    rw [vput_inum hd h3]
    exact iget_inum n fs j

theorem dirEmpty_true {held : Nat} {r : Option Bool × Fs} (h : dirEmpty n held fs = some r) (hr : r.1 = some true) :
    (iget n fs).1 ≠ none ∧
      emptyLoop fs ⟨inodeNow fs n, false, false⟩ held (iSize (inodeNow fs n) + 1) 0 = some true := by
  unfold dirEmpty at h
  dsimp only at h
  split at h
  · cases h
    simp at hr
  case h_2 i hi =>
    obtain ⟨hino, hdisk⟩ := iget_inodeNow hi
    obtain ⟨e, he, h2⟩ := bind_eq_some_iff.mp h
    obtain ⟨fs2, -, rfl⟩ := map_eq_some_iff.mp h2
    cases hr
    refine ⟨by simp [hi], ?_⟩
    rw [hino] at he
    rw [← he]
    symm
    exact emptyLoop_congr hdisk (hino ▸ SameMap.refl _) _ _ _

/-- The last name goes while the vnode is live, or there is no vnode for the inode. -/
theorem orphan_still {n : Nat} {ino : Bytes} (hn : ¬ Record fs (inoBlock fs n))
    (hq : (findVnode fs n).isSome ∨ (iget n fs).1 = none) (h : orphan n ino fs = some fs1) :
    Still fs fs1 ∧ ∀ j, (fs1.vnodes j).inum = (fs.vnodes j).inum := by
  unfold orphan at h
  rcases hq with hq | hq
  · obtain ⟨i, hf⟩ := isSome_iff_exists.mp hq
    have hpos := (findVnode_ref hf).1
    simp only [iget, hf] at h
    constructor
    · refine Still.trans ?_ (vput_still (.inl ?_) h)
      · refine ((setNode_still fs i _).trans (setPriv_still _ i _)).trans (writeInode_still ?_ ino)
        exact hn
      · simp [writeInode, Fs.bwrite, Fs.setPriv, Fs.setNode, hpos]
    · simp only [vput, writeInode, Fs.bwrite, Fs.setPriv, Fs.setNode, update_self, update_idem] at h
      rw [if_neg (by omega), if_neg (by omega)] at h
      cases h
      intro j
      by_cases hj : j = i
      · simp [hj]
      · simp [hj]
  · simp only [hq, iget_none hq] at h
    exact some.inj h ▸ ⟨Still.refl fs, fun _ => rfl⟩

theorem iget_bwrite (n b : Nat) (data : Bytes) : (iget n (fs.bwrite b data)).1 = (iget n fs).1 := by
  rw [iget_fst, iget_fst]
  rfl

theorem dropEntry_still {blk o : Nat} (hb : ¬ Record fs blk) (hn : ¬ Record fs (inoBlock fs n)) (hs : Stored fs d)
    (hq : iLinks (lessLinks ino) ≠ 0 ∨ (findVnode fs n).isSome ∨ (iget n fs).1 = none)
    (h : dropEntry t d blk o n ino fs = some fs1) : Still fs fs1 := by
  obtain ⟨fs2, h1, rfl⟩ := map_eq_some_iff.mp h
  have hw := bwrite_still hb (put32 (fs.disk blk) o 0)
  split at h1
  case isTrue h0 =>
    have hq' := hq.resolve_left (not_not.mpr h0)
    rw [← iget_bwrite n blk (put32 (fs.disk blk) o 0)] at hq'
    obtain ⟨h2, hi⟩ := @orphan_still (fs.bwrite _ _) _ n _ hn hq' h1
    have h3 := hw.trans h2
    exact h3.trans (writeback_still (h3.stored (hi d) hs))
  · cases h1
    have h2 := hw.trans (@writeInode_still (fs.bwrite _ _) n hn (put32 (lessLinks ino) 12 t))
    exact h2.trans (writeback_still (h2.stored rfl hs))

/-- What unlinking needs of the name it finds. -/
theorem unlink_still (hq : ∀ blk o, walkDir fs d (visitUnlink name) = some (.hit blk o) → ¬ Record fs blk ∧
      ¬ Record fs (inoBlock fs (deInode (fs.disk blk) o)) ∧ Stored fs d ∧ Stays fs blk (deInode (fs.disk blk) o))
    (h : unlink t d name fs = some r) : Still fs r.2 := by
  have ht := touch_timed t false true d fs
  obtain ⟨w, hw, h2⟩ := bind_eq_some_iff.mp h
  split at h2
  case h_2 => exact some.inj h2 ▸ ht.still
  case h_1 blk o =>
    rw [ht.walkDir] at hw
    obtain ⟨hb, hn, hs, hstay⟩ := hq blk o hw
    dsimp only at h2
    rw [ht.disk, ht.readInode] at h2
    generalize deInode (fs.disk blk) o = n at *
    split at h2
    · cases h2
    have hpart : ∀ fs2, Still (touch t false true d fs) fs2 →
        (fs2.vnodes d).inum = ((touch t false true d fs).vnodes d).inum ∨ (fs2.vnodes d).inum = n →
        ¬ Record fs2 blk ∧ ¬ Record fs2 (inoBlock fs2 n) ∧ Stored fs2 d := by
      intro fs2 hst hi
      have h3 := ht.still.trans hst
      have hn' : ¬ Record fs2 (inoBlock fs2 n) := by
        unfold inoBlock
        rwa [h3.record, h3.bg, h3.inodeSize]
      refine ⟨by rwa [h3.record], hn', ?_⟩
      rcases hi with hi | hi
      · exact h3.stored (hi.trans (ht.inum d)) hs
      · unfold Stored
        rwa [hi]
    split at h2
    case isTrue hdir =>
      obtain ⟨r1, h3, h4⟩ := bind_eq_some_iff.mp h2
      obtain ⟨hs1, hi1⟩ := dirEmpty_still h3
      split at h4
      case h_2 => exact some.inj h4 ▸ ht.still.trans hs1
      case h_1 hr1 =>
        obtain ⟨hget, hempty⟩ := dirEmpty_true h3 hr1
        have hdrop := (@setPriv_timed r1.2 d ⟨_, true, (r1.2.vnodes d).priv.orphaned⟩
          (decLinks_sameMap (r1.2.vnodes d).priv.ino))
        obtain ⟨fs3, h5, rfl⟩ := map_eq_some_iff.mp h4
        obtain ⟨p1, p2, p3⟩ := hpart _ (hs1.trans hdrop.still) (by rw [hdrop.inum]; exact hi1 d)
        refine (ht.still.trans (hs1.trans hdrop.still)).trans (dropEntry_still p1 p2 p3 ?_ h5)
        rw [ht.iget] at hget
        rcases hstay with h | h | h | h
        · exact .inl h
        · obtain ⟨i, hf⟩ := isSome_iff_exists.mp h
          rw [← ht.findVnode] at hf
          rw [hdrop.findVnode, dirEmpty_live hf h3, hf]
          exact .inr (.inl rfl)
        · exact absurd h hget
        · have hsame := ht.inodeNow n
          rw [hsame.size, emptyLoop_congr ht.disk (p := ⟨Ext2.inodeNow fs n, false, false⟩) hsame] at hempty
          exact absurd hempty h.2
    case isFalse hdir =>
      obtain ⟨fs3, h3, rfl⟩ := map_eq_some_iff.mp h2
      obtain ⟨p1, p2, p3⟩ := hpart _ (Still.refl _) (.inl rfl)
      refine ht.still.trans (dropEntry_still p1 p2 p3 ?_ h3)
      rw [ht.findVnode, ht.iget]
      rcases hstay with h | h | h | h
      · exact .inl h
      · exact .inr (.inl h)
      · exact .inr (.inr h)
      · exact absurd h.1 hdir

end Operations

theorem exec_still {op : Op} {y' : Sys} (hq : Quiet y op) (h : exec op y = some y') : Still y.fs y'.fs := by
  cases op with
  | root => exact some.inj h ▸ setNode_still _ _ _
  | dup i => exact some.inj (of_guard h) ▸ setNode_still _ _ _
  | close i =>
    obtain ⟨fs, h1, rfl⟩ := map_eq_some_iff.mp (of_guard h)
    exact vput_still hq h1
  | lookup t d name =>
    obtain ⟨r, h1, rfl⟩ := map_eq_some_iff.mp (of_guard h)
    obtain ⟨w, -, rfl⟩ := map_eq_some_iff.mp h1
    apply (touch_timed t true false d _).still.trans
    split
    · exact iget_still _ _
    · rfl
  | create t d name =>
    obtain ⟨r, h1, rfl⟩ := map_eq_some_iff.mp (of_guard h)
    exact (create_still hq h1).1
  | mkdir t d name =>
    obtain ⟨r, h1, rfl⟩ := map_eq_some_iff.mp (of_guard h)
    exact mkdir_still hq h1
  | mknod t d name major minor =>
    obtain ⟨r, h1, rfl⟩ := map_eq_some_iff.mp (of_guard h)
    exact mknod_still hq h1
  | link t d name old =>
    obtain ⟨r, h1, rfl⟩ := map_eq_some_iff.mp (of_guard h)
    exact link_still hq h1
  | unlink t d name =>
    obtain ⟨r, h1, rfl⟩ := map_eq_some_iff.mp (of_guard h)
    exact unlink_still hq h1
  | read t i off =>
    cases of_guard h
    simp only [read]
    split
    · rfl
    · exact (touch_timed t true false i _).still
  | write t i user n off => exact some.inj (of_guard h) ▸ write_still user hq.1 hq.2
  | truncate t i => exact some.inj (of_guard h) ▸ truncate_still hq.1 hq.2.1 hq.2.2
  | others taken pages => exact some.inj h ▸ still_of_disk (static_of_eq rfl rfl rfl) rfl

theorem mount_disk {image : Nat → Bytes} {taken : Nat → Bool} {pages : Nat} (h : mount image taken pages = some y) :
    y.fs.disk = image ∧ y.fs.bg = image 2 := by
  unfold mount at h
  dsimp only at h
  split at h
  · simp at h
  · obtain ⟨i, hi, rfl⟩ := map_eq_some_iff.mp h
    exact ⟨(iget_inodeNow hi).2, (iget_static rootIno _).bg⟩

/-- From an image where they agree, the counts of superblock and group descriptor agree with the
bitmaps as long as no step allocates or frees a block or an inode. -/
theorem free_counts_agree (image : Nat → Bytes) (taken : Nat → Bool) (pages : Nat) (ops : List Op)
    (y0 y : Sys) (hmount : mount image taken pages = some y0) (h0 : Agree image)
    (hquiet : Run.Meets exec Quiet ops y0) (hrun : Run.run exec ops y0 = some y) : Agree y.fs.disk := by
  obtain ⟨hdisk, hbg⟩ := mount_disk hmount
  have hstart : y0.fs.bg = y0.fs.disk 2 ∧ Agree y0.fs.disk := by
    rw [hdisk]
    exact ⟨hbg, h0⟩
  exact (Run.run_invariant (fun z => z.fs.bg = z.fs.disk 2 ∧ Agree z.fs.disk)
    (fun _ _ _ ha hq he => (exec_still hq he).agree ha.1 ha.2) hstart hquiet hrun).2

/-- The small image with all blocks in use, four free inodes, and a name for the file. -/
def countedImage : Nat → Bytes
  | 1 => put32 (smallImage [0xFF, 0x01] 1) 16 4
  | 2 => put16 (smallImage [0xFF, 0x01] 2) 14 4
  | 7 => putEntry (put16 (put16 (freshDirBlock dot 2 2) 4 12) 16 1012) 12 3 ftReg [102]
  | b => smallImage [0xFF, 0x01] b

theorem countedImage_agree : Agree countedImage := by
  constructor <;> decide +kernel

/-- Steps that are seen to be quiet by looking at the blocks of a file. -/
def quietB (y : Sys) : Op → Bool
  | .root | .lookup _ _ _ => true
  | .write _ i _ n off => decide (¬ Record y.fs (inoBlock y.fs (y.fs.vnodes i).inum) ∧
      ∀ k < (off + n) / bsize + 1,
        lbnBlock y.fs (y.fs.vnodes i).priv.ino k ≠ 0 ∧
          ¬ Record y.fs (lbnBlock y.fs (y.fs.vnodes i).priv.ino k) ∧
          lbnBlock y.fs (y.fs.vnodes i).priv.ino k ≠ iBlock (y.fs.vnodes i).priv.ino 12)
  | _ => false

theorem quietB_quiet (y : Sys) (op : Op) (h : quietB y op = true) : Quiet y op := by
  cases op with
  | root => trivial
  | lookup t d name => trivial
  | write t i user n off =>
    obtain ⟨h1, h2⟩ := of_decide_eq_true h
    refine ⟨h1, fun k _ hk => ?_⟩
    have hlt : k < (off + n) / bsize + 1 :=
      Nat.lt_succ_of_le ((Nat.le_div_iff_mul_le (by decide)).mpr (Nat.le_of_lt hk))
    unfold Placed
    rw [if_neg (h2 k hlt).1]
    exact (h2 k hlt).2
  | _ => simp [quietB] at h

/-- Writing over the block of a file leaves the counts right. -/
theorem overwrite_keeps_counts : ∃ y0 y, mount countedImage (fun _ => false) 10 = some y0 ∧
    Run.run exec [.root, .lookup 5 0 [102], .write 6 1 [1, 2, 3] 3 0] y0 = some y ∧
    (y.fs.disk 8 1).toNat = 2 ∧ Agree y.fs.disk := by
  have h : (mount countedImage (fun _ => false) 10).bind (fun y0 =>
      (Run.run exec [.root, .lookup 5 0 [102], .write 6 1 [1, 2, 3] 3 0] y0).map fun y =>
        (Run.check exec quietB [.root, .lookup 5 0 [102], .write 6 1 [1, 2, 3] 3 0] y0,
          (y.fs.disk 8 1).toNat)) = some (true, 2) := by
    decide +kernel
  obtain ⟨y0, hmount, h1⟩ := bind_eq_some_iff.mp h
  obtain ⟨y, hrun, h2⟩ := map_eq_some_iff.mp h1
  obtain ⟨hcheck, hdata⟩ := Prod.mk.inj h2
  exact ⟨y0, y, hmount, hrun, hdata, free_counts_agree countedImage _ 10 _ y0 y hmount
    countedImage_agree (Run.Meets.of_check quietB_quiet hcheck) hrun⟩

/-- After one file is created the group descriptor still counts four free inodes; three bits are
clear. -/
theorem create_miscounts : Agree countedImage ∧ ∃ y0 y, mount countedImage (fun _ => false) 10 = some y0 ∧
    Run.run exec [.root, .create 5 0 [97]] y0 = some y ∧ u32 (y.fs.disk 1) 16 = 3 ∧
    freeInodes y.fs.disk = 3 ∧ u16 (y.fs.disk 2) 14 = 4 ∧ ¬ Agree y.fs.disk := by
  have h : (mount countedImage (fun _ => false) 10).bind (fun y0 =>
      (Run.run exec [.root, .create 5 0 [97]] y0).map fun y =>
        (u32 (y.fs.disk 1) 16, freeInodes y.fs.disk, u16 (y.fs.disk 2) 14)) = some (3, 3, 4) := by
    decide +kernel
  obtain ⟨y0, hmount, h1⟩ := bind_eq_some_iff.mp h
  obtain ⟨y, hrun, h2⟩ := map_eq_some_iff.mp h1
  obtain ⟨hsb, h3⟩ := Prod.mk.inj h2
  obtain ⟨hfree, hbg⟩ := Prod.mk.inj h3
  refine ⟨countedImage_agree, y0, y, hmount, hrun, hsb, hfree, hbg, fun ha => ?_⟩
  have := ha.bgInodes
  omega

end Xv6Vfs.Ext2
