import Xv6Vfs.Fat32.Chain
import Xv6Vfs.Lib.Run

/-! The allocation table as a map that is kept in one or two copies, over any sequence of `write_fat`,
`alloc_clus` and `free_chain`. -/
namespace Xv6Vfs.Fat32
open Xv6Vfs.Bytes List Option

/-- Entry `c` of copy `k` of the table. -/
def fatEntry (v : Volume) (disk : Disk) (k c : Nat) : Nat := word disk (512 * (v.rsvdSecCnt + k * v.fatSz) + 4 * c)

/-- Byte `a` of the device belongs to a copy. -/
def InTables (v : Volume) (a : Nat) : Prop :=
  512 * v.rsvdSecCnt ≤ a ∧ a < 512 * (v.rsvdSecCnt + v.numFats * v.fatSz)

structure TwoTables (v : Volume) : Prop where
  fats : v.numFats = 1 ∨ v.numFats = 2
  size : 2 ≤ v.fatSz

/-- The entries with a value in `g` have its low 28 bits, in every copy; nothing else changes. -/
structure Updates (v : Volume) (g : Nat → Option Nat) (disk disk' : Disk) : Prop where
  outside : ∀ a, ¬ InTables v a → byte disk' a = byte disk a
  entry : ∀ k < v.numFats, ∀ c, 4 * c + 4 ≤ 512 * v.fatSz →
    fatEntry v disk' k c = (g c).elim (fatEntry v disk k c) (withLow (fatEntry v disk k c))

/-- What all calls have in common. -/
structure KeepsTables (v : Volume) (disk disk' : Disk) : Prop where
  outside : ∀ a, ¬ InTables v a → byte disk' a = byte disk a
  upper : ∀ k < v.numFats, ∀ c, 4 * c + 4 ≤ 512 * v.fatSz →
    fatEntry v disk' k c / 2 ^ 28 = fatEntry v disk k c / 2 ^ 28
  equal : v.numFats = 2 → (∀ c, 4 * c + 4 ≤ 512 * v.fatSz → fatEntry v disk 1 c = fatEntry v disk 0 c) →
    ∀ c, 4 * c + 4 ≤ 512 * v.fatSz → fatEntry v disk' 1 c = fatEntry v disk' 0 c

section Updates

variable {v : Volume} {g g' : Nat → Option Nat} {disk disk1 disk2 : Disk}

theorem withLow_withLow (x a b : Nat) : withLow (withLow x a) b = withLow x b := by
  rw [withLow, withLow_div, withLow]

theorem Updates.refl (v : Volume) (disk : Disk) : Updates v (fun _ => none) disk disk :=
  ⟨fun _ _ => rfl, fun _ _ _ _ => rfl⟩

theorem Updates.trans (h : Updates v g disk disk1) (h' : Updates v g' disk1 disk2) :
    Updates v (fun c => (g' c).or (g c)) disk disk2 := by
  constructor
  · intro a ha
    rw [h'.outside a ha, h.outside a ha]
  · intro k hk c hc
    rw [h'.entry k hk c hc, h.entry k hk c hc]
    cases g' c with
    | none => rfl
    | some b =>
      cases g c with
      | none => rfl
      | some a => exact withLow_withLow _ a b

theorem Updates.keeps (h : Updates v g disk disk1) : KeepsTables v disk disk1 := by
  refine ⟨h.outside, fun k hk c hc => ?_, fun hn heq c hc => ?_⟩
  · rw [h.entry k hk c hc]
    cases g c with
    | none => rfl
    | some a => exact withLow_div _ a
  · rw [h.entry 0 (by omega) c hc, h.entry 1 (by omega) c hc, heq c hc]

theorem KeepsTables.refl (v : Volume) (disk : Disk) : KeepsTables v disk disk := (Updates.refl v disk).keeps

theorem KeepsTables.trans (h : KeepsTables v disk disk1) (h' : KeepsTables v disk1 disk2) :
    KeepsTables v disk disk2 where
  outside := fun a ha => (h'.outside a ha).trans (h.outside a ha)
  upper := fun k hk c hc => (h'.upper k hk c hc).trans (h.upper k hk c hc)
  equal := fun hn heq => h'.equal hn (h.equal hn heq)

theorem readFat_entry {c : Nat} (hc : c < 2 ^ 30) (disk : Disk) :
    readFat v.toMount disk c = fatEntry v disk 0 c % 2 ^ 28 := by
  rw [readFat_word hc, fatEntry, Nat.zero_mul, Nat.add_zero]

end Updates

/-! ### One entry -/

section Write

variable {v : Volume} {c : Nat}

theorem entries_apart {r sz j k a : Nat} (hj : j = 0 ∨ j = 1) (hk : k = 0 ∨ k = 1) (hc : 4 * c + 4 ≤ 512 * sz)
    (ha : 4 * a + 4 ≤ 512 * sz) (hne : ¬(j = k ∧ c = a)) :
    512 * (r + k * sz) + 4 * a + 4 ≤ 512 * (r + j * sz) + 4 * c ∨
      512 * (r + j * sz) + 4 * c + 4 ≤ 512 * (r + k * sz) + 4 * a := by
  obtain rfl | rfl := hj <;> obtain rfl | rfl := hk <;> omega

theorem fatEntry_putEntry {sec off val j k a : Nat} {disk : Disk} (hoff : off + 4 ≤ 512)
    (haddr : 512 * sec + off = 512 * (v.rsvdSecCnt + j * v.fatSz) + 4 * c) (hj : j = 0 ∨ j = 1) (hk : k = 0 ∨ k = 1)
    (hc : 4 * c + 4 ≤ 512 * v.fatSz) (ha : 4 * a + 4 ≤ 512 * v.fatSz) :
    fatEntry v (putEntry sec off val disk) k a =
      if j = k ∧ c = a then withLow (fatEntry v disk k a) val else fatEntry v disk k a := by
  rw [fatEntry, fatEntry]
  split
  case isTrue h =>
    obtain ⟨rfl, rfl⟩ := h
    rw [← haddr, word_putEntry hoff]
  case isFalse h =>
    have hapart := @entries_apart c v.rsvdSecCnt v.fatSz j k a hj hk hc ha h
    exact word_congr fun b h1 h2 => byte_putEntry hoff (by omega)

theorem Inside.updates (ht : v.numFats = 1 ∨ v.numFats = 2) (h : Inside v c) (val : Nat) (disk : Disk) :
    Updates v (fun a => if c = a then some val else none) disk (writeFat v c val disk) := by
  obtain ⟨sec, off, haddr, hoff, he⟩ := h.writeFat_eq val disk
  have hentry := h.entry
  have h0 : 512 * sec + off = 512 * (v.rsvdSecCnt + 0 * v.fatSz) + 4 * c := by
    rw [haddr, fatAddr]
    omega
  have h1 : 512 * (sec + v.fatSz) + off = 512 * (v.rsvdSecCnt + 1 * v.fatSz) + 4 * c := by omega
  rw [he]
  constructor
  · intro a ha
    unfold InTables at ha
    obtain hn | hn := ht
    · rw [hn] at ha
      rw [if_neg (by omega), byte_putEntry hoff (by omega)]
    · rw [hn] at ha
      rw [if_pos (by omega), byte_putEntry hoff (by omega), byte_putEntry hoff (by omega)]
  · intro k hk a ha
    have hk2 : k = 0 ∨ k = 1 := by omega
    have hfirst := @fatEntry_putEntry v c sec off val 0 k a disk hoff h0 (.inl rfl) hk2 hentry ha
    have hsecond := @fatEntry_putEntry v c _ off val 1 k a (putEntry sec off val disk) hoff h1 (.inr rfl) hk2 hentry ha
    by_cases hca : c = a
    · rw [if_pos hca, elim_some]
      obtain rfl | rfl := hk2
      · rw [if_pos ⟨rfl, hca⟩] at hfirst
        rw [if_neg (by omega)] at hsecond
        split
        · rw [hsecond, hfirst]
        · rw [hfirst]
      · rw [if_neg (by omega)] at hfirst
        rw [if_pos ⟨rfl, hca⟩] at hsecond
        rw [if_pos hk, hsecond, hfirst]
    · rw [if_neg fun h => hca h.2] at hfirst hsecond
      rw [if_neg hca, elim_none]
      split
      · rw [hsecond, hfirst]
      · rw [hfirst]

end Write

/-! ### Chains -/

/-- Cluster `a` is reached from `c` by the links of the table. -/
inductive Linked (v : Volume) (disk : Disk) (c : Nat) : Nat → Prop
  | refl : Linked v disk c c
  | next {a : Nat} (h : Linked v disk c a) (ha : InChain a) : Linked v disk c (readFat v.toMount disk a)

open Classical in
/-- The value that `free_chain` stores: all clusters reached are free. -/
noncomputable def freed (v : Volume) (disk : Disk) (c a : Nat) : Option Nat :=
  if InChain a ∧ Linked v disk c a then some 0 else none

/-- The loop of `free_chain` with `w` for `write_fat(c, FAT32_FREE)`, and the clusters it comes to. -/
def freeWith (fm : Mount) (w : Nat → Disk → Option Disk) : (fuel c : Nat) → Disk → Option (List Nat × Disk)
  | 0, _, _ => none
  | fuel + 1, c, disk =>
    if 2 ≤ c ∧ c < eocMin then
      let n := readFat fm disk c
      (w c disk).bind fun disk1 =>
        if eocMin ≤ n then some ([c], disk1) else (freeWith fm w fuel n disk1).map fun r => (c :: r.1, r.2)
    else some ([], disk)

/-- The loop of `free_chain` has freed the clusters `zs` and goes on with `c`. -/
structure Freeing (v : Volume) (disk0 : Disk) (c0 : Nat) (disk : Disk) (zs : List Nat) (c : Nat) : Prop where
  upd : Updates v (fun a => if a ∈ zs then some 0 else none) disk0 disk
  nodup : zs.Nodup
  linked : ∀ a ∈ zs, InChain a ∧ Linked v disk0 c0 a
  here : Linked v disk0 c0 c
  start : c0 ∈ zs ∨ c0 = c
  next : ∀ a ∈ zs, readFat v.toMount disk0 a ∈ zs ∨ readFat v.toMount disk0 a = c

section Free

variable {v : Volume} {disk0 disk disk' : Disk} {c0 c : Nat} {zs : List Nat} {w : Nat → Disk → Option Disk}

theorem freeChain_eq (v : Volume) (fuel c : Nat) (disk : Disk) :
    freeChain v fuel c disk =
      (freeWith v.toMount (fun c disk => if fatWaits v c then none else some (writeFat v c 0 disk)) fuel c disk).map
        Prod.snd := by
  induction fuel generalizing c disk with
  | zero => rfl
  | succ fuel ih =>
    rw [freeChain, freeWith]
    split
    · dsimp only
      split
      · rfl
      · dsimp only [bind_some]
        split
        · rfl
        · rw [ih, Option.map_map]
          rfl
    · rfl

theorem InChain.lt (h : InChain c) : c < 2 ^ 30 := by
  have := h.2
  rw [eocMin] at this
  omega

section

variable (h : Freeing v disk0 c0 disk zs c) (hend : c ∈ zs ∨ ¬ InChain c)
include h hend

theorem Freeing.closed {a : Nat} (ha : Linked v disk0 c0 a) : a ∈ zs ∨ ¬ InChain a := by
  induction ha with
  | refl =>
    obtain hs | hs := h.start
    · exact .inl hs
    · rwa [hs]
  | @next a _ hin ih =>
    obtain hz | hz := ih
    · obtain hn | hn := h.next a hz
      · exact .inl hn
      · rwa [hn]
    · exact absurd hin hz

theorem Freeing.mem_iff (a : Nat) : a ∈ zs ↔ InChain a ∧ Linked v disk0 c0 a :=
  ⟨h.linked a, fun ha => (h.closed hend ha.2).resolve_right (not_not_intro ha.1)⟩

theorem Freeing.done : Updates v (freed v disk0 c0) disk0 disk := by
  have hg : freed v disk0 c0 = fun a => if a ∈ zs then some 0 else none := by
    funext a
    by_cases hz : a ∈ zs
    · rw [freed, if_pos ((h.mem_iff hend a).mp hz), if_pos hz]
    · rw [freed, if_neg (mt (h.mem_iff hend a).mpr hz), if_neg hz]
  rw [hg]
  exact h.upd

end

section

variable (h : Freeing v disk0 c0 disk zs c) (ht : v.numFats = 1 ∨ v.numFats = 2) (hin : Inside v c)
include h ht hin

theorem Freeing.clear : Updates v (fun a => if a ∈ c :: zs then some 0 else none) disk0 (writeFat v c 0 disk) := by
  have hu := h.upd.trans (hin.updates ht 0 disk)
  have hg : (fun a => (if c = a then some 0 else none).or (if a ∈ zs then some 0 else none)) =
      fun a => if a ∈ c :: zs then some 0 else none := by
    funext a
    by_cases hca : c = a
    · subst hca
      rw [if_pos rfl, if_pos mem_cons_self]
      rfl
    · rw [if_neg hca, none_or]
      exact if_congr (by rw [mem_cons, or_iff_right (Ne.symm hca)]) rfl rfl
  rwa [hg] at hu

theorem Freeing.step (hc : InChain c) (hz : c ∉ zs) : readFat v.toMount disk c = readFat v.toMount disk0 c ∧
      Freeing v disk0 c0 (writeFat v c 0 disk) (c :: zs) (readFat v.toMount disk0 c) := by
  constructor
  · rw [readFat_entry hc.lt, readFat_entry hc.lt, h.upd.entry 0 (by omega) c hin.entry, if_neg hz, elim_none]
  · refine ⟨h.clear ht hin, nodup_cons.mpr ⟨hz, h.nodup⟩, ?_, h.here.next hc, ?_, ?_⟩
    · intro a ha
      obtain rfl | ha := mem_cons.mp ha
      · exact ⟨hc, h.here⟩
      · exact h.linked a ha
    · obtain hs | hs := h.start
      · exact .inl (mem_cons_of_mem c hs)
      · exact .inl (hs ▸ mem_cons_self)
    · intro a ha
      obtain rfl | ha := mem_cons.mp ha
      · exact .inr rfl
      · obtain hn | hn := h.next a ha
        · exact .inl (mem_cons_of_mem c hn)
        · exact .inl (hn ▸ mem_cons_self)

theorem Freeing.again (hc : InChain c) (hz : c ∈ zs) : readFat v.toMount disk c = 0 := by
  rw [readFat_entry hc.lt, h.upd.entry 0 (by omega) c hin.entry, if_pos hz, elim_some, withLow_mod, Nat.zero_mod]

end

/-- The loop ends, with every cluster of the chain visited and free. -/
theorem Freeing.freeWith (ht : v.numFats = 1 ∨ v.numFats = 2)
    (hin : ∀ a, Linked v disk0 c0 a → InChain a → Inside v a ∧ ∀ disk, w a disk = some (writeFat v a 0 disk))
    (fuel : Nat) (h : Freeing v disk0 c0 disk zs c) (hfuel : eocMin ≤ fuel + zs.length) :
    ∃ us disk', freeWith v.toMount w fuel c disk = some (us, disk') ∧ Updates v (freed v disk0 c0) disk0 disk' ∧
      ∀ a, a ∈ zs ∨ a ∈ us ↔ InChain a ∧ Linked v disk0 c0 a := by
  have hlen := length_lt_eocMin h.nodup fun a ha => (h.linked a ha).1
  induction fuel generalizing disk zs c with
  | zero => omega
  | succ fuel ih =>
    rw [Fat32.freeWith]
    by_cases hc : InChain c
    · obtain ⟨hinc, hw⟩ := hin c h.here hc
      rw [if_pos (show 2 ≤ c ∧ c < eocMin from hc), hw]
      dsimp only [bind_some]
      by_cases hz : c ∈ zs
      · -- the chain runs into itself
        rw [h.again ht hinc hc hz]
        obtain ⟨m, rfl⟩ : ∃ m, fuel = m + 1 := ⟨fuel - 1, by omega⟩
        have hmem : ∀ a, a ∈ c :: zs ↔ a ∈ zs := fun a => by
          rw [mem_cons, or_iff_right_of_imp fun ha => ha ▸ hz]
        have hagain := h.clear ht hinc
        simp only [hmem] at hagain
        refine ⟨[c], writeFat v c 0 disk, rfl, Freeing.done { h with upd := hagain } (.inl hz), fun a => ?_⟩
        rw [mem_singleton, or_iff_left_of_imp fun ha => ha ▸ hz]
        exact h.mem_iff (.inl hz) a
      · obtain ⟨hread, hstep⟩ := h.step ht hinc hc hz
        have hmem : ∀ us a, a ∈ zs ∨ a ∈ c :: us ↔ a ∈ c :: zs ∨ a ∈ us := fun us a => by
          simp only [mem_cons]
          tauto
        rw [hread]
        by_cases he : eocMin ≤ readFat v.toMount disk0 c
        · have hend : ¬ InChain (readFat v.toMount disk0 c) := fun hch => absurd hch.2 (Nat.not_lt.mpr he)
          refine ⟨[c], _, if_pos he, hstep.done (.inr hend), fun a => ?_⟩
          rw [hmem, or_iff_left not_mem_nil]
          exact hstep.mem_iff (.inr hend) a
        · have hlen' := length_lt_eocMin hstep.nodup fun a ha => (hstep.linked a ha).1
          rw [length_cons] at hlen'
          obtain ⟨us, disk', hrun, hupd, hus⟩ := ih hstep (by rw [length_cons]; omega) hlen'
          rw [if_neg he, hrun]
          exact ⟨c :: us, disk', rfl, hupd, fun a => (hmem us a).trans (hus a)⟩
    · refine ⟨[], disk, if_neg hc, h.done (.inr hc), fun a => ?_⟩
      rw [or_iff_left not_mem_nil]
      exact h.mem_iff (.inr hc) a

theorem freeWith_updates (ht : v.numFats = 1 ∨ v.numFats = 2)
    (hin : ∀ a, Linked v disk c a → InChain a → Inside v a ∧ ∀ disk, w a disk = some (writeFat v a 0 disk)) :
    ∃ us disk', freeWith v.toMount w chainFuel c disk = some (us, disk') ∧ Updates v (freed v disk c) disk disk' ∧
      ∀ a, a ∈ us ↔ InChain a ∧ Linked v disk c a := by
  have h0 : Freeing v disk c disk [] c :=
    ⟨Updates.refl v disk, nodup_nil, nofun, .refl, .inr rfl, nofun⟩
  obtain ⟨us, disk', hrun, hupd, hus⟩ := h0.freeWith ht hin chainFuel (by decide)
  exact ⟨us, disk', hrun, hupd, fun a => by rw [← hus, or_iff_right not_mem_nil]⟩

end Free

/-! ### Runs -/

inductive FatOp where
  | write (c val : Nat)
  | alloc
  | free (c : Nat)

def FatOp.exec (v : Volume) : FatOp → Disk → Option Disk
  | .write c val, disk => if fatWaits v c then none else some (writeFat v c val disk)
  | .alloc, disk => (allocClus v disk).elim (some disk) fun r => if fatWaits v r.1 then none else some r.2
  | .free c, disk => freeChain v chainFuel c disk

/-- The entries that a call changes, and their values. -/
noncomputable def FatOp.effect (v : Volume) (disk : Disk) : FatOp → Nat → Option Nat
  | .write c val, a => if c = a then some val else none
  | .alloc, a => if (allocClus v disk).map Prod.fst = some a then some eoc else none
  | .free c, a => freed v disk c a

/-- The clusters that a call may meet have their entries in the table. -/
def Within (v : Volume) (disk : Disk) : FatOp → Prop
  | .write c _ => Inside v c
  | .alloc => ∀ c, 2 ≤ c → c < uint (v.totClus + 2) → Inside v c
  | .free c => ∀ a, Linked v disk c a → InChain a → Inside v a

section Runs

variable {v : Volume} {disk : Disk}

section

variable (ht : TwoTables v)
include ht

/-- The copy of a sector is at least two sectors behind it. -/
theorem Inside.returns {c : Nat} (h : Inside v c) : fatWaits v c = false := by
  rw [fatWaits, decide_eq_false_iff_not, not_and]
  intro hn
  have hsz := ht.size
  have hsec := h.copy hn
  have hoff := h.offset
  rw [uint, uint, bps, spb]
  omega

theorem FatOp.updates {op : FatOp} (h : Within v disk op) :
    ∃ disk', op.exec v disk = some disk' ∧ Updates v (op.effect v disk) disk disk' := by
  cases op with
  | write c val =>
    have hc : Inside v c := h
    exact ⟨_, by rw [FatOp.exec, hc.returns ht]; rfl, hc.updates ht.fats val disk⟩
  | alloc =>
    cases ha : allocClus v disk with
    | none =>
      have hg : FatOp.effect v disk .alloc = fun _ => none := by
        funext a
        simp only [FatOp.effect, ha, map_none, reduceCtorEq, if_false]
      rw [hg]
      exact ⟨disk, by rw [FatOp.exec, ha]; rfl, Updates.refl v disk⟩
    | some r =>
      obtain ⟨c, hfind, rfl⟩ := map_eq_some_iff.mp ha
      have hmem := mem_range'_1.mp (mem_of_find?_eq_some hfind)
      have hg : FatOp.effect v disk .alloc = fun a => if c = a then some eoc else none := by
        funext a
        simp only [FatOp.effect, ha, map_some, some.injEq]
      rw [hg]
      have hc : Inside v c := h c hmem.1 (by omega)
      exact ⟨_, by rw [FatOp.exec, ha, elim_some, hc.returns ht]; rfl, hc.updates ht.fats eoc disk⟩
  | free c =>
    have hw : ∀ a, Linked v disk c a → InChain a → Inside v a ∧
        ∀ disk, (if fatWaits v a then none else some (writeFat v a 0 disk)) = some (writeFat v a 0 disk) :=
      fun a h1 h2 => ⟨h a h1 h2, fun _ => by rw [(h a h1 h2).returns ht]; rfl⟩
    obtain ⟨us, disk', hrun, hupd, -⟩ := freeWith_updates ht.fats hw
    exact ⟨disk', by rw [FatOp.exec, freeChain_eq, hrun, map_some], hupd⟩

/-- What `write_fat(c, val)` does to the table, in every copy. -/
structure WritesEntry (v : Volume) (c val : Nat) (disk disk' : Disk) : Prop extends KeepsTables v disk disk' where
  read : readFat v.toMount disk' c = val % 2 ^ 28
  others : ∀ k < v.numFats, ∀ a, 4 * a + 4 ≤ 512 * v.fatSz → a ≠ c → fatEntry v disk' k a = fatEntry v disk k a

theorem Inside.writes {c : Nat} (h : Inside v c) (val : Nat) (disk : Disk) :
    WritesEntry v c val disk (writeFat v c val disk) := by
  have hu := h.updates ht.fats val disk
  refine ⟨hu.keeps, ?_, fun k hk a ha hne => ?_⟩
  · rw [readFat_entry h.offset, hu.entry 0 (by have := ht.fats; omega) c h.entry, if_pos rfl, elim_some, withLow_mod]
  · rw [hu.entry k hk a ha, if_neg hne.symm, elim_none]

theorem FatOp.run_keeps {ops : List FatOp} (h : Run.Meets (FatOp.exec v) (Within v) ops disk) :
    ∃ disk', Run.run (FatOp.exec v) ops disk = some disk' ∧ KeepsTables v disk disk' := by
  refine Run.run_total (fun d => KeepsTables v disk d) (fun d op hd hop => ?_) (KeepsTables.refl v disk) h
  obtain ⟨d', he, hu⟩ := FatOp.updates ht hop
  exact ⟨d', he, hd.trans hu.keeps⟩

end

end Runs

/-- For one or two tables of at least two sectors: a run whose calls meet only clusters with entries in
the table leaves the rest of the device and the upper bits of all entries alone and the copies equal if
they were; and in the state it reaches `write_fat` stores what `read_fat` returns and every call changes
its own entries only. -/
theorem fat_mirrored_map (v : Volume) (ht : TwoTables v) (ops : List FatOp) (disk : Disk)
    (hin : Run.Meets (FatOp.exec v) (Within v) ops disk) :
    ∃ disk', Run.run (FatOp.exec v) ops disk = some disk' ∧ KeepsTables v disk disk' ∧
      (∀ c val, Inside v c → WritesEntry v c val disk' (writeFat v c val disk')) ∧
      ∀ op, Within v disk' op →
        ∃ disk2, op.exec v disk' = some disk2 ∧ Updates v (op.effect v disk') disk' disk2 := by
  obtain ⟨disk', hrun, hkeeps⟩ := FatOp.run_keeps ht hin
  exact ⟨disk', hrun, hkeeps, fun c val hc => hc.writes ht val disk', fun op hop => FatOp.updates ht hop⟩

/-- 32 reserved sectors, two tables of two sectors, and one sector to a cluster. -/
def twoTables : Volume :=
  { secPerClus := 1, rsvdSecCnt := 32, firstDataSec := 36, numFats := 2, fatSz := 2, totClus := 250, rootClus := 2 }

theorem two_writes_mirrored : ∃ disk', Run.run (FatOp.exec twoTables) [.write 3 7, .alloc] (fun _ _ => 0) = some disk' ∧
    KeepsTables twoTables (fun _ _ => 0) disk' := by
  have hinside : ∀ c, c < 252 → Inside twoTables c := fun c hc =>
    ⟨by show 4 * c + 4 ≤ 512 * 2; omega, by omega, fun _ => by show 32 + c / 128 + 2 < 2 ^ 32; omega⟩
  have hin : Run.Meets (FatOp.exec twoTables) (Within twoTables) [.write 3 7, .alloc] (fun _ _ => 0) :=
    ⟨hinside 3 (by decide), fun _ _ => ⟨fun c _ hc => hinside c hc, fun _ _ => trivial⟩⟩
  obtain ⟨disk', hrun, hkeeps, -⟩ := fat_mirrored_map twoTables ⟨.inr rfl, by decide⟩ _ _ hin
  exact ⟨disk', hrun, hkeeps⟩

/-- A link behind the end of the table: `free_chain` clears entry 44 of the second copy in its place. -/
theorem free_outside_differs : ∃ disk',
    Run.run (FatOp.exec twoTables) [.write 44 5, .write 2 300, .free 2] (fun _ _ => 0) = some disk' ∧
      fatEntry twoTables disk' 0 44 = 5 ∧ fatEntry twoTables disk' 1 44 = 0 := by
  have h : (Run.run (FatOp.exec twoTables) [.write 44 5, .write 2 300, .free 2] (fun _ _ => 0)).map
      (fun d => (fatEntry twoTables d 0 44, fatEntry twoTables d 1 44)) = some (5, 0) := by decide +kernel
  obtain ⟨disk', hrun, he⟩ := map_eq_some_iff.mp h
  exact ⟨disk', hrun, congrArg Prod.fst he, congrArg Prod.snd he⟩

end Xv6Vfs.Fat32
