import Xv6Vfs.Ext2.Entries
import Xv6Vfs.Ext2.Quiet
import Xv6Vfs.Lib.Count

/-! How many blocks a new entry of a directory takes, and when there are too few. -/
namespace Xv6Vfs.Ext2
open Xv6Vfs.Bytes Xv6Vfs.Vfs List

variable {p : Priv} {f i j lbn : Nat}

/-- The blocks that `ext2_balloc` may still give. -/
def spareBlocks (fs : Fs) : Nat :=
  (List.range' 1 (min (sBlocksCount fs.sb) (bsize * 8) - 1)).countP fun i => !blockUsed fs i

/-- The blocks that `ext2_bmap` takes for logical block `lbn`, absent if it is out of range. -/
def mapNeed (fs : Fs) (ino : Bytes) (lbn : Nat) : Option Nat :=
  if lbnBlock fs ino lbn ≠ 0 then some 0
  else if lbn < ndirect then some 1
  else if lbn - ndirect < nindirect then some (if iBlock ino 12 = 0 then 2 else 1)
  else none

/-- The blocks that an entry for `name` takes: none if there is room in a block of the directory. -/
def entryNeed (fs : Fs) (d : Nat) (name : Name) : Option Nat :=
  match walkDir fs d (visitAdd name 1 ftReg) with
  | some (.hit _ (some _)) => some 0
  | some (.done off) => mapNeed fs (fs.vnodes d).priv.ino (off / bsize)
  | _ => none

section Blocks

variable {fs fs' : Fs} {n : Nat}

theorem spareBlocks_congr (hs : Static fs fs') (hb : ∀ b, blockUsed fs' b = blockUsed fs b) :
    spareBlocks fs' = spareBlocks fs := by
  rw [spareBlocks, spareBlocks, hs.blocks]
  simp only [hb]

theorem spareBlocks_of_disk (hs : Static fs fs') (hd : fs'.disk (bgBlockBitmap fs.bg) = fs.disk (bgBlockBitmap fs.bg)) :
    spareBlocks fs' = spareBlocks fs := by
  apply spareBlocks_congr hs
  intro b
  rw [blockUsed, blockUsed, hs.bg, hd]

theorem spareBlocks_bwrite {b : Nat} (hb : b ≠ bgBlockBitmap fs.bg) (data : Bytes) :
    spareBlocks (fs.bwrite b data) = spareBlocks fs :=
  spareBlocks_of_disk (bwrite_static fs b data) (bwrite_disk fs data (Ne.symm hb))

theorem spareBlocks_zero_iff : spareBlocks fs = 0 ↔ BitmapFull fs := by
  rw [spareBlocks, countP_eq_zero, BitmapFull]
  constructor
  · intro h i h1 h2
    have hi := h i (mem_range'_1.mpr (by omega))
    simpa [blockUsed] using hi
  · intro h i hi
    rw [mem_range'_1] at hi
    have hbit := h i hi.1 (by omega)
    simpa [blockUsed] using hbit

theorem balloc_none_iff : (balloc fs).1 = 0 ↔ spareBlocks fs = 0 :=
  (balloc_eq_zero_iff fs).trans spareBlocks_zero_iff.symm

/-- A block that is given is one less. -/
theorem balloc_spare (hg : Geo fs) (h : (balloc fs).1 ≠ 0) : spareBlocks (balloc fs).2 + 1 = spareBlocks fs := by
  cases ha : bitmapAlloc (bgBlockBitmap fs.bg) (sBlocksCount fs.sb) 0 fs with
  | none =>
    rw [balloc, ha] at h
    exact absurd rfl h
  | some r =>
    rcases r with ⟨b, fs1⟩
    rcases bitmapAlloc_some ha with ⟨i, hb, rfl, h1, h2, hclear, -⟩
    have htake : (balloc fs).2 = take i fs := by
      rw [balloc, ha, hb]
      rfl
    have hfree : blockUsed fs i = false := hclear
    rw [htake, spareBlocks, spareBlocks, (take_static i fs).blocks]
    refine Count.countP_less (nodup_range' 1) (a := i) (mem_range'_1.mpr (by omega)) ?_ ?_ ?_
    · rw [hfree]
      rfl
    · rw [take_bits hg, decide_eq_true rfl, Bool.or_true]
      rfl
    · intro c _ hc
      rw [take_bits hg, decide_eq_false (Ne.symm hc), Bool.or_false]

/-- A result that depends on one more block, if `c` of them have been taken. -/
theorem balloc_one (hg : Geo fs) {r : Nat × Priv × Fs} {c s : Nat} (hs : spareBlocks fs + c = s)
    (h0 : (balloc fs).1 = 0 → r.1 = 0)
    (h1 : (balloc fs).1 ≠ 0 → r.1 ≠ 0 ∧ spareBlocks r.2.2 = spareBlocks (balloc fs).2) :
    (r.1 ≠ 0 ↔ c + 1 ≤ s) ∧ (r.1 ≠ 0 → spareBlocks r.2.2 + (c + 1) = s) := by
  by_cases h : (balloc fs).1 = 0
  · have hspare := balloc_none_iff.mp h
    exact ⟨⟨fun hne => absurd (h0 h) hne, fun hle => by omega⟩, fun hne => absurd (h0 h) hne⟩
  · have hspare := balloc_spare hg h
    rw [← (h1 h).2] at hspare
    exact ⟨⟨fun _ => by omega, fun _ => (h1 h).1⟩, fun _ => by omega⟩

/-- The block of indirect pointers is there already. -/
theorem bmap_entry_need (hg : Geo fs) (h : Own fs p.ino) (hge : ¬ lbn < ndirect)
    (hlt : lbn - ndirect < nindirect) (h12 : iBlock p.ino 12 ≠ 0) (h0 : indirect fs p.ino (lbn - ndirect) = 0) :
    ((bmap p lbn true fs).1 ≠ 0 ↔ 1 ≤ spareBlocks fs) ∧
      ((bmap p lbn true fs).1 ≠ 0 → spareBlocks (bmap p lbn true fs).2.2 + 1 = spareBlocks fs) := by
  have hq : indirectBlock p true fs = (p, fs) := if_neg fun hx => h12 hx.1
  rw [indirect, if_neg h12] at h0
  have hib : iBlock p.ino 12 ≠ bgBlockBitmap (balloc fs).2.bg := by
    rw [(balloc_static fs).bg]
    exact (not_meta (h.data _ (h.ptr12 h12))).2.1
  rw [bmap, if_neg hge, if_pos hlt, hq]
  rw [if_neg h12, if_pos ⟨h0, rfl⟩]
  apply balloc_one hg (Nat.add_zero _)
  · intro hz
    rw [if_pos hz]
  · intro hne
    rw [if_neg hne]
    exact ⟨hne, spareBlocks_bwrite hib _⟩

/-- The block of indirect pointers is needed as well. -/
theorem bmap_indirect_need (hg : Ground fs) (hge : ¬ lbn < ndirect) (hlt : lbn - ndirect < nindirect)
    (h12 : iBlock p.ino 12 = 0) :
    ((bmap p lbn true fs).1 ≠ 0 ↔ 2 ≤ spareBlocks fs) ∧
      ((bmap p lbn true fs).1 ≠ 0 → spareBlocks (bmap p lbn true fs).2.2 + 2 = spareBlocks fs) := by
  rw [bmap, if_neg hge, if_pos hlt]
  by_cases hb : (balloc fs).1 = 0
  · have hspare := balloc_none_iff.mp hb
    have hq : indirectBlock p true fs = (p, fs) := by simp [indirectBlock, h12, hb, balloc_zero hb]
    rw [hq]
    rw [if_pos h12]
    exact ⟨⟨fun hne => absurd rfl hne, fun hle => by omega⟩, fun hne => absurd rfl hne⟩
  · have hspare := balloc_spare hg.toGeo hb
    have hfresh := (balloc_spec hg).2 hb
    have hstatic := balloc_static fs
    have hq : indirectBlock p true fs = (grown p (setBlock p.ino 12 (balloc fs).1),
        (balloc fs).2.bwrite (balloc fs).1 (clear ((balloc fs).2.disk (balloc fs).1) 0 bsize)) := by
      simp [indirectBlock, h12, hb]
    rw [hq]
    generalize (balloc fs).1 = b at *
    generalize (balloc fs).2 = fs1 at *
    have hsmall := hfresh.small
    have hbm : b ≠ bgBlockBitmap fs1.bg := by
      rw [hstatic.bg]
      exact (not_meta hfresh.data).2.1
    have hspare2 := spareBlocks_bwrite hbm (clear (fs1.disk b) 0 bsize)
    have hg2 : Geo (fs1.bwrite b (clear (fs1.disk b) 0 bsize)) :=
      (hstatic.trans (bwrite_static fs1 b _)).geo hg.toGeo
    have h12' : iBlock (grown p (setBlock p.ino 12 b)).ino 12 = b := by
      rw [grown, (setBlocks_same _ _).ptr 12 (Nat.le_refl _), iBlock_setBlock, if_pos rfl, Nat.mod_eq_of_lt (by omega)]
    have hz : u32 ((fs1.bwrite b (clear (fs1.disk b) 0 bsize)).disk b) (4 * (lbn - ndirect)) = 0 := by
      rw [bwrite_disk_self, clear, u32_blit_in (Nat.zero_le _) (by rw [bsize]; rw [nindirect] at hlt; omega)]
      rfl
    dsimp only
    rw [h12', if_neg hb, if_pos ⟨hz, rfl⟩]
    apply balloc_one hg2 (by rw [hspare2]; exact hspare)
    · intro hz
      rw [if_pos hz]
    · intro hne
      rw [if_neg hne]
      exact ⟨hne, spareBlocks_bwrite (by rw [(balloc_static _).bg]; exact hbm) _⟩

/-- `ext2_bmap` has a block if there are enough, and takes as many as it needs. -/
theorem bmap_need (hg : Ground fs) (h : Own fs p.ino) (lbn : Nat) :
    ((bmap p lbn true fs).1 ≠ 0 ↔ ∃ b, mapNeed fs p.ino lbn = some b ∧ b ≤ spareBlocks fs) ∧
      ∀ b, mapNeed fs p.ino lbn = some b → (bmap p lbn true fs).1 ≠ 0 →
        spareBlocks (bmap p lbn true fs).2.2 + b = spareBlocks fs := by
  have hsome : ∀ c, ((bmap p lbn true fs).1 ≠ 0 ↔ c ≤ spareBlocks fs) ∧
      ((bmap p lbn true fs).1 ≠ 0 → spareBlocks (bmap p lbn true fs).2.2 + c = spareBlocks fs) →
      ((bmap p lbn true fs).1 ≠ 0 ↔ ∃ b, some c = some b ∧ b ≤ spareBlocks fs) ∧
        ∀ b, some c = some b → (bmap p lbn true fs).1 ≠ 0 →
          spareBlocks (bmap p lbn true fs).2.2 + b = spareBlocks fs := by
    intro c hc
    refine ⟨hc.1.trans ⟨fun hle => ⟨c, rfl, hle⟩, ?_⟩, ?_⟩
    · rintro ⟨b, hb, hle⟩
      cases hb
      exact hle
    · rintro b hb hne
      cases hb
      exact hc.2 hne
  rw [mapNeed]
  by_cases hmap : lbnBlock fs p.ino lbn ≠ 0
  · rw [if_pos hmap]
    apply hsome 0
    rw [bmap_mapped hmap]
    exact ⟨⟨fun _ => Nat.zero_le _, fun _ => hmap⟩, fun _ => rfl⟩
  · rw [if_neg hmap]
    rw [not_not, lbnBlock_eq] at hmap
    by_cases h1 : lbn < ndirect
    · rw [if_pos h1] at hmap ⊢
      apply hsome 1
      rw [bmap, if_pos h1, if_pos ⟨hmap, rfl⟩]
      apply balloc_one hg.toGeo (Nat.add_zero _)
      · intro hz
        rw [if_pos hz]
      · intro hne
        rw [if_neg hne]
        exact ⟨hne, rfl⟩
    · rw [if_neg h1] at hmap ⊢
      by_cases h2 : lbn - ndirect < nindirect
      · rw [if_pos h2] at hmap ⊢
        by_cases h12 : iBlock p.ino 12 = 0
        · rw [if_pos h12]
          exact hsome 2 (bmap_indirect_need hg h1 h2 h12)
        · rw [if_neg h12]
          exact hsome 1 (bmap_entry_need hg.toGeo h h1 h2 h12 hmap)
      · rw [if_neg h2]
        refine ⟨⟨fun hne => ?_, ?_⟩, fun b hb => by cases hb⟩
        · rw [bmap, if_neg h1, if_neg h2] at hne
          exact absurd rfl hne
        · rintro ⟨b, hb, -⟩
          cases hb

end Blocks

theorem visitAdd_none_iff {name : Name} {g o : Nat} {data : Bytes} :
    visitAdd name i f data o = none ↔ visitAdd name j g data o = none := by
  rw [visitAdd, visitAdd]
  split
  · simp only [reduceCtorEq]
  · split
    · simp only [reduceCtorEq]
    · split
      · simp only [reduceCtorEq]
      · exact Iff.rfl

section Entry

variable {fs fs' : Fs} {A A' : Abs} {n n' : Nat} {x x' : Ino} {v v' : Vn} {name : Name}

/-- There is room in a block of the directory. -/
def Ino.Fits (x : Ino) (name : Name) : Prop :=
  ∃ j < x.size / bsize, (slots (x.block j)).findSome? (visitAdd name 1 ftReg (x.block j)) ≠ none

theorem Ino.fits_of (hj : j < x.size / bsize)
    (h : (slots (x.block j)).findSome? (visitAdd name i f (x.block j)) ≠ none) : x.Fits name := by
  refine ⟨j, hj, fun hnone => h ?_⟩
  rw [findSome?_eq_none_iff] at hnone ⊢
  exact fun o ho => visitAdd_none_iff.mp (hnone o ho)

section

variable (h : Rep fs A) (hx : A n = some x) (hv : x.vn = some v) (hk : x.kind = .dir)
include h hx hv hk

theorem Rep.entryNeed (hg : goodName name = true) : (x.Fits name → entryNeed fs v.slot name = some 0) ∧
      (¬ x.Fits name → entryNeed fs v.slot name = mapNeed fs (fs.vnodes v.slot).priv.ino (x.size / bsize)) := by
  have hd := h.dirOk hx hk
  rw [Ext2.entryNeed]
  cases h.walkDir hx hv hk (visitAdd name 1 ftReg) with
  | inl hhit =>
    rcases hhit with ⟨j, a, hj, hf, -, -, he⟩
    rcases exists_of_findSome?_eq_some hf with ⟨o, ho, ha⟩
    rcases visitAdd_spec (hd.block j hj) ho hg ha with ⟨data, rfl, -⟩
    rw [he]
    exact ⟨fun _ => rfl, fun hno => absurd ⟨j, hj, by rw [hf]; exact Option.some_ne_none _⟩ hno⟩
  | inr hdone =>
    rw [hdone.2]
    refine ⟨fun hfits => ?_, fun _ => rfl⟩
    rcases hfits with ⟨j, hj, hne⟩
    exact absurd (hdone.1 j hj) hne

/-- The need depends on the data of the directory and on whether it has indirect pointers. -/
theorem Rep.entryNeed_congr (h' : Rep fs' A') (hx' : A' n' = some x') (hv' : x'.vn = some v') (hk' : x'.kind = .dir)
    (hg : goodName name = true) (hsize : x'.size = x.size) (hblocks : x'.blocks = x.blocks)
    (h12 : iBlock (fs'.vnodes v'.slot).priv.ino 12 = iBlock (fs.vnodes v.slot).priv.ino 12) :
    Ext2.entryNeed fs' v'.slot name = Ext2.entryNeed fs v.slot name := by
  have hneed := h.entryNeed hx hv hk hg
  have hneed' := h'.entryNeed hx' hv' hk' hg
  have hblock : ∀ k, x'.block k = x.block k := by
    intro k
    rw [Ino.block, Ino.block, hblocks]
  have hfits : x'.Fits name ↔ x.Fits name := by
    rw [Ino.Fits, Ino.Fits, hsize]
    simp only [hblock]
  by_cases hf : x.Fits name
  · rw [hneed.1 hf, hneed'.1 (hfits.mpr hf)]
  · rw [hneed.2 hf, hneed'.2 (mt hfits.mp hf), hsize]
    have hs := (h.own hx hv (by rw [hk]; decide)).2.blocks (x.size / bsize)
    have hs' := (h'.own hx' hv' (by rw [hk']; decide)).2.blocks (x.size / bsize)
    have hmap : lbnBlock fs' (fs'.vnodes v'.slot).priv.ino (x.size / bsize) ≠ 0 ↔
        lbnBlock fs (fs.vnodes v.slot).priv.ino (x.size / bsize) ≠ 0 := by
      rw [hblocks, hs] at hs'
      split at hs'
      · split at hs'
        · rename_i h1 h2
          exact not_congr ⟨fun _ => h1, fun _ => h2⟩
        · cases hs'
      · split at hs'
        · cases hs'
        · rename_i h1 h2
          exact ⟨fun _ => h1, fun _ => h2⟩
    rw [mapNeed, mapNeed, h12]
    simp only [hmap]

/-- `ext2_dir_add` succeeds if there are enough blocks, and takes as many as it needs. -/
theorem Rep.dirAdd_need (hg : goodName name = true) {inum ftype : Nat} {ok : Bool}
    (hadd : Ext2.dirAdd v.slot name inum ftype fs = some (ok, fs')) :
    (ok = true ↔ ∃ b, Ext2.entryNeed fs v.slot name = some b ∧ b ≤ spareBlocks fs) ∧
      ∀ b, Ext2.entryNeed fs v.slot name = some b → ok = true → spareBlocks fs' + b = spareBlocks fs := by
  have hd := h.dirOk hx hk
  have hown := (h.own hx hv (by rw [hk]; decide)).1
  have hnode := (h.ino n x hx).node v hv
  have hneed := h.entryNeed hx hv hk hg
  rw [Ext2.dirAdd, cstr_eq (goodName_iff.mp hg).2.2] at hadd
  cases h.walkDir hx hv hk (visitAdd name inum ftype) with
  | inl hhit =>
    rcases hhit with ⟨j, a, hj, hf, h0, -, he⟩
    rcases exists_of_findSome?_eq_some hf with ⟨o, ho, ha⟩
    rcases visitAdd_spec (hd.block j hj) ho hg ha with ⟨data, rfl, -⟩
    rw [he] at hadd
    cases hadd
    rw [hneed.1 (Ino.fits_of hj (by rw [hf]; exact Option.some_ne_none _))]
    refine ⟨⟨fun _ => ⟨0, rfl, Nat.zero_le _⟩, fun _ => rfl⟩, fun b hb _ => ?_⟩
    cases hb
    exact spareBlocks_bwrite (not_meta (hown.data _ (lbnBlock_mem h0))).2.1 data
  | inr hdone =>
    have hno : ¬ x.Fits name := by
      rintro ⟨j, hj, hne⟩
      apply hne
      rw [findSome?_eq_none_iff]
      exact fun o ho => visitAdd_none_iff.mp (findSome?_eq_none_iff.mp (hdone.1 j hj) o ho)
    rw [hneed.2 hno]
    rw [hdone.2, Option.bind_some] at hadd
    have hmap := bmap_spec h.ground hown (x.size / bsize)
    have hroom := bmap_need h.ground hown (x.size / bsize)
    dsimp only at hadd
    rw [Own.bmapWaits h.ground hown, if_neg Bool.false_ne_true] at hadd
    generalize Ext2.bmap (fs.vnodes v.slot).priv (x.size / bsize) true fs = r at *
    by_cases h0 : r.1 = 0
    · rw [if_pos h0] at hadd
      cases hadd
      exact ⟨⟨fun he => (by cases he), fun he => absurd h0 (hroom.1.mpr he)⟩, fun b _ he => (by cases he)⟩
    · rw [if_neg h0] at hadd
      cases hadd
      have hdata : r.1 ≠ bgBlockBitmap r.2.2.bg := by
        rw [← hmap.block] at h0 ⊢
        exact (not_meta (hmap.own.data _ (lbnBlock_mem h0))).2.1
      refine ⟨⟨fun _ => hroom.1.mp h0, fun _ => rfl⟩, fun b hb _ => ?_⟩
      rw [← hroom.2 b hb h0]
      exact congrArg (· + b) (spareBlocks_bwrite hdata _)

end

end Entry

end Xv6Vfs.Ext2
