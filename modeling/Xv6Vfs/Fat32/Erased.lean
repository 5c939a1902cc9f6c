import Xv6Vfs.Fat32.Buffers
import Xv6Vfs.Fat32.Mirror

/-! `free_chain` over the buffer cache, on tables with cycles and with chains that run into each other. -/
namespace Xv6Vfs.Fat32
open Xv6Vfs.Bytes List

/-- `free_chain`; undefined where `write_fat` waits for a buffer of its own. -/
def freeChainLocked (v : Volume) (fuel c : Nat) (disk : Disk) : Option (List Nat × Disk) :=
  freeWith v.toMount (fun c disk => (Run.run BufCall.exec (writeFatCalls v c 0) ⟨[], disk⟩).map Locked.disk) fuel c disk

/-- The entry of `c` is in the table, or `c` is an end-of-chain mark. -/
def InRange (v : Volume) (c : Nat) : Prop := 4 * c + 4 ≤ 512 * v.fatSz ∨ eocMin ≤ c

/-- What `free_chain(c)` is to leave behind when it has come to the clusters `us`. -/
structure Erased (v : Volume) (disk : Disk) (c : Nat) (us : List Nat) (disk' : Disk) : Prop where
  visited : ∀ a ∈ us, readFat v.toMount disk' a = 0
  others : ∀ k < v.numFats, ∀ a, 4 * a + 4 ≤ 512 * v.fatSz → a ∉ us → fatEntry v disk' k a = fatEntry v disk k a
  chain : ∀ cs, Links v.toMount disk c cs → ∀ a, a ∈ us ↔ a ∈ cs

section Links

variable {v : Volume} {disk : Disk} {c a : Nat} {cs : List Nat}

theorem Links.linked (h : Links v.toMount disk c cs) {c0 : Nat} (h0 : Linked v disk c0 c) (ha : a ∈ cs) :
    InChain a ∧ Linked v disk c0 a := by
  induction h with
  | last hc he =>
    cases mem_singleton.mp ha
    exact ⟨hc, h0⟩
  | next hc ht ih =>
    cases mem_cons.mp ha with
    | inl he =>
      cases he
      exact ⟨hc, h0⟩
    | inr ha => exact ih (h0.next hc) ha

/-- The links lead nowhere else. -/
theorem Links.next_mem (h : Links v.toMount disk c cs) (ha : a ∈ cs) :
    readFat v.toMount disk a ∈ cs ∨ eocMin ≤ readFat v.toMount disk a := by
  induction h with
  | last hc he =>
    cases mem_singleton.mp ha
    exact .inr he
  | next hc ht ih =>
    cases mem_cons.mp ha with
    | inl he =>
      cases he
      exact .inl (mem_cons_of_mem _ ht.head.2)
    | inr ha => exact (ih ha).imp_left (mem_cons_of_mem _)

theorem Links.mem_iff (h : Links v.toMount disk c cs) : InChain a ∧ Linked v disk c a ↔ a ∈ cs := by
  constructor
  · rintro ⟨hin, hl⟩
    induction hl with
    | refl => exact h.head.2
    | next hl ha ih => exact (h.next_mem (ih ha)).resolve_right (Nat.not_le.mpr hin.2)
  · exact h.linked .refl

end Links

section Erase

variable {v : Volume} {disk disk' : Disk} {c a : Nat}

theorem Linked.inRange (hc : InRange v c)
    (hrange : ∀ a, 4 * a + 4 ≤ 512 * v.fatSz → InRange v (readFat v.toMount disk a)) (h : Linked v disk c a) :
    InRange v a := by
  induction h with
  | refl => exact hc
  | next hl ha ih => exact hrange _ (ih.resolve_right (Nat.not_le.mpr ha.2))

/-- `write_fat` and `read_fat` do not look at a third table. -/
def twoCopies (v : Volume) : Volume := { v with numFats := if 1 < v.numFats then 2 else 1 }

theorem writeFat_twoCopies (c val : Nat) (disk : Disk) : writeFat (twoCopies v) c val disk = writeFat v c val disk := by
  have hn : 1 < (twoCopies v).numFats ↔ 1 < v.numFats := by
    rw [twoCopies]
    split <;> simp [*]
  unfold writeFat
  simp only [hn]
  rfl

theorem Linked.twoCopies_iff : Linked (twoCopies v) disk c a ↔ Linked v disk c a := by
  constructor
  · intro h
    induction h with
    | refl => exact .refl
    | next hl ha ih => exact ih.next ha
  · intro h
    induction h with
    | refl => exact .refl
    | next hl ha ih => exact ih.next ha

/-- Entries of the copies behind the second do not change. -/
theorem Updates.third {g : Nat → Option Nat} (h : Updates (twoCopies v) g disk disk') {k : Nat}
    (hk : (twoCopies v).numFats ≤ k) : fatEntry v disk' k a = fatEntry v disk k a := by
  refine word_congr fun b hb _ => h.outside b fun hin => ?_
  have hmul := Nat.mul_le_mul_right v.fatSz hk
  have hlt : b < 512 * (v.rsvdSecCnt + (twoCopies v).numFats * v.fatSz) := hin.2
  omega

theorem erased_of_apart (hfit : v.rsvdSecCnt + v.numFats * v.fatSz ≤ 2 ^ 32)
    (hrange : ∀ a, 4 * a + 4 ≤ 512 * v.fatSz → InRange v (readFat v.toMount disk a)) (hc : InRange v c)
    (hapart : TablesApart v) :
    ∃ us disk', freeChainLocked v chainFuel c disk = some (us, disk') ∧ Erased v disk c us disk' := by
  have hn : (twoCopies v).numFats = 1 ∨ (twoCopies v).numFats = 2 := by
    rw [twoCopies]
    split <;> simp
  have hin : ∀ a, Linked (twoCopies v) disk c a → InChain a → Inside (twoCopies v) a ∧
      ∀ disk, ((Run.run BufCall.exec (writeFatCalls v a 0) ⟨[], disk⟩).map Locked.disk) =
        some (writeFat (twoCopies v) a 0 disk) := by
    intro a hl ha
    have hentry := ((Linked.twoCopies_iff.mp hl).inRange hc hrange).resolve_right (Nat.not_le.mpr ha.2)
    have htwo : 1 < v.numFats → v.rsvdSecCnt + 2 * v.fatSz ≤ 2 ^ 32 := fun h1 => by
      have := Nat.mul_le_mul_right v.fatSz h1
      omega
    refine ⟨⟨hentry, ha.lt, fun h2 => ?_⟩, fun disk => ?_⟩
    · have h1 : 1 < v.numFats := by
        rw [twoCopies] at h2
        dsimp only at h2
        split at h2
        · assumption
        · omega
      have := htwo h1
      show v.rsvdSecCnt + a / 128 + v.fatSz < 2 ^ 32
      omega
    · rw [writeFat_twoCopies, run_writeFatCalls a 0 fun h1 => ?_]
      · rfl
      · have h2 := htwo h1
        have hmod : uint (a * 4) ≤ a * 4 := Nat.mod_le _ _
        exact hapart.ne h1 (by omega) (by omega) fun hone => by rw [bps]; omega
  obtain ⟨us, disk', hrun, hupd, hus⟩ := freeWith_updates hn hin
  refine ⟨us, disk', hrun, fun a ha => ?_, fun k hk a ha hno => ?_, fun cs hcs a => ?_⟩
  · have hmem := (hus a).mp ha
    have hread := hupd.entry 0 (by omega) a (hin a hmem.2 hmem.1).1.entry
    rw [freed, if_pos hmem, Option.elim_some] at hread
    rw [readFat_entry hmem.1.lt, show fatEntry v disk' 0 a = _ from hread, withLow_mod, Nat.zero_mod]
  · by_cases h2 : k < (twoCopies v).numFats
    · have hread := hupd.entry k h2 a ha
      rwa [freed, if_neg (mt (hus a).mpr hno), Option.elim_none] at hread
    · exact hupd.third (Nat.not_lt.mp h2)
  · rw [hus, Linked.twoCopies_iff, hcs.mem_iff]

end Erase

/-- For every table whose entries lie in the table or are end-of-chain marks, whatever cycles and common parts its
chains have, and every start cluster that is one or the other: `free_chain` ends, the clusters it comes to are free
then, all other entries of all copies are unchanged, and for a proper chain they are its clusters, if and only if
there is nothing to do or no sector of the table shares a block with its copy. -/
theorem free_chain_erases_iff (v : Volume) (disk : Disk) (c : Nat)
    (hfit : v.rsvdSecCnt + v.numFats * v.fatSz ≤ 2 ^ 32)
    (hrange : ∀ a, 4 * a + 4 ≤ 512 * v.fatSz → InRange v (readFat v.toMount disk a)) (hc : InRange v c) :
    (∃ fuel us disk', freeChainLocked v fuel c disk = some (us, disk') ∧ Erased v disk c us disk') ↔
      (InChain c → TablesApart v) := by
  constructor
  · rintro ⟨fuel, us, disk', hrun, -⟩ hin
    by_contra hno
    simp only [TablesApart, not_or, not_and_or, not_not] at hno
    obtain ⟨hn, hbad⟩ := hno
    have hentry := hc.resolve_right (Nat.not_le.mpr hin.2)
    have hmul := Nat.mul_le_mul_right v.fatSz (Nat.not_le.mp hn)
    obtain ⟨hone, heven⟩ : v.fatSz = 1 ∧ v.rsvdSecCnt % 2 ≠ 1 := by omega
    have hnone : Run.run BufCall.exec (writeFatCalls v c 0) ⟨[], disk⟩ = none := by
      apply run_writeFatCalls_self (Nat.not_le.mp hn)
      rw [uint, uint, bps, spb, hone]
      omega
    cases fuel with
    | zero => cases hrun
    | succ fuel =>
      rw [freeChainLocked, freeWith, if_pos (show 2 ≤ c ∧ c < eocMin from hin)] at hrun
      dsimp only at hrun
      rw [hnone] at hrun
      cases hrun
  · intro h
    by_cases hin : InChain c
    · exact ⟨_, erased_of_apart hfit hrange hc (h hin)⟩
    · exact ⟨1, [], disk, if_neg hin, List.forall_mem_nil _, fun _ _ _ _ _ => rfl, fun cs hcs => absurd hcs.head.1 hin⟩

/-- Two tables of one sector behind an odd number of reserved ones, and an empty table but for cluster 2, which links
to itself. -/
theorem own_link_erased : ∃ fuel us disk', freeChainLocked { twoTables with rsvdSecCnt := 33, fatSz := 1 } fuel 2
    (writeFat { twoTables with rsvdSecCnt := 33, fatSz := 1 } 2 2 fun _ _ => 0) = some (us, disk') ∧
      Erased { twoTables with rsvdSecCnt := 33, fatSz := 1 }
        (writeFat { twoTables with rsvdSecCnt := 33, fatSz := 1 } 2 2
        fun _ _ => 0) 2 us disk' := by
  refine (free_chain_erases_iff _ _ 2 (by decide) (fun a ha => .inl ?_) (.inl (by decide))).mpr fun _ => by decide
  have hall : ∀ a < 128, 4 * readFat { twoTables with rsvdSecCnt := 33, fatSz := 1 }.toMount
      (writeFat { twoTables with rsvdSecCnt := 33, fatSz := 1 } 2 2 fun _ _ => 0) a + 4 ≤ 512 := by decide +kernel
  exact hall a (by have : 4 * a + 4 ≤ 512 * 1 := ha; omega)

/-- An empty table of one sector behind 32 reserved ones, and its copy in the same block. -/
theorem one_cluster_hangs : (∀ a, InRange { twoTables with fatSz := 1 } (readFat twoTables.toMount (fun _ _ => 0) a)) ∧
    ∀ fuel, freeChainLocked { twoTables with fatSz := 1 } fuel 2 (fun _ _ => 0) = none := by
  refine ⟨fun a => .inl ?_, fun fuel => ?_⟩
  · have hzero : readFat twoTables.toMount (fun _ _ => 0) a = 0 := rfl
    rw [hzero]
    decide
  · cases fuel with
    | zero => rfl
    | succ fuel =>
      have hnone : Run.run BufCall.exec (writeFatCalls { twoTables with fatSz := 1 } 2 0) ⟨[], fun _ _ => 0⟩ = none :=
        run_writeFatCalls_self (by decide) (by decide)
      rw [freeChainLocked, freeWith, if_pos (by decide)]
      dsimp only
      rw [hnone]
      rfl

end Xv6Vfs.Fat32
