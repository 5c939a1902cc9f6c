import Mathlib.Algebra.BigOperators.Group.Multiset.Basic
import Mathlib.Algebra.BigOperators.Group.Finset.Basic
import Mathlib.Algebra.Order.Group.Multiset
import Xv6Vfs.Ext2.BlockMap
import Xv6Vfs.Ext2.Slots

/-! Inodes in the abstract: the copy on disk, the vnode with its own copy, and the data by logical
block; a directory as the collection of its entries. -/
namespace Xv6Vfs.Ext2
open Xv6Vfs.Bytes Xv6Vfs.Vfs

variable {k o : Nat} {data : Bytes}

/-- The vnode of an inode: its slot, its references, and what its copy of the inode has of its
own. -/
structure Vn where
  slot : Nat
  ref : Nat
  links : Nat
  dirty : Bool
  orphaned : Bool

/-- `links` is the count on disk; size and data are those of the vnode if there is one. -/
structure Ino where
  mode : Nat
  links : Nat
  size : Nat
  blocks : Nat → Option Bytes
  vn : Option Vn

/-- The allocated inodes. -/
abbrev Abs := Nat → Option Ino

def modeKind (mode : Nat) : Kind :=
  if mode &&& 0xF000 = 0x4000 then .dir
  else if mode &&& 0xF000 = 0x2000 ∨ mode &&& 0xF000 = 0x6000 then .dev
  else .file

theorem kindOf_eq (ino : Bytes) : kindOf ino = modeKind (iMode ino) := by
  simp [kindOf, modeKind, isDir, isDev]

def Ino.kind (x : Ino) : Kind := modeKind x.mode

def Ino.block (x : Ino) (k : Nat) : Bytes := (x.blocks k).getD fun _ => 0

/-- A directory consists of whole blocks, all of them in order. -/
structure DirOk (x : Ino) : Prop where
  whole : x.size % bsize = 0
  there : ∀ k < x.size / bsize, x.blocks k ≠ none
  block : ∀ k < x.size / bsize, DirBlock (x.block k)

/-- The entries of a directory. -/
def Ino.ents (x : Ino) : Multiset (Nat × Name) :=
  ∑ k ∈ Finset.range (x.size / bsize), (entries (x.block k) : Multiset (Nat × Name))

section Entries

variable {x : Ino} {e : Nat × Name} {k : Nat} {data : Bytes}

theorem mem_ents : e ∈ x.ents ↔ ∃ k < x.size / bsize, e ∈ entries (x.block k) := by
  simp [Ino.ents, Multiset.mem_sum]

theorem DirOk.congr {x' : Ino} (h : DirOk x) (hs : x'.size = x.size)
    (hb : ∀ k < x.size / bsize, x'.blocks k = x.blocks k) : DirOk x' ∧ x'.ents = x.ents := by
  have hblock : ∀ k < x.size / bsize, x'.block k = x.block k := by
    intro k hk
    unfold Ino.block
    rw [hb k hk]
  refine ⟨⟨by rw [hs, h.whole], fun k hk => ?_, fun k hk => ?_⟩, ?_⟩
  · rw [hs] at hk
    rw [hb k hk]
    exact h.there k hk
  · rw [hs] at hk
    rw [hblock k hk]
    exact h.block k hk
  · unfold Ino.ents
    rw [hs]
    apply Finset.sum_congr rfl
    intro k hk
    rw [hblock k (Finset.mem_range.mp hk)]

/-- One block of the data is replaced. -/
def Ino.setBlock (x : Ino) (k : Nat) (data : Bytes) : Ino :=
  { x with blocks := Function.update x.blocks k (some data) }

theorem block_setBlock (x : Ino) (k j : Nat) (data : Bytes) :
    (x.setBlock k data).block j = if j = k then data else x.block j := by
  unfold Ino.setBlock Ino.block
  by_cases h : j = k
  · simp [h]
  · simp [h]

theorem DirOk.setBlock (h : DirOk x) (hd : DirBlock data) (k : Nat) : DirOk (x.setBlock k data) where
  whole := h.whole
  there := by
    intro j hj
    unfold Ino.setBlock
    by_cases he : j = k
    · simp [he]
    · simpa [he] using h.there j hj
  block := by
    intro j hj
    rw [block_setBlock]
    split
    · exact hd
    · exact h.block j hj

/-- One more block at the end. -/
def Ino.append (x : Ino) (data : Bytes) : Ino :=
  { x with
    size := x.size + bsize
    blocks := Function.update x.blocks (x.size / bsize) (some data) }

theorem append_nblocks (h : DirOk x) : (x.append data).size / bsize = x.size / bsize + 1 := by
  have := h.whole
  show (x.size + bsize) / bsize = x.size / bsize + 1
  unfold bsize at *
  omega

theorem block_append (x : Ino) (j : Nat) (data : Bytes) :
    (x.append data).block j = if j = x.size / bsize then data else x.block j := by
  unfold Ino.append Ino.block
  by_cases h : j = x.size / bsize
  · simp [h]
  · simp [h]

theorem DirOk.append (h : DirOk x) (hd : DirBlock data) : DirOk (x.append data) where
  whole := by
    have := h.whole
    show (x.size + bsize) % bsize = 0
    unfold bsize at *
    omega
  there := by
    intro j hj
    rw [append_nblocks h] at hj
    unfold Ino.append
    by_cases he : j = x.size / bsize
    · simp [he]
    · simpa [he] using h.there j (by omega)
  block := by
    intro j hj
    rw [append_nblocks h] at hj
    rw [block_append]
    split
    · exact hd
    · exact h.block j (by omega)

end Entries

section Walks

variable {α : Type} {fs : Fs} {n held : Nat} {p : Priv} {x : Ino}

/-- The blocks of an inode are those of `x`. -/
structure Shows (fs : Fs) (ino : Bytes) (x : Ino) : Prop where
  size : iSize ino = x.size
  blocks : ∀ k, x.blocks k =
    if lbnBlock fs ino k = 0 then none else some (fs.disk (lbnBlock fs ino k))

theorem Shows.block (h : Shows fs p.ino x) (k : Nat) (hk : x.blocks k ≠ none) :
    lbnBlock fs p.ino k ≠ 0 ∧ fs.disk (lbnBlock fs p.ino k) = x.block k := by
  have hb := h.blocks k
  by_cases h0 : lbnBlock fs p.ino k = 0
  · rw [if_pos h0] at hb
    exact absurd hb hk
  · rw [if_neg h0] at hb
    refine ⟨h0, ?_⟩
    rw [Ino.block, hb]
    rfl

/-- A walk over a directory ends at the first slot with an answer, or behind the last block. -/
theorem dirWalk_spec (hs : Shows fs p.ino x) (hd : DirOk x) (visit : Bytes → Nat → Option α) (fuel k : Nat)
    (hf : x.size / bsize < k + fuel) (hk : k ≤ x.size / bsize) :
    (∃ j a, k ≤ j ∧ j < x.size / bsize ∧ (slots (x.block j)).findSome? (visit (x.block j)) = some a ∧
      dirWalk fs p visit fuel (k * bsize) = some (.hit (lbnBlock fs p.ino j) a)) ∨
    (∀ j, k ≤ j → j < x.size / bsize → (slots (x.block j)).findSome? (visit (x.block j)) = none) ∧
      dirWalk fs p visit fuel (k * bsize) = some (.done x.size) := by
  have hwhole := hd.whole
  have hsize : x.size = x.size / bsize * bsize := by
    unfold bsize at *
    omega
  induction fuel generalizing k with
  | zero => omega
  | succ fuel ih =>
    unfold dirWalk
    by_cases hlt : k < x.size / bsize
    · have hoff : k * bsize < iSize p.ino := by
        rw [hs.size]
        unfold bsize at *
        omega
      have hdiv : k * bsize / bsize = k := by
        unfold bsize
        omega
      have hmod : k * bsize % bsize = 0 := by
        unfold bsize
        omega
      obtain ⟨h0, hdata⟩ := hs.block k (hd.there k hlt)
      rw [if_pos hoff]
      simp only [bmap_false, hdiv, hmod, h0, if_false, hdata]
      rw [scanBlock_eq (hd.block k hlt).tiles (by omega)]
      cases hfind : (slots (x.block k)).findSome? (visit (x.block k)) with
      | some a => exact .inl ⟨k, a, Nat.le_refl k, hlt, hfind, rfl⟩
      | none =>
        have hnext : k * bsize + (bsize - 0) = (k + 1) * bsize := by
          unfold bsize
          omega
        simp only [Option.bind_some, hnext]
        rcases ih (k + 1) (by omega) (by omega) with ⟨j, a, h1, h2, h3, h4⟩ | ⟨h1, h2⟩
        · exact .inl ⟨j, a, by omega, h2, h3, h4⟩
        · refine .inr ⟨fun j h3 h4 => ?_, h2⟩
          by_cases he : j = k
          · rwa [he]
          · exact h1 j (by omega) h4
    · have hend : k * bsize = x.size := by
        have : k = x.size / bsize := by omega
        rw [this]
        exact hsize.symm
      rw [if_neg (by rw [hs.size]; omega), hend]
      exact .inr ⟨fun j h1 h2 => by omega, rfl⟩

def dotty (name : Name) : Prop := name = dot ∨ name = dotdot

theorem deName_one (h : deNameLen data o = 1) (h1 : data (o + 8) = 46) : deName data o = dot := by
  simp [deName, h, h1, dot, List.range_succ]

theorem deName_two (h : deNameLen data o = 2) (h1 : data (o + 8) = 46) (h2 : data (o + 9) = 46) :
    deName data o = dotdot := by
  simp [deName, h, h1, h2, dotdot, List.range_succ]

/-- The slots of a list hold nothing but "." and "..". -/
def OnlyDots (data : Bytes) (l : List Nat) : Prop := ∀ a ∈ l, deInode data a ≠ 0 → dotty (deName data a)

theorem next_entry (hs : Shows fs p.ino x) {a : Nat} (hk : k < x.size / bsize) (ha : a ≤ bsize) :
    (k * bsize + a) % 2 ^ 32 = k * bsize + a := by
  have hlt : x.size < 4294967296 := hs.size ▸ u32_lt _ _
  rw [bsize] at *
  omega

theorem emptyLoop_from (hs : Shows fs p.ino x) (hd : DirOk x) (fuel : Nat) {l : List Nat} (hk : k < x.size / bsize)
    (ho : o < bsize) (ht : Tiles (deRecLen (x.block k)) bsize o l)
    (h : emptyLoop fs p held fuel (k * bsize + o) = some true) :
    OnlyDots (x.block k) l ∧ ∀ j, k < j → j < x.size / bsize → OnlyDots (x.block j) (slots (x.block j)) := by
  induction fuel generalizing k o l with
  | zero => cases h
  | succ fuel ih =>
    have hwhole := hd.whole
    have hoff : k * bsize + o < iSize p.ino := by
      rw [hs.size]
      unfold bsize at *
      omega
    have hdiv : (k * bsize + o) / bsize = k := by
      unfold bsize at *
      omega
    have hmod : (k * bsize + o) % bsize = o := by
      unfold bsize at *
      omega
    obtain ⟨-, hdata⟩ := hs.block k (hd.there k hk)
    unfold emptyLoop at h
    rw [if_pos hoff] at h
    split at h
    · cases h
    simp only [bmap_false, hdiv, hmod, hdata] at h
    cases ht with
    | done => omega
    | @cons _ l hpos ht =>
      split at h
      · cases h
      case isFalse hdots =>
        have hhead : deInode (x.block k) o ≠ 0 → dotty (deName (x.block k) o) := by
          intro h0
          by_cases h1 : deNameLen (x.block k) o = 1 ∧ x.block k (o + 8) = 46
          · exact .inl (deName_one h1.1 h1.2)
          · by_cases h2 : deNameLen (x.block k) o = 2 ∧ x.block k (o + 8) = 46 ∧ x.block k (o + 9) = 46
            · exact .inr (deName_two h2.1 h2.2.1 h2.2.2)
            · exact absurd ⟨h0, h1, h2⟩ hdots
        have hcons : OnlyDots (x.block k) l → OnlyDots (x.block k) (o :: l) := by
          intro hl a ha
          cases ha with
          | head => exact hhead
          | tail _ ha => exact hl a ha
        have hle := ht.le
        rw [Nat.add_assoc, next_entry hs hk hle] at h
        by_cases hend : o + deRecLen (x.block k) o < bsize
        · obtain ⟨h1, h2⟩ := ih hk hend ht h
          exact ⟨hcons h1, h2⟩
        · -- The last slot of the block: the loop goes on with the next block.
          have he : o + deRecLen (x.block k) o = bsize := by omega
          rw [he] at ht h
          have hl : l = [] := ht.unique Tiles.done
          have hone : OnlyDots (x.block k) (o :: l) := hcons (by rw [hl]; intro a ha; cases ha)
          refine ⟨hone, fun j h1 h2 => ?_⟩
          have hnext : k * bsize + bsize = (k + 1) * bsize + 0 := by
            unfold bsize
            omega
          rw [hnext] at h
          obtain ⟨h3, h4⟩ := ih (by omega) (by decide) (hd.block (k + 1) (by omega)).tiles h
          by_cases hj : j = k + 1
          · rwa [hj]
          · exact h4 j (by omega) h2

/-- `ext2_unlink` takes a directory for empty if there is nothing in it but "." and "..". -/
theorem emptyLoop_spec (hs : Shows fs p.ino x) (hd : DirOk x) {fuel : Nat}
    (h : emptyLoop fs p held fuel 0 = some true) : ∀ e ∈ x.ents, dotty e.2 := by
  intro e he
  obtain ⟨k, hk, hm⟩ := mem_ents.mp he
  obtain ⟨a, ha, h0, rfl⟩ := mem_listed.mp hm
  have h0k : 0 < x.size / bsize := by omega
  obtain ⟨h1, h2⟩ := emptyLoop_from hs hd fuel h0k (by decide) (hd.block 0 h0k).tiles
    (by rw [Nat.zero_mul]; exact h)
  by_cases hz : k = 0
  · subst hz
    exact h1 a ha h0
  · exact h2 k (by omega) hk a ha h0

end Walks

end Xv6Vfs.Ext2
