import Mathlib.Data.List.TakeWhile
import Xv6Vfs.Ext2.Driver
import Xv6Vfs.Lib.Tiles

/-! Directory blocks as sequences of slots: what adding and removing an entry does to them. -/
namespace Xv6Vfs.Ext2
open Xv6Vfs.Bytes Xv6Vfs.Vfs

def deName (data : Bytes) (o : Nat) : Name :=
  (List.range (deNameLen data o)).map fun i => data (o + 8 + i)

/-- The offsets of the slots of a directory block. -/
def slots (data : Bytes) : List Nat := cuts (deRecLen data) bsize (bsize + 1) 0

/-- The slots fill the block, an entry fits its slot, and entries in use have a proper name. -/
structure DirBlock (data : Bytes) : Prop where
  tiles : Tiles (deRecLen data) bsize 0 (slots data)
  fits : ∀ a ∈ slots data, entryLen (deNameLen data a) ≤ deRecLen data a
  named : ∀ a ∈ slots data, deInode data a ≠ 0 → goodName (deName data a) = true

/-- The entries in the slots `l`, as inode number and name. -/
def listed (data : Bytes) (l : List Nat) : List (Nat × Name) :=
  (l.filter fun a => deInode data a ≠ 0).map fun a => (deInode data a, deName data a)

def entries (data : Bytes) : List (Nat × Name) := listed data (slots data)

section Fields

variable {data data' : Bytes} {a o inum ftype : Nat} {name : Name} {l : List Nat}

theorem entryLen_bounds (len : Nat) : 8 + len ≤ entryLen len ∧ entryLen len ≤ 8 + len + 3 := by
  unfold entryLen
  omega

theorem deNameLen_lt (data : Bytes) (o : Nat) : deNameLen data o < 256 := (data (o + 6)).toNat_lt

theorem deRecLen_lt (data : Bytes) (o : Nat) : deRecLen data o < 65536 := u16_lt data (o + 4)

@[simp] theorem deName_length (data : Bytes) (o : Nat) : (deName data o).length = deNameLen data o := by
  simp [deName]

/-- A slot is what its bytes say. -/
structure SameSlot (data data' : Bytes) (a : Nat) : Prop where
  inode : deInode data' a = deInode data a
  recLen : deRecLen data' a = deRecLen data a
  nameLen : deNameLen data' a = deNameLen data a
  name : deName data' a = deName data a

theorem SameSlot.of_bytes (h : ∀ j, a ≤ j → j < a + 8 + deNameLen data a → data' j = data j) :
    SameSlot data data' a := by
  have hlen : deNameLen data' a = deNameLen data a := by
    rw [deNameLen, h _ (by omega) (by omega)]
    rfl
  refine ⟨u32_congr fun j h1 h2 => h j h1 (by omega), u16_congr fun j h1 h2 => h j (by omega) (by omega), hlen, ?_⟩
  unfold deName
  rw [hlen]
  apply List.map_congr_left
  intro i hi
  exact h _ (by omega) (by have := List.mem_range.mp hi; omega)

theorem DirBlock.of_tiles (ht : Tiles (deRecLen data) bsize 0 l)
    (hfits : ∀ a ∈ l, entryLen (deNameLen data a) ≤ deRecLen data a)
    (hnamed : ∀ a ∈ l, deInode data a ≠ 0 → goodName (deName data a) = true) : DirBlock data ∧ slots data = l := by
  have hs : slots data = l := ht.cuts_eq (by omega)
  exact ⟨⟨by rw [hs]; exact ht, by rw [hs]; exact hfits, by rw [hs]; exact hnamed⟩, hs⟩

theorem mem_listed {e : Nat × Name} : e ∈ listed data l ↔
    ∃ a ∈ l, deInode data a ≠ 0 ∧ e = (deInode data a, deName data a) := by
  simp only [listed, List.mem_map, List.mem_filter, decide_eq_true_eq]
  constructor
  · rintro ⟨a, ⟨h1, h2⟩, h3⟩
    exact ⟨a, h1, h2, h3.symm⟩
  · rintro ⟨a, h1, h2, h3⟩
    exact ⟨a, ⟨h1, h2⟩, h3.symm⟩

end Fields

section Names

variable {p q : Bytes} {name : Name} {data : Bytes} {a : Nat}

theorem strncmp_iff (n i : Nat) (hp : ∀ j, i ≤ j → j < i + n → p j ≠ 0) :
    strncmp p q n i = true ↔ ∀ j, i ≤ j → j < i + n → p j = q j := by
  induction n generalizing i with
  | zero =>
    refine ⟨fun _ j h1 h2 => by omega, fun _ => rfl⟩
  | succ n ih =>
    have h0 := hp i (Nat.le_refl i) (by omega)
    have hih := ih (i + 1) fun j h1 h2 => hp j (by omega) (by omega)
    unfold strncmp
    by_cases he : p i = q i
    · rw [if_pos ⟨h0, he⟩, hih]
      constructor
      · intro h j h1 h2
        by_cases hj : j = i
        · rw [hj, he]
        · exact h j (by omega) (by omega)
      · intro h j h1 h2
        exact h j (by omega) (by omega)
    · rw [if_neg fun h => he h.2]
      simp only [he, decide_false, Bool.false_eq_true, false_iff]
      exact fun h => he (h i (Nat.le_refl i) (by omega))

theorem goodName_iff : goodName name = true ↔ name ≠ [] ∧ name.length < 256 ∧ 0 ∉ name := by
  simp [goodName]

theorem cstr_eq (h0 : 0 ∉ name) : cstr name = name :=
  List.takeWhile_eq_self_iff.mpr fun c hc => by simpa using ne_of_mem_of_not_mem hc h0

theorem ofList_eq_zero (h0 : 0 ∉ name) (i : Nat) : ofList name i = 0 ↔ name.length ≤ i := by
  unfold ofList
  constructor
  · intro h
    by_contra hlt
    rw [List.getD_eq_getElem _ _ (by omega)] at h
    exact h0 (h ▸ List.getElem_mem _)
  · intro h
    exact List.getD_eq_default _ _ h

/-- The comparison of the scans is equality, if the entry has a proper name. -/
theorem deMatches_eq (hn : goodName (deName data a) = true) (h0 : 0 ∉ name) :
    deMatches data a name = true ↔ deName data a = name := by
  obtain ⟨-, -, hd0⟩ := goodName_iff.mp hn
  have hp : ∀ j, 0 ≤ j → j < 0 + deNameLen data a → drop data (a + 8) j ≠ 0 := by
    intro j _ hj hz
    refine hd0 (List.mem_map.mpr ⟨j, List.mem_range.mpr (by omega), ?_⟩)
    exact hz
  unfold deMatches
  rw [Bool.and_eq_true, strncmp_iff _ _ hp, decide_eq_true_eq, ofList_eq_zero h0]
  constructor
  · rintro ⟨h1, h2⟩
    have hlen : deNameLen data a = name.length := by
      by_contra hne
      have h3 := h1 name.length (by omega) (by omega)
      exact hp name.length (by omega) (by omega) (h3.trans ((ofList_eq_zero h0 _).mpr (Nat.le_refl _)))
    apply List.ext_getElem
    · simp [hlen]
    · intro i h3 h4
      have h5 := h1 i (by omega) (by omega)
      rw [ofList, List.getD_eq_getElem _ _ h4] at h5
      simpa [deName, drop] using h5
  · intro h
    have hlen : deNameLen data a = name.length := by
      rw [← h, deName_length]
    refine ⟨fun j _ hj => ?_, by omega⟩
    have hj' : j < name.length := by omega
    rw [ofList, List.getD_eq_getElem _ _ hj']
    simp only [← h, deName, List.getElem_map, List.getElem_range]
    rfl

end Names

section Edit

variable {data data' : Bytes} {a o inum ftype : Nat} {name : Name} {l : List Nat}

theorem putEntry_out {j : Nat} (h : j < o ∨ o + 8 + name.length ≤ j ∨ o + 4 ≤ j ∧ j < o + 6) :
    putEntry data o inum ftype name j = data j := by
  unfold putEntry put8 put32
  rw [blit_out (by omega), blit_out (by omega), blit_out (by omega), blit_out (by omega)]

@[simp] theorem deRecLen_putEntry : deRecLen (putEntry data o inum ftype name) o = deRecLen data o :=
  u16_congr fun _ h1 h2 => putEntry_out (by omega)

theorem deInode_putEntry (hi : inum < 4294967296) : deInode (putEntry data o inum ftype name) o = inum := by
  unfold deInode putEntry put8
  rw [u32_blit_out (by omega), u32_blit_out (by omega), u32_blit_out (by omega), u32_put32, Nat.mod_eq_of_lt hi]

theorem deNameLen_putEntry (hn : name.length < 256) : deNameLen (putEntry data o inum ftype name) o = name.length := by
  unfold deNameLen putEntry put8
  rw [blit_out (by omega), blit_out (by omega), blit_in (by omega) (by omega), Nat.sub_self, le_toNat]
  simpa using Nat.mod_eq_of_lt hn

theorem deName_putEntry (hn : name.length < 256) : deName (putEntry data o inum ftype name) o = name := by
  unfold deName
  rw [deNameLen_putEntry hn]
  apply List.ext_getElem
  · simp
  · intro i h1 h2
    simp only [List.getElem_map, List.getElem_range]
    rw [putEntry, blit_in (by omega) (by omega), ofList, List.getD_eq_getElem _ _ (by omega)]
    congr 1
    omega

theorem DirBlock.other (h : DirBlock data) (ha : a ∈ slots data) (ho : o ∈ slots data) (hne : a ≠ o)
    (hsame : ∀ j, j < o ∨ o + deRecLen data o ≤ j → data' j = data j) : SameSlot data data' a := by
  apply SameSlot.of_bytes
  intro j h1 h2
  have h3 := h.fits a ha
  have h4 := (entryLen_bounds (deNameLen data a)).1
  have h5 := h.tiles.apart ha ho hne
  exact hsame j (by omega)

section

variable (h : DirBlock data) (ho : o ∈ slots data)
include h ho

theorem DirBlock.edit_slots (hlen : deRecLen data' o = deRecLen data o)
    (hsame : ∀ j, j < o ∨ o + deRecLen data o ≤ j → data' j = data j) :
    slots data' = slots data ∧ ∀ a ∈ slots data, a ≠ o → SameSlot data data' a := by
  have hother : ∀ a ∈ slots data, a ≠ o → SameSlot data data' a := fun a ha hne => h.other ha ho hne hsame
  have ht : Tiles (deRecLen data') bsize 0 (slots data) := h.tiles.congr fun a ha => by
    by_cases he : a = o
    · rw [he, hlen]
    · exact (hother a ha he).recLen
  exact ⟨ht.cuts_eq (by omega), hother⟩

/-- A block in which one slot has changed its content, but not its length. -/
theorem DirBlock.edit (hlen : deRecLen data' o = deRecLen data o)
    (hsame : ∀ j, j < o ∨ o + deRecLen data o ≤ j → data' j = data j)
    (hfits : entryLen (deNameLen data' o) ≤ deRecLen data' o)
    (hnamed : deInode data' o ≠ 0 → goodName (deName data' o) = true) : DirBlock data' := by
  obtain ⟨hslots, hother⟩ := h.edit_slots ho hlen hsame
  refine ⟨?_, ?_, ?_⟩ <;> rw [hslots]
  · apply h.tiles.congr
    intro a ha
    by_cases he : a = o
    · rw [he, hlen]
    · exact (hother a ha he).recLen
  · intro a ha
    by_cases he : a = o
    · rwa [he]
    · rw [(hother a ha he).nameLen, (hother a ha he).recLen]
      exact h.fits a ha
  · intro a ha hin
    by_cases he : a = o
    · rw [he] at hin ⊢
      exact hnamed hin
    · rw [(hother a ha he).name]
      exact h.named a ha ((hother a ha he).inode ▸ hin)

theorem DirBlock.put (hneed : entryLen name.length ≤ deRecLen data o)
    (hg : goodName name = true) (inum ftype : Nat) : DirBlock (putEntry data o inum ftype name) := by
  have hlt := (goodName_iff.mp hg).2.1
  have hlen := (entryLen_bounds name.length).1
  have hrec : deRecLen (putEntry data o inum ftype name) o = deRecLen data o := deRecLen_putEntry
  apply h.edit ho hrec fun j hj => putEntry_out (by omega)
  · rwa [deNameLen_putEntry hlt, hrec]
  · intro _
    rwa [deName_putEntry hlt]

theorem DirBlock.remove : DirBlock (put32 data o 0) := by
  have hout : ∀ j, o + 4 ≤ j → put32 data o 0 j = data j := fun j hj => blit_out (by omega)
  have h8 := (entryLen_bounds (deNameLen data o)).1
  have hfit := h.fits o ho
  have hrec : deRecLen (put32 data o 0) o = deRecLen data o := u16_congr fun j h1 _ => hout j h1
  have hnl : deNameLen (put32 data o 0) o = deNameLen data o := by
    unfold deNameLen
    rw [hout _ (by omega)]
  apply h.edit ho hrec fun j hj => blit_out (by omega)
  · rwa [hnl, hrec]
  · intro hne
    exact absurd (by rw [deInode, u32_put32]) hne

/-- The slot is cut behind its entry, which makes room for another. -/
def cutSlot (data : Bytes) (o : Nat) : Bytes :=
  put16 (put16 data (o + 4) (entryLen (deNameLen data o))) (o + entryLen (deNameLen data o) + 4)
    (deRecLen data o + 65536 - entryLen (deNameLen data o))

omit h ho in
theorem cutSlot_out {j : Nat} (h : j < o + 4 ∨ o + 6 ≤ j ∧ (j < o + entryLen (deNameLen data o) + 4 ∨
    o + entryLen (deNameLen data o) + 6 ≤ j)) : cutSlot data o j = data j := by
  have := (entryLen_bounds (deNameLen data o)).1
  unfold cutSlot put16
  rw [blit_out (by omega), blit_out (by omega)]

omit h ho in
theorem deRecLen_cutSlot : deRecLen (cutSlot data o) o = entryLen (deNameLen data o) := by
  have h1 := entryLen_bounds (deNameLen data o)
  have h2 := deNameLen_lt data o
  unfold deRecLen cutSlot put16
  rw [u16_blit_out (by omega), u16_blit_in (Nat.le_refl _) (Nat.le_refl _), Nat.sub_self, u16_le]
  omega

omit h ho in
theorem deRecLen_cutSlot_new (hlt : entryLen (deNameLen data o) < deRecLen data o) :
    deRecLen (cutSlot data o) (o + entryLen (deNameLen data o)) =
      deRecLen data o - entryLen (deNameLen data o) := by
  have h2 := deRecLen_lt data o
  rw [deRecLen, cutSlot, u16_put16]
  omega

/-- What a block is like after an entry has gone behind the one at `o`: the slot is cut in two, and its first part
has the old entry. -/
structure SplitSlots (data data' : Bytes) (o r : Nat) (u v : List Nat) : Prop where
  before : slots data = u ++ o :: v
  after : slots data' = u ++ o :: (o + r) :: v
  tiles : Tiles (deRecLen data') bsize 0 (slots data')
  other : ∀ a ∈ slots data, a ≠ o → SameSlot data data' a
  inode : deInode data' o = deInode data o
  nameLen : deNameLen data' o = deNameLen data o
  name : deName data' o = deName data o
  first : deRecLen data' o = r
  second : deRecLen data' (o + r) = deRecLen data o - r

theorem DirBlock.split_slots
    (hneed : entryLen (deNameLen data o) + entryLen name.length ≤ deRecLen data o) (inum ftype : Nat) :
    ∃ u v, SplitSlots data (putEntry (cutSlot data o) (o + entryLen (deNameLen data o)) inum ftype name) o
      (entryLen (deNameLen data o)) u v := by
  have h8 := (entryLen_bounds name.length).1
  have hold := (entryLen_bounds (deNameLen data o)).1
  generalize hr : entryLen (deNameLen data o) = r at *
  generalize hd : putEntry (cutSlot data o) (o + r) inum ftype name = data'
  have hout : ∀ j, j < o ∨ o + deRecLen data o ≤ j → data' j = data j := by
    intro j hj
    rw [← hd, putEntry_out (by omega), cutSlot_out (by omega)]
  have hkeep : ∀ j, o ≤ j → j < o + r → ¬ (o + 4 ≤ j ∧ j < o + 6) → data' j = data j := by
    intro j h1 h2 h3
    rw [← hd, putEntry_out (by omega), cutSlot_out (by omega)]
  have hother : ∀ a ∈ slots data, a ≠ o → SameSlot data data' a := fun a ha hne => h.other ha ho hne hout
  have hlen1 : deRecLen data' o = r := by
    rw [← hr, ← deRecLen_cutSlot, ← hd]
    exact u16_congr fun j h1 h2 => putEntry_out (by omega)
  have hlen2 : deRecLen data' (o + r) = deRecLen data o - r := by
    rw [← hd, deRecLen_putEntry, ← hr]
    exact deRecLen_cutSlot_new (by omega)
  have hin : deInode data' o = deInode data o := u32_congr fun j h1 h2 => hkeep j (by omega) (by omega) (by omega)
  have hnl : deNameLen data' o = deNameLen data o := by
    unfold deNameLen
    rw [hkeep _ (by omega) (by omega) (by omega)]
  have hnm : deName data' o = deName data o := by
    unfold deName
    rw [hnl]
    apply List.map_congr_left
    intro i hi
    have := List.mem_range.mp hi
    exact hkeep _ (by omega) (by omega) (by omega)
  obtain ⟨u, v, huv, ht⟩ := h.tiles.split ho (by omega) (by omega) hlen1 hlen2
    fun b hb hne => (hother b hb hne).recLen
  have hslots : slots data' = u ++ o :: (o + r) :: v := ht.cuts_eq (by omega)
  exact ⟨u, v, huv, hslots, by rw [hslots]; exact ht, hother, hin, hnl, hnm, hlen1, hlen2⟩

theorem DirBlock.split
    (hneed : entryLen (deNameLen data o) + entryLen name.length ≤ deRecLen data o) (hg : goodName name = true)
    (inum ftype : Nat) : DirBlock (putEntry (cutSlot data o) (o + entryLen (deNameLen data o)) inum ftype name) := by
  have hlt := (goodName_iff.mp hg).2.1
  obtain ⟨u, v, hs⟩ := h.split_slots ho hneed inum ftype
  generalize hr : entryLen (deNameLen data o) = r at *
  have hnl : deNameLen (putEntry (cutSlot data o) (o + r) inum ftype name) (o + r) = name.length :=
    deNameLen_putEntry hlt
  have hnm : deName (putEntry (cutSlot data o) (o + r) inum ftype name) (o + r) = name := deName_putEntry hlt
  generalize putEntry (cutSlot data o) (o + r) inum ftype name = data' at *
  have hmem : ∀ a ∈ slots data', a = o + r ∨ a = o ∨ a ∈ slots data ∧ a ≠ o := by
    intro a ha
    rw [hs.after] at ha
    rw [hs.before]
    simp only [List.mem_append, List.mem_cons] at ha ⊢
    tauto
  refine ⟨hs.tiles, fun a ha => ?_, fun a ha hne => ?_⟩
  · rcases hmem a ha with rfl | rfl | ⟨h1, h2⟩
    · rw [hnl, hs.second]
      omega
    · rw [hs.nameLen, hs.first, hr]
    · rw [(hs.other a h1 h2).nameLen, (hs.other a h1 h2).recLen]
      exact h.fits a h1
  · rcases hmem a ha with rfl | rfl | ⟨h1, h2⟩
    · rwa [hnm]
    · rw [hs.name]
      exact h.named _ ho (hs.inode ▸ hne)
    · rw [(hs.other a h1 h2).name]
      exact h.named a h1 ((hs.other a h1 h2).inode ▸ hne)

/-- `ext2_dir_add` at a slot does not run out of the block. -/
theorem visitAdd_spec (hg : goodName name = true) {r : Option Bytes}
    (hr : visitAdd name inum ftype data o = some r) : ∃ data', r = some data' ∧ DirBlock data' := by
  have hb := h.tiles.bounds ho
  have hfit := h.fits o ho
  have hlt := deRecLen_lt data o
  unfold visitAdd at hr
  rw [if_neg (by omega)] at hr
  split at hr
  case isTrue hfree =>
    cases hr
    exact ⟨_, rfl, h.put ho hfree.2 hg inum ftype⟩
  case isFalse =>
    split at hr
    case isTrue hroom =>
      have hmod : (deRecLen data o + 4294967296 - entryLen (deNameLen data o)) % 4294967296 =
          deRecLen data o - entryLen (deNameLen data o) := by omega
      have h8 := (entryLen_bounds name.length).1
      rw [hmod] at hroom
      cases hr
      exact ⟨_, rfl, h.split ho (by omega) hg inum ftype⟩
    case isFalse => cases hr

end

theorem blankBlock_spec : DirBlock (put16 (fun _ => 0) 4 bsize) ∧ slots (put16 (fun _ => 0) 4 bsize) = [0] ∧
    deInode (put16 (fun _ => 0) 4 bsize) 0 = 0 ∧ deRecLen (put16 (fun _ => 0) 4 bsize) 0 = bsize := by
  have hrec : deRecLen (put16 (fun _ => 0) 4 bsize) 0 = bsize := by
    rw [deRecLen, Nat.zero_add, u16_put16]
    rfl
  have hin : deInode (put16 (fun _ => 0) 4 bsize) 0 = 0 := by
    rw [deInode, put16, u32_blit_out (by omega)]
    rfl
  have hnl : deNameLen (put16 (fun _ => 0) 4 bsize) 0 = 0 := by
    rw [deNameLen, put16, blit_out (by omega)]
    rfl
  have ht : Tiles (deRecLen (put16 (fun _ => 0) 4 bsize)) bsize 0 [0] := by
    apply Tiles.cons
    · rw [hrec]
      decide
    · rw [hrec]
      exact Tiles.done
  obtain ⟨hblock, hslots⟩ := DirBlock.of_tiles ht
    (fun a ha => by
      rw [List.mem_singleton.mp ha, hnl, hrec]
      decide)
    (fun a ha hne => by
      rw [List.mem_singleton.mp ha] at hne
      exact absurd hin hne)
  exact ⟨hblock, hslots, hin, hrec⟩

theorem entryLen_le_bsize (hlt : name.length < 256) : entryLen name.length ≤ bsize := by
  have hlen := (entryLen_bounds name.length).2
  unfold bsize
  omega

theorem freshDirBlock_spec (hg : goodName name = true) (inum ftype : Nat) :
    DirBlock (freshDirBlock name inum ftype) := by
  obtain ⟨hblock, hslots, -, hrec⟩ := blankBlock_spec
  have hneed : entryLen name.length ≤ deRecLen (put16 (fun _ => 0) 4 bsize) 0 := by
    rw [hrec]
    exact entryLen_le_bsize (goodName_iff.mp hg).2.1
  exact hblock.put (by rw [hslots]; exact List.mem_singleton_self 0) hneed hg inum ftype

end Edit

/-- The loop over a directory block ends at the first slot with an answer, or behind the block. -/
theorem scanBlock_eq {α : Type} {data : Bytes} {visit : Nat → Option α} {o fuel : Nat} {l : List Nat}
    (h : Tiles (deRecLen data) bsize o l) (hf : bsize < o + fuel) (off : Nat) :
    scanBlock data visit fuel o off =
      some (match l.findSome? visit with
        | some a => .inl a
        | none => .inr (off + (bsize - o))) := by
  induction h generalizing fuel off with
  | done =>
    cases fuel with
    | zero => omega
    | succ fuel => simp [scanBlock]
  | @cons o l hpos ht ih =>
    cases fuel with
    | zero =>
      have := ht.le
      omega
    | succ fuel =>
      have hle := ht.le
      rw [scanBlock, if_pos (by omega), List.findSome?_cons]
      cases visit o with
      | some a => rfl
      | none =>
        rw [ih (by omega)]
        have : off + deRecLen data o + (bsize - (o + deRecLen data o)) = off + (bsize - o) := by omega
        rw [this]

end Xv6Vfs.Ext2
