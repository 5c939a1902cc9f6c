import Xv6Vfs.Ext2.Unlinked
import Xv6Vfs.Lib.Index

/-! A directory as a table: the places are byte offsets, and each holds an entry or nothing. -/
namespace Xv6Vfs.Ext2
open Xv6Vfs.Bytes Xv6Vfs.Vfs Function List

variable {v : Vn} {x : Ino} {ok : Bool} {name : Name} {i : Nat × Name}

/-- The entry at offset `a` of a block. -/
def entryAt (data : Bytes) (a : Nat) : Option (Nat × Name) :=
  if a ∈ slots data ∧ deInode data a ≠ 0 then some (deInode data a, deName data a) else none

def Aligned (data : Bytes) : Prop := ∀ a ∈ slots data, deRecLen data a % 4 = 0

/-- One place of a block changes, and slots may be cut, but not moved or joined. -/
structure BlockEdit (data data' : Bytes) (o : Nat) (e : Option (Nat × Name)) : Prop where
  slots : ∀ a ∈ slots data, a ∈ slots data'
  entry : ∀ a, entryAt data' a = if a = o then e else entryAt data a
  aligned : Aligned data → Aligned data'

section Blocks

variable {data data' : Bytes} {a o inum ftype : Nat} {name : Name}

theorem entryAt_some_iff {e : Nat × Name} : entryAt data a = some e ↔
    a ∈ slots data ∧ deInode data a ≠ 0 ∧ e = (deInode data a, deName data a) := by
  rw [entryAt]
  split
  · rename_i h
    rw [Option.some.injEq]
    exact ⟨fun he => ⟨h.1, h.2, he.symm⟩, fun he => he.2.2.symm⟩
  · rename_i h
    constructor
    · intro he
      cases he
    · intro he
      exact absurd ⟨he.1, he.2.1⟩ h

theorem entryAt_congr (hs : a ∈ slots data' ↔ a ∈ slots data) (h : SameSlot data data' a) :
    entryAt data' a = entryAt data a := by
  rw [entryAt, entryAt, h.inode, h.name]
  simp only [hs]

theorem entryLen_aligned (len : Nat) : entryLen len % 4 = 0 := by
  rw [entryLen]
  omega

section

variable (h : DirBlock data) (ho : o ∈ slots data)
include h ho

theorem DirBlock.blockEdit (hlen : deRecLen data' o = deRecLen data o)
    (hsame : ∀ j, j < o ∨ o + deRecLen data o ≤ j → data' j = data j) : BlockEdit data data' o (entryAt data' o) := by
  rcases h.edit_slots ho hlen hsame with ⟨hslots, hother⟩
  refine ⟨fun a ha => by rw [hslots]; exact ha, fun a => ?_, fun hal a ha => ?_⟩
  · by_cases hao : a = o
    · rw [hao, if_pos rfl]
    · rw [if_neg hao]
      by_cases ha : a ∈ slots data
      · exact entryAt_congr (by rw [hslots]) (hother a ha hao)
      · rw [entryAt, entryAt, hslots, if_neg fun hm => ha hm.1, if_neg fun hm => ha hm.1]
  · rw [hslots] at ha
    by_cases hao : a = o
    · rw [hao, hlen]
      exact hal o ho
    · rw [(hother a ha hao).recLen]
      exact hal a ha

theorem DirBlock.remove_edit : BlockEdit data (put32 data o 0) o none := by
  have h8 := (entryLen_bounds (deNameLen data o)).1
  have hfit := h.fits o ho
  have hrec : deRecLen (put32 data o 0) o = deRecLen data o := u16_congr fun j _ _ => blit_out (by omega)
  have hz : deInode (put32 data o 0) o = 0 := by
    rw [deInode, u32_put32]
  have hedit := @DirBlock.blockEdit data (put32 data o 0) o h ho hrec fun j hj => blit_out (by omega)
  rwa [show entryAt (put32 data o 0) o = none from if_neg fun hm => hm.2 hz] at hedit

theorem DirBlock.put_edit (hneed : entryLen name.length ≤ deRecLen data o)
    (hi : inum < 4294967296) (hpos : inum ≠ 0) (hlt : name.length < 256) (ftype : Nat) :
    BlockEdit data (putEntry data o inum ftype name) o (some (inum, name)) := by
  have hlen := (entryLen_bounds name.length).1
  have hsame : ∀ j, j < o ∨ o + deRecLen data o ≤ j → putEntry data o inum ftype name j = data j :=
    fun j hj => putEntry_out (by omega)
  have hin : deInode (putEntry data o inum ftype name) o = inum := deInode_putEntry hi
  have hedit := h.blockEdit ho deRecLen_putEntry hsame
  have hmem := hedit.slots o ho
  have hnew : entryAt (putEntry data o inum ftype name) o = some (inum, name) := by
    rw [entryAt, if_pos ⟨hmem, by rw [hin]; exact hpos⟩, hin, deName_putEntry hlt]
  rwa [hnew] at hedit

theorem DirBlock.split_edit
    (hneed : entryLen (deNameLen data o) + entryLen name.length ≤ deRecLen data o) (hi : inum < 4294967296)
    (hpos : inum ≠ 0) (hlt : name.length < 256) (ftype : Nat) : entryAt data (o + entryLen (deNameLen data o)) = none ∧
      BlockEdit data (putEntry (cutSlot data o) (o + entryLen (deNameLen data o)) inum ftype name)
        (o + entryLen (deNameLen data o)) (some (inum, name)) := by
  have h8 := (entryLen_bounds name.length).1
  have hold := (entryLen_bounds (deNameLen data o)).1
  have haln := entryLen_aligned (deNameLen data o)
  rcases h.split_slots ho hneed inum ftype with ⟨u, v, hs⟩
  generalize entryLen (deNameLen data o) = r at *
  have hin : deInode (putEntry (cutSlot data o) (o + r) inum ftype name) (o + r) = inum := deInode_putEntry hi
  have hnm : deName (putEntry (cutSlot data o) (o + r) inum ftype name) (o + r) = name := deName_putEntry hlt
  generalize putEntry (cutSlot data o) (o + r) inum ftype name = data' at *
  have hmem : ∀ a, a ∈ slots data' ↔ a = o + r ∨ a ∈ slots data := by
    intro a
    rw [hs.after, hs.before]
    simp only [mem_append, mem_cons]
    tauto
  -- the new slot begins within the old one
  have hnot : o + r ∉ slots data := by
    intro hm
    have hap := h.tiles.apart ho hm (by omega)
    omega
  refine ⟨if_neg fun hm => hnot hm.1, fun a ha => (hmem a).mpr (.inr ha), fun a => ?_, fun hal a ha => ?_⟩
  · by_cases har : a = o + r
    · subst har
      rw [if_pos rfl, entryAt, if_pos ⟨(hmem _).mpr (.inl rfl), by rw [hin]; exact hpos⟩, hin, hnm]
    · have hiff : a ∈ slots data' ↔ a ∈ slots data := by
        rw [hmem]
        exact or_iff_right har
      rw [if_neg har]
      by_cases hao : a = o
      · subst hao
        rw [entryAt, entryAt, hs.inode, hs.name]
        simp only [hiff]
      · by_cases ha : a ∈ slots data
        · exact entryAt_congr hiff (hs.other a ha hao)
        · rw [entryAt, entryAt, if_neg fun hm => ha (hiff.mp hm.1), if_neg fun hm => ha hm.1]
  · cases (hmem a).mp ha with
    | inl har =>
      have ho4 := hal o ho
      rw [har, hs.second]
      omega
    | inr ha =>
      by_cases hao : a = o
      · rwa [hao, hs.first]
      · rw [(hs.other a ha hao).recLen]
        exact hal a ha

/-- `ext2_dir_add` at a slot: a free place of the block gets the entry. -/
theorem visitAdd_edit (hi : inum < 4294967296) (hpos : inum ≠ 0)
    (hlt : name.length < 256) (hr : visitAdd name inum ftype data o = some (some data')) :
    ∃ a < bsize, entryAt data a = none ∧ BlockEdit data data' a (some (inum, name)) := by
  have hb := h.tiles.bounds ho
  have hfit := h.fits o ho
  have hlen := deRecLen_lt data o
  have h8 := (entryLen_bounds name.length).1
  rw [visitAdd, if_neg (by omega)] at hr
  split at hr
  · rename_i hfree
    cases hr
    exact ⟨o, by omega, if_neg fun hm => hm.2 hfree.1, h.put_edit ho hfree.2 hi hpos hlt ftype⟩
  · split at hr
    · rename_i hroom
      have hmod : (deRecLen data o + 4294967296 - entryLen (deNameLen data o)) % 4294967296 =
          deRecLen data o - entryLen (deNameLen data o) := by omega
      rw [hmod] at hroom
      cases hr
      exact ⟨_, by omega, h.split_edit ho (by omega) hi hpos hlt ftype⟩
    · cases hr

end

theorem DirBlock.zero_mem (h : DirBlock data) : 0 ∈ slots data := by
  cases h.tiles with
  | cons hpos ht => exact mem_cons_self

/-- A fresh block of a directory has its entry at the beginning. -/
theorem freshDirBlock_edit (hi : inum < 4294967296) (hpos : inum ≠ 0) (hlt : name.length < 256) (ftype : Nat) :
    (∀ a, entryAt (freshDirBlock name inum ftype) a = if a = 0 then some (inum, name) else none) ∧
      0 ∈ slots (freshDirBlock name inum ftype) ∧ Aligned (freshDirBlock name inum ftype) := by
  rcases blankBlock_spec with ⟨hblock, hslots, hin, hrec⟩
  have h0 : 0 ∈ slots (put16 (fun _ => 0) 4 bsize) := by
    rw [hslots]
    exact mem_singleton_self 0
  have hedit := hblock.put_edit h0 (by rw [hrec]; exact entryLen_le_bsize hlt) hi hpos hlt ftype
  have hblank : ∀ a, entryAt (put16 (fun _ => 0) 4 bsize) a = none := by
    intro a
    rw [entryAt, hslots]
    refine if_neg fun hm => hm.2 ?_
    rw [mem_singleton.mp hm.1, hin]
  refine ⟨fun a => ?_, hedit.slots 0 h0, hedit.aligned fun a ha => ?_⟩
  · rw [freshDirBlock, hedit.entry, hblank]
  · rw [hslots] at ha
    rw [mem_singleton.mp ha, hrec]
    rfl

end Blocks

/-! ### Directories -/

/-- The entry at byte `p`. -/
def Ino.entry (x : Ino) (p : Nat) : Option (Nat × Name) :=
  if p / bsize < x.size / bsize then entryAt (x.block (p / bsize)) (p % bsize) else none

/-- At byte `p` a slot begins, or the directory ends. -/
def Ino.Bound (x : Ino) (p : Nat) : Prop := p ≤ x.size ∧ (p < x.size → p % bsize ∈ slots (x.block (p / bsize)))

/-- Slots are cut or added, but not moved or joined. -/
structure Finer (x x' : Ino) : Prop where
  bound : ∀ p, x.Bound p → x'.Bound p
  aligned : (∀ k < x.size / bsize, Aligned (x.block k)) → ∀ k < x'.size / bsize, Aligned (x'.block k)

section Directory

variable {x x' : Ino} {k a p : Nat} {data : Bytes} {e : Option (Nat × Name)}

theorem place_div (ha : a < bsize) : (k * bsize + a) / bsize = k := by
  rw [bsize] at *
  omega

theorem place_mod (ha : a < bsize) : (k * bsize + a) % bsize = a := by
  rw [bsize] at *
  omega

theorem place_iff (ha : a < bsize) : p = k * bsize + a ↔ p / bsize = k ∧ p % bsize = a := by
  rw [bsize] at *
  omega

theorem DirBlock.slot_lt (h : DirBlock data) (ha : a ∈ slots data) : a < bsize := by
  have hb := h.tiles.bounds ha
  omega

theorem entry_place (hk : k < x.size / bsize) (ha : a < bsize) : x.entry (k * bsize + a) = entryAt (x.block k) a := by
  rw [Ino.entry, place_div ha, place_mod ha, if_pos hk]

theorem mem_ents_iff (hd : DirOk x) : i ∈ x.ents ↔ ∃ p, x.entry p = some i := by
  rw [mem_ents]
  constructor
  · rintro ⟨k, hk, hi⟩
    rcases mem_listed.mp hi with ⟨a, ha, h0, hi⟩
    refine ⟨k * bsize + a, ?_⟩
    rw [entry_place hk ((hd.block k hk).slot_lt ha)]
    exact entryAt_some_iff.mpr ⟨ha, h0, hi⟩
  · rintro ⟨p, hp⟩
    rw [Ino.entry] at hp
    split at hp
    · rename_i hk
      rcases entryAt_some_iff.mp hp with ⟨ha, h0, hi⟩
      exact ⟨p / bsize, hk, mem_listed.mpr ⟨p % bsize, ha, h0, hi⟩⟩
    · cases hp

theorem lt_size_iff (hd : DirOk x) : p < x.size ↔ p / bsize < x.size / bsize := by
  have hwhole := hd.whole
  rw [bsize] at *
  omega

theorem finer_of_same (hd : DirOk x) (hs : x'.size = x.size) (hb : ∀ k < x.size / bsize, x'.block k = x.block k) :
    Finer x x' ∧ x'.entry = x.entry := by
  refine ⟨⟨fun p hp => ⟨by rw [hs]; exact hp.1, fun hlt => ?_⟩, fun hal k hk => ?_⟩, funext fun p => ?_⟩
  · rw [hs] at hlt
    rw [hb _ ((lt_size_iff hd).mp hlt)]
    exact hp.2 hlt
  · rw [hs] at hk
    rw [hb k hk]
    exact hal k hk
  · rw [Ino.entry, Ino.entry, hs]
    by_cases hk : p / bsize < x.size / bsize
    · rw [if_pos hk, if_pos hk, hb _ hk]
    · rw [if_neg hk, if_neg hk]

theorem setBlock_places (hk : k < x.size / bsize) (ha : a < bsize) (hb : BlockEdit (x.block k) data a e) :
    Finer x (x.setBlock k data) ∧ (x.setBlock k data).entry = update x.entry (k * bsize + a) e := by
  refine ⟨⟨fun p hp => ⟨hp.1, fun hlt => ?_⟩, fun hal j hj => ?_⟩, funext fun p => ?_⟩
  · have hm := hp.2 hlt
    rw [block_setBlock]
    split
    · rename_i hpk
      rw [hpk] at hm
      exact hb.slots _ hm
    · exact hm
  · rw [block_setBlock]
    split
    · exact hb.aligned (hal k hk)
    · exact hal j hj
  · have hsize : (x.setBlock k data).size = x.size := rfl
    rw [Ino.entry, hsize, block_setBlock]
    by_cases hpk : p / bsize = k
    · rw [if_pos (hpk ▸ hk), if_pos hpk, hb.entry]
      by_cases hpa : p % bsize = a
      · rw [if_pos hpa, (place_iff ha).mpr ⟨hpk, hpa⟩, update_self]
      · rw [if_neg hpa, update_of_ne fun he => hpa ((place_iff ha).mp he).2, Ino.entry, if_pos (hpk ▸ hk), hpk]
    · rw [if_neg hpk, update_of_ne fun he => hpk ((place_iff ha).mp he).1, Ino.entry]

theorem append_places (hd : DirOk x) (he : ∀ a, entryAt data a = if a = 0 then some i else none) (h0 : 0 ∈ slots data)
    (hal : Aligned data) :
    Finer x (x.append data) ∧ x.entry x.size = none ∧
      (x.append data).entry = update x.entry x.size (some i) := by
  have hwhole := hd.whole
  have hn := @append_nblocks x data hd
  have hend : x.size / bsize * bsize + 0 = x.size := by
    rw [bsize] at *
    omega
  have hsize : (x.append data).size = x.size + bsize := rfl
  refine ⟨⟨fun p hp => ⟨by rw [hsize]; exact Nat.le_add_right_of_le hp.1, fun _ => ?_⟩, fun hall j hj => ?_⟩, ?_,
    funext fun p => ?_⟩
  · rw [block_append]
    split
    · rename_i hpk
      have hple := hp.1
      have hmod : p % bsize = 0 := by
        rw [bsize] at *
        omega
      rwa [hmod]
    · rename_i hpk
      have hple := hp.1
      apply hp.2
      rw [bsize] at *
      omega
  · rw [hn] at hj
    rw [block_append]
    split
    · exact hal
    · exact hall j (by omega)
  · rw [Ino.entry, if_neg (by omega)]
  · rw [Ino.entry, hn, block_append]
    by_cases hpk : p / bsize = x.size / bsize
    · rw [if_pos (by omega), if_pos hpk, he]
      by_cases hp0 : p % bsize = 0
      · rw [if_pos hp0, show p = x.size from hend ▸ (place_iff (by decide)).mpr ⟨hpk, hp0⟩, update_self]
      · rw [if_neg hp0, update_of_ne, Ino.entry, if_neg (by omega)]
        rintro rfl
        exact hp0 hwhole
    · rw [if_neg hpk, update_of_ne fun h => hpk (by rw [h]), Ino.entry]
      by_cases hlt : p / bsize < x.size / bsize
      · rw [if_pos (by omega), if_pos hlt]
      · rw [if_neg (by omega), if_neg hlt]

end Directory

/-! ### What the operations do to the table -/

/-- The entry `e` is new in the directory, or nothing changes. -/
def Inserts (x x' : Ino) (e : Nat × Name) : Bool → Prop
  | true => ∃ p, x.entry p = none ∧ x'.entry = update x.entry p (some e)
  | false => x'.entry = x.entry

/-- The entry of `name` is gone from the directory, or nothing changes. -/
def Erases (x x' : Ino) (name : Name) : Bool → Prop
  | true => ∃ p m, x.entry p = some (m, name) ∧ x'.entry = update x.entry p none
  | false => x'.entry = x.entry

theorem Added.places {x' : Ino} {inum ftype : Nat} (h : Added x v name inum ftype ok x') (hd : DirOk x)
    (hv : x.vn = some v) (hi : inum < 4294967296) (hpos : inum ≠ 0) (hlt : name.length < 256) :
    Finer x x' ∧ Inserts x x' (inum, name) ok ∧ x'.kind = x.kind ∧ ∃ v', x'.vn = some v' ∧ v'.slot = v.slot := by
  cases h with
  | @put k data hk hf =>
    rcases exists_of_findSome?_eq_some hf with ⟨o, ho, ha⟩
    rcases visitAdd_edit (hd.block k hk) ho hi hpos hlt ha with ⟨a, halt, hnone, hedit⟩
    rcases setBlock_places hk halt hedit with ⟨hfiner, hentry⟩
    exact ⟨hfiner, ⟨_, by rw [entry_place hk halt, hnone], hentry⟩, rfl, v, hv, rfl⟩
  | grow hnone =>
    rcases freshDirBlock_edit hi hpos hlt ftype with ⟨he, h0, hal⟩
    rcases append_places hd he h0 hal with ⟨hfiner, hfree, hentry⟩
    exact ⟨⟨hfiner.bound, hfiner.aligned⟩, ⟨_, hfree, hentry⟩, rfl, _, rfl, rfl⟩
  | @full dirty hnone =>
    have hsame := @finer_of_same x { x with
      blocks := update x.blocks (x.size / bsize) none, vn := some { v with dirty := dirty } } hd rfl
      fun k hk => by simp only [Ino.block, update_of_ne (Nat.ne_of_lt hk)]
    exact ⟨hsame.1, hsame.2, rfl, _, rfl, rfl⟩

theorem settled_vn (hv : x.vn = some v) : ∃ v', x.settled.vn = some v' ∧ v'.slot = v.slot := by
  rw [Ino.settled, hv]
  dsimp only
  split
  · exact ⟨_, rfl, rfl⟩
  · exact ⟨v, hv, rfl⟩

theorem settled_fields (x : Ino) : x.settled.mode = x.mode ∧ x.settled.size = x.size ∧ x.settled.blocks = x.blocks := by
  rw [Ino.settled]
  split
  · exact ⟨rfl, rfl, rfl⟩
  · split <;> exact ⟨rfl, rfl, rfl⟩

theorem Unlinked.places {A A' : Abs} {n : Nat} (h : Unlinked A n x v name ok A') (hd : DirOk x) (hv : x.vn = some v) :
    ∃ x', A' n = some x' ∧ Finer x x' ∧ Erases x x' name ok ∧ x'.kind = x.kind ∧
      ∃ v', x'.vn = some v' ∧ v'.slot = v.slot := by
  have hdirt : ∃ v', x.dirtied.vn = some v' ∧ v'.slot = v.slot := ⟨_, Ino.dirtied_vn hv, rfl⟩
  have hsame := @finer_of_same x x.dirtied hd rfl fun _ _ => rfl
  cases h with
  | absent hnone => exact ⟨_, update_self .., hsame.1, hsame.2, rfl, hdirt⟩
  | refused hm hy hyd => exact ⟨_, update_self .., hsame.1, hsame.2, rfl, hdirt⟩
  | @removed k o m y A2 hk ho hm h0 hmn hname hy hempty hdrop =>
    have halt := (hd.block k hk).slot_lt ho
    have hedit := (hd.block k hk).remove_edit ho
    rcases setBlock_places hk halt hedit with ⟨hfiner, hentry⟩
    rcases settled_fields (x.erase v (decide (y.kind = .dir)) k o) with ⟨hmode, hsize, hblocks⟩
    rcases @settled_vn _ (x.erase v (decide (y.kind = .dir)) k o) rfl with ⟨v', hv', hslot⟩
    have hd1 := hd.setBlock ((hd.block k hk).remove ho) k
    rcases @finer_of_same (x.setBlock k (put32 (x.block k) o 0)) _ hd1 hsize fun j _ => by
      rw [Ino.block, hblocks]
      rfl with ⟨hfiner', hentry'⟩
    refine ⟨_, update_self .., ⟨fun p hp => hfiner'.bound p (hfiner.bound p hp), fun hal =>
      hfiner'.aligned (hfiner.aligned hal)⟩, ⟨k * bsize + o, m, ?_, hentry'.trans hentry⟩, ?_, v', hv', hslot⟩
    · rw [entry_place hk halt]
      exact entryAt_some_iff.mpr ⟨ho, hm ▸ h0, by rw [hm, hname]⟩
    · rw [Ino.kind, hmode]
      rfl

end Xv6Vfs.Ext2
