import Xv6Vfs.Fat32.Driver

/-! Where the parts of a FAT32 volume lie, and what its writes leave alone. Bytes of the device are
counted through. -/
namespace Xv6Vfs.Fat32
open Xv6Vfs.Bytes List Nat

variable {c : Nat} {d : Bytes} {v : Volume}

variable {a i n o off sec val : Nat} {disk disk' : Disk}

/-! ### Bytes of the device -/

def byte (disk : Disk) (a : Nat) : UInt8 := disk (a / 1024) (a % 1024)

theorem sread_eq_byte (h : off + i < 512) : sread disk sec off i = byte disk (512 * sec + off + i) := by
  have hq : (512 * sec + off + i) / 1024 = sec / 2 := by omega
  have hr : (512 * sec + off + i) % 1024 = sec % 2 * 512 + off + i := by omega
  rw [byte, hq, hr]
  rfl

theorem byte_poke (src : Bytes) (disk : Disk) (a : Nat) (h : off + n ≤ 512) : byte (poke sec off src n disk) a =
      if 512 * sec + off ≤ a ∧ a < 512 * sec + off + n then src (a - (512 * sec + off)) else byte disk a := by
  rw [byte, poke, spb, bps]
  by_cases hb : a / 1024 = sec / 2
  · rw [hb, Function.update_self, blit]
    have hsub : a % 1024 - (sec % 2 * 512 + off) = a - (512 * sec + off) := by omega
    rw [hsub, byte, hb]
    exact if_congr (by omega) rfl rfl
  · rw [Function.update_of_ne hb, if_neg (by omega)]
    rfl

/-- A little-endian word of the device. -/
def word (disk : Disk) (a : Nat) : Nat := u32 (fun i => byte disk (a + i)) 0

theorem word_congr (h : ∀ b, a ≤ b → b < a + 4 → byte disk' b = byte disk b) : word disk' a = word disk a :=
  u32_congr fun j _ hj => h (a + j) (by omega) (by omega)

/-! ### Entries of the table -/

theorem uint_entry (h : c < 2 ^ 30) : uint (c * 4) = 4 * c := by
  rw [uint]
  omega

theorem readFat_word {fm : Mount} (h : c < 2 ^ 30) (disk : Disk) :
    readFat fm disk c = word disk (512 * fm.rsvdSecCnt + 4 * c) % 2 ^ 28 := by
  rw [readFat, uint_entry h]
  congr 1
  apply u32_congr
  intro j _ hj
  rw [bps, sread_eq_byte (by omega)]
  congr 1
  omega

/-! ### Geometry -/

/-- The numbers of a boot sector fit together. -/
structure Volume.Ok (v : Volume) : Prop where
  sectors : 0 < v.secPerClus
  fats : 0 < v.numFats
  data : v.firstDataSec = v.rsvdSecCnt + v.numFats * v.fatSz
  table : 4 * (v.totClus + 2) ≤ 512 * v.fatSz
  clusters : v.totClus + 2 ≤ eocMin
  size : v.firstDataSec + v.totClus * v.secPerClus < 2 ^ 32

def Volume.Valid (v : Volume) (c : Nat) : Prop := 2 ≤ c ∧ c < v.totClus + 2

/-- There is no second table, or no sector of the first shares a block with its copy. -/
def TablesApart (v : Volume) : Prop :=
  v.numFats ≤ 1 ∨ (v.fatSz ≠ 1 ∨ v.rsvdSecCnt % 2 = 1) ∧ v.fatSz ≠ 2 ^ 32 - 1

instance (v : Volume) : Decidable (TablesApart v) := inferInstanceAs (Decidable (_ ∨ _))

/-- Entry `c` of the first allocation table. -/
def fatAddr (v : Volume) (c : Nat) : Nat := 512 * v.rsvdSecCnt + 4 * c

/-- The first byte of cluster `c`. -/
def clusAddr (v : Volume) (c : Nat) : Nat := 512 * (v.firstDataSec + (c - 2) * v.secPerClus)

theorem Volume.Valid.clus_le (hc : v.Valid c) : (c - 2) * v.secPerClus + v.secPerClus ≤ v.totClus * v.secPerClus := by
  have hle : c - 2 + 1 ≤ v.totClus := by
    have := hc.2
    have := hc.1
    omega
  calc (c - 2) * v.secPerClus + v.secPerClus = (c - 2 + 1) * v.secPerClus := (succ_mul _ _).symm
    _ ≤ v.totClus * v.secPerClus := Nat.mul_le_mul_right _ hle

theorem Volume.Valid.disjoint {c' : Nat} (hc : v.Valid c) (hc' : v.Valid c') (hne : c ≠ c') :
    clusAddr v c + 512 * v.secPerClus ≤ clusAddr v c' ∨ clusAddr v c' + 512 * v.secPerClus ≤ clusAddr v c := by
  have hstep : ∀ x y : Nat, x < y → x * v.secPerClus + v.secPerClus ≤ y * v.secPerClus := fun x y h => by
    calc x * v.secPerClus + v.secPerClus = (x + 1) * v.secPerClus := (succ_mul _ _).symm
      _ ≤ y * v.secPerClus := Nat.mul_le_mul_right _ h
  have h2 := hc.1
  have h2' := hc'.1
  rw [clusAddr, clusAddr]
  rcases Nat.lt_or_gt_of_ne hne with h | h
  · have := hstep (c - 2) (c' - 2) (by omega)
    omega
  · have := hstep (c' - 2) (c - 2) (by omega)
    omega

section Geometry

variable {v : Volume} (ok : v.Ok) {c : Nat}
include ok

theorem Volume.Ok.lt_eocMin (hc : v.Valid c) : 2 ≤ c ∧ c < eocMin :=
  ⟨hc.1, hc.2.trans_le ok.clusters⟩

/-- A change of the table waits for a buffer of its own for every cluster or for none. -/
theorem Volume.Ok.fatWaits_iff (hlt : c < v.totClus + 2) : fatWaits v c = false ↔ TablesApart v := by
  have htable := ok.table
  have hdata := ok.data
  have hsize := ok.size
  have htwo : 1 < v.numFats → 2 * v.fatSz ≤ v.numFats * v.fatSz := Nat.mul_le_mul_right _
  rw [fatWaits, decide_eq_false_iff_not, not_and, TablesApart, uint, uint, bps, spb]
  by_cases hn : 1 < v.numFats
  · have := htwo hn
    generalize v.numFats * v.fatSz = p at *
    omega
  · exact ⟨fun _ => .inl (by omega), fun _ h => absurd h hn⟩

theorem Volume.Ok.totClus_eq : uint (v.totClus + 2) - 2 = v.totClus := by
  have h := ok.clusters
  rw [eocMin] at h
  rw [uint]
  omega

theorem Volume.Ok.clusToSec_eq (hc : v.Valid c) {s : Nat} (hs : s < v.secPerClus) :
    512 * uint (clusToSec v.toMount c + s) = clusAddr v c + 512 * s := by
  have hle := hc.clus_le
  have hsize := ok.size
  have h0 : uint (c + (2 ^ 32 - 2)) = c - 2 := by
    have h2 := (ok.lt_eocMin hc)
    rw [eocMin] at h2
    rw [uint]
    omega
  have h1 : clusToSec v.toMount c = (c - 2) * v.secPerClus + v.firstDataSec := by
    rw [clusToSec, h0, uint]
    exact mod_eq_of_lt (by omega)
  rw [h1, uint, clusAddr, mod_eq_of_lt (by omega)]
  omega

theorem Volume.Ok.tables_le : v.rsvdSecCnt + v.fatSz ≤ v.firstDataSec ∧
    (1 < v.numFats → v.rsvdSecCnt + v.fatSz + v.fatSz ≤ v.firstDataSec) := by
  have h1 : 1 * v.fatSz ≤ v.numFats * v.fatSz := Nat.mul_le_mul_right _ ok.fats
  have hd := ok.data
  refine ⟨by omega, fun h => ?_⟩
  have h2 : 2 * v.fatSz ≤ v.numFats * v.fatSz := Nat.mul_le_mul_right _ h
  omega

section

variable (hc : c < v.totClus + 2)
include hc

theorem Volume.Ok.fat_lt : 4 * c + 4 ≤ 512 * v.fatSz := by
  have := ok.table
  omega

theorem Volume.Ok.readFat_eq (disk : Disk) : readFat v.toMount disk c = word disk (fatAddr v c) % 2 ^ 28 := by
  have hlt : c < eocMin := hc.trans_le ok.clusters
  rw [eocMin] at hlt
  exact readFat_word (by omega) disk

theorem Volume.Ok.readFat_congr (h : ∀ b, fatAddr v c ≤ b → b < fatAddr v c + 4 → byte disk' b = byte disk b) :
    readFat v.toMount disk' c = readFat v.toMount disk c := by
  rw [ok.readFat_eq hc, ok.readFat_eq hc, word_congr h]

theorem Volume.Ok.readFat_of_bytes (h : ∀ a, a < 512 * v.firstDataSec → byte disk' a = byte disk a) :
    readFat v.toMount disk' c = readFat v.toMount disk c := by
  apply ok.readFat_congr hc
  intro b h1 h2
  have hfat := ok.fat_lt hc
  have htab := ok.tables_le.1
  rw [fatAddr] at h1 h2
  exact h b (by omega)

end

end Geometry

/-! ### Writes to the allocation table -/

theorem byte_putEntry (h : off + 4 ≤ 512) (ha : a < 512 * sec + off ∨ 512 * sec + off + 4 ≤ a) :
    byte (putEntry sec off val disk) a = byte disk a := by
  rw [putEntry, byte_poke _ _ _ h, if_neg (by omega)]

/-- `(x & 0xF0000000) | (val & 0x0FFFFFFF)`. -/
def withLow (x val : Nat) : Nat := x / 2 ^ 28 * 2 ^ 28 + val % 2 ^ 28

theorem withLow_mod (x val : Nat) : withLow x val % 2 ^ 28 = val % 2 ^ 28 := by
  unfold withLow
  omega

theorem withLow_div (x val : Nat) : withLow x val / 2 ^ 28 = x / 2 ^ 28 := by
  unfold withLow
  omega

theorem word_putEntry (h : off + 4 ≤ 512) :
    word (putEntry sec off val disk) (512 * sec + off) = withLow (word disk (512 * sec + off)) val := by
  have hw : u32 (sread disk sec off) 0 = word disk (512 * sec + off) := u32_congr fun j _ hj => sread_eq_byte (by omega)
  have hb : word (putEntry sec off val disk) (512 * sec + off) =
    u32 (le (withLow (word disk (512 * sec + off)) val)) 0 := by
    apply u32_congr
    intro j _ hj
    rw [putEntry, hw, byte_poke _ _ _ h, if_pos (by omega), withLow]
    congr 1
    omega
  have hlt : word disk (512 * sec + off) < 4294967296 := u32_lt _ _
  rw [hb, u32_le, withLow]
  omega

/-- The entry of `c` lies in the table, and its address and that of its copy do not wrap. -/
structure Inside (v : Volume) (c : Nat) : Prop where
  entry : 4 * c + 4 ≤ 512 * v.fatSz
  offset : c < 2 ^ 30
  copy : 1 < v.numFats → v.rsvdSecCnt + c / 128 + v.fatSz < 2 ^ 32

theorem Inside.writeFat_eq (h : Inside v c) (val : Nat) (disk : Disk) :
    ∃ sec off, 512 * sec + off = fatAddr v c ∧ off + 4 ≤ 512 ∧
      writeFat v c val disk =
        if 1 < v.numFats then putEntry (sec + v.fatSz) off val (putEntry sec off val disk)
        else putEntry sec off val disk := by
  have hoff := h.offset
  refine ⟨v.rsvdSecCnt + 4 * c / 512, 4 * c % 512, by rw [fatAddr]; omega, by omega, ?_⟩
  rw [writeFat, uint_entry hoff, bps]
  by_cases hn : 1 < v.numFats
  · have hcopy := h.copy hn
    have hsec : uint (v.rsvdSecCnt + 4 * c / 512 + v.fatSz) = v.rsvdSecCnt + 4 * c / 512 + v.fatSz := by
      rw [uint]
      exact mod_eq_of_lt (by omega)
    rw [if_pos hn, if_pos hn, hsec]
  · rw [if_neg hn, if_neg hn]

section Table

variable {v : Volume} (ok : v.Ok) {c c' : Nat} (hc : c < v.totClus + 2)
include ok hc

theorem Volume.Ok.inside : Inside v c := by
  have hlt : c < eocMin := hc.trans_le ok.clusters
  have hfat := ok.fat_lt hc
  have hsize := ok.size
  rw [eocMin] at hlt
  refine ⟨hfat, by omega, fun hn => ?_⟩
  have htab := ok.tables_le.2 hn
  omega

theorem Volume.Ok.writeFat_eq (val : Nat) (disk : Disk) :
    ∃ sec off, 512 * sec + off = fatAddr v c ∧ off + 4 ≤ 512 ∧
      writeFat v c val disk =
        if 1 < v.numFats then putEntry (sec + v.fatSz) off val (putEntry sec off val disk)
        else putEntry sec off val disk :=
  (ok.inside hc).writeFat_eq val disk

theorem Volume.Ok.byte_writeFat
    (ha : a < 512 * (v.rsvdSecCnt + v.fatSz) ∧ (a < fatAddr v c ∨ fatAddr v c + 4 ≤ a) ∨ 512 * v.firstDataSec ≤ a) :
    byte (writeFat v c val disk) a = byte disk a := by
  have hfat := ok.fat_lt hc
  have htab := ok.tables_le
  rcases ok.writeFat_eq hc val disk with ⟨sec, off, haddr, hoff, he⟩
  have haddr' : fatAddr v c = 512 * v.rsvdSecCnt + 4 * c := rfl
  rw [he]
  by_cases hn : 1 < v.numFats
  · have := htab.2 hn
    rw [if_pos hn, byte_putEntry hoff (by omega), byte_putEntry hoff (by omega)]
  · rw [if_neg hn, byte_putEntry hoff (by omega)]

theorem Volume.Ok.readFat_writeFat (val : Nat) (disk : Disk) :
    readFat v.toMount (writeFat v c val disk) c = val % 2 ^ 28 := by
  have hfat := ok.fat_lt hc
  rcases ok.writeFat_eq hc val disk with ⟨sec, off, haddr, hoff, he⟩
  have haddr' : fatAddr v c = 512 * v.rsvdSecCnt + 4 * c := rfl
  rw [ok.readFat_eq hc, he, ← haddr]
  by_cases hn : 1 < v.numFats
  · rw [if_pos hn]
    have hw : word (putEntry (sec + v.fatSz) off val (putEntry sec off val disk)) (512 * sec + off) =
        word (putEntry sec off val disk) (512 * sec + off) :=
      word_congr fun b h1 h2 => byte_putEntry hoff (by omega)
    rw [hw, word_putEntry hoff, withLow_mod]
  · rw [if_neg hn, word_putEntry hoff, withLow_mod]

theorem Volume.Ok.readFat_writeFat_ne (hc' : c' < v.totClus + 2) (hne : c' ≠ c) (val : Nat) (disk : Disk) :
    readFat v.toMount (writeFat v c val disk) c' = readFat v.toMount disk c' := by
  have hfat := ok.fat_lt hc'
  apply ok.readFat_congr hc'
  intro b h1 h2
  apply ok.byte_writeFat hc
  rw [fatAddr] at h1 h2 ⊢
  omega

end Table

/-! ### Slots of a cluster -/

/-- The 32 bytes of a slot without what lies behind them. -/
def cut (d : Bytes) : Bytes := fun i => if i < 32 then d i else 0

theorem cut_apply (h : i < 32) : cut d i = d i := if_pos h

theorem cut_congr {d' : Bytes} (h : ∀ i, i < 32 → d i = d' i) : cut d = cut d' := by
  funext i
  rw [cut, cut]
  split
  · exact h i ‹_›
  · rfl

/-- Slots of a cluster. -/
def perClus (v : Volume) : Nat := v.secPerClus * 16

def view (v : Volume) (disk : Disk) (c : Nat) : List Bytes := (clusterSlots v.toMount disk c).map cut

theorem range_flatMap_range {α : Type} (f : Nat → Nat → α) (m n : Nat) (hm : 0 < m) :
    (List.range n).flatMap (fun s => (List.range m).map (f s)) =
      (List.range (n * m)).map fun j => f (j / m) (j % m) := by
  induction n with
  | zero => simp
  | succ n ih =>
    rw [range_succ, flatMap_append, ih, succ_mul, range_add, map_append, map_map, flatMap_singleton]
    congr 1
    apply map_congr_left
    intro k hk
    have hlt := mem_range.mp hk
    dsimp only [Function.comp_apply]
    rw [Nat.add_comm, add_mul_div_right _ _ hm, div_eq_of_lt hlt, add_mul_mod_self_right,
      mod_eq_of_lt hlt, Nat.zero_add]

theorem clusAddr_ge (v : Volume) (c : Nat) : 512 * v.firstDataSec ≤ clusAddr v c := by
  rw [clusAddr]
  omega

section View

variable {v : Volume} (ok : v.Ok) {c c' : Nat}
include ok

section

variable (hc : v.Valid c)
include hc

theorem Volume.Ok.view_eq (disk : Disk) :
    view v disk c = (List.range (perClus v)).map fun j => cut fun i => byte disk (clusAddr v c + 32 * j + i) := by
  rw [view, clusterSlots, bps, range_flatMap_range _ _ _ (by omega), map_map]
  apply map_congr_left
  intro j hj
  have hj' : j / 16 < v.secPerClus := Nat.div_lt_of_lt_mul (by rw [Nat.mul_comm]; exact mem_range.mp hj)
  apply cut_congr
  intro i hi
  have hsec := ok.clusToSec_eq hc hj'
  dsimp only [reduceDiv]
  rw [sread_eq_byte (by omega)]
  congr 1
  omega

theorem Volume.Ok.view_length (disk : Disk) : (view v disk c).length = perClus v := by
  rw [ok.view_eq hc, length_map, length_range]

theorem Volume.Ok.view_congr
    (h : ∀ a, clusAddr v c ≤ a → a < clusAddr v c + 512 * v.secPerClus → byte disk' a = byte disk a) :
    view v disk' c = view v disk c := by
  rw [ok.view_eq hc, ok.view_eq hc]
  apply map_congr_left
  intro j hj
  have hj' := mem_range.mp hj
  rw [perClus] at hj'
  exact cut_congr fun i hi => h _ (by omega) (by omega)

theorem Volume.Ok.view_set {j : Nat} {e : Bytes} (hj : j < perClus v)
    (h : ∀ a, byte disk' a = if clusAddr v c + 32 * j ≤ a ∧ a < clusAddr v c + 32 * j + 32
      then e (a - (clusAddr v c + 32 * j)) else byte disk a) :
    view v disk' c = (view v disk c).set j (cut e) := by
  rw [ok.view_eq hc, ok.view_eq hc]
  apply ext_getElem?
  intro k
  rw [getElem?_set, length_map, length_range]
  by_cases hk : k < perClus v
  · rw [getElem?_map, getElem?_map, getElem?_range hk, Option.map_some, Option.map_some, if_pos hj]
    by_cases hjk : j = k
    · subst hjk
      rw [if_pos rfl]
      congr 1
      apply cut_congr
      intro i hi
      rw [h, if_pos (by omega)]
      congr 1
      omega
    · rw [if_neg hjk]
      congr 1
      apply cut_congr
      intro i hi
      rw [h, if_neg (by omega)]
  · have hjk : j ≠ k := by omega
    have hnone : (List.range (perClus v))[k]? = none := getElem?_eq_none (by rw [length_range]; omega)
    rw [getElem?_map, getElem?_map, hnone, if_neg hjk]
    rfl

theorem Volume.Ok.view_writeFat (hc' : c' < v.totClus + 2) (val : Nat) (disk : Disk) :
    view v (writeFat v c' val disk) c = view v disk c := by
  apply ok.view_congr hc
  intro a ha _
  have := clusAddr_ge v c
  exact ok.byte_writeFat hc' (.inr (by omega))

/-! ### Writes to clusters -/

omit hc in
theorem Volume.Ok.swrite_eq {src : Bytes} (h : v.firstDataSec ≤ sec) :
    swrite v sec off src n disk = poke sec off src n disk := by
  have htab := ok.tables_le.1
  have hsize := ok.size
  have hu : uint (v.rsvdSecCnt + v.fatSz) = v.rsvdSecCnt + v.fatSz := by
    rw [uint]
    exact mod_eq_of_lt (by omega)
  rw [swrite, hu, if_neg (by omega)]

theorem Volume.Ok.addr_eq (ho : o < 512 * v.secPerClus) :
    512 * uint (clusToSec v.toMount c + o / 512) + o % 512 = clusAddr v c + o := by
  have hsec := ok.clusToSec_eq hc (Nat.div_lt_of_lt_mul ho)
  omega

theorem Volume.Ok.sread_clus (ho : o < 512 * v.secPerClus) (hi : o % 512 + i < 512) (disk : Disk) :
    sread disk (uint (clusToSec v.toMount c + o / 512)) (o % 512) i = byte disk (clusAddr v c + o + i) := by
  rw [sread_eq_byte hi, ok.addr_eq hc ho]

/-- A write that stays in the sector of byte `o` of a cluster. -/
theorem Volume.Ok.byte_swrite_clus (ho : o < 512 * v.secPerClus) (hn : o % 512 + n ≤ 512) (e : Bytes)
    (disk : Disk) (a : Nat) : byte (swrite v (uint (clusToSec v.toMount c + o / 512)) (o % 512) e n disk) a =
      if clusAddr v c + o ≤ a ∧ a < clusAddr v c + o + n then e (a - (clusAddr v c + o)) else byte disk a := by
  have haddr := ok.addr_eq hc ho
  have hge := clusAddr_ge v c
  rw [ok.swrite_eq (by omega), byte_poke _ _ _ hn, haddr]

/-- The first `n` sectors of a cluster are written. -/
theorem Volume.Ok.byte_fill (head : Bytes) (disk : Disk) (hn : n ≤ v.secPerClus) (a : Nat) :
    byte ((List.range n).foldl (fun disk s => swrite v (uint (clusToSec v.toMount c + s)) 0
        (if s = 0 then head else fun _ => 0) bps disk) disk) a = if clusAddr v c ≤ a ∧ a < clusAddr v c + 512 * n then
        if a < clusAddr v c + 512 then head (a - clusAddr v c) else 0 else byte disk a := by
  induction n with
  | zero => rw [if_neg (by omega)]; rfl
  | succ n ih =>
    have hsec := ok.clusToSec_eq hc (show n < v.secPerClus by omega)
    have hge := clusAddr_ge v c
    rw [bps] at ih ⊢
    rw [range_succ, foldl_append, foldl_cons, foldl_nil, ok.swrite_eq (by omega),
      byte_poke _ _ _ (by omega), hsec, ih (by omega)]
    by_cases h1 : clusAddr v c + 512 * n ≤ a ∧ a < clusAddr v c + 512 * n + 512
    · rw [if_pos (by omega)]
      by_cases h0 : n = 0
      · rw [if_pos h0, if_pos (by omega), if_pos (by omega), h0]
        rfl
      · rw [if_neg h0, if_pos (by omega), if_neg (by omega)]
    · rw [if_neg (by omega)]
      exact if_congr (by omega) rfl rfl

theorem Volume.Ok.byte_fillClus (head : Bytes) (disk : Disk) (a : Nat) : byte (fillClus v c head disk) a =
      if clusAddr v c ≤ a ∧ a < clusAddr v c + 512 * v.secPerClus then
        if a < clusAddr v c + 512 then head (a - clusAddr v c) else 0 else byte disk a :=
  ok.byte_fill hc head disk (Nat.le_refl _) a

theorem Volume.Ok.view_fillClus_ne (hc' : v.Valid c') (hne : c' ≠ c) (head : Bytes) (disk : Disk) :
    view v (fillClus v c head disk) c' = view v disk c' := by
  apply ok.view_congr hc'
  intro a h1 h2
  have := hc'.disjoint hc hne
  rw [ok.byte_fillClus hc, if_neg (by omega)]

theorem Volume.Ok.view_fillClus_zero (disk : Disk) :
    view v (fillClus v c (fun _ => 0) disk) c = List.replicate (perClus v) fun _ => 0 := by
  rw [ok.view_eq hc, eq_replicate_iff, length_map, length_range]
  refine ⟨rfl, fun d hd => ?_⟩
  rcases mem_map.mp hd with ⟨j, hj, rfl⟩
  have hj' := mem_range.mp hj
  rw [perClus] at hj'
  funext i
  rw [cut]
  split
  · rw [ok.byte_fillClus hc, if_pos (by omega), ite_self]
  · rfl

theorem Volume.Ok.readFat_fillClus (hc' : c' < v.totClus + 2) (head : Bytes) (disk : Disk) :
    readFat v.toMount (fillClus v c head disk) c' = readFat v.toMount disk c' := by
  apply ok.readFat_of_bytes hc'
  intro a ha
  have hge := clusAddr_ge v c
  rw [ok.byte_fillClus hc, if_neg (by omega)]

end

end View

end Xv6Vfs.Fat32
