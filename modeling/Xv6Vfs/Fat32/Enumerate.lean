import Xv6Vfs.Fat32.Decode
import Xv6Vfs.Fat32.Fresh

/-! A whole directory read with `freaddir`, each call from the offset that the last one returned. -/
namespace Xv6Vfs.Fat32
open Xv6Vfs.Bytes Xv6Vfs.Vfs List

variable {c : Nat} {e : Item} {v : Volume} {disk : Disk} {cs : List Nat} {after before : List Item}

/-- The records that at most `n` calls return, the first one from `off` on, if the last of them reports the end.
`junk` is what the buffer holds in each call. -/
def listing (fm : Mount) (disk : Disk) (dv : DirNode) (junk : Nat → Nat → Nat) : (n off : Nat) → Option (List Record)
  | 0, _ => none
  | n + 1, off =>
    (freaddir fm disk dv (junk n) off).bind fun r =>
      match r with
      | none => some []
      | some r => (listing fm disk dv junk n r.next).map (r :: ·)

/-! ### Live entries -/

/-- The entries in use among items that start at slot `k`, each with its offset. -/
def live : (k : Nat) → List Item → List (Item × Nat)
  | _, [] => []
  | k, e :: es =>
    if isShort e.slot then (e, 32 * (k + e.run.length)) :: live (k + e.slots.length) es
    else live (k + e.slots.length) es

/-- The long name, or the short name as it is printed. -/
def Item.fullName (e : Item) : List Nat := e.long.getD ((render83 (dirName e.slot)).map UInt8.toNat)

/-- All slots in front of the entry are its long name, or they belong to other entries. -/
def Item.Whole (e : Item) : Prop :=
  isShort e.slot → complete e.slot e.run ∨ ∀ r ∈ e.run, lfnCksum r ≠ lfnChecksum (dirName e.slot)

/-- The padding of a long name starts with NUL. -/
def Item.Padded (e : Item) : Prop :=
  complete e.slot e.run → (e.run.reverse.flatMap lfnUnits).takeWhile (· ≠ 0) =
    nameUnits (e.run.reverse.flatMap lfnUnits)

/-- What `freaddir` makes of the name. -/
def Item.shown (e : Item) : Name := (e.long.map asciiName).getD (render83 (dirName e.slot))

def Item.record (e : Item) (pos : Nat) : Record := ⟨fstClus e.slot % 65536, e.shown, pos + 32⟩

/-- The record tells of the entry at `pos`: its number is not 0 and the name is all there. -/
structure Tells (p : Item × Nat) (r : Record) : Prop where
  inum : r.inum ≠ 0
  name : r.name.map UInt8.toNat = p.1.fullName
  next : r.next = p.2 + 32

theorem Item.slots_length (e : Item) : e.slots.length = e.run.length + 1 := by
  rw [Item.slots, length_append]
  rfl

theorem Item.not_part (e : Item) (c : UInt8) (seq : Nat) : isPart c seq e.slot = false := by
  cases e.closes with
  | inl h5 => simp [isPart, isFree, h5]
  | inr h =>
    have hs := h.1
    simp only [isShort, decide_eq_true_eq] at hs
    simp [isPart, hs.2.2]

theorem parts_items (c : UInt8) (seq : Nat) (its : List Item) : parts c (its.flatMap Item.slots).reverse seq = [] := by
  cases its.eq_nil_or_concat with
  | inl h =>
    rw [h]
    rfl
  | inr h =>
    rcases h with ⟨its, e, rfl⟩
    rw [concat_eq_append, flatMap_append, reverse_append, flatMap_singleton, Item.slots,
      reverse_append, reverse_singleton, singleton_append, cons_append, parts, e.not_part]
    rfl

theorem asciiUnits_take {u : List Nat} (h : u.takeWhile (· ≠ 0) = nameUnits u) :
    (asciiUnits u).take 255 = asciiName (nameUnits u) := by
  rw [asciiUnits, h, asciiName, map_take]

theorem Item.long_of_complete (e : Item) (h : complete e.slot e.run) :
    e.long = some (nameUnits (e.run.reverse.flatMap lfnUnits)) := by
  rw [Item.long]
  cases hr : e.run with
  | nil =>
    rw [hr] at h
    cases h
  | cons r rs =>
    rw [hr] at h
    rw [tails_cons, find?_cons_of_pos h]
    rfl

theorem Item.long_of_others (e : Item) (h : ∀ r ∈ e.run, lfnCksum r ≠ lfnChecksum (dirName e.slot)) :
    e.long = none := by
  rw [Item.long, Option.map_eq_none_iff, find?_eq_none]
  intro s hs hc
  cases s with
  | nil => cases hc
  | cons r rs =>
    simp only [complete, Bool.and_eq_true, decide_eq_true_eq] at hc
    exact h r (((mem_tails _ _).mp hs).subset mem_cons_self) hc.1.1.2

/-- The name printed for an item behind the items `its`. -/
theorem Item.printedName_eq (e : Item) (hs : isShort e.slot) (hw : e.Whole) (hp : e.Padded) (its : List Item)
    (junk : Nat → Nat) :
    printedName junk (its.flatMap Item.slots ++ e.run).reverse (dirName e.slot) = e.shown := by
  rw [reverse_append, printedName, reported]
  by_cases hc : complete e.slot e.run = true
  · obtain ⟨hw, hpos, h20⟩ := complete_whole hc
    have hrange := @fill_range e.run.reverse junk (by rw [length_reverse]; exact h20)
    rw [parts_whole _ hw e.lfn, parts_items, append_nil, if_pos (by rw [length_reverse]; exact hpos),
      Option.getD_some, printUnits_eq, Nat.mul_comm, hrange, Nat.sub_zero, asciiUnits_take (hp hc), Item.shown,
        e.long_of_complete hc]
    rfl
  · have hother := (hw hs).resolve_left hc
    have hnone : parts (lfnChecksum (dirName e.slot)) (e.run.reverse ++ (its.flatMap Item.slots).reverse) 1 = [] := by
      cases hr : e.run.reverse with
      | nil => exact parts_items _ _ its
      | cons r rs =>
        have hmem : r ∈ e.run := mem_reverse.mp (hr ▸ mem_cons_self)
        have hpart : isPart (lfnChecksum (dirName e.slot)) 1 r = false := by simp [isPart, hother r hmem]
        rw [cons_append, parts, hpart]
        rfl
    rw [hnone, Item.shown, e.long_of_others hother]
    rfl

/-! ### One call -/

theorem sweep_visitNext_congr {off off' : Nat} (l : List Bytes) (pos : Nat) (h : off ≤ pos) (h' : off' ≤ pos)
    (hlen : pos + 32 * l.length < 2 ^ 32) : sweep (visitNext off) l pos = sweep (visitNext off') l pos := by
  induction l generalizing pos with
  | nil => rfl
  | cons d l ih =>
    have hv : visitNext off d pos = visitNext off' d pos := by
      have hpos : uint pos = pos := Nat.mod_eq_of_lt (by omega)
      rw [visitNext, visitNext, hpos, if_neg (Nat.not_lt.mpr h), if_neg (Nat.not_lt.mpr h')]
    rw [length_cons] at hlen
    rw [sweep, sweep, hv]
    cases hn : visitNext off' d pos with
    | inl r => rfl
    | inr pos1 =>
      have hp : pos1 = pos + 32 := by
        rw [visitNext] at hn
        grind
      exact ih pos1 (by omega) (by omega) (by omega)

theorem Item.run_skipped (e : Item) : ∀ d ∈ e.run, d 0 = 0xE5 ∨ d 0 ≠ 0 ∧ dirAttr d = attrLongName := by
  intro d hd
  have := e.lfn d hd
  simp only [isLfn, decide_eq_true_eq] at this
  exact .inr ⟨this.1, this.2.2.1⟩

/-- A directory of items on the disk. No directory has more than 65536 slots. -/
structure Listed (v : Volume) (disk : Disk) (c : Nat) (cs : List Nat) (dir : Dir) : Prop where
  ok : v.Ok
  chain : Chain v disk c cs
  slots_eq : slots v disk cs = dir.slots
  whole : ∀ e ∈ dir.items, e.Whole
  padded : ∀ e ∈ dir.items, e.Padded
  size : dir.slots.length ≤ 65536

theorem Listed.slots_split {dir : Dir} (h : Listed v disk c cs dir) (hi : dir.items = before ++ e :: after) :
    slots v disk cs =
      before.flatMap Item.slots ++ (e.slots ++ (after.flatMap Item.slots ++ (dir.orphans ++ dir.rest))) := by
  rw [h.slots_eq, Dir.slots, hi, flatMap_append, flatMap_cons]
  simp only [append_assoc]

section Calls

variable {v : Volume} {disk : Disk} {c : Nat} {cs : List Nat} {dir : Dir} (h : Listed v disk c cs dir) {attrs : UInt8}
  (hd : attrs &&& attrDirectory ≠ 0)
include h hd

theorem Listed.freaddir_end (junk : Nat → Nat) :
    freaddir v.toMount disk ⟨c, attrs⟩ junk (32 * (dir.items.flatMap Item.slots).length) = some none := by
  have horph : ∀ d ∈ dir.orphans, d 0 = 0xE5 ∨ d 0 ≠ 0 ∧ dirAttr d = attrLongName := by
    intro d hmem
    have := dir.lfn d hmem
    simp only [isLfn, decide_eq_true_eq] at this
    exact .inr ⟨this.1, this.2.2.1⟩
  rw [h.chain.freaddir_eq h.ok hd, h.slots_eq, Dir.slots, sweep_append, sweep_visitNext_before _ _ (by omega)]
  dsimp only
  rw [sweep_append, sweep_visitNext_skip _ _ horph]
  dsimp only
  cases hr : dir.rest with
  | nil => rfl
  | cons d rest =>
    have h0 : d 0 = 0 := dir.ends d (by rw [hr]; rfl)
    have hv : visitNext (32 * (dir.items.flatMap Item.slots).length) d
        (0 + 32 * (dir.items.flatMap Item.slots).length + 32 * dir.orphans.length) = .inl none := by
      have hsize := h.size
      rw [Dir.slots, length_append, length_append] at hsize
      rw [visitNext, uint, if_neg (by omega), if_pos h0]
    rw [sweep, hv]

variable {before after : List Item} {e : Item} (hi : dir.items = before ++ e :: after)
include hi

theorem Listed.freaddir_deleted (hs : ¬isShort e.slot) (junk : Nat → Nat) :
    freaddir v.toMount disk ⟨c, attrs⟩ junk (32 * (before.flatMap Item.slots).length) =
      freaddir v.toMount disk ⟨c, attrs⟩ junk (32 * ((before.flatMap Item.slots).length + e.slots.length)) := by
  have h5 : e.slot 0 = 0xE5 := e.closes.resolve_right fun hc => hs hc.1
  have hskip : ∀ d ∈ e.slots, d 0 = 0xE5 ∨ d 0 ≠ 0 ∧ dirAttr d = attrLongName := by
    intro d hmem
    cases mem_append.mp hmem with
    | inl hr => exact e.run_skipped d hr
    | inr hr => exact .inl (mem_singleton.mp hr ▸ h5)
  rw [h.chain.freaddir_eq h.ok hd, h.chain.freaddir_eq h.ok hd, h.slots_split hi, sweep_append, sweep_append,
    sweep_visitNext_before _ _ (by omega), sweep_visitNext_before _ _ (by omega)]
  dsimp only
  rw [sweep_append, sweep_append, sweep_visitNext_skip _ _ hskip, sweep_visitNext_skip _ _ hskip]
  dsimp only
  have hsize := congrArg length (h.slots_split hi)
  rw [h.slots_eq, length_append, length_append] at hsize
  have hmax := h.size
  rw [sweep_visitNext_congr _ _ (by omega : 32 * (before.flatMap Item.slots).length ≤ _)
    (by omega : 32 * ((before.flatMap Item.slots).length + e.slots.length) ≤ _) (by omega)]

theorem Listed.freaddir_live (hs : isShort e.slot) (junk : Nat → Nat) :
    freaddir v.toMount disk ⟨c, attrs⟩ junk (32 * (before.flatMap Item.slots).length) =
      some (some (e.record (32 * ((before.flatMap Item.slots).length + e.run.length)))) := by
  have hmem : e ∈ dir.items := by
    rw [hi]
    exact mem_append_right before mem_cons_self
  have hsize := congrArg length (h.slots_split hi)
  rw [h.slots_eq, length_append, length_append, e.slots_length] at hsize
  have hmax := h.size
  rw [h.chain.freaddir_eq h.ok hd, h.slots_split hi, sweep_append, sweep_visitNext_before _ _ (by omega)]
  dsimp only
  rw [Item.slots, append_assoc, sweep_append, sweep_visitNext_skip _ _ e.run_skipped]
  dsimp only
  rw [singleton_append, sweep, visitNext_short hs (by omega) (by omega)]
  dsimp only
  have hdiv : (0 + 32 * (before.flatMap Item.slots).length + 32 * e.run.length) / 32 =
      (before.flatMap Item.slots ++ e.run).length := by
    rw [length_append]
    omega
  have hnext : uint (32 * ((before.flatMap Item.slots).length + e.run.length) + 32) =
      32 * ((before.flatMap Item.slots).length + e.run.length) + 32 := Nat.mod_eq_of_lt (by omega)
  rw [hdiv, ← append_assoc, take_left, e.printedName_eq hs (h.whole e hmem) (h.padded e hmem), Item.record,
    length_append,
    hnext]

end Calls

/-! ### All calls -/

theorem live_cons_length (k : Nat) (e : Item) (es : List Item) : (live k (e :: es)).length =
    (live (k + e.slots.length) es).length + if isShort e.slot then 1 else 0 := by
  rw [live]
  split
  · rfl
  · rfl

/-- The calls from the first slot of an item on return the entries in use from there on. -/
theorem Listed.listing_eq {dir : Dir} (h : Listed v disk c cs dir) {attrs : UInt8} (hd : attrs &&& attrDirectory ≠ 0)
    (junk : Nat → Nat → Nat) (hi : dir.items = before ++ after) {n : Nat}
    (hn : (live (before.flatMap Item.slots).length after).length < n) :
    listing v.toMount disk ⟨c, attrs⟩ junk n (32 * (before.flatMap Item.slots).length) =
      some ((live (before.flatMap Item.slots).length after).map fun p => p.1.record p.2) := by
  induction after generalizing before n with
  | nil =>
    cases n with
    | zero => cases hn
    | succ n =>
      rw [append_nil] at hi
      rw [listing, ← hi, h.freaddir_end hd]
      rfl
  | cons e after ih =>
    have hi' : dir.items = before ++ [e] ++ after := by rw [hi, append_assoc, singleton_append]
    have hlen : ((before ++ [e]).flatMap Item.slots).length = (before.flatMap Item.slots).length + e.slots.length := by
      rw [flatMap_append, length_append, flatMap_singleton]
    rw [live_cons_length] at hn
    have ih := fun m hm => ih hi' (n := m) hm
    rw [hlen] at ih
    cases n with
    | zero => cases hn
    | succ n =>
      by_cases hs : isShort e.slot = true
      · rw [if_pos hs] at hn
        have hnext : (e.record (32 * ((before.flatMap Item.slots).length + e.run.length))).next =
            32 * ((before.flatMap Item.slots).length + e.slots.length) := by
          rw [e.slots_length, ← Nat.add_assoc, Nat.mul_add_one]
          rfl
        rw [listing, h.freaddir_live hd hi hs, Option.bind_some]
        dsimp only
        rw [hnext, ih n (by omega), live, if_pos hs]
        rfl
      · rw [if_neg hs] at hn
        have ih := ih (n + 1) (by omega)
        rw [listing] at ih ⊢
        rw [h.freaddir_deleted hd hi hs, ih, live, if_neg hs]

/-! ### Whole names -/

theorem asciiName_toNat (u : List Nat) : (asciiName u).map UInt8.toNat = (u.filter (· < 128)).take 255 := by
  rw [asciiName, map_map]
  apply (map_congr_left _).trans (map_id _)
  intro x hx
  have hlt := of_mem_filter (mem_of_mem_take hx)
  rw [decide_eq_true_eq] at hlt
  rw [Function.comp_apply, UInt8.toNat_ofNat', id_eq]
  omega

theorem asciiName_whole (u : List Nat) : (asciiName u).map UInt8.toNat = u ↔ (∀ x ∈ u, x < 128) ∧ u.length ≤ 255 := by
  rw [asciiName_toNat]
  constructor
  · intro h
    constructor
    · intro x hx
      rw [← h] at hx
      simpa using of_mem_filter (mem_of_mem_take hx)
    · rw [← h, length_take]
      exact Nat.min_le_left _ _
  · rintro ⟨hall, hlen⟩
    rw [filter_eq_self.mpr (by simpa using hall), take_of_length_le hlen]

theorem Item.shown_whole (e : Item) : e.shown.map UInt8.toNat = e.fullName ↔
    ∀ u, e.long = some u → (∀ x ∈ u, x < 128) ∧ u.length ≤ 255 := by
  rw [Item.shown, Item.fullName]
  cases e.long with
  | none => exact ⟨fun _ => nofun, fun _ => rfl⟩
  | some u =>
    rw [Option.map_some, Option.getD_some, Option.getD_some, asciiName_whole]
    exact ⟨fun h u' hu => Option.some.inj hu ▸ h, fun h => h u rfl⟩

theorem Item.record_tells (e : Item) (pos : Nat) : Tells (e, pos) (e.record pos) ↔ fstClus e.slot % 65536 ≠ 0 ∧
    ∀ u, e.long = some u → (∀ x ∈ u, x < 128) ∧ u.length ≤ 255 := by
  rw [← e.shown_whole]
  exact ⟨fun h => ⟨h.inum, h.name⟩, fun h => ⟨h.1, h.2, rfl⟩⟩

theorem mem_live (k : Nat) (its : List Item) {p : Item × Nat} (h : p ∈ live k its) : p.1 ∈ its ∧ isShort p.1.slot := by
  induction its generalizing k with
  | nil => cases h
  | cons e its ih =>
    rw [live] at h
    split at h
    · rename_i hs
      cases h with
      | head => exact ⟨mem_cons_self, hs⟩
      | tail _ h => exact ⟨mem_cons_of_mem e (ih _ h).1, (ih _ h).2⟩
    · exact ⟨mem_cons_of_mem e (ih _ h).1, (ih _ h).2⟩

theorem exists_live (k : Nat) {its : List Item} (h : e ∈ its) (hs : isShort e.slot) : ∃ pos, (e, pos) ∈ live k its := by
  induction its generalizing k with
  | nil => cases h
  | cons e' its ih =>
    rw [live]
    cases h with
    | head =>
      rw [if_pos hs]
      exact ⟨_, mem_cons_self⟩
    | tail _ h =>
      rcases ih (k + e'.slots.length) h with ⟨pos, hpos⟩
      split
      · exact ⟨pos, mem_cons_of_mem _ hpos⟩
      · exact ⟨pos, hpos⟩

/-- The calls of `freaddir` from offset 0 on return each entry in use once, in slot order, with all of its name
and a number that is not 0, and then the end, exactly if no entry's first cluster is a multiple of 65536, which that
of an empty file is, and every long name is ASCII and of at most 255 characters. -/
theorem freaddir_enumerates_iff {v : Volume} {disk : Disk} {c : Nat} {cs : List Nat} {dir : Dir}
    (h : Listed v disk c cs dir) {attrs : UInt8} (hd : attrs &&& attrDirectory ≠ 0) (junk : Nat → Nat → Nat) :
    (∀ n, (live 0 dir.items).length < n → ∃ rs, listing v.toMount disk ⟨c, attrs⟩ junk n 0 = some rs ∧
      List.Forall₂ Tells (live 0 dir.items) rs) ↔
    ∀ e ∈ dir.items, isShort e.slot → fstClus e.slot % 65536 ≠ 0 ∧
      ∀ u, e.long = some u → (∀ x ∈ u, x < 128) ∧ u.length ≤ 255 := by
  have hall : ∀ n, (live 0 dir.items).length < n → listing v.toMount disk ⟨c, attrs⟩ junk n 0 =
      some ((live 0 dir.items).map fun p => p.1.record p.2) :=
    fun n hn => h.listing_eq hd junk (nil_append dir.items).symm hn
  have htells : List.Forall₂ Tells (live 0 dir.items) ((live 0 dir.items).map fun p => p.1.record p.2) ↔
      ∀ p ∈ live 0 dir.items, Tells p (p.1.record p.2) := by
    rw [forall₂_map_right_iff, forall₂_same]
  constructor
  · intro hev e he hs
    rcases hev _ (Nat.lt_succ_self _) with ⟨rs, hrs, hf⟩
    rw [hall _ (Nat.lt_succ_self _)] at hrs
    cases hrs
    rcases exists_live 0 he hs with ⟨pos, hpos⟩
    exact (e.record_tells pos).mp (htells.mp hf _ hpos)
  · intro hcond n hn
    refine ⟨_, hall n hn, htells.mpr fun p hp => ?_⟩
    have hm := mem_live 0 dir.items hp
    exact (p.1.record_tells p.2).mpr (hcond p.1 hm.1 hm.2)

theorem slots_dirDisk (l : List Bytes) :
    slots tinyVolume (dirDisk l) [2] = (List.range 16).map fun k => cut (slotOf l k) := by
  have h : clusterSlots tinyVolume.toMount (dirDisk l) 2 = (List.range 16).map (slotOf l) := clusterSlots_dirDisk l
  rw [slots_eq, rawSlots, flatMap_singleton, h, map_map]
  rfl

theorem chain_dirDisk (l : List Bytes) : Chain tinyVolume (dirDisk l) 2 [2] := by
  have h : readFat tinyVolume.toMount (dirDisk l) 2 = readFat tinyVolume.toMount (dirDisk []) 2 := rfl
  exact .last ⟨by decide, by decide⟩ (by rw [h]; decide +kernel)

/-- The slots from number `k` on are unused. -/
def restOf (l : List Bytes) (k : Nat) : List Bytes := (List.range' k (16 - k)).map fun k => cut (slotOf l k)

theorem mixed_lfn : ∀ r ∈ [cut (slotOf mixedSlots 1)], isLfn r := by
  intro r hr
  cases mem_singleton.mp hr
  decide +kernel

theorem mixed_whole : isShort (cut (slotOf mixedSlots 2)) = true ∧
    complete (cut (slotOf mixedSlots 2)) [cut (slotOf mixedSlots 1)] = true := by decide +kernel

theorem mixed_slots : cut (slotOf mixedSlots 0) 0 = 0xE5 ∧ isShort (cut (slotOf mixedSlots 3)) = true ∧
    isShort (cut (slotOf mixedSlots 4)) = true ∧ cut (slotOf mixedSlots 5) 0 = 0 := by decide +kernel

def mixedDir : Dir where
  items := [bare (cut (slotOf mixedSlots 0)) (.inl mixed_slots.1),
    ⟨[cut (slotOf mixedSlots 1)], cut (slotOf mixedSlots 2), mixed_lfn, closes_complete mixed_whole.1 mixed_whole.2⟩,
    bare (cut (slotOf mixedSlots 3)) (.inr mixed_slots.2.1), bare (cut (slotOf mixedSlots 4)) (.inr mixed_slots.2.2.1)]
  orphans := []
  rest := restOf mixedSlots 5
  lfn := lfn_nil
  ends := fun _ hd => Option.some.inj hd ▸ mixed_slots.2.2.2

theorem bare_whole {d : Bytes} (h : d 0 = 0xE5 ∨ isShort d = true) : (bare d h).Whole ∧ (bare d h).Padded :=
  ⟨fun _ => .inr (forall_mem_nil _), nofun⟩

theorem mixedDir_items : ∀ e ∈ mixedDir.items, e.Whole ∧ e.Padded := by
  intro e he
  simp only [mixedDir, mem_cons, not_mem_nil, or_false] at he
  rcases he with rfl | rfl | rfl | rfl
  · exact bare_whole _
  · exact ⟨fun _ => .inl mixed_whole.2, fun _ => by decide +kernel⟩
  · exact bare_whole _
  · exact bare_whole _

theorem mixedDir_listed : Listed tinyVolume (dirDisk mixedSlots) 2 [2] mixedDir where
  ok := tinyVolume_ok
  chain := chain_dirDisk mixedSlots
  slots_eq := slots_dirDisk mixedSlots
  whole := fun e he => (mixedDir_items e he).1
  padded := fun e he => (mixedDir_items e he).2
  size := by
    have h : mixedDir.slots.length = 16 := rfl
    omega

/-- "my notes.txt", "LONGFILE" and "README.TXT" behind a deleted slot are listed. -/
theorem mixedDir_enumerated : ∃ rs,
    listing tinyVolume.toMount (dirDisk mixedSlots) ⟨2, attrDirectory⟩ (fun _ _ => 0) 4 0 = some rs ∧
      List.Forall₂ Tells (live 0 mixedDir.items) rs ∧ rs.map Record.next = [96, 128, 160] := by
  have hcond : ∀ e ∈ mixedDir.items, isShort e.slot → fstClus e.slot % 65536 ≠ 0 ∧
      ∀ u ∈ e.long, (∀ x ∈ u, x < 128) ∧ u.length ≤ 255 := by decide +kernel
  rcases (@freaddir_enumerates_iff _ _ _ _ _ mixedDir_listed attrDirectory (by decide) fun _ _ => 0).mpr hcond 4
    (by decide +kernel) with
    ⟨rs, hrs, htells⟩
  have hnext : (listing tinyVolume.toMount (dirDisk mixedSlots) ⟨2, attrDirectory⟩ (fun _ _ => 0) 4 0).map
      (map Record.next) = some [96, 128, 160] := by decide +kernel
  rw [hrs] at hnext
  exact ⟨rs, hrs, htells, Option.some.inj hnext⟩

theorem readme_short : isShort (cut (slotOf [readmeSlot 0] 0)) = true ∧ cut (slotOf [readmeSlot 0] 1) 0 = 0 := by
  decide +kernel

def readmeDir : Dir where
  items := [bare (cut (slotOf [readmeSlot 0] 0)) (.inr readme_short.1)]
  orphans := []
  rest := restOf [readmeSlot 0] 1
  lfn := lfn_nil
  ends := fun _ hd => Option.some.inj hd ▸ readme_short.2

/-- An empty file "README.TXT" is listed with number 0. -/
theorem empty_file_inum_zero : Listed tinyVolume (dirDisk [readmeSlot 0]) 2 [2] readmeDir ∧
    listing tinyVolume.toMount (dirDisk [readmeSlot 0]) ⟨2, attrDirectory⟩ (fun _ _ => 0) 2 0 =
      some [⟨0, [114, 101, 97, 100, 109, 101, 46, 116, 120, 116], 32⟩] := by
  have hitems : ∀ e ∈ readmeDir.items, e.Whole ∧ e.Padded := fun e he => mem_singleton.mp he ▸ bare_whole _
  refine ⟨⟨tinyVolume_ok, chain_dirDisk _, slots_dirDisk _, fun e he => (hitems e he).1, fun e he => (hitems e he).2,
    ?_⟩,
    by decide +kernel⟩
  have h : readmeDir.slots.length = 16 := rfl
  omega

end Xv6Vfs.Fat32
