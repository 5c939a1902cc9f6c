import Mathlib.Data.List.TakeWhile
import Xv6Vfs.Fat32.Named

/-! Names that a short entry holds in full. -/
namespace Xv6Vfs.Fat32
open Xv6Vfs.Vfs List

variable {n : Nat} {e : Item} {c : UInt8} {a b nm : Name}

/-- The last loop of `fits_83`; a name longer than the rebuilt string meets its terminator. -/
def agrees : (name rebuilt : Name) → Bool
  | [], _ => true
  | _ :: _, [] => false
  | a :: name, r :: rebuilt => lower a = r && agrees name rebuilt

/-- `fits_83`. The rebuilt string is what `freaddir` prints; that it ends where the loop stopped is
not tested. -/
def fits83 (name : Name) : Bool := name ≠ [] && agrees name (render83 (name83 name))

/-! ### Letters -/

theorem lower_eq_dot : lower c = 46 ↔ c = 46 := by
  unfold lower
  grind

theorem upper_lower (c : UInt8) : upper (lower c) = upper c := by
  unfold upper lower
  grind

theorem upper_eq_dot : upper c = 46 ↔ c = 46 := by
  unfold upper
  grind

/-! ### Padding and rendering -/

theorem pad_length {l : List UInt8} : (pad n l).length = n := by
  rw [pad, length_append, length_take, length_replicate]
  omega

theorem name83_base (s : Name) : (name83 s).take 8 = pad 8 ((baseOf s).map upper) := by
  rw [name83, take_append_of_le_length pad_length.ge, take_of_length_le pad_length.le]

theorem name83_ext (s : Name) : ((name83 s).drop 8).take 3 = pad 3 ((extOf s).map upper) := by
  rw [name83, drop_append_of_le_length pad_length.ge, drop_of_length_le pad_length.le,
    nil_append, take_of_length_le pad_length.le]

theorem takeWhile_pad_length (n : Nat) (l : List UInt8) : ((pad n l).takeWhile (· ≠ 32)).length ≤ l.length := by
  have hrep : (List.replicate (n - l.length) (32 : UInt8)).takeWhile (· ≠ 32) = [] := by
    rw [takeWhile_replicate]
    rfl
  have hle : ∀ t : List UInt8, (t.takeWhile (· ≠ 32)).length ≤ t.length := fun t =>
    (takeWhile_sublist _).length_le
  rw [pad, takeWhile_append]
  split
  · rw [hrep, append_nil]
    exact length_take_le' n l
  · exact (hle _).trans (length_take_le' n l)

theorem headD_pad (l : List UInt8) (hn : 0 < n) : (pad n l).headD 32 = l.headD 32 := by
  cases n with
  | zero => cases hn
  | succ n =>
    cases l with
    | nil => rfl
    | cons c l => rfl

theorem baseOf_extOf_length (s : Name) (h : extOf s ≠ []) : s.length = (baseOf s).length + 1 + (extOf s).length := by
  have hs := congrArg List.length (takeWhile_append_dropWhile (p := fun c : UInt8 => decide (c ≠ 46)) (l := s))
  rw [length_append] at hs
  have hd : (extOf s).length = (s.dropWhile (· ≠ 46)).length - 1 := by rw [extOf, length_drop]
  have hpos : 0 < (extOf s).length := length_pos_iff.mpr h
  rw [baseOf]
  omega

/-- A short name is never printed with more characters than the name it was made from. -/
theorem render83_length (s : Name) : (render83 (name83 s)).length ≤ s.length := by
  have hb := takeWhile_pad_length 8 ((baseOf s).map upper)
  have he := takeWhile_pad_length 3 ((extOf s).map upper)
  have hbase : (baseOf s).length ≤ s.length := (takeWhile_sublist _).length_le
  rw [length_map] at hb he
  rw [render83, name83_base, name83_ext, headD_pad _ (by omega)]
  split
  · rename_i hne
    have hext : extOf s ≠ [] := by
      intro h
      rw [h] at hne
      exact hne rfl
    have := baseOf_extOf_length s hext
    rw [length_append, length_map, length_cons, length_map]
    omega
  · rw [append_nil, length_map]
    omega

theorem agrees_iff {name rebuilt : Name} : agrees name rebuilt = true ↔ name.map lower <+: rebuilt := by
  induction name generalizing rebuilt with
  | nil => simp [agrees]
  | cons a name ih =>
    cases rebuilt with
    | nil => simp [agrees]
    | cons r rebuilt =>
      rw [agrees, Bool.and_eq_true, decide_eq_true_eq, ih, map_cons, cons_prefix_cons]

theorem fits83_iff (h : nm ≠ []) : fits83 nm = true ↔ render83 (name83 nm) = nm.map lower := by
  have hlen := render83_length nm
  rw [fits83, Bool.and_eq_true, decide_eq_true_eq, agrees_iff]
  constructor
  · intro hp
    exact (hp.2.eq_of_length_le (by rwa [length_map])).symm
  · intro he
    exact ⟨h, he ▸ prefix_rfl⟩

/-! ### Names that differ in case only -/

theorem baseOf_lower (s : Name) : baseOf (s.map lower) = (baseOf s).map lower := by
  have hp : ((fun c : UInt8 => decide (c ≠ 46)) ∘ lower) = fun c => decide (c ≠ 46) :=
    funext fun c => decide_eq_decide.mpr (not_congr lower_eq_dot)
  rw [baseOf, baseOf, takeWhile_map, hp]

theorem extOf_lower (s : Name) : extOf (s.map lower) = (extOf s).map lower := by
  have hp : ((fun c : UInt8 => decide (c ≠ 46)) ∘ lower) = fun c => decide (c ≠ 46) :=
    funext fun c => decide_eq_decide.mpr (not_congr lower_eq_dot)
  rw [extOf, extOf, dropWhile_map, hp, map_drop]

theorem name83_lower (s : Name) : name83 (s.map lower) = name83 s := by
  have hu : ∀ l : Name, (l.map lower).map upper = l.map upper := fun l => by
    rw [map_map]
    exact map_congr_left fun c _ => upper_lower c
  rw [name83, name83, baseOf_lower, extOf_lower, hu, hu]

theorem SameName.name83_eq (h : SameName a b) : name83 a = name83 b := by
  rw [← name83_lower a, ← name83_lower b, h]

theorem fits83_ne_nil (h : fits83 a) : a ≠ [] := by
  rintro rfl
  cases h

theorem name83_inj (ha : fits83 a) (hb : fits83 b) : name83 a = name83 b ↔ SameName a b := by
  constructor
  · intro h
    rw [SameName, ← (fits83_iff (fits83_ne_nil ha)).mp ha, h, (fits83_iff (fits83_ne_nil hb)).mp hb]
  · exact SameName.name83_eq

theorem name83_headD (s : Name) : (name83 s).headD 0 ≠ 46 := by
  have hb : (name83 s).headD 0 = ((baseOf s).map upper).headD 32 := by
    rw [name83]
    cases baseOf s with
    | nil => rfl
    | cons c l => rfl
  rw [hb]
  cases h : baseOf s with
  | nil => decide
  | cons c l =>
    have hc : c ∈ baseOf s := h ▸ mem_cons_self
    have hne := mem_takeWhile_imp hc
    rw [decide_eq_true_eq] at hne
    exact fun he => hne (upper_eq_dot.mp he)

/-- The entry of a file with the name `b` that has no long name. -/
structure Item.ShortOnly (e : Item) (b : Name) : Prop where
  short : isShort e.slot
  run : e.run = []
  fits : fits83 b
  name : dirName e.slot = name83 b

theorem Item.ShortOnly.not_dots (h : e.ShortOnly b) : dotMatches a e.slot = false := by
  have h0 : (dirName e.slot).headD 0 = e.slot 0 := rfl
  have hne : e.slot 0 ≠ 46 := by
    rw [← h0, h.name]
    exact name83_headD b
  exact decide_eq_false fun h => h.elim (fun h => hne h.2.1) fun h => hne h.2.1

theorem Item.ShortOnly.looks_iff (h : e.ShortOnly b) (ha : fits83 a) : e.looks a = true ↔ SameName a b := by
  have hl : e.long = none := by rw [Item.long, h.run]; rfl
  rw [Item.looks, h.short, hl, h.not_dots, Option.any_none, Bool.true_and, Bool.false_or, Bool.false_or,
    decide_eq_true_eq,
    h.name]
  exact name83_inj ha h.fits

theorem SameName.fits83 (h : SameName a b) (hb : fits83 b) : fits83 a := by
  have ha : a ≠ [] := by
    rintro rfl
    exact fits83_ne_nil hb (map_eq_nil_iff.mp h.symm)
  rw [fits83_iff ha, h.name83_eq, (fits83_iff (fits83_ne_nil hb)).mp hb, h]

theorem firstLook_eq {items : List Item} {i : Nat} (pos : Nat) (hi : items[i]? = some e) (hl : e.looks nm)
    (hmin : ∀ j e', j < i → items[j]? = some e' → ¬e'.looks nm) :
    firstLook nm items pos = some (e.slot, uint (pos + offset items i)) := by
  cases hf : firstLook nm items pos with
  | none => exact absurd hl (firstLook_none hf e (mem_of_getElem? hi))
  | some r =>
    rcases firstLook_some hf with ⟨k, e1, hk, hr, hl1, hmin1⟩
    have hik : i = k := by
      by_contra hne
      rcases Nat.lt_or_gt_of_ne hne with h | h
      · exact hmin1 i e h hi hl
      · exact hmin k e1 h hk hl1
    subst hik
    rw [hr, Option.some.inj (hi.symm.trans hk)]

/-- Short names are faithful: among names that fit they tell apart exactly the names that differ in
more than case, a name fits exactly if its short name is printed as the name in lower case, and where
all files have short names only, a file is found by its name in any case unless one in front of it has
the same name. -/
theorem short_names_faithful :
    (∀ a b, fits83 a → fits83 b → (name83 a = name83 b ↔ SameName a b)) ∧
    (∀ nm, nm ≠ [] → (fits83 nm ↔ render83 (name83 nm) = nm.map lower)) ∧
    ∀ (fm : Mount) (disk : Disk) (dv : DirNode) (dir : Dir), dv.attrs &&& attrDirectory ≠ 0 →
      Content fm disk dv.firstClus dir.slots → (∀ e ∈ dir.items, isShort e.slot → ∃ b, e.ShortOnly b) →
      ∀ (i : Nat) (e : Item) (b : Name), dir.items[i]? = some e → e.ShortOnly b →
        (∀ (j : Nat) (e' : Item) (b' : Name), j < i → dir.items[j]? = some e' → e'.ShortOnly b' → ¬SameName b' b) →
        ∀ a, SameName a b → ∀ junk, ∃ n, ∀ fuel, n ≤ fuel →
          dlookup fm disk dv a junk fuel = some (some (e.slot, uint (offset dir.items i))) := by
  refine ⟨fun a b ha hb => name83_inj ha hb, fun nm h => fits83_iff h, ?_⟩
  intro fm disk dv dir hd hc hall i e b hi hb hfirst a hab junk
  have ha : fits83 a := hab.fits83 hb.fits
  have hlook : firstLook a dir.items 0 = some (e.slot, uint (0 + offset dir.items i)) := by
    apply firstLook_eq 0 hi ((hb.looks_iff ha).mpr hab)
    intro j e' hj he' hl
    have hs : isShort e'.slot := by
      rw [Item.looks, Bool.and_eq_true] at hl
      exact hl.1
    cases hall e' (mem_of_getElem? he') hs with
    | intro b' hb' =>
      have hab' := (hb'.looks_iff ha).mp hl
      exact hfirst j e' b' hj he' hb' (hab'.symm.trans hab)
  rw [Nat.zero_add] at hlook
  rw [← hlook]
  exact (dlookup_eq (dir.searched a) hd hc junk).1

/-! A directory with a deleted slot, "README.TXT" and "LONGFILE". -/

def shortSlots : List Bytes := [deletedSlot, readmeSlot 5, longfileSlot]

theorem shortSlots_short : slotOf shortSlots 0 0 = 0xE5 ∧ isShort (slotOf shortSlots 1) = true ∧
    isShort (slotOf shortSlots 2) = true ∧ slotOf shortSlots 3 0 = 0 := by decide +kernel

theorem shortDir_ends : ∀ d ∈ ((List.range' 3 13).map (slotOf shortSlots)).head?, d 0 = 0 :=
  fun _ hd => Option.some.inj hd ▸ shortSlots_short.2.2.2

def shortDir : Dir where
  items := [bare (slotOf shortSlots 0) (.inl shortSlots_short.1),
    bare (slotOf shortSlots 1) (.inr shortSlots_short.2.1),
    bare (slotOf shortSlots 2) (.inr shortSlots_short.2.2.1)]
  orphans := []
  rest := (List.range' 3 13).map (slotOf shortSlots)
  lfn := lfn_nil
  ends := shortDir_ends

/-- "readme.txt" -/
def readmeTxt : Name := [114, 101, 97, 100, 109, 101, 46, 116, 120, 116]

/-- "LongFile" is the file "longfile", behind another one. -/
theorem longfile_in_any_case : ∃ n, ∀ fuel, n ≤ fuel →
    dlookup smallMount (dirDisk shortSlots) ⟨2, 0x10⟩ [76, 111, 110, 103, 70, 105, 108, 101] (fun _ => 0) fuel =
      some (some (slotOf shortSlots 2, 64)) := by
  have hnames : dirName (slotOf shortSlots 1) = name83 readmeTxt ∧
      dirName (slotOf shortSlots 2) = name83 (longfilename.take 8) := by decide +kernel
  have hreadme : (bare (slotOf shortSlots 1) (.inr shortSlots_short.2.1)).ShortOnly readmeTxt :=
    ⟨shortSlots_short.2.1, rfl, by decide, hnames.1⟩
  have hlong : (bare (slotOf shortSlots 2) (.inr shortSlots_short.2.2.1)).ShortOnly (longfilename.take 8) :=
    ⟨shortSlots_short.2.2.1, rfl, by decide, hnames.2⟩
  have hdel : ¬isShort (slotOf shortSlots 0) := by simp [isShort, shortSlots_short.1]
  apply short_names_faithful.2.2 smallMount (dirDisk shortSlots) ⟨2, 0x10⟩ shortDir (by decide)
    (dirDisk_content shortSlots) ?_ 2 (bare (slotOf shortSlots 2) (.inr shortSlots_short.2.2.1))
    (longfilename.take 8) rfl hlong ?_ _ (by decide)
  · intro e he hs
    simp only [shortDir, mem_cons, not_mem_nil, or_false] at he
    rcases he with rfl | rfl | rfl
    · exact absurd hs hdel
    · exact ⟨_, hreadme⟩
    · exact ⟨_, hlong⟩
  · intro j e b hj he hb
    rcases j with _ | _ | j
    · cases Option.some.inj he
      exact absurd hb.short hdel
    · cases Option.some.inj he
      intro hsame
      have hname : name83 readmeTxt = name83 (longfilename.take 8) := by
        rw [← hnames.1, ← hsame.name83_eq, ← hb.name]
        rfl
      exact absurd hname (by decide)
    · omega

end Xv6Vfs.Fat32
