import Xv6Vfs.Fat32.Decode
import Xv6Vfs.Fat32.Fresh

/-! A new name is read back: by a search for it in any case, and by `freaddir`. -/
namespace Xv6Vfs.Fat32
open Xv6Vfs.Bytes Xv6Vfs.Vfs List

variable {st : Lfn} {d : Bytes} {a b nm : Name} {sn : List UInt8}

/-! ### Searches for names that differ in case -/

theorem lfnString_length (buf : Nat → Nat) (k i len : Nat) : (lfnString buf k i len).length ≤ 255 - len := by
  induction k generalizing i len with
  | zero => simp [lfnString]
  | succ k ih =>
    rw [lfnString]
    split
    · split
      · simp
      · split
        · have := ih (i + 1) (len + 1)
          rw [length_cons]
          omega
        · exact ih (i + 1) len
    · simp

theorem longMatches_iff : longMatches nm d st = true ↔
    st.active = true ∧ 0 < st.chars ∧ lfnChecksum (dirName d) = st.cksum ∧
      SameName nm (lfnString st.buf st.chars 0 0) := by
  have hlen := lfnString_length st.buf st.chars 0 0
  rw [longMatches, decide_eq_true_eq, ncasecmp_iff (by omega)]

theorem SameName.eq_dots (h : SameName a b) : (a = dot ↔ b = dot) ∧ (a = dotdot ↔ b = dotdot) := by
  have hd : ∀ x : Name, x = dot ↔ x.map lower = dot := by
    intro x
    constructor
    · rintro rfl
      rfl
    · intro hx
      rcases map_eq_cons_iff.mp hx with ⟨c, t, rfl, hc, ht⟩
      rw [lower_eq_dot.mp hc, map_eq_nil_iff.mp ht]
      rfl
  have hdd : ∀ x : Name, x = dotdot ↔ x.map lower = dotdot := by
    intro x
    constructor
    · rintro rfl
      rfl
    · intro hx
      rcases map_eq_cons_iff.mp hx with ⟨c, t, rfl, hc, ht⟩
      rcases map_eq_cons_iff.mp ht with ⟨c', t', rfl, hc', ht'⟩
      rw [lower_eq_dot.mp hc, lower_eq_dot.mp hc', map_eq_nil_iff.mp ht']
      rfl
  rw [hd a, hd b, hdd a, hdd b, h]
  exact ⟨Iff.rfl, Iff.rfl⟩

theorem SameName.visit_eq (h : SameName a b) (d : Bytes) (st : Lfn) : visit a d st = visit b d st := by
  have hlong : longMatches a d st = longMatches b d st := by
    rw [Bool.eq_iff_iff, longMatches_iff, longMatches_iff, SameName, SameName, h]
  have hdot : dotMatches a d = dotMatches b d := by
    simp only [dotMatches, h.eq_dots.1, h.eq_dots.2]
  rw [visit, visit, hlong, hdot, ncmp, ncmp, h.name83_eq]

theorem SameName.scan_eq {a b : Name} (h : SameName a b) (l : List Bytes) (pos : Nat) (st : Lfn) :
    scan a l pos st = scan b l pos st := by
  induction l generalizing pos st with
  | nil => rfl
  | cons d l ih =>
    rw [scan, scan, h.visit_eq]
    cases visit b d st with
    | none => rfl
    | some r =>
      cases r with
      | found => rfl
      | stop => rfl
      | next st => exact ih _ st

/-! ### A search meets the new entries -/

section New

variable {nm : Name} {sn : List UInt8} {type : VType} {c : Nat}

theorem dirent_zero (h : sn.length = 11) (attr : UInt8) : dirent sn attr c 0 = sn.headD 0 := by
  rw [dirent_low (by omega), ofList_append_left (by omega)]
  cases sn with
  | nil => rfl
  | cons b sn => rfl

theorem isShort_dirent (h : sn.length = 11) (h0 : sn.headD 0 ≠ 0) (h5 : sn.headD 0 ≠ 0xE5) :
    isShort (dirent sn (newAttr type) c) := by
  have hattr : newAttr type ≠ attrLongName := by
    rw [newAttr]
    split
    · decide
    · decide
  rw [isShort, decide_eq_true_eq, dirent_zero h, dirAttr_dirent h]
  exact ⟨h0, h5, hattr⟩

theorem name83_headD_eq (s : Name) : (name83 s).headD 0 = ((baseOf s).map upper).headD 32 := by
  rw [name83]
  cases baseOf s with
  | nil => rfl
  | cons c l => rfl

theorem isAlnum_ne {b : UInt8} (h : isAlnum b) : b ≠ 0 ∧ b ≠ 0xE5 := by
  constructor
  · rintro rfl
    exact absurd h (by decide)
  · rintro rfl
    exact absurd h (by decide)

theorem genShortName_headD (s : Name) (tail : Nat) :
    (genShortName s tail).headD 0 ≠ 0 ∧ (genShortName s tail).headD 0 ≠ 0xE5 := by
  rw [genShortName]
  generalize ht : (((s.filter (· ≠ 46)).map upper).filter isAlnum).take 6 = t
  cases t with
  | nil =>
    have h95 : ∀ x : List UInt8, ([] ++ List.replicate 6 (95 : UInt8) ++ x).headD 0 = 95 := fun _ => rfl
    rw [length_nil, append_assoc, h95]
    exact ⟨by decide, by decide⟩
  | cons b t =>
    have hmem : b ∈ ((s.filter (· ≠ 46)).map upper).filter isAlnum :=
      mem_of_mem_take (by rw [ht]; exact mem_cons_self)
    exact isAlnum_ne (mem_filter.mp hmem).2

/-- The search for the name itself ends at the short entry if that is not marked as deleted. -/
theorem scan_newEntries (hn : GoodName nm) (hascii : ∀ b ∈ nm, b.toNat < 128) (hlen : sn.length = 11)
    (hfits : fits83 nm → sn = name83 nm) (hs : isShort (dirent sn (newAttr type) c)) (post : List Bytes) (pos : Nat)
    (st : Lfn) : scan nm (newEntries nm sn (newAttr type) c ++ post) pos st =
      some (.inl (some (dirent sn (newAttr type) c, uint (pos + 32 * lfnCount nm)))) := by
  have hname := dirName_dirent hlen (newAttr type) c
  have hs' := hs
  simp only [isShort, decide_eq_true_eq] at hs'
  have hvisit : ∀ st', (longMatches nm (dirent sn (newAttr type) c) st' = true ∨ name83 nm = sn) →
      visit nm (dirent sn (newAttr type) c) st' = some .found := by
    intro st' hm
    rw [visit, if_neg hs'.1, if_neg hs'.2.1, if_neg hs'.2.2, if_pos]
    cases hm with
    | inl hm => rw [hm]; rfl
    | inr hm => simp [ncmp, hm, hname]
  rw [newEntries, append_assoc, ← hname, scan_run (isLfn_lfnEntries hn.lfnCount_le), lfnEntries_length, hname,
    singleton_append]
  by_cases hf : fits83 nm = true
  · have h0 : lfnCount nm = 0 := if_pos hf
    rw [h0]
    have hnil : visitRun (lfnEntries nm 0 (lfnChecksum sn)) st = some st := rfl
    rw [hnil, Option.bind_some, scan, hvisit st (.inr (hfits hf).symm)]
    rfl
  · have hf' : fits83 nm = false := by simpa using hf
    have hc := @complete_lfnEntries nm (lfnCount nm) (dirent sn (newAttr type) c) (hn.lfnCount_eq hf').1 hn.lfnCount_le
    rcases longMatches_complete nm st hc with ⟨st', he, hm⟩
    have hall : nm.filter (fun b => decide (b.toNat < 128)) = nm :=
      filter_eq_self.mpr fun b hb => decide_eq_true (hascii b hb)
    rw [hn.asciiName_eq hf', hall] at hm
    rw [hname] at he
    rw [he, Option.bind_some, scan, hvisit st' (.inl (hm.trans (decide_eq_true rfl)))]
    rfl

end New

/-! ### The directory around the new entries -/

theorem map_cut_slots (v : Volume) (disk : Disk) (cs : List Nat) : (slots v disk cs).map cut = slots v disk cs := by
  rw [slots_eq, map_map]
  exact map_congr_left fun d _ => cut_cut d

section Created

variable {v : Volume} {d vn c : Nat} {nm : Name} {type : VType} {cs cs' : List Nat} {fs fs' : Fs} {sn : List UInt8}

section

variable (h : Created v d nm type cs fs vn fs' c sn cs') (hreach : InReach nm (slots v fs.disk cs))
include h hreach

/-- The slots in front of the new entries are the old ones. -/
theorem Created.around : ∃ rest,
    entryIdx nm (slots v fs.disk cs) + 1 + rest.length = (withRoom v (lfnCount nm + 1) (slots v fs.disk cs)).length ∧
    slots v fs'.disk cs' = ((slots v fs.disk cs).take (gapFor nm (slots v fs.disk cs)) ++
      (newEntries nm sn (newAttr type) c ++ rest)).map cut := by
  have hle := gapFor_le nm (slots v fs.disk cs)
  have hpre : ((slots v fs.disk cs).take (gapFor nm (slots v fs.disk cs))).map cut =
      (slots v fs.disk cs).take (gapFor nm (slots v fs.disk cs)) := by
    rw [map_take, map_cut_slots]
  generalize hw : withRoom v (lfnCount nm + 1) (slots v fs.disk cs) = w
  have htake : w.take (gapFor nm (slots v fs.disk cs)) =
      (slots v fs.disk cs).take (gapFor nm (slots v fs.disk cs)) := by
    rw [← hw, withRoom, take_append_of_le_length hle]
  have hcut : w.map cut = w := by
    rw [← hw, withRoom, map_append, map_cut_slots]
    congr 1
    split
    · rfl
    · rw [map_replicate]
      congr 1
      funext i
      rw [cut, ite_self]
  have hroom := h.room_le hreach
  rw [hw] at hroom
  refine ⟨w.drop (gapFor nm (slots v fs.disk cs) + (lfnCount nm + 1)), by rw [length_drop, entryIdx]; omega, ?_⟩
  rw [h.spliced hreach, hw, splice, htake, length_map, newEntries_length, map_append, map_append, hpre,
    map_drop, hcut, append_assoc]

theorem Created.search_eq (nm' : Name) (junk : Nat → Nat) : ∃ rest,
    entryIdx nm (slots v fs.disk cs) + 1 + rest.length = (withRoom v (lfnCount nm + 1) (slots v fs.disk cs)).length ∧
    (search v fs' d nm' junk).map cutEntry =
      ((scan nm' ((slots v fs.disk cs).take (gapFor nm (slots v fs.disk cs)) ++
        (newEntries nm sn (newAttr type) c ++ rest)) 0 ⟨junk, 0, 0, false, 0⟩).map outcome).map cutEntry := by
  rcases h.around hreach with ⟨rest, hlen, hs⟩
  refine ⟨rest, hlen, ?_⟩
  rw [search, Node.dirNode, h.dir.chain.dlookup_eq h.dir.ok h.dir.attrs, hs, scan_cut, Option.map_map, Option.map_map]
  congr 1
  funext r
  cases r with
  | inl e => rfl
  | inr st => rfl

/-- A search ends at the place of the new entry if it gets past the slots in front of the gap and ends there. -/
theorem Created.found_at (nm' : Name) (junk : Nat → Nat) :
    ∃ rest,
      entryIdx nm (slots v fs.disk cs) + 1 + rest.length = (withRoom v (lfnCount nm + 1) (slots v fs.disk cs)).length ∧
      ((∃ e, search v fs' d nm' junk = some (some (e, 32 * entryIdx nm (slots v fs.disk cs)))) ↔
      ∃ st, scan nm' ((slots v fs.disk cs).take (gapFor nm (slots v fs.disk cs))) 0 ⟨junk, 0, 0, false, 0⟩ =
        some (.inr st) ∧ ∃ e, scan nm' (newEntries nm sn (newAttr type) c ++ rest)
          (32 * gapFor nm (slots v fs.disk cs)) st =
            some (.inl (some (e, 32 * entryIdx nm (slots v fs.disk cs))))) := by
  have hle := gapFor_le nm (slots v fs.disk cs)
  rcases h.search_eq hreach nm' junk with ⟨rest, hlen, hsearch⟩
  rw [scan_append, length_take_of_le hle, Nat.zero_add] at hsearch
  refine ⟨rest, hlen, ?_⟩
  constructor
  · rintro ⟨e, he⟩
    rw [he] at hsearch
    rcases Option.map_eq_some_iff.mp hsearch.symm with ⟨o, ho, hq⟩
    rcases Option.map_eq_some_iff.mp hq with ⟨⟨e', p⟩, rfl, hpos⟩
    obtain rfl : p = _ := (Prod.mk.inj hpos).2
    rcases Option.map_eq_some_iff.mp ho with ⟨r, hr, hout⟩
    rcases Option.bind_eq_some_iff.mp hr with ⟨s, hp, hr⟩
    cases s with
    | inr st =>
      cases r with
      | inr st' => cases hout
      | inl q =>
        cases hout
        exact ⟨st, hp, e', hr⟩
    | inl q =>
      cases hr
      cases hout
      rcases scan_found hp with ⟨k, hk, hget, -⟩
      have hlt := (List.getElem?_eq_some_iff.mp hget).1
      rw [length_take_of_le hle] at hlt
      rw [InReach, entryIdx] at hreach
      rw [uint, entryIdx] at hk
      omega
  · rintro ⟨st, hp, e, he⟩
    rw [hp, Option.bind_some] at hsearch
    dsimp only at hsearch
    rw [he] at hsearch
    rcases Option.map_eq_some_iff.mp hsearch with ⟨o, ho, hq⟩
    rcases Option.map_eq_some_iff.mp hq with ⟨⟨e', p⟩, rfl, hpos⟩
    obtain rfl : p = _ := (Prod.mk.inj hpos).2
    exact ⟨e', ho⟩

/-- The new entry is found exactly if the search gets past the slots in front of it. -/
theorem Created.found_iff (hn : GoodName nm)
    (hascii : ∀ b ∈ nm, b.toNat < 128) (hs : isShort (dirent sn (newAttr type) c)) {nm' : Name}
    (hsame : SameName nm' nm) (junk : Nat → Nat) :
    (∃ e, search v fs' d nm' junk = some (some (e, 32 * entryIdx nm (slots v fs.disk cs)))) ↔
      ∃ st, scan nm ((slots v fs.disk cs).take (gapFor nm (slots v fs.disk cs))) 0 ⟨junk, 0, 0, false, 0⟩ =
        some (.inr st) := by
  have hfits : fits83 nm → sn = name83 nm := fun hf => by
    have := h.short
    rw [shortNameIn, if_pos hf] at this
    exact (Option.some.inj this).symm
  rcases h.found_at hreach nm' junk with ⟨rest, -, hfound⟩
  rw [hfound, hsame.scan_eq]
  refine exists_congr fun st => and_iff_left ⟨dirent sn (newAttr type) c, ?_⟩
  rw [hsame.scan_eq, scan_newEntries hn hascii (chosen_length h.short) hfits hs, ← Nat.mul_add, ← entryIdx, uint_slot,
    Nat.mod_eq_of_lt hreach]

/-- `freaddir` at an offset among the new entries reports the new name with the long-name slots in
front of its short entry. -/
theorem Created.reads (hn : GoodName nm) (hs : isShort (dirent sn (newAttr type) c)) (junk : Nat → Nat) {off : Nat}
    (hlo : 32 * gapFor nm (slots v fs.disk cs) ≤ off) (hhi : off ≤ 32 * entryIdx nm (slots v fs.disk cs)) :
    freaddir v.toMount fs'.disk (fs'.vnodes d).dirNode junk off = some (some ⟨c % 65536,
      printedName junk ((lfnEntries nm (lfnCount nm) (lfnChecksum sn)).reverse ++
        ((slots v fs.disk cs).take (gapFor nm (slots v fs.disk cs))).reverse) sn,
      uint (32 * entryIdx nm (slots v fs.disk cs) + 32)⟩) := by
  have hle := gapFor_le nm (slots v fs.disk cs)
  have hsn := chosen_length h.short
  rcases h.around hreach with ⟨rest, -, hs'⟩
  generalize slots v fs.disk cs = l at *
  have hmax : 32 * entryIdx nm l < 2 ^ 32 := by
    rw [InReach] at hreach
    omega
  have hlfn : ∀ e ∈ lfnEntries nm (lfnCount nm) (lfnChecksum sn), e 0 = 0xE5 ∨ e 0 ≠ 0 ∧ dirAttr e = attrLongName := by
    intro e he
    have := isLfn_lfnEntries hn.lfnCount_le e he
    simp only [isLfn, decide_eq_true_eq] at this
    exact .inr ⟨this.1, this.2.2.1⟩
  have hpos : 0 + 32 * (l.take (gapFor nm l)).length + 32 * (lfnEntries nm (lfnCount nm) (lfnChecksum sn)).length =
      32 * entryIdx nm l := by
    rw [length_take_of_le hle, lfnEntries_length, entryIdx]
    omega
  -- the loop passes the old slots and those of the long name
  have hsweep : sweep (visitNext off) (slots v fs'.disk cs') 0 =
      .inl (some (cut (dirent sn (newAttr type) c), 32 * entryIdx nm l)) := by
    have hpre : 0 + 32 * (l.take (gapFor nm l)).length ≤ off := by
      rw [length_take_of_le hle]
      omega
    rw [hs', sweep_visitNext_cut, sweep_append, sweep_visitNext_before _ _ hpre, newEntries, append_assoc]
    dsimp only
    rw [sweep_append, sweep_visitNext_skip _ _ hlfn]
    dsimp only
    rw [singleton_append, sweep, hpos, visitNext_short hs hhi hmax]
    rfl
  have htake : (slots v fs'.disk cs').take (entryIdx nm l) =
      (l.take (gapFor nm l) ++ lfnEntries nm (lfnCount nm) (lfnChecksum sn)).map cut := by
    have hlen : (l.take (gapFor nm l) ++ lfnEntries nm (lfnCount nm) (lfnChecksum sn)).length = entryIdx nm l := by
      rw [length_append, length_take_of_le hle, lfnEntries_length, entryIdx]
    rw [hs', newEntries, append_assoc, ← append_assoc, ← map_take, ← hlen, take_left]
  rw [Node.dirNode, h.dir.chain.freaddir_eq h.dir.ok h.dir.attrs, hsweep]
  dsimp only
  rw [Nat.mul_div_cancel_left _ (by omega), htake, ← map_reverse, printedName_cut, reverse_append,
    fstClus_cut, fstClus_dirent _ _ h.clus, dirName_cut, dirName_dirent hsn]

end

end Created

/-! ### Stray slots of long names -/

/-- The slots in front of the gap that `freaddir` takes for more parts of the new long name. -/
def strays (nm : Name) (sn : List UInt8) (pre : List Bytes) : List Bytes :=
  parts (lfnChecksum sn) pre.reverse (lfnCount nm + 1)

/-- What they add to the name. -/
def strayName (junk : Nat → Nat) (nm : Name) (ps : List Bytes) : Name :=
  printUnits (fill junk (lfnCount nm * 13) ps) (ps.length * 13) (lfnCount nm * 13) (lfnCount nm * 13)

/-- Stray slots do not disturb the name: there are none in front of a short name or they spell the
same, and they add no character to a long name, which only one with no room for an end mark lets them do. -/
def Undisturbed (nm : Name) (sn : List UInt8) (pre : List Bytes) : Prop :=
  ∀ junk, if fits83 nm then strays nm sn pre = [] ∨ strayName junk nm (strays nm sn pre) = nm.map lower
    else nm.length % 13 ≠ 0 ∨ strayName junk nm (strays nm sn pre) = []

/-- The name as `freaddir` should report it. -/
def shownName (nm : Name) : Name := if fits83 nm then nm.map lower else nm

theorem printedName_long (hn : GoodName nm) (hascii : ∀ b ∈ nm, b.toNat < 128) (hf : fits83 nm = false)
    (hlen : sn.length = 11) (junk : Nat → Nat) (pre : List Bytes) :
    printedName junk ((lfnEntries nm (lfnCount nm) (lfnChecksum sn)).reverse ++ pre.reverse) sn =
      if nm.length % 13 ≠ 0 then nm else nm ++ strayName junk nm (strays nm sn pre) := by
  rcases hn.lfnCount_eq hf with ⟨hpos, hle, hlt⟩
  have h20 := hn.lfnCount_le
  have hc := @complete_lfnEntries nm (lfnCount nm) (dirent sn 0 0) hpos h20
  rw [dirName_dirent hlen] at hc
  have hparts := parts_whole pre.reverse (complete_whole hc).1 (isLfn_lfnEntries h20)
  rw [dirName_dirent hlen, lfnEntries_length] at hparts
  have hlen255 := hn.length
  have hgood : ∀ b ∈ nm, b ≠ 0 ∧ b.toNat < 128 := fun b hb => ⟨fun h0 => hn.nul (h0 ▸ hb), hascii b hb⟩
  generalize hr : (lfnEntries nm (lfnCount nm) (lfnChecksum sn)).reverse = run at *
  have hrlen : run.length = lfnCount nm := by rw [← hr, length_reverse, lfnEntries_length]
  rw [printedName, reported, hparts, ← strays]
  generalize strays nm sn pre = ps
  rw [if_pos (by rw [length_append]; omega), Option.getD_some, printUnits_eq, length_append, hrlen, fill_append, hrlen,
    Nat.add_mul, range_add, map_append, map_map]
  -- the parts of the name itself
  have hown : ((List.range (lfnCount nm * 13)).map fun j =>
      fill (fill junk 0 run) (0 + 13 * lfnCount nm) ps (0 + j)) = run.flatMap lfnUnits := by
    have h1 := @fill_range run junk (by omega)
    rw [hrlen, Nat.mul_comm] at h1
    rw [← h1]
    apply map_congr_left
    intro j hj
    have := mem_range.mp hj
    rw [fill_eq _ _ ps, if_neg (by omega)]
  -- the stray ones do not depend on them
  have hstray : ((List.range (ps.length * 13)).map ((fun j => fill (fill junk 0 run) (0 + 13 * lfnCount nm) ps
    (0 + j)) ∘
      fun j => lfnCount nm * 13 + j)) =
      (List.range (ps.length * 13)).map fun j => fill junk (lfnCount nm * 13) ps (lfnCount nm * 13 + j) := by
    apply map_congr_left
    intro j _
    dsimp only [Function.comp_apply]
    rw [fill_eq _ _ ps, fill_eq _ _ ps, fill_eq _ _ run, Nat.zero_add, Nat.zero_add, Nat.mul_comm 13, hrlen,
      if_neg (show ¬(0 ≤ lfnCount nm * 13 + j ∧ lfnCount nm * 13 + j < 0 + 13 * lfnCount nm ∧
        lfnCount nm * 13 + j < 260) by omega)]
  rw [hown, hstray]
  rcases hn.units hf (lfnChecksum sn) with ⟨us, hus, husl, huse⟩
  rw [hr] at hus
  rw [hus, append_assoc, asciiUnits_append hgood]
  split
  · -- an end mark follows the name
    rename_i hmod
    rcases husl (by omega) with ⟨t, rfl⟩
    rw [cons_append, asciiUnits_cons, if_pos rfl, append_nil, take_of_length_le (by omega)]
  · rename_i hmod
    have hmul : nm.length = lfnCount nm * 13 := by omega
    rw [huse hmul, nil_append, take_append, take_of_length_le (by omega), strayName, printUnits_eq,
      ← hmul, Nat.sub_zero]

theorem printedName_short (hn : GoodName nm) (hf : fits83 nm = true) (junk : Nat → Nat) (pre : List Bytes) :
    printedName junk pre.reverse (name83 nm) =
      if strays nm (name83 nm) pre = [] then nm.map lower else strayName junk nm (strays nm (name83 nm) pre) := by
  have h0 : lfnCount nm = 0 := if_pos hf
  rw [strayName, strays, h0, printedName, reported]
  generalize parts (lfnChecksum (name83 nm)) pre.reverse (0 + 1) = ps
  cases ps with
  | nil => exact (fits83_iff hn.ne_nil).mp hf
  | cons p ps =>
    rw [if_pos (length_pos_of_ne_nil (cons_ne_nil p ps)), if_neg (cons_ne_nil p ps), Nat.zero_mul]
    rfl

/-- The name is reported as it should be exactly if stray slots do not disturb it. -/
theorem printedName_iff (hn : GoodName nm) (hascii : ∀ b ∈ nm, b.toNat < 128) (hlen : sn.length = 11)
    (hfits : fits83 nm → sn = name83 nm) (pre : List Bytes) :
    (∀ junk, printedName junk ((lfnEntries nm (lfnCount nm) (lfnChecksum sn)).reverse ++ pre.reverse) sn =
      shownName nm) ↔ Undisturbed nm sn pre := by
  apply forall_congr'
  intro junk
  by_cases hf : fits83 nm = true
  · have h0 : lfnCount nm = 0 := if_pos hf
    have hnil : lfnEntries nm 0 (lfnChecksum sn) = [] := rfl
    rw [h0, hnil, reverse_nil, nil_append, shownName, if_pos hf, if_pos hf, hfits hf, printedName_short hn hf]
    split
    · rename_i hs
      exact ⟨fun _ => .inl hs, fun _ => rfl⟩
    · rename_i hs
      exact ⟨.inr, fun h => h.resolve_left hs⟩
  · have hf' : fits83 nm = false := by simpa using hf
    rw [shownName, if_neg hf, if_neg hf, printedName_long hn hascii hf' hlen]
    split
    · rename_i hm
      exact ⟨fun _ => .inl hm, fun _ => rfl⟩
    · rename_i hm
      rw [append_right_eq_self]
      exact ⟨.inr, fun h => h.resolve_left hm⟩

/-- A new name of ASCII characters, with its entries in the first 4 GiB of the directory, is found by a search in any
case and reported by `freaddir`, the name itself if it has long-name entries and in lower case if not, exactly if the
search gets past the slots in front of the new entries, which an end mark there prevents, and no stray slots of long
names disturb the name. -/
theorem ascii_name_read_back_iff {v : Volume} {d vn : Nat} {nm : Name} {type : VType} {cs : List Nat}
    {junk : Nat → Nat} {fs fs' : Fs} (h : IsDir v fs d cs) (hne : nm ≠ []) (hlen : nm.length ≤ 255)
    (hascii : ∀ b ∈ nm, 1 ≤ b ∧ b ≤ 127 ∧ b ≠ 47) (hreach : InReach nm (slots v fs.disk cs))
    (he : fcreate v d nm type junk fs = some (some vn, fs')) :
    ((∀ nm' junk', SameName nm' nm →
        ∃ e, search v fs' d nm' junk' = some (some (e, 32 * entryIdx nm (slots v fs.disk cs)))) ∧
      ∀ junk' off, 32 * gapFor nm (slots v fs.disk cs) ≤ off → off ≤ 32 * entryIdx nm (slots v fs.disk cs) →
        ∃ inum, freaddir v.toMount fs'.disk (fs'.vnodes d).dirNode junk' off =
          some (some ⟨inum, shownName nm, uint (32 * entryIdx nm (slots v fs.disk cs) + 32)⟩)) ↔
    (∀ junk', ∃ st, scan nm ((slots v fs.disk cs).take (gapFor nm (slots v fs.disk cs))) 0
        ⟨junk', 0, 0, false, 0⟩ = some (.inr st)) ∧
      ∀ sn, shortNameIn (slots v fs.disk cs) nm = some sn →
        Undisturbed nm sn ((slots v fs.disk cs).take (gapFor nm (slots v fs.disk cs))) := by
  rcases (h.fcreate_spec he).2 with ⟨c, sn, cs', hcr⟩
  have hgood : GoodName nm := ⟨hne, hlen, fun h0 => absurd (hascii 0 h0).1 (by decide)⟩
  have hlt : ∀ b ∈ nm, b.toNat < 128 := fun b hb => by
    have := UInt8.le_iff_toNat_le.mp (hascii b hb).2.1
    exact Nat.lt_succ_of_le this
  have hsn := chosen_length hcr.short
  have hshort := hcr.short
  have hfits : fits83 nm → sn = name83 nm := fun hf => by
    rw [shortNameIn, if_pos hf] at hshort
    exact (Option.some.inj hshort).symm
  have hs : isShort (dirent sn (newAttr type) c) := by
    have hhead : sn.headD 0 ≠ 0 ∧ sn.headD 0 ≠ 0xE5 := by
      by_cases hf : fits83 nm = true
      · rw [hfits hf, name83_headD_eq]
        cases hb : baseOf nm with
        | nil => exact ⟨by decide, by decide⟩
        | cons b t =>
          have hmem : b ∈ nm := (takeWhile_sublist _).subset (hb ▸ mem_cons_self : b ∈ baseOf nm)
          have hb := hascii b hmem
          rw [map_cons, headD_cons, upper]
          grind
      · rw [shortNameIn, if_neg hf] at hshort
        rcases pickShortName_eq hshort with ⟨t, rfl⟩
        exact genShortName_headD nm t
    exact isShort_dirent hsn hhead.1 hhead.2
  have hread := fun junk' (off : Nat) hlo (hhi : off ≤ _) => hcr.reads hreach hgood hs junk' hlo hhi
  have hprint := printedName_iff hgood hlt hsn hfits ((slots v fs.disk cs).take (gapFor nm (slots v fs.disk cs)))
  apply and_congr
  · constructor
    · intro hall junk'
      exact (hcr.found_iff hreach hgood hlt hs rfl junk').mp (hall nm junk' rfl)
    · intro hall nm' junk' hsame
      exact (hcr.found_iff hreach hgood hlt hs hsame junk').mpr (hall junk')
  · constructor
    · intro hall sn' hsn'
      rw [hcr.short] at hsn'
      cases hsn'
      apply hprint.mp
      intro junk'
      have hle : 32 * gapFor nm (slots v fs.disk cs) ≤ 32 * entryIdx nm (slots v fs.disk cs) := by
        rw [entryIdx]
        omega
      rcases hall junk' _ (Nat.le_refl _) hle with ⟨inum, hrec⟩
      rw [hread junk' _ (Nat.le_refl _) hle] at hrec
      simp only [Option.some.injEq, Record.mk.injEq] at hrec
      exact hrec.2.1
    · intro hun junk' off hlo hhi
      have hname := hprint.mpr (hun sn hcr.short) junk'
      rw [hread junk' off hlo hhi, hname]
      exact ⟨_, rfl⟩

/-- "FileDataX.txt" -/
def fileDataX : Name := [70, 105, 108, 101, 68, 97, 116, 97, 88, 46, 116, 120, 116]

/-- In an empty directory the name is read back. -/
theorem fileDataX_read_back : ∃ fs',
    fcreate tinyVolume 0 fileDataX .file (fun _ => 0) tinyFs = some (some 1, fs') ∧
    ((∀ nm' junk', SameName nm' fileDataX → ∃ e, search tinyVolume fs' 0 nm' junk' =
        some (some (e, 32 * entryIdx fileDataX (slots tinyVolume tinyFs.disk [2])))) ∧
      ∀ junk' off, 32 * gapFor fileDataX (slots tinyVolume tinyFs.disk [2]) ≤ off →
        off ≤ 32 * entryIdx fileDataX (slots tinyVolume tinyFs.disk [2]) →
        ∃ inum, freaddir tinyVolume.toMount fs'.disk (fs'.vnodes 0).dirNode junk' off =
          some (some ⟨inum, shownName fileDataX,
            uint (32 * entryIdx fileDataX (slots tinyVolume tinyFs.disk [2]) + 32)⟩)) := by
  have hsome : (fcreate tinyVolume 0 fileDataX .file (fun _ => 0) tinyFs).map Prod.fst = some (some 1) := by
    decide +kernel
  rcases Option.map_eq_some_iff.mp hsome with ⟨⟨r, fs'⟩, he, hr⟩
  cases hr
  have hgap : gapFor fileDataX (slots tinyVolume tinyFs.disk [2]) = 0 := by decide +kernel
  refine ⟨fs', he, (ascii_name_read_back_iff tinyFs_isDir (by decide) (by decide) (by simp [fileDataX])
    (by decide +kernel) he).mpr ?_⟩
  rw [hgap, take_zero]
  exact ⟨fun _ => ⟨_, rfl⟩, fun sn _ _ => .inr rfl⟩

/-- The root directory has 15 entries and one slot left. -/
def crowdedDisk : Disk := fun b =>
  if b = 1 then fun o =>
    if o < 480 then if o % 32 < 11 then UInt8.ofNat (65 + o / 32) else if o % 32 = 11 then 0x20 else 0 else 0
  else tinyDisk b

def crowdedFs : Fs := { tinyFs with disk := crowdedDisk }

theorem crowdedFs_isDir : IsDir tinyVolume crowdedFs 0 [2] :=
  ⟨tinyVolume_ok, by decide, by decide, .last ⟨by decide, by decide⟩ (by decide +kernel)⟩

/-- The two entries of the name go to a new cluster; the search stops at the slot left in front of it. -/
theorem fileDataX_behind_end_mark : ∃ fs', IsDir tinyVolume crowdedFs 0 [2] ∧
    fcreate tinyVolume 0 fileDataX .file (fun _ => 0) crowdedFs = some (some 1, fs') ∧
    search tinyVolume fs' 0 fileDataX (fun _ => 0) = some none := by
  have h : ((fcreate tinyVolume 0 fileDataX .file (fun _ => 0) crowdedFs).bind fun r =>
      (search tinyVolume r.2 0 fileDataX fun _ => 0).map fun q => (r.1, q.isSome)) = some (some 1, false) := by
    decide +kernel
  rcases Option.bind_eq_some_iff.mp h with ⟨⟨r, fs'⟩, he, h⟩
  rcases Option.map_eq_some_iff.mp h with ⟨q, hq, h⟩
  simp only [Prod.mk.injEq, Option.isSome_eq_false_iff, Option.isNone_iff_eq_none] at h
  rcases h with ⟨rfl, rfl⟩
  exact ⟨fs', crowdedFs_isDir, he, hq⟩

end Xv6Vfs.Fat32
