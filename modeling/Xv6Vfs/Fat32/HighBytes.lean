import Xv6Vfs.Fat32.RoundTrip

/-! Names with bytes that are not ASCII. No long name matches them, since both decoders drop such
characters. -/
namespace Xv6Vfs.Fat32
open Xv6Vfs.Bytes Xv6Vfs.Vfs List Option

variable {d : Bytes} {b : UInt8} {pos : Nat} {a nm : Name} {st st1 : Lfn} {l : List Bytes}

/-- Some byte of the name is not ASCII. -/
def HighName (nm : Name) : Prop := ∃ b ∈ nm, 0x80 ≤ b

theorem lower_high (h : 0x80 ≤ b) : lower b = b := by
  unfold lower
  grind

theorem lower_low (h : b < 0x80) : lower b < 0x80 := by
  unfold lower
  grind

theorem HighName.ne_ascii {s : Name} (h : HighName nm) (hs : ∀ b ∈ s, b < 0x80) : ¬SameName nm s := by
  intro he
  rcases h with ⟨b, hb, hhigh⟩
  have hmem : b ∈ s.map lower := by
    rw [← he, ← lower_high hhigh]
    exact mem_map_of_mem hb
  rcases mem_map.mp hmem with ⟨x, hx, rfl⟩
  exact absurd (lower_low (hs x hx)) (UInt8.not_lt.mpr hhigh)

theorem lfnString_ascii (buf : Nat → Nat) (k i len : Nat) : ∀ b ∈ lfnString buf k i len, b < 0x80 := by
  induction k generalizing i len with
  | zero => exact forall_mem_nil _
  | succ k ih =>
    rw [lfnString]
    split
    · split
      · exact forall_mem_nil _
      · split
        · rename_i hlt
          intro b hb
          cases hb with
          | head =>
            rw [UInt8.lt_iff_toNat_lt, UInt8.toNat_ofNat']
            exact (Nat.mod_le _ _).trans_lt hlt
          | tail _ hb => exact ih (i + 1) (len + 1) b hb
        · exact ih (i + 1) len
    · exact forall_mem_nil _

section High

variable {nm : Name} (hh : HighName nm)
include hh

theorem HighName.longMatches_eq (d : Bytes) (st : Lfn) : longMatches nm d st = false := by
  rw [Bool.eq_false_iff, ne_eq, longMatches_iff]
  intro h
  exact hh.ne_ascii (lfnString_ascii _ _ _ _) h.2.2.2

theorem HighName.dotMatches_eq (d : Bytes) : dotMatches nm d = false := by
  have hdot : nm ≠ dot := by
    rintro rfl
    exact hh.ne_ascii (by simp [dot]) rfl
  have hdotdot : nm ≠ dotdot := by
    rintro rfl
    exact hh.ne_ascii (by simp [dotdot]) rfl
  exact dotMatches_eq_false hdot hdotdot d

theorem HighName.visit_eq (d : Bytes) (st : Lfn) :
    visit nm d st =
      if d 0 = 0x00 then some .stop
      else if d 0 = 0xE5 then some (.next st.reset)
      else if dirAttr d = attrLongName then (visitLfn d st).map .next
      else if name83 nm = dirName d then some .found else some (.next st.reset) := by
  rw [visit, hh.longMatches_eq, hh.dotMatches_eq, ncmp, Bool.or_false, Bool.false_or]
  simp only [decide_eq_true_eq]

end High

theorem visit_stop {nm : Name} {d : Bytes} {st : Lfn} : visit nm d st = some .stop ↔ d 0 = 0 := by
  constructor
  · intro h
    by_contra h0
    rw [visit, if_neg h0] at h
    split at h
    · cases h
    · split at h
      · rcases map_eq_some_iff.mp h with ⟨st', -, h⟩
        cases h
      · split at h
        · cases h
        · cases h
  · intro h0
    rw [visit, if_pos h0]

/-- An end mark ends a search; nothing else ends it without an entry. -/
theorem scan_end :
    (scan nm l pos st = some (.inl none) → ∃ d ∈ l, d 0 = 0) ∧
    ∀ st', scan nm l pos st = some (.inr st') → ∀ d ∈ l, d 0 ≠ 0 := by
  induction l generalizing pos st with
  | nil => exact ⟨fun h => (by cases h), fun _ _ => forall_mem_nil _⟩
  | cons e l ih =>
    rw [scan]
    cases hv : visit nm e st with
    | none => exact ⟨fun h => (by cases h), fun _ h => by cases h⟩
    | some r =>
      have hstop : r = .stop ↔ e 0 = 0 := by
        rw [← @visit_stop nm e st, hv, some.injEq]
      cases r with
      | found => exact ⟨fun h => (by cases h), fun _ h => by cases h⟩
      | stop => exact ⟨fun _ => ⟨e, mem_cons_self, hstop.mp rfl⟩, fun _ h => by cases h⟩
      | next st1 =>
        have h0 : e 0 ≠ 0 := fun h => by cases hstop.mpr h
        constructor
        · intro h
          rcases ih.1 h with ⟨d, hd, hd0⟩
          exact ⟨d, mem_cons_of_mem e hd, hd0⟩
        · intro st' h d hd
          cases hd with
          | head => exact h0
          | tail _ hd => exact ih.2 st' h d hd

/-! ### Names in the new entries -/

theorem head_ne_zero (hn : GoodName nm) {sn : List UInt8} (h : shortNameIn l nm = some sn) : sn.headD 0 ≠ 0 := by
  rw [shortNameIn] at h
  split at h
  · rw [← some.inj h, name83_headD_eq]
    cases hb : baseOf nm with
    | nil => decide
    | cons b t =>
      have hmem : b ∈ nm := (takeWhile_sublist _).subset (hb ▸ mem_cons_self : b ∈ baseOf nm)
      have hb0 : b ≠ 0 := fun h0 => hn.nul (h0 ▸ hmem)
      rw [map_cons, headD_cons, upper]
      grind
  · rcases pickShortName_eq h with ⟨t, rfl⟩
    exact (genShortName_headD nm t).1

/-- A search for a name with such bytes meets the new entries of `nm`. -/
theorem HighName.scan_newEntries {nm nm' : Name} {sn : List UInt8} {type : VType} {c : Nat} (hh : HighName nm')
    (hn : GoodName nm) (hlen : sn.length = 11) (h0 : sn.headD 0 ≠ 0) (post : List Bytes) (pos : Nat) (st : Lfn) :
    if sn.headD 0 ≠ 0xE5 ∧ name83 nm' = sn then
      scan nm' (newEntries nm sn (newAttr type) c ++ post) pos st =
        some (.inl (some (dirent sn (newAttr type) c, uint (pos + 32 * lfnCount nm))))
    else ∃ st', scan nm' (newEntries nm sn (newAttr type) c ++ post) pos st =
        scan nm' post (pos + 32 * lfnCount nm + 32) st' := by
  have hname := dirName_dirent hlen (newAttr type) c
  have hattr : dirAttr (dirent sn (newAttr type) c) ≠ attrLongName := by
    rw [dirAttr_dirent hlen, newAttr]
    split
    · decide
    · decide
  rcases visitRun_some (@isLfn_lfnEntries nm _ (lfnChecksum sn) hn.lfnCount_le) st with ⟨st', he⟩
  rw [newEntries, append_assoc, scan_run (isLfn_lfnEntries hn.lfnCount_le), lfnEntries_length, he,
    bind_some, singleton_append, scan, hh.visit_eq, dirent_zero hlen, hname, if_neg h0, if_neg hattr]
  by_cases h5 : sn.headD 0 = 0xE5
  · rw [if_pos h5, if_neg (fun h => h.1 h5)]
    exact ⟨_, rfl⟩
  · rw [if_neg h5]
    by_cases hm : name83 nm' = sn
    · rw [if_pos hm, if_pos ⟨h5, hm⟩]
      rfl
    · rw [if_neg hm, if_neg (fun h => hm h.2)]
      exact ⟨_, rfl⟩

theorem visitLfn_buf (h : visitLfn d st = some st1) (buf : Nat → Nat) :
    ∃ buf', visitLfn d { st with buf := buf } = some { st1 with buf := buf' } := by
  rw [visitLfn] at h ⊢
  split at h
  · rename_i hl
    rw [if_pos hl]
    split at h
    · cases h
    · rename_i h0
      rw [if_neg h0]
      cases h
      exact ⟨_, rfl⟩
  · rename_i hl
    rw [if_neg hl]
    split at h
    · rename_i hc
      rw [if_pos hc]
      split at h
      · cases h
      · rename_i h0
        rw [if_neg h0]
        cases h
        exact ⟨_, rfl⟩
    · rename_i hc
      rw [if_neg hc]
      cases h
      exact ⟨_, rfl⟩

theorem HighName.scan_buf (hh : HighName nm) (h : scan nm l pos st = some (.inr st1)) (buf : Nat → Nat) :
    ∃ st2, scan nm l pos { st with buf := buf } = some (.inr st2) := by
  induction l generalizing pos st buf with
  | nil => exact ⟨_, rfl⟩
  | cons d l ih =>
    rw [scan, hh.visit_eq] at h ⊢
    by_cases h0 : d 0 = 0x00
    · rw [if_pos h0] at h
      cases h
    · by_cases h5 : d 0 = 0xE5
      · rw [if_neg h0, if_pos h5] at h ⊢
        exact ih h buf
      · by_cases hl : dirAttr d = attrLongName
        · rw [if_neg h0, if_neg h5, if_pos hl] at h ⊢
          cases hv : visitLfn d st with
          | none =>
            rw [hv] at h
            cases h
          | some st' =>
            rw [hv] at h
            rcases visitLfn_buf hv buf with ⟨buf', hv'⟩
            rw [hv']
            exact ih h buf'
        · rw [if_neg h0, if_neg h5, if_neg hl] at h ⊢
          by_cases hs : name83 nm = dirName d
          · rw [if_pos hs] at h
            cases h
          · rw [if_neg hs] at h ⊢
            exact ih h buf

section Created

variable {v : Volume} {d vn c : Nat} {nm : Name} {type : VType} {cs cs' : List Nat} {fs fs' : Fs} {sn : List UInt8}

/-- A name with such bytes is found in the new entries by their short name only. -/
theorem Created.found_high_iff (h : Created v d nm type cs fs vn fs' c sn cs')
    (hreach : InReach nm (slots v fs.disk cs))
    (hsize : (withRoom v (lfnCount nm + 1) (slots v fs.disk cs)).length ≤ 2 ^ 27) (hn : GoodName nm) {nm' : Name}
    (hh : HighName nm') (junk : Nat → Nat) :
    (∃ e, search v fs' d nm' junk = some (some (e, 32 * entryIdx nm (slots v fs.disk cs)))) ↔
      (∃ st, scan nm' ((slots v fs.disk cs).take (gapFor nm (slots v fs.disk cs))) 0 ⟨junk, 0, 0, false, 0⟩ =
        some (.inr st)) ∧ sn.headD 0 ≠ 0xE5 ∧ name83 nm' = sn := by
  have hidx : 32 * gapFor nm (slots v fs.disk cs) + 32 * lfnCount nm = 32 * entryIdx nm (slots v fs.disk cs) := by
    rw [entryIdx, Nat.mul_add]
  rcases h.found_at hreach nm' junk with ⟨rest, hlen, hfound⟩
  rw [hfound, ← exists_and_right]
  refine exists_congr fun st => and_congr_right fun _ => ?_
  have hnew := @HighName.scan_newEntries nm nm' sn type c hh hn (chosen_length h.short) (head_ne_zero hn h.short) rest
    (32 * gapFor nm (slots v fs.disk cs)) st
  by_cases hm : sn.headD 0 ≠ 0xE5 ∧ name83 nm' = sn
  · rw [if_pos hm, hidx, uint_slot, Nat.mod_eq_of_lt hreach] at hnew
    exact ⟨fun _ => hm, fun _ => ⟨_, hnew⟩⟩
  · rw [if_neg hm, hidx] at hnew
    rcases hnew with ⟨st', hnew⟩
    refine ⟨fun hq => ?_, fun hq => absurd hq hm⟩
    rcases hq with ⟨e, hq⟩
    rw [hnew] at hq
    rcases scan_found hq with ⟨k, hk, hget, -⟩
    have hlt := (List.getElem?_eq_some_iff.mp hget).1
    rw [uint] at hk
    omega

/-- The search of `fcreate` got past the slots in front of the gap exactly if none of them is an end mark. -/
theorem passes_iff {k : Nat} {junk : Nat → Nat} (hh : HighName nm)
    (habs : (scan nm l 0 ⟨junk, 0, 0, false, 0⟩).map outcome = some none) (junk' : Nat → Nat) :
    (∃ st, scan nm (l.take k) 0 ⟨junk', 0, 0, false, 0⟩ = some (.inr st)) ↔ ∀ e ∈ l.take k, e 0 ≠ 0 := by
  constructor
  · rintro ⟨st, hst⟩
    exact scan_end.2 st hst
  · intro hno
    rw [← take_append_drop k l, scan_append] at habs
    cases hp : scan nm (l.take k) 0 ⟨junk, 0, 0, false, 0⟩ with
    | none =>
      rw [hp] at habs
      cases habs
    | some r =>
      cases r with
      | inr st => exact hh.scan_buf hp junk'
      | inl q =>
        rw [hp] at habs
        cases q with
        | none =>
          rcases scan_end.1 hp with ⟨e, he, h0⟩
          exact absurd h0 (hno e he)
        | some q => cases habs

end Created

/-- The names differ in a byte that is not ASCII. -/
def DifferHigh (a b : Name) : Prop :=
  ∃ i : Nat, a[i]? ≠ b[i]? ∧ ((∃ x, a[i]? = some x ∧ 0x80 ≤ x) ∨ ∃ x, b[i]? = some x ∧ 0x80 ≤ x)

theorem HighName.visit_congr {b : Name} (ha : HighName a) (hb : HighName b) (h : name83 a = name83 b) (e : Bytes)
    (st : Lfn) : visit a e st = visit b e st := by
  rw [ha.visit_eq, hb.visit_eq, h]

theorem HighName.scan_congr {b : Name} (ha : HighName a) (hb : HighName b) (h : name83 a = name83 b) (l : List Bytes)
    (pos : Nat) (st : Lfn) : scan a l pos st = scan b l pos st := by
  induction l generalizing pos st with
  | nil => rfl
  | cons e l ih =>
    rw [scan, scan, ha.visit_congr hb h]
    congr 1
    funext r
    cases r with
    | found => rfl
    | stop => rfl
    | next st' => exact ih (pos + 32) st'

/-- In a directory of at most 4 GiB a new name with bytes that are not ASCII is found again, and another such name does
not find it, exactly if no end mark stands in front of the new entries, the name got the short name that a search
computes, which does not
begin with the mark of a deleted entry, and the other name has another one. -/
theorem high_name_found_iff {v : Volume} {d vn : Nat} {a b : Name} {type : VType} {cs : List Nat}
    {junk : Nat → Nat} {fs fs' : Fs} (h : IsDir v fs d cs) (hgood : GoodName a) (ha : HighName a) (hb : HighName b)
    (hreach : InReach a (slots v fs.disk cs))
    (hsize : (withRoom v (lfnCount a + 1) (slots v fs.disk cs)).length ≤ 2 ^ 27)
    (he : fcreate v d a type junk fs = some (some vn, fs')) (junk' : Nat → Nat) :
    ((∃ e, search v fs' d a junk' = some (some (e, 32 * entryIdx a (slots v fs.disk cs)))) ∧
      (DifferHigh a b → ¬∃ e, search v fs' d b junk' = some (some (e, 32 * entryIdx a (slots v fs.disk cs))))) ↔
    (∀ e ∈ (slots v fs.disk cs).take (gapFor a (slots v fs.disk cs)), e 0 ≠ 0) ∧
      shortNameIn (slots v fs.disk cs) a = some (name83 a) ∧ (name83 a).headD 0 ≠ 0xE5 ∧
      (DifferHigh a b → name83 b ≠ name83 a) := by
  rcases h.fcreate_spec he with ⟨habs, c, sn, cs', hcr⟩
  have hold := h.chain.dlookup_eq h.ok h.attrs a junk
  rw [search, Node.dirNode] at habs
  rw [habs] at hold
  have hpass := passes_iff (k := gapFor a (slots v fs.disk cs)) ha hold.symm junk'
  rw [hcr.found_high_iff hreach hsize hgood ha, hcr.found_high_iff hreach hsize hgood hb, hpass, hcr.short]
  constructor
  · rintro ⟨⟨hno, h5, hsn⟩, hother⟩
    rw [← hsn] at h5 hother ⊢
    refine ⟨hno, rfl, h5, fun hd hname => hother hd ⟨?_, h5, hname⟩⟩
    rw [← hpass] at hno
    rwa [hb.scan_congr ha hname]
  · rintro ⟨hno, hsn, h5, hother⟩
    cases hsn
    exact ⟨⟨hno, h5, rfl⟩, fun hd hname => hother hd hname.2.2⟩

/-- The first file of a directory is "\x80"; "\x81" is not found. -/
theorem lone_high_byte_found : ∃ fs', fcreate tinyVolume 0 [0x80] .file (fun _ => 0) tinyFs = some (some 1, fs') ∧
    ((∃ e, search tinyVolume fs' 0 [0x80] (fun _ => 0) =
        some (some (e, 32 * entryIdx [0x80] (slots tinyVolume tinyFs.disk [2])))) ∧
      (DifferHigh [0x80] [0x81] → ¬∃ e, search tinyVolume fs' 0 [0x81] (fun _ => 0) =
        some (some (e, 32 * entryIdx [0x80] (slots tinyVolume tinyFs.disk [2]))))) := by
  have hsome : (fcreate tinyVolume 0 [0x80] .file (fun _ => 0) tinyFs).map Prod.fst = some (some 1) := by
    decide +kernel
  rcases map_eq_some_iff.mp hsome with ⟨⟨r, fs'⟩, he, hr⟩
  cases hr
  have hgap : gapFor [0x80] (slots tinyVolume tinyFs.disk [2]) = 0 := by decide +kernel
  refine ⟨fs', he, (high_name_found_iff tinyFs_isDir ⟨by decide, by decide, by decide⟩ ⟨0x80, by decide, by decide⟩
    ⟨0x81, by decide, by decide⟩ (by decide +kernel) (by decide +kernel) he _).mpr ⟨?_, by decide +kernel, by decide,
      fun _ => by decide⟩⟩
  rw [hgap, take_zero]
  exact nofun

/-- "résumé.text" in ISO 8859-1. -/
def resume : Name := [0x72, 0xE9, 0x73, 0x75, 0x6D, 0xE9, 0x2E, 0x74, 0x65, 0x78, 0x74]

/-- A file of this name is created in an empty directory and is not found there. -/
def Lost (nm : Name) : Prop :=
  ∃ fs', fcreate tinyVolume 0 nm .file (fun _ => 0) tinyFs = some (some 1, fs') ∧
    search tinyVolume fs' 0 nm (fun _ => 0) = some none

theorem lost_of_eq {nm : Name} (h : ((fcreate tinyVolume 0 nm .file (fun _ => 0) tinyFs).bind fun r =>
    (search tinyVolume r.2 0 nm fun _ => 0).map fun q => (r.1, q.isSome)) = some (some 1, false)) : Lost nm := by
  rcases bind_eq_some_iff.mp h with ⟨⟨r, fs'⟩, he, h⟩
  rcases map_eq_some_iff.mp h with ⟨q, hq, h⟩
  simp only [Prod.mk.injEq, isSome_eq_false_iff, isNone_iff_eq_none] at h
  rcases h with ⟨rfl, rfl⟩
  exact ⟨fs', he, hq⟩

/-- The first name needs long-name entries and matches neither them nor its short name, and the entry of "\xE5b" counts
as deleted. -/
theorem resume_lost : Lost resume ∧ Lost [0xE5, 0x62] :=
  ⟨lost_of_eq (by decide +kernel), lost_of_eq (by decide +kernel)⟩

end Xv6Vfs.Fat32
