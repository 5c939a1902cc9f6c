import Xv6Vfs.Fat32.HighBytes
import Xv6Vfs.Fat32.LfnBuffer

/-! Which long name `dlookup` compares at an entry and `freaddir` reports for it, for any slots in front of it. -/
namespace Xv6Vfs.Fat32
open Xv6Vfs.Vfs List

/-- The characters in `lfn_buf` behind the slots `ps`, number 1 first. -/
def inArray (ps : List Bytes) : List Nat := (ps.flatMap lfnUnits).take 260

/-- At the entry `d` behind the slots `l` a long name is compared only if it is a whole one directly in front, and only
its characters are looked at; `freaddir` reports the same one, or none. Its backward loop starts from a `uint`. -/
structure WholeName (l : List Bytes) (d : Bytes) (st : Lfn) : Prop where
  chain : compares d st → ∃ run, run <:+ l ∧ (∀ r ∈ run, isLfn r) ∧ whole (lfnChecksum (dirName d)) run ∧
    ∀ buf : Nat → Nat, (∀ i, ∀ u ∈ (inArray run.reverse)[i]?, buf i = u) →
      lfnString buf st.chars 0 0 = lfnString st.buf st.chars 0 0
  same : ∀ junk, reported junk (l.take (uint (32 * l.length) / 32)).reverse (dirName d) =
    if compares d st then some (lfnString st.buf st.chars 0 0) else none

/-- In the slots `ps`, with which those of the long name `run` begin, no ASCII character stands between the end of the
name and the first NUL, which is in the array if there are too many slots for it. Behind 255 ASCII characters neither
decoder reads on. -/
def EndsAlike (run ps : List Bytes) : Prop :=
  let name := nameUnits (inArray run.reverse)
  255 ≤ (name.filter (· < 128)).length ∨
    (∀ u ∈ ((inArray ps).drop name.length).takeWhile (· ≠ 0), 128 ≤ u) ∧ (20 < ps.length → 0 ∈ inArray ps)

/-- Directly in front of the entry stands a whole long name that ends alike for both decoders; or no first slots of one
with the checksum of the entry, and no number 1. -/
def Fronted (l : List Bytes) (d : Bytes) : Prop :=
  (∃ run ∈ l.tails, (∀ r ∈ run, isLfn r) ∧ whole (lfnChecksum (dirName d)) run ∧
    EndsAlike run (parts (lfnChecksum (dirName d)) l.reverse 1)) ∨
  (∀ s ∈ l.tails, (∀ r ∈ s, isLfn r) → ¬started (lfnChecksum (dirName d)) s) ∧
    ∀ r ∈ l.getLast?, isPart (lfnChecksum (dirName d)) 1 r = false

instance (run ps : List Bytes) : Decidable (EndsAlike run ps) := inferInstanceAs (Decidable (_ ∨ _))

instance (l : List Bytes) (d : Bytes) : Decidable (Fronted l d) := inferInstanceAs (Decidable (_ ∨ _))

/-! ### The two strings -/

section Strings

variable {run ps : List Bytes} {tail : List Nat}

theorem asciiName_append_iff (a b : List Nat) :
    asciiName (a ++ b) = asciiName a ↔ 255 ≤ (a.filter (· < 128)).length ∨ b.filter (· < 128) = [] := by
  rw [asciiName, asciiName, filter_append, take_append, map_append, append_right_eq_self, map_eq_nil_iff,
    take_eq_nil_iff, Nat.sub_eq_zero_iff_le]

theorem map_range_eq {f : Nat → Nat} {units : List Nat} (h : ∀ i, ∀ u ∈ (units.take 260)[i]?, f i = u) :
    (List.range units.length).map f =
      units.take 260 ++ (List.range' 260 (units.length - 260)).map f := by
  have hsplit : List.range units.length = List.range (min 260 units.length) ++ List.range' 260
    (units.length - 260) := by
    rcases Nat.le_total units.length 260 with hle | hle
    · rw [Nat.min_eq_right hle, Nat.sub_eq_zero_of_le hle, range'_zero, append_nil]
    · rw [Nat.min_eq_left hle, range_eq_range', range_eq_range']
      have := @range'_append_1 0 260 (units.length - 260)
      rw [Nat.zero_add, Nat.add_sub_cancel' hle] at this
      exact this.symm
  have hfirst : (List.range (min 260 units.length)).map f = units.take 260 := by
    apply ext_getElem
    · simp
    · intro i h1 h2
      rw [getElem_map, getElem_range]
      exact h i _ (getElem?_eq_getElem h2)
  rw [hsplit, map_append, hfirst]

/-- The string that `dlookup` makes of the slots `run` and what is behind the array. -/
theorem lfnString_array {buf : Nat → Nat} (h : ∀ i, ∀ u ∈ (inArray run.reverse)[i]?, buf i = u) :
    lfnString buf (13 * run.length) 0 0 = asciiName (nameUnits (inArray run.reverse ++
      (List.range' 260 (13 * run.length - 260)).map buf)) := by
  have hlen := units_reverse_length run
  have hmap := map_range_eq h
  have hstr := @lfnString_eq buf ((List.range (13 * run.length)).map buf) 0 0 (Nat.zero_le _) fun j hj => by
    rw [getElem?_eq_getElem hj, getElem_map, getElem_range, Nat.zero_add]
  rw [length_map, length_range] at hstr
  rw [hlen] at hmap
  rw [hstr, hmap]
  rfl

/-- The string that `freaddir` makes of the slots `ps` and what is behind the array. -/
theorem printUnits_array (junk : Nat → Nat) (ps : List Bytes) : printUnits (fill junk 0 ps) (ps.length * 13) 0 0 =
    asciiName ((inArray ps ++ (List.range' 260 (13 * ps.length - 260)).map junk).takeWhile (· ≠ 0)) := by
  have hlen := units_length ps
  have hmap := @map_range_eq (fun j => fill junk 0 ps (0 + j)) (ps.flatMap lfnUnits) fun i u hu => by
    rw [Option.mem_def, getElem?_take] at hu
    split at hu
    case isFalse => cases hu
    case isTrue hi =>
      obtain ⟨hlt, rfl⟩ := List.getElem?_eq_some_iff.mp hu
      rw [fill_eq, if_pos (by omega), Nat.zero_add, Nat.sub_zero, getD_eq_getElem _ _ hlt]
  have htail : (List.range' 260 (13 * ps.length - 260)).map (fun j => fill junk 0 ps (0 + j)) =
      (List.range' 260 (13 * ps.length - 260)).map junk := by
    apply map_congr_left
    intro j hj
    have := mem_range'_1.mp hj
    rw [fill_eq, if_neg (by omega), Nat.zero_add]
  rw [hlen, htail] at hmap
  rw [printUnits_eq, Nat.mul_comm, hmap, asciiUnits, asciiName, map_take]
  rfl

theorem zero_not_mem_nameUnits (u : List Nat) : 0 ∉ nameUnits u := by
  intro h
  have := mem_takeWhile_imp (show 0 ∈ takeWhile _ u from h)
  simp at this

/-- What is behind the array is not looked at by `dlookup`. -/
theorem EndsAlike.kept {qs : List Bytes} (h : EndsAlike run (run.reverse ++ qs))
    (ht : tail ≠ [] → 20 < run.length) :
    asciiName (nameUnits (inArray run.reverse ++ tail)) = asciiName (nameUnits (inArray run.reverse)) := by
  unfold nameUnits
  rw [takeWhile_append]
  split
  case isFalse => rfl
  case isTrue hfull =>
    have hall := (takeWhile_sublist _).eq_of_length hfull
    rw [hall, asciiName_append_iff]
    cases tail with
    | nil => exact .inr rfl
    | cons t ts =>
      have hrun := ht (cons_ne_nil t ts)
      refine h.imp (fun h => ?_) fun h => ?_
      · rwa [nameUnits, hall] at h
      · have h0 := h.2 (by rw [length_append, length_reverse]; omega)
        have hmore : inArray (run.reverse ++ qs) = inArray run.reverse := by
          rw [inArray, flatMap_append, take_append_of_le_length (by rw [units_reverse_length]; omega), inArray]
        rw [hmore, ← hall] at h0
        exact absurd h0 (zero_not_mem_nameUnits _)

/-- What `freaddir` reads behind the name of the slots `run`. -/
theorem inArray_append (run qs : List Bytes) : inArray (run.reverse ++ qs) = nameUnits (inArray run.reverse) ++
    (inArray (run.reverse ++ qs)).drop (nameUnits (inArray run.reverse)).length := by
  have hpre : nameUnits (inArray run.reverse) <+: inArray (run.reverse ++ qs) := by
    have hname : nameUnits (inArray run.reverse) <+: inArray run.reverse := takeWhile_prefix _
    refine hname.trans ?_
    rw [inArray, inArray, flatMap_append]
    exact (prefix_append _ _).take 260
  refine (take_append_drop (nameUnits (inArray run.reverse)).length _).symm.trans ?_
  rw [← prefix_iff_eq_take.mp hpre]

theorem printed_iff (run qs : List Bytes) (tail : List Nat) :
    asciiName ((inArray (run.reverse ++ qs) ++ tail).takeWhile (· ≠ 0)) = asciiName (nameUnits (inArray run.reverse)) ↔
      255 ≤ ((nameUnits (inArray run.reverse)).filter (· < 128)).length ∨
        (((inArray (run.reverse ++ qs)).drop (nameUnits (inArray run.reverse)).length ++ tail).takeWhile
          (· ≠ 0)).filter (· < 128) = [] := by
  rw [inArray_append run qs, append_assoc, takeWhile_append_of_pos fun u hu => ?_, asciiName_append_iff,
    ← inArray_append run qs]
  exact decide_eq_true fun h0 => zero_not_mem_nameUnits _ (h0 ▸ hu)

theorem EndsAlike.printed {qs : List Bytes} (h : EndsAlike run (run.reverse ++ qs))
    (ht : tail ≠ [] → 20 < (run.reverse ++ qs).length) :
    asciiName ((inArray (run.reverse ++ qs) ++ tail).takeWhile (· ≠ 0)) =
      asciiName (nameUnits (inArray run.reverse)) := by
  refine (printed_iff run qs tail).mpr (h.imp_right fun h => ?_)
  have hnone : ((inArray (run.reverse ++ qs)).drop (nameUnits (inArray run.reverse)).length ++ tail).takeWhile (· ≠ 0) =
      ((inArray (run.reverse ++ qs)).drop (nameUnits (inArray run.reverse)).length).takeWhile (· ≠ 0) := by
    cases tail with
    | nil => rw [append_nil]
    | cons t ts =>
      -- the NUL stands behind the name and in the array
      have h0 := h.2 (ht (cons_ne_nil t ts))
      rw [inArray_append run qs, mem_append] at h0
      have h0 := h0.resolve_left (zero_not_mem_nameUnits _)
      rw [takeWhile_append, if_neg fun hfull => ?_]
      have := mem_takeWhile_imp ((takeWhile_sublist _).eq_of_length hfull ▸ h0)
      simp at this
  rw [hnone, filter_eq_nil_iff]
  intro u hu hlt
  exact absurd (of_decide_eq_true hlt) (Nat.not_lt.mpr (h.1 u hu))

/-- Conversely, with letters behind the array. -/
theorem endsAlike_of_printed {qs : List Bytes} (h : asciiName ((inArray (run.reverse ++ qs) ++
      List.replicate (13 * (run.reverse ++ qs).length - 260) 65).takeWhile (· ≠ 0)) =
        asciiName (nameUnits (inArray run.reverse))) : EndsAlike run (run.reverse ++ qs) := by
  refine ((printed_iff run qs _).mp h).imp_right fun h => ?_
  rw [takeWhile_append] at h
  split at h
  case isFalse hshort =>
    refine ⟨fun u hu => Nat.not_lt.mp fun hlt => ?_, fun _ => by_contra fun h0 => ?_⟩
    · exact filter_eq_nil_iff.mp h u hu (decide_eq_true hlt)
    · refine hshort (congrArg length (takeWhile_eq_self_iff.mpr fun u hu => decide_eq_true fun hz => h0 ?_))
      exact mem_of_mem_drop (hz ▸ hu)
  case isTrue hfull =>
    rw [filter_append, append_eq_nil_iff] at h
    have hall := (takeWhile_sublist _).eq_of_length hfull
    refine ⟨fun u hu => Nat.not_lt.mp fun hlt => ?_, fun hlen => ?_⟩
    · exact filter_eq_nil_iff.mp h.1 u (hall ▸ hu) (decide_eq_true hlt)
    · obtain ⟨n, hn⟩ : ∃ n, 13 * (run.reverse ++ qs).length - 260 = n + 1 := ⟨_, (Nat.succ_pred (by omega)).symm⟩
      rw [hn] at h
      cases h.2

end Strings

/-! ### The entries -/

section Entries

variable {nm : Name} {l : List Bytes} {d : Bytes} {st : Lfn} {junk : Nat → Nat}

theorem parts_eq_nil {c : UInt8} : parts c l.reverse 1 = [] ↔ ∀ r ∈ l.getLast?, isPart c 1 r = false := by
  cases l.eq_nil_or_concat with
  | inl he => simp [he, parts]
  | inr he =>
    obtain ⟨l', r, rfl⟩ := he
    rw [concat_eq_append, reverse_append, reverse_singleton, singleton_append, parts, getLast?_concat]
    cases hp : isPart c 1 r <;> simp [hp]

theorem reported_none {rev : List Bytes} {sn : List UInt8} :
    reported junk rev sn = none ↔ parts (lfnChecksum sn) rev 1 = [] := by
  unfold reported
  cases parts (lfnChecksum sn) rev 1 <;> simp

/-- The slots directly in front are the last ones that were visited. -/
theorem scan_suffix {run : List Bytes} {st0 : Lfn} (hsuf : run <:+ l) (hlfn : ∀ r ∈ run, isLfn r)
    (h : scan nm l 0 st0 = some (.inr st)) : ∃ st1, visitRun run st1 = some st := by
  obtain ⟨l0, rfl⟩ := hsuf
  rw [scan_append] at h
  obtain ⟨v, -, h⟩ := Option.bind_eq_some_iff.mp h
  cases v with
  | inl e => cases h
  | inr st1 =>
    have hrun := @scan_run nm run [] (0 + 32 * l0.length) st1 hlfn
    dsimp only at h
    rw [append_nil, h] at hrun
    obtain ⟨st2, h2, h3⟩ := Option.bind_eq_some_iff.mp hrun.symm
    cases h3
    exact ⟨st1, h2⟩

/-- A long name is compared exactly if its first slots stand directly in front. -/
theorem compares_iff (h : scan nm l 0 ⟨junk, 0, 0, false, 0⟩ = some (.inr st)) : compares d st ↔
    ∃ s, s <:+ l ∧ (∀ r ∈ s, isLfn r) ∧ started (lfnChecksum (dirName d)) s := by
  rw [compares, decide_eq_true_eq]
  constructor
  · rintro ⟨ha, -, hck⟩
    have hcol : Collecting (lfnChecksum (dirName d)) [] ⟨junk, 0, 0, false, 0⟩ := nofun
    obtain ⟨r, rs, hsuf, hlfn, hst, -⟩ := scan_collecting hcol h ha hck.symm
    exact ⟨_, hsuf, hlfn, hst⟩
  · rintro ⟨s, hsuf, hlfn, hst⟩
    obtain ⟨st1, h1⟩ := scan_suffix hsuf hlfn h
    cases s with
    | nil => cases hst
    | cons r rs =>
      simp only [started, Bool.and_eq_true, decide_eq_true_eq] at hst
      have hr := hlfn r mem_cons_self
      simp only [isLfn, decide_eq_true_eq] at hr
      rw [visitRun, visitLfn, if_pos hst.1.1, if_neg hr.2.2.2] at h1
      obtain ⟨st', he, ha, hck, hch⟩ := @visitRun_follows _ rs ⟨_, lfnSeq r * 13, lfnCksum r, true, lfnSeq r - 1⟩ hst.2
        (fun x hx => hlfn x (mem_cons_of_mem r hx)) rfl hst.1.2
      rw [Option.bind_some, he] at h1
      cases h1
      exact ⟨ha, by rw [hch]; dsimp only; omega, hck.symm⟩

theorem scan_whole {run : List Bytes} (hsuf : run <:+ l) (hlfn : ∀ r ∈ run, isLfn r)
    (hrun : whole (lfnChecksum (dirName d)) run) (h : scan nm l 0 ⟨junk, 0, 0, false, 0⟩ = some (.inr st)) :
    compares d st ∧ st.chars = 13 * run.length ∧ ∀ i, ∀ u ∈ (inArray run.reverse)[i]?, st.buf i = u := by
  obtain ⟨st1, h1⟩ := scan_suffix hsuf hlfn h
  obtain ⟨st', h2, ha, hck, hch, hbuf⟩ := visitRun_whole st1 hrun
  cases h1.symm.trans h2
  have hpos : 0 < run.length := by
    cases run with
    | nil => cases hrun
    | cons r rs => exact Nat.succ_pos _
  refine ⟨decide_eq_true ⟨ha, by omega, hck.symm⟩, hch, fun i u hu => ?_⟩
  rw [Option.mem_def, inArray, getElem?_take] at hu
  split at hu
  case isFalse => cases hu
  case isTrue hi =>
    obtain ⟨hlt, -⟩ := List.getElem?_eq_some_iff.mp hu
    rw [units_reverse_length] at hlt
    rw [hbuf i hlt hi] at hu
    exact Option.some.inj hu

/-- Nothing but the characters in the array is compared if what is behind it does not matter. -/
theorem lfnString_kept {run : List Bytes} {s : Name} (h : ∀ buf : Nat → Nat,
      (∀ i, ∀ u ∈ (inArray run.reverse)[i]?, buf i = u) → lfnString buf (13 * run.length) 0 0 = s) :
    s = asciiName (nameUnits (inArray run.reverse)) := by
  have hbuf : ∀ i : Nat, ∀ u ∈ (inArray run.reverse)[i]?, ((inArray run.reverse)[i]?).getD 0 = u := fun i u hu => by
    rw [Option.mem_def.mp hu, Option.getD_some]
  have hzero : (List.range' 260 (13 * run.length - 260)).map (fun i => ((inArray run.reverse)[i]?).getD 0) =
      List.replicate (13 * run.length - 260) 0 := by
    refine eq_replicate_iff.mpr ⟨by rw [length_map, length_range'], fun b hb => ?_⟩
    obtain ⟨i, hi, rfl⟩ := mem_map.mp hb
    have hlen : (inArray run.reverse).length ≤ 260 := length_take_le ..
    rw [getElem?_eq_none (by have := mem_range'_1.mp hi; omega)]
    rfl
  rw [← h _ hbuf, lfnString_array hbuf, hzero, nameUnits, takeWhile_append]
  split
  case isFalse => rfl
  case isTrue hfull =>
    rw [takeWhile_replicate, if_neg (by decide), append_nil, nameUnits, (takeWhile_sublist _).eq_of_length hfull]

/-- At an entry that a search comes to, the name is as it should be exactly if the slots in front are. -/
theorem wholeName_iff (hlen : 32 * l.length < 2 ^ 32) (h : scan nm l 0 ⟨junk, 0, 0, false, 0⟩ = some (.inr st)) :
    WholeName l d st ↔ Fronted l d := by
  have hfront : l.take (uint (32 * l.length) / 32) = l := by
    rw [uint, Nat.mod_eq_of_lt hlen, Nat.mul_div_cancel_left _ (by decide), take_length]
  have htail : ∀ {n : Nat} {f : Nat → Nat}, (List.range' 260 (13 * n - 260)).map f ≠ [] → 20 < n := fun hne =>
    Nat.not_le.mp fun hle => hne (by rw [Nat.sub_eq_zero_of_le (by omega)]; rfl)
  have hparts : ∀ {run : List Bytes} (qs : List Bytes), whole (lfnChecksum (dirName d)) run →
      0 < (run.reverse ++ qs).length := by
    intro run qs hrun
    cases run with
    | nil => cases hrun
    | cons r rs => exact length_pos_of_ne_nil (by simp)
  constructor
  · intro hw
    by_cases hc : compares d st = true
    · obtain ⟨run, hsuf, hlfn, hrun, hread⟩ := hw.chain hc
      obtain ⟨-, hch, -⟩ := scan_whole hsuf hlfn hrun h
      have hsame := hw.same fun _ => 65
      rw [hch] at hread hsame
      refine .inl ⟨run, (mem_tails _ _).mpr hsuf, hlfn, hrun, ?_⟩
      obtain ⟨l0, rfl⟩ := hsuf
      rw [reverse_append, parts_whole _ hrun hlfn]
      rw [hfront, if_pos hc, reported, reverse_append, parts_whole _ hrun hlfn, if_pos (hparts _ hrun),
        Option.some.injEq, printUnits_array, map_const', length_range'] at hsame
      exact endsAlike_of_printed (hsame.trans (lfnString_kept hread))
    · refine .inr ⟨fun s hs hlfn hst => hc ((compares_iff h).mpr ⟨s, (mem_tails _ _).mp hs, hlfn, hst⟩),
        parts_eq_nil.mp ?_⟩
      have hsame := hw.same fun _ => 0
      rw [hfront, if_neg hc] at hsame
      exact reported_none.mp hsame
  · rintro (⟨run, hmem, hlfn, hrun, hends⟩ | ⟨hno, hlast⟩)
    · have hsuf := (mem_tails _ _).mp hmem
      obtain ⟨hc, hch, hbuf⟩ := scan_whole hsuf hlfn hrun h
      obtain ⟨l0, rfl⟩ := hsuf
      rw [reverse_append, parts_whole _ hrun hlfn] at hends
      have hkept : ∀ buf : Nat → Nat, (∀ i, ∀ u ∈ (inArray run.reverse)[i]?, buf i = u) →
          lfnString buf st.chars 0 0 = asciiName (nameUnits (inArray run.reverse)) := fun buf hb => by
        rw [hch, lfnString_array hb]
        exact hends.kept htail
      refine ⟨fun _ => ⟨run, suffix_append _ _, hlfn, hrun, fun buf hb => ?_⟩, fun junk' => ?_⟩
      · rw [hkept buf hb, hkept st.buf hbuf]
      · rw [hfront, if_pos hc, hkept st.buf hbuf, reported, reverse_append, parts_whole _ hrun hlfn,
          if_pos (hparts _ hrun), printUnits_array, hends.printed htail]
    · have hc : ¬compares d st = true := fun hc => by
        obtain ⟨s, hsuf, hlfn, hst⟩ := (compares_iff h).mp hc
        exact hno s ((mem_tails _ _).mpr hsuf) hlfn hst
      refine ⟨fun h => absurd h hc, fun junk' => ?_⟩
      rw [hfront, if_neg hc]
      exact reported_none.mpr (parts_eq_nil.mpr hlast)

/-- A search for the byte 0xE5 finds no entry. -/
theorem scan_passes {pos : Nat} {st0 : Lfn} (h0 : ∀ r ∈ l, r 0 ≠ 0) (h : scan [0xE5] l pos st0 ≠ none) :
    ∃ st, scan [0xE5] l pos st0 = some (.inr st) := by
  cases hs : scan [0xE5] l pos st0 with
  | none => exact absurd hs h
  | some v =>
    cases v with
    | inr st => exact ⟨st, rfl⟩
    | inl e =>
      cases e with
      | none =>
        obtain ⟨r, hr, hz⟩ := scan_end.1 hs
        exact absurd hz (h0 r hr)
      | some e =>
        obtain ⟨k, -, hk, hshort, -, st1, x, hx, -, hv⟩ := scan_found hs
        cases hk.symm.trans hx
        simp only [isShort, decide_eq_true_eq] at hshort
        have hh : HighName [0xE5] := ⟨0xE5, mem_singleton.mpr rfl, by decide⟩
        rw [hh.visit_eq, if_neg hshort.1, if_neg hshort.2.1, if_neg hshort.2.2, if_neg fun hn => ?_] at hv
        · cases hv
        · exact hshort.2.1 (Option.some.inj (congrArg head? hn)).symm

/-- At most 4 GiB of slots on which no search writes in front of `lfn_buf`: at every entry in front of the end mark both
loops take the whole long name, or none, exactly if such slots stand in front of each. -/
theorem long_names_whole_iff {l : List Bytes} (hlen : 32 * l.length ≤ 2 ^ 32)
    (hdef : ∀ nm junk, scan nm l 0 ⟨junk, 0, 0, false, 0⟩ ≠ none) :
    (∀ nm junk l1 d l2 st, l = l1 ++ d :: l2 → isShort d → scan nm l1 0 ⟨junk, 0, 0, false, 0⟩ = some (.inr st) →
      WholeName l1 d st) ↔
    ∀ l1 d l2, l = l1 ++ d :: l2 → isShort d → (∀ r ∈ l1, r 0 ≠ 0) → Fronted l1 d := by
  have hshort : ∀ {l1 : List Bytes} {d : Bytes} {l2 : List Bytes}, l = l1 ++ d :: l2 → 32 * l1.length < 2 ^ 32 := by
    rintro l1 d l2 rfl
    rw [length_append, length_cons] at hlen
    omega
  constructor
  · intro h l1 d l2 hl hs h0
    have hd := hdef [0xE5] fun _ => 0
    rw [hl, scan_append] at hd
    obtain ⟨st, hst⟩ := scan_passes h0 fun hn => hd (by rw [hn]; rfl)
    exact (wholeName_iff (hshort hl) hst).mp (h _ _ l1 d l2 st hl hs hst)
  · intro h nm junk l1 d l2 st hl hs hst
    exact (wholeName_iff (hshort hl) hst).mpr (h l1 d l2 hl hs (scan_end.2 st hst))

end Entries

theorem scan_defined {l : List Bytes} (h : ∀ r ∈ l, dirAttr r = attrLongName → lfnSeq r ≠ 0) (nm : Name) (pos : Nat)
    (st : Lfn) : scan nm l pos st ≠ none := by
  induction l generalizing pos st with
  | nil => exact Option.some_ne_none _
  | cons d l ih =>
    have hv : visit nm d st ≠ none := by
      unfold visit
      split
      · exact Option.some_ne_none _
      split
      · exact Option.some_ne_none _
      split
      case isTrue ha =>
        have h0 := h d mem_cons_self ha
        unfold visitLfn
        simp only [if_neg h0]
        split
        · exact Option.some_ne_none _
        · split <;> exact Option.some_ne_none _
      · split <;> exact Option.some_ne_none _
    obtain ⟨v, hv⟩ := Option.ne_none_iff_exists'.mp hv
    rw [scan, hv, Option.bind_some]
    cases v with
    | found => exact Option.some_ne_none _
    | stop => exact Option.some_ne_none _
    | next st' => exact ih (fun r hr => h r (mem_cons_of_mem d hr)) _ _

/-- "my notes.txt" with its long name, "LONGFILE" behind a number 3 that begins nothing, and "README.TXT". -/
def straySlots : List Bytes := [notesLfn, notesSlot, partSlot highUnits 2 false, longfileSlot, readmeSlot 5]

theorem stray_names_whole : (∀ l1 d l2, straySlots = l1 ++ d :: l2 → isShort d → Fronted l1 d) ∧
    ∀ nm junk l1 d l2 st, straySlots = l1 ++ d :: l2 → isShort d →
      scan nm l1 0 ⟨junk, 0, 0, false, 0⟩ = some (.inr st) → WholeName l1 d st := by
  have hfacts : (∀ k < 5, isShort (straySlots.getD k fun _ => 0) → Fronted (straySlots.take k)
      (straySlots.getD k fun _ => 0)) ∧ ∀ r ∈ straySlots, dirAttr r = attrLongName → lfnSeq r ≠ 0 := by
    decide +kernel
  have hfront : ∀ l1 d l2, straySlots = l1 ++ d :: l2 → isShort d → Fronted l1 d := by
    intro l1 d l2 hl hs
    have hlen : l1.length < 5 := by
      have := congrArg length hl
      rw [length_append, length_cons] at this
      exact Nat.lt_of_lt_of_le (Nat.lt_add_of_pos_right (Nat.succ_pos _)) (Nat.le_of_eq this.symm)
    have hk := hfacts.1 l1.length hlen
    have hd : straySlots.getD l1.length (fun _ => 0) = d := by
      rw [hl, getD_eq_getElem?_getD, getElem?_append_right (Nat.le_refl _), Nat.sub_self]
      rfl
    have ht : straySlots.take l1.length = l1 := by rw [hl, take_left]
    rw [hd, ht] at hk
    exact hk hs
  refine ⟨hfront, (long_names_whole_iff (by decide) fun nm junk => scan_defined hfacts.2 nm 0 _).mpr ?_⟩
  exact fun l1 d l2 hl hs _ => hfront l1 d l2 hl hs

/-- Number 2 without number 1 is compared, and number 1 of a chain without its beginning is reported. -/
theorem fragments_used :
    (∃ st, scan [0xE5] [partSlot highUnits 1 true] 0 ⟨fun _ => 0, 0, 0, false, 0⟩ = some (.inr st) ∧
      compares longfileSlot st ∧ ¬WholeName [partSlot highUnits 1 true] longfileSlot st) ∧
    ∃ st, scan [0xE5] [partSlot (uname longfilename 13) 0 false] 0 ⟨fun _ => 0, 0, 0, false, 0⟩ = some (.inr st) ∧
      reported (fun _ => 0) [partSlot (uname longfilename 13) 0 false] (dirName longfileSlot) = some longfilename ∧
      ¬WholeName [partSlot (uname longfilename 13) 0 false] longfileSlot st := by
  have hfacts : (let r := partSlot highUnits 1 true
      r 0 ≠ 0 ∧ lfnSeq r ≠ 0 ∧ isLfn r ∧ started (lfnChecksum (dirName longfileSlot)) [r] ∧ ¬Fronted [r] longfileSlot) ∧
      let r := partSlot (uname longfilename 13) 0 false
      r 0 ≠ 0 ∧ lfnSeq r ≠ 0 ∧ reported (fun _ => 0) [r] (dirName longfileSlot) = some longfilename ∧
        ¬Fronted [r] longfileSlot := by
    decide +kernel
  have hscan : ∀ r : Bytes, r 0 ≠ 0 → lfnSeq r ≠ 0 →
      ∃ st, scan [0xE5] [r] 0 ⟨fun _ => 0, 0, 0, false, 0⟩ = some (.inr st) := fun r h0 hseq =>
    scan_passes (forall_mem_singleton.mpr h0) (scan_defined (forall_mem_singleton.mpr fun _ => hseq) _ _ _)
  obtain ⟨⟨h0, hseq, hlfn, hst, hf⟩, h0', hseq', hrep, hf'⟩ := hfacts
  obtain ⟨st, hs⟩ := hscan _ h0 hseq
  obtain ⟨st', hs'⟩ := hscan _ h0' hseq'
  exact ⟨⟨st, hs, (compares_iff hs).mpr ⟨_, suffix_rfl, forall_mem_singleton.mpr hlfn, hst⟩,
    (wholeName_iff (by decide) hs).not.mpr hf⟩, st', hs', hrep, (wholeName_iff (by decide) hs').not.mpr hf'⟩

end Xv6Vfs.Fat32
