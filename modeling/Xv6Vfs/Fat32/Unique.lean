import Xv6Vfs.Fat32.RoundTrip
import Xv6Vfs.Fat32.Removed
import Xv6Vfs.Fat32.Exclude
import Xv6Vfs.Lib.Run

/-! Short names of a directory over runs of `fcreate`, `fmkdir` and `funlink`. -/
namespace Xv6Vfs.Fat32
open Xv6Vfs.Bytes Xv6Vfs.Vfs List Option

variable {d k : Nat} {nm : Name} {e : Bytes} {v : Volume} {fs fs' : Fs} {l : List Bytes} {sn : List UInt8}

/-! ### Names in use -/

/-- The short names of the entries in use among the slots `l`. -/
def entryNames (l : List Bytes) : List (List UInt8) := (l.filter isShort).map dirName

/-- The short names of the entries in use up to the end mark. -/
def shortNames (l : List Bytes) : List (List UInt8) := entryNames (l.takeWhile fun e => e 0 ≠ 0)

theorem entryNames_append (l l' : List Bytes) : entryNames (l ++ l') = entryNames l ++ entryNames l' := by
  rw [entryNames, filter_append, map_append]
  rfl

theorem shortNames_cons_zero (l : List Bytes) (h : e 0 = 0) : shortNames (e :: l) = [] := by
  rw [shortNames, takeWhile_cons_of_neg (by simp [h])]
  rfl

theorem shortNames_cons (l : List Bytes) (h : e 0 ≠ 0) : shortNames (e :: l) = entryNames [e] ++ shortNames l := by
  rw [shortNames, takeWhile_cons_of_pos (by simp [h]), ← singleton_append, entryNames_append]
  rfl

theorem entryNames_short (h : isShort e = true) : entryNames [e] = [dirName e] := by
  simp [entryNames, h]

theorem entryNames_other (h : isShort e = false) : entryNames [e] = [] := by
  simp [entryNames, h]

theorem shortNames_sublist (l : List Bytes) : (shortNames l).Sublist (entryNames l) :=
  ((takeWhile_sublist _).filter _).map _

/-- No entry in use stands behind the end mark. -/
def Sealed (l : List Bytes) : Prop := ∀ e ∈ l.dropWhile fun e => e 0 ≠ 0, isShort e = false

theorem entryNames_eq_nil (h : ∀ e ∈ l, isShort e = false) : entryNames l = [] := by
  rw [entryNames, filter_eq_nil_iff.mpr fun e he => by simp [h e he]]
  rfl

theorem Sealed.entryNames_eq (h : Sealed l) : entryNames l = shortNames l := by
  conv_lhs => rw [← takeWhile_append_dropWhile (p := fun e => decide (e 0 ≠ 0)) (l := l)]
  rw [entryNames_append, entryNames_eq_nil h, append_nil]
  rfl

/-! ### Names that are taken -/

/-- `shortname_exists` finds exactly the names up to the end mark. -/
theorem snTaken_iff (l : List Bytes) (sn : List UInt8) : snTaken l sn = true ↔ sn ∈ shortNames l := by
  rw [snTaken]
  induction l with
  | nil => simp [sweep, shortNames, entryNames]
  | cons e l ih =>
    rw [sweep, visitShortname]
    by_cases h0 : e 0 = 0
    · rw [if_pos h0, shortNames_cons_zero l h0]
      simp
    · rw [if_neg h0, shortNames_cons l h0]
      by_cases hs : isShort e = true
      · have hd := hs
        simp only [isShort, decide_eq_true_eq] at hd
        rw [if_neg (by simp [hd.2.1, hd.2.2]), entryNames_short hs, singleton_append, mem_cons]
        by_cases he : dirName e = sn
        · simp [he]
        · rw [if_neg he]
          rw [ih]
          exact ⟨.inr, fun h => h.resolve_left fun heq => he heq.symm⟩
      · have hskip : e 0 = 0xE5 ∨ dirAttr e = attrLongName := by
          simp only [isShort, decide_eq_true_eq, not_and, not_not] at hs
          by_cases h5 : e 0 = 0xE5
          · exact .inl h5
          · exact .inr (hs h0 h5)
        rw [if_pos hskip, entryNames_other (by simpa using hs)]
        exact ih

/-- A search that finds nothing has compared all short names up to the end mark. -/
theorem scan_none {pos : Nat} {st : Lfn} (h : (scan nm l pos st).map outcome = some none) :
    name83 nm ∉ shortNames l := by
  induction l generalizing pos st with
  | nil => simp [shortNames, entryNames]
  | cons e l ih =>
    by_cases h0 : e 0 = 0
    · rw [shortNames_cons_zero l h0]
      exact not_mem_nil
    · rw [shortNames_cons l h0, mem_append, not_or]
      rw [scan, visit, if_neg h0] at h
      by_cases hs : isShort e = true
      · have hd := hs
        simp only [isShort, decide_eq_true_eq] at hd
        rw [if_neg hd.2.1, if_neg hd.2.2] at h
        split at h
        · cases h
        · rename_i hno
          refine ⟨?_, ih h⟩
          rw [entryNames_short hs, mem_singleton]
          intro he
          exact hno (by simp [ncmp, he])
      · refine ⟨by rw [entryNames_other (by simpa using hs)]; exact not_mem_nil, ?_⟩
        split at h
        · exact ih h
        · split at h
          · cases hv : visitLfn e st with
            | none =>
              rw [hv] at h
              cases h
            | some st' =>
              rw [hv] at h
              exact ih h
          · rename_i h5 ha
            exact absurd (by rw [isShort, decide_eq_true_eq]; exact ⟨h0, h5, ha⟩) hs

/-- The loop over tails ends with a name that is not taken, if there is one. -/
theorem pickShortName_free {taken : List UInt8 → Bool} {tail : Nat}
    (h : pickShortName (fun sn => some (taken sn)) nm k tail = some sn)
    (hfree : ∃ t, tail ≤ t ∧ t < tail + k ∧ taken (genShortName nm t) = false) : taken sn = false := by
  induction k generalizing tail with
  | zero =>
    rcases hfree with ⟨t, h1, h2, -⟩
    omega
  | succ k ih =>
    rw [pickShortName, bind_some] at h
    cases hb : taken (genShortName nm tail) with
    | false =>
      rw [hb] at h
      cases h
      exact hb
    | true =>
      rw [hb, if_pos rfl] at h
      rcases hfree with ⟨t, h1, h2, h3⟩
      have hne : t ≠ tail := by
        rintro rfl
        rw [h3] at hb
        cases hb
      exact ih h ⟨t, by omega, by omega, h3⟩

/-- One of the 99 names that `fcreate` would try is not in use. -/
def TailLeft (l : List Bytes) (nm : Name) : Prop :=
  fits83 nm = false → ∃ t, 1 ≤ t ∧ t < 100 ∧ genShortName nm t ∉ shortNames l

theorem shortNameIn_new (h : shortNameIn l nm = some sn) (hfit : fits83 nm = true → name83 nm ∉ shortNames l)
    (htail : TailLeft l nm) : sn ∉ shortNames l := by
  rw [shortNameIn] at h
  split at h
  · rename_i hf
    cases h
    exact hfit hf
  · rename_i hf
    rcases htail (by simpa using hf) with ⟨t, h1, h2, ht⟩
    rw [← snTaken_iff, Bool.not_eq_true] at ht ⊢
    exact pickShortName_free h ⟨t, h1, by omega, ht⟩

/-! ### A step of a run -/

theorem entryNames_withRoom (v : Volume) (need : Nat) (l : List Bytes) :
    entryNames (withRoom v need l) = entryNames l := by
  have hnil : entryNames (if (gapIdx need l).isSome then [] else List.replicate (perClus v) fun _ => 0) = [] := by
    apply entryNames_eq_nil
    intro e he
    split at he
    · cases he
    · rw [eq_of_mem_replicate he]
      rfl
  rw [withRoom, entryNames_append, hnil, append_nil]

/-- A slot that is written takes the name that stood there away. -/
theorem entryNames_set (l : List Bytes) (k : Nat) (e : Bytes) :
    ∃ A B, (A ++ B).Sublist (entryNames l) ∧ (entryNames (l.set k e)).Sublist (A ++ (entryNames [e] ++ B)) := by
  by_cases hk : k < l.length
  · refine ⟨entryNames (l.take k), entryNames (l.drop (k + 1)), ?_, ?_⟩
    · conv_rhs => rw [← take_append_drop k l, entryNames_append]
      exact ((((drop_sublist_drop_left l (Nat.le_succ k)).filter _).map _).append_left _)
    · rw [set_eq_take_cons_drop e hk, entryNames_append, ← singleton_append, entryNames_append]
  · refine ⟨entryNames l, [], by rw [append_nil], ?_⟩
    rw [set_eq_of_length_le (by omega)]
    exact sublist_append_left _ _

theorem entryNames_set_other (l : List Bytes) (k : Nat) (h : isShort e = false) :
    (entryNames (l.set k e)).Sublist (entryNames l) := by
  rcases entryNames_set l k e with ⟨A, B, hAB, hset⟩
  rw [entryNames_other h] at hset
  exact hset.trans hAB

theorem entryNames_set_nodup (k : Nat) (hnd : (entryNames l).Nodup) (hnew : dirName e ∉ entryNames l) :
    (entryNames (l.set k e)).Nodup := by
  by_cases hs : isShort e = true
  · rcases entryNames_set l k e with ⟨A, B, hAB, hset⟩
    rw [entryNames_short hs, singleton_append] at hset
    exact (nodup_middle.mpr (nodup_cons.mpr ⟨fun h => hnew (hAB.subset h), hnd.sublist hAB⟩)).sublist hset
  · exact hnd.sublist (entryNames_set_other l k (by simpa using hs))

theorem entryNames_putSlots {ds : List Bytes} (h : ∀ e ∈ ds, isShort (cut e) = false) (l : List Bytes) (k : Nat) :
    (entryNames (putSlots l k ds)).Sublist (entryNames l) := by
  induction ds generalizing l k with
  | nil => exact Sublist.refl _
  | cons e ds ih =>
    exact (ih (fun x hx => h x (mem_cons_of_mem e hx)) _ (k + 1)).trans
      (entryNames_set_other l _ (h e mem_cons_self))

theorem isShort_lfnEntries {nm : Name} {sum : UInt8} {e : Bytes} (he : e ∈ lfnEntries nm (lfnCount nm) sum) :
    isShort (cut e) = false := by
  rw [lfnEntries_eq] at he
  rcases mem_map.mp he with ⟨ei, hei, rfl⟩
  have hlt := mem_range.mp (mem_reverse.mp hei)
  have hattr := (@lfnEntry_low sum _ ei (ei = lfnCount nm - 1) (@chunk_length nm _ _ hlt)).1
  simp only [isShort, decide_eq_false_iff_not]
  rintro ⟨-, -, hne⟩
  exact hne hattr

section Step

variable {v : Volume} {d vn c : Nat} {nm : Name} {type : VType} {cs cs' : List Nat} {fs fs' : Fs} {sn : List UInt8}
  {junk : Nat → Nat}

theorem Created.nodup (h : Created v d nm type cs fs vn fs' c sn cs') (hnd : (entryNames (slots v fs.disk cs)).Nodup)
    (hnew : sn ∉ entryNames (slots v fs.disk cs)) : (entryNames (slots v fs'.disk cs')).Nodup := by
  have hlfn := entryNames_putSlots (fun _ => @isShort_lfnEntries nm (lfnChecksum sn) _)
    (withRoom v (lfnCount nm + 1) (slots v fs.disk cs)) (gapFor nm (slots v fs.disk cs))
  rw [entryNames_withRoom] at hlfn
  rw [h.content, newEntries, putSlots_append]
  refine entryNames_set_nodup _ (hnd.sublist hlfn) fun hm => hnew (hlfn.subset ?_)
  rwa [dirName_cut, dirName_dirent (chosen_length h.short)] at hm

theorem IsDir.search_none (h : IsDir v fs d cs) (hs : search v fs d nm junk = some none) :
    name83 nm ∉ shortNames (slots v fs.disk cs) := by
  have heq := h.chain.dlookup_eq h.ok h.attrs nm junk
  rw [search, Node.dirNode] at hs
  rw [hs] at heq
  exact scan_none heq.symm

theorem IsDir.create_nodup (h : IsDir v fs d cs) (hnd : (shortNames (slots v fs.disk cs)).Nodup)
    (hseal : Sealed (slots v fs.disk cs)) (htail : TailLeft (slots v fs.disk cs) nm)
    (he : fcreate v d nm type junk fs = some (some vn, fs')) :
    ∃ c sn cs', Created v d nm type cs fs vn fs' c sn cs' ∧ (shortNames (slots v fs'.disk cs')).Nodup := by
  rcases h.fcreate_spec he with ⟨hsearch, c, sn, cs', hcr⟩
  have hnew := shortNameIn_new hcr.short (fun _ => h.search_none hsearch) htail
  rw [← hseal.entryNames_eq] at hnd hnew
  exact ⟨c, sn, cs', hcr, (hcr.nodup hnd hnew).sublist (shortNames_sublist _)⟩

/-- Slots that are marked as deleted take names away. -/
theorem shortNames_deleted {pre mid post : List Bytes} (hmid : ∀ e ∈ mid, e 0 ≠ 0) :
    (shortNames (pre ++ (mid.map deleted ++ post))).Sublist (shortNames (pre ++ (mid ++ post))) := by
  induction pre with
  | nil =>
    induction mid with
    | nil => exact List.Sublist.refl _
    | cons e mid ih =>
      have h5 : deleted e 0 = 0xE5 := Function.update_self _ _ _
      have h0 : deleted e 0 ≠ 0 := by
        rw [h5]
        decide
      have hs : isShort (deleted e) = false := by
        simp [isShort, h5]
      rw [map_cons, nil_append, nil_append, cons_append, cons_append,
        shortNames_cons _ h0, shortNames_cons _ (hmid e mem_cons_self), entryNames_other hs, nil_append]
      exact (ih fun x hx => hmid x (mem_cons_of_mem e hx)).trans (sublist_append_right _ _)
  | cons e pre ih =>
    rw [cons_append, cons_append]
    by_cases h0 : e 0 = 0
    · rw [shortNames_cons_zero _ h0, shortNames_cons_zero _ h0]
    · rw [shortNames_cons _ h0, shortNames_cons _ h0]
      exact ih.append_left _

/-- The entry that a search finds, if any, has clusters of its own. -/
def OwnClusters (v : Volume) (fs : Fs) (d : Nat) (cs : List Nat) (nm : Name) (junk : Nat → Nat) : Prop :=
  ∀ de off, search v fs d nm junk = some (some (de, off)) →
    ∃ tcs, FileChain v fs.disk (fstClus de) tcs ∧ ∀ x ∈ tcs, x ∉ cs

theorem IsDir.unlink_nodup {b : Bool} (h : IsDir v fs d cs) (hnd : (shortNames (slots v fs.disk cs)).Nodup)
    (hown : OwnClusters v fs d cs nm junk) (he : funlink v d nm junk fs = some (b, fs')) :
    IsDir v fs' d cs ∧ (shortNames (slots v fs'.disk cs)).Nodup := by
  cases hs : search v fs d nm junk with
  | none =>
    rw [funlink, hs] at he
    cases he
  | some r =>
    cases r with
    | none =>
      rw [funlink, hs] at he
      cases he
      exact ⟨h, hnd⟩
    | some e =>
      rcases e with ⟨de, off⟩
      rcases hown de off hs with ⟨tcs, ht, hap⟩
      have hspec := h.funlink_spec hs ht (.inl hap) he
      split at hspec
      · rcases hspec with ⟨-, ⟨disk', rfl⟩, hslots, hfat⟩
        refine ⟨⟨h.ok, h.ref, h.attrs, h.chain.congr fun x hx => ?_⟩, ?_⟩
        · rw [hfat x (h.chain.valid hx).2, if_neg fun hm => hap x hm hx]
        · -- the slot at the offset is the one that was found or one in front of it
          rcases h.search_found hs with ⟨k0, hoff, hget, hshort, hmark, -⟩
          obtain ⟨k, rfl, hk⟩ : ∃ k, off = 32 * k ∧ k ≤ k0 := ⟨_, hoff, Nat.mod_le _ _⟩
          have hmid : ∀ e ∈ ((slots v fs.disk cs).take (k + 1)).drop
              (k - runBack ((slots v fs.disk cs).take k).reverse 1), e 0 ≠ 0 := by
            intro e he
            have he := (take_sublist_take_left (show k + 1 ≤ k0 + 1 by omega)).subset (mem_of_mem_drop he)
            rw [take_add_one, hget] at he
            rcases mem_append.mp he with he | he
            · exact hmark e he
            · simp only [isShort, decide_eq_true_eq] at hshort
              rw [mem_singleton.mp he]
              exact hshort.1
          have hsub := @shortNames_deleted
            ((slots v fs.disk cs).take (k - runBack ((slots v fs.disk cs).take k).reverse 1))
            _ ((slots v fs.disk cs).drop (k + 1)) hmid
          rw [take_drop_split _ (by omega)] at hsub
          rw [hslots, Nat.mul_div_cancel_left k (by omega)]
          exact hnd.sublist hsub
      · rw [hspec.2]
        exact ⟨h, hnd⟩

theorem Created.two_refs (h : Created v d nm type cs fs d fs' c sn cs') (href : 0 < (fs.vnodes d).ref) :
    1 < (fs'.vnodes d).ref := by
  have hv := h.vnode
  rw [h.vnodes]
  generalize hr : fvalloc c 0 (newAttr type) (fs.vnodes d).priv.firstClus
    (uint (32 * entryIdx nm (slots v fs.disk cs))) fs = r at hv
  rcases r with ⟨i, fs1⟩
  cases hv
  rcases fvalloc_cases hr with ⟨-, rfl⟩ | ⟨-, h0, -⟩
  · rw [Fs.setNode_self]
    exact Nat.succ_lt_succ href
  · omega

/-- The vnode of a new directory is released; the directory keeps its own. -/
theorem Created.vput_isDir (h : Created v d nm type cs fs vn fs' c sn cs') (href : 0 < (fs.vnodes d).ref) {fs1 : Fs}
    (hput : vput vn fs' = some fs1) : IsDir v fs1 d cs' ∧ fs1.disk = fs'.disk := by
  have hdisk := vput_disk hput
  have hnode : (fs1.vnodes d).priv = (fs'.vnodes d).priv ∧ 0 < (fs1.vnodes d).ref := by
    rw [vput] at hput
    split at hput
    · cases hput
    · split at hput
      · rename_i h1
        cases hput
        by_cases hd : d = vn
        · subst hd
          have := h.two_refs href
          omega
        · simp only [Fs.setNode_ne _ _ hd]
          exact ⟨trivial, h.dir.ref⟩
      · cases hput
        by_cases hd : d = vn
        · subst hd
          simp only [Fs.setNode_self]
          exact ⟨trivial, by omega⟩
        · simp only [Fs.setNode_ne _ _ hd]
          exact ⟨trivial, h.dir.ref⟩
  refine ⟨⟨h.dir.ok, hnode.2, ?_, ?_⟩, hdisk⟩
  · rw [hnode.1]
    exact h.dir.attrs
  · rw [hnode.1, hdisk]
    exact h.dir.chain

end Step

/-! ### Runs -/

/-- A call on one directory. -/
inductive NameOp where
  | create (nm : Name) (type : VType) (junk : Nat → Nat)
  | mkdir (nm : Name) (junk : Nat → Nat)
  | unlink (nm : Name) (junk : Nat → Nat)

/-- Creations that succeed, and removals. -/
def NameOp.exec (v : Volume) (d : Nat) : NameOp → Fs → Option Fs
  | .create nm type junk, fs => (fcreate v d nm type junk fs).bind fun r => r.1.map fun _ => r.2
  | .mkdir nm junk, fs => (fmkdir v d nm junk fs).bind fun r => if r.1 then some r.2 else none
  | .unlink nm junk, fs => (funlink v d nm junk fs).map Prod.snd

/-- A new name finds no entry in use behind the end mark of its directory, and one of the 99 tails not in use.
The entry of a name that is removed has clusters of its own. -/
def NameOp.Cond (v : Volume) (d : Nat) (fs : Fs) (op : NameOp) : Prop :=
  ∀ cs, Chain v fs.disk (fs.vnodes d).priv.firstClus cs →
    match op with
    | .create nm _ _ => Sealed (slots v fs.disk cs) ∧ TailLeft (slots v fs.disk cs) nm
    | .mkdir nm _ => Sealed (slots v fs.disk cs) ∧ TailLeft (slots v fs.disk cs) nm
    | .unlink nm junk => OwnClusters v fs d cs nm junk

/-- Short names of the directory of vnode `d` are pairwise distinct. -/
def Distinct (v : Volume) (d : Nat) (fs : Fs) : Prop :=
  ∃ cs, IsDir v fs d cs ∧ (shortNames (slots v fs.disk cs)).Nodup

theorem NameOp.step_distinct {op : NameOp} (h : Distinct v d fs) (hc : op.Cond v d fs)
    (he : op.exec v d fs = some fs') : Distinct v d fs' := by
  rcases h with ⟨cs, hdir, hnd⟩
  have hc := hc cs hdir.chain
  cases op with
  | create nm type junk =>
    rcases bind_eq_some_iff.mp he with ⟨⟨r, fs1⟩, hcr, he⟩
    rcases map_eq_some_iff.mp he with ⟨vn, rfl, rfl⟩
    rcases hdir.create_nodup hnd hc.1 hc.2 hcr with ⟨_, _, cs', hcreated, hnd'⟩
    exact ⟨cs', hcreated.dir, hnd'⟩
  | mkdir nm junk =>
    rcases bind_eq_some_iff.mp he with ⟨⟨b, fs1⟩, hmk, he⟩
    rcases bind_eq_some_iff.mp hmk with ⟨⟨r, fs2⟩, hcr, hmk⟩
    cases r with
    | none =>
      cases hmk
      cases he
    | some vn =>
      rcases map_eq_some_iff.mp hmk with ⟨fs3, hput, hmk⟩
      cases hmk
      cases he
      rcases hdir.create_nodup hnd hc.1 hc.2 hcr with ⟨_, _, cs', hcreated, hnd'⟩
      rcases hcreated.vput_isDir hdir.ref hput with ⟨hdir', hdisk⟩
      exact ⟨cs', hdir', by rwa [hdisk]⟩
  | unlink nm junk =>
    rcases map_eq_some_iff.mp he with ⟨⟨b, fs1⟩, hun, rfl⟩
    exact ⟨cs, hdir.unlink_nodup hnd hc hun⟩

/-- Short names stay distinct over every run whose steps meet the condition. -/
theorem short_names_distinct {v : Volume} {d : Nat} {ops : List NameOp} {fs fs' : Fs} (h : Distinct v d fs)
    (hc : Run.Meets (NameOp.exec v d) (NameOp.Cond v d) ops fs) (hrun : Run.run (NameOp.exec v d) ops fs = some fs') :
    Distinct v d fs' :=
  Run.run_invariant (Distinct v d) (fun _ _ _ hs hok he => NameOp.step_distinct hs hok he) h hc hrun

/-! ### Two names in an empty directory -/

def fileFs : Fs := ((fcreate tinyVolume 0 [97] .file (fun _ => 0) tinyFs).map Prod.snd).getD tinyFs

theorem fileFs_isDir : IsDir tinyVolume fileFs 0 [2] :=
  ⟨tinyVolume_ok, by decide +kernel, by decide +kernel, .last ⟨by decide, by decide⟩ (by decide +kernel)⟩

theorem fileFs_created : NameOp.exec tinyVolume 0 (.create [97] .file fun _ => 0) tinyFs = some fileFs := by
  have hsome : (fcreate tinyVolume 0 [97] .file (fun _ => 0) tinyFs).map Prod.fst = some (some 1) := by decide +kernel
  rcases map_eq_some_iff.mp hsome with ⟨⟨r, fs'⟩, he, hr⟩
  cases hr
  rw [NameOp.exec, fileFs, he]
  rfl

/-- "a", then "aaaaaaaaa", which gets the short name "AAAAAA~1". -/
def twoNames : List NameOp := [.create [97] .file fun _ => 0, .create (List.replicate 9 97) .file fun _ => 0]

theorem two_names_distinct : ∃ fs', Run.run (NameOp.exec tinyVolume 0) twoNames tinyFs = some fs' ∧
    Distinct tinyVolume 0 fs' := by
  have hsome : (Run.run (NameOp.exec tinyVolume 0) twoNames tinyFs).isSome = true := by decide +kernel
  rcases isSome_iff_exists.mp hsome with ⟨fs', hrun⟩
  have hmeets : Run.Meets (NameOp.exec tinyVolume 0) (NameOp.Cond tinyVolume 0) twoNames tinyFs := by
    constructor
    · intro cs hcs
      rw [← Chain.unique tinyVolume_ok tinyFs_isDir.chain hcs]
      exact ⟨by rw [Sealed]; decide +kernel, fun h => absurd h (by decide)⟩
    · intro fs1 he
      cases fileFs_created.symm.trans he
      refine ⟨fun cs hcs => ?_, fun _ _ => trivial⟩
      rw [← Chain.unique tinyVolume_ok fileFs_isDir.chain hcs]
      exact ⟨by rw [Sealed]; decide +kernel, fun _ => ⟨1, by omega, by omega, by decide +kernel⟩⟩
  exact ⟨fs', hrun, short_names_distinct ⟨[2], tinyFs_isDir, by decide +kernel⟩ hmeets hrun⟩

/-! ### A directory with all tails in use -/

theorem shortNames_append (h : ∀ e ∈ l, e 0 ≠ 0) (l' : List Bytes) :
    shortNames (l ++ l') = entryNames l ++ shortNames l' := by
  induction l with
  | nil => rfl
  | cons e l ih =>
    rw [cons_append, shortNames_cons _ (h e mem_cons_self), ih fun x hx => h x (mem_cons_of_mem e hx),
      ← append_assoc, ← entryNames_append]
    rfl

theorem entryNames_map_cut (l : List Bytes) : entryNames (l.map cut) = entryNames l := by
  induction l with
  | nil => rfl
  | cons e l ih =>
    have hcut : isShort (cut e) = isShort e := rfl
    have he : entryNames [cut e] = entryNames [e] := by
      by_cases hs : isShort e = true
      · rw [entryNames_short hs, entryNames_short (hcut.trans hs), dirName_cut]
      · rw [Bool.not_eq_true] at hs
        rw [entryNames_other hs, entryNames_other (hcut.trans hs)]
    rw [map_cons, ← singleton_append, entryNames_append, ih, he, ← entryNames_append]
    rfl

theorem pickShortName_taken {taken : List UInt8 → Bool} {tail : Nat}
    (h : ∀ t, tail ≤ t → t < tail + k → taken (genShortName nm t) = true) :
    pickShortName (fun sn => some (taken sn)) nm k tail = some (genShortName nm (tail + k - 1)) := by
  induction k generalizing tail with
  | zero => rfl
  | succ k ih =>
    rw [pickShortName, bind_some, h tail (Nat.le_refl tail) (by omega), if_pos rfl,
      ih fun t h1 h2 => h t (by omega) (by omega)]
    congr 2
    omega

/-- An entry whose short name stands in front of it already. -/
theorem Created.repeats {vn c : Nat} {type : VType} {cs cs' : List Nat}
    (h : Created v d nm type cs fs vn fs' c sn cs')
    (hpre : ∀ e ∈ (slots v fs.disk cs).take (gapFor nm (slots v fs.disk cs)), e 0 ≠ 0)
    (hin : sn ∈ entryNames ((slots v fs.disk cs).take (gapFor nm (slots v fs.disk cs)))) (hlen : lfnCount nm ≤ 20)
    (hreach : InReach nm (slots v fs.disk cs))
    (hs : isShort (dirent sn (newAttr type) c) = true) : ¬(shortNames (slots v fs'.disk cs')).Nodup := by
  rcases h.around hreach with ⟨rest, -, hslots⟩
  have hlfn : ∀ e ∈ lfnEntries nm (lfnCount nm) (lfnChecksum sn), e 0 ≠ 0 := by
    intro e he
    have := isLfn_lfnEntries hlen e he
    simp only [isLfn, decide_eq_true_eq] at this
    exact this.1
  have hs0 : cut (dirent sn (newAttr type) c) 0 ≠ 0 := by
    simp only [isShort, decide_eq_true_eq] at hs
    exact hs.1
  have hmap : ∀ {l : List Bytes}, (∀ e ∈ l, e 0 ≠ 0) → ∀ e ∈ l.map cut, e 0 ≠ 0 := by
    intro l hl e he
    rcases mem_map.mp he with ⟨x, hx, rfl⟩
    exact hl x hx
  rw [hslots, map_append, shortNames_append (hmap hpre), newEntries, append_assoc, map_append,
    shortNames_append (hmap hlfn), singleton_append, map_cons, shortNames_cons _ hs0,
    entryNames_short (show isShort (cut (dirent sn (newAttr type) c)) = true from hs), dirName_cut,
    dirName_dirent (chosen_length h.short), entryNames_map_cut]
  intro hnd
  exact (nodup_append.mp hnd).2.2 sn hin sn (by simp) rfl

/-- A volume with clusters of 128 slots. -/
def wideVolume : Volume :=
  { secPerClus := 8, rsvdSecCnt := 1, firstDataSec := 2, numFats := 1, fatSz := 1, totClus := 4, rootClus := 2 }

def abcdefghi : Name := [97, 98, 99, 100, 101, 102, 103, 104, 105]

/-- The root directory has the 99 files "ABCDEF~1" to "ABCDEF~9" and "ABCDEF~1.0" to "ABCDEF~9.9". -/
def tailsDisk : Disk := fun b o =>
  let a := 1024 * b + o
  if 1024 ≤ a ∧ a < 1024 + 32 * 99 then
    dirent (genShortName abcdefghi ((a - 1024) / 32 + 1)) 0x20 0 ((a - 1024) % 32)
  else tinyDisk b o

def tailsFs : Fs := { tinyFs with disk := tailsDisk }

theorem wideVolume_ok : wideVolume.Ok := ⟨by decide, by decide, by decide, by decide, by decide, by decide⟩

/-- The number behind the tilde. -/
def tailOf (sn : List UInt8) : Nat :=
  if sn.getD 8 0 = 32 then (sn.getD 7 0).toNat - 48 else ((sn.getD 7 0).toNat - 48) * 10 + ((sn.getD 8 0).toNat - 48)

theorem tails_slots : eocMin ≤ readFat wideVolume.toMount tailsDisk 2 ∧
    shortNames (slots wideVolume tailsDisk [2]) = ((List.range 99).map fun t => genShortName abcdefghi (t + 1)) ∧
    ((List.range 99).map fun t => genShortName abcdefghi (t + 1)).map tailOf = List.range' 1 99 ∧
    ((slots wideVolume tailsDisk [2]).take 99).all (fun e => e 0 ≠ 0) = true ∧
    shortNames ((slots wideVolume tailsDisk [2]).drop 99) = [] ∧
    gapIdx (lfnCount abcdefghi + 1) (slots wideVolume tailsDisk [2]) = some 99 ∧
    (search wideVolume tailsFs 0 abcdefghi fun _ => 0).map (·.isSome) = some false := by
  decide +kernel

theorem tailsFs_isDir : IsDir wideVolume tailsFs 0 [2] :=
  ⟨wideVolume_ok, by decide, by decide, .last ⟨by decide, by decide⟩ tails_slots.1⟩

theorem shortNames_tails : shortNames (slots wideVolume tailsDisk [2]) =
    (List.range 99).map fun t => genShortName abcdefghi (t + 1) := tails_slots.2.1

theorem tails_nodup : ((List.range 99).map fun t => genShortName abcdefghi (t + 1)).Nodup := by
  apply List.Nodup.of_map tailOf
  rw [tails_slots.2.2.1]
  exact nodup_range'

theorem tails_search : search wideVolume tailsFs 0 abcdefghi (fun _ => 0) = some none := by
  rcases map_eq_some_iff.mp tails_slots.2.2.2.2.2.2 with ⟨r, hr, hnone⟩
  rw [hr]
  simpa using hnone

theorem tails_gap : gapIdx (lfnCount abcdefghi + 1) (slots wideVolume tailsDisk [2]) = some 99 :=
  tails_slots.2.2.2.2.2.1

theorem tails_created : ∃ vn fs', fcreate wideVolume 0 abcdefghi .file (fun _ => 0) tailsFs = some (some vn, fs') := by
  have hch : FileChain wideVolume tailsFs.disk (tailsFs.vnodes 0).priv.firstClus [2] := .inl tailsFs_isDir.chain
  rcases hch.dfree_some wideVolume_ok (lfnCount abcdefghi) (fun _ _ => by decide) with ⟨g, disk2, hfree⟩
  have hclus : newClus wideVolume .file tailsFs.disk = some (0, tailsFs.disk) := rfl
  rw [fcreate_eq rfl tails_search hclus (fun hty => nomatch hty) hfree]
  cases hch.dfree_cases wideVolume_ok (lfnCount abcdefghi) hfree with
  | gap hg =>
    cases tails_gap.symm.trans hg
    have hself : Fs.setFirst { tailsFs with disk := tailsFs.disk } 0 (tailsFs.vnodes 0).priv.firstClus = tailsFs :=
      setFirst_self tailsFs 0
    rw [elim_some, hself]
    exact tailsFs_isDir.chain.place_some wideVolume_ok tailsFs_isDir.ref (gapIdx_le tails_gap) (.inr (by decide))
  | full hg _ => cases tails_gap.symm.trans hg
  | grown hg _ _ _ _ _ _ _ => cases tails_gap.symm.trans hg

/-- "abcdefghi" gets the short name "ABCDEF~9.9" that is in use. -/
theorem last_tail_repeated : Distinct wideVolume 0 tailsFs ∧
    ∃ fs', NameOp.exec wideVolume 0 (.create abcdefghi .file fun _ => 0) tailsFs = some fs' ∧
      ¬Distinct wideVolume 0 fs' := by
  refine ⟨⟨[2], tailsFs_isDir, by rw [tailsFs, shortNames_tails]; exact tails_nodup⟩, ?_⟩
  rcases tails_created with ⟨vn, fs', he⟩
  rcases (tailsFs_isDir.fcreate_spec he).2 with ⟨c, sn, cs', hcr⟩
  refine ⟨fs', by rw [NameOp.exec, he]; rfl, ?_⟩
  have hsn : sn = genShortName abcdefghi 99 := by
    have hshort := hcr.short
    rw [shortNameIn, if_neg (by decide), pickShortName_taken] at hshort
    · exact (some.inj hshort).symm
    · intro t h1 h2
      rw [snTaken_iff, tailsFs, shortNames_tails]
      exact mem_map.mpr ⟨t - 1, mem_range.mpr (by omega), by rw [Nat.sub_add_cancel h1]⟩
  have hgap : gapFor abcdefghi (slots wideVolume tailsFs.disk [2]) = 99 := by
    rw [gapFor, gapAt, tailsFs, tails_gap]
    rfl
  have hpre : ∀ e ∈ (slots wideVolume tailsDisk [2]).take 99, e 0 ≠ 0 := by simpa using tails_slots.2.2.2.1
  have hin : genShortName abcdefghi 99 ∈ entryNames ((slots wideVolume tailsDisk [2]).take 99) := by
    have hsplit := shortNames_append hpre ((slots wideVolume tailsDisk [2]).drop 99)
    rw [take_append_drop, tails_slots.2.2.2.2.1, append_nil, shortNames_tails] at hsplit
    rw [← hsplit]
    exact mem_map.mpr ⟨98, mem_range.mpr (by omega), rfl⟩
  rintro ⟨cs, hdir, hnd⟩
  cases Chain.unique wideVolume_ok hdir.chain hcr.dir.chain
  have hreach : InReach abcdefghi (slots wideVolume tailsFs.disk [2]) := by
    rw [InReach, entryIdx, hgap]
    decide
  apply hcr.repeats _ _ (by decide) hreach _ hnd
  · rw [hgap]
    exact hpre
  · rw [hgap, hsn]
    exact hin
  · have h5 := genShortName_headD abcdefghi 99
    rw [← hsn] at h5
    exact isShort_dirent (chosen_length hcr.short) h5.1 h5.2

end Xv6Vfs.Fat32
