import Xv6Vfs.Fat32.Enumerate
import Xv6Vfs.Fat32.Spared

/-! Whether `fcreate` refuses every name that `flookup` finds. -/
namespace Xv6Vfs.Fat32
open Xv6Vfs.Bytes Xv6Vfs.Vfs Option

variable {c : Nat} {disk1 : Disk} {type : VType}

/-! ### Room for a name -/

/-- `fvalloc` can return a vnode for the entry at `off` of the directory `pdir`: there is one in use for it,
or a free one and a page. -/
def VnodeLeft (fs : Fs) (pdir off : Nat) : Prop :=
  (findVnode fs pdir off).isSome ∨
    ((List.range nvnode).find? fun i => (fs.vnodes i).ref = 0 ∧ !fs.taken i).isSome ∧ fs.pages ≠ 0

theorem fvalloc_isSome_iff (c sz pdir off : Nat) (attrs : UInt8) (fs : Fs) :
    (fvalloc c sz attrs pdir off fs).1.isSome ↔ VnodeLeft fs pdir off := by
  rw [fvalloc, VnodeLeft]
  cases findVnode fs pdir off with
  | some i => simp
  | none =>
    cases (List.range nvnode).find? fun i => decide ((fs.vnodes i).ref = 0 ∧ (!fs.taken i) = true) with
    | none => simp
    | some i =>
      by_cases hp : fs.pages = 0
      · simp [hp]
      · simp [hp]

/-- `fcreate` finds no room and ends: there is a gap for the entries but no vnode, and no change of the table waits for
a buffer of its own, or there is neither a gap nor a cluster to append. -/
def NoRoom (v : Volume) (fs : Fs) (d : Nat) (cs : List Nat) (nm : Name) : Prop :=
  match gapIdx (lfnCount nm + 1) (slots v fs.disk cs) with
  | some k => ¬VnodeLeft fs (fs.vnodes d).priv.firstClus (uint (32 * (k + lfnCount nm))) ∧
      ((∃ n, v.Valid n ∧ readFat v.toMount fs.disk n = 0) → TablesApart v)
  | none => ¬∃ n, v.Valid n ∧ readFat v.toMount fs.disk n = 0

/-! ### Short names can always be chosen -/

theorem pickShortName_total {ex : List UInt8 → Option Bool} (hex : ∀ sn, ∃ b, ex sn = some b) (nm : Name)
    (k tail : Nat) : ∃ sn, pickShortName ex nm k tail = some sn := by
  induction k generalizing tail with
  | zero => exact ⟨_, rfl⟩
  | succ k ih =>
    rcases hex (genShortName nm tail) with ⟨b, hb⟩
    rw [pickShortName, hb, bind_some]
    cases b with
    | true => exact ih (tail + 1)
    | false => exact ⟨_, rfl⟩

theorem Chain.newShortName_total {v : Volume} (ok : v.Ok) {fs : Fs} {d : Nat} {cs : List Nat}
    (h : Chain v fs.disk (fs.vnodes d).priv.firstClus cs) (nm : Name) : ∃ sn, newShortName v d nm fs = some sn := by
  rw [newShortName]
  split
  · exact ⟨_, rfl⟩
  · apply pickShortName_total
    intro sn
    rw [shortnameExists]
    split
    · exact ⟨_, rfl⟩
    · rw [Node.dirNode, (h.links ok).sweep_eq (h.links ok).length_lt]
      exact ⟨_, rfl⟩

/-- With a vnode and room behind slot `k` the entries are written. -/
theorem Chain.place_some {v : Volume} (ok : v.Ok) {d c k : Nat} {nm : Name} {type : VType} {fs : Fs} {cs : List Nat}
    (h : Chain v fs.disk (fs.vnodes d).priv.firstClus cs) (href : 0 < (fs.vnodes d).ref)
    (hk : k + (lfnCount nm + 1) ≤ (slots v fs.disk cs).length)
    (hv : VnodeLeft fs (fs.vnodes d).priv.firstClus (uint (32 * (k + lfnCount nm)))) :
    ∃ vn fs', place v d nm type c (uint (32 * k)) fs = some (some vn, fs') := by
  rcases h.newShortName_total ok nm with ⟨sn, hsn⟩
  rw [← fvalloc_isSome_iff c 0 _ _ (newAttr type)] at hv
  rw [place, hsn, bind_some, uint_place]
  generalize uint (32 * (k + lfnCount nm)) = off at hv ⊢
  have hdisk := @fvalloc_disk c 0 (fs.vnodes d).priv.firstClus off (newAttr type) fs
  generalize hr : fvalloc c 0 (newAttr type) (fs.vnodes d).priv.firstClus off fs = r at hv hdisk
  rcases r with ⟨i, fs1⟩
  rcases isSome_iff_exists.mp hv with ⟨vn, rfl⟩
  have hpriv := (fvalloc_keeps hr href).1
  have hfit : ∀ i < (newEntries nm sn (newAttr type) c).length, (k + i) % 2 ^ 27 < (slots v fs.disk cs).length := by
    intro i hi
    rw [newEntries_length] at hi
    omega
  rcases h.dwriteAll_eq ok _ k hfit with ⟨disk', hw, -, -⟩
  rw [newEntries] at hw
  dsimp only
  rw [enter, hpriv, hdisk, dwriteLfn, dirName_dirent (chosen_length hsn), dwriteAll_uint, hw]
  exact ⟨vn, _, rfl⟩

/-! ### Refusal -/

/-- Device, allocation table and vnodes are as before. -/
structure Untouched (v : Volume) (fs fs' : Fs) : Prop where
  nodes : fs'.vnodes = fs.vnodes
  pages : fs'.pages = fs.pages
  table : KeepsFat v (fun _ => True) fs.disk fs'.disk
  data : Changes v (fun _ => False) fs.disk fs'.disk

theorem Untouched.refl (v : Volume) (fs : Fs) : Untouched v fs fs := ⟨rfl, rfl, fun _ _ _ => rfl, Changes.refl v _ _⟩

/-- `fcreate` of any type and `fmkdir` fail and leave everything as it was. -/
def Refused (v : Volume) (d : Nat) (nm : Name) (junk : Nat → Nat) (fs : Fs) : Prop :=
  (∀ type, ∃ fs', fcreate v d nm type junk fs = some (none, fs') ∧ Untouched v fs fs') ∧
    ∃ fs', fmkdir v d nm junk fs = some (false, fs') ∧ Untouched v fs fs'

section Refused

variable {v : Volume} {d : Nat} {nm : Name} {junk : Nat → Nat} {fs : Fs} {cs : List Nat}

theorem refused_of_create (h : ∀ type, ∃ fs', fcreate v d nm type junk fs = some (none, fs') ∧ Untouched v fs fs') :
    Refused v d nm junk fs := by
  rcases h .dir with ⟨fs', he, hu⟩
  exact ⟨h, fs', by rw [fmkdir, he]; rfl, hu⟩

theorem refused_of_found (hdir : (fs.vnodes d).type = .dir) {e : Bytes × Nat}
    (h : search v fs d nm junk = some (some e)) : Refused v d nm junk fs := by
  apply refused_of_create
  intro type
  refine ⟨fs, ?_, Untouched.refl v fs⟩
  rw [fcreate, if_neg (fun hne => hne hdir), h]
  rfl

/-- `fcreate` behind a search that found nothing. -/
theorem fcreate_eq (hdir : (fs.vnodes d).type = .dir) (h : search v fs d nm junk = some none) {disk2 : Disk}
    {g : Option (Nat × Nat)} (hnew : newClus v type fs.disk = some (c, disk1))
    (hret : type = .dir → fatWaits v c = false)
    (hfree : dfree v (fs.vnodes d).priv.firstClus (lfnCount nm) disk1 = some (g, disk2)) :
    fcreate v d nm type junk fs =
      g.elim ((releaseClus v c disk2).map fun disk3 => (none, { fs with disk := disk3 }))
        fun p => place v d nm type c p.1 ({ fs with disk := disk2 }.setFirst d p.2) := by
  rw [fcreate, if_neg (fun hne => hne hdir), h, bind_some, hnew]
  dsimp only
  rw [if_neg fun hw => Bool.false_ne_true ((hret hw.1).symm.trans hw.2), hfree]
  cases g with
  | none => rfl
  | some p => rfl

theorem Prepared.untouched (ok : v.Ok) (h : Prepared v type c fs.disk disk1) (hap : type = .dir → TablesApart v) :
    ∃ disk2, releaseClus v c disk1 = some disk2 ∧ Untouched v fs { fs with disk := disk2 } := by
  obtain ⟨disk2, hrel⟩ : ∃ disk2, releaseClus v c disk1 = some disk2 := by
    have htook := h.took
    rw [TookClus] at htook
    rw [releaseClus]
    split at htook
    · rename_i ht
      have hch := Chain.last htook.1 htook.2
      have := htook.1.1
      rcases hch.freeChain_eq ok (hap ht) (hch.links ok).length_lt with ⟨disk2, he, -⟩
      exact ⟨disk2, by rw [if_neg (by omega), he]⟩
    · exact ⟨disk1, if_pos htook⟩
  rcases h.took.release ok hrel with ⟨hzero, hkeep, hdata⟩
  refine ⟨disk2, hrel, rfl, rfl, fun x hx _ => ?_, h.data.trans hdata⟩
  by_cases hxc : type = .dir ∧ x = c
  · rcases hxc with ⟨ht, rfl⟩
    exact (hzero ht).trans (h.free ht).2.symm
  · have hne : type = .dir → x ≠ c := fun ht he => hxc ⟨ht, he⟩
    exact (hkeep x hx hne).trans (h.keeps x hx hne)

variable (ok : v.Ok) (hdir : (fs.vnodes d).type = .dir)
  (hch : FileChain v fs.disk (fs.vnodes d).priv.firstClus cs)
include ok hdir hch

theorem refused_of_no_room (h : search v fs d nm junk = some none) (hroom : NoRoom v fs d cs nm) :
    Refused v d nm junk fs := by
  apply refused_of_create
  intro type
  cases hnew : newClus v type fs.disk with
  | none =>
    refine ⟨fs, ?_, Untouched.refl v fs⟩
    rw [fcreate, if_neg (fun hne => hne hdir), h, bind_some, hnew]
  | some q =>
    rcases q with ⟨c, disk1⟩
    have hprep := newClus_prepared ok hnew
    have hs1 := hprep.slots_eq hch ok
    rw [NoRoom, ← hs1] at hroom
    have hap : type = .dir → TablesApart v := by
      intro ht
      have hfree : ∃ n, v.Valid n ∧ readFat v.toMount fs.disk n = 0 := ⟨c, hprep.free ht⟩
      cases hg : gapIdx (lfnCount nm + 1) (slots v disk1 cs) with
      | some k =>
        rw [hg] at hroom
        exact hroom.2 hfree
      | none =>
        rw [hg] at hroom
        exact absurd hfree hroom
    have hret : type = .dir → fatWaits v c = false := fun ht => (ok.fatWaits_iff (hprep.free ht).1.2).mpr (hap ht)
    have hgrow : gapIdx (lfnCount nm + 1) (slots v disk1 cs) = none → allocClus v disk1 = none := by
      intro hg
      rw [hg] at hroom
      refine (ok.allocClus_none_iff disk1).mpr ?_
      rintro ⟨n, hn, h0⟩
      exact hroom ⟨n, hn, (hprep.free_before hn h0).1⟩
    rcases hprep.untouched ok hap with ⟨disk3, hrel, hu⟩
    rcases (hprep.chain hch).dfree_some ok (lfnCount nm) (fun hg ha => absurd (hgrow hg) ha) with ⟨g, disk2, hfree⟩
    rw [fcreate_eq hdir h hnew hret hfree]
    cases (hprep.chain hch).dfree_cases ok (lfnCount nm) hfree with
    | full _ _ => exact ⟨_, by rw [elim_none, hrel]; rfl, hu⟩
    | @gap k hg =>
      rw [hg] at hroom
      rcases hprep.chain hch with hch1 | ⟨-, rfl⟩
      · rcases @Chain.newShortName_total v ok { fs with disk := disk1 } d cs hch1 nm with ⟨sn, hsn⟩
        have hnone : (fvalloc c 0 (newAttr type) (fs.vnodes d).priv.firstClus (uint (32 * (k + lfnCount nm)))
            { fs with disk := disk1 }).1 = none := by
          rw [← not_isSome_iff_eq_none, fvalloc_isSome_iff]
          exact hroom.1
        have hself : Fs.setFirst { fs with disk := disk1 } d (fs.vnodes d).priv.firstClus = { fs with disk := disk1 } :=
          setFirst_self { fs with disk := disk1 } d
        refine ⟨_, ?_, hu⟩
        rw [elim_some, hself, place, hsn, bind_some, uint_place]
        dsimp only
        rw [hnone]
        rw [hrel]
        rfl
      · cases hg
    | @grown n _ _ hg hn hnfree _ _ _ _ _ => exact absurd ⟨n, hn, hnfree⟩ ((ok.allocClus_none_iff disk1).mp (hgrow hg))

/-- A name that is not found is entered, or the directory grows, or the call does not end. -/
theorem not_refused (href : 0 < (fs.vnodes d).ref) (h : search v fs d nm junk = some none)
    (hroom : ¬NoRoom v fs d cs nm) : ¬Refused v d nm junk fs := by
  intro hno
  rw [NoRoom] at hroom
  rcases hno.1 .file with ⟨fs', he, hu⟩
  have hclus : newClus v .file fs.disk = some (0, fs.disk) := rfl
  obtain ⟨g, disk2, hfree⟩ : ∃ g disk2, dfree v (fs.vnodes d).priv.firstClus (lfnCount nm) fs.disk =
    some (g, disk2) := by
    rw [fcreate, if_neg (fun hne => hne hdir), h, bind_some, hclus] at he
    dsimp only at he
    rw [if_neg fun h => absurd h.1 (by decide)] at he
    rcases bind_eq_some_iff.mp he with ⟨r, hr, -⟩
    exact ⟨r.1, r.2, hr⟩
  rw [fcreate_eq hdir h hclus (fun hty => absurd hty (by decide)) hfree] at he
  cases hch.dfree_cases ok (lfnCount nm) hfree with
  | full hg ha =>
    rw [hg] at hroom
    exact hroom ((ok.allocClus_none_iff fs.disk).mp ha)
  | @gap k hg =>
    rw [hg] at hroom
    rcases hch with hch | ⟨-, rfl⟩
    swap
    · cases hg
    by_cases hv : VnodeLeft fs (fs.vnodes d).priv.firstClus (uint (32 * (k + lfnCount nm)))
    · have hself : Fs.setFirst { fs with disk := fs.disk } d (fs.vnodes d).priv.firstClus = fs := setFirst_self fs d
      rcases @Chain.place_some v ok d 0 k nm .file fs cs hch href (gapIdx_le hg) hv with ⟨vn, fs2, hsome⟩
      rw [elim_some, hself, hsome] at he
      cases he
    · -- a directory gets its cluster first, and the change of the table does not end
      rw [not_and, Classical.not_imp] at hroom
      rcases hroom hv with ⟨hex, hap⟩
      rcases hno.1 .dir with ⟨fs2, he2, -⟩
      cases ha : allocClus v fs.disk with
      | none => exact (ok.allocClus_none_iff fs.disk).mp ha hex
      | some q =>
        have hclus : newClus v .dir fs.disk = some q := ha
        have hwait : fatWaits v q.1 = true := by
          by_contra hw
          exact hap ((ok.fatWaits_iff (allocClus_eq ha).1.2).mp (by simpa using hw))
        rw [fcreate, if_neg (fun hne => hne hdir), h, bind_some, hclus] at he2
        dsimp only at he2
        rw [if_pos ⟨rfl, hwait⟩] at he2
        cases he2
  | @grown n first' _ hg hn hnfree hch2 hs2 _ _ _ =>
    have hkeep := (@place_frame v d 0 _ nm .file (Fs.setFirst { fs with disk := disk2 } d first') fs' (cs ++ [n]) none
      ok (by rwa [setFirst_ref]) (by rwa [setFirst_firstClus]) rfl he).1
    have hne : readFat v.toMount disk2 n ≠ 0 := hch2.ne_zero (List.mem_append_right cs (List.mem_singleton_self n))
    have h1 := hkeep n hn.2 fun h => absurd h (by decide)
    have h2 := hu.table n hn.2 trivial
    rw [hnfree, h1] at h2
    exact hne h2

theorem refused_iff (href : 0 < (fs.vnodes d).ref) : Refused v d nm junk fs ↔
    ∃ r, search v fs d nm junk = some r ∧ (r = none → NoRoom v fs d cs nm) := by
  constructor
  · intro h
    rcases h.1 .file with ⟨fs', he, -⟩
    rw [fcreate, if_neg (fun hne => hne hdir)] at he
    rcases bind_eq_some_iff.mp he with ⟨r, hr, -⟩
    refine ⟨r, hr, ?_⟩
    rintro rfl
    by_contra hroom
    exact not_refused ok hdir hch href hr hroom h
  · rintro ⟨r, hr, hroom⟩
    cases r with
    | some e => exact refused_of_found hdir hr
    | none => exact refused_of_no_room ok hdir hch hr (hroom rfl)

end Refused

/-- `flookup` answers the name without a search. -/
def Special (v : Volume) (fs : Fs) (d : Nat) (nm : Name) : Prop :=
  nm = dot ∨ nm = dotdot ∧ (fs.vnodes d).priv.firstClus = v.rootClus

theorem flookup_some_iff (v : Volume) (d : Nat) (nm : Name) (junk : Nat → Nat) (fs : Fs) :
    (∃ i fs', flookup v d nm junk fs = some (some i, fs')) ↔
      Special v fs d nm ∨
        ∃ e, search v fs d nm junk = some (some e) ∧ VnodeLeft fs (fs.vnodes d).priv.firstClus e.2 := by
  rw [flookup, Special]
  by_cases hs : nm = dot ∨ nm = dotdot ∧ (fs.vnodes d).priv.firstClus = v.rootClus
  · rw [if_pos hs]
    exact ⟨fun _ => .inl hs, fun _ => ⟨_, _, rfl⟩⟩
  · rw [if_neg hs]
    constructor
    · rintro ⟨i, fs', h⟩
      rcases map_eq_some_iff.mp h with ⟨r, hr, h⟩
      cases r with
      | none => cases h
      | some e =>
        refine .inr ⟨e, hr, ?_⟩
        dsimp only at h
        rw [← fvalloc_isSome_iff (fstClus e.1) (fileSize e.1) _ _ (dirAttr e.1), h]
        rfl
    · rintro (h | ⟨e, he, hv⟩)
      · exact absurd h hs
      · rw [← fvalloc_isSome_iff (fstClus e.1) (fileSize e.1) _ _ (dirAttr e.1)] at hv
        rcases isSome_iff_exists.mp hv with ⟨i, hi⟩
        rw [he]
        exact ⟨i, _, congrArg some (Prod.ext hi rfl)⟩

/-- A search reads the slots of the directory as entries, whatever its buffer holds. -/
theorem FileChain.search_eq {v : Volume} {d : Nat} {nm : Name} {fs : Fs} {cs : List Nat} (ok : v.Ok)
    (hattr : (fs.vnodes d).priv.attrs &&& attrDirectory ≠ 0)
    (hch : FileChain v fs.disk (fs.vnodes d).priv.firstClus cs) (s : Searched nm (slots v fs.disk cs))
    (junk : Nat → Nat) :
    (search v fs d nm junk).map cutEntry = some (firstLook nm s.items 0) := by
  have hscan := @scan_items nm s.rest s.items s.ends 0 ⟨junk, 0, 0, false, 0⟩ rfl
  rw [← s.slots_eq] at hscan
  rw [search, Node.dirNode]
  rcases hch with hch | ⟨h0, rfl⟩
  · rw [hch.dlookup_eq ok hattr, hscan]
  · have hf : chainFuel = 2 ^ 28 - 1 + 1 := by decide
    rw [dlookup, if_neg hattr, h0, hf, dlookupFrom, if_neg (fun h => Nat.not_succ_le_zero 1 h.1), ← hscan]
    rfl

/-- Unless a search for the name comes to a broken long name, `fcreate` and `fmkdir` refuse it if `flookup` finds it,
exactly if the following holds: if `flookup` answers the name without a search, an entry of the directory answers to it
too, or there is no room for it. -/
theorem found_names_refused_iff {v : Volume} {d : Nat} {nm : Name} {fs : Fs} {cs : List Nat} (ok : v.Ok)
    (hdir : (fs.vnodes d).type = .dir) (hattr : (fs.vnodes d).priv.attrs &&& attrDirectory ≠ 0)
    (href : 0 < (fs.vnodes d).ref) (hch : FileChain v fs.disk (fs.vnodes d).priv.firstClus cs) :
    (Nonempty (Searched nm (slots v fs.disk cs)) ∨ Broken nm (slots v fs.disk cs)) ∧
      ∀ s : Searched nm (slots v fs.disk cs),
        ((∀ junk i fs1, flookup v d nm junk fs = some (some i, fs1) → ∀ junk', Refused v d nm junk' fs) ↔
          (Special v fs d nm → (∃ e ∈ s.items, e.looks nm) ∨ NoRoom v fs d cs nm)) := by
  refine ⟨searched_or_broken nm _ (List.forall_mem_nil _), fun s => ?_⟩
  have hsearch := FileChain.search_eq ok hattr hch s
  have hall : ∀ junk', Refused v d nm junk' fs ↔ (∃ e ∈ s.items, e.looks nm) ∨ NoRoom v fs d cs nm := by
    intro junk'
    rw [refused_iff ok hdir hch href]
    cases hf : firstLook nm s.items 0 with
    | none =>
      rcases map_eq_some_iff.mp ((hsearch junk').trans (congrArg some hf)) with ⟨r, hr, hcut⟩
      cases r with
      | some e => cases hcut
      | none =>
        rw [hr, or_iff_right fun ⟨e, he, hl⟩ => firstLook_none hf e he hl]
        exact ⟨fun ⟨_, h, hno⟩ => hno (some.inj h).symm, fun hno => ⟨none, rfl, fun _ => hno⟩⟩
    | some q =>
      rcases map_eq_some_iff.mp ((hsearch junk').trans (congrArg some hf)) with ⟨r, hr, hcut⟩
      rcases firstLook_some hf with ⟨i, e, hi, -, hl, -⟩
      cases r with
      | none => cases hcut
      | some r => exact ⟨fun _ => .inl ⟨e, List.mem_of_getElem? hi, hl⟩, fun _ => ⟨_, hr, nofun⟩⟩
  simp only [hall]
  constructor
  · intro h hs
    rcases (flookup_some_iff v d nm (fun _ => 0) fs).mpr (.inl hs) with ⟨i, fs1, hl⟩
    exact h _ i fs1 hl fun _ => 0
  · intro h junk i fs1 hl _
    rcases (flookup_some_iff v d nm junk fs).mp ⟨i, fs1, hl⟩ with hs | ⟨q, hq, -⟩
    · exact h hs
    · have heq := hsearch junk
      rw [hq] at heq
      rcases firstLook_some (some.inj heq).symm with ⟨j, e, hj, -, hlook, -⟩
      exact .inl ⟨e, List.mem_of_getElem? hj, hlook⟩

/-- "my notes.txt" is found and refused. -/
theorem notes_refused : (∃ i fs1, flookup tinyVolume 0 myNotes (fun _ => 0) mixedFs = some (some i, fs1)) ∧
    ∀ junk, Refused tinyVolume 0 myNotes junk mixedFs := by
  have hs : ¬Special tinyVolume mixedFs 0 myNotes := by
    rw [Special]
    decide
  have hfound : (flookup tinyVolume 0 myNotes (fun _ => 0) mixedFs).map Prod.fst = some (some 1) := by decide +kernel
  rcases map_eq_some_iff.mp hfound with ⟨⟨r, fs1⟩, hl, hr⟩
  cases hr
  have hslots : slots tinyVolume mixedFs.disk [2] = mixedDir.slots := slots_dirDisk mixedSlots
  have h := (@found_names_refused_iff tinyVolume 0 myNotes mixedFs [2] tinyVolume_ok rfl mixedFs_isDir.attrs
    mixedFs_isDir.ref (.inl mixedFs_isDir.chain)).2
  rw [hslots] at h
  exact ⟨⟨1, fs1, hl⟩, (h (mixedDir.searched myNotes)).mpr (fun hsp => absurd hsp hs) _ 1 fs1 hl⟩

/-- "." is found in an empty root directory and is entered there all the same. -/
theorem dot_entered : ∃ fs1 vn fs2, flookup tinyVolume 0 dot (fun _ => 0) tinyFs = some (some 0, fs1) ∧
    fcreate tinyVolume 0 dot .file (fun _ => 0) tinyFs = some (some vn, fs2) ∧
    ¬Refused tinyVolume 0 dot (fun _ => 0) tinyFs := by
  have hsome : (fcreate tinyVolume 0 dot .file (fun _ => 0) tinyFs).map Prod.fst = some (some 1) := by decide +kernel
  rcases map_eq_some_iff.mp hsome with ⟨⟨r, fs2⟩, he, hr⟩
  cases hr
  refine ⟨_, 1, fs2, rfl, he, fun hno => ?_⟩
  rcases hno.1 .file with ⟨fs', he', -⟩
  cases he.symm.trans he'

end Xv6Vfs.Fat32
