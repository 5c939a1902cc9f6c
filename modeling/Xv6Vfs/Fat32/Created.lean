import Xv6Vfs.Fat32.Frame

/-! What a successful `fcreate` leaves behind: the slots of the directory and the vnode. -/
namespace Xv6Vfs.Fat32
open Xv6Vfs.Bytes Xv6Vfs.Vfs List Option

variable {nm : Name} {v : Volume} {fs fs' : Fs} {disk : Disk} {type : VType} {cs : List Nat} {attrs : UInt8}
  {junk : Nat → Nat} {name sn : List UInt8} {ex : List UInt8 → Option Bool} {c d deoff i off pdir sz vn : Nat}

/-! ### Short names -/

theorem name83_length (nm : Name) : (name83 nm).length = 11 := by
  rw [name83, length_append, pad_length, pad_length]

theorem genShortName_length (nm : Name) (tail : Nat) : (genShortName nm tail).length = 11 := by
  rw [genShortName]
  generalize ((nm.filter (· ≠ 46)).map upper).filter isAlnum = t
  generalize (if 100 ≤ tail then 99 else tail) = ti
  have h6 := length_take_le 6 t
  have h2 : (if 10 ≤ ti then [48 + UInt8.ofNat (ti / 10), 48 + UInt8.ofNat (ti % 10)]
      else [48 + UInt8.ofNat ti, 32]).length = 2 := by
    split
    · rfl
    · rfl
  simp only [length_append, length_cons, length_replicate, length_nil, h2]
  omega

theorem pickShortName_eq {k tail : Nat} (h : pickShortName ex nm k tail = some sn) : ∃ t, sn = genShortName nm t := by
  induction k generalizing tail with
  | zero => exact ⟨_, (some.inj h).symm⟩
  | succ k ih =>
    rw [pickShortName] at h
    rcases bind_eq_some_iff.mp h with ⟨e, -, h⟩
    cases e with
    | true => exact ih h
    | false => exact ⟨_, (some.inj h).symm⟩

/-- `shortname_exists` on the slots of a directory. -/
def snTaken (l : List Bytes) (sn : List UInt8) : Bool := (sweep (visitShortname sn) l ()).elim id fun _ => false

/-- The short name for a new entry of a directory with the slots `l`. -/
def shortNameIn (l : List Bytes) (nm : Name) : Option (List UInt8) :=
  if fits83 nm then some (name83 nm) else pickShortName (fun sn => some (snTaken l sn)) nm 99 1

theorem chosen_length (h : (if fits83 nm then some (name83 nm) else pickShortName ex nm 99 1) = some sn) :
    sn.length = 11 := by
  split at h
  · rw [← some.inj h]
    exact name83_length nm
  · rcases pickShortName_eq h with ⟨t, rfl⟩
    exact genShortName_length nm t

theorem snTaken_append_zero (l : List Bytes) (n : Nat) (sn : List UInt8) :
    snTaken (l ++ List.replicate n fun _ => 0) sn = snTaken l sn := by
  rw [snTaken, snTaken, sweep_append]
  cases sweep (visitShortname sn) l () with
  | inl r => rfl
  | inr u =>
    cases n with
    | zero => rfl
    | succ n => rfl

theorem shortNameIn_withRoom (v : Volume) (need : Nat) (l : List Bytes) (nm : Name) :
    shortNameIn (withRoom v need l) nm = shortNameIn l nm := by
  have h : snTaken (withRoom v need l) = snTaken l := by
    funext sn
    rw [withRoom]
    split
    · rw [append_nil]
    · exact snTaken_append_zero l _ sn
  rw [shortNameIn, shortNameIn, h]

theorem Chain.newShortName_eq {v : Volume} (ok : v.Ok) {fs : Fs} {d : Nat} {cs : List Nat}
    (h : Chain v fs.disk (fs.vnodes d).priv.firstClus cs) (hd : (fs.vnodes d).priv.attrs &&& attrDirectory ≠ 0)
    (nm : Name) : newShortName v d nm fs = shortNameIn (slots v fs.disk cs) nm := by
  have hex : shortnameExists v.toMount fs.disk (fs.vnodes d).dirNode =
      fun sn => some (snTaken (slots v fs.disk cs) sn) := by
    funext sn
    have hcut : ∀ e u, visitShortname sn (cut e) u = visitShortname sn e u := fun e u => by
      rw [visitShortname, visitShortname, dirName_cut]
      rfl
    rw [shortnameExists, Node.dirNode, if_neg hd, h.sweepChain_eq ok hcut]
    rfl
  rw [newShortName, shortNameIn, hex]

/-! ### The new entries -/

theorem ofList_append_left {l l' : List UInt8} (h : i < l.length) : ofList (l ++ l') i = ofList l i := by
  rw [ofList, ofList, getD_append _ _ _ _ h]

theorem dirent_low {attr : UInt8} (h : i < 20) : dirent name attr c i = ofList (name ++ [attr]) i := by
  rw [dirent, put16, blit_out (by omega), put16, blit_out (by omega)]

theorem dirName_dirent (h : name.length = 11) (attr : UInt8) (c : Nat) : dirName (dirent name attr c) = name := by
  have he : dirName (dirent name attr c) = (List.range 11).map fun i => name.getD i 0 := by
    apply map_congr_left
    intro i hi
    have := mem_range.mp hi
    rw [dirent_low (by omega), ofList_append_left (by omega)]
    rfl
  rw [he, ← h]
  apply ext_getElem
  · rw [length_map, length_range]
  · intro i h1 h2
    simp [h2]

theorem dirAttr_dirent (h : name.length = 11) (attr : UInt8) (c : Nat) : dirAttr (dirent name attr c) = attr := by
  rw [dirAttr, dirent_low (by omega), ofList, ← h, getD_append_right _ _ _ _ (Nat.le_refl _)]
  simp

theorem fstClus_dirent (name : List UInt8) (attr : UInt8) (h : c < 2 ^ 32) : fstClus (dirent name attr c) = c := by
  have hlo : u16 (dirent name attr c) 26 = c % 65536 := u16_put16 _ _ _
  have hhi : u16 (dirent name attr c) 20 = c / 65536 % 65536 := by
    rw [dirent, put16, u16_blit_out (by omega), u16_put16]
  rw [fstClus, hlo, hhi]
  omega

theorem lfnEntries_length (nm : Name) (cnt : Nat) (c : UInt8) : (lfnEntries nm cnt c).length = cnt := by
  rw [lfnEntries, length_map, length_reverse, length_range]

/-- The slots that `fcreate` writes. -/
def newEntries (nm : Name) (sn : List UInt8) (attr : UInt8) (c : Nat) : List Bytes :=
  lfnEntries nm (lfnCount nm) (lfnChecksum sn) ++ [dirent sn attr c]

theorem newEntries_length (nm : Name) (sn : List UInt8) (attr : UInt8) (c : Nat) :
    (newEntries nm sn attr c).length = lfnCount nm + 1 := by
  rw [newEntries, length_append, length_singleton, lfnEntries_length]

/-! ### Vnodes -/

@[simp] theorem Fs.setNode_self (fs : Fs) (i : Nat) (n : Node) : (fs.setNode i n).vnodes i = n := by
  simp [Fs.setNode]

@[simp] theorem Fs.setNode_ne (fs : Fs) {j : Nat} (n : Node) (h : j ≠ i) : (fs.setNode i n).vnodes j = fs.vnodes j := by
  simp [Fs.setNode, h]

theorem findVnode_some {inum ikey : Nat} (h : findVnode fs inum ikey = some i) :
    0 < (fs.vnodes i).ref ∧ (fs.vnodes i).ikey = ikey := by
  have := find?_some h
  simp_all

/-- A vnode is shared if there is one for the entry, else it is new. -/
theorem fvalloc_cases (h : fvalloc c sz attrs pdir deoff fs = (some i, fs')) :
    (findVnode fs pdir deoff = some i ∧ fs' = fs.setNode i { fs.vnodes i with ref := (fs.vnodes i).ref + 1 }) ∨
    (findVnode fs pdir deoff = none ∧ (fs.vnodes i).ref = 0 ∧
      fs' = { fs.setNode i ⟨1, nodeType attrs, pdir, deoff, sz, ⟨c, sz, attrs, pdir, deoff⟩⟩ with
        pages := fs.pages - 1 }) := by
  rw [fvalloc] at h
  cases hf : findVnode fs pdir deoff with
  | some j =>
    rw [hf] at h
    cases h
    exact .inl ⟨rfl, rfl⟩
  | none =>
    rw [hf] at h
    dsimp only at h
    split at h
    · cases h
    · rename_i j hj
      split at h
      · cases h
      · cases h
        have hj := find?_some hj
        exact .inr ⟨rfl, by simpa using (of_decide_eq_true hj).1, rfl⟩

theorem fvalloc_keeps (h : fvalloc c sz attrs pdir deoff fs = (some i, fs')) (hd : 0 < (fs.vnodes d).ref) :
    (fs'.vnodes d).priv = (fs.vnodes d).priv ∧ 0 < (fs'.vnodes d).ref := by
  rcases fvalloc_cases h with ⟨-, rfl⟩ | ⟨-, hi, rfl⟩
  · by_cases hdi : d = i
    · subst hdi
      simp [Fs.setNode]
    · simpa [Fs.setNode, hdi] using hd
  · have hdi : d ≠ i := by
      rintro rfl
      omega
    simpa [Fs.setNode, hdi] using hd

theorem setFirst_self (fs : Fs) (d : Nat) : fs.setFirst d (fs.vnodes d).priv.firstClus = fs := by
  rw [Fs.setFirst, Fs.setNode, Function.update_eq_self]

/-! ### Creation -/

/-- Vnode `d` is in use for a directory with the clusters `cs`. -/
structure IsDir (v : Volume) (fs : Fs) (d : Nat) (cs : List Nat) : Prop where
  ok : v.Ok
  ref : 0 < (fs.vnodes d).ref
  attrs : (fs.vnodes d).priv.attrs &&& attrDirectory ≠ 0
  chain : Chain v fs.disk (fs.vnodes d).priv.firstClus cs

/-- The slot for the first entry of a new name. -/
def gapFor (nm : Name) (l : List Bytes) : Nat := gapAt (lfnCount nm + 1) l

theorem gapFor_le (nm : Name) (l : List Bytes) : gapFor nm l ≤ l.length := by
  rw [gapFor, gapAt]
  cases hg : gapIdx (lfnCount nm + 1) l with
  | none => exact Nat.le_refl _
  | some k =>
    have := gapIdx_le hg
    rw [Option.getD_some]
    omega

/-- The slot for the short entry of a new name. -/
def entryIdx (nm : Name) (l : List Bytes) : Nat := gapFor nm l + lfnCount nm

/-- `fcreate` entered `nm` with the first cluster `c` and the short name `sn`, and returned `vn`. -/
structure Created (v : Volume) (d : Nat) (nm : Name) (type : VType) (cs : List Nat) (fs : Fs) (vn : Nat) (fs' : Fs)
    (c : Nat) (sn : List UInt8) (cs' : List Nat) : Prop where
  clus : c < 2 ^ 32
  short : shortNameIn (slots v fs.disk cs) nm = some sn
  dir : IsDir v fs' d cs'
  grows : ∃ t, cs' = cs ++ t
  room : ∀ i < lfnCount nm + 1, (gapFor nm (slots v fs.disk cs) + i) % 2 ^ 27 <
    (withRoom v (lfnCount nm + 1) (slots v fs.disk cs)).length
  content : slots v fs'.disk cs' =
    putSlots (withRoom v (lfnCount nm + 1) (slots v fs.disk cs)) (gapFor nm (slots v fs.disk cs))
      (newEntries nm sn (newAttr type) c)
  vnode : (fvalloc c 0 (newAttr type) (fs.vnodes d).priv.firstClus
    (uint (32 * entryIdx nm (slots v fs.disk cs))) fs).1 = some vn
  vnodes : fs'.vnodes = (fvalloc c 0 (newAttr type) (fs.vnodes d).priv.firstClus
    (uint (32 * entryIdx nm (slots v fs.disk cs))) fs).2.vnodes

/-- The place for the entries of a new name ends in the first 4 GiB of the directory. -/
def InReach (nm : Name) (l : List Bytes) : Prop := entryIdx nm l < 2 ^ 27

instance (nm : Name) (l : List Bytes) : Decidable (InReach nm l) := inferInstanceAs (Decidable (_ < _))

theorem Created.room_le {v : Volume} {d : Nat} {nm : Name} {type : VType} {cs cs' : List Nat} {fs fs' : Fs} {vn c : Nat}
    {sn : List UInt8} (h : Created v d nm type cs fs vn fs' c sn cs') (hr : InReach nm (slots v fs.disk cs)) :
    gapFor nm (slots v fs.disk cs) + (lfnCount nm + 1) ≤
      (withRoom v (lfnCount nm + 1) (slots v fs.disk cs)).length := by
  have hlast := h.room (lfnCount nm) (Nat.lt_succ_self _)
  rw [InReach, entryIdx] at hr
  omega

theorem Created.spliced {v : Volume} {d : Nat} {nm : Name} {type : VType} {cs cs' : List Nat} {fs fs' : Fs} {vn c : Nat}
    {sn : List UInt8} (h : Created v d nm type cs fs vn fs' c sn cs') (hr : InReach nm (slots v fs.disk cs)) :
    slots v fs'.disk cs' = splice (withRoom v (lfnCount nm + 1) (slots v fs.disk cs)) (gapFor nm (slots v fs.disk cs))
      ((newEntries nm sn (newAttr type) c).map cut) := by
  have hroom := h.room_le hr
  rw [InReach, entryIdx] at hr
  rw [h.content, putSlots_eq_splice]
  · rwa [newEntries_length]
  · rw [newEntries_length]
    omega

/-- The cluster for a new directory changes nothing of the directories there are. -/
theorem IsDir.newClus_eq (h : IsDir v fs d cs) (he : newClus v type fs.disk = some (c, disk)) :
    Chain v disk (fs.vnodes d).priv.firstClus cs ∧ slots v disk cs = slots v fs.disk cs ∧
      c < 2 ^ 32 ∧ (type = .dir → v.Valid c ∧ c ∉ cs ∧ readFat v.toMount disk c ≠ 0) := by
  rw [newClus] at he
  split at he
  · rcases allocClus_eq he with ⟨hc, hfree, rfl⟩
    have hmem := h.chain.not_mem_of_free hfree
    have hw := h.chain.writeFat h.ok hc.2 hmem eoc
    have hlt := (h.ok.lt_eocMin hc).2
    rw [eocMin] at hlt
    refine ⟨hw.1, hw.2, by omega, fun _ => ⟨hc, hmem, ?_⟩⟩
    rw [h.ok.readFat_writeFat hc.2]
    decide
  · rename_i hne
    cases he
    exact ⟨h.chain, rfl, by omega, fun he => absurd he hne⟩

theorem fvalloc_with_disk (c sz pdir deoff : Nat) (attrs : UInt8) (fs : Fs) (disk : Disk) :
    fvalloc c sz attrs pdir deoff { fs with disk := disk } =
      ((fvalloc c sz attrs pdir deoff fs).1, { (fvalloc c sz attrs pdir deoff fs).2 with disk := disk }) := by
  have hf : findVnode { fs with disk := disk } pdir deoff = findVnode fs pdir deoff := rfl
  rw [fvalloc, fvalloc, hf]
  cases findVnode fs pdir deoff with
  | some i => rfl
  | none =>
    cases (List.range nvnode).find? fun i => decide ((fs.vnodes i).ref = 0 ∧ (!fs.taken i) = true) with
    | none => rfl
    | some i =>
      dsimp only
      split
      · rfl
      · rfl

theorem fvalloc_disk {c sz pdir deoff : Nat} {attrs : UInt8} {fs : Fs} :
    (fvalloc c sz attrs pdir deoff fs).2.disk = fs.disk := by
  rw [fvalloc_with_disk c sz pdir deoff attrs fs fs.disk]

theorem enter_cases {vn' : Nat} {de : Bytes} (h : enter v d nm type c off vn de fs = some (some vn', fs')) :
    vn' = vn ∧ ∃ disk, dwriteLfn v (fs.vnodes d).priv.firstClus off (lfnCount nm) nm de fs.disk = (true, disk) ∧
      fs' = { fs with disk := (if type = .dir then
        writeFat v c eoc (fillClus v c (dotSector c (fs.vnodes d).priv.firstClus) disk) else disk) } := by
  rw [enter] at h
  generalize hw : dwriteLfn v (fs.vnodes d).priv.firstClus off (lfnCount nm) nm de fs.disk = w at h
  rcases w with ⟨b, disk⟩
  cases b with
  | true =>
    cases h
    exact ⟨rfl, disk, rfl, rfl⟩
  | false =>
    rcases bind_eq_some_iff.mp h with ⟨fs1, -, h⟩
    rcases map_eq_some_iff.mp h with ⟨disk1, -, h⟩
    cases h

/-- All that `fcreate` can do: refuse at once, or go on after `dfree`. -/
theorem fcreate_cases {r : Option Nat} (h : fcreate v d nm type junk fs = some (r, fs')) :
    (r = none ∧ fs' = fs) ∨ search v fs d nm junk = some none ∧ ∃ c disk1 g disk2,
      newClus v type fs.disk = some (c, disk1) ∧ (type = .dir → fatWaits v c = false) ∧
      dfree v (fs.vnodes d).priv.firstClus (lfnCount nm) disk1 = some (g, disk2) ∧
      match g with
      | none => r = none ∧ ∃ disk3, releaseClus v c disk2 = some disk3 ∧ fs' = { fs with disk := disk3 }
      | some p => place v d nm type c p.1 ({ fs with disk := disk2 }.setFirst d p.2) = some (r, fs') := by
  rw [fcreate] at h
  split at h
  · cases h
    exact .inl ⟨rfl, rfl⟩
  · rcases bind_eq_some_iff.mp h with ⟨ex, hex, h⟩
    cases ex with
    | some e =>
      cases h
      exact .inl ⟨rfl, rfl⟩
    | none =>
      cases hnew : newClus v type fs.disk with
      | none =>
        rw [hnew] at h
        cases h
        exact .inl ⟨rfl, rfl⟩
      | some q =>
        rw [hnew] at h
        rcases q with ⟨c, disk1⟩
        dsimp only at h
        split at h
        · cases h
        rename_i hwait
        rcases bind_eq_some_iff.mp h with ⟨⟨g, disk2⟩, hg, h⟩
        refine .inr ⟨hex, c, disk1, g, disk2, rfl, fun ht => by simpa [ht] using hwait, hg, ?_⟩
        cases g with
        | none =>
          rcases map_eq_some_iff.mp h with ⟨disk3, hrel, h⟩
          cases h
          exact ⟨rfl, disk3, hrel, rfl⟩
        | some p => exact h

theorem place_cases (h : place v d nm type c off fs = some (some vn, fs')) :
    ∃ sn vn' fs1, newShortName v d nm fs = some sn ∧
      fvalloc c 0 (newAttr type) (fs.vnodes d).priv.firstClus (uint (off + lfnCount nm * 32)) fs = (some vn', fs1) ∧
      enter v d nm type c off vn' (dirent sn (newAttr type) c) fs1 = some (some vn, fs') := by
  rw [place] at h
  rcases bind_eq_some_iff.mp h with ⟨sn, hsn, h⟩
  generalize hr : fvalloc c 0 (newAttr type) (fs.vnodes d).priv.firstClus (uint (off + lfnCount nm * 32)) fs = r at h
  rcases r with ⟨vn', fs1⟩
  cases vn' with
  | none =>
    rcases map_eq_some_iff.mp h with ⟨disk1, -, h⟩
    cases h
  | some vn' => exact ⟨sn, vn', fs1, hsn, rfl, h⟩

theorem Chain.fillDir (ok : v.Ok) {first : Nat} (h : Chain v disk first cs) (type : VType) (head : Bytes)
    (hc : type = .dir → v.Valid c ∧ c ∉ cs) :
    Chain v (if type = .dir then Fat32.writeFat v c eoc (Fat32.fillClus v c head disk) else disk) first cs ∧
      slots v (if type = .dir then Fat32.writeFat v c eoc (Fat32.fillClus v c head disk) else disk) cs =
        slots v disk cs := by
  split
  · rename_i ht
    rcases hc ht with ⟨hcv, hcn⟩
    have hf := h.fillClus ok hcv hcn head
    have hw := hf.1.writeFat ok hcv.2 hcn eoc
    exact ⟨hw.1, hw.2.trans hf.2⟩
  · exact ⟨h, rfl⟩

/-- The entries of a new name stand from slot `k` on, where `dfree` found room for them. -/
theorem Chain.place_spec {v : Volume} (ok : v.Ok) {d vn c k : Nat} {nm : Name} {type : VType} {cs : List Nat}
    {fs fs' : Fs} (h : Chain v fs.disk (fs.vnodes d).priv.firstClus cs) (href : 0 < (fs.vnodes d).ref)
    (hdir : type = .dir → v.Valid c ∧ c ∉ cs)
    (he : place v d nm type c (uint (32 * k)) fs = some (some vn, fs')) :
    ∃ sn fs1, newShortName v d nm fs = some sn ∧ sn.length = 11 ∧
      fvalloc c 0 (newAttr type) (fs.vnodes d).priv.firstClus (uint (32 * (k + lfnCount nm))) fs = (some vn, fs1) ∧
      fs'.vnodes = fs1.vnodes ∧ (fs'.vnodes d).priv = (fs.vnodes d).priv ∧ 0 < (fs'.vnodes d).ref ∧
      Chain v fs'.disk (fs.vnodes d).priv.firstClus cs ∧
      (∀ i < lfnCount nm + 1, (k + i) % 2 ^ 27 < (slots v fs.disk cs).length) ∧
      slots v fs'.disk cs = putSlots (slots v fs.disk cs) k (newEntries nm sn (newAttr type) c) := by
  rcases place_cases he with ⟨sn, vn', fs1, hsn, hv, henter⟩
  rcases enter_cases henter with ⟨rfl, disk3, hw, rfl⟩
  rcases fvalloc_keeps hv href with ⟨hpriv, href'⟩
  have hsnlen := chosen_length hsn
  rw [uint_place] at hv
  have hdisk : fs1.disk = fs.disk := by
    have := @fvalloc_disk c 0 (fs.vnodes d).priv.firstClus (uint (32 * (k + lfnCount nm))) (newAttr type) fs
    rwa [hv] at this
  rw [hpriv, hdisk, dwriteLfn, dirName_dirent hsnlen, dwriteAll_uint, ← newEntries] at hw
  have hfit := h.dwriteAll_fits ok (congrArg Prod.fst hw)
  rcases h.dwriteAll_eq ok _ k hfit with ⟨disk4, hw', hch4, hs4⟩
  rw [newEntries_length] at hfit
  cases hw.symm.trans hw'
  have hfill := hch4.fillDir ok type (dotSector c (fs1.vnodes d).priv.firstClus) hdir
  exact ⟨sn, fs1, hsn, hsnlen, hv, rfl, hpriv, href', hfill.1, hfit, hfill.2.trans hs4⟩

theorem IsDir.fcreate_spec (h : IsDir v fs d cs) (he : fcreate v d nm type junk fs = some (some vn, fs')) :
    search v fs d nm junk = some none ∧ ∃ c sn cs', Created v d nm type cs fs vn fs' c sn cs' := by
  rcases fcreate_cases he with ⟨hnone, -⟩ | ⟨hex, c, disk1, g, disk2, hnew, -, hfree, hplace⟩
  · cases hnone
  refine ⟨hex, ?_⟩
  rcases g with _ | ⟨off, first⟩
  · cases hplace.1
  rcases h.newClus_eq hnew with ⟨hch1, hs1, hc, hdir⟩
  rcases hch1.dfree_eq h.ok hfree with ⟨rfl, rfl, cs', hgrows, hch2, hs2, hout⟩
  have hself : Fs.setFirst { fs with disk := disk2 } d (fs.vnodes d).priv.firstClus = { fs with disk := disk2 } :=
    setFirst_self { fs with disk := disk2 } d
  dsimp only at hplace
  rw [hself, hs1] at hplace
  rw [hs1] at hs2
  have hnotin : type = .dir → v.Valid c ∧ c ∉ cs' := fun ht => ⟨(hdir ht).1, hout c (hdir ht).2.2 (hdir ht).2.1⟩
  rcases @Chain.place_spec v h.ok d vn c _ nm type cs' { fs with disk := disk2 } fs' hch2 h.ref hnotin hplace with
    ⟨sn, fs1, hsn, -, hv, hvs, hpriv, href, hch, hroom, hs⟩
  have hsn' : shortNameIn (slots v fs.disk cs) nm = some sn := by
    have := @Chain.newShortName_eq v h.ok { fs with disk := disk2 } d cs' hch2 h.attrs nm
    rw [← hsn, this, hs2, shortNameIn_withRoom]
  rw [fvalloc_with_disk] at hv
  have hv2 := congrArg (fun r => r.2.vnodes) hv
  refine ⟨c, sn, cs', hc, hsn', ⟨h.ok, href, ?_, ?_⟩, hgrows, ?_, ?_, congrArg Prod.fst hv, hvs.trans hv2.symm⟩
  · rw [hpriv]
    exact h.attrs
  · rwa [hpriv]
  · rwa [← hs2]
  · rwa [← hs2]

end Xv6Vfs.Fat32
