import Xv6Vfs.Fat32.Addressing
import Xv6Vfs.Fat32.Encode
import Xv6Vfs.Fat32.Ending
import Xv6Vfs.Fat32.Fresh

/-! `fcreate` writes to free slots and to clusters that nothing used, whether it succeeds or not. -/
namespace Xv6Vfs.Fat32
open Xv6Vfs.Bytes Xv6Vfs.Vfs List Option

variable {off vn : Nat} {disk disk1 : Disk}

/-! ### Gaps -/

theorem gapIdx_free {need : Nat} {l : List Bytes} {k i : Nat} (h : gapIdx need l = some k) (h1 : k ≤ i)
    (h2 : i < k + need) : ∃ d, l[i]? = some d ∧ isFree d = true := by
  induction l generalizing k i with
  | nil => cases h
  | cons d l ih =>
    rw [gapIdx] at h
    split at h
    · rename_i hc
      cases h
      have hi : i < (d :: l).length := by omega
      have hget := getElem?_eq_getElem hi
      refine ⟨_, hget, all_eq_true.mp hc.2 _ ?_⟩
      exact mem_of_getElem? ((getElem?_take_of_lt (by omega)).trans hget)
    · rcases map_eq_some_iff.mp h with ⟨j, hj, rfl⟩
      rcases ih hj (show j ≤ i - 1 by omega) (by omega) with ⟨e, he, hfree⟩
      have hi : i = i - 1 + 1 := by omega
      rw [hi]
      exact ⟨e, he, hfree⟩

/-! ### Vnodes -/

/-- Every vnode in use has the offset of its entry as its key. -/
def Keyed (fs : Fs) : Prop := ∀ i, 0 < (fs.vnodes i).ref → (fs.vnodes i).ikey = (fs.vnodes i).priv.dentOff

section Keyed

variable {fs fs' : Fs} {i : Nat}

theorem Keyed.setNode (h : Keyed fs) {n : Node} (hn : 0 < n.ref → n.ikey = n.priv.dentOff) :
    Keyed (fs.setNode i n) := by
  intro j hj
  by_cases hji : j = i
  · subst hji
    rw [Fs.setNode_self] at hj ⊢
    exact hn hj
  · rw [Fs.setNode_ne _ _ hji] at hj ⊢
    exact h j hj

theorem Keyed.fvalloc {c sz pdir deoff : Nat} {attrs : UInt8} (h : Keyed fs)
    (he : fvalloc c sz attrs pdir deoff fs = (some i, fs')) : (fs'.vnodes i).priv.dentOff = deoff := by
  rcases fvalloc_cases he with ⟨hf, rfl⟩ | ⟨-, -, rfl⟩
  · rcases findVnode_some hf with ⟨hpos, hkey⟩
    rw [Fs.setNode_self, ← hkey]
    exact (h i hpos).symm
  · simp

end Keyed

/-! ### Entries -/

/-- The cluster that `fcreate` took for a directory, or none. -/
def TookClus (v : Volume) (disk : Disk) (type : VType) (c : Nat) : Prop :=
  if type = .dir then v.Valid c ∧ eocMin ≤ readFat v.toMount disk c else c = 0

section Enter

variable {v : Volume} {d c k : Nat} {nm : Name} {type : VType} {fs fs' : Fs} {cs : List Nat} {r : Option Nat}

theorem TookClus.release {disk' : Disk} (ok : v.Ok) (hc : TookClus v disk type c)
    (he : releaseClus v c disk = some disk') :
    (type = .dir → readFat v.toMount disk' c = 0) ∧
      KeepsFat v (fun x => type = .dir → x ≠ c) disk disk' ∧ Changes v (fun _ => False) disk disk' := by
  rw [TookClus] at hc
  rw [releaseClus] at he
  split at hc
  · rename_i hdir
    have hch := Chain.last hc.1 hc.2
    have hc2 := hc.1.1
    rw [if_neg (by omega)] at he
    rcases hch.freeChain_eq ok (hch.apart_of_free ok he) (hch.links ok).length_lt with ⟨disk1, he1, hzero, hkeep, hdata⟩
    cases he.symm.trans he1
    exact ⟨fun _ => hzero c (mem_singleton_self c), hkeep.mono fun x hx hmem => hx hdir (mem_singleton.mp hmem), hdata⟩
  · rename_i hdir
    rw [if_pos hc] at he
    cases he
    exact ⟨fun he => absurd he hdir, fun _ _ _ => rfl, Changes.refl v _ _⟩

theorem TookClus.keep {disk' : Disk} (hc : TookClus v disk type c) (hk : KeepsFat v (· ∉ cs) disk disk')
    (hmem : type = .dir → c ∉ cs) : TookClus v disk' type c := by
  rw [TookClus] at hc ⊢
  split
  · rename_i ht
    rw [if_pos ht] at hc
    rwa [hk c hc.1.2 (hmem ht)]
  · rename_i ht
    rwa [if_neg ht] at hc

theorem vput_disk (h : vput vn fs = some fs') : fs'.disk = fs.disk := by
  rw [vput] at h
  split at h
  · cases h
  · split at h
    · cases h
      rfl
    · cases h
      rfl

/-- What the last part of `fcreate` writes. -/
def Written (v : Volume) (nm : Name) (type : VType) (c k : Nat) (cs : List Nat) (a : Nat) : Prop :=
  (∃ i, k ≤ i ∧ i < k + (lfnCount nm + 1) ∧ InSlot v cs (i % 2 ^ 27) a) ∨ type = .dir ∧ InClus v c a

theorem enter_frame {de : Bytes} (ok : v.Ok) (hch : Chain v fs.disk (fs.vnodes d).priv.firstClus cs)
    (hoff : off = uint (32 * k)) (hc : TookClus v fs.disk type c)
    (h : enter v d nm type c off vn de fs = some (r, fs')) :
    KeepsFat v (fun x => type = .dir → x ≠ c) fs.disk fs'.disk ∧
      Changes v (Written v nm type c k cs) fs.disk fs'.disk := by
  subst hoff
  have hw := hch.dwriteAll_frame ok (lfnEntries nm (lfnCount nm) (lfnChecksum (dirName de)) ++ [de]) k
  rw [length_append, lfnEntries_length, length_singleton] at hw
  rw [enter, dwriteLfn, dwriteAll_uint] at h
  generalize hd : dwriteAll v (fs.vnodes d).priv.firstClus
    (lfnEntries nm (lfnCount nm) (lfnChecksum (dirName de)) ++ [de]) (32 * k) fs.disk = w at h hw
  rcases w with ⟨b, disk1⟩
  have hdata : Changes v (Written v nm type c k cs) fs.disk disk1 := hw.1.mono fun a ha => .inl ha
  have hkeep := hw.2 fun x => type = .dir → x ≠ c
  split at h
  · cases h
    split
    · rename_i hdir
      rw [TookClus, if_pos hdir] at hc
      have hfill : Changes v (Written v nm type c k cs) disk1
          (fillClus v c (dotSector c (fs.vnodes d).priv.firstClus) disk1) :=
        (ok.changes_fillClus hc.1 _ disk1).mono fun a ha => .inr ⟨hdir, ha⟩
      have hkeep' := ok.keepsFat_fillClus hc.1 (dotSector c (fs.vnodes d).priv.firstClus) disk1
        fun x => type = .dir → x ≠ c
      have hend := (ok.keepsFat_writeFat hc.1.2 eoc
        (fillClus v c (dotSector c (fs.vnodes d).priv.firstClus) disk1)).mono fun x (hx : type = .dir → x ≠ c) =>
          hx hdir
      exact ⟨(hkeep.trans hkeep').trans hend, (hdata.trans hfill).trans (ok.changes_writeFat hc.1.2 _ _ _)⟩
    · exact ⟨hkeep, hdata⟩
  · rcases bind_eq_some_iff.mp h with ⟨fs1, hput, h⟩
    rcases map_eq_some_iff.mp h with ⟨disk2, hrel, h⟩
    cases h
    have hdisk := vput_disk hput
    rw [hdisk] at hrel
    have hc1 : TookClus v disk1 type c := hc.keep (hw.2 (· ∉ [])) fun _ => not_mem_nil
    rcases hc1.release ok hrel with ⟨-, hkeep', hdata'⟩
    exact ⟨hkeep.trans hkeep', hdata.trans (hdata'.mono fun _ hf => hf.elim)⟩

theorem place_frame (ok : v.Ok) (href : 0 < (fs.vnodes d).ref) (hch : Chain v fs.disk (fs.vnodes d).priv.firstClus cs)
    (hc : TookClus v fs.disk type c) (h : place v d nm type c (uint (32 * k)) fs = some (r, fs')) :
    KeepsFat v (fun x => type = .dir → x ≠ c) fs.disk fs'.disk ∧
      Changes v (Written v nm type c k cs) fs.disk fs'.disk := by
  rw [place] at h
  rcases bind_eq_some_iff.mp h with ⟨sn, hsn, h⟩
  generalize hoff : uint (uint (32 * k) + lfnCount nm * 32) = off at h
  have hdisk := @fvalloc_disk c 0 (fs.vnodes d).priv.firstClus off (newAttr type) fs
  generalize hr : fvalloc c 0 (newAttr type) (fs.vnodes d).priv.firstClus off fs = r1 at h hdisk
  rcases r1 with ⟨vn, fs1⟩
  cases vn with
  | none =>
    rcases map_eq_some_iff.mp h with ⟨disk1, hrel, h⟩
    cases h
    rcases hc.release ok hrel with ⟨-, hkeep, hdata⟩
    exact ⟨hkeep, hdata.mono fun _ hf => hf.elim⟩
  | some vn =>
    have hpriv := (fvalloc_keeps hr href).1
    rw [← hdisk] at hch hc ⊢
    rw [← hpriv] at hch
    exact enter_frame ok hch rfl hc h

/-- The device after `fcreate` took a cluster for a new directory. -/
structure Prepared (v : Volume) (type : VType) (c : Nat) (disk disk1 : Disk) : Prop where
  took : TookClus v disk1 type c
  free : type = .dir → v.Valid c ∧ readFat v.toMount disk c = 0
  keeps : KeepsFat v (fun x => type = .dir → x ≠ c) disk disk1
  data : Changes v (fun _ => False) disk disk1

theorem newClus_prepared (ok : v.Ok) (h : newClus v type disk = some (c, disk1)) : Prepared v type c disk disk1 := by
  rw [newClus] at h
  split at h
  · rename_i hdir
    rcases ok.allocClus_spec h with ⟨hc, hfree, he, hkeep, hdata⟩
    refine ⟨?_, fun _ => ⟨hc, hfree⟩, hkeep.mono fun x hx => hx hdir, hdata⟩
    rw [TookClus, if_pos hdir, he]
    exact ⟨hc, by decide⟩
  · rename_i hdir
    cases h
    exact ⟨by rw [TookClus, if_neg hdir], fun he => absurd he hdir, fun _ _ _ => rfl, Changes.refl v _ _⟩

theorem Prepared.free_before {n : Nat} (h : Prepared v type c disk disk1) (hn : v.Valid n)
    (hfree : readFat v.toMount disk1 n = 0) : readFat v.toMount disk n = 0 ∧ (type = .dir → c ≠ n) := by
  have hne : type = .dir → c ≠ n := by
    rintro ht rfl
    have htook := h.took
    rw [TookClus, if_pos ht, hfree, eocMin] at htook
    omega
  exact ⟨(h.keeps n hn.2 fun ht e => hne ht e.symm).symm.trans hfree, hne⟩

section Prepared

variable {disk disk1 : Disk} {first : Nat} (h : Prepared v type c disk disk1) (hch : FileChain v disk first cs)
include h hch

theorem Prepared.not_mem (hdir : type = .dir) : c ∉ cs := fun hmem => hch.ne_zero hmem (h.free hdir).2

theorem Prepared.chain : FileChain v disk1 first cs :=
  hch.congr fun x hx => h.keeps x (hch.valid hx).2 fun ht e => h.not_mem hch ht (e ▸ hx)

theorem Prepared.slots_eq (ok : v.Ok) : slots v disk1 cs = slots v disk cs :=
  h.data.slots_eq ok (fun _ hx => hch.valid hx) fun _ _ _ _ => id

end Prepared

end Enter

/-! ### Creation -/

/-- Bytes that nothing uses: those of a free slot of the directory with the clusters `cs`, and those of a
free cluster. -/
def Spare (v : Volume) (disk : Disk) (cs : List Nat) (a : Nat) : Prop :=
  (∃ i d, (slots v disk cs)[i]? = some d ∧ isFree d = true ∧ InSlot v cs i a) ∨
    ∃ n, v.Valid n ∧ readFat v.toMount disk n = 0 ∧ InClus v n a

/-- The directory holds the entries of `nm` in one place that ends with a short entry at `off`. The slots
in front of it, if any, are a whole long name with the checksum of its short name. -/
def EnteredAt (v : Volume) (disk : Disk) (first : Nat) (nm : Name) (attr : UInt8) (off : Nat) : Prop :=
  ∃ cs sn c pre run e rest, Chain v disk first cs ∧ slots v disk cs = pre ++ (run ++ e :: rest) ∧
    off = 32 * (pre.length + run.length) ∧ run ++ [e] = (newEntries nm sn attr c).map cut ∧ dirName e = sn ∧
    run.length = lfnCount nm ∧ (run = [] ∨ complete e run)

theorem numbered_map_cut (c : UInt8) (l : List Bytes) : numbered c (l.map cut) = numbered c l := by
  induction l with
  | nil => rfl
  | cons r rs ih => rw [map_cons, numbered, numbered, ih, length_map]; rfl

theorem complete_map_cut (d : Bytes) (l : List Bytes) : complete (cut d) (l.map cut) = complete d l := by
  cases l with
  | nil => rfl
  | cons r rs => rw [map_cons, complete, complete, numbered_map_cut, length_map, dirName_cut]; rfl

theorem lfnCount_le {nm : Name} (h : nm.length ≤ 255) : lfnCount nm ≤ 20 := by
  rw [lfnCount]
  split
  · omega
  · rw [lfnEntriesNeeded]
    omega

section Create

variable {v : Volume} {d c k : Nat} {nm : Name} {type : VType} {fs fs' : Fs} {cs : List Nat} {r : Option Nat}

theorem InSlot.grown {n i a : Nat} (ok : v.Ok) (h : InSlot v (cs ++ [n]) i a) (hi : cs.length * perClus v ≤ i) :
    InClus v n a := by
  have hq : cs.length ≤ i / perClus v := (Nat.le_div_iff_mul_le (perClus_pos ok)).mpr hi
  rcases h with ⟨x, hx, h1, h2⟩
  rw [getElem?_append_right hq] at hx
  have hlt := slot_lt ok i
  rw [slotAddr] at h1 h2
  rcases mem_singleton.mp (mem_of_getElem? hx) with rfl
  exact ⟨by omega, by omega⟩

theorem place_spares {P : Nat → Prop} (ok : v.Ok) (href : 0 < (fs.vnodes d).ref) (hkey : Keyed fs)
    (hch : Chain v fs.disk (fs.vnodes d).priv.firstClus cs) (hk : k + lfnCount nm < 2 ^ 27)
    (htook : TookClus v fs.disk type c) (hdir : type = .dir → c ∉ cs) (hlen : nm.length ≤ 255)
    (hP : ∀ a, Written v nm type c k cs a → P a) (h : place v d nm type c (uint (32 * k)) fs = some (r, fs')) :
    Changes v P fs.disk fs'.disk ∧ ∀ vn, r = some vn →
      EnteredAt v fs'.disk (fs'.vnodes d).priv.firstClus nm (newAttr type) (fs'.vnodes vn).priv.dentOff := by
  refine ⟨(place_frame ok href hch htook h).2.mono hP, ?_⟩
  rintro vn rfl
  have hnew : type = .dir → v.Valid c ∧ c ∉ cs := fun ht => by
    rw [TookClus, if_pos ht] at htook
    exact ⟨htook.1, hdir ht⟩
  rcases hch.place_spec ok href hnew h with ⟨sn, fs1, -, hsn, hv, hvs, hpriv, -, hch', hfit, hs⟩
  have hoff := hkey.fvalloc hv
  have hroom := hfit (lfnCount nm) (Nat.lt_succ_self _)
  rw [Nat.mod_eq_of_lt hk] at hroom
  rw [uint_slot, Nat.mod_eq_of_lt hk] at hoff
  rw [putSlots_eq_splice (by rw [newEntries_length]; omega) (by rw [newEntries_length]; omega), newEntries,
    map_append, splice, append_assoc] at hs
  rw [hpriv, hvs, hoff]
  refine ⟨cs, sn, c, (slots v fs.disk cs).take k, _, _, _, hch', hs.trans (by simp; rfl), ?_, ?_, ?_, ?_, ?_⟩
  · rw [length_take_of_le (by omega), length_map, lfnEntries_length]
  · rw [newEntries, map_append]
    rfl
  · rw [dirName_cut, dirName_dirent hsn]
  · rw [length_map, lfnEntries_length]
  · rw [complete_map_cut]
    rcases Nat.eq_zero_or_pos (lfnCount nm) with h0 | hpos
    · rw [h0]
      exact .inl rfl
    · have hc := @complete_lfnEntries nm _ (dirent sn (newAttr type) c) hpos (lfnCount_le hlen)
      rw [dirName_dirent hsn] at hc
      exact .inr hc

theorem Keyed.setFirst (h : Keyed fs) (i first : Nat) : Keyed (fs.setFirst i first) := h.setNode fun hi => h i hi

theorem setFirst_firstClus (fs : Fs) (i first : Nat) : ((fs.setFirst i first).vnodes i).priv.firstClus = first := by
  rw [Fs.setFirst, Fs.setNode_self]

theorem setFirst_ref (fs : Fs) (i first : Nat) : ((fs.setFirst i first).vnodes i).ref = (fs.vnodes i).ref := by
  rw [Fs.setFirst, Fs.setNode_self]

/-- After `dfree` found room, all that is left to write is spare. -/
theorem Prepared.room {disk2 : Disk} {first first' : Nat} (ok : v.Ok) (h : Prepared v type c disk disk1)
    (hch : FileChain v disk first cs) (hreach : InReach nm (slots v disk cs))
    (hroom : Room v (lfnCount nm + 1) disk1 first cs (some (off, first')) disk2) :
    ∃ cs', off = uint (32 * gapFor nm (slots v disk cs)) ∧ Chain v disk2 first' cs' ∧ TookClus v disk2 type c ∧
      (type = .dir → c ∉ cs') ∧ Changes v (Spare v disk cs) disk disk2 ∧
      ∀ a, Written v nm type c (gapFor nm (slots v disk cs)) cs' a → Spare v disk cs a := by
  have hspare : ∀ {P : Nat → Prop}, Changes v P disk disk1 := h.data.mono fun _ hf => hf.elim
  have hs1 := h.slots_eq hch ok
  rw [InReach, entryIdx] at hreach
  rw [← hs1] at hreach ⊢
  have hmod : ∀ {i}, i < gapFor nm (slots v disk1 cs) + (lfnCount nm + 1) → i % 2 ^ 27 = i :=
    fun hi => Nat.mod_eq_of_lt (by omega)
  cases hroom with
  | @gap k hgap =>
    have hfor : gapFor nm (slots v disk1 cs) = k := by
      rw [gapFor, gapAt, hgap]
      rfl
    rcases h.chain hch with hch1 | ⟨-, rfl⟩
    · refine ⟨cs, by rw [hfor], hch1, h.took, h.not_mem hch, hspare, ?_⟩
      rintro a (⟨i, h1, h2, hi⟩ | ⟨ht, hi⟩)
      · rw [hmod h2] at hi
        rw [hfor] at h1 h2
        rw [hs1] at hgap
        rcases gapIdx_free hgap h1 h2 with ⟨e, hget, hfr⟩
        exact .inl ⟨i, e, hget, hfr, hi⟩
      · exact .inr ⟨c, (h.free ht).1, (h.free ht).2, hi⟩
    · cases hgap
  | @grown n _ _ hgap hn hnfree hch2 hs2 _ hkeep2 hdata2 =>
    rcases h.free_before hn hnfree with ⟨hn0, hcn⟩
    have hmem : type = .dir → c ∉ cs ++ [n] := by
      intro ht hm
      rcases mem_append.mp hm with hm | hm
      · exact h.not_mem hch ht hm
      · exact hcn ht (mem_singleton.mp hm)
    have hgrown : Changes v (Spare v disk cs) disk1 disk2 := hdata2.mono fun a ha => .inr ⟨n, hn, hn0, ha⟩
    have hfor : gapFor nm (slots v disk1 cs) = (slots v disk1 cs).length := by
      rw [gapFor, gapAt, hgap]
      rfl
    refine ⟨cs ++ [n], by rw [hfor], hch2, h.took.keep hkeep2 hmem, hmem, hspare.trans hgrown, ?_⟩
    rintro a (⟨i, h1, h2, hi⟩ | ⟨ht, hi⟩)
    · rw [hmod h2] at hi
      rw [hfor, (h.chain hch).slots_length ok] at h1
      exact .inr ⟨n, hn, hn0, hi.grown ok h1⟩
    · exact .inr ⟨c, (h.free ht).1, (h.free ht).2, hi⟩

/-- What creation of a name may do to the device: it writes only to slots that are free and to clusters that are free,
and if it succeeds the slots of the entry stand in a row and end at the offset in the vnode. -/
structure Spares (v : Volume) (d : Nat) (nm : Name) (type : VType) (cs : List Nat) (fs : Fs) (r : Option Nat)
    (fs' : Fs) :
    Prop where
  writes : Changes v (Spare v fs.disk cs) fs.disk fs'.disk
  entered : ∀ vn, r = some vn →
    EnteredAt v fs'.disk (fs'.vnodes d).priv.firstClus nm (newAttr type) (fs'.vnodes vn).priv.dentOff

theorem spares_of_inReach {junk : Nat → Nat} (ok : v.Ok) (href : 0 < (fs.vnodes d).ref) (hkey : Keyed fs)
    (hch : FileChain v fs.disk (fs.vnodes d).priv.firstClus cs) (hlen : nm.length ≤ 255)
    (he : fcreate v d nm type junk fs = some (r, fs')) (hreach : InReach nm (slots v fs.disk cs)) :
    Spares v d nm type cs fs r fs' := by
  rcases fcreate_cases he with ⟨rfl, rfl⟩ | ⟨-, c, disk1, g, disk2, hnew, -, hfree, hrest⟩
  · exact ⟨Changes.refl v _ _, nofun⟩
  · have hprep := newClus_prepared ok hnew
    have hroom := (hprep.chain hch).dfree_cases ok (lfnCount nm) hfree
    cases g with
    | none =>
      rcases hrest with ⟨rfl, disk3, hrel, rfl⟩
      cases hroom with
      | full _ _ =>
        rcases hprep.took.release ok hrel with ⟨-, -, hdata⟩
        exact ⟨(hprep.data.trans hdata).mono fun _ hf => hf.elim, nofun⟩
    | some p =>
      rcases hprep.room ok hch hreach hroom with ⟨cs', hoff, hch2, htook2, hmem, hdata2, hW⟩
      dsimp only at hrest
      rw [hoff] at hrest
      have hsetref : 0 < ((Fs.setFirst { fs with disk := disk2 } d p.2).vnodes d).ref := by rwa [setFirst_ref]
      have hsetch : Chain v disk2 ((Fs.setFirst { fs with disk := disk2 } d p.2).vnodes d).priv.firstClus cs' := by
        rwa [setFirst_firstClus]
      rcases @place_spares v d c _ nm type (Fs.setFirst { fs with disk := disk2 } d p.2) fs' cs' r _ ok hsetref
        (Keyed.setFirst hkey d p.2) hsetch hreach htook2 hmem hlen hW hrest with ⟨hdata', hent⟩
      exact ⟨hdata2.trans hdata', hent⟩

/-! ### Entries behind 4 GiB -/

theorem Changes.slot_eq {disk' : Disk} {first j : Nat} {e : Bytes} (ok : v.Ok) (hch : Chain v disk first cs)
    (h : Changes v (Spare v disk cs) disk disk') (hget : (slots v disk cs)[j]? = some e) (hlive : isFree e = false) :
    (slots v disk' cs)[j]? = some e := by
  have hval : ∀ y ∈ cs, v.Valid y := fun _ hy => hch.valid hy
  rcases clus_of_lt ok hval (List.getElem?_eq_some_iff.mp hget).1 with ⟨x, hx, hxv⟩
  have hj := slot_lt ok j
  rw [← hget, slots_getElem? ok hval hx, slots_getElem? ok hval hx]
  congr 1
  funext i
  rw [cut, cut]
  split
  swap
  · rfl
  refine h.byte_eq (by have := clusAddr_ge v x; rw [slotAddr]; omega) ?_
  have hclus : ∀ y, v.Valid y → InClus v y (slotAddr v x j + i) → y = x := by
    intro y hy hin
    by_contra hne
    have := hy.disjoint hxv hne
    rw [InClus, slotAddr] at hin
    omega
  rintro (⟨i', e', hget', hfree, y, hy, h1, h2⟩ | ⟨n, hn, h0, hin⟩)
  · have hi' := slot_lt ok i'
    obtain rfl := hclus y (hval y (mem_of_getElem? hy)) (by simp only [InClus, slotAddr] at h1 h2 ⊢; omega)
    have hdiv : i' / perClus v = j / perClus v :=
      (getElem?_inj (List.getElem?_eq_some_iff.mp hy).1 (hch.links ok).nodup).mp (hy.trans hx.symm)
    have hmod : i' % perClus v = j % perClus v := by
      rw [slotAddr, slotAddr] at h1 h2
      omega
    obtain rfl : i' = j := by rw [← Nat.div_add_mod i' (perClus v), hdiv, hmod, Nat.div_add_mod]
    cases hget.symm.trans hget'
    rw [hfree] at hlive
    cases hlive
  · rw [hclus n hn hin] at h0
    exact hch.not_mem_of_free h0 (mem_of_getElem? hx)

/-- No slot in use is like an entry of the new name. -/
def Unlike (nm : Name) (type : VType) (l : List Bytes) : Prop :=
  ∀ e ∈ l, isFree e = false → ∀ sn c, sn.length = 11 → e ∉ (newEntries nm sn (newAttr type) c).map cut

/-- Entries whose place ends behind 4 GiB go to slots in front of it, where no place is free, or they do not stand in a
row. -/
theorem Created.inReach {sn : List UInt8} {cs' : List Nat} (h : Created v d nm type cs fs vn fs' c sn cs')
    (hd : IsDir v fs d cs) (hkey : Keyed fs) (hnew : Unlike nm type (slots v fs.disk cs)) (hlen : nm.length ≤ 255)
    (hs : Spares v d nm type cs fs (some vn) fs') : InReach nm (slots v fs.disk cs) := by
  by_contra hno
  have hcnt := lfnCount_le hlen
  have hoff : (fs'.vnodes vn).priv.dentOff = uint (32 * entryIdx nm (slots v fs.disk cs)) := by
    have hv := h.vnode
    rw [h.vnodes]
    generalize hr : fvalloc c 0 (newAttr type) (fs.vnodes d).priv.firstClus
      (uint (32 * entryIdx nm (slots v fs.disk cs))) fs = r at hv
    rcases r with ⟨i, fs1⟩
    cases hv
    exact hkey.fvalloc hr
  rcases hs.entered vn rfl with ⟨-, -, -, pre, run, -, -, -, -, hpos, -, -, hrun, -⟩
  rw [hoff, uint_slot] at hpos
  rw [InReach] at hno
  rw [entryIdx] at hno hpos
  generalize hgap : gapFor nm (slots v fs.disk cs) = gap at hno hpos
  have hle := gapFor_le nm (slots v fs.disk cs)
  rw [hgap] at hle
  -- the first of the slots in front of 4 GiB that the entries go to
  obtain ⟨g, hg, hlt, hrow⟩ : ∃ g, g % 2 ^ 27 = gap % 2 ^ 27 ∧ g < gap ∧ g + (lfnCount nm + 1) ≤ 2 ^ 27 :=
    ⟨gap % 2 ^ 27, by omega, by omega, by omega⟩
  obtain ⟨i, hi, hi', e, hget, hlive⟩ : ∃ i, g ≤ i ∧ i < g + (lfnCount nm + 1) ∧
      ∃ e, (slots v fs.disk cs)[i]? = some e ∧ isFree e = false := by
    by_contra hall
    have hmin := @gapIdx_min (slots v fs.disk cs) (lfnCount nm + 1) g (by omega) (by omega) fun i h1 h2 e he => by
      by_contra hf
      exact hall ⟨i, h1, h2, e, he, by simpa using hf⟩
    rcases hmin with ⟨k, hk, hsome⟩
    rw [gapFor, gapAt, hsome] at hgap
    rw [← hgap] at hlt
    exact absurd hlt (Nat.not_lt.mpr hk)
  have hkept := hs.writes.slot_eq hd.ok hd.chain hget hlive
  have hslots := h.content
  rw [hgap, ← putSlots_mod _ _ hg, putSlots_eq_splice] at hslots
  · rcases h.grows with ⟨t, rfl⟩
    have happ : slots v fs'.disk (cs ++ t) = slots v fs'.disk cs ++ slots v fs'.disk t := flatMap_append
    have hat := congrArg (fun l => l[i]?) hslots
    rw [happ, getElem?_append_left (List.getElem?_eq_some_iff.mp hkept).1, hkept, splice,
      append_assoc, getElem?_append_right, length_take_of_le, getElem?_append_left] at hat
    · exact hnew e (mem_of_getElem? hget) hlive sn c (chosen_length h.short) (mem_of_getElem? hat.symm)
    · rw [length_map, newEntries_length]
      omega
    · rw [withRoom, length_append]
      omega
    · rw [length_take]
      omega
  · rw [withRoom, length_append, newEntries_length]
    omega
  · rwa [newEntries_length]

/-- Creation of a name, whether it succeeds or not, writes only to slots that are free and to clusters that are free,
and the slots of the entry stand in a row, if the place for them ends in the first 4 GiB of the directory. If it
succeeds and no slot in use is like one of the new ones, only then. -/
theorem create_spares {junk : Nat → Nat} (ok : v.Ok) (href : 0 < (fs.vnodes d).ref) (hkey : Keyed fs)
    (hch : FileChain v fs.disk (fs.vnodes d).priv.firstClus cs) (hlen : nm.length ≤ 255)
    (he : fcreate v d nm type junk fs = some (r, fs')) :
    (InReach nm (slots v fs.disk cs) → Spares v d nm type cs fs r fs') ∧
      (r ≠ none → (fs.vnodes d).priv.attrs &&& attrDirectory ≠ 0 → Unlike nm type (slots v fs.disk cs) →
        Spares v d nm type cs fs r fs' → InReach nm (slots v fs.disk cs)) := by
  refine ⟨spares_of_inReach ok href hkey hch hlen he, fun hr hattr hnew hs => ?_⟩
  rcases hch with hch | ⟨-, rfl⟩
  · rcases ne_none_iff_exists'.mp hr with ⟨vn, rfl⟩
    have hd : IsDir v fs d cs := ⟨ok, href, hattr, hch⟩
    rcases (hd.fcreate_spec he).2 with ⟨c, sn, cs', hcr⟩
    exact hcr.inReach hd hkey hnew hlen hs
  · have := lfnCount_le hlen
    have hgap : gapFor nm (slots v fs.disk []) = 0 := rfl
    rw [InReach, entryIdx, hgap]
    omega

end Create

theorem tinyFs_keyed : Keyed tinyFs := by
  intro i _
  by_cases hi : i = 0
  · simp [tinyFs, hi]
  · simp [tinyFs, hi]

/-- "aaaaaaaaa", which needs a long name, in a directory with other files. -/
theorem long_name_spares : ∃ fs', fcreate tinyVolume 0 (List.replicate 9 97) .file (fun _ => 0) mixedFs =
    some (some 1, fs') ∧
    Spares tinyVolume 0 (List.replicate 9 97) .file [2] mixedFs (some 1) fs' := by
  have hsome : (fcreate tinyVolume 0 (List.replicate 9 97) .file (fun _ => 0) mixedFs).map Prod.fst =
    some (some 1) := by
    decide +kernel
  rcases map_eq_some_iff.mp hsome with ⟨⟨r, fs'⟩, he, hr⟩
  cases hr
  exact ⟨fs', he, (create_spares tinyVolume_ok mixedFs_isDir.ref tinyFs_keyed (.inl mixedFs_isDir.chain)
    (by decide) he).1
    (by decide +kernel)⟩

/-! ### A directory of 4 GiB -/

section Full

variable {nm : Name} {l : List Bytes}

theorem gapIdx_used {need : Nat} (hneed : 0 < need) (h : ∀ e ∈ l, isFree e = false) : gapIdx need l = none := by
  cases hg : gapIdx need l with
  | none => rfl
  | some k =>
    rcases gapIdx_free hg (Nat.le_refl k) (by omega) with ⟨e, he, hf⟩
    rw [h e (mem_of_getElem? he)] at hf
    cases hf

theorem scan_used (hdot : nm ≠ dot ∧ nm ≠ dotdot) (h : ∀ e ∈ l, isShort e ∧ dirName e ≠ name83 nm) (pos : Nat)
    {st : Lfn}
    (hst : st.active = false) : ∃ st', scan nm l pos st = some (.inr st') := by
  induction l generalizing pos st with
  | nil => exact ⟨st, rfl⟩
  | cons e l ih =>
    rcases forall_mem_cons.mp h with ⟨⟨hs, hname⟩, hl⟩
    simp only [isShort, decide_eq_true_eq] at hs
    have hv : visit nm e st = some (.next st.reset) := by
      simp [visit, hs, longMatches, hst, dotMatches, hdot, ncmp, Ne.symm hname]
    rw [scan, hv]
    exact ih hl (pos + 32) rfl

end Full

/-- 65536 clusters of 64 KiB, with a file in every slot. -/
def fullFs : Fs := { tinyFs with disk := filledWith 0x41 largeVolume (rising 65537) }

theorem fullFs_isDir : IsDir largeVolume fullFs 0 (List.range' 2 65536) :=
  ⟨largeVolume_ok, tinyFs_isDir.ref, tinyFs_isDir.attrs, Chain.of_bytes largeVolume_ok
    (chain_rising 65535 (c := 2) (by decide) (by decide)) fun a ha => (byte_filled a).trans (if_neg (by omega))⟩

theorem fullFs_length : (slots largeVolume fullFs.disk (List.range' 2 65536)).length = 2 ^ 27 := by
  rw [slots_length largeVolume_ok fun _ hx => fullFs_isDir.chain.valid hx, length_range']
  decide

theorem fullFs_slot {e : Bytes} (he : e ∈ slots largeVolume fullFs.disk (List.range' 2 65536)) :
    dirAttr e = 0x41 ∧ isFree e = false ∧ isShort e ∧ dirName e = List.replicate 11 0x41 := by
  have hall : ∀ i < 32, e i = 0x41 := by
    intro i hi
    rw [slots_eq] at he
    rcases mem_map.mp he with ⟨d, hd, rfl⟩
    rcases mem_flatMap.mp hd with ⟨x, hx, hd⟩
    rw [cut, if_pos hi]
    exact slots_filled largeVolume_ok (fullFs_isDir.chain.valid hx) d hd i hi
  have h0 := hall 0 (by decide)
  have hattr : dirAttr e = 0x41 := hall 11 (by decide)
  refine ⟨hattr, by simp [isFree, h0], by simp [isShort, h0, hattr, attrLongName], ?_⟩
  refine eq_replicate_iff.mpr ⟨rfl, fun b hb => ?_⟩
  rcases mem_map.mp hb with ⟨i, hi, rfl⟩
  exact hall i ((mem_range.mp hi).trans (by decide))

/-- The entry of "b" goes to slot 0, which is in use. -/
theorem full_directory_damaged : ∃ fs', fcreate largeVolume 0 [98] .file (fun _ => 0) fullFs = some (some 1, fs') ∧
    ¬Spares largeVolume 0 [98] .file (List.range' 2 65536) fullFs (some 1) fs' := by
  have hgap : gapIdx 1 (slots largeVolume fullFs.disk (List.range' 2 65536)) = none :=
    gapIdx_used (by decide) fun e he => (fullFs_slot he).2.1
  have hd := fullFs_isDir
  have hsearch : search largeVolume fullFs 0 [98] (fun _ => 0) = some none := by
    rcases @scan_used [98] _ (by decide) (fun e he => ⟨(fullFs_slot he).2.2.1, by rw [(fullFs_slot he).2.2.2]; decide⟩)
      0 ⟨fun _ => 0, 0, 0, false, 0⟩ rfl with ⟨st, hscan⟩
    have heq := hd.chain.dlookup_eq hd.ok hd.attrs [98] fun _ => 0
    rw [hscan] at heq
    rcases map_eq_some_iff.mp heq with ⟨q, hq, hnone⟩
    cases q with
    | none => exact hq
    | some q => cases hnone
  have hfree : ∃ n, largeVolume.Valid n ∧ readFat largeVolume.toMount fullFs.disk n = 0 := by
    refine ⟨65538, ⟨by decide, by decide⟩, ?_⟩
    rw [fullFs, largeVolume_ok.sameTable_filled 0x41 _ 65538 (by decide), readFat_rising _ (by decide)]
    decide
  -- the place for the entry is behind the last slot, and its offset is 0
  obtain ⟨disk, cs', hdfree, hch, hlen⟩ : ∃ disk cs', dfree largeVolume 2 0 fullFs.disk = some (some (0, 2), disk) ∧
      Chain largeVolume disk 2 cs' ∧ 0 < (slots largeVolume disk cs').length := by
    rcases FileChain.dfree_some hd.ok (.inl hd.chain) 0 (fun _ _ => by decide) with ⟨r, disk, hdf⟩
    cases FileChain.dfree_cases hd.ok (.inl hd.chain) 0 hdf with
    | gap hg => cases hg.symm.trans hgap
    | full _ ha => exact absurd hfree ((hd.ok.allocClus_none_iff _).mp ha)
    | grown _ _ _ hch hs hfirst _ _ =>
      cases hfirst (by simp)
      rw [fullFs_length] at hdf
      exact ⟨disk, _, hdf, hch, by rw [hs, length_append, fullFs_length]; omega⟩
  have hvn : (fvalloc 0 0 (newAttr .file) 2 0 fullFs).1 = some 1 := by decide
  have hfirst : ((fvalloc 0 0 (newAttr .file) 2 0 fullFs).2.vnodes 0).priv.firstClus = 2 := by decide
  rcases hch.dwriteAll_eq hd.ok [dirent (name83 [98]) (newAttr .file) 0] 0
    (fun i hi => by rw [Nat.lt_one_iff.mp hi]; exact hlen) with ⟨disk', hw, -, -⟩
  have he : fcreate largeVolume 0 [98] .file (fun _ => 0) fullFs =
      some (some 1, { (fvalloc 0 0 (newAttr .file) 2 0 fullFs).2 with disk := disk' }) := by
    have hself : Fs.setFirst { fullFs with disk := disk } 0 2 = { fullFs with disk := disk } :=
      setFirst_self { fullFs with disk := disk } 0
    have hplace : place largeVolume 0 [98] .file 0 0 { fullFs with disk := disk } =
        enter largeVolume 0 [98] .file 0 0 1 (dirent (name83 [98]) (newAttr .file) 0)
          { (fvalloc 0 0 (newAttr .file) 2 0 fullFs).2 with disk := disk } := by
      have hsn : newShortName largeVolume 0 [98] { fullFs with disk := disk } = some (name83 [98]) := rfl
      have hv : fvalloc 0 0 (newAttr .file) 2 (uint (0 + lfnCount [98] * 32)) { fullFs with disk := disk } = _ :=
        fvalloc_with_disk 0 0 2 0 (newAttr .file) fullFs disk
      rw [place, hsn, bind_some, show (fullFs.vnodes 0).priv.firstClus = 2 from rfl, hv, hvn]
    have hcnt : lfnCount [98] = 0 := by decide
    have hclus : newClus largeVolume .file fullFs.disk = some (0, fullFs.disk) := rfl
    have hroot : (fullFs.vnodes 0).priv.firstClus = 2 := rfl
    rw [fcreate, if_neg (by decide), hsearch, bind_some, hclus]
    dsimp only
    rw [if_neg (fun h => absurd h.1 (by decide)), hroot, hcnt, hdfree, bind_some]
    dsimp only
    have hw : dwriteAll largeVolume 2
      (lfnEntries [98] 0 (lfnChecksum (dirName (dirent (name83 [98]) (newAttr .file) 0))) ++
        [dirent (name83 [98]) (newAttr .file) 0]) 0 disk = (true, disk') := hw
    rw [hself, hplace, enter, dwriteLfn, hcnt, hfirst, hw]
    rfl
  refine ⟨_, he, fun hs => ?_⟩
  rcases (hd.fcreate_spec he).2 with ⟨c, sn, cs1, hcr⟩
  have hreach := hcr.inReach hd tinyFs_keyed (fun e he _ sn c hsn hmem => ?_) (by decide) hs
  · have hlast : gapFor [98] (slots largeVolume fullFs.disk (List.range' 2 65536)) = 2 ^ 27 := by
      rw [gapFor, gapAt, show lfnCount [98] + 1 = 1 by decide, hgap, getD_none, fullFs_length]
    rw [InReach, entryIdx, hlast] at hreach
    exact absurd hreach (by decide)
  · rcases mem_map.mp hmem with ⟨x, hx, rfl⟩
    cases mem_singleton.mp hx
    have hattr := (fullFs_slot he).1
    rw [dirAttr_cut, dirAttr_dirent hsn] at hattr
    cases hattr

end Xv6Vfs.Fat32
