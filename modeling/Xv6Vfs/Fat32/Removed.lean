import Xv6Vfs.Fat32.Fresh
import Xv6Vfs.Fat32.Frame

/-! What `funlink` removes: slots of the directory, and the clusters of the file. -/
namespace Xv6Vfs.Fat32
open Xv6Vfs.Bytes Xv6Vfs.Vfs Function List Nat

variable {c k : Nat} {v : Volume} {d e : Bytes} {disk : Disk} {cs : List Nat} {l post pre : List Bytes}

/-! ### Slots that go with an entry -/

/-- `count_lfn_backwards` on the slots in front of an entry, the nearest first. -/
def runBack : List Bytes → (seq : Nat) → Nat
  | [], _ => 0
  | e :: es, seq => if dirAttr e = attrLongName ∧ lfnSeq e = seq then 1 + runBack es (seq + 1) else 0

theorem runBack_le (l : List Bytes) (seq : Nat) : runBack l seq ≤ l.length := by
  induction l generalizing seq with
  | nil => exact Nat.le_refl 0
  | cons e l ih =>
    rw [runBack, length_cons]
    split
    · have := ih (seq + 1)
      omega
    · omega

theorem runBack_numbered {c : UInt8} {run : List Bytes} (h : numbered c run)
    (ha : ∀ r ∈ run, dirAttr r = attrLongName) (l : List Bytes) :
    runBack (run.reverse ++ l) 1 = run.length + runBack l (run.length + 1) := by
  induction run generalizing l with
  | nil => simp
  | cons r run ih =>
    simp only [numbered, Bool.and_eq_true, decide_eq_true_eq] at h
    have hr := ha r mem_cons_self
    rw [reverse_cons, append_assoc, ih h.2 (fun x hx => ha x (mem_cons_of_mem r hx)), singleton_append,
      runBack, if_pos ⟨hr, h.1.1.1⟩, length_cons]
    omega

theorem runBack_complete {run : List Bytes} (h : complete d run) (ha : ∀ r ∈ run, dirAttr r = attrLongName)
    (l : List Bytes) : runBack (run.reverse ++ l) 1 = run.length + runBack l (run.length + 1) := by
  cases run with
  | nil => cases h
  | cons r run =>
    simp only [complete, Bool.and_eq_true, decide_eq_true_eq] at h
    have hr := ha r mem_cons_self
    rw [reverse_cons, append_assoc, runBack_numbered h.2 (fun x hx => ha x (mem_cons_of_mem r hx)),
      singleton_append, runBack, if_pos ⟨hr, h.1.1.1.1⟩, length_cons]
    omega

/-- Every long name of a directory is whole and stands directly in front of its own entry. `run` is what
was read of a long name so far. -/
def tidyFrom (run : List Bytes) : List Bytes → Bool
  | [] => run.isEmpty
  | d :: ds =>
    if d 0 = 0x00 then run.isEmpty
    else if d 0 = 0xE5 then run.isEmpty && tidyFrom [] ds
    else if dirAttr d = attrLongName then tidyFrom (run ++ [d]) ds
    else (run.isEmpty || complete d run) && tidyFrom [] ds

/-- No slot of a long name stands at the end. -/
def Closed (pre : List Bytes) : Prop := ∀ e ∈ pre.getLast?, isShort e ∨ e 0 = 0xE5

theorem Closed.append_cons (he : isShort e ∨ e 0 = 0xE5) (h : Closed post) : Closed (pre ++ e :: post) := by
  intro x hx
  rw [getLast?_append_of_ne_nil _ (cons_ne_nil e post), getLast?_cons] at hx
  cases hp : post.getLast? with
  | none =>
    rw [hp] at hx
    cases hx
    exact he
  | some y =>
    rw [hp] at hx
    cases hx
    exact h _ hp

/-- In front of an entry of a tidy directory stand the slots of its long name, if it has one. -/
theorem tidy_split {run : List Bytes} (h : tidyFrom run l) (hrun : ∀ r ∈ run, dirAttr r = attrLongName)
    (hk : l[k]? = some d) (hd : isShort d) (hmark : ∀ e ∈ l.take k, e 0 ≠ 0) :
    ∃ pre run', run ++ l.take k = pre ++ run' ∧ (run' = [] ∨ complete d run') ∧
      (∀ r ∈ run', dirAttr r = attrLongName) ∧ Closed pre := by
  induction l generalizing run k with
  | nil => cases hk
  | cons e l ih =>
    rw [tidyFrom] at h
    cases k with
    | zero =>
      cases hk
      simp only [isShort, decide_eq_true_eq] at hd
      rw [if_neg hd.1, if_neg hd.2.1, if_neg hd.2.2, Bool.and_eq_true, Bool.or_eq_true, List.isEmpty_iff] at h
      exact ⟨[], run, by rw [take_zero, append_nil, nil_append], h.1, hrun, fun _ he => by cases he⟩
    | succ k =>
      have hk' : l[k]? = some d := hk
      rw [take_succ_cons] at hmark ⊢
      have h0 : e 0 ≠ 0 := hmark e mem_cons_self
      have hmark' : ∀ x ∈ l.take k, x 0 ≠ 0 := fun x hx => hmark x (mem_cons_of_mem e hx)
      rw [if_neg h0] at h
      split at h
      · rename_i h5
        rw [Bool.and_eq_true, List.isEmpty_iff] at h
        rcases h with ⟨rfl, h⟩
        rcases ih h (forall_mem_nil _) hk' hmark' with ⟨pre, run', hsplit, hc, ha, hpre⟩
        refine ⟨[] ++ e :: pre, run', ?_, hc, ha, hpre.append_cons (.inr h5)⟩
        rw [nil_append] at hsplit
        rw [hsplit]
        rfl
      · split at h
        · rename_i h5 hattr
          have hrun' : ∀ r ∈ run ++ [e], dirAttr r = attrLongName := by
            intro r hr
            rcases mem_append.mp hr with hr | hr
            · exact hrun r hr
            · rw [mem_singleton] at hr
              exact hr ▸ hattr
          rcases ih h hrun' hk' hmark' with ⟨pre, run', hsplit, hc, ha, hpre⟩
          exact ⟨pre, run', by rw [← hsplit, append_assoc]; rfl, hc, ha, hpre⟩
        · rename_i h5 hattr
          rw [Bool.and_eq_true] at h
          have hs : isShort e := by
            rw [isShort, decide_eq_true_eq]
            exact ⟨h0, h5, hattr⟩
          rcases ih h.2 (forall_mem_nil _) hk' hmark' with ⟨pre, run', hsplit, hc, ha, hpre⟩
          refine ⟨run ++ e :: pre, run', ?_, hc, ha, hpre.append_cons (.inl hs)⟩
          rw [nil_append] at hsplit
          rw [hsplit, append_assoc]
          rfl

theorem Closed.runBack_eq (h : Closed pre) {n : Nat} (hn : n ≤ 21) : runBack pre.reverse n = 0 := by
  cases hr : pre.reverse with
  | nil => rfl
  | cons e l =>
    have hlast : pre.getLast? = some e := by rw [getLast?_eq_head?_reverse, hr]; rfl
    rw [runBack, if_neg]
    rintro ⟨hattr, hseq⟩
    rcases h e hlast with hs | h5
    · simp only [isShort, decide_eq_true_eq] at hs
      exact hs.2.2 hattr
    · rw [lfnSeq, h5] at hseq
      have : (0xE5 : UInt8).toNat &&& 0xBF = 165 := by decide
      omega

theorem runBack_own {run : List Bytes} (hc : run = [] ∨ complete d run) (ha : ∀ r ∈ run, dirAttr r = attrLongName)
    (hpre : Closed pre) : runBack (pre ++ run).reverse 1 = run.length := by
  rw [reverse_append]
  rcases hc with rfl | hc
  · exact hpre.runBack_eq (by omega)
  · have hlen := (complete_whole hc).2.2
    rw [runBack_complete hc ha, hpre.runBack_eq (by omega), Nat.add_zero]

/-! ### Slots that are reached after the clusters of the file are free -/

/-- The first `n` slots of the clusters `cs` are reached from `first`: by a chain, or because they are in the
first cluster. -/
def Reached (v : Volume) (disk : Disk) (first : Nat) (cs : List Nat) (n : Nat) : Prop :=
  Chain v disk first cs ∨ n ≤ perClus v ∧ cs.head? = some first

section Reached

variable {v : Volume} (ok : v.Ok) {disk disk' : Disk} {first n : Nat} {cs : List Nat}
include ok

section

variable (h : Reached v disk first cs n)
include h

theorem Reached.locate_eq {i : Nat} (hi : i < n) :
    locate v.toMount disk first (32 * i) = (cs[i / perClus v]?).map (slotPos v · i) := by
  rcases h with h | ⟨hn, hc⟩
  · exact (h.links ok).locate_eq i
  · have h0 : i / perClus v = 0 := div_eq_of_lt (by omega)
    rw [locate_slot, h0, ← head?_eq_getElem?, hc]
    rfl

theorem Reached.of_bytes
    (hb : ∀ a, a < 512 * v.firstDataSec → byte disk' a = byte disk a) : Reached v disk' first cs n :=
  h.imp_left fun h => h.of_bytes ok hb

theorem Reached.count_eq (hval : ∀ y ∈ cs, v.Valid y) (hk : k ≤ n) (hlen : k ≤ (slots v disk cs).length) (seq : Nat) :
    countLfnBackwards v.toMount disk first k seq = runBack ((slots v disk cs).take k).reverse seq := by
  induction k generalizing seq with
  | zero => rfl
  | succ k ih =>
    rcases clus_of_lt ok hval (show k < (slots v disk cs).length by omega) with ⟨x, hx, hxv⟩
    have hslot : (slots v disk cs)[k]? = _ := slots_getElem? ok hval hx
    rw [← ok.sread_slot hxv] at hslot
    rw [countLfnBackwards, h.locate_eq ok (by omega), hx, take_add_one, hslot, Option.toList_some,
      reverse_append, reverse_singleton, singleton_append, runBack, dirAttr_cut, lfnSeq_cut,
      ← ih (by omega) (by omega)]
    rfl

/-- A slot that `funlink` has marked. -/
def deleted (d : Bytes) : Bytes := update d 0 0xE5

theorem Reached.mark_eq {mid : List Bytes} (hval : ∀ y ∈ cs, v.Valid y)
    (hnd : cs.Nodup) (hs : slots v disk cs = pre ++ (mid ++ post)) (hn : pre.length + mid.length ≤ n) :
    ∃ disk', markDeleted v first mid.length (32 * pre.length) disk = (true, disk') ∧
      slots v disk' cs = pre ++ (mid.map deleted ++ post) ∧
      ∀ a, a < 512 * v.firstDataSec → byte disk' a = byte disk a := by
  induction mid generalizing pre disk with
  | nil => exact ⟨disk, rfl, hs, fun _ _ => rfl⟩
  | cons d mid ih =>
    have hlt : pre.length < (slots v disk cs).length := by
      rw [hs, length_append, length_append, length_cons]
      omega
    rw [length_cons] at hn
    rcases clus_of_lt ok hval hlt with ⟨x, hx, hxv⟩
    have hd : d = cut fun k => byte disk (slotAddr v x pre.length + k) := by
      have hget : (slots v disk cs)[pre.length]? = some d := by rw [hs]; simp
      exact Option.some.inj (hget.symm.trans (slots_getElem? ok hval hx))
    generalize hdisk1 : swrite v (slotPos v x pre.length).1 (slotPos v x pre.length).2 (fun _ => 0xE5) 1 disk = disk1
    have hbyte : ∀ a, byte disk1 a = if slotAddr v x pre.length ≤ a ∧ a < slotAddr v x pre.length + 32
        then deleted d (a - slotAddr v x pre.length) else byte disk a := by
      intro a
      rw [← hdisk1, ok.byte_swrite_slot hxv (by omega), deleted]
      by_cases h0 : a = slotAddr v x pre.length
      · rw [if_pos (by omega), if_pos (by omega), h0, Nat.sub_self, update_self]
      · rw [if_neg (by omega)]
        split
        · rw [update_of_ne (by omega), hd, cut_apply (by omega)]
          congr 1
          omega
        · rfl
    have hlow : ∀ a, a < 512 * v.firstDataSec → byte disk1 a = byte disk a := by
      intro a ha
      rw [← hdisk1]
      exact ok.swrite_slot_low hxv (by omega) _ _ disk ha
    have hset := slots_set ok hval hnd hx (mod_lt _ (perClus_pos ok)) hbyte
    have hcut : cut (deleted d) = deleted d := by
      funext i
      rw [cut]
      split
      · rfl
      · rw [deleted, update_of_ne (by omega), hd, cut, if_neg (by omega)]
    rw [div_add_mod', hcut, hs] at hset
    have hs1 : slots v disk1 cs = (pre ++ [deleted d]) ++ (mid ++ post) := by
      rw [hset]
      simp
    rcases ih (h.of_bytes ok hlow) hs1 (by rw [length_append, length_singleton]; omega) with
      ⟨disk', hm, hs', hlow'⟩
    refine ⟨disk', ?_, by rw [hs']; simp, fun a ha => (hlow' a ha).trans (hlow a ha)⟩
    rw [length_append, length_singleton] at hm
    rw [length_cons, markDeleted, h.locate_eq ok (by omega), hx]
    dsimp only [Option.map_some]
    rw [hdisk1, ← hm]
    rfl

end

end Reached

/-! ### The directory that is removed -/

theorem sweep_visitEmpty (l : List Bytes) (i : Nat) :
    (sweep visitEmpty l i).elim (fun _ => false) (fun _ => true) = (l.drop (2 - i)).all isFree := by
  induction l generalizing i with
  | nil => simp [sweep]
  | cons d l ih =>
    rw [sweep, visitEmpty]
    by_cases hi : 2 ≤ i
    · have hsub : 2 - i = 0 := by omega
      have hsub' : 2 - (i + 1) = 0 := by omega
      rw [hsub, drop_zero, all_cons]
      by_cases hd : isFree d = true
      · rw [if_neg (by simp [hd]), hd, Bool.true_and]
        rw [ih, hsub', drop_zero]
      · rw [if_pos ⟨hi, by simpa using hd⟩]
        simp [hd]
    · have hsub : 2 - i = 2 - (i + 1) + 1 := by omega
      rw [if_neg (fun h => hi h.1), hsub, drop_succ_cons]
      exact ih (i + 1)

/-- The test of `funlink` looks at all slots but the first two. -/
theorem FileChain.dirIsEmpty_eq (ok : v.Ok) (h : FileChain v disk c cs) :
    dirIsEmpty v.toMount disk c = some (((slots v disk cs).drop 2).all isFree) := by
  have hcut : ∀ d i, visitEmpty (cut d) i = visitEmpty d i := fun _ _ => rfl
  rw [dirIsEmpty, h.sweepChain_eq ok hcut, Option.map_some, sweep_visitEmpty]

theorem FileChain.release_eq {disk' : Disk} (ok : v.Ok) (h : FileChain v disk c cs)
    (he : releaseClus v c disk = some disk') :
    (∀ x, x < v.totClus + 2 → readFat v.toMount disk' x = if x ∈ cs then 0 else readFat v.toMount disk x) ∧
      Changes v (fun _ => False) disk disk' := by
  rw [releaseClus] at he
  rcases h with h | ⟨rfl, rfl⟩
  · have := h.valid_first.1
    rw [if_neg (by omega)] at he
    rcases h.freeChain_eq ok (h.apart_of_free ok he) (h.links ok).length_lt with ⟨disk1, he1, hzero, hkeep, hdata⟩
    cases he.symm.trans he1
    refine ⟨fun x hx => ?_, hdata⟩
    split
    · exact hzero x ‹_›
    · exact hkeep x hx ‹_›
  · cases he
    exact ⟨fun x _ => by simp, Changes.refl v _ _⟩

/-! ### Removal -/

section Unlink

variable {v : Volume} {d off : Nat} {nm : Name} {junk : Nat → Nat} {fs : Fs} {cs tcs : List Nat} {de : Bytes}

theorem IsDir.search_found (h : IsDir v fs d cs) (hs : search v fs d nm junk = some (some (de, off))) :
    ∃ k, off = 32 * (k % 2 ^ 27) ∧ (slots v fs.disk cs)[k]? = some (cut de) ∧ isShort (cut de) ∧
      (∀ e ∈ (slots v fs.disk cs).take k, e 0 ≠ 0) ∧ FoundIn nm ⟨junk, 0, 0, false, 0⟩ (slots v fs.disk cs) k := by
  have heq := h.chain.dlookup_eq h.ok h.attrs nm junk
  rw [search, Node.dirNode] at hs
  rw [hs] at heq
  rcases Option.map_eq_some_iff.mp heq.symm with ⟨r, hr, ho⟩
  cases r with
  | inr st => cases ho
  | inl e =>
    cases ho
    rcases scan_found hr with ⟨k, hk, hrest⟩
    exact ⟨k, by rw [← uint_slot, ← Nat.zero_add (32 * k)]; exact hk, hrest⟩

/-- The clusters of the entry at `off` and those of its directory have nothing in common, or the entry stands
in the first cluster of the directory, as "." does. -/
def Apart (v : Volume) (cs tcs : List Nat) (off : Nat) : Prop := (∀ x ∈ tcs, x ∉ cs) ∨ off < 32 * perClus v

theorem take_drop_split {α : Type} (l : List α) {j m : Nat} (h : j ≤ m) :
    l.take j ++ ((l.take m).drop j ++ l.drop m) = l := by
  have htake : l.take j = (l.take m).take j := by rw [take_take, Nat.min_eq_left h]
  rw [htake, ← append_assoc, take_append_drop, take_append_drop]

/-- The slots of a directory after an entry in slot `k` was removed. -/
def without (l : List Bytes) (k : Nat) : List Bytes :=
  let n := runBack (l.take k).reverse 1
  l.take (k - n) ++ (((l.take (k + 1)).drop (k - n)).map deleted ++ l.drop (k + 1))

/-- What `funlink` does if it finds an entry: a directory in use is left alone. -/
theorem IsDir.funlink_spec {b : Bool} {fs' : Fs} (h : IsDir v fs d cs)
    (hs : search v fs d nm junk = some (some (de, off))) (ht : FileChain v fs.disk (fstClus de) tcs)
    (hap : Apart v cs tcs off) (hrun : funlink v d nm junk fs = some (b, fs')) :
    if dirAttr de &&& attrDirectory = 0 ∨ ((slots v fs.disk tcs).drop 2).all isFree then
      b = true ∧ (∃ disk', fs' = { fs with disk := disk' }) ∧
        slots v fs'.disk cs = without (slots v fs.disk cs) (off / 32) ∧
        ∀ x, x < v.totClus + 2 → readFat v.toMount fs'.disk x = if x ∈ tcs then 0 else readFat v.toMount fs.disk x
    else b = false ∧ fs' = fs := by
  rcases h.search_found hs with ⟨k0, hoff, hget, -⟩
  have hlt0 : k0 < (slots v fs.disk cs).length := (List.getElem?_eq_some_iff.mp hget).1
  obtain ⟨k, rfl, hklt⟩ : ∃ k, off = 32 * k ∧ k < (slots v fs.disk cs).length := ⟨_, hoff, by omega⟩
  have hval : ∀ y ∈ cs, v.Valid y := fun _ hy => h.chain.valid hy
  have hnd := (h.chain.links h.ok).nodup
  have hdiv : 32 * k / 32 = k := Nat.mul_div_cancel_left k (by omega)
  have htest : (if dirAttr de &&& attrDirectory = 0 then some true else dirIsEmpty v.toMount fs.disk (fstClus de)) =
      some (decide (dirAttr de &&& attrDirectory = 0 ∨ ((slots v fs.disk tcs).drop 2).all isFree)) := by
    by_cases ha : dirAttr de &&& attrDirectory = 0
    · simp [ha]
    · rw [if_neg ha, ht.dirIsEmpty_eq h.ok, Option.some.injEq, Bool.eq_iff_iff, decide_eq_true_eq]
      exact ⟨.inr, fun hor => hor.resolve_left ha⟩
  rw [funlink, hs, Option.bind_some] at hrun
  dsimp only at hrun
  rw [htest, Option.bind_some, hdiv] at hrun
  split
  · rename_i he
    rw [decide_eq_true he, if_pos rfl] at hrun
    rcases Option.map_eq_some_iff.mp hrun with ⟨disk1, hrel, hres⟩
    rcases ht.release_eq h.ok hrel with ⟨hfat, hdata⟩
    have hs1 : slots v disk1 cs = slots v fs.disk cs := hdata.slots_eq h.ok hval fun _ _ _ _ => id
    have hreach : Reached v disk1 (fs.vnodes d).priv.firstClus cs (k + 1) := by
      rcases hap with hap | hoff
      · refine .inl (h.chain.congr fun x hx => ?_)
        rw [hfat x (hval x hx).2, if_neg fun hm => hap x hm hx]
      · rcases h.chain.head with ⟨t, ht⟩
        exact .inr ⟨by omega, by rw [ht]; rfl⟩
    have hcount := hreach.count_eq h.ok hval (le_succ k) (by rw [hs1]; omega) 1
    rw [hs1] at hcount
    have hle := runBack_le ((slots v fs.disk cs).take k).reverse 1
    rw [length_reverse, length_take_of_le (by omega)] at hle
    generalize hn : runBack ((slots v fs.disk cs).take k).reverse 1 = n at hcount hle
    have hsplit := hs1.trans (take_drop_split (slots v fs.disk cs) (show k - n ≤ k + 1 by omega)).symm
    have hpre : ((slots v fs.disk cs).take (k - n)).length = k - n := length_take_of_le (by omega)
    have hmid : (((slots v fs.disk cs).take (k + 1)).drop (k - n)).length = n + 1 := by
      rw [length_drop, length_take_of_le (by omega)]
      omega
    rcases hreach.mark_eq h.ok hval hnd hsplit (by omega) with ⟨disk2, hmark, hs2, hlow⟩
    have hoff : 32 * (k - n) = 32 * k - n * 32 := by omega
    rw [hpre, hmid, hoff] at hmark
    rw [hcount, hmark] at hres
    cases hres
    refine ⟨rfl, ⟨disk2, rfl⟩, ?_, fun x hx => ?_⟩
    · rw [hs2, hdiv, without, hn]
    · rw [h.ok.readFat_of_bytes hx hlow, hfat x hx]
  · rename_i he
    rw [decide_eq_false he] at hrun
    cases hrun
    exact ⟨rfl, rfl⟩

/-- An entry of a directory for itself or for its parent. -/
def IsDots (d : Bytes) : Prop := dirName d = pad 11 dot ∨ dirName d = pad 11 dotdot

instance (d : Bytes) : Decidable (IsDots d) := inferInstanceAs (Decidable (_ ∨ _))

/-- Exactly the entry `de` in slot `k` and the slots of its long name are marked as deleted, exactly the clusters
`tcs` become free, and if they are a directory it has no entry besides "." and "..". -/
structure RemovesOne (v : Volume) (fs fs' : Fs) (cs tcs : List Nat) (de : Bytes) (k : Nat) : Prop where
  entry : ∃ pre run post, slots v fs.disk cs = pre ++ (run ++ cut de :: post) ∧ k = pre.length + run.length ∧
    (run = [] ∨ complete (cut de) run) ∧ Closed pre ∧
    slots v fs'.disk cs = pre ++ ((run ++ [cut de]).map deleted ++ post)
  table : ∀ x, x < v.totClus + 2 → readFat v.toMount fs'.disk x = if x ∈ tcs then 0 else readFat v.toMount fs.disk x
  empty : dirAttr de &&& attrDirectory ≠ 0 → ∀ s ∈ slots v fs.disk tcs, isFree s = true ∨ IsDots s

/-- In a tidy directory the slots that are removed are those of the entry. -/
theorem without_tidy (htidy : tidyFrom [] l) (hget : l[k]? = some e) (hshort : isShort e)
    (hmark : ∀ x ∈ l.take k, x 0 ≠ 0) :
    ∃ pre run post, l = pre ++ (run ++ e :: post) ∧ k = pre.length + run.length ∧ (run = [] ∨ complete e run) ∧
      Closed pre ∧ without l k = pre ++ ((run ++ [e]).map deleted ++ post) := by
  rcases tidy_split htidy (forall_mem_nil _) hget hshort hmark with ⟨pre, run, hsplit, hc, ha, hpre⟩
  have hlt : k < l.length := (List.getElem?_eq_some_iff.mp hget).1
  rw [nil_append] at hsplit
  have hlen : k = pre.length + run.length := by
    rw [← length_append, ← hsplit, length_take_of_le (by omega)]
  have hsucc : l.take (k + 1) = pre ++ (run ++ [e]) := by
    rw [take_add_one, hget, hsplit, append_assoc]
    rfl
  have hl : l = pre ++ (run ++ e :: l.drop (k + 1)) := by
    conv_lhs => rw [← take_append_drop (k + 1) l, hsucc]
    simp
  have hsub : k - run.length = pre.length := by omega
  have htake : l.take pre.length = pre := by
    rw [hl]
    exact take_left
  refine ⟨pre, run, l.drop (k + 1), hl, hlen, hc, hpre, ?_⟩
  rw [without, hsplit, runBack_own hc ha hpre, hsub, htake, hsucc, drop_left]

/-- The slots behind an entry that is removed stay. -/
theorem without_getElem? {j : Nat} (hj : j < l.length) (hk : j < k) : (without l j)[k]? = l[k]? := by
  have hle := runBack_le (l.take j).reverse 1
  rw [length_reverse, length_take_of_le (by omega)] at hle
  generalize hn : runBack (l.take j).reverse 1 = n at hle
  have hpre : (l.take (j - n)).length = j - n := length_take_of_le (by omega)
  have hmid : (((l.take (j + 1)).drop (j - n)).map deleted).length = n + 1 := by
    rw [length_map, length_drop, length_take_of_le (by omega)]
    omega
  rw [without, hn, getElem?_append_right (by omega), getElem?_append_right (by omega), hpre, hmid, getElem?_drop]
  congr 1
  omega

/-- `funlink` removes exactly one file or one empty directory, exactly if the first two slots of a directory it
removes hold nothing but "." and "..", as the test for an empty directory passes over them, and the entry stands in the
first 4 GiB of the directory, as offsets are 32 bits. -/
theorem unlink_removes_one_iff {fs' : Fs} (h : IsDir v fs d cs) (htidy : tidyFrom [] (slots v fs.disk cs))
    (hs : search v fs d nm junk = some (some (de, off))) (ht : FileChain v fs.disk (fstClus de) tcs)
    (hap : Apart v cs tcs off) (he : funlink v d nm junk fs = some (true, fs')) :
    ∃ k, off = uint (32 * k) ∧ FoundIn nm ⟨junk, 0, 0, false, 0⟩ (slots v fs.disk cs) k ∧
      (RemovesOne v fs fs' cs tcs de k ↔ k < 2 ^ 27 ∧ (dirAttr de &&& attrDirectory ≠ 0 →
        ∀ s ∈ (slots v fs.disk tcs).take 2, isFree s = true ∨ IsDots s)) := by
  have hspec := h.funlink_spec hs ht hap he
  rcases h.search_found hs with ⟨k, rfl, hget, hshort, hmark, hfound⟩
  have hlt : k < (slots v fs.disk cs).length := (List.getElem?_eq_some_iff.mp hget).1
  rw [Nat.mul_div_cancel_left _ (by omega)] at hspec
  split at hspec
  case isFalse => cases hspec.1
  case isTrue hempty =>
    rcases hspec with ⟨-, -, hslots, hfat⟩
    refine ⟨k, (uint_slot k).symm, hfound, fun hr => ⟨?_, fun hdir s hmem => hr.empty hdir s (mem_of_mem_take hmem)⟩,
      ?_⟩
    · -- else the slot that is marked is one in front of the entry, which stays as it was
      by_contra hge
      rcases hr.entry with ⟨pre, run, post, -, hk, -, -, hs'⟩
      have hdel : (slots v fs'.disk cs)[k]? = some (deleted (cut de)) := by
        rw [hs', hk]
        simp
      rw [hslots, without_getElem? (by omega) (by omega), hget] at hdel
      have h0 : cut de 0 = 0xE5 := congrFun (Option.some.inj hdel) 0
      simp only [isShort, decide_eq_true_eq] at hshort
      exact hshort.2.1 h0
    · rintro ⟨hk, hdots⟩
      rw [Nat.mod_eq_of_lt hk] at hslots
      rcases without_tidy htidy hget hshort hmark with ⟨pre, run, post, hl, hk, hc, hpre, hwo⟩
      refine ⟨⟨pre, run, post, hl, hk, hc, hpre, hslots.trans hwo⟩, hfat, fun hdir s hmem => ?_⟩
      rw [← take_append_drop 2 (slots v fs.disk tcs)] at hmem
      rcases mem_append.mp hmem with hmem | hmem
      · exact hdots hdir s hmem
      · exact .inl (all_eq_true.mp (hempty.resolve_left hdir) s hmem)

end Unlink

/-- A root directory with the slots `l`; the other clusters are files of one cluster each. -/
def filesFs (l : List Bytes) : Fs :=
  { tinyFs with disk := fun b => if b = 0 then fun o => if 520 ≤ o ∧ o < 536 then 0xFF else 0 else dirDisk l b }

theorem filesFs_chain (l : List Bytes) {c : Nat} (hc : c = 2 ∨ c = 3) : Chain tinyVolume (filesFs l).disk c [c] := by
  have hends : eocMin ≤ readFat tinyVolume.toMount (filesFs []).disk 2 ∧
      eocMin ≤ readFat tinyVolume.toMount (filesFs []).disk 3 := by decide +kernel
  rcases hc with rfl | rfl
  · exact .last ⟨by decide, by decide⟩ hends.1
  · exact .last ⟨by decide, by decide⟩ hends.2

theorem filesFs_isDir (l : List Bytes) : IsDir tinyVolume (filesFs l) 0 [2] :=
  ⟨tinyVolume_ok, tinyFs_isDir.ref, tinyFs_isDir.attrs, filesFs_chain l (.inl rfl)⟩

/-- "my notes.txt" is removed with the slot of its long name and its cluster. -/
theorem notes_removed : ∃ de fs', search tinyVolume (filesFs mixedSlots) 0 myNotes (fun _ => 0) = some (some (de, 64)) ∧
    funlink tinyVolume 0 myNotes (fun _ => 0) (filesFs mixedSlots) = some (true, fs') ∧
    RemovesOne tinyVolume (filesFs mixedSlots) fs' [2] [3] de 2 := by
  have hsome : (search tinyVolume (filesFs mixedSlots) 0 myNotes (fun _ => 0)).map
      (·.map fun e => (e.2, fstClus e.1, dirAttr e.1)) = some (some (64, 3, 0x20)) := by decide +kernel
  have htrue : (funlink tinyVolume 0 myNotes (fun _ => 0) (filesFs mixedSlots)).map Prod.fst = some true := by
    decide +kernel
  rcases Option.map_eq_some_iff.mp hsome with ⟨r, hs, hr⟩
  rcases Option.map_eq_some_iff.mp hr with ⟨⟨de, off⟩, rfl, hde⟩
  rcases Option.map_eq_some_iff.mp htrue with ⟨⟨b, fs'⟩, he, hb⟩
  cases hb
  simp only [Prod.mk.injEq] at hde
  rcases hde with ⟨rfl, hclus, hattr⟩
  have hchain := filesFs_chain mixedSlots (c := fstClus de) (.inr hclus)
  rcases unlink_removes_one_iff (filesFs_isDir mixedSlots) (by decide +kernel) hs (.inl hchain)
    (.inl (by rw [hclus]; decide)) he with ⟨k, hk, ⟨-, s, hget, -⟩, hiff⟩
  have hlen : (slots tinyVolume (filesFs mixedSlots).disk [2]).length = 16 := by decide +kernel
  have hlt : k < (slots tinyVolume (filesFs mixedSlots).disk [2]).length := (List.getElem?_eq_some_iff.mp hget).1
  obtain rfl : k = 2 := by
    rw [uint] at hk
    omega
  refine ⟨de, fs', hs, he, ?_⟩
  rw [hclus] at hiff
  exact hiff.mpr ⟨by decide, fun hdir => absurd rfl (hattr ▸ hdir)⟩

/-- The entry of a directory "X" with first cluster 3. -/
def xSlot : Bytes := Bytes.ofList (88 :: List.replicate 10 32 ++ 0x10 :: List.replicate 14 0 ++ [3])

/-- The root directory has the directory "X", which has the files "LONGFILE" and "README.TXT" and no entries "." and
"..". -/
def bareDirSlots : List Bytes := xSlot :: List.replicate 15 (fun _ => 0) ++ [longfileSlot, readmeSlot 5]

/-- "X" is removed with its two files. -/
theorem full_directory_removed : ∃ de fs', search tinyVolume (filesFs bareDirSlots) 0 [120] (fun _ => 0) =
    some (some (de, 0)) ∧
    fstClus de = 3 ∧ tidyFrom [] (slots tinyVolume (filesFs bareDirSlots).disk [2]) = true ∧
    funlink tinyVolume 0 [120] (fun _ => 0) (filesFs bareDirSlots) = some (true, fs') ∧
    ∀ k, ¬RemovesOne tinyVolume (filesFs bareDirSlots) fs' [2] [3] de k := by
  have hsome : (search tinyVolume (filesFs bareDirSlots) 0 [120] (fun _ => 0)).map
      (·.map fun e => (e.2, fstClus e.1, dirAttr e.1)) = some (some (0, 3, 0x10)) := by decide +kernel
  have htrue : (funlink tinyVolume 0 [120] (fun _ => 0) (filesFs bareDirSlots)).map Prod.fst = some true := by
    decide +kernel
  have hlive : ((slots tinyVolume (filesFs bareDirSlots).disk [3]).all fun s => isFree s || decide (IsDots s)) =
    false := by
    decide +kernel
  rcases Option.map_eq_some_iff.mp hsome with ⟨r, hs, hr⟩
  rcases Option.map_eq_some_iff.mp hr with ⟨⟨de, off⟩, rfl, hde⟩
  rcases Option.map_eq_some_iff.mp htrue with ⟨⟨b, fs'⟩, he, hb⟩
  cases hb
  simp only [Prod.mk.injEq] at hde
  rcases hde with ⟨rfl, hclus, hattr⟩
  refine ⟨de, fs', hs, hclus, by decide +kernel, he, fun k hone => ?_⟩
  have hall := hone.empty (by rw [hattr]; decide)
  rw [all_eq_false] at hlive
  rcases hlive with ⟨s, hmem, hs'⟩
  rw [Bool.or_eq_true, decide_eq_true_eq] at hs'
  exact hs' (hall s hmem)

end Xv6Vfs.Fat32
