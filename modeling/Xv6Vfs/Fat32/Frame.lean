import Xv6Vfs.Fat32.Enter

/-! What writes of the FAT32 driver leave alone: table writes the clusters, cluster writes the table. -/
namespace Xv6Vfs.Fat32
open Xv6Vfs.Bytes Xv6Vfs.Vfs List

variable {c : Nat} {v : Volume} {cs : List Nat} {disk disk' : Disk}

/-- Byte `a` lies in cluster `c`. -/
def InClus (v : Volume) (c a : Nat) : Prop := clusAddr v c ≤ a ∧ a < clusAddr v c + 512 * v.secPerClus

/-- Behind the tables only bytes in `P` differ. -/
def Changes (v : Volume) (P : Nat → Prop) (disk disk' : Disk) : Prop :=
  ∀ a, 512 * v.firstDataSec ≤ a → byte disk' a ≠ byte disk a → P a

/-- The table entries in `keep` are the same. -/
def KeepsFat (v : Volume) (keep : Nat → Prop) (disk disk' : Disk) : Prop :=
  ∀ x, x < v.totClus + 2 → keep x → readFat v.toMount disk' x = readFat v.toMount disk x

section Relations

variable {v : Volume} {P Q : Nat → Prop} {disk disk1 disk' : Disk}

theorem Changes.refl (v : Volume) (P : Nat → Prop) (disk : Disk) : Changes v P disk disk :=
  fun _ _ h => absurd rfl h

theorem Changes.trans (h : Changes v P disk disk1) (h' : Changes v P disk1 disk') : Changes v P disk disk' := by
  intro a ha hne
  by_cases h1 : byte disk1 a = byte disk a
  · exact h' a ha (by rwa [h1])
  · exact h a ha h1

theorem Changes.mono (h : Changes v P disk disk') (hPQ : ∀ a, P a → Q a) : Changes v Q disk disk' :=
  fun a ha hne => hPQ a (h a ha hne)

/-- A cluster without a byte in `P` is the same. -/
theorem Changes.byte_eq (h : Changes v P disk disk') {a : Nat} (ha : 512 * v.firstDataSec ≤ a) (hP : ¬ P a) :
    byte disk' a = byte disk a := by
  by_contra hne
  exact hP (h a ha hne)

theorem KeepsFat.trans (h : KeepsFat v P disk disk1) (h' : KeepsFat v P disk1 disk') : KeepsFat v P disk disk' :=
  fun x hx hk => (h' x hx hk).trans (h x hx hk)

theorem KeepsFat.mono (h : KeepsFat v P disk disk') (hPQ : ∀ a, Q a → P a) : KeepsFat v Q disk disk' :=
  fun x hx hk => h x hx (hPQ x hk)

end Relations

section Writes

variable {v : Volume} (ok : v.Ok) {c : Nat}
include ok

theorem Volume.Ok.changes_writeFat (hc : c < v.totClus + 2) (val : Nat) (disk : Disk) (P : Nat → Prop) :
    Changes v P disk (writeFat v c val disk) :=
  fun _ ha hne => absurd (ok.byte_writeFat hc (.inr ha)) hne

theorem Volume.Ok.keepsFat_writeFat (hc : c < v.totClus + 2) (val : Nat) (disk : Disk) :
    KeepsFat v (· ≠ c) disk (writeFat v c val disk) :=
  fun _ hx hne => ok.readFat_writeFat_ne hc hx hne val disk

theorem Volume.Ok.changes_fillClus (hc : v.Valid c) (head : Bytes) (disk : Disk) :
    Changes v (InClus v c) disk (fillClus v c head disk) := by
  intro a _ hne
  by_contra hout
  apply hne
  rw [ok.byte_fillClus hc]
  exact if_neg hout

theorem Volume.Ok.keepsFat_fillClus (hc : v.Valid c) (head : Bytes) (disk : Disk) (P : Nat → Prop) :
    KeepsFat v P disk (fillClus v c head disk) :=
  fun _ hx _ => ok.readFat_fillClus hc hx head disk

theorem Volume.Ok.allocClus_spec (h : allocClus v disk = some (c, disk')) :
    v.Valid c ∧ readFat v.toMount disk c = 0 ∧ readFat v.toMount disk' c = eoc ∧ KeepsFat v (· ≠ c) disk disk' ∧
      Changes v (fun _ => False) disk disk' := by
  rcases allocClus_eq h with ⟨hc, hfree, rfl⟩
  refine ⟨hc, hfree, ?_, ok.keepsFat_writeFat hc.2 eoc disk, ok.changes_writeFat hc.2 eoc disk _⟩
  rw [ok.readFat_writeFat hc.2]
  rfl

end Writes

/-! ### Writes to slots -/

/-- Byte `a` lies in slot `i` of the clusters `cs`. -/
def InSlot (v : Volume) (cs : List Nat) (i a : Nat) : Prop :=
  ∃ x, cs[i / perClus v]? = some x ∧ slotAddr v x i ≤ a ∧ a < slotAddr v x i + 32

/-- Entries are written to their slots only, all of them or those up to the end of the directory. -/
theorem Chain.dwriteAll_frame (ok : v.Ok) (h : Chain v disk c cs) (ds : List Bytes) (k : Nat) :
    Changes v (fun a => ∃ i, k ≤ i ∧ i < k + ds.length ∧ InSlot v cs (i % 2 ^ 27) a) disk
        (dwriteAll v c ds (32 * k) disk).2 ∧
      ∀ P, KeepsFat v P disk (dwriteAll v c ds (32 * k) disk).2 := by
  induction ds generalizing disk k with
  | nil => exact ⟨Changes.refl v _ disk, fun P x _ _ => rfl⟩
  | cons d ds ih =>
    by_cases hk : k % 2 ^ 27 < (slots v disk cs).length
    · rcases clus_of_lt ok (fun _ hy => h.valid hy) hk with ⟨x, hx, hxv⟩
      have hraw : dwriteRaw v c (uint (32 * k)) d disk =
          some (swrite v (slotPos v x (k % 2 ^ 27)).1 (slotPos v x (k % 2 ^ 27)).2 d 32 disk) := by
        rw [uint_slot, dwriteRaw, (h.links ok).locate_eq, hx]
        rfl
      have hlow := fun a => @Volume.Ok.swrite_slot_low v ok x 32 hxv (Nat.le_refl 32) (k % 2 ^ 27) d disk a
      have hkeep : ∀ P, KeepsFat v P disk
          (swrite v (slotPos v x (k % 2 ^ 27)).1 (slotPos v x (k % 2 ^ 27)).2 d 32 disk) :=
        fun P y hy _ => ok.readFat_of_bytes hy hlow
      rcases ih (h.of_bytes ok hlow) (k + 1) with ⟨hc, hkeep'⟩
      rw [dwriteAll, hraw]
      refine ⟨Changes.trans ?_ (hc.mono ?_), fun P => (hkeep P).trans (hkeep' P)⟩
      · intro a _ hne
        by_cases hin : slotAddr v x (k % 2 ^ 27) ≤ a ∧ a < slotAddr v x (k % 2 ^ 27) + 32
        · exact ⟨k, Nat.le_refl k, by rw [length_cons]; omega, x, hx, hin⟩
        · rw [ok.byte_swrite_slot hxv (Nat.le_refl 32), if_neg hin] at hne
          exact absurd rfl hne
      · rintro a ⟨i, h1, h2, hi⟩
        exact ⟨i, by omega, by rw [length_cons]; omega, hi⟩
    · rw [dwriteAll, uint_slot, dwriteRaw, h.locate_none ok (by omega)]
      exact ⟨Changes.refl v _ disk, fun P x _ _ => rfl⟩

/-! ### Release of a chain -/

theorem Chain.apart_of_free {fuel : Nat} (ok : v.Ok) (h : Chain v disk c cs)
    (he : freeChain v fuel c disk = some disk') : TablesApart v := by
  cases fuel with
  | zero => cases he
  | succ fuel =>
    rw [freeChain, if_pos (ok.lt_eocMin h.valid_first)] at he
    split at he
    · cases he
    · rename_i hno
      exact (ok.fatWaits_iff h.valid_first.2).mp (by simpa using hno)

/-- `free_chain` clears the entries of the chain. -/
theorem Chain.freeChain_eq {v : Volume} (ok : v.Ok) {disk : Disk} {c : Nat} {cs : List Nat} (hap : TablesApart v)
    (h : Chain v disk c cs) {fuel : Nat} (hf : cs.length < fuel) :
    ∃ disk', freeChain v fuel c disk = some disk' ∧ (∀ x ∈ cs, readFat v.toMount disk' x = 0) ∧
      KeepsFat v (· ∉ cs) disk disk' ∧ Changes v (fun _ => False) disk disk' := by
  generalize hl : cs.length = l
  induction l using Nat.strongRecOn generalizing disk c cs fuel with
  | ind l ih =>
    cases fuel with
    | zero => omega
    | succ fuel =>
      have hc := h.valid_first
      have hzero : readFat v.toMount (Fat32.writeFat v c 0 disk) c = 0 := ok.readFat_writeFat hc.2 0 disk
      have hkeep := ok.keepsFat_writeFat hc.2 0 disk
      have hdata := ok.changes_writeFat hc.2 0 disk fun _ => False
      have hwait := (ok.fatWaits_iff hc.2).mpr hap
      rw [freeChain, if_pos (ok.lt_eocMin hc), if_neg (by simp [hwait])]
      cases h with
      | last _ he =>
        rw [if_pos he]
        refine ⟨_, rfl, fun x hx => ?_, hkeep.mono fun x hx => ?_, hdata⟩
        · rw [mem_singleton.mp hx, hzero]
        · rintro rfl
          exact hx (mem_singleton_self x)
      | @next _ cs hc' ht =>
        have hnd := ((Chain.next hc' ht).links ok).nodup
        have hlt := (ok.lt_eocMin ht.valid_first).2
        have hnot := (nodup_cons.mp hnd).1
        rw [length_cons] at hl hf
        have hf' : cs.length < fuel := by omega
        rcases ih cs.length (by omega) (ht.writeFat ok hc.2 hnot 0).1 hf' rfl with
          ⟨disk', hfree, hcs, hkeep', hdata'⟩
        rw [if_neg (by omega), hfree]
        refine ⟨disk', rfl, fun x hx => ?_, fun x hx hmem => ?_, hdata.trans hdata'⟩
        · cases hx with
          | head => rw [hkeep' c hc.2 hnot, hzero]
          | tail _ hx => exact hcs x hx
        · have hout : x ≠ c ∧ x ∉ cs := not_or.mp fun h => hmem (mem_cons.mpr h)
          rw [hkeep' x hx hout.2, hkeep x hx hout.1]

/-! ### Room in a directory -/

/-- The clusters of a file or directory, which has none before its first byte is written. -/
def FileChain (v : Volume) (disk : Disk) (first : Nat) (cs : List Nat) : Prop :=
  Chain v disk first cs ∨ first = 0 ∧ cs = []

section FileChain

variable {v : Volume} {disk disk' : Disk} {first x : Nat} {cs : List Nat}

theorem FileChain.valid (h : FileChain v disk first cs) (hx : x ∈ cs) : v.Valid x := by
  rcases h with h | ⟨-, rfl⟩
  · exact h.valid hx
  · cases hx

theorem FileChain.ne_zero (h : FileChain v disk first cs) (hx : x ∈ cs) : readFat v.toMount disk x ≠ 0 := by
  rcases h with h | ⟨-, rfl⟩
  · exact h.ne_zero hx
  · cases hx

theorem FileChain.congr (h : FileChain v disk first cs)
    (hf : ∀ x ∈ cs, readFat v.toMount disk' x = readFat v.toMount disk x) : FileChain v disk' first cs :=
  h.imp_left fun h => h.congr hf

theorem FileChain.slots_length (ok : v.Ok) (h : FileChain v disk first cs) :
    (slots v disk cs).length = cs.length * perClus v :=
  Fat32.slots_length ok fun _ hx => h.valid hx

theorem FileChain.sweepChain_eq {σ ρ : Type} {step : Bytes → σ → Sum ρ σ} (ok : v.Ok) (h : FileChain v disk first cs)
    (hcut : ∀ d st, step (cut d) st = step d st) (st : σ) :
    sweepChain v.toMount disk step chainFuel first st = some (sweep step (slots v disk cs) st) := by
  rcases h with h | ⟨rfl, rfl⟩
  · exact h.sweepChain_eq ok hcut st
  · have hf : chainFuel = 2 ^ 28 - 1 + 1 := by decide
    rw [hf, sweepChain, if_neg (by omega)]
    rfl

theorem Changes.slots_eq {P : Nat → Prop} (ok : v.Ok) (h : Changes v P disk disk') (hval : ∀ x ∈ cs, v.Valid x)
    (hP : ∀ x ∈ cs, ∀ a, InClus v x a → ¬ P a) : slots v disk' cs = slots v disk cs :=
  slots_congr fun x hx => ok.view_congr (hval x hx) fun a h1 h2 =>
    h.byte_eq ((clusAddr_ge v x).trans h1) (hP x hx a ⟨h1, h2⟩)

end FileChain

/-- What `dfree` can do for `need` entries in a directory with the clusters `cs`. -/
inductive Room (v : Volume) (need : Nat) (disk : Disk) (first : Nat) (cs : List Nat) :
    Option (Nat × Nat) → Disk → Prop
  | gap {k : Nat} (hg : gapIdx need (slots v disk cs) = some k) :
      Room v need disk first cs (some (uint (32 * k), first)) disk
  | full (hg : gapIdx need (slots v disk cs) = none) (ha : allocClus v disk = none) :
      Room v need disk first cs none disk
  | grown {n first' : Nat} {disk' : Disk} (hg : gapIdx need (slots v disk cs) = none) (hn : v.Valid n)
    (hfree : readFat v.toMount disk n = 0) (hch : Chain v disk' first' (cs ++ [n]))
    (hs : slots v disk' (cs ++ [n]) = slots v disk cs ++ List.replicate (perClus v) fun _ => 0)
    (hfirst : cs ≠ [] → first' = first) (hkeep : KeepsFat v (· ∉ cs ++ [n]) disk disk')
    (hdata : Changes v (InClus v n) disk disk') :
    Room v need disk first cs (some (uint (32 * (slots v disk cs).length), first')) disk'

/-- The loop of `dfree` ends with the first gap or at the end of the directory. -/
theorem FileChain.sweep_visitFree {v : Volume} (ok : v.Ok) {disk : Disk} {first : Nat} {cs : List Nat}
    (h : FileChain v disk first cs) (cnt : Nat) :
    match gapIdx (cnt + 1) (slots v disk cs) with
    | some k => sweepChain v.toMount disk (visitFree (cnt + 1)) chainFuel first ⟨0, 0, 0⟩ = some (.inl (32 * k))
    | none => ∃ n f, sweepChain v.toMount disk (visitFree (cnt + 1)) chainFuel first ⟨0, 0, 0⟩ =
        some (.inr ⟨32 * (slots v disk cs).length, n, f⟩) := by
  have hs := @Fat32.sweep_visitFree (cnt + 1) (slots v disk cs) [] 0 0 (Nat.succ_pos cnt) (forall_mem_nil _) fun h =>
    absurd rfl h
  have hcut : ∀ d g, visitFree (cnt + 1) (cut d) g = visitFree (cnt + 1) d g := fun _ _ => rfl
  rw [nil_append, length_nil, Nat.zero_add] at hs
  rw [h.sweepChain_eq ok hcut]
  cases hg : gapIdx (cnt + 1) (slots v disk cs) with
  | some k =>
    rw [hg] at hs
    rw [hs, Nat.zero_add]
  | none =>
    rw [hg] at hs
    rcases hs with ⟨n, f, hs⟩
    exact ⟨n, f, by rw [hs, Nat.zero_add]⟩

theorem FileChain.dfree_cases (ok : v.Ok) {first : Nat} {r : Option (Nat × Nat)} (h : FileChain v disk first cs)
    (cnt : Nat) (he : dfree v first cnt disk = some (r, disk')) : Room v (cnt + 1) disk first cs r disk' := by
  have hs := h.sweep_visitFree ok cnt
  rw [dfree] at he
  cases hg : gapIdx (cnt + 1) (slots v disk cs) with
  | some k =>
    rw [hg] at hs
    rw [hs] at he
    cases he
    exact .gap hg
  | none =>
    rw [hg] at hs
    rcases hs with ⟨n, f, hs⟩
    rw [hs, Option.bind_some] at he
    dsimp only at he
    cases ha : allocClus v disk with
    | none =>
      rw [ha] at he
      rcases h with h | ⟨rfl, rfl⟩
      · rcases (h.links ok).lastClus_eq (h.links ok).length_lt with ⟨l, t, hl, -⟩
        have := h.valid_first.1
        rw [if_neg (by omega), hl] at he
        cases he
        exact .full hg ha
      · cases he
        exact .full hg ha
    | some p =>
      rcases p with ⟨new, disk1⟩
      rw [ha] at he
      rcases allocClus_eq ha with ⟨hn, hfree, rfl⟩
      have hk := ok.keepsFat_writeFat hn.2 eoc
      have hd := fun disk => ok.changes_writeFat hn.2 eoc disk (InClus v new)
      rcases h with h | ⟨rfl, rfl⟩
      · rcases (h.links ok).lastClus_eq (h.links ok).length_lt with ⟨l, t, hl, rfl⟩
        have hgrow := h.grow ok hn hfree
        have hlv := h.valid (mem_append_right t (mem_singleton_self l))
        have := h.valid_first.1
        rw [if_neg (by omega), hl, Option.bind_some] at he
        dsimp only at he
        split at he
        · cases he
        · cases he
          refine .grown hg hn hfree hgrow.1 hgrow.2 (fun _ => rfl) ?_ ?_
          · intro x hx hmem
            have hxn : x ≠ new := by
              rintro rfl
              exact hmem (by simp)
            have hxl : x ≠ l := by
              rintro rfl
              exact hmem (by simp)
            rw [ok.readFat_fillClus hn hx, hk _ x hx hxn, ok.keepsFat_writeFat hlv.2 new _ x hx hxl, hk _ x hx hxn]
          · exact (((hd _).trans (ok.changes_writeFat hlv.2 new _ _)).trans (hd _)).trans (ok.changes_fillClus hn _ _)
      · rw [if_pos rfl] at he
        dsimp only at he
        split at he
        · cases he
        · cases he
          refine .grown hg hn hfree (.last hn ?_) ?_ (fun he => absurd rfl he) ?_ ?_
          · rw [ok.readFat_fillClus hn hn.2, ok.readFat_writeFat hn.2]
            decide
          · rw [nil_append, slots, flatMap_singleton]
            exact ok.view_fillClus_zero hn _
          · intro x hx hmem
            have hxn : x ≠ new := by
              rintro rfl
              exact hmem (by simp)
            rw [ok.readFat_fillClus hn hx, hk _ x hx hxn, hk _ x hx hxn]
          · exact ((hd _).trans (hd _)).trans (ok.changes_fillClus hn _ _)

/-- `dfree` returns if a gap is found, or if the table can be changed. -/
theorem FileChain.dfree_some (ok : v.Ok) {first : Nat} (h : FileChain v disk first cs) (cnt : Nat)
    (hret : gapIdx (cnt + 1) (slots v disk cs) = none → allocClus v disk ≠ none → TablesApart v) :
    ∃ r disk', dfree v first cnt disk = some (r, disk') := by
  have hs := h.sweep_visitFree ok cnt
  rw [dfree]
  cases hg : gapIdx (cnt + 1) (slots v disk cs) with
  | some k =>
    rw [hg] at hs
    rw [hs]
    exact ⟨_, _, rfl⟩
  | none =>
    rw [hg] at hs
    rcases hs with ⟨n, f, hs⟩
    rw [hs, Option.bind_some]
    dsimp only
    have hfirst : first = 0 ∨ ∃ l, lastClus v.toMount disk chainFuel first = some l ∧ v.Valid l := by
      rcases h with h | ⟨h0, -⟩
      · rcases (h.links ok).lastClus_eq (h.links ok).length_lt with ⟨l, t, hl, rfl⟩
        exact .inr ⟨l, hl, h.valid (mem_append_right t (mem_singleton_self l))⟩
      · exact .inl h0
    cases ha : allocClus v disk with
    | none =>
      split
      · exact ⟨_, _, rfl⟩
      · rename_i h0
        rcases hfirst.resolve_left h0 with ⟨l, hl, -⟩
        rw [hl]
        exact ⟨_, _, rfl⟩
    | some p =>
      rcases p with ⟨new, disk1⟩
      have hwait : ∀ {x}, v.Valid x → fatWaits v x = false := fun hx =>
        (ok.fatWaits_iff hx.2).mpr (hret hg (by rw [ha]; nofun))
      have hn := hwait (allocClus_eq ha).1
      split
      · dsimp only
        rw [if_neg (by simp [hn])]
        exact ⟨_, _, rfl⟩
      · rename_i h0
        rcases hfirst.resolve_left h0 with ⟨l, hl, hlv⟩
        rw [hl, Option.bind_some]
        dsimp only
        rw [if_neg (by simp [hn, hwait hlv])]
        exact ⟨_, _, rfl⟩

theorem Chain.dfree_eq (ok : v.Ok) {cnt off first : Nat} (h : Chain v disk c cs)
    (he : dfree v c cnt disk = some (some (off, first), disk')) :
    first = c ∧ off = uint (32 * gapAt (cnt + 1) (slots v disk cs)) ∧
      ∃ cs', (∃ t, cs' = cs ++ t) ∧ Chain v disk' c cs' ∧ slots v disk' cs' = withRoom v (cnt + 1) (slots v disk cs) ∧
        ∀ x, readFat v.toMount disk x ≠ 0 → x ∉ cs → x ∉ cs' := by
  cases FileChain.dfree_cases ok (.inl h) cnt he with
  | gap hg => exact ⟨rfl, by rw [gapAt, hg]; rfl, cs, ⟨[], (append_nil cs).symm⟩, h, by rw [withRoom, hg]; simp,
      fun x _ hx => hx⟩
  | @grown n _ _ hg _ hfree hch hs hfirst _ _ =>
    rcases h.head with ⟨t, rfl⟩
    cases hfirst (cons_ne_nil c t)
    refine ⟨rfl, by rw [gapAt, hg]; rfl, _, ⟨_, rfl⟩, hch, by rw [withRoom, hg]; exact hs, fun x hx hmem hx' => ?_⟩
    rcases mem_append.mp hx' with hx' | hx'
    · exact hmem hx'
    · rw [mem_singleton] at hx'
      exact hx (hx' ▸ hfree)

end Xv6Vfs.Fat32
