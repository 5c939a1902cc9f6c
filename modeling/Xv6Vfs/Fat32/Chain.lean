import Mathlib.Data.List.Perm.Subperm
import Xv6Vfs.Fat32.Layout

/-! Directories as chains of clusters: the loops of the driver as functions of the list of slots. -/
namespace Xv6Vfs.Fat32
open Xv6Vfs.Bytes Xv6Vfs.Vfs List

variable {fuel : Nat}

/-- `c` is the number of a cluster: the loops over a chain go on with it. -/
def InChain (c : Nat) : Prop := 2 ≤ c ∧ c < eocMin

/-- A chain from `c` on that ends with an end mark, and its clusters. -/
inductive Links (fm : Mount) (disk : Disk) : Nat → List Nat → Prop
  | last {c : Nat} (hc : InChain c) (he : eocMin ≤ readFat fm disk c) : Links fm disk c [c]
  | next {c : Nat} {cs : List Nat} (hc : InChain c) (ht : Links fm disk (readFat fm disk c) cs) :
    Links fm disk c (c :: cs)

theorem length_lt_eocMin {zs : List Nat} (hnd : zs.Nodup) (h : ∀ a ∈ zs, InChain a) : zs.length + 2 ≤ eocMin := by
  have hsub : zs ⊆ List.range' 2 (eocMin - 2) := fun a ha => by
    have hr := h a ha
    rw [mem_range'_1]
    exact ⟨hr.1, by have := hr.2; omega⟩
  have hle := (subperm_of_subset hnd hsub).length_le
  rw [length_range'] at hle
  have : 2 ≤ eocMin := by decide
  omega

section Links

variable {fm : Mount} {disk : Disk} {c x fuel : Nat} {cs cs' : List Nat}

section

variable (h : Links fm disk c cs)
include h

theorem Links.head : InChain c ∧ c ∈ cs := by
  cases h with
  | last hc he => exact ⟨hc, mem_cons_self⟩
  | next hc ht => exact ⟨hc, mem_cons_self⟩

theorem Links.suffix (hx : x ∈ cs) : ∃ cs', Links fm disk x cs' ∧ cs' <:+ cs := by
  induction h with
  | last hc he =>
    rw [mem_singleton] at hx
    subst hx
    exact ⟨_, .last hc he, suffix_refl _⟩
  | @next c cs hc ht ih =>
    cases hx with
    | head => exact ⟨_, .next hc ht, suffix_refl _⟩
    | tail _ hx =>
      rcases ih hx with ⟨cs', h', hs⟩
      exact ⟨cs', h', hs.trans (suffix_cons c cs)⟩

theorem Links.unique (h' : Links fm disk c cs') : cs = cs' := by
  induction h generalizing cs' with
  | last hc he =>
    cases h' with
    | last => rfl
    | next _ ht => exact absurd ht.head.1.2 (Nat.not_lt.mpr he)
  | next hc ht ih =>
    cases h' with
    | last _ he => exact absurd ht.head.1.2 (Nat.not_lt.mpr he)
    | next _ ht' => rw [ih ht']

theorem Links.nodup : cs.Nodup := by
  induction h with
  | last hc he => exact nodup_singleton _
  | @next c cs hc ht ih =>
    apply nodup_cons.mpr ⟨?_, ih⟩
    -- the rest of the chain would contain the whole of it
    intro hmem
    rcases ht.suffix hmem with ⟨cs', h', hs⟩
    have heq := h'.unique (.next hc ht)
    have hle := hs.length_le
    rw [heq, length_cons] at hle
    omega

theorem Links.length_lt : cs.length < chainFuel := by
  have hlen := length_lt_eocMin h.nodup fun x hx => by
    rcases h.suffix hx with ⟨cs', h', -⟩
    exact h'.head.1
  rw [eocMin] at hlen
  rw [chainFuel]
  omega

theorem Links.lastClus_eq (hf : cs.length < fuel) : ∃ l t, lastClus fm disk fuel c = some l ∧ cs = t ++ [l] := by
  induction h generalizing fuel with
  | @last c hc he =>
    cases fuel with
    | zero => omega
    | succ fuel => exact ⟨c, [], by rw [lastClus, if_pos ⟨hc.1, hc.2⟩, if_pos he], rfl⟩
  | @next c cs hc ht ih =>
    cases fuel with
    | zero => omega
    | succ fuel =>
      rcases ih (Nat.lt_of_succ_lt_succ hf) with ⟨l, t, hl, rfl⟩
      refine ⟨l, c :: t, ?_, rfl⟩
      rwa [lastClus, if_pos ⟨hc.1, hc.2⟩, if_neg (Nat.not_le.mpr ht.head.1.2)]

theorem Links.clusAt_eq (q : Nat) : clusAt fm disk q c = cs[q]? := by
  induction h generalizing q with
  | last hc he =>
    cases q with
    | zero => rfl
    | succ q => rw [clusAt, if_pos he]; rfl
  | next hc ht ih =>
    cases q with
    | zero => rfl
    | succ q =>
      rw [clusAt, if_neg (Nat.not_le.mpr ht.head.1.2), ih]
      rfl

end

end Links

/-- A chain of clusters of the volume from `c` on that ends with an end mark. -/
inductive Chain (v : Volume) (disk : Disk) : Nat → List Nat → Prop
  | last {c : Nat} (hc : v.Valid c) (he : eocMin ≤ readFat v.toMount disk c) : Chain v disk c [c]
  | next {c : Nat} {cs : List Nat} (hc : v.Valid c) (ht : Chain v disk (readFat v.toMount disk c) cs) :
    Chain v disk c (c :: cs)

section Chain

variable {v : Volume} {disk disk' : Disk} {c x : Nat} {cs cs' : List Nat}

section

variable (h : Chain v disk c cs)
include h

theorem Chain.head : ∃ t, cs = c :: t := by
  cases h with
  | last => exact ⟨[], rfl⟩
  | next _ _ => exact ⟨_, rfl⟩

theorem Chain.valid (hx : x ∈ cs) : v.Valid x := by
  induction h with
  | last hc _ =>
    rw [mem_singleton] at hx
    exact hx ▸ hc
  | next hc _ ih =>
    cases hx with
    | head => exact hc
    | tail _ hx => exact ih hx

theorem Chain.valid_first : v.Valid c := by
  rcases h.head with ⟨t, rfl⟩
  exact h.valid mem_cons_self

theorem Chain.congr (hf : ∀ x ∈ cs, readFat v.toMount disk' x = readFat v.toMount disk x) : Chain v disk' c cs := by
  induction h with
  | last hc he => exact .last hc (by rwa [hf _ mem_cons_self])
  | next hc ht ih =>
    apply Chain.next hc
    rw [hf _ mem_cons_self]
    exact ih fun x hx => hf x (mem_cons_of_mem _ hx)

theorem Chain.ne_zero (hx : x ∈ cs) : readFat v.toMount disk x ≠ 0 := by
  induction h with
  | last hc he =>
    rw [mem_singleton] at hx
    rw [eocMin] at he
    rw [hx]
    omega
  | next hc ht ih =>
    cases hx with
    | head =>
      have := ht.valid_first.1
      omega
    | tail _ hx => exact ih hx

end

section Ok

variable (ok : v.Ok)
include ok

theorem Chain.links (h : Chain v disk c cs) : Links v.toMount disk c cs := by
  induction h with
  | last hc he => exact .last (ok.lt_eocMin hc) he
  | next hc ht ih => exact .next (ok.lt_eocMin hc) ih

theorem Chain.unique (h : Chain v disk c cs) (h' : Chain v disk c cs') : cs = cs' :=
  (h.links ok).unique (h'.links ok)

end Ok

theorem Chain.snoc {t : List Nat} {l n : Nat} (h : Chain v disk c (t ++ [l])) (hn : v.Valid n)
    (hold : ∀ x ∈ t, readFat v.toMount disk' x = readFat v.toMount disk x) (hl : readFat v.toMount disk' l = n)
    (he : eocMin ≤ readFat v.toMount disk' n) : Chain v disk' c (t ++ [l] ++ [n]) := by
  induction t generalizing c with
  | nil =>
    cases h with
    | last hc _ => exact .next hc (by rw [hl]; exact .last hn he)
    | next _ ht => cases ht
  | cons a t ih =>
    rw [cons_append] at h
    generalize hts : t ++ [l] = ts at h
    cases h with
    | last _ _ => exact absurd hts (append_ne_nil_of_right_ne_nil t (cons_ne_nil l []))
    | next hc ht =>
      subst hts
      apply Chain.next hc
      rw [hold a mem_cons_self]
      exact ih ht fun x hx => hold x (mem_cons_of_mem a hx)

end Chain

/-! ### Fields of a slot -/

section Fields

variable (d : Bytes)

theorem cut_zero : cut d 0 = d 0 := rfl

theorem cut_cut : cut (cut d) = cut d := cut_congr fun _ hi => cut_apply hi

theorem dirAttr_cut : dirAttr (cut d) = dirAttr d := rfl

theorem lfnSeq_cut : lfnSeq (cut d) = lfnSeq d := rfl

theorem dirName_cut : dirName (cut d) = dirName d :=
  map_congr_left fun i hi => cut_apply (by have := mem_range.mp hi; omega)

theorem lfnUnits_cut : lfnUnits (cut d) = lfnUnits d := by
  have hu : ∀ o, o + 2 ≤ 32 → u16 (cut d) o = u16 d o := fun o ho =>
    u16_congr fun j _ hj => cut_apply (by omega)
  have hm : ∀ n b, b + 2 * n ≤ 32 →
      (List.range n).map (fun i => u16 (cut d) (b + 2 * i)) = (List.range n).map fun i => u16 d (b + 2 * i) :=
    fun n b hb => map_congr_left fun i hi => hu _ (by have := mem_range.mp hi; omega)
  rw [lfnUnits, lfnUnits, hm 5 1 (by omega), hm 6 14 (by omega), hm 2 28 (by omega)]

theorem fstClus_cut : fstClus (cut d) = fstClus d := rfl

theorem visit_cut (nm : Name) (st : Lfn) : visit nm (cut d) st = visit nm d st := by
  have hlfn : visitLfn (cut d) st = visitLfn d st := by
    rw [visitLfn, visitLfn, lfnUnits_cut]
    rfl
  have hlong : longMatches nm (cut d) st = longMatches nm d st := by rw [longMatches, longMatches, dirName_cut]
  rw [visit, visit, hlfn, hlong, dirName_cut]
  rfl

end Fields

/-! ### Loops over a chain -/

/-- The slots of a chain, as the loops see them. -/
def rawSlots (v : Volume) (disk : Disk) (cs : List Nat) : List Bytes := cs.flatMap (clusterSlots v.toMount disk)

/-- The slots of a chain, 32 bytes each. -/
def slots (v : Volume) (disk : Disk) (cs : List Nat) : List Bytes := cs.flatMap (view v disk)

theorem slots_eq (v : Volume) (disk : Disk) (cs : List Nat) : slots v disk cs = (rawSlots v disk cs).map cut := by
  rw [slots, rawSlots, map_flatMap]
  rfl

section Sweep

variable {σ ρ : Type} {step : Bytes → σ → Sum ρ σ}

theorem sweep_append (l l' : List Bytes) (st : σ) : sweep step (l ++ l') st =
    match sweep step l st with
    | .inl r => .inl r
    | .inr st => sweep step l' st := by
  induction l generalizing st with
  | nil => rfl
  | cons d l ih =>
    rw [cons_append, sweep, sweep]
    cases step d st with
    | inl r => rfl
    | inr st => exact ih st

theorem sweep_cut (h : ∀ d st, step (cut d) st = step d st) (l : List Bytes) (st : σ) :
    sweep step (l.map cut) st = sweep step l st := by
  induction l generalizing st with
  | nil => rfl
  | cons d l ih =>
    rw [map_cons, sweep, sweep, h]
    cases step d st with
    | inl r => rfl
    | inr st => exact ih st

variable {v : Volume} {disk : Disk} {c : Nat} {cs : List Nat}

theorem Links.sweep_eq (h : Links v.toMount disk c cs) (hf : cs.length < fuel) (st : σ) :
    sweepChain v.toMount disk step fuel c st = some (sweep step (rawSlots v disk cs) st) := by
  induction h generalizing fuel st with
  | @last c hc he =>
    cases fuel with
    | zero => omega
    | succ fuel =>
      cases fuel with
      | zero => simp at hf
      | succ fuel =>
        rw [sweepChain, if_pos ⟨hc.1, hc.2⟩, rawSlots, flatMap_singleton]
        cases sweep step (clusterSlots v.toMount disk c) st with
        | inl r => rfl
        | inr st =>
          dsimp only
          rw [sweepChain, if_neg (by omega)]
  | @next c cs hc ht ih =>
    cases fuel with
    | zero => omega
    | succ fuel =>
      rw [length_cons] at hf
      rw [sweepChain, if_pos ⟨hc.1, hc.2⟩, rawSlots, flatMap_cons, sweep_append]
      cases sweep step (clusterSlots v.toMount disk c) st with
      | inl r => rfl
      | inr st => exact ih (by omega) st

theorem Chain.sweepChain_eq (ok : v.Ok) (h : Chain v disk c cs) (hcut : ∀ d st, step (cut d) st = step d st) (st : σ) :
    sweepChain v.toMount disk step chainFuel c st = some (sweep step (slots v disk cs) st) := by
  rw [(h.links ok).sweep_eq (h.links ok).length_lt, slots_eq, sweep_cut hcut]

end Sweep

/-- The entry found, without what lies behind its slot. -/
def cutEntry (r : Option (Bytes × Nat)) : Option (Bytes × Nat) := r.map fun p => (cut p.1, p.2)

theorem scan_cut (nm : Name) (l : List Bytes) (pos : Nat) (st : Lfn) :
    scan nm (l.map cut) pos st = (scan nm l pos st).map (Sum.map cutEntry id) := by
  induction l generalizing pos st with
  | nil => rfl
  | cons d l ih =>
    rw [map_cons, scan, scan, visit_cut]
    cases visit nm d st with
    | none => rfl
    | some r =>
      cases r with
      | found => rfl
      | stop => rfl
      | next st => exact ih _ st

section Search

variable {v : Volume} {disk : Disk} {c : Nat} {cs : List Nat}

theorem Links.dlookupFrom_eq (h : Links v.toMount disk c cs) (hf : cs.length < fuel) (nm : Name) (pos : Nat)
    (st : Lfn) : dlookupFrom v.toMount disk nm fuel c pos st = (scan nm (rawSlots v disk cs) pos st).map outcome := by
  induction h generalizing fuel pos st with
  | @last c hc he =>
    cases fuel with
    | zero => omega
    | succ fuel =>
      cases fuel with
      | zero => simp at hf
      | succ fuel =>
        rw [dlookupFrom, if_pos ⟨hc.1, hc.2⟩, rawSlots, flatMap_singleton]
        cases scan nm (clusterSlots v.toMount disk c) pos st with
        | none => rfl
        | some r =>
          cases r with
          | inl e => rfl
          | inr st =>
            dsimp only [Option.bind_some]
            rw [dlookupFrom, if_neg (by omega)]
            rfl
  | @next c cs hc ht ih =>
    cases fuel with
    | zero => omega
    | succ fuel =>
      rw [length_cons] at hf
      rw [dlookupFrom, if_pos ⟨hc.1, hc.2⟩, rawSlots, flatMap_cons, scan_append]
      cases scan nm (clusterSlots v.toMount disk c) pos st with
      | none => rfl
      | some r =>
        cases r with
        | inl e => rfl
        | inr st => exact ih (by omega) _ st

theorem Chain.dlookup_eq (ok : v.Ok) (h : Chain v disk c cs) {attrs : UInt8} (hd : attrs &&& attrDirectory ≠ 0)
    (nm : Name) (junk : Nat → Nat) :
    (dlookup v.toMount disk ⟨c, attrs⟩ nm junk chainFuel).map cutEntry =
      (scan nm (slots v disk cs) 0 ⟨junk, 0, 0, false, 0⟩).map outcome := by
  rw [dlookup, if_neg hd, (h.links ok).dlookupFrom_eq (h.links ok).length_lt, slots_eq, scan_cut, Option.map_map,
    Option.map_map]
  congr 1
  funext r
  cases r with
  | inl e => rfl
  | inr st => rfl

end Search

end Xv6Vfs.Fat32
