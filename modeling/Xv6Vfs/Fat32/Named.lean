import Mathlib.Data.List.Infix
import Xv6Vfs.Fat32.Lookup

/-! The entries of a FAT32 directory, and which of them a search returns. -/
namespace Xv6Vfs.Fat32
open Xv6Vfs.Vfs List Option

variable {st : Lfn} {d : Bytes} {nm : Name} {pos : Nat} {fm : Mount} {disk : Disk} {items : List Item}

/-! ### Entries -/

/-- A used slot of a long name; numbers start at 1. -/
def isLfn (d : Bytes) : Bool := d 0 ≠ 0 ∧ d 0 ≠ 0xE5 ∧ dirAttr d = attrLongName ∧ lfnSeq d ≠ 0

def isShort (d : Bytes) : Bool := d 0 ≠ 0 ∧ d 0 ≠ 0xE5 ∧ dirAttr d ≠ attrLongName

/-- Slots numbered down to 1 that carry the checksum `c`. -/
def numbered (c : UInt8) : List Bytes → Bool
  | [] => true
  | r :: rs => lfnSeq r = rs.length + 1 && !lfnLast r && lfnCksum r = c && numbered c rs

/-- The slots hold a whole long name for the entry `d`. -/
def complete (d : Bytes) : List Bytes → Bool
  | [] => false
  | r :: rs =>
    lfnSeq r = rs.length + 1 && lfnLast r && lfnCksum r = lfnChecksum (dirName d) && rs.length < 20 &&
      numbered (lfnChecksum (dirName d)) rs

/-- The slots hold a whole long name with the checksum `c`, of any length. -/
def whole (c : UInt8) : List Bytes → Bool
  | [] => false
  | r :: rs => lfnSeq r = rs.length + 1 && lfnLast r && lfnCksum r = c && numbered c rs

/-- Slots that carry the checksum `c` and are numbered down from `n`. -/
def follows (c : UInt8) : (n : Nat) → List Bytes → Bool
  | _, [] => true
  | n, r :: rs => !lfnLast r && lfnCksum r = c && lfnSeq r = n && follows c (n - 1) rs

/-- The slots begin a long name with the checksum `c`, of which slots may be missing at the end. -/
def started (c : UInt8) : List Bytes → Bool
  | [] => false
  | r :: rs => lfnLast r && lfnCksum r = c && follows c (lfnSeq r - 1) rs

/-- An entry with the slots of long names in front of it. The first slot of a name starts anew, so what stands in
front of the entry's own name does not matter; but a name with the checksum of the entry is not left unfinished. A
deleted slot also ends such slots. -/
structure Item where
  run : List Bytes
  slot : Bytes
  lfn : ∀ r ∈ run, isLfn r
  closes : slot 0 = 0xE5 ∨ isShort slot ∧
    ∀ s, s <:+ run → started (lfnChecksum (dirName slot)) s → complete slot s

/-- The characters in front of the end mark or the padding. -/
def nameUnits (units : List Nat) : List Nat := units.takeWhile fun u => u ≠ 0 ∧ u ≠ 0xFFFF

/-- The long name directly in front of the entry. -/
def Item.long (e : Item) : Option (List Nat) :=
  (e.run.tails.find? (complete e.slot)).map fun s => nameUnits (s.reverse.flatMap lfnUnits)

/-- A file has the name `nm`: its long name, or its short name as it is printed. -/
def Item.HasName (e : Item) (nm : Name) : Prop :=
  (∃ b : Name, e.long = some (b.map UInt8.toNat) ∧ SameName b nm) ∨ SameName (render83 (dirName e.slot)) nm

/-- What the driver keeps of a long name. -/
def asciiName (units : List Nat) : Name := ((units.filter (· < 128)).take 255).map UInt8.ofNat

/-- A file answers to `nm`: the name cut down to 11 bytes is its short name, or the ASCII characters
of its long name are `nm`, or it begins as the entry for "." or ".." does. -/
def Item.looks (e : Item) (nm : Name) : Bool :=
  isShort e.slot &&
    (e.long.any (fun u => SameName nm (asciiName u)) || dotMatches nm e.slot || name83 nm = dirName e.slot)

/-- The slots of a directory: entries, then perhaps an end mark with anything behind it. -/
structure Dir where
  items : List Item
  orphans : List Bytes
  rest : List Bytes
  lfn : ∀ r ∈ orphans, isLfn r
  ends : ∀ d ∈ rest.head?, d 0 = 0

def Item.slots (e : Item) : List Bytes := e.run ++ [e.slot]

def Dir.slots (dir : Dir) : List Bytes := dir.items.flatMap Item.slots ++ (dir.orphans ++ dir.rest)

/-- Offset of entry number `i`. -/
def offset (items : List Item) (i : Nat) : Nat :=
  32 * (((items.take i).flatMap Item.slots).length + (items[i]?.elim 0 fun e => e.run.length))

/-- The cluster chain from `c` on ends and has the slots `l`. -/
inductive Content (fm : Mount) (disk : Disk) : Nat → List Bytes → Prop
  | done {c : Nat} (h : ¬(2 ≤ c ∧ c < eocMin)) : Content fm disk c []
  | clus {c : Nat} {l : List Bytes} (h : 2 ≤ c ∧ c < eocMin) (ht : Content fm disk (readFat fm disk c) l) :
    Content fm disk c (clusterSlots fm disk c ++ l)

/-! ### The search over the slots of a chain -/

/-- How a search ends that meets `r` at the end of the chain. -/
def outcome : Sum (Option (Bytes × Nat)) Lfn → Option (Bytes × Nat)
  | .inl e => e
  | .inr _ => none

theorem scan_append (nm : Name) (l l' : List Bytes) (pos : Nat) (st : Lfn) :
    scan nm (l ++ l') pos st = (scan nm l pos st).bind fun r =>
      match r with
      | .inl e => some (.inl e)
      | .inr st => scan nm l' (pos + 32 * l.length) st := by
  induction l generalizing pos st with
  | nil => simp [scan]
  | cons d l ih =>
    have hpos : pos + 32 * (l.length + 1) = pos + 32 + 32 * l.length := by omega
    rw [cons_append, scan, scan, length_cons, hpos]
    cases visit nm d st with
    | none => rfl
    | some v =>
      cases v with
      | found => rfl
      | stop => rfl
      | next st => exact ih _ _

/-- The loop over clusters is one scan of the chain, if there is fuel for the whole chain. -/
theorem dlookupFrom_scan {fm : Mount} {disk : Disk} {nm : Name} {c : Nat} {l : List Bytes}
    (h : Content fm disk c l) : ∃ n, ∀ fuel pos st,
      n ≤ fuel → dlookupFrom fm disk nm fuel c pos st = (scan nm l pos st).map outcome := by
  induction h with
  | done h =>
    refine ⟨1, fun fuel pos st hf => ?_⟩
    cases fuel with
    | zero => omega
    | succ fuel => rw [dlookupFrom, if_neg h]; rfl
  | @clus c l h _ ih =>
    rcases ih with ⟨n, ih⟩
    refine ⟨n + 1, fun fuel pos st hf => ?_⟩
    cases fuel with
    | zero => omega
    | succ fuel =>
      rw [dlookupFrom, if_pos h, scan_append]
      cases scan nm (clusterSlots fm disk c) pos st with
      | none => rfl
      | some r =>
        cases r with
        | inl e => rfl
        | inr st => exact ih fuel _ st (by omega)

theorem dlookupFrom_mono {fuel fuel' c : Nat} {r : Option (Bytes × Nat)} (hf : fuel ≤ fuel')
    (h : dlookupFrom fm disk nm fuel c pos st = some r) : dlookupFrom fm disk nm fuel' c pos st = some r := by
  induction fuel generalizing fuel' c pos st with
  | zero => cases h
  | succ fuel ih =>
    cases fuel' with
    | zero => omega
    | succ fuel' =>
      rw [dlookupFrom] at h ⊢
      by_cases hc : 2 ≤ c ∧ c < eocMin
      · rw [if_pos hc] at h ⊢
        cases hs : scan nm (clusterSlots fm disk c) pos st with
        | none => rw [hs] at h; cases h
        | some v =>
          rw [hs] at h
          cases v with
          | inl e => exact h
          | inr st => exact ih (by omega) h
      · rw [if_neg hc] at h ⊢
        exact h

/-! ### The slots of a long name -/

/-- The slots of long names in front of an entry. -/
def visitRun : List Bytes → Lfn → Option Lfn
  | [], st => some st
  | d :: ds, st => (visitLfn d st).bind (visitRun ds)

theorem visit_lfn (h : isLfn d) : visit nm d st = (visitLfn d st).map .next := by
  simp only [isLfn, decide_eq_true_eq] at h
  rw [visit, if_neg h.1, if_neg h.2.1, if_pos h.2.2.1]

theorem scan_run {nm : Name} {run l : List Bytes} {pos : Nat} {st : Lfn} (h : ∀ r ∈ run, isLfn r) :
    scan nm (run ++ l) pos st = (visitRun run st).bind (scan nm l (pos + 32 * run.length)) := by
  induction run generalizing pos st with
  | nil => rfl
  | cons d run ih =>
    have hpos : pos + 32 * (run.length + 1) = pos + 32 + 32 * run.length := by omega
    have ih := fun st => @ih (pos + 32) st fun r hr => h r (mem_cons_of_mem d hr)
    rw [cons_append, scan, visit_lfn (h d mem_cons_self), visitRun, length_cons, hpos]
    cases visitLfn d st with
    | none => rfl
    | some st => exact ih st

theorem visitRun_append (run run' : List Bytes) (st : Lfn) :
    visitRun (run ++ run') st = (visitRun run st).bind (visitRun run') := by
  induction run generalizing st with
  | nil => rfl
  | cons d run ih =>
    rw [cons_append, visitRun, visitRun]
    cases visitLfn d st with
    | none => rfl
    | some st' => exact ih st'

theorem visitRun_some {run : List Bytes} (h : ∀ r ∈ run, isLfn r) (st : Lfn) : ∃ st', visitRun run st = some st' := by
  induction run generalizing st with
  | nil => exact ⟨st, rfl⟩
  | cons d run ih =>
    have hd : lfnSeq d ≠ 0 := by
      have := h d mem_cons_self
      simp only [isLfn, decide_eq_true_eq] at this
      exact this.2.2.2
    have hv : ∃ st1, visitLfn d st = some st1 := by
      simp only [visitLfn, if_neg hd]
      split
      · exact ⟨_, rfl⟩
      · split
        · exact ⟨_, rfl⟩
        · exact ⟨_, rfl⟩
    rcases hv with ⟨st1, he⟩
    rw [visitRun, he]
    exact ih (fun r hr => h r (mem_cons_of_mem d hr)) st1

theorem follows_snoc (c : UInt8) (n : Nat) (rs : List Bytes) (d : Bytes) : follows c n (rs ++ [d]) =
    (follows c n rs && (!lfnLast d && lfnCksum d = c && lfnSeq d = n - rs.length)) := by
  induction rs generalizing n with
  | nil => simp [follows]
  | cons r rs ih =>
    have hn : n - 1 - rs.length = n - (rs.length + 1) := by omega
    simp only [cons_append, follows, ih, length_cons, hn, Bool.and_assoc]

/-- If a long name with the checksum `c` is being collected behind the slots `p`, they end with its first slots. -/
def Collecting (c : UInt8) (p : List Bytes) (st : Lfn) : Prop :=
  st.active → st.cksum = c → ∃ r rs, r :: rs <:+ p ∧ (∀ x ∈ r :: rs, isLfn x) ∧ started c (r :: rs) ∧
    st.next = lfnSeq r - (rs.length + 1)

theorem visitLfn_collecting {c : UInt8} {p : List Bytes} {st' : Lfn} (h : Collecting c p st)
    (hd : d 0 ≠ 0 ∧ d 0 ≠ 0xE5 ∧ dirAttr d = attrLongName) (hv : visitLfn d st = some st') :
    Collecting c (p ++ [d]) st' := by
  have hlfn : lfnSeq d ≠ 0 → ∀ x ∈ [d], isLfn x := fun h0 x hx => by
    rw [mem_singleton.mp hx, isLfn, decide_eq_true_eq]
    exact ⟨hd.1, hd.2.1, hd.2.2, h0⟩
  rw [visitLfn] at hv
  by_cases hlast : lfnLast d = true
  · -- the slot starts a name
    rw [if_pos hlast] at hv
    split at hv
    · cases hv
    case isFalse h0 =>
      cases hv
      exact fun _ hc => ⟨d, [], suffix_append p [d], hlfn h0, by simpa [started, follows, hlast] using hc, rfl⟩
  · rw [if_neg hlast] at hv
    split at hv
    · rename_i hcont
      split at hv
      · cases hv
      case isFalse h0 =>
        cases hv
        intro ha hc
        dsimp only at ha hc
        rcases h ha hc with ⟨r, rs, hsuf, hl, hst, hnext⟩
        refine ⟨r, rs ++ [d], ?_, forall_mem_append.mpr ⟨hl, hlfn h0⟩, ?_, ?_⟩
        · rcases hsuf with ⟨t, rfl⟩
          exact ⟨t, by simp⟩
        · have hseq : lfnSeq d = lfnSeq r - 1 - rs.length := by rw [hcont.2.2, hnext]; omega
          rw [started, Bool.and_eq_true] at hst
          rw [started, follows_snoc, hst.2, hst.1]
          simp [hlast, hcont.2.1, hc, hseq]
        · dsimp only
          rw [hnext, length_append, length_singleton]
          omega
    · cases hv
      exact nofun

/-- Any other slot ends what is being collected. -/
theorem scan_collecting {c : UInt8} {p l : List Bytes} {st' : Lfn} (h : Collecting c p st)
    (hs : scan nm l pos st = some (.inr st')) : Collecting c (p ++ l) st' := by
  induction l generalizing p pos st with
  | nil =>
    cases hs
    rwa [append_nil]
  | cons d l ih =>
    rcases bind_eq_some_iff.mp hs with ⟨v, hv, hs⟩
    cases v with
    | found => cases hs
    | stop => cases hs
    | next st1 =>
      rw [append_cons]
      refine ih ?_ hs
      rw [visit] at hv
      split at hv
      · cases hv
      case isFalse h0 =>
        split at hv
        · cases hv
          exact nofun
        case isFalse h5 =>
          split at hv
          case isTrue ha =>
            rcases map_eq_some_iff.mp hv with ⟨st2, h2, he⟩
            cases he
            exact visitLfn_collecting h ⟨h0, h5, ha⟩ h2
          case isFalse =>
            split at hv
            · cases hv
            · cases hv
              exact nofun

theorem lfnUnits_length (d : Bytes) : (lfnUnits d).length = 13 := by
  simp [lfnUnits]

theorem units_length (run : List Bytes) : (run.flatMap lfnUnits).length = 13 * run.length := by
  induction run with
  | nil => rfl
  | cons d run ih => simp [ih, lfnUnits_length]; omega

theorem units_reverse_length (run : List Bytes) : (run.reverse.flatMap lfnUnits).length = 13 * run.length := by
  rw [units_length, length_reverse]

theorem putUnits_eq {buf : Nat → Nat} {base i : Nat} {units : List Nat} (h : i < 260) :
    putUnits buf base units i = if i < base then buf i else (units[i - base]?).getD (buf i) := by
  unfold putUnits
  by_cases h1 : i < base
  · rw [if_pos h1, if_neg (by omega)]
  · rw [if_neg h1]
    by_cases h2 : i - base < units.length
    · rw [if_pos (by omega), getD_eq_getElem?_getD, getElem?_eq_getElem h2]
      rfl
    · rw [if_neg (by omega), getElem?_eq_none (by omega)]
      rfl

/-- The slots that follow the first one of a long name are taken as long as their numbers go down. -/
theorem visitRun_follows {c : UInt8} {run : List Bytes} {st : Lfn} (h : follows c st.next run)
    (hlfn : ∀ r ∈ run, isLfn r) (ha : st.active) (hc : st.cksum = c) :
    ∃ st', visitRun run st = some st' ∧ st'.active ∧ st'.cksum = c ∧ st'.chars = st.chars := by
  induction run generalizing st with
  | nil => exact ⟨st, rfl, ha, hc, rfl⟩
  | cons d run ih =>
    simp only [follows, Bool.and_eq_true, decide_eq_true_eq, Bool.not_eq_true'] at h
    rcases h with ⟨⟨⟨hlast, hck⟩, hseq⟩, hrun⟩
    have hd := hlfn d mem_cons_self
    simp only [isLfn, decide_eq_true_eq] at hd
    have hv : visitLfn d st = some
        { st with buf := putUnits st.buf ((lfnSeq d - 1) * 13) (lfnUnits d), next := st.next - 1 } := by
      rw [visitLfn, hlast, if_neg Bool.false_ne_true, if_pos ⟨ha, hck.trans hc.symm, hseq⟩, if_neg hd.2.2.2]
    rw [visitRun, hv]
    exact ih hrun (fun r hr => hlfn r (mem_cons_of_mem d hr)) ha hc

/-- They fill the buffer below it. -/
theorem visitRun_numbered {c : UInt8} {run : List Bytes} {st : Lfn} (h : numbered c run) (ha : st.active)
    (hc : st.cksum = c) (hn : st.next = run.length) :
    ∃ st', visitRun run st = some st' ∧ st'.active ∧ st'.cksum = c ∧ st'.chars = st.chars ∧
      ∀ i < 260, st'.buf i = ((run.reverse.flatMap lfnUnits)[i]?).getD (st.buf i) := by
  induction run generalizing st with
  | nil => exact ⟨st, rfl, ha, hc, rfl, fun i _ => by simp⟩
  | cons d run ih =>
    simp only [numbered, Bool.and_eq_true, decide_eq_true_eq, Bool.not_eq_true'] at h
    rcases h with ⟨⟨⟨hseq, hlast⟩, hck⟩, hrun⟩
    have hn' : st.next = run.length + 1 := hn
    have hv : visitLfn d st = some
        { st with buf := putUnits st.buf (run.length * 13) (lfnUnits d), next := run.length } := by
      simp [visitLfn, hlast, ha, hck, hc, hseq, hn']
    rcases @ih { st with buf := _, next := run.length } hrun ha hc rfl with ⟨st', he, hact, hck', hch, hbuf⟩
    refine ⟨st', by rw [visitRun, hv]; exact he, hact, hck', hch, fun i h260 => ?_⟩
    have hA := units_reverse_length run
    dsimp only at hbuf
    rw [hbuf i h260, reverse_cons, flatMap_append, getElem?_append, hA, putUnits_eq h260]
    by_cases hi : i < 13 * run.length
    · rw [if_pos hi, if_pos (by omega), getElem?_eq_getElem (by omega)]
    · rw [if_neg hi, if_neg (by omega), getElem?_eq_none (by omega), Nat.mul_comm 13]
      simp

theorem complete_whole {run : List Bytes} (h : complete d run) :
    whole (lfnChecksum (dirName d)) run ∧ 0 < run.length ∧ run.length ≤ 20 := by
  cases run with
  | nil => cases h
  | cons r rs =>
    simp only [complete, Bool.and_eq_true, decide_eq_true_eq] at h
    rcases h with ⟨⟨hr, hlen⟩, hrun⟩
    exact ⟨by simp [whole, hr, hrun], Nat.succ_pos _, hlen⟩

/-- A whole long name is collected as it stands on the disk, as far as the array reaches. -/
theorem visitRun_whole {c : UInt8} {run : List Bytes} (st : Lfn) (h : whole c run) :
    ∃ st', visitRun run st = some st' ∧ st'.active ∧ st'.cksum = c ∧
      st'.chars = 13 * run.length ∧ ∀ i, i < 13 * run.length → i < 260 →
        (run.reverse.flatMap lfnUnits)[i]? = some (st'.buf i) := by
  cases run with
  | nil => cases h
  | cons r rs =>
    simp only [whole, Bool.and_eq_true, decide_eq_true_eq] at h
    rcases h with ⟨⟨⟨hseq, hlast⟩, hck⟩, hrun⟩
    have hv : visitLfn r st = some ⟨putUnits st.buf (rs.length * 13) (lfnUnits r), (rs.length + 1) * 13,
        c, true, rs.length⟩ := by
      simp [visitLfn, hlast, hck, hseq]
    rcases @visitRun_numbered c rs ⟨_, (rs.length + 1) * 13, c, true, rs.length⟩ hrun rfl rfl rfl with
      ⟨st', he, hact, hck', hch, hbuf⟩
    dsimp only at hch hbuf
    refine ⟨st', by rw [visitRun, hv]; exact he, hact, hck', ?_, fun i hi h260 => ?_⟩
    · rw [hch, length_cons]
      omega
    · have hA := units_reverse_length rs
      rw [length_cons] at hi
      have hput := @putUnits_eq st.buf (rs.length * 13) i (lfnUnits r) h260
      rw [hbuf i h260, reverse_cons, flatMap_append, getElem?_append, hA, hput]
      by_cases hi' : i < 13 * rs.length
      · rw [if_pos hi', getElem?_eq_getElem (by omega)]
        rfl
      · have hl : i - 13 * rs.length < (lfnUnits r).length := by rw [lfnUnits_length]; omega
        rw [if_neg hi', if_neg (by omega), @getElem?_eq_none _ _ i (by omega), Nat.mul_comm rs.length,
          flatMap_cons, flatMap_nil, append_nil, getElem?_eq_getElem hl]
        rfl

theorem lfnString_eq {buf : Nat → Nat} {units : List Nat} {i len : Nat} (hlen : len ≤ 255)
    (h : ∀ j, j < units.length → units[j]? = some (buf (i + j))) :
    lfnString buf units.length i len =
      (((nameUnits units).filter (· < 128)).take (255 - len)).map UInt8.ofNat := by
  induction units generalizing i len with
  | nil => simp [lfnString, nameUnits]
  | cons u units ih =>
    have hu : u = buf i := by simpa using h 0 (by simp)
    have ht : ∀ j, j < units.length → units[j]? = some (buf (i + 1 + j)) := fun j hj => by
      have := h (j + 1) (by simpa using hj)
      rwa [getElem?_cons_succ, show i + (j + 1) = i + 1 + j by omega] at this
    rw [length_cons, lfnString, ← hu]
    by_cases hl : len < 255
    · rw [if_pos hl]
      by_cases h0 : u = 0 ∨ u = 0xFFFF
      · rw [if_pos h0, nameUnits, takeWhile_cons_of_neg (by simpa using fun h => h0.resolve_left h)]
        simp
      · rw [if_neg h0, nameUnits, takeWhile_cons_of_pos (by simpa using not_or.mp h0)]
        by_cases hu : u < 128
        · rw [if_pos hu, ih (by omega) ht, filter_cons_of_pos (by simpa using hu),
            show 255 - len = 255 - (len + 1) + 1 by omega]
          rfl
        · rw [if_neg hu, ih hlen ht, filter_cons_of_neg (by simpa using hu)]
          rfl
    · rw [if_neg hl, show 255 - len = 0 by omega]
      rfl

/-! ### What a search returns -/

theorem asciiName_length (u : List Nat) : (asciiName u).length < 256 := by
  rw [asciiName, length_map, length_take]
  omega

theorem longMatches_complete {run : List Bytes} (nm : Name) (st : Lfn) (hc : complete d run) :
    ∃ st', visitRun run st = some st' ∧
      longMatches nm d st' = decide (SameName nm (asciiName (nameUnits (run.reverse.flatMap lfnUnits)))) := by
  rcases complete_whole hc with ⟨hw, hpos, h20⟩
  rcases visitRun_whole st hw with ⟨st', he, ha, hck, hch, hbuf⟩
  refine ⟨st', he, ?_⟩
  have hlen := units_reverse_length run
  have hstr := @lfnString_eq st'.buf (run.reverse.flatMap lfnUnits) 0 0 (by omega)
    fun j hj => by rw [Nat.zero_add]; exact hbuf j (by omega) (by omega)
  rw [hlen] at hstr
  have hm := @ncasecmp_iff 256 nm _ (asciiName_length (nameUnits (run.reverse.flatMap lfnUnits)))
  rw [longMatches, hch, hstr]
  exact decide_eq_decide.mpr ⟨fun h => hm.mp h.2.2.2, fun h => ⟨ha, by omega, hck.symm, hm.mpr h⟩⟩

/-- In front of an entry the driver has collected its long name, or none that it could take for it. -/
theorem Item.visit_run (e : Item) (nm : Name) (hst : st.active = false) (hs : isShort e.slot) :
    ∃ st', visitRun e.run st = some st' ∧
      longMatches nm e.slot st' = e.long.any fun u => SameName nm (asciiName u) := by
  cases hf : e.run.tails.find? (complete e.slot) with
  | some s =>
    have hc : complete e.slot s := find?_some hf
    rcases (mem_tails _ _).mp (mem_of_find?_eq_some hf) with ⟨p, hp⟩
    rcases visitRun_some (fun r hr => e.lfn r (hp ▸ mem_append_left s hr)) st with ⟨st1, h1⟩
    rcases longMatches_complete nm st1 hc with ⟨st', he, hm⟩
    exact ⟨st', by rw [← hp, visitRun_append, h1]; exact he, by rw [hm, Item.long, hf]; rfl⟩
  | none =>
    rcases visitRun_some e.lfn st with ⟨st', he⟩
    have hcol : Collecting (lfnChecksum (dirName e.slot)) [] st := fun h => absurd h (by simp [hst])
    refine ⟨st', he, ?_⟩
    rw [Item.long, hf, longMatches, Option.map_none, any_none]
    refine decide_eq_false fun h => ?_
    have hscan : scan nm e.run 0 st = some (.inr st') := by
      rw [← append_nil e.run, scan_run e.lfn, he]
      rfl
    rcases scan_collecting hcol hscan h.1 h.2.2.1.symm with ⟨r, rs, hsuf, -, hstart, -⟩
    have hc := (e.closes.resolve_left fun h5 => by simp [isShort, h5] at hs).2 _ hsuf hstart
    exact find?_eq_none.mp hf _ ((mem_tails _ _).mpr hsuf) hc

/-- The first entry that answers to the name. -/
def firstLook (nm : Name) : List Item → (pos : Nat) → Option (Bytes × Nat)
  | [], _ => none
  | e :: es, pos =>
    if e.looks nm then some (e.slot, uint (pos + 32 * e.run.length)) else firstLook nm es (pos + 32 * e.slots.length)

theorem scan_rest {orphans rest : List Bytes} (h : ∀ r ∈ orphans, isLfn r) (hr : ∀ d ∈ rest.head?, d 0 = 0) :
    (scan nm (orphans ++ rest) pos st).map outcome = some none := by
  rcases visitRun_some h st with ⟨st', he⟩
  rw [scan_run h, he]
  cases rest with
  | nil => rfl
  | cons d ds =>
    have hv : visit nm d st' = some .stop := by rw [visit, if_pos (hr d rfl)]
    dsimp only [bind_some]
    rw [scan, hv]
    rfl

theorem dotMatches_eq_false (hdot : nm ≠ dot) (hdotdot : nm ≠ dotdot) (d : Bytes) : dotMatches nm d = false :=
  decide_eq_false fun h => h.elim (fun h => hdot h.1) fun h => hdotdot h.1

theorem visit_short (hs : isShort d) : visit nm d st =
    some (if longMatches nm d st || dotMatches nm d || decide (name83 nm = dirName d) then .found
      else .next st.reset) := by
  simp only [isShort, decide_eq_true_eq] at hs
  rw [visit, if_neg hs.1, if_neg hs.2.1, if_neg hs.2.2, ncmp]
  split
  · rfl
  · rfl

/-- A search from `st` on passes the first `k` slots and ends with slot `k`. -/
def FoundIn (nm : Name) (st : Lfn) (l : List Bytes) (k : Nat) : Prop :=
  ∃ st' d, l[k]? = some d ∧ (∀ q, scan nm (l.take k) q st = some (.inr st')) ∧ visit nm d st' = some .found

/-- A search stops at a used entry in front of the end mark. -/
theorem scan_found {l : List Bytes} {p : Nat} (h : scan nm l pos st = some (.inl (some (d, p)))) :
    ∃ k, p = uint (pos + 32 * k) ∧ l[k]? = some d ∧ isShort d ∧ (∀ e ∈ l.take k, e 0 ≠ 0) ∧ FoundIn nm st l k := by
  induction l generalizing pos st with
  | nil => cases h
  | cons e l ih =>
    rw [scan] at h
    rcases Option.bind_eq_some_iff.mp h with ⟨r, hr, h⟩
    have hvisit := hr
    rw [visit] at hr
    cases r with
    | found =>
      cases h
      refine ⟨0, rfl, rfl, ?_, nofun, st, _, rfl, fun _ => rfl, hvisit⟩
      split at hr
      · cases hr
      · split at hr
        · cases hr
        · split at hr
          · rcases Option.map_eq_some_iff.mp hr with ⟨st', -, hr⟩
            cases hr
          · rename_i h0 h5 ha
            rw [isShort, decide_eq_true_eq]
            exact ⟨h0, h5, ha⟩
    | stop => cases h
    | next st' =>
      rcases ih h with ⟨k, hp, hk, hs, hpre, st2, x, hx, hpass, hlast⟩
      refine ⟨k + 1, by rw [hp]; congr 1; omega, hk, hs, fun x hx => ?_, st2, x, hx, fun q => ?_, hlast⟩
      case refine_2 =>
        rw [take_succ_cons, scan, hvisit]
        exact hpass (q + 32)
      rw [take_succ_cons] at hx
      cases hx with
      | head =>
        intro h0
        rw [if_pos h0] at hr
        cases hr
      | tail _ hx => exact hpre x hx

/-- An entry that answers to the name ends the search; any other is passed. -/
theorem scan_item (e : Item) (l : List Bytes) (pos : Nat) (hst : st.active = false) :
    if e.looks nm then scan nm (e.slots ++ l) pos st = some (.inl (some (e.slot, uint (pos + 32 * e.run.length))))
    else ∃ st', st'.active = false ∧ scan nm (e.slots ++ l) pos st = scan nm l (pos + 32 * e.slots.length) st' := by
  have hpos : pos + 32 * e.slots.length = pos + 32 * e.run.length + 32 := by
    rw [Item.slots, length_append, length_singleton]
    omega
  rw [hpos, Item.slots, append_assoc, scan_run e.lfn]
  by_cases hs : isShort e.slot
  · rcases e.visit_run nm hst hs with ⟨st', he, hm⟩
    rw [he, Item.looks, hs, ← hm, Bool.true_and]
    dsimp only [bind_some, singleton_append]
    rw [scan, visit_short hs]
    split
    · rfl
    · exact ⟨st'.reset, rfl, rfl⟩
  · have h5 : e.slot 0 = 0xE5 := e.closes.resolve_right fun h => hs h.1
    rcases visitRun_some e.lfn st with ⟨st', he⟩
    rw [he, if_neg (by simp [Item.looks, hs])]
    refine ⟨st'.reset, rfl, ?_⟩
    have hv : visit nm e.slot st' = some (.next st'.reset) := by
      rw [visit, if_neg (by rw [h5]; decide), if_pos h5]
    dsimp only [bind_some, singleton_append]
    rw [scan, hv]
    rfl

/-- Slots of long names and then the end mark, or the end of the directory. -/
def Ends (l : List Bytes) : Prop :=
  ∃ orphans rest, l = orphans ++ rest ∧ (∀ r ∈ orphans, isLfn r) ∧ ∀ d ∈ rest.head?, d 0 = 0

theorem scan_items {nm : Name} {rest : List Bytes} (items : List Item)
    (hr : (∃ e ∈ items, e.looks nm) ∨ Ends rest) (pos : Nat) {st : Lfn} (hst : st.active = false) :
    (scan nm (items.flatMap Item.slots ++ rest) pos st).map outcome = some (firstLook nm items pos) := by
  induction items generalizing pos st with
  | nil =>
    rcases hr with ⟨e, he, -⟩ | ⟨orphans, rest', rfl, h1, h2⟩
    · cases he
    · rw [flatMap_nil, nil_append]
      exact scan_rest h1 h2
  | cons e items ih =>
    have he := @scan_item st nm e (items.flatMap Item.slots ++ rest) pos hst
    rw [flatMap_cons, append_assoc, firstLook]
    split at he
    · rw [he, if_pos ‹_›]
      rfl
    · rename_i hno
      rcases he with ⟨st', hst', he⟩
      rw [he, if_neg hno]
      refine ih (hr.imp_left ?_) _ hst'
      rintro ⟨e', he', hl⟩
      cases he' with
      | head => exact absurd hl hno
      | tail _ he' => exact ⟨e', he', hl⟩

/-- The slots of a directory as far as a search for `nm` reads them: entries, one of which answers to it, or all up to
the end. -/
structure Searched (nm : Name) (l : List Bytes) where
  items : List Item
  rest : List Bytes
  slots_eq : l = items.flatMap Item.slots ++ rest
  ends : (∃ e ∈ items, e.looks nm) ∨ Ends rest

def Dir.searched (dir : Dir) (nm : Name) : Searched nm dir.slots where
  items := dir.items
  rest := dir.orphans ++ dir.rest
  slots_eq := rfl
  ends := .inr ⟨_, _, rfl, dir.lfn, dir.ends⟩

/-- `dlookup` returns the first entry that answers to the name. -/
theorem dlookup_eq {dv : DirNode} {l : List Bytes} (s : Searched nm l) (hd : dv.attrs &&& attrDirectory ≠ 0)
    (hc : Content fm disk dv.firstClus l) (junk : Nat → Nat) :
    (∃ n, ∀ fuel, n ≤ fuel → dlookup fm disk dv nm junk fuel = some (firstLook nm s.items 0)) ∧
    ∀ fuel r, dlookup fm disk dv nm junk fuel = some r → r = firstLook nm s.items 0 := by
  rcases @dlookupFrom_scan fm disk nm _ _ hc with ⟨n, hn⟩
  have hall : ∀ fuel, n ≤ fuel → dlookup fm disk dv nm junk fuel = some (firstLook nm s.items 0) := fun fuel hf => by
    have hscan := @scan_items nm s.rest s.items s.ends 0 ⟨junk, 0, 0, false, 0⟩ rfl
    rw [← s.slots_eq] at hscan
    rw [dlookup, if_neg hd, hn fuel 0 _ hf]
    exact hscan
  refine ⟨⟨n, hall⟩, fun fuel r hr => ?_⟩
  have hmax := hall (max n fuel) (le_max_left _ _)
  rw [dlookup, if_neg hd] at hr hmax
  have := dlookupFrom_mono (le_max_right n fuel) hr
  exact some.inj (this.symm.trans hmax)

theorem offset_cons (e : Item) (es : List Item) (i : Nat) :
    offset (e :: es) (i + 1) = 32 * e.slots.length + offset es i := by
  simp only [offset, take_succ_cons, flatMap_cons, length_append, getElem?_cons_succ]
  omega

/-- The answer is an entry before which none answers to the name. -/
theorem firstLook_some {r : Bytes × Nat} (h : firstLook nm items pos = some r) :
    ∃ i e, items[i]? = some e ∧ r = (e.slot, uint (pos + offset items i)) ∧ e.looks nm ∧
      ∀ j e', j < i → items[j]? = some e' → ¬e'.looks nm := by
  induction items generalizing pos with
  | nil => cases h
  | cons e es ih =>
    rw [firstLook] at h
    by_cases he : e.looks nm
    · rw [if_pos he, some.injEq] at h
      exact ⟨0, e, rfl, by rw [← h]; simp [offset], he, fun j _ hj => absurd hj (Nat.not_lt_zero j)⟩
    · rw [if_neg he] at h
      rcases ih h with ⟨i, e1, hi, hr, hl, hmin⟩
      refine ⟨i + 1, e1, hi, by rw [hr, offset_cons, Nat.add_assoc], hl, fun j e' hj hje => ?_⟩
      cases j with
      | zero => rw [← some.inj hje]; exact he
      | succ j => exact hmin j e' (by omega) hje

theorem firstLook_none (h : firstLook nm items pos = none) : ∀ e ∈ items, ¬e.looks nm := by
  induction items generalizing pos with
  | nil => exact fun e he => absurd he (not_mem_nil)
  | cons e es ih =>
    rw [firstLook] at h
    by_cases he : e.looks nm
    · rw [if_pos he] at h
      cases h
    · rw [if_neg he] at h
      intro e' he'
      cases he' with
      | head => exact he
      | tail _ he' => exact ih h e' he'

/-- In front of every entry that answers to the name, a used slot is numbered 0, which is stored in front of `lfn_buf`,
or a long name with the checksum of the entry behind it is not finished, and compared all the same. -/
def Broken (nm : Name) (l : List Bytes) : Prop :=
  ∃ (items : List Item) (run : List Bytes) (d : Bytes) (rest : List Bytes),
    l = items.flatMap Item.slots ++ (run ++ d :: rest) ∧ (∀ e ∈ items, ¬e.looks nm) ∧ (∀ r ∈ run, isLfn r) ∧
    (d 0 ≠ 0 ∧ d 0 ≠ 0xE5 ∧ dirAttr d = attrLongName ∧ lfnSeq d = 0 ∨
      isShort d ∧ ∃ s, s <:+ run ∧ started (lfnChecksum (dirName d)) s ∧ ¬complete d s)

theorem Searched.cons (e : Item) {l : List Bytes} (h : Nonempty (Searched nm l)) :
    Nonempty (Searched nm (e.slots ++ l)) := by
  rcases h with ⟨items, rest, rfl, hends⟩
  refine ⟨e :: items, rest, by rw [flatMap_cons, append_assoc], hends.imp_left ?_⟩
  rintro ⟨e', he', hl⟩
  exact ⟨e', mem_cons_of_mem e he', hl⟩

theorem Broken.cons {e : Item} (he : ¬e.looks nm) {l : List Bytes} (h : Broken nm l) : Broken nm (e.slots ++ l) := by
  rcases h with ⟨items, run, d, rest, rfl, hno, hrest⟩
  exact ⟨e :: items, run, d, rest, by rw [flatMap_cons, append_assoc], forall_mem_cons.mpr ⟨he, hno⟩, hrest⟩

/-- Any slots can be read as entries up to the one that is found, unless the search comes to a broken name. -/
theorem searched_or_broken (nm : Name) (l : List Bytes) {run : List Bytes} (hrun : ∀ r ∈ run, isLfn r) :
    Nonempty (Searched nm (run ++ l)) ∨ Broken nm (run ++ l) := by
  induction l generalizing run with
  | nil => exact .inl ⟨[], run ++ [], rfl, .inr ⟨run, [], rfl, hrun, nofun⟩⟩
  | cons d l ih =>
    have hnext := @ih [] (forall_mem_nil _)
    rw [nil_append] at hnext
    by_cases h0 : d 0 = 0
    · exact .inl ⟨[], run ++ d :: l, rfl, .inr ⟨run, d :: l, rfl, hrun, fun x hx => some.inj hx ▸ h0⟩⟩
    by_cases h5 : d 0 = 0xE5
    · have he : ¬(Item.mk run d hrun (.inl h5)).looks nm := by simp [Item.looks, isShort, h5]
      rw [append_cons]
      exact hnext.imp (Searched.cons ⟨run, d, hrun, .inl h5⟩) (Broken.cons he)
    by_cases ha : dirAttr d = attrLongName
    · by_cases hseq : lfnSeq d = 0
      · exact .inr ⟨[], run, d, l, rfl, forall_mem_nil _, hrun, .inl ⟨h0, h5, ha, hseq⟩⟩
      · have hd : isLfn d := by simp [isLfn, h0, h5, ha, hseq]
        rw [append_cons]
        refine ih fun r hr => ?_
        rcases mem_append.mp hr with hr | hr
        · exact hrun r hr
        · exact mem_singleton.mp hr ▸ hd
    have hs : isShort d := by simp [isShort, h0, h5, ha]
    by_cases hcl : ∀ s, s <:+ run → started (lfnChecksum (dirName d)) s → complete d s
    · rw [append_cons]
      by_cases hl : (Item.mk run d hrun (.inr ⟨hs, hcl⟩)).looks nm
      · exact .inl ⟨[⟨run, d, hrun, .inr ⟨hs, hcl⟩⟩], l, by simp [Item.slots], .inl ⟨_, mem_cons_self, hl⟩⟩
      · exact hnext.imp (Searched.cons ⟨run, d, hrun, .inr ⟨hs, hcl⟩⟩) (Broken.cons hl)
    · simp only [not_forall] at hcl
      rcases hcl with ⟨s, hsuf, hst, hno⟩
      exact .inr ⟨[], run, d, l, rfl, forall_mem_nil _, hrun, .inr ⟨hs, s, hsuf, hst, hno⟩⟩

/-- Unless a search comes to a broken long name, it reads entries. Then it returns a file of the name exactly if each
file that answers to it stands at or behind one that answers to it and has it. A name of which the 11 bytes of the
short name are but a part, or a long name with other than ASCII characters, breaks this. -/
theorem dlookup_named_iff {fm : Mount} {disk : Disk} {dv : DirNode} {l : List Bytes}
    (hd : dv.attrs &&& attrDirectory ≠ 0)
    (hc : Content fm disk dv.firstClus l) (nm : Name) :
    (Nonempty (Searched nm l) ∨ Broken nm l) ∧ ∀ s : Searched nm l,
      ((∀ junk fuel d off, dlookup fm disk dv nm junk fuel = some (some (d, off)) →
        ∃ i e, s.items[i]? = some e ∧ e.looks nm ∧ (∀ e' ∈ s.items.take i, ¬e'.looks nm) ∧
          (d, off) = (e.slot, uint (offset s.items i)) ∧ e.HasName nm) ↔
      ∀ (i : Nat) (e : Item), s.items[i]? = some e → e.looks nm →
        ∃ j, ∃ e' : Item, j ≤ i ∧ s.items[j]? = some e' ∧ e'.looks nm ∧ e'.HasName nm) := by
  refine ⟨searched_or_broken nm l (forall_mem_nil _), fun s => ?_⟩
  constructor
  · intro h i e hi hl
    rcases (dlookup_eq s hd hc fun _ => 0).1 with ⟨n, hn⟩
    have hn := hn n (Nat.le_refl n)
    cases hf : firstLook nm s.items 0 with
    | none => exact absurd hl (firstLook_none hf e (mem_of_getElem? hi))
    | some r =>
      rw [hf] at hn
      rcases firstLook_some hf with ⟨k, e1, hk, hr, hl1, hmin⟩
      rcases h _ n r.1 r.2 hn with ⟨k', e2, hk', hl2, hno, -, hname⟩
      refine ⟨k', e2, ?_, hk', hl2, hname⟩
      by_contra hlt
      exact hno e (mem_of_getElem? ((getElem?_take_of_lt (by omega)).trans hi)) hl
  · intro h junk fuel d off hr
    have hf := (dlookup_eq s hd hc junk).2 fuel _ hr
    rcases firstLook_some hf.symm with ⟨k, e1, hk, hr, hl1, hmin⟩
    rcases h k e1 hk hl1 with ⟨j, e', hj, hje, hl', hname⟩
    have hjk : j = k := by
      by_contra hne
      exact hmin j e' (by omega) hje hl'
    subst hjk
    rw [hje] at hk
    rw [← some.inj hk, Nat.zero_add] at hr
    refine ⟨j, e', hje, hl', fun x hx => ?_, hr, hname⟩
    rcases mem_iff_getElem?.mp hx with ⟨i, hi⟩
    rw [getElem?_take] at hi
    split at hi
    · exact hmin i x ‹_› hi
    · cases hi

/-! A directory of one cluster: a deleted slot, "my notes.txt" with its long name, "LONGFILE" and "README.TXT". -/

def deletedSlot : Bytes := Bytes.ofList [0xE5]

def notesLfn : Bytes := Bytes.ofList ([0x41, 109, 0, 121, 0, 32, 0, 110, 0, 111, 0, 0x0F, 0, 0x29] ++
  [116, 0, 101, 0, 115, 0, 46, 0, 116, 0, 120, 0, 0, 0, 116, 0, 0, 0])

/-- The entry of a file with the 11 bytes `sn` and first cluster `c`. -/
def fileSlot (sn : List UInt8) (c : UInt8) : Bytes := Bytes.ofList (sn ++ 0x20 :: List.replicate 14 0 ++ [c])

def notesSlot : Bytes := fileSlot [77, 89, 78, 79, 84, 69, 126, 49, 32, 32, 32] 3
def longfileSlot : Bytes := fileSlot [76, 79, 78, 71, 70, 73, 76, 69, 32, 32, 32] 4
def readmeSlot (c : UInt8) : Bytes := fileSlot [82, 69, 65, 68, 77, 69, 32, 32, 84, 88, 84] c

/-- Sector 1 is the allocation table with cluster 2 as a chain of its own, sector 2 the directory with the slots `l`. -/
def dirDisk (l : List Bytes) : Disk := fun b =>
  if b = 0 then fun o => if 520 ≤ o ∧ o < 524 then 0xFF else 0
  else if b = 1 then fun o => l.getD (o / 32) (fun _ => 0) (o % 32) else fun _ => 0

def smallMount : Mount := ⟨1, 1, 2⟩

/-- Slot `k` of the directory. -/
def slotOf (l : List Bytes) (k : Nat) : Bytes := Bytes.drop (dirDisk l 1) (32 * k)

theorem clusterSlots_dirDisk (l : List Bytes) :
    clusterSlots smallMount (dirDisk l) 2 = (List.range 16).map (slotOf l) := by
  have hread : ∀ o, sread (dirDisk l) 2 o = Bytes.drop (dirDisk l 1) o := fun o => by
    simp [sread, spb]
  simp [clusterSlots, smallMount, clusToSec, uint, bps, hread, slotOf]

theorem dirDisk_content (l : List Bytes) : Content smallMount (dirDisk l) 2 ((List.range 16).map (slotOf l)) := by
  have hfat : readFat smallMount (dirDisk l) 2 = readFat smallMount (dirDisk []) 2 := rfl
  rw [← clusterSlots_dirDisk, ← append_nil (clusterSlots smallMount (dirDisk l) 2)]
  exact .clus (by decide) (.done (by rw [hfat]; decide +kernel))

theorem lfn_nil : ∀ r ∈ ([] : List Bytes), isLfn r := forall_mem_nil _

theorem closes_nil (h : d 0 = 0xE5 ∨ isShort d = true) : d 0 = 0xE5 ∨ isShort d = true ∧
    ∀ s, s <:+ [] → started (lfnChecksum (dirName d)) s → complete d s := by
  refine h.imp_right fun hs => ⟨hs, fun s hnil hst => ?_⟩
  rw [suffix_nil.mp hnil] at hst
  cases hst

/-- An entry without a long name, or a deleted slot. -/
def bare (d : Bytes) (h : d 0 = 0xE5 ∨ isShort d = true) : Item := ⟨[], d, lfn_nil, closes_nil h⟩

theorem numbered_not_last {c : UInt8} {rs : List Bytes} (h : numbered c rs) : ∀ r ∈ rs, lfnLast r = false := by
  induction rs with
  | nil => exact forall_mem_nil _
  | cons r rs ih =>
    simp only [numbered, Bool.and_eq_true, Bool.not_eq_true'] at h
    exact forall_mem_cons.mpr ⟨h.1.1.2, ih h.2⟩

/-- No later slot of a whole name starts one. -/
theorem closes_complete {run : List Bytes} (hs : isShort d) (h : complete d run) : d 0 = 0xE5 ∨ isShort d = true ∧
    ∀ s, s <:+ run → started (lfnChecksum (dirName d)) s → complete d s := by
  refine .inr ⟨hs, fun s hsuf hst => ?_⟩
  cases run with
  | nil => cases h
  | cons r rs =>
    rcases suffix_cons_iff.mp hsuf with rfl | hsuf
    · exact h
    · cases s with
      | nil => cases hst
      | cons r' rs' =>
        simp only [complete, Bool.and_eq_true] at h
        simp only [started, Bool.and_eq_true] at hst
        rw [numbered_not_last h.2 r' (hsuf.subset mem_cons_self)] at hst
        exact absurd hst.1.1 Bool.false_ne_true

def mixedSlots : List Bytes := [deletedSlot, notesLfn, notesSlot, longfileSlot, readmeSlot 5]

theorem notes_lfn : ∀ r ∈ [slotOf mixedSlots 1], isLfn r := by
  intro r hr
  cases mem_singleton.mp hr
  decide +kernel

theorem notes_whole : isShort (slotOf mixedSlots 2) = true ∧
    complete (slotOf mixedSlots 2) [slotOf mixedSlots 1] = true := by
  decide +kernel

theorem mixed_short : slotOf mixedSlots 0 0 = 0xE5 ∧ isShort (slotOf mixedSlots 3) = true ∧
    isShort (slotOf mixedSlots 4) = true := by decide +kernel

def mixedItems : List Item :=
  [bare (slotOf mixedSlots 0) (.inl mixed_short.1),
   ⟨[slotOf mixedSlots 1], slotOf mixedSlots 2, notes_lfn, closes_complete notes_whole.1 notes_whole.2⟩,
   bare (slotOf mixedSlots 3) (.inr mixed_short.2.1), bare (slotOf mixedSlots 4) (.inr mixed_short.2.2)]

theorem mixed_ends : Ends ((List.range' 5 11).map (slotOf mixedSlots)) :=
  ⟨[], _, rfl, lfn_nil, fun d hd => by rw [← some.inj hd]; decide +kernel⟩

def mixedSearched (nm : Name) : Searched nm ((List.range 16).map (slotOf mixedSlots)) :=
  ⟨mixedItems, (List.range' 5 11).map (slotOf mixedSlots), rfl, .inr mixed_ends⟩

/-- "longfilename" -/
def longfilename : Name := [108, 111, 110, 103, 102, 105, 108, 101, 110, 97, 109, 101]

/-- "my notes.txt" -/
def myNotes : Name := [109, 121, 32, 110, 111, 116, 101, 115, 46, 116, 120, 116]

theorem Item.not_hasName {e : Item} {a : Name} (h : e.long = none ∨ e.long = some (a.map UInt8.toNat) ∧ ¬SameName a nm)
    (hs : ¬SameName (render83 (dirName e.slot)) nm) : ¬e.HasName nm := by
  rintro (⟨b, hb, hn⟩ | hn)
  · rcases h with h | ⟨h, hne⟩
    · cases hb.symm.trans h
    · have hab := map_injective_iff.mpr (fun _ _ => UInt8.toNat_inj.mp) (some.inj (hb.symm.trans h))
      exact hne (hab ▸ hn)
  · exact hs hn

/-- A search for "longfilename" returns the file "longfile". -/
theorem longfilename_finds_longfile :
    (∃ d, dlookup smallMount (dirDisk mixedSlots) ⟨2, 0x10⟩ longfilename (fun _ => 0) 1 = some (some (d, 96)) ∧
      dirName d = dirName longfileSlot) ∧ ∀ e ∈ mixedItems, ¬e.HasName longfilename := by
  constructor
  · have hfound : (dlookup smallMount (dirDisk mixedSlots) ⟨2, 0x10⟩ longfilename (fun _ => 0) 1).map
        (Option.map fun r => (dirName r.1, r.2)) = some (some (dirName longfileSlot, 96)) := by
      decide +kernel
    rcases map_eq_some_iff.mp hfound with ⟨r, hr, h⟩
    rcases map_eq_some_iff.mp h with ⟨⟨d, off⟩, rfl, hp⟩
    rcases Prod.mk.inj hp with ⟨hd, rfl⟩
    exact ⟨d, hr, hd⟩
  · have hlong : mixedItems.map Item.long = [none, some (myNotes.map UInt8.toNat), none, none] := by decide +kernel
    have hs : ∀ e ∈ mixedItems, ¬SameName (render83 (dirName e.slot)) longfilename := by decide +kernel
    intro e he
    refine Item.not_hasName (a := myNotes) ?_ (hs e he)
    have hmem := mem_map_of_mem (f := Item.long) he
    simp only [hlong, mem_cons, not_mem_nil, or_false] at hmem
    rcases hmem with h | h | h | h
    · exact .inl h
    · exact .inr ⟨h, by decide⟩
    · exact .inl h
    · exact .inl h

/-- A search for "longfile" returns the file of that name. -/
theorem longfile_named : ∃ d off, dlookup smallMount (dirDisk mixedSlots) ⟨2, 0x10⟩ (longfilename.take 8)
    (fun _ => 0) 1 =
      some (some (d, off)) ∧
    ∃ i e, mixedItems[i]? = some e ∧ e.looks (longfilename.take 8) ∧
      (∀ e' ∈ mixedItems.take i, ¬e'.looks (longfilename.take 8)) ∧ (d, off) = (e.slot, uint (offset mixedItems i)) ∧
      e.HasName (longfilename.take 8) := by
  have hsome : ((dlookup smallMount (dirDisk mixedSlots) ⟨2, 0x10⟩ (longfilename.take 8)
    (fun _ => 0) 1).bind id).isSome := by
    decide +kernel
  have hlooks : ∀ e ∈ mixedItems, e.looks (longfilename.take 8) →
      SameName (render83 (dirName e.slot)) (longfilename.take 8) := by
    decide +kernel
  rcases isSome_iff_exists.mp hsome with ⟨⟨d, off⟩, hr⟩
  rcases bind_eq_some_iff.mp hr with ⟨r, hr, rfl⟩
  refine ⟨d, off, hr, ((dlookup_named_iff (by decide) (dirDisk_content mixedSlots) _).2
    (mixedSearched _)).mpr (fun i e he hl => ?_) _ _ d off hr⟩
  exact ⟨i, e, Nat.le_refl i, he, hl, .inr (hlooks e (mem_of_getElem? he) hl)⟩

end Xv6Vfs.Fat32
