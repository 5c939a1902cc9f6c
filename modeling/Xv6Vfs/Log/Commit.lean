import Xv6Vfs.Log.Buf

/-! A commit of the log is a commit of a redo log. -/
namespace Xv6Vfs.Log
open Xv6Vfs.Bytes Xv6Vfs.Redo Function List

variable {i : Nat} {a : Addr} {v : Store} {x : Bytes} {bs : List Nat}

theorem putBlocks_frame {o : Nat} (h : o + 4 ≤ 4 + 4 * i) : u32 (putBlocks i bs x) o = u32 x o := by
  induction bs generalizing i x with
  | nil => rfl
  | cons b bs ih =>
    rw [putBlocks, ih (by omega), put32, u32_blit_out (by omega)]

theorem putBlocks_get {i j : Nat} {bs : List Nat} {x : Bytes} (h : j < bs.length) :
    u32 (putBlocks i bs x) (4 + 4 * (i + j)) = bs[j] % 4294967296 := by
  induction bs generalizing i j x with
  | nil => cases h
  | cons b bs ih =>
    rw [putBlocks]
    cases j with
    | zero => rw [putBlocks_frame (by omega), Nat.add_zero, u32_put32]; rfl
    | succ j =>
      rw [show i + (j + 1) = i + 1 + j by omega]
      exact ih (by simpa using h)

theorem readBlocks_putHead (hlen : bs.length ≤ logBlocks) (hb : ∀ b ∈ bs, b < 4294967296) :
    readBlocks (putHead bs x) = bs := by
  have hn : u32 (putHead bs x) 0 = bs.length := by
    have : logBlocks = 30 := rfl
    rw [putHead, putBlocks_frame (by omega), u32_put32, Nat.mod_eq_of_lt (by omega)]
  rw [readBlocks, hn]
  refine ext_getElem (by simp) fun j h1 h2 => ?_
  have hj := @putBlocks_get 0 j bs (put32 x 0 bs.length) h2
  rw [Nat.zero_add] at hj
  rw [getElem_map, getElem_range, putHead, hj, Nat.mod_eq_of_lt (hb _ (getElem_mem h2))]

theorem put32_put32 (x : Bytes) (o v : Nat) : put32 (put32 x o v) o v = put32 x o v := by
  funext j
  unfold put32
  by_cases h : o ≤ j ∧ j < o + 4
  · rw [blit_in h.1 h.2, blit_in h.1 h.2]
  · rw [blit_out (by omega)]

/-- The log of device `dev` at block `start`. -/
def area (dev start : Nat) : Area Addr Bytes where
  head := (dev, start)
  slot i := (dev, start + i + 1)
  cap := logBlocks
  enc l x := putHead (l.map Prod.snd) x
  dec x := (readBlocks x).map fun b => (dev, b)
  Stored a := a.1 = dev ∧ a.2 < 4294967296
  slot_ne_head i h := by
    have := congrArg Prod.snd h
    dsimp only at this
    omega
  slot_inj i j h := by
    have := congrArg Prod.snd h
    dsimp only at this
    omega
  dec_enc l x hlen h := by
    rw [readBlocks_putHead (by rw [length_map]; exact hlen), map_map]
    · refine (map_congr_left fun a ha => ?_).trans (map_id l)
      rw [id, Function.comp_apply, ← (h a ha).1]
    · intro b hb
      rcases mem_map.mp hb with ⟨a, ha, rfl⟩
      exact (h a ha).2
  enc_nil x := put32_put32 x 0 0

/-- Block numbers that the log does not use for itself. -/
def HomeBlock (start b : Nat) : Prop := b < start ∨ start + logBlocks < b

instance (start b : Nat) : Decidable (HomeBlock start b) := inferInstanceAs (Decidable (_ ∨ _))

theorem home_iff {dev start : Nat} : (area dev start).Home a ↔ a.1 ≠ dev ∨ HomeBlock start a.2 := by
  constructor
  · intro h
    by_cases hd : a.1 = dev
    · right
      by_contra hb
      unfold HomeBlock at hb
      by_cases hs : a.2 = start
      · exact h.1 (Prod.ext hd hs)
      · refine h.2 (a.2 - start - 1) ?_ (Prod.ext hd ?_)
        · show a.2 - start - 1 < logBlocks
          omega
        · show a.2 = start + (a.2 - start - 1) + 1
          omega
    · exact .inl hd
  · intro h
    refine ⟨fun he => ?_, fun i hi he => ?_⟩
    · subst he
      exact h.elim (fun h => h rfl) fun h => by unfold HomeBlock at h; dsimp only [area] at h; omega
    · have hi : i < logBlocks := hi
      subst he
      exact h.elim (fun h => h rfl) fun h => by unfold HomeBlock at h; dsimp only [area] at h; omega

section Writes

variable {dev start : Nat} {bs : List Nat} (hb : ∀ b ∈ bs, HomeBlock start b)

/-- The content of the blocks, with their home addresses. -/
def contents (dev : Nat) (bs : List Nat) (v : Store) : List (Addr × Bytes) :=
  bs.map fun b => ((dev, b), v (dev, b))

theorem contents_fst (dev : Nat) (bs : List Nat) (v : Store) :
    (contents dev bs v).map Prod.fst = bs.map fun b => (dev, b) := by
  rw [contents, map_map]
  rfl

theorem contents_snd (dev : Nat) (bs : List Nat) (v : Store) :
    (contents dev bs v).map Prod.snd = bs.map fun b => v (dev, b) := by
  rw [contents, map_map]
  rfl

include hb

theorem writeLog_eq (hi : i + bs.length ≤ logBlocks) :
    writeLog dev start bs i v = copies (area dev start) i (bs.map fun b => v (dev, b)) := by
  induction bs generalizing i v with
  | nil => rfl
  | cons b bs ih =>
    rw [length_cons] at hi
    rw [writeLog, ih (fun c hc => hb c (mem_cons_of_mem b hc)) (by omega), map_cons, copies]
    congr 2
    refine map_congr_left fun c hc => ?_
    rw [put, update_of_ne]
    intro he
    have := congrArg Prod.snd he
    have hc := hb c (mem_cons_of_mem b hc)
    unfold HomeBlock at hc
    dsimp only at this
    omega

theorem installTrans_eq (hi : i + bs.length ≤ logBlocks) :
    installTrans dev start bs i v = installs (area dev start) v i (bs.map fun b => (dev, b)) := by
  induction bs generalizing i v with
  | nil => rfl
  | cons b bs ih =>
    rw [length_cons] at hi
    rw [installTrans, ih (fun c hc => hb c (mem_cons_of_mem b hc)) (by omega), map_cons, installs]
    congr 1
    refine installs_congr fun j h1 h2 => ?_
    rw [length_map] at h2
    rw [put, update_of_ne]
    intro he
    have := congrArg Prod.snd he
    have hb := hb b mem_cons_self
    unfold HomeBlock at hb
    dsimp only [area] at this
    omega

theorem fits_contents (hlen : bs.length ≤ logBlocks) (hlt : ∀ b ∈ bs, b < 4294967296) (v : Store) :
    Fits (area dev start) (contents dev bs v) := by
  refine ⟨?_, fun w hw => ?_, fun w hw => ?_⟩
  · rwa [contents, length_map]
  · rcases mem_map.mp hw with ⟨b, hbs, rfl⟩
    exact ⟨rfl, hlt b hbs⟩
  · rcases mem_map.mp hw with ⟨b, hbs, rfl⟩
    exact home_iff.mpr (.inr (hb b hbs))

/-- `commit` writes what a redo log writes. -/
theorem commitWrites_eq (hne : bs ≠ []) (hlen : bs.length ≤ logBlocks) (hlt : ∀ b ∈ bs, b < 4294967296)
    (v : Store) : commitWrites dev start bs v =
      commitSeq (area dev start) (contents dev bs v) (v (dev, start)) := by
  have hfit : Fits (area dev start) (contents dev bs v) := fits_contents hb hlen hlt v
  have henc : ∀ x, putHead bs x = (area dev start).enc ((contents dev bs v).map Prod.fst) x := fun x => by
    show putHead bs x = putHead (((contents dev bs v).map Prod.fst).map Prod.snd) x
    rw [contents_fst, map_map]
    congr 1
    exact (map_id bs).symm
  have hlog : writeLog dev start bs 0 v = copies (area dev start) 0 ((contents dev bs v).map Prod.snd) := by
    rw [writeLog_eq hb (by omega), contents_snd]
  have hhead : puts (copies (area dev start) 0 ((contents dev bs v).map Prod.snd)) v (dev, start) =
      v (dev, start) := puts_of_not_mem (head_not_mem_copies (L := area dev start) 0 _)
  have hv2 : put (puts (copies (area dev start) 0 ((contents dev bs v).map Prod.snd)) v)
      ((dev, start), putHead bs (v (dev, start))) = logged (area dev start) (contents dev bs v) v := by
    rw [henc]
    rfl
  have hinst : installTrans dev start bs 0 (logged (area dev start) (contents dev bs v) v) = contents dev bs v := by
    have h := installs_logged (L := area dev start) (t := contents dev bs v) v
    rw [contents_fst] at h
    rw [installTrans_eq hb (by omega), h]
  have hlast : puts (contents dev bs v) (logged (area dev start) (contents dev bs v) v) (dev, start) =
      putHead bs (v (dev, start)) := by
    rw [← hv2]
    refine ((puts_home hfit.fst_home _).1).trans ?_
    exact update_self ..
  simp only [commitWrites, if_neg hne, writeHead, hlog, hhead, hv2, hinst, hlast]
  rw [henc]
  rfl

end Writes

theorem puts_contents (dev : Nat) (bs : List Nat) (v s : Store) (a : Addr) :
    puts (contents dev bs v) s a = if a.1 = dev ∧ a.2 ∈ bs then v a else s a := by
  induction bs generalizing s with
  | nil => simp [contents]
  | cons b bs ih =>
    rw [contents, map_cons, puts_cons]
    refine (ih _).trans ?_
    by_cases hm : a.1 = dev ∧ a.2 ∈ bs
    · rw [if_pos hm, if_pos ⟨hm.1, mem_cons_of_mem b hm.2⟩]
    · rw [if_neg hm, put]
      by_cases hb : a = (dev, b)
      · rw [hb, update_self, if_pos ⟨rfl, mem_cons_self⟩]
      · rw [update_of_ne hb, if_neg]
        rintro ⟨h1, h2⟩
        cases h2 with
        | head => exact hb (Prod.ext h1 rfl)
        | tail _ h2 => exact hm ⟨h1, h2⟩

theorem commit_disk {s : Sys} (hb : ∀ b ∈ s.log.block, HomeBlock s.log.start b)
    (hlen : s.log.block.length ≤ logBlocks) (hlt : ∀ b ∈ s.log.block, b < 4294967296)
    (ha : (area s.log.dev s.log.start).Home a) :
    (commit s).disk a = if a.1 = s.log.dev ∧ a.2 ∈ s.log.block then s.cache a else s.disk a := by
  by_cases hne : s.log.block = []
  · simp [commit, commitWrites, hne]
  · show puts (commitWrites _ _ _ _) s.disk a = _
    rw [commitWrites_eq hb hne hlen hlt, (fits_contents hb hlen hlt s.cache).commit_home s.disk _ ha, puts_contents]

end Xv6Vfs.Log
