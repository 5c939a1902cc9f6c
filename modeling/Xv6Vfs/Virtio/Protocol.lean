import Mathlib.Data.List.Perm.Subperm
import Xv6Vfs.Lib.Ring
import Xv6Vfs.Virtio.Driver

/-! Requests on their way through the rings. -/
namespace Xv6Vfs.Virtio
open Function List Nat

variable {r : Req} {l : List Req} {g : Nat → Bool} {i i0 i1 i2 k : Nat}

def Req.idx (r : Req) : List Nat := [r.idx0, r.idx1, r.idx2]

/-- The descriptors of a request are set up for it. -/
structure Chain (s : Disk) (r : Req) : Prop where
  desc0 : s.desc r.idx0 = ⟨.req r.idx0, 16, flagNext, r.idx1⟩
  desc1 : s.desc r.idx1 = ⟨.data r.buf, 1024, (if r.req.write then 0 else flagWrite) ||| flagNext, r.idx2⟩
  desc2 : s.desc r.idx2 = ⟨.status r.idx0, 1, flagWrite, 0⟩
  op : s.ops r.idx0 = r.req
  info : s.infoB r.idx0 = some r.buf

/-- The requests `l` are in flight, and each descriptor is free or belongs to one of them. -/
structure Owned (l : List Req) (s : Disk) : Prop where
  phase : ∀ p r, s.phase p = .wait r ↔ r ∈ l ∧ r.proc = p
  nodup : (l.flatMap Req.idx).Nodup
  lt : ∀ i ∈ l.flatMap Req.idx, i < num
  free : ∀ i, i < num → (s.free i = true ↔ i ∉ l.flatMap Req.idx)
  chain : ∀ r ∈ l, Chain s r
  apart : ∀ p q b, (s.phase p).buf = some b → (s.phase q).buf = some b → p = q

/-- The stages of a request: in the avail ring, taken by the device, in the used ring, seen by the
interrupt handler. -/
structure Flow where
  queued : List Req
  taken : List Req
  reported : List Req
  done : List Req

def Flow.all (f : Flow) : List Req := f.queued ++ (f.taken ++ (f.reported ++ f.done))

structure Rel (f : Flow) (s : Disk) : Prop where
  owned : Owned f.all s
  busy : ∀ r ∈ f.all, s.busy r.buf = true ↔ r ∉ f.done
  avail : Ring.Holds num 65536 s.availRing s.taken s.availIdx (f.queued.map Req.idx0)
  tickets : Ring.Holds num 65536 s.ticketRing s.taken s.availIdx (f.queued.map Req.ticket)
  pending : s.pending = f.taken.map fun r => (r.idx0, r.ticket)
  used : Ring.Holds num 65536 s.usedRing s.usedIdx s.usedIdxDev (f.reported.map Req.idx0)
  reports : ∀ r ∈ f.reported ++ f.done, ⟨r.ticket, r.req, r.buf⟩ ∈ s.reports
  issued : (∀ r ∈ f.all, r.ticket < s.tickets) ∧ ∀ x ∈ s.reports, x.ticket < s.tickets

section Owned

variable {l l' : List Req} {s s' : Disk} {r r' : Req}

theorem Owned.perm (h : Owned l s) (hp : l.Perm l') : Owned l' s := by
  have hm : ∀ i, i ∈ l'.flatMap Req.idx ↔ i ∈ l.flatMap Req.idx := fun i => (hp.flatMap_right Req.idx).symm.mem_iff
  refine ⟨fun p r => ?_, (hp.flatMap_right Req.idx).nodup h.nodup, fun i hi => h.lt i ((hm i).mp hi),
    fun i hi => ?_, fun r hr => h.chain r (hp.symm.subset hr), h.apart⟩
  · rw [h.phase, hp.mem_iff]
  · rw [h.free i hi, hm]

theorem Owned.same (h : Owned l s) (hd : s'.desc = s.desc) (ho : s'.ops = s.ops) (hi : s'.infoB = s.infoB)
    (hf : s'.free = s.free) (hp : s'.phase = s.phase) : Owned l s' := by
  refine ⟨fun p r => ?_, h.nodup, h.lt, fun i hi => ?_, fun r hr => ?_, fun p q b => ?_⟩
  · rw [hp]; exact h.phase p r
  · rw [hf]; exact h.free i hi
  · have hc := h.chain r hr
    exact ⟨hd ▸ hc.desc0, hd ▸ hc.desc1, hd ▸ hc.desc2, ho ▸ hc.op, hi ▸ hc.info⟩
  · rw [hp]; exact h.apart p q b

theorem Req.idx0_mem (r : Req) : r.idx0 ∈ r.idx := mem_cons_self
theorem Req.idx1_mem (r : Req) : r.idx1 ∈ r.idx := mem_cons_of_mem _ mem_cons_self
theorem Req.idx2_mem (r : Req) : r.idx2 ∈ r.idx :=
  mem_cons_of_mem _ (mem_cons_of_mem _ mem_cons_self)

theorem mem_idx (hr : r ∈ l) (hi : i ∈ r.idx) : i ∈ l.flatMap Req.idx :=
  mem_flatMap.mpr ⟨r, hr, hi⟩

theorem Owned.disjoint (h : Owned l s) (hr : r ∈ l) (hr' : r' ∈ l) (hne : r ≠ r') (hi : i ∈ r.idx) : i ∉ r'.idx := by
  rcases append_of_mem hr with ⟨u, v, rfl⟩
  have hnd := (perm_middle.flatMap_right Req.idx).nodup h.nodup
  rw [flatMap_cons, nodup_append] at hnd
  intro hi'
  refine hnd.2.2 i hi i (mem_idx ?_ hi') rfl
  have := perm_middle.subset hr'
  exact (mem_cons.mp this).resolve_left hne.symm

theorem Owned.idx_nodup (h : Owned l s) (hr : r ∈ l) : r.idx.Nodup := by
  rcases append_of_mem hr with ⟨u, v, rfl⟩
  have hnd := (perm_middle.flatMap_right Req.idx).nodup h.nodup
  rw [flatMap_cons, nodup_append] at hnd
  exact hnd.1

theorem nodup_of_idx (h : (l.flatMap Req.idx).Nodup) : l.Nodup := by
  induction l with
  | nil => exact nodup_nil
  | cons r l ih =>
    rw [flatMap_cons, nodup_append] at h
    exact nodup_cons.mpr ⟨fun hr => h.2.2 r.idx0 r.idx0_mem r.idx0 (mem_idx hr r.idx0_mem) rfl, ih h.2.1⟩

theorem Owned.list_nodup (h : Owned l s) : l.Nodup := nodup_of_idx h.nodup

theorem Owned.buf_inj (h : Owned l s) (hr : r ∈ l) (hr' : r' ∈ l) (hb : r.buf = r'.buf) : r = r' := by
  have h1 := (h.phase r.proc r).mpr ⟨hr, rfl⟩
  have h2 := (h.phase r'.proc r').mpr ⟨hr', rfl⟩
  have hp : r.proc = r'.proc := h.apart _ _ r.buf (by rw [h1]; rfl) (by rw [h2, hb]; rfl)
  rwa [← hp, h1, Phase.wait.injEq] at h2

theorem idx_length (l : List Req) : (l.flatMap Req.idx).length = 3 * l.length := by
  induction l with
  | nil => rfl
  | cons r l ih =>
    rw [flatMap_cons, length_append, ih, length_cons]
    show 3 + _ = _
    omega

theorem Owned.length_le (h : Owned l s) : l.length ≤ 2 := by
  have hsub : l.flatMap Req.idx ⊆ List.range num := fun i hi => mem_range.mpr (h.lt i hi)
  have hlen := (List.Nodup.subperm h.nodup hsub).length_le
  rw [idx_length, length_range] at hlen
  have : num = 8 := rfl
  omega

end Owned

/-! ### Descriptors -/

section Descriptors

variable {s s' : Disk} {i : Nat}

theorem allocDesc_some (h : allocDesc s = some (i, s')) :
    i < num ∧ s.free i = true ∧ s' = { s with free := update s.free i false } := by
  rcases Option.map_eq_some_iff.mp h with ⟨j, hj, he⟩
  rw [Prod.mk.injEq] at he
  rcases he with ⟨rfl, rfl⟩
  exact ⟨mem_range.mp (mem_of_find?_eq_some hj), find?_some hj, rfl⟩

theorem freeDesc_ok (hi : i < num) (hf : s.free i = false) :
    freeDesc i s = .ok { s with
      desc := update s.desc i ⟨.null, 0, 0, 0⟩
      free := update s.free i true } := by
  rw [freeDesc, if_neg (by omega), if_neg (by rw [hf]; decide)]

theorem update_back (h : g i = true) : update (update g i false) i true = g := by
  rw [update_idem, ← h, update_eq_self]

/-- Three descriptors marked as used. -/
def take3 (g : Nat → Bool) (i0 i1 i2 : Nat) : Nat → Bool :=
  update (update (update g i0 false) i1 false) i2 false

/-- Either three descriptors are found, or only free ones are touched. -/
theorem alloc3Desc_cases (s : Disk) :
    (∃ d, alloc3Desc s = .ok (none, { s with desc := d }) ∧ ∀ i, s.free i = false → d i = s.desc i) ∨
    ∃ i0 i1 i2, alloc3Desc s = .ok (some (i0, i1, i2), { s with free := take3 s.free i0 i1 i2 }) ∧
      [i0, i1, i2].Nodup ∧ ∀ i ∈ [i0, i1, i2], i < num ∧ s.free i = true := by
  unfold alloc3Desc
  cases h0 : allocDesc s with
  | none => exact .inl ⟨s.desc, rfl, fun _ _ => rfl⟩
  | some r0 =>
    rcases r0 with ⟨i0, s0⟩
    rcases allocDesc_some h0 with ⟨l0, f0, rfl⟩
    dsimp only
    cases h1 : allocDesc { s with free := update s.free i0 false } with
    | none =>
      left
      refine ⟨update s.desc i0 ⟨.null, 0, 0, 0⟩, ?_, fun i hi => ?_⟩
      · rw [freeAll, freeDesc_ok l0 (update_self ..), update_back f0]
        rfl
      · rw [update_of_ne]
        rintro rfl
        rw [f0] at hi
        cases hi
    | some r1 =>
      rcases r1 with ⟨i1, s1⟩
      rcases allocDesc_some h1 with ⟨l1, f1, rfl⟩
      dsimp only at f1 ⊢
      have h01 : i1 ≠ i0 := by
        rintro rfl
        rw [update_self] at f1
        cases f1
      rw [update_of_ne h01] at f1
      cases h2 : allocDesc { s with free := update (update s.free i0 false) i1 false } with
      | none =>
        left
        refine ⟨update (update s.desc i0 ⟨.null, 0, 0, 0⟩) i1 ⟨.null, 0, 0, 0⟩, ?_, fun i hi => ?_⟩
        · have e0 : update (update s.free i0 false) i1 false i0 = false := by
            rw [update_of_ne h01.symm, update_self]
          have e1 : update (update (update s.free i0 false) i1 false) i0 true =
              update s.free i1 false := by
            rw [update_comm h01.symm, update_back (by rw [update_of_ne h01.symm, f0])]
          rw [freeAll, freeDesc_ok l0 e0, e1]
          dsimp only [Except.bind]
          rw [freeAll, freeDesc_ok l1 (update_self ..), update_back f1]
          rfl
        · have n0 : i ≠ i0 := by rintro rfl; rw [f0] at hi; cases hi
          have n1 : i ≠ i1 := by rintro rfl; rw [f1] at hi; cases hi
          rw [update_of_ne n1, update_of_ne n0]
      | some r2 =>
        rcases r2 with ⟨i2, s2⟩
        rcases allocDesc_some h2 with ⟨l2, f2, rfl⟩
        dsimp only at f2 ⊢
        have h12 : i2 ≠ i1 := by
          rintro rfl
          rw [update_self] at f2
          cases f2
        rw [update_of_ne h12] at f2
        have h02 : i2 ≠ i0 := by
          rintro rfl
          rw [update_self] at f2
          cases f2
        rw [update_of_ne h02] at f2
        refine .inr ⟨i0, i1, i2, rfl, by simp [h01.symm, h02.symm, h12.symm], ?_⟩
        intro i hi
        simp only [mem_cons, not_mem_nil, or_false] at hi
        rcases hi with rfl | rfl | rfl
        · exact ⟨l0, f0⟩
        · exact ⟨l1, f1⟩
        · exact ⟨l2, f2⟩

theorem freeChain_next {j : Nat} (hi : i < num) (hf : s.free i = false) (hn : (s.desc i).flags.testBit 0)
    (hj : (s.desc i).next = j) : freeChain (k + 1) i s = freeChain k j { s with
      desc := update s.desc i ⟨.null, 0, 0, 0⟩
      free := update s.free i true } := by
  rw [freeChain, freeDesc_ok hi hf]
  dsimp only [Except.bind]
  rw [if_pos hn, hj]

theorem freeChain_last (hi : i < num) (hf : s.free i = false) (hn : (s.desc i).flags.testBit 0 = false) :
    freeChain (k + 1) i s = .ok { s with
      desc := update s.desc i ⟨.null, 0, 0, 0⟩
      free := update s.free i true } := by
  rw [freeChain, freeDesc_ok hi hf]
  dsimp only [Except.bind]
  rw [if_neg (by rw [hn]; decide)]

/-- Three descriptors cleared, and marked as free. -/
def clear3 (d : Nat → Desc) (i0 i1 i2 : Nat) : Nat → Desc :=
  update (update (update d i0 ⟨.null, 0, 0, 0⟩) i1 ⟨.null, 0, 0, 0⟩) i2 ⟨.null, 0, 0, 0⟩

def give3 (g : Nat → Bool) (i0 i1 i2 : Nat) : Nat → Bool :=
  update (update (update g i0 true) i1 true) i2 true

theorem freeChain_eq {i0 i1 i2 k : Nat} (hnd : [i0, i1, i2].Nodup)
    (hi : ∀ i ∈ [i0, i1, i2], i < num ∧ s.free i = false) (h0 : (s.desc i0).flags.testBit 0 ∧ (s.desc i0).next = i1)
    (h1 : (s.desc i1).flags.testBit 0 ∧ (s.desc i1).next = i2) (h2 : (s.desc i2).flags.testBit 0 = false) :
    freeChain (k + 3) i0 s = .ok { s with desc := clear3 s.desc i0 i1 i2, free := give3 s.free i0 i1 i2 } := by
  have n01 : i1 ≠ i0 := by rintro rfl; simp at hnd
  have n02 : i2 ≠ i0 := by rintro rfl; simp at hnd
  have n12 : i2 ≠ i1 := by rintro rfl; simp at hnd
  have m0 := hi i0 (by simp)
  have m1 := hi i1 (by simp)
  have m2 := hi i2 (by simp)
  have e1 : update s.desc i0 ⟨.null, 0, 0, 0⟩ i1 = s.desc i1 := update_of_ne n01 ..
  have e2 : update (update s.desc i0 ⟨.null, 0, 0, 0⟩) i1 ⟨.null, 0, 0, 0⟩ i2 = s.desc i2 := by
    rw [update_of_ne n12, update_of_ne n02]
  have f1 : update s.free i0 true i1 = false := by rw [update_of_ne n01, m1.2]
  have f2 : update (update s.free i0 true) i1 true i2 = false := by
    rw [update_of_ne n12, update_of_ne n02, m2.2]
  rw [freeChain_next m0.1 m0.2 h0.1 h0.2,
    freeChain_next m1.1 f1 ((congrArg (fun d : Desc => d.flags.testBit 0) e1).trans h1.1)
      ((congrArg Desc.next e1).trans h1.2),
    freeChain_last m2.1 f2 ((congrArg (fun d : Desc => d.flags.testBit 0) e2).trans h2)]
  rfl

end Descriptors

/-! ### Steps -/

section Steps

variable {f : Flow} {s s' : Disk} {p : Nat}

theorem Flow.mem_all : r ∈ f.all ↔ r ∈ f.queued ∨ r ∈ f.taken ∨ r ∈ f.reported ∨ r ∈ f.done := by
  simp only [Flow.all, mem_append]

theorem Rel.call (h : Rel f s) {buf : Nat} (req : BlkReq) (hp : s.phase p = .idle) (hb : Unused s buf) :
    Rel f { s with phase := update s.phase p (.alloc buf req) } := by
  refine ⟨⟨fun q r => ?_, h.owned.nodup, h.owned.lt, h.owned.free, fun r hr => ?_, fun q q' b hq hq' => ?_⟩,
    h.busy, h.avail, h.tickets, h.pending, h.used, h.reports, h.issued⟩
  · show update s.phase p (.alloc buf req) q = _ ↔ _
    by_cases hq : q = p
    · rw [hq, update_self, ← h.owned.phase p r, hp]
      constructor
      · nofun
      · nofun
    · rw [update_of_ne hq]
      exact h.owned.phase q r
  · have hc := h.owned.chain r hr
    exact ⟨hc.desc0, hc.desc1, hc.desc2, hc.op, hc.info⟩
  · change (update s.phase p (.alloc buf req) q).buf = some b at hq
    change (update s.phase p (.alloc buf req) q').buf = some b at hq'
    by_cases h1 : q = p
    · by_cases h2 : q' = p
      · rw [h1, h2]
      · rw [h1, update_self] at hq
        rw [update_of_ne h2, ← hq] at hq'
        exact absurd hq' (hb q')
    · rw [update_of_ne h1] at hq
      by_cases h2 : q' = p
      · rw [h2, update_self] at hq'
        rw [← hq'] at hq
        exact absurd hq (hb q)
      · rw [update_of_ne h2] at hq'
        exact h.owned.apart q q' b hq hq'

theorem Rel.redesc (h : Rel f s) {d : Nat → Desc} (hd : ∀ i, s.free i = false → d i = s.desc i) :
    Rel f { s with desc := d } := by
  have hbusy : ∀ r ∈ f.all, ∀ i ∈ r.idx, d i = s.desc i := fun r hr i hi => by
    have hm := mem_idx hr hi
    refine hd i (Bool.eq_false_iff.mpr fun hf => ?_)
    exact (h.owned.free i (h.owned.lt i hm)).mp hf hm
  refine ⟨⟨h.owned.phase, h.owned.nodup, h.owned.lt, h.owned.free, fun r hr => ?_, h.owned.apart⟩,
    h.busy, h.avail, h.tickets, h.pending, h.used, h.reports, h.issued⟩
  have hc := h.owned.chain r hr
  exact ⟨(hbusy r hr _ r.idx0_mem).trans hc.desc0, (hbusy r hr _ r.idx1_mem).trans hc.desc1,
    (hbusy r hr _ r.idx2_mem).trans hc.desc2, hc.op, hc.info⟩

theorem mem_take3 : take3 g i0 i1 i2 i = true ↔ g i = true ∧ i ∉ [i0, i1, i2] := by
  simp only [take3, update_apply, mem_cons, not_mem_nil, or_false]
  by_cases h2 : i = i2
  · simp [h2]
  · by_cases h1 : i = i1
    · simp [h1]
    · by_cases h0 : i = i0
      · simp [h0]
      · simp [h0, h1, h2]

section Submit

variable {l : List Req} {buf i0 i1 i2 : Nat} {req : BlkReq} (hp : s.phase p = .alloc buf req)
include hp

theorem Owned.proc_ne (h : Owned l s) : ∀ r ∈ l, r.proc ≠ p := fun r hr he => by
  have := (h.phase p r).mpr ⟨hr, he⟩
  rw [hp] at this
  cases this

theorem Owned.buf_ne (h : Owned l s) : ∀ r ∈ l, r.buf ≠ buf := fun r hr he => by
  have h1 := (h.phase r.proc r).mpr ⟨hr, rfl⟩
  refine h.proc_ne hp r hr (h.apart _ _ buf ?_ ?_)
  · rw [h1, ← he]
    rfl
  · rw [hp]
    rfl

variable (hnd : [i0, i1, i2].Nodup) (hi : ∀ i ∈ [i0, i1, i2], i < num ∧ s.free i = true)
include hnd hi

theorem Owned.submit (h : Owned l s) : Owned (⟨p, buf, req, i0, i1, i2, s.tickets⟩ :: l)
    (submit p buf req i0 i1 i2 { s with free := take3 s.free i0 i1 i2 }) := by
  have hnew : ∀ i ∈ [i0, i1, i2], i ∉ l.flatMap Req.idx := fun i hm => (h.free i (hi i hm).1).mp (hi i hm).2
  refine ⟨fun q r' => ?_, ?_, fun i hm => ?_, fun i hlt => ?_, fun r' hr' => ?_, fun q q' b hq hq' => ?_⟩
  · show update s.phase p _ q = _ ↔ _
    by_cases hq : q = p
    · rw [hq, update_self, Phase.wait.injEq, mem_cons]
      refine ⟨fun he => ⟨.inl he.symm, he ▸ rfl⟩, fun hm => ?_⟩
      exact (hm.1.resolve_right fun hl => h.proc_ne hp r' hl hm.2).symm
    · rw [update_of_ne hq, h.phase, mem_cons]
      refine ⟨fun hm => ⟨.inr hm.1, hm.2⟩, fun hm => ⟨hm.1.resolve_left fun he => hq ?_, hm.2⟩⟩
      rw [← hm.2, he]
  · rw [flatMap_cons, nodup_append]
    exact ⟨hnd, h.nodup, fun i hm j hj he => hnew i hm (he ▸ hj)⟩
  · rw [flatMap_cons, mem_append] at hm
    exact hm.elim (fun hm => (hi i hm).1) (h.lt i)
  · show take3 s.free i0 i1 i2 i = true ↔ _
    rw [mem_take3, h.free i hlt, flatMap_cons, mem_append, not_or, and_comm]
    rfl
  · rcases mem_cons.mp hr' with rfl | hl
    · have n01 : i1 ≠ i0 := by rintro rfl; simp at hnd
      have n02 : i2 ≠ i0 := by rintro rfl; simp at hnd
      have n12 : i2 ≠ i1 := by rintro rfl; simp at hnd
      refine ⟨?_, ?_, update_self .., update_self .., update_self ..⟩
      · exact (update_of_ne n02.symm ..).trans
          ((update_of_ne n01.symm ..).trans (update_self ..))
      · exact (update_of_ne n12.symm ..).trans (update_self ..)
    · have hout : ∀ i ∈ r'.idx, i ≠ i0 ∧ i ≠ i1 ∧ i ≠ i2 := fun i hm => by
        refine ⟨?_, ?_, ?_⟩
        all_goals
          rintro rfl
          exact hnew i (by simp) (mem_idx hl hm)
      have hdesc : ∀ i ∈ r'.idx,
          (Virtio.submit p buf req i0 i1 i2 { s with free := take3 s.free i0 i1 i2 }).desc i = s.desc i := fun i hm =>
        (update_of_ne (hout i hm).2.2 ..).trans
          ((update_of_ne (hout i hm).2.1 ..).trans (update_of_ne (hout i hm).1 ..))
      have hc := h.chain r' hl
      have h0 := (hout _ r'.idx0_mem).1
      exact ⟨(hdesc _ r'.idx0_mem).trans hc.desc0, (hdesc _ r'.idx1_mem).trans hc.desc1,
        (hdesc _ r'.idx2_mem).trans hc.desc2, (update_of_ne h0 ..).trans hc.op,
        (update_of_ne h0 ..).trans hc.info⟩
  · -- the process keeps its buffer
    have hsame : ∀ q, ((Virtio.submit p buf req i0 i1 i2 { s with free := take3 s.free i0 i1 i2 }).phase q).buf =
        (s.phase q).buf := fun q => by
      show (update s.phase p _ q).buf = _
      by_cases hq : q = p
      · rw [hq, update_self, hp]
        rfl
      · rw [update_of_ne hq]
    rw [hsame] at hq hq'
    exact h.apart q q' b hq hq'

theorem Rel.submit (h : Rel f s) : Rel { f with queued := f.queued ++ [⟨p, buf, req, i0, i1, i2, s.tickets⟩] }
    (submit p buf req i0 i1 i2 { s with free := take3 s.free i0 i1 i2 }) := by
  have hlen : f.queued.length < num := by
    have := h.owned.length_le
    have h8 : num = 8 := rfl
    rw [Flow.all, length_append] at this
    omega
  have hperm : ((⟨p, buf, req, i0, i1, i2, s.tickets⟩ : Req) :: f.all).Perm
      ({ f with queued := f.queued ++ [⟨p, buf, req, i0, i1, i2, s.tickets⟩] } : Flow).all := by
    rw [Flow.all, Flow.all, append_assoc]
    exact perm_middle.symm
  have hown := h.owned.submit hp hnd hi
  refine ⟨hown.perm hperm, fun r hr => ?_, ?_, ?_, h.pending, h.used, h.reports, fun r hr => ?_, fun x hx => ?_⟩
  · show update s.busy buf true r.buf = true ↔ r ∉ f.done
    rcases mem_cons.mp (hperm.symm.subset hr) with rfl | hr
    · rw [update_self]
      refine ⟨fun _ hd => h.owned.buf_ne hp _ (Flow.mem_all.mpr (.inr (.inr (.inr hd)))) rfl, fun _ => rfl⟩
    · rw [update_of_ne (h.owned.buf_ne hp r hr)]
      exact h.busy r hr
  · rw [map_append]
    exact h.avail.push (by decide) (by rw [length_map]; exact hlen) i0
  · rw [map_append]
    exact h.tickets.push (by decide) (by rw [length_map]; exact hlen) s.tickets
  · rcases mem_cons.mp (hperm.symm.subset hr) with rfl | hr
    · exact lt_succ_self _
    · exact lt_succ_of_lt (h.issued.1 r hr)
  · exact lt_succ_of_lt (h.issued.2 x hx)

end Submit

theorem Rel.rwAlloc (h : Rel f s) {buf : Nat} {req : BlkReq} (hp : s.phase p = .alloc buf req) :
    ∃ s' f', rwAlloc p buf req s = .ok s' ∧ Rel f' s' := by
  rcases alloc3Desc_cases s with ⟨d, he, hd⟩ | ⟨i0, i1, i2, he, hnd, hi⟩
  · exact ⟨_, f, by rw [Virtio.rwAlloc, he]; rfl, h.redesc hd⟩
  · exact ⟨_, _, by rw [Virtio.rwAlloc, he]; rfl, h.submit hp hnd hi⟩

/-! The device. -/

theorem Rel.consume (h : Rel f s) (hi : s.taken ≠ s.availIdx) : ∃ f', Rel f' (consume s) := by
  cases hq : f.queued with
  | nil =>
    have hr := h.avail
    rw [hq] at hr
    exact absurd ((hr.eq_iff (by decide)).mpr rfl) hi
  | cons r rest =>
    have ha := h.avail
    have ht := h.tickets
    rw [hq, map_cons] at ha ht
    have hperm : f.all.Perm (⟨rest, f.taken ++ [r], f.reported, f.done⟩ : Flow).all := by
      refine perm_iff_count.mpr fun a => ?_
      simp only [Flow.all, hq, count_append, count_cons, count_nil]
      omega
    refine ⟨⟨rest, f.taken ++ [r], f.reported, f.done⟩, (h.owned.perm hperm).same rfl rfl rfl rfl rfl,
      fun r hr => h.busy r (hperm.symm.subset hr), ha.pop, ht.pop, ?_, h.used, h.reports,
      fun r hr => h.issued.1 r (hperm.symm.subset hr), h.issued.2⟩
    show s.pending ++ [_] = _
    rw [h.pending, ha.head (by decide), ht.head (by decide), map_append]
    rfl

theorem next_bit : flagNext.testBit 0 = true := by decide

theorem write_bit : flagWrite.testBit 0 = false := by decide

theorem data_bit (w : Bool) : ((if w then 0 else flagWrite) ||| flagNext).testBit 0 = true := by
  cases w with
  | true => decide
  | false => decide

theorem Chain.complete {r : Req} (hc : Chain s r) (t st : Nat) :
    complete r.idx0 t st s = .ok { s with
      pending := s.pending.erase (r.idx0, t)
      infoStatus := update s.infoStatus r.idx0 st
      reports := ⟨t, r.req, r.buf⟩ :: s.reports
      usedRing := update s.usedRing (s.usedIdxDev % num) r.idx0
      usedIdxDev := inc16 s.usedIdxDev } := by
  simp only [Virtio.complete, hc.desc0, hc.desc1, hc.desc2, hc.op]
  rw [if_pos ⟨next_bit, data_bit _, by rw [write_bit]; decide⟩]

theorem Rel.complete (h : Rel f s) {hd t : Nat} (st : Nat) (hp : (hd, t) ∈ s.pending) :
    ∃ s' f', complete hd t st s = .ok s' ∧ Rel f' s' := by
  rw [h.pending] at hp
  rcases mem_map.mp hp with ⟨r, hr, he⟩
  rw [Prod.mk.injEq] at he
  rcases he with ⟨rfl, rfl⟩
  rcases append_of_mem hr with ⟨u, v, huv⟩
  have hall : ∀ r' ∈ f.taken, r' ∈ f.all := fun r' hr' => Flow.mem_all.mpr (.inr (.inl hr'))
  have hperm : f.all.Perm (⟨f.queued, u ++ v, f.reported ++ [r], f.done⟩ : Flow).all := by
    refine perm_iff_count.mpr fun a => ?_
    simp only [Flow.all, huv, count_append, count_cons, count_nil]
    omega
  have hlen : f.reported.length < num := by
    have := h.owned.length_le
    have h8 : num = 8 := rfl
    simp only [Flow.all, length_append] at this
    omega
  have hu : (r.idx0, r.ticket) ∉ u.map fun r => (r.idx0, r.ticket) := fun hm => by
    rcases mem_map.mp hm with ⟨r', hr', he⟩
    have hmem : r' ∈ f.taken := by
      rw [huv]
      exact mem_append_left _ hr'
    have hsub : f.taken.Sublist f.all := (sublist_append_left ..).trans (sublist_append_right ..)
    have hnd := h.owned.list_nodup.sublist hsub
    rw [huv, perm_middle.nodup_iff, nodup_cons] at hnd
    have hne : r' ≠ r := fun he => hnd.1 (he ▸ mem_append_left _ hr')
    refine h.owned.disjoint (hall r' hmem) (hall r hr) hne r'.idx0_mem ?_
    rw [(Prod.mk.inj he).1]
    exact r.idx0_mem
  refine ⟨_, _, (h.owned.chain r (hall r hr)).complete r.ticket st, (h.owned.perm hperm).same rfl rfl rfl rfl rfl,
    fun r' hr' => h.busy r' (hperm.symm.subset hr'), h.avail, h.tickets, ?_, ?_, fun r' hr' => ?_,
    fun r' hr' => h.issued.1 r' (hperm.symm.subset hr'), fun x hx => ?_⟩
  · rw [h.pending, huv, map_append, erase_append_right _ hu, map_cons, erase_cons_head, map_append]
  · rw [map_append]
    exact h.used.push (by decide) (by rw [length_map]; exact hlen) r.idx0
  · rw [append_assoc, mem_append, mem_append, mem_singleton] at hr'
    rcases hr' with hr' | rfl | hr'
    · exact mem_cons_of_mem _ (h.reports r' (mem_append_left _ hr'))
    · exact mem_cons_self
    · exact mem_cons_of_mem _ (h.reports r' (mem_append_right _ hr'))
  · rcases mem_cons.mp hx with rfl | hx
    · exact h.issued.1 r (hall r hr)
    · exact h.issued.2 x hx

/-! Interrupts and the end of a call. -/

/-- The handler clears the flag of the request it finds, or stops at a status the device has set. -/
theorem Rel.intr (h : Rel f s) (hi : s.usedIdx ≠ s.usedIdxDev) :
    intr s = .error .intrStatus ∨ ∃ s' f', intr s = .ok s' ∧ Rel f' s' := by
  cases hq : f.reported with
  | nil =>
    have hu := h.used
    rw [hq] at hu
    exact absurd ((hu.eq_iff (by decide)).mpr rfl) hi
  | cons r rest =>
    have hu := h.used
    rw [hq, map_cons] at hu
    have hr : r ∈ f.all := Flow.mem_all.mpr (.inr (.inr (.inl (hq ▸ mem_cons_self))))
    have hid : s.usedRing (s.usedIdx % num) = r.idx0 := hu.head (by decide)
    simp only [Virtio.intr, hid, (h.owned.chain r hr).info]
    by_cases hst : s.infoStatus r.idx0 ≠ 0
    · rw [if_pos hst]
      exact .inl rfl
    · rw [if_neg hst]
      have hperm : f.all.Perm (⟨f.queued, f.taken, rest, r :: f.done⟩ : Flow).all := by
        refine perm_iff_count.mpr fun a => ?_
        simp only [Flow.all, hq, count_append, count_cons]
        omega
      refine .inr ⟨_, ⟨f.queued, f.taken, rest, r :: f.done⟩, rfl, (h.owned.perm hperm).same rfl rfl rfl rfl rfl,
        fun r' hr' => ?_, h.avail, h.tickets, h.pending, hu.pop, fun r' hr' => ?_,
        fun r' hr' => h.issued.1 r' (hperm.symm.subset hr'), h.issued.2⟩
      · have hr' := hperm.symm.subset hr'
        show update s.busy r.buf false r'.buf = true ↔ r' ∉ r :: f.done
        by_cases he : r' = r
        · rw [he, update_self]
          exact ⟨nofun, fun hn => absurd mem_cons_self hn⟩
        · have hb : r'.buf ≠ r.buf := fun hb => he (h.owned.buf_inj hr' hr hb)
          rw [update_of_ne hb, h.busy r' hr', mem_cons, not_or]
          exact ⟨fun hd => ⟨he, hd⟩, And.right⟩
      · refine h.reports r' ?_
        rw [hq]
        exact perm_middle.subset hr'

theorem mem_give3 : give3 g i0 i1 i2 i = true ↔ g i = true ∨ i ∈ [i0, i1, i2] := by
  simp only [give3, update_apply, mem_cons, not_mem_nil, or_false]
  by_cases h2 : i = i2
  · simp [h2]
  · by_cases h1 : i = i1
    · simp [h1]
    · by_cases h0 : i = i0
      · simp [h0]
      · simp [h0, h1, h2]

/-- What the end of a call leaves. -/
def finished (r : Req) (s : Disk) : Disk :=
  { s with
    desc := clear3 s.desc r.idx0 r.idx1 r.idx2
    free := give3 s.free r.idx0 r.idx1 r.idx2
    infoB := update s.infoB r.idx0 none
    phase := update s.phase r.proc .idle }

theorem Owned.rwFinish (h : Owned l s) (hr : r ∈ l) : rwFinish r.proc r s = .ok (finished r s) := by
  have hc := h.chain r hr
  have hi : ∀ i ∈ [r.idx0, r.idx1, r.idx2], i < num ∧ s.free i = false := fun i hm => by
    have hm := mem_idx hr hm
    refine ⟨h.lt i hm, Bool.eq_false_iff.mpr fun hf => ?_⟩
    exact (h.free i (h.lt i hm)).mp hf hm
  have hchain := @freeChain_eq { s with infoB := update s.infoB r.idx0 none } _ _ _ 6 (h.idx_nodup hr) hi
    (by rw [hc.desc0]; exact ⟨next_bit, rfl⟩) (by rw [hc.desc1]; exact ⟨data_bit _, rfl⟩)
      (by rw [hc.desc2]; exact write_bit)
  rw [Virtio.rwFinish, show num + 1 = 6 + 3 from rfl, hchain]
  rfl

theorem Owned.finish (h : Owned (r :: l) s) : Owned l (finished r s) := by
  have hnd := h.nodup
  rw [flatMap_cons, nodup_append] at hnd
  have hout : ∀ i ∈ l.flatMap Req.idx, i ∉ r.idx := fun i hi hm => hnd.2.2 i hm i hi rfl
  have hne : ∀ r' ∈ l, r' ≠ r := fun r' hr' he => (nodup_cons.mp h.list_nodup).1 (he ▸ hr')
  refine ⟨fun q r' => ?_, hnd.2.1, fun i hm => ?_, fun i hlt => ?_, fun r' hr' => ?_, fun q q' b hq hq' => ?_⟩
  · show update s.phase r.proc .idle q = _ ↔ _
    by_cases hq : q = r.proc
    · rw [hq, update_self]
      refine ⟨nofun, fun hm => ?_⟩
      have h1 := (h.phase r.proc r').mpr ⟨mem_cons_of_mem r hm.1, hm.2⟩
      rw [(h.phase r.proc r).mpr ⟨mem_cons_self, rfl⟩, Phase.wait.injEq] at h1
      exact absurd h1.symm (hne r' hm.1)
    · rw [update_of_ne hq, h.phase, mem_cons]
      refine ⟨fun hm => ⟨hm.1.resolve_left fun he => hq ?_, hm.2⟩, fun hm => ⟨.inr hm.1, hm.2⟩⟩
      rw [← hm.2, he]
  · exact h.lt i (by rw [flatMap_cons]; exact mem_append_right _ hm)
  · show give3 s.free r.idx0 r.idx1 r.idx2 i = true ↔ _
    rw [mem_give3, h.free i hlt, flatMap_cons, mem_append, not_or]
    by_cases hm : i ∈ r.idx
    · exact ⟨fun _ hl => hout i hl hm, fun _ => .inr hm⟩
    · exact ⟨fun hl => (hl.resolve_right hm).2, fun hl => .inl ⟨hm, hl⟩⟩
  · have hc := h.chain r' (mem_cons_of_mem r hr')
    have hdesc : ∀ i ∈ r'.idx, (finished r s).desc i = s.desc i := fun i hi => by
      have hi := hout i (mem_idx hr' hi)
      simp only [Req.idx, mem_cons, not_mem_nil, or_false, not_or] at hi
      exact (update_of_ne hi.2.2 ..).trans
        ((update_of_ne hi.2.1 ..).trans (update_of_ne hi.1 ..))
    have h0 : r'.idx0 ≠ r.idx0 := fun he => hout r'.idx0 (mem_idx hr' r'.idx0_mem) (he ▸ r.idx0_mem)
    exact ⟨(hdesc _ r'.idx0_mem).trans hc.desc0, (hdesc _ r'.idx1_mem).trans hc.desc1,
      (hdesc _ r'.idx2_mem).trans hc.desc2, hc.op, (update_of_ne h0 ..).trans hc.info⟩
  · change (update s.phase r.proc .idle q).buf = some b at hq
    change (update s.phase r.proc .idle q').buf = some b at hq'
    have hkeep : ∀ q, (update s.phase r.proc .idle q).buf = some b → (s.phase q).buf = some b := fun q hq => by
      by_cases he : q = r.proc
      · rw [he, update_self] at hq
        cases hq
      · rwa [update_of_ne he] at hq
    exact h.apart q q' b (hkeep q hq) (hkeep q' hq')

theorem Rel.finish (h : Rel f s) (hp : s.phase p = .wait r) (hb : s.busy r.buf = false) :
    ∃ f', rwFinish p r s = .ok (finished r s) ∧ Rel f' (finished r s) := by
  rcases (h.owned.phase p r).mp hp with ⟨hr, rfl⟩
  have hd : r ∈ f.done := by
    by_contra hd
    have := (h.busy r hr).mpr hd
    rw [hb] at this
    cases this
  rcases append_of_mem hd with ⟨u, v, huv⟩
  have hperm : f.all.Perm (r :: (⟨f.queued, f.taken, f.reported, u ++ v⟩ : Flow).all) := by
    refine perm_iff_count.mpr fun a => ?_
    simp only [Flow.all, huv, count_append, count_cons]
    omega
  have hown := (h.owned.perm hperm).finish
  refine ⟨⟨f.queued, f.taken, f.reported, u ++ v⟩, h.owned.rwFinish hr, hown, fun r' hr' => ?_, h.avail, h.tickets,
    h.pending, h.used, fun r' hr' => h.reports r' ?_,
    fun r' hr' => h.issued.1 r' (hperm.symm.subset (mem_cons_of_mem r hr')), h.issued.2⟩
  · have hne : r' ≠ r := fun he => (nodup_cons.mp (h.owned.perm hperm).list_nodup).1 (he ▸ hr')
    have hb := h.busy r' (hperm.symm.subset (mem_cons_of_mem r hr'))
    rw [huv, mem_append, mem_cons] at hb
    show s.busy r'.buf = true ↔ r' ∉ u ++ v
    rw [hb, mem_append]
    simp [hne]
  · rw [huv]
    rw [mem_append, mem_append] at hr'
    simp only [mem_append, mem_cons]
    exact hr'.imp_right fun hm => hm.imp_right .inr

theorem Rel.step {a : Step} {x : Result} (h : Rel f s) (hs : Can a s x) :
    x = .error .intrStatus ∨ ∃ s' f', x = .ok s' ∧ Rel f' s' := by
  cases hs with
  | call hp hb => exact .inr ⟨_, f, rfl, h.call _ hp hb⟩
  | alloc hp => exact .inr (h.rwAlloc hp)
  | finish hp hb =>
    rcases h.finish hp hb with ⟨f', he, hr⟩
    exact .inr ⟨_, f', he, hr⟩
  | intr hi => exact h.intr hi
  | consume hi =>
    rcases h.consume hi with ⟨f', hr⟩
    exact .inr ⟨_, f', rfl, hr⟩
  | complete hp => exact .inr (h.complete _ hp)

end Steps

theorem init_rel : Rel ⟨[], [], [], []⟩ init := by
  refine ⟨⟨fun p r => ⟨nofun, nofun⟩, nodup_nil, nofun, fun i _ => ⟨fun _ => nofun, fun _ => rfl⟩, nofun, nofun⟩,
    nofun, .nil (by decide), .nil (by decide), rfl, .nil (by decide), nofun, nofun, nofun⟩

theorem Reachable.rel {s : Disk} (h : Reachable s) : ∃ f, Rel f s := by
  induction h with
  | init => exact ⟨_, init_rel⟩
  | step _ hs ih =>
    rcases ih with ⟨f, hf⟩
    rcases hf.step hs with he | ⟨s', f', he, hr⟩
    · cases he
    · cases he
      exact ⟨f', hr⟩

/-- For any processes, any device and any interleaving: no descriptor is in two requests or free while
in one; the flag of a buffer is cleared only when the device has reported its request; freeing does
not panic; and without requests in flight all descriptors are free. -/
theorem virtio_protocol {s : Disk} (h : Reachable s) :
    (∀ p q r r', s.phase p = .wait r → s.phase q = .wait r' → p ≠ q → ∀ i ∈ r.idx, i ∉ r'.idx) ∧
    (∀ p r, s.phase p = .wait r → ∀ i ∈ r.idx, i < num ∧ s.free i = false) ∧
    (∀ p r, s.phase p = .wait r → s.busy r.buf = false → ⟨r.ticket, r.req, r.buf⟩ ∈ s.reports) ∧
    (∀ a e, Can a s (.error e) → e = .intrStatus) ∧
    ((∀ p r, s.phase p ≠ .wait r) → ∀ i, i < num → s.free i = true) := by
  rcases h.rel with ⟨f, hf⟩
  refine ⟨fun p q r r' hp hq hne i hi => ?_, fun p r hp i hi => ?_, fun p r hp hb => ?_, fun a e he => ?_,
    fun hno i hi => ?_⟩
  · rcases (hf.owned.phase p r).mp hp with ⟨hr, rfl⟩
    rcases (hf.owned.phase q r').mp hq with ⟨hr', rfl⟩
    exact hf.owned.disjoint hr hr' (fun he => hne (he ▸ rfl)) hi
  · rcases (hf.owned.phase p r).mp hp with ⟨hr, rfl⟩
    have hm := mem_idx hr hi
    refine ⟨hf.owned.lt i hm, Bool.eq_false_iff.mpr fun hfree => ?_⟩
    exact (hf.owned.free i (hf.owned.lt i hm)).mp hfree hm
  · rcases (hf.owned.phase p r).mp hp with ⟨hr, rfl⟩
    have hd : r ∈ f.done := by
      by_contra hd
      have := (hf.busy r hr).mpr hd
      rw [hb] at this
      cases this
    exact hf.reports r (mem_append_right _ hd)
  · rcases hf.step he with he | ⟨_, _, he, _⟩
    · cases he
      rfl
    · cases he
  · refine (hf.owned.free i hi).mpr fun hm => ?_
    rcases mem_flatMap.mp hm with ⟨r, hr, _⟩
    exact hno r.proc r ((hf.owned.phase r.proc r).mpr ⟨hr, rfl⟩)

/-- Process 0 writes buffer 5, and the interrupt for it has come. -/
theorem one_request_done : ∃ s, Reachable s ∧ s.phase 0 = .wait ⟨0, 5, ⟨true, 10⟩, 0, 1, 2, 0⟩ ∧
    s.busy 5 = false ∧ (⟨0, ⟨true, 10⟩, 5⟩ : Report) ∈ s.reports := by
  have h1 : Reachable { init with phase := update init.phase 0 (.alloc 5 ⟨true, 10⟩) } :=
    .step .init (.call rfl fun _ => nofun)
  have h2 := Reachable.step h1 (.alloc (update_self ..))
  have h3 := Reachable.step h2 (.consume (by decide))
  have h4 := Reachable.step h3 (@Can.complete _ 0 0 0 mem_cons_self)
  have h5 := Reachable.step h4 (.intr (by decide))
  exact ⟨_, h5, rfl, rfl, (virtio_protocol h5).2.2.1 0 _ rfl rfl⟩

end Xv6Vfs.Virtio
