import Xv6Vfs.Fat32.Reading

/-! Two ways to the slots of a directory: the loops over clusters, sectors and bytes that count `pos` up, and the
walk to
a byte offset. -/
namespace Xv6Vfs.Fat32
open Xv6Vfs.Bytes Option Nat

/-- Sector and byte of the slots of a cluster, in the order of the loops. -/
def clusterPlaces (fm : Mount) (c : Nat) : List (Nat × Nat) :=
  (List.range fm.secPerClus).flatMap fun s =>
    (List.range (bps / 32)).map fun k => (uint (clusToSec fm c + s), 32 * k)

/-- The values of `pos`, a `uint`, and the slots that the loops of `dlookup`, `dfree` and `freaddir` come to if no slot
ends them. -/
def scanPlaces (fm : Mount) (disk : Disk) : (fuel c pos : Nat) → Option (List (Nat × Nat × Nat))
  | 0, _, _ => none
  | fuel + 1, c, pos =>
    if 2 ≤ c ∧ c < eocMin then
      (scanPlaces fm disk fuel (readFat fm disk c) (uint (pos + 32 * (clusterPlaces fm c).length))).map
        ((clusterPlaces fm c).mapIdx (fun i p => (uint (pos + 32 * i), p)) ++ ·)
    else some []

/-- `dlookup` and the sweeps of `dfree` and `freaddir` go over the slots `ps` in this order. -/
structure Scans (v : Volume) (disk : Disk) (first : Nat) (ps : List (Nat × Nat)) : Prop where
  sweep : ∀ {σ ρ : Type} (step : Bytes → σ → Sum ρ σ) (st : σ), sweepChain v.toMount disk step chainFuel first st =
    some (sweep step (ps.map fun p => sread disk p.1 p.2) st)
  dlookup : ∀ nm st, dlookupFrom v.toMount disk nm chainFuel first 0 st =
    (scan nm (ps.map fun p => sread disk p.1 p.2) 0 st).map outcome

/-- A sequential scan of the directory is at slot `p` with `pos == off`. -/
def ScanAt (fm : Mount) (disk : Disk) (first off : Nat) (p : Nat × Nat) : Prop :=
  ∃ l, scanPlaces fm disk chainFuel first 0 = some l ∧ (off, p) ∈ l

/-- The slot that the backward scan of `freaddir` reads for `off`. -/
def backPlace (fm : Mount) (disk : Disk) (first off : Nat) : Nat × Nat :=
  let bo := off % (fm.secPerClus * bps)
  (uint (clusToSec fm (backClus fm disk (off / clusBytes fm) first) + bo / bps), bo % bps)

/-- `sync_dirent` for a file of `size` bytes from cluster `c` on with its entry at `off` of the directory. -/
def syncDirent (v : Volume) (pdirClus off size c : Nat) (disk : Disk) : Option Disk :=
  if pdirClus = 0 then some disk
  else (locate v.toMount disk pdirClus off).map fun p =>
    swrite v p.1 p.2 (put16 (put16 (put32 (sread disk p.1 p.2) 28 size) 20 (c / 65536)) 26 c) 32 disk

/-- The random-access paths take `off` for slot `p`. -/
structure Addresses (v : Volume) (disk : Disk) (first off : Nat) (p : Nat × Nat) : Prop where
  dwriteRaw : ∀ e, dwriteRaw v first off e disk = some (swrite v p.1 p.2 e 32 disk)
  syncDirent : ∀ size c, syncDirent v first off size c disk =
    some (swrite v p.1 p.2 (put16 (put16 (put32 (sread disk p.1 p.2) 28 size) 20 (c / 65536)) 26 c) 32 disk)
  countLfnBackwards : ∀ seq, countLfnBackwards v.toMount disk first (off / 32 + 1) seq =
    if dirAttr (sread disk p.1 p.2) = attrLongName ∧ lfnSeq (sread disk p.1 p.2) = seq then
      1 + countLfnBackwards v.toMount disk first (off / 32) (seq + 1)
    else 0
  freaddir : backPlace v.toMount disk first off = p
  funlink : ∀ n, markDeleted v first (n + 1) off disk =
    markDeleted v first n (off + 32) (swrite v p.1 p.2 (fun _ => 0xE5) 1 disk)

/-- The scans take the slots in the order of `scanPlaces`, both ways lead to the same slots, and `dwrite_raw` fails
behind the end of the chain only. -/
structure SlotsAgree (v : Volume) (disk : Disk) (first : Nat) (cs : List Nat) : Prop where
  scans : ∃ l, scanPlaces v.toMount disk chainFuel first 0 = some l ∧ Scans v disk first (l.map fun e => e.2)
  slots : ∀ off < 2 ^ 32, off % 32 = 0 → off < cs.length * clusBytes v.toMount →
    ∃ p, Addresses v disk first off p ∧ ∀ q, ScanAt v.toMount disk first off q ↔ q = p
  past : ∀ off < 2 ^ 32, ∀ e, dwriteRaw v first off e disk = none ↔ cs.length * clusBytes v.toMount ≤ off

/-- Every sector of the clusters has a 32-bit number. -/
def OnDevice (v : Volume) (cs : List Nat) : Prop :=
  ∀ x ∈ cs, (x - 2) * v.secPerClus + v.firstDataSec + v.secPerClus ≤ 2 ^ 32

theorem clusterSlots_places (fm : Mount) (disk : Disk) (c : Nat) :
    clusterSlots fm disk c = (clusterPlaces fm c).map fun p => sread disk p.1 p.2 := by
  rw [clusterSlots, clusterPlaces, List.map_flatMap]
  simp only [List.map_map, Function.comp_def]

theorem rawSlots_places (v : Volume) (disk : Disk) (cs : List Nat) :
    rawSlots v disk cs = (cs.flatMap (clusterPlaces v.toMount)).map fun p => sread disk p.1 p.2 := by
  rw [rawSlots, List.map_flatMap, funext (clusterSlots_places v.toMount disk)]

section Chain

variable {v : Volume} {disk : Disk} {first : Nat} {cs : List Nat}

theorem clusterPlaces_eq (v : Volume) (x : Nat) :
    clusterPlaces v.toMount x = (List.range (perClus v)).map (slotPos v x) := by
  rw [clusterPlaces, range_flatMap_range _ _ _ (by decide)]
  apply List.map_congr_left
  intro j hj
  have hlt : j < perClus v := List.mem_range.mp hj
  rw [slotPos, mod_eq_of_lt hlt, bps]
  congr 2 <;> omega

theorem Links.scanPlaces_eq (h : Links v.toMount disk first cs) {fuel : Nat} (hf : cs.length < fuel) (pos : Nat) :
    scanPlaces v.toMount disk fuel first pos =
      some ((cs.flatMap (clusterPlaces v.toMount)).mapIdx fun i p => (uint (pos + 32 * i), p)) := by
  induction h generalizing fuel pos with
  | @last c hc he =>
    cases fuel with
    | zero => omega
    | succ fuel =>
      cases fuel with
      | zero => simp at hf
      | succ fuel =>
        rw [scanPlaces, if_pos ⟨hc.1, hc.2⟩, scanPlaces, if_neg (by omega), map_some, List.append_nil,
          List.flatMap_singleton]
  | @next c cs hc ht ih =>
    cases fuel with
    | zero => omega
    | succ fuel =>
      rw [List.length_cons] at hf
      rw [scanPlaces, if_pos ⟨hc.1, hc.2⟩, ih (by omega), map_some, List.flatMap_cons, List.mapIdx_append]
      congr 3
      funext i p
      simp only [uint, Prod.mk.injEq, and_true]
      omega

theorem addresses (h : Links v.toMount disk first cs) {off : Nat} (hdvd : off % 32 = 0) {p : Nat × Nat}
    (hp : locate v.toMount disk first off = some p) : Addresses v disk first off p := by
  have hne : first ≠ 0 := by
    have := h.head.1.1
    omega
  have hoff : 32 * (off / 32) = off := by omega
  refine ⟨fun e => ?_, fun size c => ?_, fun seq => ?_, ?_, fun n => ?_⟩
  · rw [dwriteRaw, hp, map_some]
  · rw [syncDirent, if_neg hne, hp, map_some]
  · rw [countLfnBackwards, hoff, hp]
  · rw [locate, h.clusAt_eq] at hp
    cases hx : cs[off / clusBytes v.toMount]? with
    | none =>
      rw [hx] at hp
      cases hp
    | some x =>
      rw [hx] at hp
      rw [backPlace, h.backClus_eq hx]
      exact some.inj hp
  · rw [markDeleted, hp]

theorem Links.scans (h : Links v.toMount disk first cs) :
    ∃ l, scanPlaces v.toMount disk chainFuel first 0 = some l ∧ Scans v disk first (l.map fun e => e.2) := by
  refine ⟨_, h.scanPlaces_eq h.length_lt 0, ?_⟩
  simp only [List.mapIdx_eq_zipIdx_map, List.map_map, Function.comp_def, List.zipIdx_map_fst]
  constructor
  · intro σ ρ step st
    rw [h.sweep_eq h.length_lt, rawSlots_places]
  · intro nm st
    rw [h.dlookupFrom_eq h.length_lt, rawSlots_places]

variable (hspc : 0 < v.secPerClus)
include hspc

section

variable (h : Links v.toMount disk first cs)
include h

theorem places_getElem? (j : Nat) :
    (cs.flatMap (clusterPlaces v.toMount))[j]? = locate v.toMount disk first (32 * j) := by
  have hpos : 0 < perClus v := Nat.mul_pos hspc (by decide)
  rw [h.locate_eq, flatMap_getElem? (fun x _ => by rw [clusterPlaces_eq, List.length_map, List.length_range]) hpos]
  cases cs[j / perClus v]? with
  | none => rfl
  | some x =>
    rw [bind_some, clusterPlaces_eq, List.getElem?_map, List.getElem?_range (mod_lt j hpos), map_some,
      map_some, slotPos, slotPos, mod_mod]

theorem scanAt_iff (off : Nat) (q : Nat × Nat) : ScanAt v.toMount disk first off q ↔
    ∃ j, locate v.toMount disk first (32 * j) = some q ∧ uint (32 * j) = off := by
  have hscan := h.scanPlaces_eq h.length_lt 0
  simp only [ScanAt, hscan, some.injEq, exists_eq_left', List.mem_iff_getElem?, List.getElem?_mapIdx,
    places_getElem? hspc h, map_eq_some_iff, Nat.zero_add, Prod.mk.injEq]
  constructor
  · rintro ⟨j, p, hp, hoff, rfl⟩
    exact ⟨j, hp, hoff⟩
  · rintro ⟨j, hp, hoff⟩
    exact ⟨j, q, hp, hoff, rfl⟩

theorem locate_eq_none {off : Nat} :
    locate v.toMount disk first off = none ↔ cs.length * clusBytes v.toMount ≤ off := by
  have hpos : 0 < clusBytes v.toMount := by
    rw [(clusBytes_eq v).1, perClus]
    omega
  rw [locate, map_eq_none_iff, h.clusAt_eq, List.getElem?_eq_none_iff, Nat.le_div_iff_mul_le hpos]

theorem slotsAgree_of_le (hle : cs.length * clusBytes v.toMount ≤ 2 ^ 32) : SlotsAgree v disk first cs := by
  refine ⟨h.scans, ?_, ?_⟩
  · intro off hlt hdvd hin
    cases hp : locate v.toMount disk first off with
    | none => exact absurd hin (Nat.not_lt.mpr ((locate_eq_none hspc h).mp hp))
    | some p =>
      refine ⟨p, addresses h hdvd hp, fun q => ?_⟩
      rw [scanAt_iff hspc h]
      constructor
      · rintro ⟨j, hj, hoff⟩
        have hjlt : 32 * j < 2 ^ 32 := by
          by_contra hge
          rw [(locate_eq_none hspc h).mpr (by omega)] at hj
          cases hj
        rw [uint, mod_eq_of_lt hjlt] at hoff
        rw [hoff, hp] at hj
        exact (some.inj hj).symm
      · rintro rfl
        have hoff : 32 * (off / 32) = off := by omega
        exact ⟨off / 32, by rw [hoff, hp], by rw [hoff, uint, mod_eq_of_lt hlt]⟩
  · intro off _ e
    rw [dwriteRaw, map_eq_none_iff, locate_eq_none hspc h]

theorem sector_onDevice (hdev : OnDevice v cs) {x s : Nat} (hx : x ∈ cs) (hs : s < v.secPerClus) :
    uint (clusToSec v.toMount x + s) = (x - 2) * v.secPerClus + v.firstDataSec + s := by
  obtain ⟨cs', h', -⟩ := h.suffix hx
  have hin := h'.head.1
  have hsub : uint (x + (2 ^ 32 - 2)) = x - 2 := by
    have := hin.1
    have := hin.2
    rw [eocMin] at this
    rw [uint]
    omega
  have hd := hdev x hx
  rw [clusToSec, hsub, uint, uint]
  omega

/-- No other slot lies where the first one does. -/
theorem first_place (hdev : OnDevice v cs) {j : Nat} {p : Nat × Nat}
    (h0 : locate v.toMount disk first (32 * 0) = some p) (hj : locate v.toMount disk first (32 * j) = some p) :
    j = 0 := by
  rw [h.locate_eq, map_eq_some_iff] at h0 hj
  obtain ⟨x, hx, hp⟩ := h0
  obtain ⟨y, hy, hq⟩ := hj
  have hlt : j % perClus v < perClus v := mod_lt j (Nat.mul_pos hspc (by decide))
  have hs : 32 * (j % perClus v) / 512 < v.secPerClus := by
    rw [perClus] at hlt ⊢
    omega
  have heq := hq.trans hp.symm
  rw [slotPos, slotPos, sector_onDevice hspc h hdev (List.mem_of_getElem? hy) hs,
    sector_onDevice hspc h hdev (List.mem_of_getElem? hx) (by rwa [zero_mod]), zero_mod] at heq
  obtain ⟨hsec, hbyte⟩ := Prod.mk.inj heq
  have hmul : v.secPerClus * (y - 2) + 32 * (j % perClus v) / 512 = v.secPerClus * (x - 2) := by
    rw [Nat.mul_comm, Nat.mul_comm _ (x - 2)]
    omega
  have hclus : y - 2 = x - 2 := by
    calc y - 2 = (v.secPerClus * (y - 2) + 32 * (j % perClus v) / 512) / v.secPerClus := by
          rw [mul_add_div hspc, div_eq_of_lt hs, Nat.add_zero]
      _ = x - 2 := by rw [hmul, Nat.mul_div_cancel_left _ hspc]
  have hxy : y = x := by
    obtain ⟨cs', h', -⟩ := h.suffix (List.mem_of_getElem? hx)
    obtain ⟨cs'', h'', -⟩ := h.suffix (List.mem_of_getElem? hy)
    have := h'.head.1.1
    have := h''.head.1.1
    omega
  have hmod : j % perClus v = 0 := by
    rw [hclus] at hmul
    omega
  have hdiv : 0 / perClus v = j / perClus v :=
    (List.getElem?_inj (List.getElem?_eq_some_iff.mp hx).1 h.nodup).mp (by rw [hx, hy, hxy])
  rw [← div_add_mod j (perClus v), hmod, ← hdiv, Nat.zero_div]
  rfl

end

/-- The random-access paths and the sequential scans take every offset of a directory for the same slot if the
directory has at most 4 GiB, and on a device with 32-bit sector numbers only then: `pos` wraps around, and a scan is
at a second slot with `pos == 0`. -/
theorem slots_agree_iff (h : Links v.toMount disk first cs) :
    (cs.length * clusBytes v.toMount ≤ 2 ^ 32 → SlotsAgree v disk first cs) ∧
      (OnDevice v cs → (SlotsAgree v disk first cs ↔ cs.length * clusBytes v.toMount ≤ 2 ^ 32)) := by
  refine ⟨slotsAgree_of_le hspc h, fun hdev => ⟨fun hagree => ?_, slotsAgree_of_le hspc h⟩⟩
  by_contra hlt
  have hat : ∀ j, 32 * j ≤ 2 ^ 32 → ∃ q, locate v.toMount disk first (32 * j) = some q := fun j hj =>
    ne_none_iff_exists'.mp fun hnone => by
      have := (locate_eq_none hspc h).mp hnone
      omega
  obtain ⟨p, -, honly⟩ := hagree.slots 0 (by decide) rfl (by omega)
  obtain ⟨p0, hp0⟩ := hat 0 (by decide)
  obtain ⟨q, hq⟩ := hat (2 ^ 27) (by decide)
  have hpp := (honly p0).mp ((scanAt_iff hspc h 0 p0).mpr ⟨0, hp0, by decide⟩)
  have hqp := (honly q).mp ((scanAt_iff hspc h 0 q).mpr ⟨2 ^ 27, hq, by decide⟩)
  exact absurd (first_place hspc h hdev hp0 (by rw [hq, hqp, hpp])) (by decide)

end Chain

/-- Clusters of 64 KiB. -/
def largeVolume : Volume := ⟨⟨128, 32, 2080⟩, 2, 1024, 131000, 2⟩

theorem largeVolume_ok : largeVolume.Ok := by constructor <;> decide

/-- A table in which every cluster up to `n` links to the next one and those behind are free. -/
def rising (n : Nat) : Disk := fun b j =>
  let a := 1024 * b + j - 512 * 32
  le (if a / 4 = n then eoc else if n < a / 4 then 0 else a / 4 + 1) (a % 4)

theorem readFat_rising (n : Nat) {c : Nat} (hc : c < 2 ^ 27) :
    readFat largeVolume.toMount (rising n) c = if c = n then eoc else if n < c then 0 else c + 1 := by
  have hval : u32 (sread (rising n) (largeVolume.rsvdSecCnt + uint (c * 4) / bps) (uint (c * 4) % bps)) 0 =
      u32 (le (if c = n then eoc else if n < c then 0 else c + 1)) 0 := by
    apply u32_congr
    intro j _ hj
    have ha : 1024 * ((32 + uint (c * 4) / 512) / 2) + ((32 + uint (c * 4) / 512) % 2 * 512 + uint (c * 4) % 512 + j) -
        512 * 32 = 4 * c + j := by
      rw [uint]
      omega
    have hdiv : (4 * c + j) / 4 = c := by omega
    have hmod : (4 * c + j) % 4 = j := by omega
    simp only [sread, drop, rising, bps, spb, show largeVolume.rsvdSecCnt = 32 from rfl, ha, hdiv, hmod]
  rw [readFat, hval, u32_le]
  split
  · rfl
  · split <;> omega

theorem chain_rising (k : Nat) {c : Nat} (h2 : 2 ≤ c) (hk : c + k < largeVolume.totClus + 2) :
    Chain largeVolume (rising (c + k)) c (List.range' c (k + 1)) := by
  have hlt : c + k < 2 ^ 27 := hk.trans (by decide)
  have hread := readFat_rising (c + k) (c := c) (by omega)
  induction k generalizing c with
  | zero =>
    rw [Nat.add_zero, if_pos rfl] at hread
    exact .last ⟨h2, hk⟩ (by rw [Nat.add_zero, hread]; decide)
  | succ k ih =>
    rw [if_neg (by omega), if_neg (by omega)] at hread
    rw [List.range'_succ]
    apply Chain.next ⟨h2, by omega⟩
    have he : c + (k + 1) = c + 1 + k := by omega
    rw [hread, he]
    exact ih (by omega) (by omega) (by omega) (readFat_rising _ (by omega))

/-- A directory of two clusters. -/
theorem two_clusters_agree : SlotsAgree largeVolume (rising 3) 2 [2, 3] :=
  (slots_agree_iff (by decide) ((chain_rising 1 (c := 2) (by decide) (by decide)).links largeVolume_ok)).1 (by decide)

/-- A directory of 65537 clusters of 64 KiB. -/
theorem pos_wraps : Links largeVolume.toMount (rising 65538) 2 (List.range' 2 65537) ∧
    ScanAt largeVolume.toMount (rising 65538) 2 0 (2080, 0) ∧
    ScanAt largeVolume.toMount (rising 65538) 2 0 (8390688, 0) := by
  have h := (chain_rising 65536 (c := 2) (by decide) (by decide)).links largeVolume_ok
  have hat : ∀ j, uint (32 * j) = 0 → ∀ q, ((List.range' 2 65537)[j / 2048]?).map (slotPos largeVolume · j) = some q →
      ScanAt largeVolume.toMount (rising 65538) 2 0 q := fun j hj q hq =>
    (scanAt_iff (by decide) h 0 q).mpr ⟨j, by rw [h.locate_eq]; exact hq, hj⟩
  refine ⟨h, hat 0 rfl _ ?_, hat (2 ^ 27) rfl _ ?_⟩
  · rw [List.getElem?_range' (by decide)]
    decide
  · rw [List.getElem?_range' (by decide)]
    decide

end Xv6Vfs.Fat32
