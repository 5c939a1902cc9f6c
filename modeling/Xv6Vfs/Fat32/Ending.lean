import Xv6Vfs.Fat32.Enter
import Xv6Vfs.Fat32.Readdir
import Xv6Vfs.Lib.Orbit

/-! Whether the loops over the clusters of a directory end, whatever the allocation table and the slots hold. -/
namespace Xv6Vfs.Fat32
open Xv6Vfs.Bytes Xv6Vfs.Vfs Xv6Vfs.Orbit Option

variable {fuel : Nat}

/-- The cluster behind `c`, if the loops go on from `c`. -/
def nextClus (fm : Mount) (disk : Disk) (c : Nat) : Option Nat :=
  if 2 ≤ c ∧ c < eocMin then some (readFat fm disk c) else none

/-- A slot in `dlookup`: the loop is left, which a write in front of `lfn_buf` does too, or goes on. -/
def lookupStep (nm : Name) (d : Bytes) (st : Lfn) : Sum Bool Lfn :=
  match visit nm d st with
  | some (.next st') => .inr st'
  | some _ => .inl true
  | none => .inl false

section Loops

variable {fm : Mount} {disk : Disk} {nm : Name} {c : Nat} {st : Lfn} {σ ρ : Type} {step : Bytes → σ → Sum ρ σ}

theorem scan_eq (l : List Bytes) (pos : Nat) (st : Lfn) : match sweep (lookupStep nm) l st with
    | .inl false => scan nm l pos st = none
    | .inl true => ∃ e, scan nm l pos st = some (.inl e)
    | .inr st' => scan nm l pos st = some (.inr st') := by
  induction l generalizing pos st with
  | nil => rfl
  | cons d l ih =>
    rw [sweep, scan, lookupStep]
    cases visit nm d st with
    | none => rfl
    | some v =>
      cases v with
      | found => exact ⟨_, rfl⟩
      | stop => exact ⟨_, rfl⟩
      | next st' => exact ih (pos + 32) st'

/-- `dlookup` is undefined if its loop does not end, or if it writes in front of the buffer. -/
theorem dlookupFrom_none (fuel c pos : Nat) (st : Lfn) : dlookupFrom fm disk nm fuel c pos st = none ↔
    sweepChain fm disk (lookupStep nm) fuel c st = none ∨
      sweepChain fm disk (lookupStep nm) fuel c st = some (.inl false) := by
  induction fuel generalizing c pos st with
  | zero => exact ⟨fun _ => .inl rfl, fun _ => rfl⟩
  | succ fuel ih =>
    rw [dlookupFrom, sweepChain]
    by_cases hc : 2 ≤ c ∧ c < eocMin
    · rw [if_pos hc, if_pos hc]
      have hscan := @scan_eq nm (clusterSlots fm disk c) pos st
      cases hs : sweep (lookupStep nm) (clusterSlots fm disk c) st with
      | inr st' =>
        rw [hs] at hscan
        rw [hscan]
        exact ih (readFat fm disk c) _ st'
      | inl b =>
        rw [hs] at hscan
        cases b with
        | false =>
          rw [hscan]
          exact ⟨fun _ => .inr rfl, fun _ => rfl⟩
        | true =>
          obtain ⟨e, he⟩ := hscan
          rw [he]
          simp
    · rw [if_neg hc, if_neg hc]
      simp

theorem sweepChain_none {s : σ} (h : sweepChain fm disk step fuel c s = none) : Going (nextClus fm disk) fuel c := by
  induction fuel generalizing c s with
  | zero => trivial
  | succ fuel ih =>
    rw [sweepChain] at h
    split at h
    case isFalse => cases h
    case isTrue hc =>
      cases hs : sweep step (clusterSlots fm disk c) s with
      | inl r =>
        rw [hs] at h
        cases h
      | inr s' =>
        rw [hs] at h
        exact ⟨_, if_pos hc, ih h⟩

theorem lastClus_none (h : lastClus fm disk fuel c = none) : Going (nextClus fm disk) fuel c := by
  induction fuel generalizing c with
  | zero => trivial
  | succ fuel ih =>
    rw [lastClus] at h
    split at h
    case isFalse => cases h
    case isTrue hc =>
      split at h
      · cases h
      · exact ⟨_, if_pos hc, ih h⟩

theorem chain_going : Going (nextClus fm disk) chainFuel c ↔ ¬ NoCycle (nextClus fm disk) c := by
  apply going_iff (Finset.range eocMin)
  · intro b _ hb
    exact Finset.mem_range.mpr (by_contra fun hge => hb (if_neg fun h => hge h.2))
  · rw [Finset.card_range]
    decide

end Loops

/-- The loops over the clusters of the directory that starts at `c` end. -/
structure ReadsEnd (v : Volume) (disk : Disk) (c : Nat) : Prop where
  dlookup : ∀ nm junk, sweepChain v.toMount disk (lookupStep nm) chainFuel c ⟨junk, 0, 0, false, 0⟩ ≠ none
  shortnameExists : ∀ attrs sn, shortnameExists v.toMount disk ⟨c, attrs⟩ sn ≠ none
  freaddir : ∀ attrs junk off, freaddir v.toMount disk ⟨c, attrs⟩ junk off ≠ none
  dirIsEmpty : dirIsEmpty v.toMount disk c ≠ none

/-- And that of `dfree`, with the cluster it may append. -/
structure ScansEnd (v : Volume) (disk : Disk) (c : Nat) : Prop extends ReadsEnd v disk c where
  dfree : ∀ cnt, dfree v c cnt disk ≠ none

section Ends

variable {v : Volume} {disk : Disk} {c : Nat} (h : NoCycle (nextClus v.toMount disk) c)
include h

theorem readsEnd_of_noCycle : ReadsEnd v disk c := by
  have hends : ∀ {σ ρ : Type} (step : Bytes → σ → Sum ρ σ) (s : σ),
      ∃ r, sweepChain v.toMount disk step chainFuel c s = some r := fun step s =>
    ne_none_iff_exists'.mp fun hn => chain_going.mp (sweepChain_none hn) h
  constructor
  · exact fun nm junk hn => chain_going.mp (sweepChain_none hn) h
  · intro attrs sn
    obtain ⟨r, hr⟩ := hends (visitShortname sn) ()
    rw [Fat32.shortnameExists]
    split
    · nofun
    · rw [hr]
      nofun
  · intro attrs junk off
    obtain ⟨r, hr⟩ := hends (visitNext off) 0
    rw [Fat32.freaddir]
    split
    · nofun
    · rw [hr]
      nofun
  · obtain ⟨r, hr⟩ := hends visitEmpty 0
    rw [Fat32.dirIsEmpty, hr]
    nofun

/-- `dfree` ends if no change of the table waits for a buffer of its own. -/
theorem dfree_of_noCycle
    (hw : ∀ newc disk1, allocClus v disk = some (newc, disk1) → fatWaits v newc = false ∧
      ∀ x, lastClus v.toMount disk chainFuel c = some x → fatWaits v x = false) (cnt : Nat) :
    dfree v c cnt disk ≠ none := by
  obtain ⟨r, hr⟩ := ne_none_iff_exists'.mp fun hn =>
    chain_going.mp (@sweepChain_none chainFuel v.toMount disk c _ _ (visitFree (cnt + 1)) ⟨0, 0, 0⟩ hn) h
  obtain ⟨x, hx⟩ := ne_none_iff_exists'.mp fun hn => chain_going.mp (lastClus_none hn) h
  rw [Fat32.dfree, hr, hx]
  cases r with
  | inl off => nofun
  | inr g =>
    dsimp only [bind_some]
    cases ha : allocClus v disk with
    | none => split <;> nofun
    | some n =>
      obtain ⟨hnew, hlast⟩ := hw n.1 n.2 ha
      split <;> simp [hnew, hlast x hx]

end Ends

/-! ### What stops the loops -/

/-- The device with all bytes behind the tables set to `x`. -/
def filledWith (x : UInt8) (v : Volume) (disk : Disk) : Disk := fun b o =>
  if 512 * v.firstDataSec ≤ 1024 * b + o then x else disk b o

/-- The links lead through clusters of the volume. -/
def LinksInside (v : Volume) (disk : Disk) (c : Nat) : Prop :=
  ∀ b, Reach (nextClus v.toMount disk) c b → nextClus v.toMount disk b ≠ none → v.Valid b

/-- Two devices have the same table. -/
def SameTable (v : Volume) (disk disk' : Disk) : Prop :=
  ∀ b < v.totClus + 2, readFat v.toMount disk' b = readFat v.toMount disk b

section Filled

variable {v : Volume} {disk disk' : Disk} {c : Nat} {x : UInt8} {σ ρ : Type} {step : Bytes → σ → Sum ρ σ}

theorem byte_filled (a : Nat) : byte (filledWith x v disk) a = if 512 * v.firstDataSec ≤ a then x else byte disk a := by
  have ha : 1024 * (a / 1024) + a % 1024 = a := Nat.div_add_mod a 1024
  rw [byte, filledWith, ha]
  rfl

theorem Volume.Ok.sameTable_filled (hv : v.Ok) (x : UInt8) (disk : Disk) : SameTable v disk (filledWith x v disk) :=
  fun _ hb => hv.readFat_of_bytes hb fun a ha => by rw [byte_filled, if_neg (by omega)]

theorem slots_filled (hv : v.Ok) (hc : v.Valid c) :
    ∀ d ∈ clusterSlots v.toMount (filledWith x v disk) c, ∀ i < 32, d i = x := by
  intro d hd i hi
  obtain ⟨s, hs, hd⟩ := List.mem_flatMap.mp hd
  obtain ⟨k, hk, rfl⟩ := List.mem_map.mp hd
  have hk : 32 * k + i < 512 := by
    have := List.mem_range.mp hk
    rw [bps] at this
    omega
  rw [sread_eq_byte hk, hv.clusToSec_eq hc (List.mem_range.mp hs), byte_filled, if_pos]
  rw [clusAddr]
  omega

theorem sweep_filled {l : List Bytes} (hstep : ∀ d s, d 0 = x → ∃ s', step d s = .inr s') (h : ∀ d ∈ l, d 0 = x)
    (s : σ) :
    ∃ s', sweep step l s = .inr s' := by
  induction l generalizing s with
  | nil => exact ⟨s, rfl⟩
  | cons d l ih =>
    obtain ⟨hd, hl⟩ := List.forall_mem_cons.mp h
    obtain ⟨s', hs⟩ := hstep d s hd
    rw [sweep, hs]
    exact ih hl s'

/-- A loop that every slot lets pass goes on as long as the chain does. -/
theorem sweepChain_filled (hv : v.Ok) (hin : LinksInside v disk c) (hstep : ∀ d s, d 0 = x → ∃ s', step d s = .inr s')
    (s : σ) : (Going (nextClus v.toMount disk) fuel c → sweepChain v.toMount (filledWith x v disk) step fuel c s =
      none) ∧
      ∀ r, sweepChain v.toMount (filledWith x v disk) step fuel c s ≠ some (.inl r) := by
  induction fuel generalizing c s with
  | zero => exact ⟨fun _ => rfl, fun _ h => by cases h⟩
  | succ fuel ih =>
    rw [sweepChain]
    by_cases hc : 2 ≤ c ∧ c < eocMin
    · have hval := hin c .refl (by rw [nextClus, if_pos hc]; exact some_ne_none _)
      obtain ⟨s', hs⟩ := sweep_filled hstep (fun d hd => slots_filled hv hval d hd 0 (by decide)) s
      rw [if_pos hc, hs, hv.sameTable_filled x disk c hval.2]
      have hnext := ih (fun b hb => hin b (.head (if_pos hc) hb)) s'
      refine ⟨?_, hnext.2⟩
      rintro ⟨b, hb, hgo⟩
      rw [nextClus, if_pos hc] at hb
      exact hnext.1 (some.inj hb ▸ hgo)
    · rw [if_neg hc]
      refine ⟨?_, fun _ h => by cases h⟩
      rintro ⟨b, hb, -⟩
      rw [nextClus, if_neg hc] at hb
      cases hb

theorem lookupStep_deleted (nm : Name) (d : Bytes) (st : Lfn) (hd : d 0 = 0xE5) :
    ∃ st', lookupStep nm d st = .inr st' := by
  have hv : visit nm d st = some (.next st.reset) := by
    rw [visit, hd]
    rfl
  exact ⟨_, by rw [lookupStep, hv]⟩

theorem visitFree_live (need : Nat) (d : Bytes) (g : Gap) (hd : d 0 = 0x41) : ∃ g', visitFree need d g = .inr g' :=
  ⟨_, by rw [visitFree, isFree, hd]; rfl⟩

section Table

variable (hin : LinksInside v disk c) (ht : SameTable v disk disk')
include hin ht

theorem SameTable.going_iff : Going (nextClus v.toMount disk') fuel c ↔ Going (nextClus v.toMount disk) fuel c := by
  induction fuel generalizing c with
  | zero => rfl
  | succ fuel ih =>
    by_cases hc : 2 ≤ c ∧ c < eocMin
    · have hval := hin c .refl (by rw [nextClus, if_pos hc]; nofun)
      simp only [Going, nextClus, if_pos hc, ht c hval.2, some.injEq, exists_eq_left']
      exact ih fun b hb => hin b (.head (if_pos hc) hb)
    · simp [Going, nextClus, hc]

theorem SameTable.lastClus_lt (hc : c < v.totClus + 2) {x : Nat} (h : lastClus v.toMount disk' fuel c = some x) :
    x < v.totClus + 2 := by
  induction fuel generalizing c with
  | zero => cases h
  | succ fuel ih =>
    rw [lastClus] at h
    split at h
    case isFalse => exact some.inj h ▸ hc
    case isTrue hch =>
      split at h
      case isTrue => exact some.inj h ▸ hc
      case isFalse hlt =>
        have hstep : nextClus v.toMount disk c = some (readFat v.toMount disk' c) := by
          rw [nextClus, if_pos hch, ht c hc]
        refine ih (fun b hb => hin b (.head hstep hb)) ?_ h
        by_cases h2 : 2 ≤ readFat v.toMount disk' c
        · refine (hin _ (.single hstep) ?_).2
          rw [nextClus, if_pos ⟨h2, Nat.not_le.mp hlt⟩]
          exact some_ne_none _
        · omega

end Table

/-- With live entries in all slots `dfree` appends a cluster, if there is one. -/
theorem dfree_waits (hv : v.Ok) (hin : LinksInside v disk c) (hfree : ∃ a, v.Valid a ∧ readFat v.toMount disk a = 0)
    (hno : ¬TablesApart v) : dfree v c 0 (filledWith 0x41 v disk) = none := by
  have hlive := (@sweepChain_filled chainFuel v disk c 0x41 _ _ _ hv hin (visitFree_live (0 + 1)) ⟨0, 0, 0⟩).2
  obtain ⟨a, ha, h0⟩ := hfree
  cases hal : allocClus v (filledWith 0x41 v disk) with
  | none =>
    refine absurd ⟨a, ha, ?_⟩ ((hv.allocClus_none_iff _).mp hal)
    rw [hv.sameTable_filled 0x41 disk a ha.2, h0]
  | some n =>
    have hwait : fatWaits v n.1 = true := by
      have hnew := (allocClus_eq hal).1
      exact by_contra fun hw => hno ((hv.fatWaits_iff hnew.2).mp (by simpa using hw))
    rw [Fat32.dfree, hal]
    rcases hs : sweepChain v.toMount (filledWith 0x41 v disk) (visitFree (0 + 1)) chainFuel c ⟨0, 0, 0⟩ with - | r | g
    · rfl
    · exact absurd hs (hlive r)
    · simp [hwait]

end Filled

/-- The loops that only read end if the chain of the directory does not come back to a cluster, and on an accepted
volume so does `dfree` if no change of the table waits for a buffer of its own. On an accepted volume whose links lead
through its clusters all loops end for every content of the slots if and only if the chain does not come back and,
where a cluster is free that `dfree` can append, no sector of the table shares a block with its copy. -/
theorem directory_scans_end_iff (v : Volume) (disk : Disk) (c : Nat) :
    (NoCycle (nextClus v.toMount disk) c →
        ReadsEnd v disk c ∧ (v.Ok → (∀ a, fatWaits v a = false) → ScansEnd v disk c)) ∧
      (v.Ok → c < v.totClus + 2 → LinksInside v disk c →
        ((∀ disk', SameTable v disk disk' → ScansEnd v disk' c) ↔
          NoCycle (nextClus v.toMount disk) c ∧
            ((∃ a, v.Valid a ∧ readFat v.toMount disk a = 0) → TablesApart v))) := by
  constructor
  · intro h
    have hreads := readsEnd_of_noCycle h
    exact ⟨hreads, fun _ hw => ⟨hreads, dfree_of_noCycle h fun n _ _ => ⟨hw n, fun x _ => hw x⟩⟩⟩
  intro hv hc hin
  constructor
  · intro hall
    constructor
    · by_contra hno
      have hends := hall _ (hv.sameTable_filled 0xE5 disk)
      exact hends.dlookup [] (fun _ => 0) ((sweepChain_filled hv hin (lookupStep_deleted []) _).1 (chain_going.mpr hno))
    · intro hfree
      by_contra hno
      exact (hall _ (hv.sameTable_filled 0x41 disk)).dfree 0 (dfree_waits hv hin hfree hno)
  · rintro ⟨hno, hap⟩ disk' ht
    have hno' : NoCycle (nextClus v.toMount disk') c :=
      by_contra fun h => chain_going.mp ((ht.going_iff hin).mp (chain_going.mpr h)) hno
    refine ⟨readsEnd_of_noCycle hno', dfree_of_noCycle hno' fun n disk1 ha => ?_⟩
    obtain ⟨hval, h0, -⟩ := allocClus_eq ha
    have hapart := hap ⟨n, hval, ht n hval.2 ▸ h0⟩
    exact ⟨(hv.fatWaits_iff hval.2).mpr hapart,
      fun x hx => (hv.fatWaits_iff (ht.lastClus_lt hin hc hx)).mpr hapart⟩

/-- One cluster, and where it links to. -/
def linkVolume : Volume := ⟨⟨1, 1, 2⟩, 1, 1, 1, 2⟩

def linkDisk (link : Nat) : Disk := fun b => if b = 0 then put32 (fun _ => 0) 520 link else fun _ => 0

theorem linkVolume_ok : linkVolume.Ok := by constructor <;> decide

/-- Two tables of one sector in one block, and two clusters, of which the second is free. -/
def blockVolume : Volume := ⟨⟨1, 32, 34⟩, 2, 1, 2, 2⟩

def blockDisk : Disk := fun b => if b = 16 then put32 (fun _ => 0) 8 eoc else fun _ => 0

section Single

variable {fm : Mount} {disk : Disk} {c b : Nat} (hc : nextClus fm disk c = some b) (hb : nextClus fm disk b = none)
include hc hb

theorem reach_single {x : Nat} (h : Reach (nextClus fm disk) c x) : x = c ∨ x = b := by
  induction h with
  | refl => exact .inl rfl
  | tail _ hstep ih =>
    rcases ih with rfl | rfl
    · exact .inr (some.inj (hstep.symm.trans hc))
    · rw [hb] at hstep
      cases hstep

theorem noCycle_single : NoCycle (nextClus fm disk) c := by
  intro x y hx hy hyx
  -- a cycle would let the loop go on for more than two clusters
  obtain ⟨b', hb', c', hc', -⟩ := Going.of_reach hx (Going.of_cycle hy hyx) 2
  rw [hc] at hb'
  rw [← some.inj hb', hb] at hc'
  cases hc'

end Single

theorem one_cluster_ends : ∀ disk', SameTable linkVolume (linkDisk eoc) disk' → ScansEnd linkVolume disk' 2 := by
  have hlink : nextClus linkVolume.toMount (linkDisk eoc) 2 = some eoc := by decide +kernel
  have hend : nextClus linkVolume.toMount (linkDisk eoc) eoc = none := by decide +kernel
  have hin : LinksInside linkVolume (linkDisk eoc) 2 := by
    intro b hb hgo
    rcases reach_single hlink hend hb with rfl | rfl
    · exact ⟨by decide, by decide⟩
    · exact absurd hend hgo
  exact ((directory_scans_end_iff linkVolume (linkDisk eoc) 2).2 linkVolume_ok (by decide) hin).mpr
    ⟨noCycle_single hlink hend, fun _ => by decide⟩

/-- A cluster of deleted slots that links to itself; and a full one with its end mark, where `dfree` appends a
cluster. -/
theorem own_link_hangs : (¬ ScansEnd linkVolume (filledWith 0xE5 linkVolume (linkDisk 2)) 2 ∧ ∀ fuel,
      dlookup linkVolume.toMount (filledWith 0xE5 linkVolume (linkDisk 2)) ⟨2, attrDirectory⟩ dot (fun _ => 0) fuel =
        none) ∧
    NoCycle (nextClus blockVolume.toMount (filledWith 0x41 blockVolume blockDisk)) 2 ∧
      dfree blockVolume 2 0 (filledWith 0x41 blockVolume blockDisk) = none := by
  have hnext : nextClus linkVolume.toMount (linkDisk 2) 2 = some 2 := by decide +kernel
  have hreach : ∀ b, Reach (nextClus linkVolume.toMount (linkDisk 2)) 2 b → b = 2 := by
    intro b hb
    induction hb with
    | refl => rfl
    | tail _ hstep ih =>
      rw [ih, hnext] at hstep
      exact (some.inj hstep).symm
  have hin : LinksInside linkVolume (linkDisk 2) 2 := fun b hb _ => hreach b hb ▸ ⟨by decide, by decide⟩
  have hnone : ∀ nm fuel st, sweepChain linkVolume.toMount (filledWith 0xE5 linkVolume (linkDisk 2))
    (lookupStep nm) fuel 2 st =
      none := fun nm fuel st =>
    (sweepChain_filled linkVolume_ok hin (lookupStep_deleted nm) st).1 (Going.of_cycle hnext .refl fuel)
  refine ⟨⟨fun h => h.dlookup dot (fun _ => 0) (hnone _ _ _), fun fuel => ?_⟩, ?_, ?_⟩
  · rw [dlookup, if_neg (by decide)]
    exact (dlookupFrom_none _ _ _ _).mpr (.inl (hnone _ _ _))
  · exact noCycle_single (b := eoc) (by decide +kernel) (by decide +kernel)
  · decide +kernel

end Xv6Vfs.Fat32
