import Xv6Vfs.Ext2.Release

/-! Any sequence of `ext2_bmap` calls on one inode, when `ext2_balloc` returns unused blocks. -/
namespace Xv6Vfs.Ext2
open Xv6Vfs.Bytes List

variable {r : Nat × Priv × Fs}

/-- The map is in order: no block is held twice, `i_blocks` counts two sectors for each, and none of
them is the superblock or the block bitmap, which `ext2_balloc` writes. -/
structure MapOk (fs : Fs) (ino : Bytes) : Prop where
  nodup : (blocksOf fs ino).Nodup
  count : iBlocks ino = 2 * (blocksOf fs ino).length
  super : 1 ∉ blocksOf fs ino
  bitmap : bgBlockBitmap fs.bg ∉ blocksOf fs ino

/-- `ext2_balloc` returns 0, or a block that is not in use by the inode or by the file system. -/
def BallocUnused (p : Priv) (fs : Fs) : Prop :=
  (balloc fs).1 = 0 ∨ (balloc fs).1 ∉ blocksOf fs p.ino ∧ (balloc fs).1 ≠ 1 ∧
    (balloc fs).1 ≠ bgBlockBitmap fs.bg

instance (p : Priv) (fs : Fs) : Decidable (BallocUnused p fs) := inferInstanceAs (Decidable (_ ∨ _))

structure MapCall where
  lbn : Nat
  alloc : Bool

def MapCall.exec (c : MapCall) (s : Priv × Fs) : Option (Priv × Fs) :=
  some (bmap s.1 c.lbn c.alloc s.2).2

/-- Both calls of `ext2_balloc` that `ext2_bmap` may make: for the indirect block, and after that. -/
def Unused (s : Priv × Fs) (c : MapCall) : Prop :=
  BallocUnused s.1 s.2 ∧
    BallocUnused (indirectBlock s.1 c.alloc s.2).1 (indirectBlock s.1 c.alloc s.2).2

instance (s : Priv × Fs) (c : MapCall) : Decidable (Unused s c) := inferInstanceAs (Decidable (_ ∧ _))

/-- What a call does to the map; a block that is mapped stays so. -/
structure Remapped (p : Priv) (fs : Fs) (lbn : Nat) (r : Nat × Priv × Fs) : Prop where
  ok : MapOk r.2.2 r.2.1.ino
  block : lbnBlock r.2.2 r.2.1.ino lbn = r.1
  others : ∀ k, k ≠ lbn → lbnBlock r.2.2 r.2.1.ino k = lbnBlock fs p.ino k
  stays : lbnBlock fs p.ino lbn ≠ 0 → r.1 = lbnBlock fs p.ino lbn

section Step

variable {fs fs' : Fs} {ino ino' : Bytes} {n b lbn : Nat} {p : Priv}

theorem blocksOf_length_le (fs : Fs) (ino : Bytes) : (blocksOf fs ino).length ≤ 269 := by
  refine (length_filter_le _ _).trans ?_
  split <;> simp [ndirect, nindirect]

theorem MapOk.blocks_add (h : MapOk fs ino) : (iBlocks ino + 2) % 4294967296 = iBlocks ino + 2 := by
  have h1 := h.count
  have h2 := blocksOf_length_le fs ino
  exact Nat.mod_eq_of_lt (by omega)

theorem MapOk.oneMore {lbn : Option Nat} (h : MapOk fs ino) (ha : OneMore fs ino fs' ino' b lbn)
    (hb : b ∉ blocksOf fs ino ∧ b ≠ 1 ∧ b ≠ bgBlockBitmap fs.bg) (hcount : iBlocks ino' = iBlocks ino + 2)
    (hbg : fs'.bg = fs.bg) : MapOk fs' ino' := by
  refine ⟨ha.perm.nodup_iff.mpr (nodup_cons.mpr ⟨hb.1, h.nodup⟩), ?_, ?_, ?_⟩
  · rw [hcount, h.count, ha.perm.length_eq, length_cons]
    omega
  · rw [ha.perm.mem_iff, mem_cons, not_or]
    exact ⟨hb.2.1.symm, h.super⟩
  · rw [hbg, ha.perm.mem_iff, mem_cons, not_or]
    exact ⟨hb.2.2.symm, h.bitmap⟩

theorem balloc_disk (hb : b ≠ 1) (hbit : b ≠ bgBlockBitmap fs.bg) : (balloc fs).2.disk b = fs.disk b := by
  obtain he | ⟨i, -, -, -, he⟩ := balloc_cases fs
  · rw [he]
  · rw [he]
    exact (sbWrite_disk _ _ _ hb).trans (bwrite_disk _ _ hbit)

theorem balloc_lt (fs : Fs) : (balloc fs).1 < 4294967296 := by
  obtain he | ⟨i, -, hi, -, he⟩ := balloc_cases fs
  · rw [he]
    exact (by decide : 0 < 4294967296)
  · rw [he]
    exact hi.trans (by decide)

theorem MapOk.ptr12 (h : MapOk fs ino) (h12 : iBlock ino 12 ≠ 0) :
    iBlock ino 12 ≠ 1 ∧ iBlock ino 12 ≠ bgBlockBitmap fs.bg := by
  have hmem : iBlock ino 12 ∈ blocksOf fs ino := mem_blocksOf.mpr ⟨h12, .inr (.inl rfl)⟩
  exact ⟨fun he => h.super (he ▸ hmem), fun he => h.bitmap (he ▸ hmem)⟩

section

variable (h : MapOk fs p.ino)
include h

theorem Remapped.same (hb : lbnBlock fs p.ino lbn = b) : Remapped p fs lbn (b, p, fs) :=
  ⟨h, hb, fun _ _ => rfl, fun _ => hb.symm⟩

theorem Remapped.new {p' : Priv} (h0 : lbnBlock fs p.ino lbn = 0)
    (ha : OneMore fs p.ino fs' p'.ino b (some lbn)) (hb : b ∉ blocksOf fs p.ino ∧ b ≠ 1 ∧ b ≠ bgBlockBitmap fs.bg)
    (hcount : iBlocks p'.ino = iBlocks p.ino + 2) (hbg : fs'.bg = fs.bg) : Remapped p fs lbn (b, p', fs') :=
  ⟨h.oneMore ha hb hcount hbg, ha.block lbn rfl,
    fun k hne => ha.others k fun he => hne (Option.some.inj he).symm, fun hne => absurd h0 hne⟩

omit h in
theorem iBlocks_setBlock (ino : Bytes) (k v : Nat) : iBlocks (setBlock ino k v) = iBlocks ino :=
  u32_blit_out (by omega)

theorem MapOk.blocks_grown (hi : iBlocks ino = iBlocks p.ino) : iBlocks (grown p ino).ino = iBlocks p.ino + 2 := by
  show iBlocks (setBlocks ino (iBlocks ino + 2)) = _
  rw [iBlocks, setBlocks, u32_put32, hi, h.blocks_add]

/-- The indirect block is there, or could not be had. -/
theorem indirectBlock_ok (hu : BallocUnused p fs) : let q := indirectBlock p true fs
    MapOk q.2 q.1.ino ∧ ∀ k, lbnBlock q.2 q.1.ino k = lbnBlock fs p.ino k := by
  unfold indirectBlock
  by_cases h0 : iBlock p.ino 12 = 0
  swap
  · rw [if_neg fun hx => h0 hx.1]
    exact ⟨h, fun _ => rfl⟩
  rw [if_pos ⟨h0, rfl⟩]
  by_cases hb : (balloc fs).1 = 0
  · rw [if_pos hb, balloc_zero hb]
    exact ⟨h, fun _ => rfl⟩
  rw [if_neg hb]
  have hone : OneMore fs p.ino ((balloc fs).2.bwrite (balloc fs).1 (clear ((balloc fs).2.disk (balloc fs).1) 0 bsize))
      (grown p (setBlock p.ino 12 (balloc fs).1)).ino (balloc fs).1 none := by
    refine (OneMore.indirectBlock h0 hb (balloc_lt fs) fun e he => ?_).sameMap (setBlocks_same _ _).toSameMap
    rw [bwrite_disk_self]
    exact u32_clear_block he
  exact ⟨h.oneMore hone (hu.resolve_left hb) (h.blocks_grown (iBlocks_setBlock _ _ _)) (balloc_static fs).bg,
    fun k => hone.others k nofun⟩

theorem bmap_remapped (hu : Unused (p, fs) ⟨lbn, true⟩) : Remapped p fs lbn (bmap p lbn true fs) := by
  unfold bmap
  by_cases h1 : lbn < ndirect
  · rw [if_pos h1]
    have hlbn : lbnBlock fs p.ino lbn = iBlock p.ino lbn := if_pos h1
    by_cases h2 : iBlock p.ino lbn = 0
    · rw [if_pos ⟨h2, rfl⟩]
      by_cases h3 : (balloc fs).1 = 0
      · rw [if_pos h3, balloc_zero h3]
        exact Remapped.same h (hlbn.trans h2)
      · rw [if_neg h3]
        have hone := (OneMore.direct h1 h2 h3 (balloc_lt fs) fun h12 =>
          balloc_disk (h.ptr12 h12).1 (h.ptr12 h12).2)
        exact Remapped.new h (hlbn.trans h2) (hone.sameMap (setBlocks_same _ _).toSameMap) (hu.1.resolve_left h3)
          (h.blocks_grown (iBlocks_setBlock _ _ _)) (balloc_static fs).bg
    · rw [if_neg fun hx => h2 hx.1]
      exact Remapped.same h hlbn
  rw [if_neg h1]
  by_cases h2 : lbn - ndirect < nindirect
  swap
  · rw [if_neg h2]
    exact Remapped.same h (by rw [lbnBlock_eq, if_neg h1, if_neg h2])
  rw [if_pos h2]
  obtain ⟨qok, qlbn⟩ := indirectBlock_ok h hu.1
  have hu2 := hu.2
  generalize indirectBlock p true fs = q at *
  have hlift : ∀ r, Remapped q.1 q.2 lbn r → Remapped p fs lbn r := fun r hr =>
    ⟨hr.ok, hr.block, fun k hne => (hr.others k hne).trans (qlbn k), fun hne => by
      rw [← qlbn] at hne ⊢
      exact hr.stays hne⟩
  by_cases h3 : iBlock q.1.ino 12 = 0
  · rw [if_pos h3]
    exact hlift (0, q) (Remapped.same qok (by rw [lbnBlock_eq, if_neg h1, if_pos h2, indirect, if_pos h3]))
  rw [if_neg h3]
  have hlbn : lbnBlock q.2 q.1.ino lbn = u32 (q.2.disk (iBlock q.1.ino 12)) (4 * (lbn - ndirect)) := by
    rw [lbnBlock_eq, if_neg h1, if_pos h2, indirect, if_neg h3]
  by_cases h4 : u32 (q.2.disk (iBlock q.1.ino 12)) (4 * (lbn - ndirect)) = 0
  · rw [if_pos ⟨h4, rfl⟩]
    by_cases h5 : (balloc q.2).1 = 0
    · rw [if_pos h5, balloc_zero h5]
      exact hlift (0, q.1, q.2) (Remapped.same qok (hlbn.trans h4))
    · rw [if_neg h5]
      have hd := balloc_disk (qok.ptr12 h3).1 (qok.ptr12 h3).2
      rw [hd]
      have hone := OneMore.entry h1 h2 h3 h4 h5 (balloc_lt q.2) (bwrite_disk_self (balloc q.2).2 _ _)
      exact hlift _ (Remapped.new qok (hlbn.trans h4) (hone.sameMap (setBlocks_same _ _).toSameMap)
        (hu2.resolve_left h5) (qok.blocks_grown rfl) (balloc_static q.2).bg)
  · rw [if_neg fun hx => h4 hx.1]
    exact hlift _ (Remapped.same qok hlbn)

end

/-- A call without `alloc` is a search. -/
theorem MapCall.remapped {s : Priv × Fs} {c : MapCall} (h : MapOk s.2 s.1.ino) (hu : Unused s c) :
    Remapped s.1 s.2 c.lbn (bmap s.1 c.lbn c.alloc s.2) := by
  obtain ⟨lbn, alloc⟩ := c
  cases alloc with
  | true => exact bmap_remapped h hu
  | false =>
    rw [bmap_false]
    exact Remapped.same h rfl

theorem Remapped.keeps (h : Remapped p fs lbn r) {k : Nat} (hk : lbnBlock fs p.ino k ≠ 0) :
    lbnBlock r.2.2 r.2.1.ino k = lbnBlock fs p.ino k := by
  by_cases hne : k = lbn
  · subst hne
    rw [h.block, h.stays hk]
  · exact h.others k hne

theorem Remapped.zero (h : Remapped p fs lbn r) (h0 : r.1 = 0) (k : Nat) :
    lbnBlock r.2.2 r.2.1.ino k = lbnBlock fs p.ino k := by
  by_cases hne : k = lbn
  · subst hne
    rw [h.block, h0]
    by_contra hk
    exact hk (h0.symm.trans (h.stays (Ne.symm hk)))
  · exact h.others k hne

end Step

/-- From an inode with its map in order, every sequence of `ext2_bmap` calls keeps it in order: logical
blocks are mapped to different blocks, none of them the indirect block, `i_blocks` counts the blocks held,
and what was mapped at the start is mapped to the same block; the next call changes nothing without
`alloc`, and if it returns 0 it changes no mapping and the count is right. -/
theorem bmap_consistent (calls : List MapCall) (p p' : Priv) (fs fs' : Fs) (h0 : MapOk fs p.ino)
    (hu : Run.Meets (MapCall.exec) (Unused) calls (p, fs))
    (hrun : Run.run (MapCall.exec) calls (p, fs) = some (p', fs')) :
    MapOk fs' p'.ino ∧
    (∀ j k, lbnBlock fs' p'.ino j ≠ 0 → j ≠ k → lbnBlock fs' p'.ino j ≠ lbnBlock fs' p'.ino k) ∧
    (∀ k, lbnBlock fs' p'.ino k ≠ 0 → lbnBlock fs' p'.ino k ≠ iBlock p'.ino 12) ∧
    iBlocks p'.ino = 2 * (blocksOf fs' p'.ino).length ∧
    (∀ k, lbnBlock fs p.ino k ≠ 0 → lbnBlock fs' p'.ino k = lbnBlock fs p.ino k) ∧
    (∀ lbn, bmap p' lbn false fs' = (lbnBlock fs' p'.ino lbn, p', fs')) ∧
    ∀ c, Unused (p', fs') c → ∀ r, r = bmap p' c.lbn c.alloc fs' → r.1 = 0 →
      (∀ k, lbnBlock r.2.2 r.2.1.ino k = lbnBlock fs' p'.ino k) ∧
        iBlocks r.2.1.ino = 2 * (blocksOf r.2.2 r.2.1.ino).length := by
  obtain ⟨hok, hkeeps⟩ : MapOk fs' p'.ino ∧ ∀ k, lbnBlock fs p.ino k ≠ 0 → lbnBlock fs' p'.ino k =
    lbnBlock fs p.ino k := by
    refine Run.run_invariant (fun s => MapOk s.2 s.1.ino ∧ ∀ k, lbnBlock fs p.ino k ≠ 0 →
      lbnBlock s.2 s.1.ino k = lbnBlock fs p.ino k) ?_ ⟨h0, fun _ _ => rfl⟩ hu hrun
    rintro s c s' ⟨hs, hk⟩ hc he
    cases he
    have hr := MapCall.remapped hs hc
    refine ⟨hr.ok, fun k hne => ?_⟩
    rw [hr.keeps (by rw [hk k hne]; exact hne), hk k hne]
  refine ⟨hok, fun j k hj hne he => hne (lbnBlock_inj hok.nodup hj he), fun k hk he => ?_, hok.count, hkeeps,
    fun lbn => bmap_false p' lbn fs', fun c hc r hr hz => ?_⟩
  · exact lbnBlock_ne hok.nodup (he ▸ hk) hk he
  · have hrem := MapCall.remapped hok hc
    subst hr
    exact ⟨hrem.zero hz, hrem.ok.count⟩

/-- A direct and an indirect block for a new inode. -/
theorem new_inode_mapped : ∃ p' fs',
    Run.run (MapCall.exec) [⟨0, true⟩, ⟨12, true⟩] (⟨fun _ => 0, false, false⟩, plainFs) =
    some (p', fs') ∧ iBlocks p'.ino = 2 * (blocksOf fs' p'.ino).length := by
  have hok : MapOk plainFs fun _ => 0 := by
    have h : blocksOf plainFs (fun _ => 0) = [] ∧ iBlocks (fun _ => 0) = 0 := by decide +kernel
    exact ⟨by rw [h.1]; exact nodup_nil, by rw [h.1, h.2]; rfl, by rw [h.1]; nofun, by rw [h.1]; nofun⟩
  have hu : Run.Meets (MapCall.exec) (Unused) [⟨0, true⟩, ⟨12, true⟩] (⟨fun _ => 0, false, false⟩, plainFs) :=
    @Run.Meets.of_check _ _ _ _ (fun s c => decide (Unused s c)) (fun _ _ => of_decide_eq_true) _ _
      (by decide +kernel)
  exact ⟨_, _, rfl, (bmap_consistent _ _ _ _ _ hok hu rfl).2.2.2.1⟩

end Xv6Vfs.Ext2
