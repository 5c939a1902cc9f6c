import Xv6Vfs.Xv6fs.Write

/-! Where an append lands. `xv6fs_write` refreshes the cached size only when the inode ends
before the bytes just written, which `writei` excludes, so the cache keeps the size the inode
had at the open. -/
namespace Xv6Vfs.Xv6fs
open Xv6Vfs.Run List Option Nat

/-- A write from buffer offset `i` up to `j`, at file offset `off` plus buffer offset. -/
structure Wrote (e : Env) (off i j : Nat) (ip ip' : Inode) : Prop where
  le : i ≤ j
  inside : i < j → off + i ≤ ip.size ∧ off + j ≤ maxFileBytes
  size : ip'.size = if i < j then max ip.size (off + j) else ip.size
  before : ∀ k < off + i, ip'.data k = ip.data k
  bytes : ∀ k, i ≤ k → k < j → some (ip'.data (off + k)) = e.user k

theorem Wrote.refl (e : Env) (off i : Nat) (ip : Inode) : Wrote e off i i ip ip where
  le := Nat.le_refl i
  inside := fun h => absurd h (Nat.lt_irrefl i)
  size := by simp
  before := fun _ _ => rfl
  bytes := fun k h1 h2 => by omega

theorem Wrote.trans {e : Env} {off i j k : Nat} {ip ip1 ip2 : Inode}
    (h : Wrote e off i j ip ip1) (h' : Wrote e off j k ip1 ip2) : Wrote e off i k ip ip2 where
  le := h.le.trans h'.le
  inside := fun hik => by
    by_cases hij : i < j
    · refine ⟨(h.inside hij).1, ?_⟩
      by_cases hjk : j < k
      · exact (h'.inside hjk).2
      · have : j = k := le_antisymm h'.le (not_lt.mp hjk)
        exact this ▸ (h.inside hij).2
    · have he : i = j := le_antisymm h.le (not_lt.mp hij)
      have hs : ip1.size = ip.size := by rw [h.size, if_neg hij]
      have := h'.inside (he ▸ hik)
      rw [hs] at this
      exact ⟨he ▸ this.1, this.2⟩
  size := by
    have h1 := h.le
    have h2 := h'.le
    rw [h'.size, h.size]
    split_ifs <;> omega
  before := fun x hx => by
    have := h.le
    rw [h'.before x (by omega), h.before x hx]
  bytes := fun x hi hk => by
    by_cases hx : x < j
    · rw [h'.before (off + x) (by omega)]
      exact h.bytes x hi hx
    · exact h'.bytes x (by omega) hk

theorem user_of_mapped (e : Env) (src m : Nat) (h : mapped e src m = m) (j : Nat) (hj : j < m) :
    (e.user (src + j)).isSome := by
  induction m generalizing src j with
  | zero => omega
  | succ m ih =>
    simp only [mapped] at h
    split at h
    case isFalse => omega
    case isTrue hs =>
      cases j with
      | zero => simpa using hs
      | succ j =>
        have := ih (src + 1) (by omega) j (by omega)
        simpa [Nat.add_assoc, Nat.add_comm 1 j] using this

theorem copyin_before (e : Env) (data : Nat → UInt8) (off src m k : Nat) (hk : k < off) :
    (copyin e data off src m).2 k = data k := by
  simp [copyin, Nat.not_le.mpr hk]

theorem copyin_bytes (e : Env) (data : Nat → UInt8) (off src m k : Nat) (h : (copyin e data off src m).1 = true)
    (hk : k < m) : some ((copyin e data off src m).2 (off + k)) = e.user (src + k) := by
  have hm : mapped e src m = m := by simpa [copyin] using h
  have hu := user_of_mapped e src m hm k hk
  obtain ⟨b, hb⟩ := isSome_iff_exists.mp hu
  simp [copyin, hm, hk, hb]

/-- Outcome `r` of the copy loop entered with `tot` bytes done at file offset `off`: offset
and count advance together and the bytes in front of `off` stay. -/
def Copied (e : Env) (src n tot off : Nat) (data : Nat → UInt8)
    (r : Nat × Nat × (Nat → UInt8)) : Prop :=
  tot ≤ r.1 ∧ r.1 ≤ n ∧ r.2.1 + tot = off + r.1 ∧ (∀ k < off, r.2.2 k = data k) ∧
    ∀ k, tot ≤ k → k < r.1 → some (r.2.2 (off + (k - tot))) = e.user (src + k)

theorem Copied.stop (e : Env) (src n tot off : Nat) (data d : Nat → UInt8) (ht : tot ≤ n)
    (hd : ∀ k < off, d k = data k) : Copied e src n tot off data (tot, off, d) :=
  ⟨Nat.le_refl _, ht, rfl, hd, fun k h1 h2 => by simp only at h2; omega⟩

theorem writeiLoop_copied (e : Env) (src n : Nat) (fuel tot off : Nat) (data : Nat → UInt8)
    (ht : tot ≤ n) : Copied e src n tot off data (writeiLoop e src n fuel tot off data) := by
  induction fuel generalizing tot off data with
  | zero => exact Copied.stop e src n tot off data data ht fun _ _ => rfl
  | succ fuel ih =>
    simp only [writeiLoop]
    split
    case isFalse => exact Copied.stop e src n tot off data data ht fun _ _ => rfl
    split
    case isFalse => exact Copied.stop e src n tot off data data ht fun _ _ => rfl
    set m := min (n - tot) (bsize - off % bsize) with hm
    split
    case isFalse =>
      exact Copied.stop e src n tot off data _ ht fun k hk => copyin_before e data off _ m k hk
    case isTrue h3 =>
      have hmn : tot + m ≤ n := by omega
      obtain ⟨r1, r2, r3, r4, r5⟩ := ih (tot + m) (off + m) (copyin e data off (src + tot) m).2 hmn
      refine ⟨by omega, r2, by omega, fun k hk => ?_, fun k hk1 hk2 => ?_⟩
      · rw [r4 k (by omega), copyin_before e data off _ m k hk]
      · by_cases hk : k < tot + m
        · rw [r4 _ (by omega)]
          have := copyin_bytes e data off (src + tot) m (k - tot) h3 (by omega)
          rwa [show src + tot + (k - tot) = src + k by omega] at this
        · have := r5 k (by omega) hk2
          rwa [show off + m + (k - (tot + m)) = off + (k - tot) by omega] at this

/-- One `writei` of the chunk at buffer offset `i`, whatever it returns. -/
theorem writei_wrote (e : Env) (ip : Inode) (off i n : Nat) (ho : off + i < 2 ^ 32) (hn : n ≤ maxChunk) :
    Wrote e off i (i + (writei e ip i (off + i) n).1.toNat) ip (writei e ip i (off + i) n).2 := by
  unfold writei
  split
  · simpa using Wrote.refl e off i ip
  split
  · simpa using Wrote.refl e off i ip
  case isFalse.isFalse h1 h2 =>
    obtain ⟨_, r2, r3, r4, r5⟩ := writeiLoop_copied e i n n 0 (off + i) ip.data (Nat.zero_le n)
    simp only [u32, maxFileBytes, maxChunk, bsize] at h1 h2 hn
    simp only [Int.toNat_natCast]
    refine ⟨by omega, fun h => ?_, ?_, r4, fun k hk1 hk2 => ?_⟩
    · simp only [maxFileBytes, bsize]
      omega
    · simp only [gt_iff_lt]
      split_ifs <;> omega
    · have := r5 (k - i) (by omega) (by omega)
      rwa [show off + i + (k - i - 0) = off + k by omega, show i + (k - i) = k by omega] at this

theorem writei_le (e : Env) (ip : Inode) (src off n : Nat) : (writei e ip src off n).1 ≤ n := by
  unfold writei
  split
  · simp only; omega
  split
  · simp only; omega
  · have := (writeiLoop_copied e src n n 0 off ip.data (Nat.zero_le n)).2.1
    simpa using this

/-- The whole transaction loop, for any number of chunks and any failure inside one. -/
theorem writeLoop_wrote (e : Env) (off n fuel i : Nat) (ip : Inode) (ho : off + i < 2 ^ 32) (hi : i ≤ n) :
    (writeLoop e off n fuel i ip).1 ≤ n ∧
      Wrote e off i (writeLoop e off n fuel i ip).1 ip (writeLoop e off n fuel i ip).2 := by
  induction fuel generalizing i ip with
  | zero => exact ⟨hi, Wrote.refl e off i ip⟩
  | succ fuel ih =>
    by_cases hin : i < n
    case neg =>
      have hr : writeLoop e off n (fuel + 1) i ip = (i, ip) := by simp [writeLoop, hin]
      rw [hr]
      exact ⟨hi, Wrote.refl e off i ip⟩
    have hu : u32 (off + i) = off + i := mod_eq_of_lt ho
    set n1 := min (n - i) maxChunk with hn1
    have hw := writei_wrote e ip off i n1 ho (Nat.min_le_right _ _)
    have hle := writei_le e ip i (off + i) n1
    set r := writei e ip i (off + i) n1 with hr
    have hi' : (if r.1 > 0 then i + r.1.toNat else i) = i + r.1.toNat := by
      split <;> omega
    by_cases hfull : r.1 = n1
    case neg =>
      have he : writeLoop e off n (fuel + 1) i ip = (i + r.1.toNat, r.2) := by
        simp only [writeLoop, hin, if_true, hu, ← hn1, ← hr, hi']
        exact if_pos hfull
      rw [he]
      exact ⟨by omega, hw⟩
    have he : writeLoop e off n (fuel + 1) i ip = writeLoop e off n fuel (i + r.1.toNat) r.2 := by
      simp only [writeLoop, hin, if_true, hu, ← hn1, ← hr, hi']
      exact if_neg (not_not.mpr hfull)
    have ho' : off + (i + r.1.toNat) < 2 ^ 32 := by
      by_cases h0 : i < i + r.1.toNat
      · have := (hw.inside h0).2
        simp only [maxFileBytes, bsize] at this
        omega
      · omega
    obtain ⟨h1, h2⟩ := ih (i + r.1.toNat) r.2 ho' (by omega)
    rw [he]
    exact ⟨h1, hw.trans h2⟩

theorem xv6fsWrite_vnode (e : Env) (vp : Vnode) (ip : Inode) (n : Int) (off : Nat)
    (ho : off < 2 ^ 32) : (xv6fsWrite e vp ip n off).2.1 = vp := by
  have hw := (writeLoop_wrote e off n.toNat n.toNat 0 ip ho (Nat.zero_le _)).2
  unfold xv6fsWrite
  simp only
  refine if_neg fun h => ?_
  have hs := hw.size
  rw [if_pos h.1] at hs
  have hin := (hw.inside h.1).2
  have hu : u32 (off + (writeLoop e off n.toNat n.toNat 0 ip).1) =
      off + (writeLoop e off n.toNat n.toNat 0 ip).1 := by
    apply mod_eq_of_lt
    simp only [maxFileBytes, bsize] at hin
    omega
  rw [hu] at h
  omega

theorem xv6fsWrite_full (e : Env) (vp : Vnode) (ip : Inode) (n : Int) (off : Nat) (ho : off < 2 ^ 32) (hn : 0 < n)
    (hr : (xv6fsWrite e vp ip n off).1 = n) : Wrote e off 0 n.toNat ip (xv6fsWrite e vp ip n off).2.2 := by
  have hw := (writeLoop_wrote e off n.toNat n.toNat 0 ip ho (Nat.zero_le _)).2
  unfold xv6fsWrite at hr ⊢
  simp only at hr ⊢
  split at hr
  case isFalse => omega
  case isTrue h =>
    have : (writeLoop e off n.toNat n.toNat 0 ip).1 = n.toNat := by omega
    rwa [this] at hw

/-- The appended bytes stand exactly behind the file as it was, and nothing else moved. -/
def AppendsAtEnd (e : Env) (ip ip' : Inode) (n : Nat) : Prop :=
  ip'.size = ip.size + n ∧ (∀ k < ip.size, ip'.data k = ip.data k) ∧
    ∀ k < n, some (ip'.data (ip.size + k)) = e.user k

theorem Wrote.appends_iff {e : Env} {off n : Nat} {ip ip' : Inode} (h : Wrote e off 0 n ip ip')
    (hn : 0 < n) : AppendsAtEnd e ip ip' n ↔ off = ip.size := by
  have hin := (h.inside hn).1
  have hs := h.size
  rw [if_pos hn] at hs
  constructor
  · rintro ⟨h1, -, -⟩
    omega
  · rintro rfl
    refine ⟨by omega, fun k hk => h.before k (by omega), fun k hk => ?_⟩
    exact h.bytes k (Nat.zero_le k) hk

/-- Sizes and offsets fit their `uint` fields. -/
structure Fits (s : State) : Prop where
  inode : s.ip.size ≤ maxFileBytes
  files : ∀ f ∈ s.files, f.vnode.size < 2 ^ 32 ∧ f.off < 2 ^ 32

theorem xv6fsWrite_size (e : Env) (vp : Vnode) (ip : Inode) (n : Int) (off : Nat) (ho : off < 2 ^ 32)
    (hi : ip.size ≤ maxFileBytes) : (xv6fsWrite e vp ip n off).2.2.size ≤ maxFileBytes := by
  have hw := (writeLoop_wrote e off n.toNat n.toNat 0 ip ho (Nat.zero_le _)).2
  change (writeLoop e off n.toNat n.toNat 0 ip).2.size ≤ maxFileBytes
  rw [hw.size]
  split
  · have := (hw.inside ‹_›).2
    omega
  · exact hi

theorem filewrite_file (e : Env) (f : File) (ip : Inode) (n : Int) (hv : f.vnode.size < 2 ^ 32) (ho : f.off < 2 ^ 32) :
    (filewrite e f ip n).2.1.vnode = f.vnode ∧
      (filewrite e f ip n).2.1.appendable = f.appendable ∧
      (filewrite e f ip n).2.1.off < 2 ^ 32 ∧
      (ip.size ≤ maxFileBytes → (filewrite e f ip n).2.2.size ≤ maxFileBytes) := by
  unfold filewrite
  split
  case isFalse => exact ⟨rfl, rfl, ho, id⟩
  case isTrue =>
    have hoff : (if f.appendable = true then f.vnode.size else f.off) < 2 ^ 32 := by
      split <;> assumption
    refine ⟨xv6fsWrite_vnode e f.vnode ip n _ hoff, rfl, ?_, xv6fsWrite_size e f.vnode ip n _ hoff⟩
    have hu : ∀ k, u32 k < 2 ^ 32 := fun k => mod_lt k (by decide)
    generalize (if f.appendable = true then f.vnode.size else f.off) = off at hoff
    dsimp only
    split_ifs
    · exact hu _
    · exact hoff

theorem sysOpen_fits (omode : Nat) (ip : Inode) (h : ip.size ≤ maxFileBytes) :
    (sysOpen omode ip).2.size ≤ maxFileBytes ∧ (sysOpen omode ip).1.vnode.size < 2 ^ 32 ∧
      (sysOpen omode ip).1.off < 2 ^ 32 := by
  simp only [maxFileBytes, bsize] at h ⊢
  by_cases ht : omode &&& oTrunc = 0 <;> by_cases ha : omode &&& oAppend = 0 <;>
    simp [sysOpen, vnodeFromInode, xv6fsTruncate, ht, ha] <;> omega

theorem exec_fits (s : State) (op : Op) (s' : State) (hs : Fits s) (h : exec op s = some s') : Fits s' := by
  cases op with
  | «open» omode =>
    cases h
    obtain ⟨h1, h2, h3⟩ := sysOpen_fits omode s.ip hs.inode
    refine ⟨h1, fun f hf => ?_⟩
    rcases mem_append.mp hf with hf | hf
    · exact hs.files f hf
    · obtain rfl := mem_singleton.mp hf
      exact ⟨h2, h3⟩
  | write fd n e =>
    obtain ⟨f, hf, rfl⟩ := map_eq_some_iff.mp h
    have hm := hs.files f (mem_of_getElem? hf)
    obtain ⟨h1, -, h3, h4⟩ := filewrite_file e f s.ip n hm.1 hm.2
    refine ⟨h4 hs.inode, fun g hg => ?_⟩
    rcases mem_or_eq_of_mem_set hg with hg | rfl
    · exact hs.files g hg
    · exact ⟨h1 ▸ hm.1, h3⟩

/-- The cached size of an open description never changes again. -/
theorem exec_vnode (s : State) (op : Op) (s' : State) (hs : Fits s) (h : exec op s = some s')
    (fd : Nat) (f : File) (hf : s.files[fd]? = some f) :
    ∃ f', s'.files[fd]? = some f' ∧ f'.vnode = f.vnode ∧ f'.appendable = f.appendable := by
  cases op with
  | «open» omode =>
    cases h
    refine ⟨f, ?_, rfl, rfl⟩
    rwa [List.getElem?_append_left (List.getElem?_eq_some_iff.mp hf).1]
  | write fd' n e =>
    obtain ⟨g, hg, rfl⟩ := map_eq_some_iff.mp h
    have hm := hs.files g (mem_of_getElem? hg)
    obtain ⟨h1, h2, -, -⟩ := filewrite_file e g s.ip n hm.1 hm.2
    by_cases he : fd' = fd
    · subst he
      obtain rfl : g = f := some.inj (hg.symm.trans hf)
      exact ⟨_, List.getElem?_set_self (List.getElem?_eq_some_iff.mp hf).1, h1, h2⟩
    · exact ⟨f, by rw [getElem?_set_ne he]; exact hf, rfl, rfl⟩

theorem run_vnode {ops : List Op} {s t : State} (hs : Fits s) (h : run exec ops s = some t) {fd : Nat} {f g : File}
    (hf : s.files[fd]? = some f) (hg : t.files[fd]? = some g) : g.vnode = f.vnode ∧ g.appendable = f.appendable := by
  have key := run_preserves (fun u => Fits u ∧ ∃ f', u.files[fd]? = some f' ∧
      f'.vnode = f.vnode ∧ f'.appendable = f.appendable)
    (fun u op u' hu hstep => by
      obtain ⟨hfit, f1, hf1, hv, ha⟩ := hu
      obtain ⟨f2, hf2, hv2, ha2⟩ := exec_vnode u op u' hfit hstep fd f1 hf1
      exact ⟨exec_fits u op u' hfit hstep, f2, hf2, hv2.trans hv, ha2.trans ha⟩)
    ⟨hs, f, hf, rfl, rfl⟩ h
  obtain ⟨-, f', hf', hv, ha⟩ := key
  obtain rfl : f' = g := some.inj (hf'.symm.trans hg)
  exact ⟨hv, ha⟩

theorem sysOpen_vnode_size (omode : Nat) (ip : Inode) :
    (sysOpen omode ip).1.vnode.size = (sysOpen omode ip).2.size := by
  unfold sysOpen vnodeFromInode xv6fsTruncate
  split_ifs <;> rfl

/-- In every run, an append of `n > 0` bytes that reports success lands at the end of the file
exactly when the file has again the size it had right after the open of that descriptor; the
cached size agrees with the inode in the same case. -/
theorem append_lands_at_end_iff (ip0 : Inode) (h0 : ip0.size ≤ maxFileBytes) (pre mid : List Op) (omode : Nat)
    {s0 s1 s : State} (hpre : run exec pre ⟨ip0, []⟩ = some s0) (hopen : exec (.open omode) s0 = some s1)
    (hmid : run exec mid s1 = some s) (happ : omode &&& oAppend ≠ 0) {f f' : File}
    (hf : s.files[s0.files.length]? = some f) (e : Env) (n : Int) {ip' : Inode} (hn : 0 < n)
    (hw : filewrite e f s.ip n = (n, f', ip')) :
    (AppendsAtEnd e s.ip ip' n.toNat ↔ s.ip.size = s1.ip.size) ∧
      (f.vnode.size = s.ip.size ↔ s.ip.size = s1.ip.size) := by
  have hfit0 : Fits s0 := run_preserves Fits exec_fits ⟨h0, by simp⟩ hpre
  have hfit1 : Fits s1 := exec_fits s0 _ s1 hfit0 hopen
  have hfit : Fits s := run_preserves Fits exec_fits hfit1 hmid
  cases hopen
  have hnew : (s0.files ++ [(sysOpen omode s0.ip).1])[s0.files.length]? =
      some (sysOpen omode s0.ip).1 := by simp
  obtain ⟨hv, ha⟩ := run_vnode hfit1 hmid hnew hf
  have hsize : f.vnode.size = (sysOpen omode s0.ip).2.size := by
    rw [hv, sysOpen_vnode_size]
  have hap : f.appendable = true := by
    rw [ha]
    simp [sysOpen, happ]
  have hwr : f.writable = true := by
    cases hb : f.writable with
    | true => rfl
    | false =>
      have : (-1 : Int) = n := congrArg Prod.fst ((by simp [filewrite, hb] :
        filewrite e f s.ip n = (-1, f, s.ip)).symm.trans hw)
      omega
  have hm := hfit.files f (mem_of_getElem? hf)
  have hret : (xv6fsWrite e f.vnode s.ip n f.vnode.size).1 = n := by
    simpa [filewrite, hwr, hap] using congrArg Prod.fst hw
  have hip : (xv6fsWrite e f.vnode s.ip n f.vnode.size).2.2 = ip' := by
    simpa [filewrite, hwr, hap] using congrArg (fun r => r.2.2) hw
  have hfull := xv6fsWrite_full e f.vnode s.ip n f.vnode.size hm.1 hn hret
  rw [hip] at hfull
  refine ⟨(hfull.appends_iff (by omega)).trans ?_, ?_⟩ <;> rw [hsize] <;> exact eq_comm

/-- The one-byte buffer of a write call on a device with free blocks. -/
def oneByte (b : UInt8) : Env := { user := fun k => if k = 0 then some b else none, bmap := fun _ => true }

def emptyFile : Inode := { size := 0, data := fun _ => 0 }

/-- Two appends through one descriptor of an empty file: the second returns 1, yet it
overwrites the first byte and the file does not grow. -/
theorem second_append_overwrites :
    ∃ (s : State) (f f' : File) (ip' : Inode),
      run exec [.open (oWronly ||| oAppend), .write 0 1 (oneByte 65)] ⟨emptyFile, []⟩ = some s ∧
      s.files[0]? = some f ∧ f.appendable = true ∧
      filewrite (oneByte 66) f s.ip 1 = (1, f', ip') ∧
      s.ip.size = 1 ∧ s.ip.data 0 = 65 ∧ ip'.size = 1 ∧ ip'.data 0 = 66 ∧
      f.vnode.size ≠ s.ip.size ∧ ¬ AppendsAtEnd (oneByte 66) s.ip ip' 1 := by
  refine ⟨_, _, _, _, rfl, rfl, rfl, rfl, rfl, rfl, rfl, rfl, by decide, ?_⟩
  rintro ⟨h, -, -⟩
  exact absurd h (by decide)

/-- The file is opened a second time after the first append. What the first descriptor overwrites then does not keep
the second one from appending. -/
theorem reopened_append_lands :
    ∃ (s : State) (f f' : File) (ip' : Inode),
      run exec [.open (oWronly ||| oAppend), .write 0 1 (oneByte 65), .open (oWronly ||| oAppend),
        .write 0 1 (oneByte 66)] ⟨emptyFile, []⟩ = some s ∧
      s.files[1]? = some f ∧ filewrite (oneByte 67) f s.ip 1 = (1, f', ip') ∧
      s.ip.size = 1 ∧ ip'.size = 2 ∧ ip'.data 0 = 66 ∧ ip'.data 1 = 67 ∧
      f.vnode.size = s.ip.size ∧ AppendsAtEnd (oneByte 67) s.ip ip' 1 := by
  refine ⟨_, _, _, _, rfl, rfl, rfl, rfl, rfl, rfl, rfl, ?_⟩
  have h := append_lands_at_end_iff emptyFile (by decide) [.open (oWronly ||| oAppend), .write 0 1 (oneByte 65)]
    [.write 0 1 (oneByte 66)] (oWronly ||| oAppend) rfl rfl rfl (by decide) rfl (oneByte 67) 1 (by decide) rfl
  exact ⟨h.2.mpr rfl, h.1.mpr rfl⟩

end Xv6Vfs.Xv6fs
