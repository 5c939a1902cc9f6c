import Xv6Vfs.Fat32.Created

/-! The entries of a new name carry the name. -/
namespace Xv6Vfs.Fat32
open Xv6Vfs.Bytes Xv6Vfs.Vfs List

variable {nm : Name} {c : UInt8} {cnt ei : Nat}

/-! ### One entry -/

theorem unit_bytes {u : Nat} (h : u < 65536) : (UInt8.ofNat u).toNat + 256 * (UInt8.ofNat (u / 256)).toNat = u := by
  simp only [UInt8.toNat_ofNat']
  omega

section Entry

variable {c : UInt8} {units : List Nat} {ei : Nat} {last : Bool}

theorem lfnUnits_lfnEntry (hlen : units.length = 13) (h : ∀ u ∈ units, u < 65536) :
    lfnUnits (lfnEntry c units ei last) = units := by
  match units, hlen with
  | [u0, u1, u2, u3, u4, u5, u6, u7, u8, u9, u10, u11, u12], _ =>
    have hu : lfnUnits (lfnEntry c [u0, u1, u2, u3, u4, u5, u6, u7, u8, u9, u10, u11, u12] ei last) =
        [u0, u1, u2, u3, u4, u5, u6, u7, u8, u9, u10, u11, u12].map
          fun u => (UInt8.ofNat u).toNat + 256 * (UInt8.ofNat (u / 256)).toNat := rfl
    rw [hu]
    exact (map_congr_left fun u hm => unit_bytes (h u hm)).trans (map_id _)

theorem lfnEntry_low (hlen : units.length = 13) : lfnEntry c units ei last 11 = attrLongName ∧
    lfnEntry c units ei last 13 = c := by
  match units, hlen with
  | [u0, u1, u2, u3, u4, u5, u6, u7, u8, u9, u10, u11, u12], _ => exact ⟨rfl, rfl⟩

theorem lfnEntry_seq (h : ei < 20) : lfnSeq (lfnEntry c units ei last) = ei + 1 ∧
    lfnLast (lfnEntry c units ei last) = last ∧ isFree (lfnEntry c units ei last) = false := by
  have hall : ∀ b : Bool, ∀ e, e < 20 →
      (UInt8.ofNat (if b then (e + 1) ||| 0x40 else e + 1)).toNat &&& 0xBF = e + 1 ∧
      (UInt8.ofNat (if b then (e + 1) ||| 0x40 else e + 1)).toNat.testBit 6 = b ∧
      decide (UInt8.ofNat (if b then (e + 1) ||| 0x40 else e + 1) = 0x00 ∨
        UInt8.ofNat (if b then (e + 1) ||| 0x40 else e + 1) = 0xE5) = false := by decide
  exact hall last ei h

end Entry

/-! ### The entries of a long name -/

theorem flatMap_chunks (l : List Nat) (n : Nat) :
    ((List.range n).flatMap fun ei => (l.drop (ei * 13)).take 13) = l.take (n * 13) := by
  induction n with
  | zero => simp
  | succ n ih =>
    rw [range_succ, flatMap_append, ih, flatMap_singleton, Nat.succ_mul, take_add]

theorem uname_length (nm : Name) (total : Nat) : total ≤ (uname nm total).length := by
  simp only [uname, length_append, length_cons, length_replicate, length_take, length_map]
  omega

theorem uname_lt (nm : Name) (total : Nat) : ∀ u ∈ uname nm total, u < 65536 := by
  intro u hu
  rw [uname, mem_append] at hu
  cases hu with
  | inl hu =>
    rcases mem_map.mp (mem_of_mem_take hu) with ⟨b, -, rfl⟩
    have := b.toNat_lt
    omega
  | inr hu =>
    cases hu with
    | head => omega
    | tail _ hu =>
      have := (mem_replicate.mp hu).2
      omega

/-- Part `ei` of the name. -/
def chunk (nm : Name) (cnt ei : Nat) : List Nat := ((uname nm (cnt * 13)).drop (ei * 13)).take 13

theorem chunk_length {nm : Name} {cnt ei : Nat} (h : ei < cnt) : (chunk nm cnt ei).length = 13 := by
  have := uname_length nm (cnt * 13)
  rw [chunk, length_take, length_drop]
  omega

theorem chunk_lt : ∀ u ∈ chunk nm cnt ei, u < 65536 := fun u hu =>
  uname_lt nm (cnt * 13) u (mem_of_mem_drop (mem_of_mem_take hu))

theorem lfnEntries_eq (nm : Name) (cnt : Nat) (c : UInt8) : lfnEntries nm cnt c =
    (List.range cnt).reverse.map fun ei => lfnEntry c (chunk nm cnt ei) ei (ei = cnt - 1) := rfl

theorem isLfn_lfnEntry {last : Bool} (h : ei < cnt) (h20 : ei < 20) : isLfn (lfnEntry c (chunk nm cnt ei) ei last) := by
  rcases @lfnEntry_seq c (chunk nm cnt ei) ei last h20 with ⟨hseq, -, hfree⟩
  simp only [isFree, decide_eq_false_iff_not, not_or] at hfree
  rw [isLfn, decide_eq_true_eq]
  exact ⟨hfree.1, hfree.2, (lfnEntry_low (chunk_length h)).1, by omega⟩

theorem isLfn_lfnEntries {nm : Name} {cnt : Nat} {c : UInt8} (h : cnt ≤ 20) : ∀ r ∈ lfnEntries nm cnt c, isLfn r := by
  intro r hr
  rcases mem_map.mp hr with ⟨ei, hei, rfl⟩
  have := mem_range.mp (mem_reverse.mp hei)
  exact isLfn_lfnEntry this (by omega)

theorem numbered_lfnEntries {nm : Name} {cnt n : Nat} {c : UInt8} (h : n < cnt) (h20 : cnt ≤ 20) :
    numbered c ((List.range n).reverse.map fun ei => lfnEntry c (chunk nm cnt ei) ei (ei = cnt - 1)) := by
  induction n with
  | zero => rfl
  | succ n ih =>
    have hlast : decide (n = cnt - 1) = false := decide_eq_false (by omega)
    rcases @lfnEntry_seq c (chunk nm cnt n) n (n = cnt - 1) (by omega) with ⟨hseq, hl, -⟩
    have hck : lfnCksum (lfnEntry c (chunk nm cnt n) n (n = cnt - 1)) = c :=
      (lfnEntry_low (chunk_length (by omega))).2
    rw [range_succ, reverse_append, reverse_singleton, singleton_append, map_cons, numbered,
      ih (by omega), hseq, hl, hck, hlast]
    simp

theorem complete_lfnEntries {nm : Name} {cnt : Nat} {de : Bytes} (h : 0 < cnt) (h20 : cnt ≤ 20) :
    complete de (lfnEntries nm cnt (lfnChecksum (dirName de))) := by
  generalize hc : lfnChecksum (dirName de) = c
  cases cnt with
  | zero => omega
  | succ n =>
    have hlast : decide (n = n + 1 - 1) = true := decide_eq_true (by omega)
    rcases @lfnEntry_seq c (chunk nm (n + 1) n) n (n = n + 1 - 1) (by omega) with ⟨hseq, hl, -⟩
    have hck : lfnCksum (lfnEntry c (chunk nm (n + 1) n) n (n = n + 1 - 1)) = c :=
      (lfnEntry_low (chunk_length (by omega))).2
    have hnum := @numbered_lfnEntries nm (n + 1) n c (by omega) h20
    rw [lfnEntries_eq, range_succ, reverse_append, reverse_singleton, singleton_append,
      map_cons, complete, hc, hnum, hseq, hl, hck, hlast]
    simp
    omega

theorem units_lfnEntries : (lfnEntries nm cnt c).reverse.flatMap lfnUnits = (uname nm (cnt * 13)).take (cnt * 13) := by
  rw [lfnEntries_eq, ← map_reverse, reverse_reverse, flatMap_map, ← flatMap_chunks]
  apply flatMap_congr
  intro ei hei
  exact lfnUnits_lfnEntry (chunk_length (mem_range.mp hei)) chunk_lt

end Xv6Vfs.Fat32
