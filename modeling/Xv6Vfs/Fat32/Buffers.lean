import Xv6Vfs.Fat32.Geometry
import Xv6Vfs.Fat32.Layout
import Xv6Vfs.Lib.Run

/-! The writes of the FAT32 driver as calls on the buffer cache. A buffer is locked from `bread` to
`brelse`, so a process that reads a block again in between waits for itself. -/
namespace Xv6Vfs.Fat32
open Xv6Vfs.Bytes Function

inductive BufCall where
  | bread (b : Nat)
  /-- Change the data of the buffer and write it out. -/
  | bwrite (b : Nat) (f : Bytes → Bytes)
  | brelse (b : Nat)

/-- The blocks whose buffers the process has locked, and the device. -/
structure Locked where
  held : List Nat
  disk : Disk

/-- Undefined where `bread` waits for a lock that the process itself holds, and where `bwrite` and
`brelse` panic. -/
def BufCall.exec : BufCall → Locked → Option Locked
  | .bread b, s => if b ∈ s.held then none else some { s with held := b :: s.held }
  | .bwrite b f, s => if b ∈ s.held then some { s with disk := update s.disk b (f (s.disk b)) } else none
  | .brelse b, s => if b ∈ s.held then some { s with held := s.held.erase b } else none

/-- A block is written, and while its buffer is locked a second one where there is one. -/
def writeBoth (b : Nat) (f : Bytes → Bytes) (mirror : Option (Nat × (Bytes → Bytes))) : List BufCall :=
  [.bread b, .bwrite b f] ++ (mirror.elim [] fun m => [.bread m.1, .bwrite m.1 m.2, .brelse m.1]) ++ [.brelse b]

/-- `swrite`. -/
def swriteCalls (v : Volume) (sec off : Nat) (src : Bytes) (n : Nat) : List BufCall :=
  let s2 := uint (sec + v.fatSz)
  writeBoth (sec / spb) (fun data => blit data (sec % spb * bps + off) src n)
    (if 1 < v.numFats ∧ v.rsvdSecCnt ≤ sec ∧ sec < uint (v.rsvdSecCnt + v.fatSz) then
      some (s2 / spb, fun data => blit data (s2 % spb * bps + off) src n)
    else none)

/-- `*e = (*e & 0xF0000000) | (val & 0x0FFFFFFF)` at byte `bo` of a buffer. -/
def setEntry (bo val : Nat) (data : Bytes) : Bytes :=
  blit data bo (le (u32 data bo / 2 ^ 28 * 2 ^ 28 + val % 2 ^ 28)) 4

/-- `write_fat`. -/
def writeFatCalls (v : Volume) (c val : Nat) : List BufCall :=
  let fo := uint (c * 4)
  let sec := v.rsvdSecCnt + fo / bps
  let s2 := uint (sec + v.fatSz)
  writeBoth (sec / spb) (setEntry (sec % spb * bps + fo % bps) val)
    (if 1 < v.numFats then some (s2 / spb, setEntry (s2 % spb * bps + fo % bps) val) else none)

section Calls

variable {b b2 : Nat} {f f2 : Bytes → Bytes} {disk : Disk}

theorem run_writeBoth_none : Run.run BufCall.exec (writeBoth b f none) ⟨[], disk⟩ =
    some ⟨[], update disk b (f (disk b))⟩ := by
  simp [writeBoth, Run.run, BufCall.exec]

theorem run_writeBoth_some (hb : b2 ≠ b) : Run.run BufCall.exec (writeBoth b f (some (b2, f2))) ⟨[], disk⟩ =
    some ⟨[], update (update disk b (f (disk b))) b2 (f2 (update disk b (f (disk b)) b2))⟩ := by
  simp [writeBoth, Run.run, BufCall.exec, hb]

/-- The second `bread` waits for the buffer of the first. -/
theorem run_writeBoth_self : Run.run BufCall.exec (writeBoth b f (some (b, f2))) ⟨[], disk⟩ = none := by
  simp [writeBoth, Run.run, BufCall.exec]

end Calls

section Mirror

variable {v : Volume} {disk : Disk}

theorem putEntry_eq (sec off val : Nat) (disk : Disk) : putEntry sec off val disk =
    update disk (sec / spb) (setEntry (sec % spb * bps + off) val (disk (sec / spb))) := by
  rw [putEntry, poke, setEntry, sread, u32_drop, Nat.add_zero]

/-- Where the calls return, they do what `writeFat` does. -/
theorem run_writeFatCalls (c val : Nat)
    (h : 1 < v.numFats → uint (v.rsvdSecCnt + uint (c * 4) / bps + v.fatSz) / spb ≠
      (v.rsvdSecCnt + uint (c * 4) / bps) / spb) :
    Run.run BufCall.exec (writeFatCalls v c val) ⟨[], disk⟩ = some ⟨[], writeFat v c val disk⟩ := by
  unfold writeFatCalls writeFat
  simp only [putEntry_eq]
  by_cases hn : 1 < v.numFats
  · rw [if_pos hn, if_pos hn, run_writeBoth_some (h hn)]
  · rw [if_neg hn, if_neg hn, run_writeBoth_none]

theorem run_swriteCalls (sec off : Nat) (src : Bytes) (n : Nat)
    (h : 1 < v.numFats ∧ v.rsvdSecCnt ≤ sec ∧ sec < uint (v.rsvdSecCnt + v.fatSz) →
      uint (sec + v.fatSz) / spb ≠ sec / spb) :
    Run.run BufCall.exec (swriteCalls v sec off src n) ⟨[], disk⟩ = some ⟨[], swrite v sec off src n disk⟩ := by
  unfold swriteCalls swrite
  simp only [poke]
  by_cases hn : 1 < v.numFats ∧ v.rsvdSecCnt ≤ sec ∧ sec < uint (v.rsvdSecCnt + v.fatSz)
  · rw [if_pos hn, if_pos hn, run_writeBoth_some (h hn)]
  · rw [if_neg hn, if_neg hn, run_writeBoth_none]

theorem run_writeFatCalls_self {c val : Nat} (hn : 1 < v.numFats)
    (h : uint (v.rsvdSecCnt + uint (c * 4) / bps + v.fatSz) / spb = (v.rsvdSecCnt + uint (c * 4) / bps) / spb) :
    Run.run BufCall.exec (writeFatCalls v c val) ⟨[], disk⟩ = none := by
  unfold writeFatCalls
  dsimp only
  rw [if_pos hn, h, run_writeBoth_self]

end Mirror

/-! ### Two tables in one block -/

/-- Every write of a FAT sector returns, with its changes made and all buffers released. -/
structure MirrorReturns (v : Volume) : Prop where
  writeFat : ∀ disk c val, c < 2 ^ 32 → 4 * c + 4 ≤ 512 * v.fatSz →
    Run.run BufCall.exec (writeFatCalls v c val) ⟨[], disk⟩ = some ⟨[], writeFat v c val disk⟩
  swrite : ∀ disk sec off src n, sec < 2 ^ 32 →
    Run.run BufCall.exec (swriteCalls v sec off src n) ⟨[], disk⟩ = some ⟨[], swrite v sec off src n disk⟩

section Apart

variable {v : Volume} {sec : Nat}

theorem TablesApart.ne (h : TablesApart v) (hn : 1 < v.numFats) (hsz : 0 < v.fatSz) (hlt : v.fatSz < 2 ^ 32)
    (hone : v.fatSz = 1 → sec = v.rsvdSecCnt) : uint (sec + v.fatSz) / spb ≠ sec / spb := by
  obtain h | ⟨hodd, hmax⟩ := h
  · omega
  · rw [uint, spb]
    omega

theorem TablesApart.returns (h : TablesApart v) (hsz : 0 < v.fatSz) (hlt : v.fatSz < 2 ^ 32)
    (hr : v.rsvdSecCnt < 2 ^ 16) : MirrorReturns v := by
  constructor
  · intro disk c val hc hin
    apply run_writeFatCalls
    intro hn
    have hmod : uint (c * 4) ≤ c * 4 := Nat.mod_le _ _
    rw [bps]
    exact h.ne hn hsz hlt (fun h1 => by omega)
  · intro disk sec off src n _
    apply run_swriteCalls
    rintro ⟨hn, hge, hle⟩
    refine h.ne hn hsz hlt fun h1 => ?_
    rw [h1, uint] at hle
    omega

/-- A sector that does share a block with its copy. -/
theorem MirrorReturns.apart (h : MirrorReturns v) (hsz : 0 < v.fatSz) (hr : v.rsvdSecCnt < 2 ^ 16) : TablesApart v := by
  by_contra hnot
  rw [TablesApart, not_or, not_and_or, not_or] at hnot
  obtain ⟨hn, hbad⟩ := hnot
  have hself : ∃ c < 2 ^ 32, 4 * c + 4 ≤ 512 * v.fatSz ∧
      uint (v.rsvdSecCnt + uint (c * 4) / bps + v.fatSz) / spb = (v.rsvdSecCnt + uint (c * 4) / bps) / spb := by
    by_cases hodd : v.rsvdSecCnt % 2 = 1
    · refine ⟨0, by decide, by omega, ?_⟩
      rw [uint, uint, bps, spb]
      omega
    · by_cases hone : v.fatSz = 1
      · refine ⟨0, by decide, by omega, ?_⟩
        rw [uint, uint, bps, spb]
        omega
      · refine ⟨128, by decide, by omega, ?_⟩
        rw [uint, uint, bps, spb]
        omega
  obtain ⟨c, hc, hin, hb⟩ := hself
  have hnone : Run.run BufCall.exec (writeFatCalls v c 0) ⟨[], fun _ _ => 0⟩ = none :=
    run_writeFatCalls_self (by omega) hb
  rw [h.writeFat _ c 0 hc hin] at hnone
  cases hnone

end Apart

/-- For every geometry that `fat32_mount` takes from a boot sector it accepts: updating the table never
waits for a buffer of its own exactly if no sector of the table shares a block with its copy. -/
theorem mirror_returns_iff (b : Bytes) (v : Volume) (hb : Accepted b) (hv : geometry b = some v) :
    MirrorReturns v ↔ TablesApart v := by
  have hsz : 0 < v.fatSz ∧ v.fatSz < 2 ^ 32 ∧ v.rsvdSecCnt < 2 ^ 16 := by
    unfold geometry at hv
    split at hv
    · cases hv
    · cases hv
      exact ⟨Nat.pos_of_ne_zero hb.2.1, u32_lt _ _, u16_lt _ _⟩
  exact ⟨fun h => h.apart hsz.1 hsz.2.2, fun h => h.returns hsz.1 hsz.2.1 hsz.2.2⟩

/-- The usual two tables of a volume of 50 MB. -/
theorem two_tables_return : ∃ v, geometry (bootSector 8 32 2 100000 100) = some v ∧ TablesApart v ∧ MirrorReturns v :=
  ⟨_, rfl, by decide, (mirror_returns_iff (bootSector 8 32 2 100000 100) _ (by decide) rfl).mpr (by decide)⟩

/-- A small volume with two tables of one sector behind 32 reserved ones: allocating a cluster hangs. -/
theorem one_sector_table_hangs : Accepted (bootSector 1 32 2 100 1) ∧ Fits (bootSector 1 32 2 100 1) ∧
    ∃ v, geometry (bootSector 1 32 2 100 1) = some v ∧
      ∀ disk, Run.run BufCall.exec (writeFatCalls v 2 eoc) ⟨[], disk⟩ = none :=
  ⟨by decide, by decide, _, rfl, fun _ => run_writeFatCalls_self (by decide) (by decide)⟩

end Xv6Vfs.Fat32
