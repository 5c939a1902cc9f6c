import Xv6Vfs.Fat32.Created

/-! The vnode that `fcreate` returns. -/
namespace Xv6Vfs.Fat32
open Xv6Vfs.Bytes Xv6Vfs.Vfs List Option

section Created

variable {v : Volume} {d vn c : Nat} {nm : Name} {type : VType} {cs cs' : List Nat} {fs fs' : Fs} {sn : List UInt8}

theorem Created.entry (h : Created v d nm type cs fs vn fs' c sn cs') :
    (slots v fs'.disk cs')[entryIdx nm (slots v fs.disk cs) % 2 ^ 27]? = some (cut (dirent sn (newAttr type) c)) := by
  rw [h.content, newEntries, putSlots_append, lfnEntries_length, putSlots, putSlots, entryIdx, getElem?_set_self]
  rw [length_putSlots]
  exact h.room _ (Nat.lt_succ_self _)

theorem Created.firstClus (h : Created v d nm type cs fs vn fs' c sn cs') :
    fstClus (cut (dirent sn (newAttr type) c)) = c := by
  rw [fstClus_cut, fstClus_dirent _ _ h.clus]

end Created

/-- A vnode as a new file or directory needs it: empty, of the type asked for, with the first cluster
of the new entry, and with no reference but the new one. -/
structure FreshVnode (v : Volume) (d : Nat) (nm : Name) (type : VType) (cs : List Nat) (fs : Fs) (vn : Nat)
    (fs' : Fs) : Prop where
  size : (fs'.vnodes vn).size = 0 ∧ (fs'.vnodes vn).priv.fileSize = 0
  type : (fs'.vnodes vn).type = type
  clus : ∃ cs' e, Chain v fs'.disk (fs'.vnodes d).priv.firstClus cs' ∧
    (slots v fs'.disk cs')[entryIdx nm (slots v fs.disk cs) % 2 ^ 27]? = some e ∧
    (fs'.vnodes vn).priv.firstClus = fstClus e
  alone : (fs.vnodes vn).ref = 0 ∧ (fs'.vnodes vn).ref = 1

theorem nodeType_newAttr (type : VType) : nodeType (newAttr type) = if type = .dir then .dir else .file := by
  cases type with
  | none => decide
  | file => decide
  | dir => decide
  | dev => decide

/-- The vnode of a new name is fresh exactly if a file or a directory is asked for and no vnode in use
has the identity of the slot that the entry gets, by its offset modulo 4 GiB. A file that was unlinked while open
leaves such a vnode. -/
theorem create_fresh_iff {v : Volume} {d vn : Nat} {nm : Name} {type : VType} {cs : List Nat} {junk : Nat → Nat}
    {fs fs' : Fs} (h : IsDir v fs d cs) (he : fcreate v d nm type junk fs = some (some vn, fs')) :
    FreshVnode v d nm type cs fs vn fs' ↔
      (type = .file ∨ type = .dir) ∧
        findVnode fs (fs.vnodes d).priv.firstClus (uint (32 * entryIdx nm (slots v fs.disk cs))) = none := by
  rcases (h.fcreate_spec he).2 with ⟨c, sn, cs', hcr⟩
  have hv := hcr.vnode
  have hvs := hcr.vnodes
  generalize hr : fvalloc c 0 (newAttr type) (fs.vnodes d).priv.firstClus
    (uint (32 * entryIdx nm (slots v fs.disk cs))) fs = r at hv hvs
  rcases r with ⟨i, fs1⟩
  dsimp only at hv hvs
  subst hv
  rcases fvalloc_cases hr with ⟨hf, -⟩ | ⟨hf, href, hfs1⟩
  · -- a vnode in use is returned
    have hpos := (findVnode_some hf).1
    rw [hf]
    constructor
    · intro hfresh
      exact absurd hfresh.alone.1 (by omega)
    · intro hno
      exact absurd hno.2 (some_ne_none vn)
  · have hnode : fs'.vnodes vn = ⟨1, nodeType (newAttr type), (fs.vnodes d).priv.firstClus,
        uint (32 * entryIdx nm (slots v fs.disk cs)), 0, ⟨c, 0, newAttr type, (fs.vnodes d).priv.firstClus,
        uint (32 * entryIdx nm (slots v fs.disk cs))⟩⟩ := by
      rw [hvs, hfs1]
      exact Function.update_self vn _ _
    rw [nodeType_newAttr] at hnode
    constructor
    · intro hfresh
      have ht := hfresh.type
      rw [hnode] at ht
      dsimp only at ht
      refine ⟨?_, hf⟩
      split at ht
      · exact .inr ht.symm
      · exact .inl ht.symm
    · intro hno
      refine ⟨by rw [hnode]; exact ⟨rfl, rfl⟩, ?_, ⟨cs', _, hcr.dir.chain, hcr.entry, ?_⟩, href, by rw [hnode]⟩
      · rw [hnode]
        dsimp only
        cases hno.1 with
        | inl ht => rw [ht]; rfl
        | inr ht => rw [ht]; rfl
      · rw [hnode, hcr.firstClus]

/-! A volume of four clusters; the root directory is empty. -/

def tinyVolume : Volume :=
  { secPerClus := 1, rsvdSecCnt := 1, firstDataSec := 2, numFats := 1, fatSz := 1, totClus := 4, rootClus := 2 }

/-- Entry 2 of the allocation table is the end of a chain. -/
def tinyDisk : Disk := fun b => if b = 0 then fun o => if 520 ≤ o ∧ o < 524 then 0xFF else 0 else fun _ => 0

/-- Vnode 0 is the root directory. -/
def tinyFs : Fs where
  disk := tinyDisk
  vnodes := fun i => if i = 0 then ⟨1, .dir, 0, 0, 0, ⟨2, 0, 0x10, 0, 0⟩⟩ else ⟨0, .none, 0, 0, 0, ⟨0, 0, 0, 0, 0⟩⟩
  taken := fun _ => false
  pages := 4

theorem tinyVolume_ok : tinyVolume.Ok := ⟨by decide, by decide, by decide, by decide, by decide, by decide⟩

theorem tinyFs_isDir : IsDir tinyVolume tinyFs 0 [2] :=
  ⟨tinyVolume_ok, by decide, by decide, .last ⟨by decide, by decide⟩ (by decide +kernel)⟩

/-- The same with a deleted slot, "my notes.txt" with its long name, "LONGFILE" and "README.TXT". -/
def mixedFs : Fs := { tinyFs with disk := dirDisk mixedSlots }

theorem mixedFs_isDir : IsDir tinyVolume mixedFs 0 [2] :=
  ⟨tinyVolume_ok, by decide, by decide, .last ⟨by decide, by decide⟩ (by decide +kernel)⟩

/-- "aaaaaaaaa", which needs a long name, in a directory with other files: its short entry is in slot 6. -/
theorem long_file_fresh : ∃ fs', fcreate tinyVolume 0 (List.replicate 9 97) .file (fun _ => 0) mixedFs =
    some (some 1, fs') ∧
    FreshVnode tinyVolume 0 (List.replicate 9 97) .file [2] mixedFs 1 fs' ∧
    entryIdx (List.replicate 9 97) (slots tinyVolume mixedFs.disk [2]) = 6 := by
  have hsome : (fcreate tinyVolume 0 (List.replicate 9 97) .file (fun _ => 0) mixedFs).map Prod.fst =
    some (some 1) := by
    decide +kernel
  rcases map_eq_some_iff.mp hsome with ⟨⟨r, fs'⟩, he, hr⟩
  cases hr
  exact ⟨fs', he, (create_fresh_iff mixedFs_isDir he).mpr ⟨.inl rfl, by decide +kernel⟩, by decide +kernel⟩

/-- "a" is created and, while it is open, unlinked; then "b" is created. -/
def reuse : Option (Option Nat × Bool × Option Nat × Nat) :=
  (fcreate tinyVolume 0 [97] .file (fun _ => 0) tinyFs).bind fun r1 =>
    (funlink tinyVolume 0 [97] (fun _ => 0) r1.2).bind fun r2 =>
      (fcreate tinyVolume 0 [98] .file (fun _ => 0) r2.2).map fun r3 => (r1.1, r2.1, r3.1, (r3.2.vnodes 1).ref)

/-- "b" gets the vnode of the file that was unlinked. -/
theorem reused_slot_shares_vnode : ∃ fs1 fs2 fs3,
    fcreate tinyVolume 0 [97] .file (fun _ => 0) tinyFs = some (some 1, fs1) ∧
    funlink tinyVolume 0 [97] (fun _ => 0) fs1 = some (true, fs2) ∧
    fcreate tinyVolume 0 [98] .file (fun _ => 0) fs2 = some (some 1, fs3) ∧ (fs3.vnodes 1).ref = 2 ∧
    ¬FreshVnode tinyVolume 0 [98] .file [2] fs2 1 fs3 := by
  have h : reuse = some (some 1, true, some 1, 2) := by decide +kernel
  rcases bind_eq_some_iff.mp h with ⟨⟨r1, fs1⟩, h1, h⟩
  rcases bind_eq_some_iff.mp h with ⟨⟨r2, fs2⟩, h2, h⟩
  rcases map_eq_some_iff.mp h with ⟨⟨r3, fs3⟩, h3, h⟩
  simp only [Prod.mk.injEq] at h
  rcases h with ⟨rfl, rfl, rfl, h⟩
  refine ⟨fs1, fs2, fs3, h1, h2, h3, h, fun hf => ?_⟩
  have := hf.alone.2
  omega

end Xv6Vfs.Fat32
