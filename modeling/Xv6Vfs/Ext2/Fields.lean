import Xv6Vfs.Ext2.Frame

/-! The fields of an inode that the driver depends on, and what each update does to them. -/
namespace Xv6Vfs.Ext2
open Xv6Vfs.Bytes Xv6Vfs.Vfs

inductive Kind where
  | file | dir | dev
deriving DecidableEq

def kindOf (ino : Bytes) : Kind := if isDir ino then .dir else if isDev ino then .dev else .file

/-- Size and block pointers agree. -/
structure SameMap (a b : Bytes) : Prop where
  size : iSize a = iSize b
  ptr : ∀ k ≤ 12, iBlock a k = iBlock b k

/-- Everything but the times and the block count agrees. -/
structure Same (a b : Bytes) : Prop extends SameMap a b where
  mode : iMode a = iMode b
  links : iLinks a = iLinks b

section Same

variable {a b c : Bytes}

theorem SameMap.refl (a : Bytes) : SameMap a a := ⟨rfl, fun _ _ => rfl⟩

theorem SameMap.trans (h : SameMap a b) (h' : SameMap b c) : SameMap a c :=
  ⟨h.size.trans h'.size, fun k hk => (h.ptr k hk).trans (h'.ptr k hk)⟩

theorem Same.refl (a : Bytes) : Same a a := ⟨SameMap.refl a, rfl, rfl⟩

theorem Same.trans (h : Same a b) (h' : Same b c) : Same a c :=
  ⟨h.toSameMap.trans h'.toSameMap, h.mode.trans h'.mode, h.links.trans h'.links⟩

theorem same_of_bytes (h : ∀ j < 128, a j = b j) : Same a b := by
  refine ⟨⟨u32_congr fun j h1 h2 => h j (by omega), fun k hk => ?_⟩,
    u16_congr fun j h1 h2 => h j (by omega), u16_congr fun j h1 h2 => h j (by omega)⟩
  exact u32_congr fun j h1 h2 => h j (by omega)

theorem isDir_congr (h : iMode a = iMode b) : isDir a = isDir b := by
  unfold isDir
  rw [h]

theorem isDev_congr (h : iMode a = iMode b) : isDev a = isDev b := by
  unfold isDev
  rw [h]

theorem kindOf_dir : kindOf a = .dir ↔ isDir a = true := by
  unfold kindOf
  split <;> simp_all
  split <;> simp

end Same

section Updates

variable (ino : Bytes) (o v t k : Nat)

theorem put32_same (h : 8 ≤ o ∧ o + 4 ≤ 26 ∨ 28 ≤ o ∧ o + 4 ≤ 40) : Same (put32 ino o v) ino := by
  refine ⟨⟨u32_blit_out (by omega), fun k hk => u32_blit_out (by omega)⟩, u16_blit_out (by omega),
    u16_blit_out (by omega)⟩

theorem setBlocks_same : Same (setBlocks ino v) ino := put32_same ino 28 v (by omega)

@[simp] theorem iMode_setSize : iMode (setSize ino v) = iMode ino := u16_blit_out (by omega)

@[simp] theorem iLinks_setSize : iLinks (setSize ino v) = iLinks ino := u16_blit_out (by omega)

@[simp] theorem iSize_setSize : iSize (setSize ino v) = v % 4294967296 := u32_put32 ino 4 v

@[simp] theorem iBlock_setSize : iBlock (setSize ino v) k = iBlock ino k := u32_blit_out (by omega)

@[simp] theorem iMode_setLinks : iMode (setLinks ino v) = iMode ino := u16_blit_out (by omega)

@[simp] theorem iLinks_setLinks : iLinks (setLinks ino v) = v % 65536 := u16_put16 ino 26 v

theorem setLinks_sameMap : SameMap (setLinks ino v) ino :=
  ⟨u32_blit_out (by omega), fun k _ => u32_blit_out (by omega)⟩

@[simp] theorem iMode_setBlock : iMode (setBlock ino k v) = iMode ino := u16_blit_out (by omega)

@[simp] theorem iLinks_setBlock : iLinks (setBlock ino k v) = iLinks ino := u16_blit_out (by omega)

@[simp] theorem iSize_setBlock : iSize (setBlock ino k v) = iSize ino := u32_blit_out (by omega)

theorem iBlock_setBlock (j : Nat) : iBlock (setBlock ino k v) j = if j = k then v % 4294967296 else iBlock ino j := by
  by_cases h : j = k
  · rw [if_pos h, h]
    exact u32_put32 ino (40 + 4 * k) v
  · rw [if_neg h]
    exact u32_blit_out (by omega)

theorem iLinks_lt : iLinks ino < 65536 := u16_lt ino 26

theorem iSize_lt : iSize ino < 4294967296 := u32_lt ino 4

@[simp] theorem iLinks_decLinks : iLinks (decLinks ino) = (iLinks ino + 65535) % 65536 :=
  iLinks_setLinks ino _

theorem decLinks_sameMap : SameMap (decLinks ino) ino := setLinks_sameMap ino _

@[simp] theorem iMode_decLinks : iMode (decLinks ino) = iMode ino := iMode_setLinks ino _

theorem lessLinks_sameMap : SameMap (lessLinks ino) ino := by
  unfold lessLinks
  split
  · exact (decLinks_sameMap _).trans (decLinks_sameMap _)
  · exact decLinks_sameMap _

@[simp] theorem iMode_lessLinks : iMode (lessLinks ino) = iMode ino := by
  unfold lessLinks
  split <;> simp

theorem iLinks_lessLinks : iLinks (lessLinks ino) =
    (iLinks ino + 65536 - if isDir ino then 2 else 1) % 65536 := by
  have := iLinks_lt ino
  unfold lessLinks
  split
  · rw [iLinks_decLinks, iLinks_decLinks]
    omega
  · rw [iLinks_decLinks]
    omega

theorem updateTime_same (p : Priv) (access mod : Bool) : Same (updateTime t access mod p).ino p.ino := by
  unfold updateTime
  have h8 := put32_same p.ino 8 t (by omega)
  cases access <;> cases mod <;> simp only [Bool.false_eq_true, if_false, if_true]
  · exact Same.refl _
  · exact (put32_same _ 12 t (by omega)).trans (put32_same _ 16 t (by omega))
  · exact h8
  · exact ((put32_same _ 12 t (by omega)).trans (put32_same _ 16 t (by omega))).trans h8

theorem newInode_fields (mode : Nat) : iMode (newInode mode t) = mode % 65536 ∧
    iLinks (newInode mode t) = 0 ∧ iSize (newInode mode t) = 0 ∧
      ∀ k ≤ 12, iBlock (newInode mode t) k = 0 := by
  have h : Same (newInode mode t) (put16 (fun _ => 0) 0 mode) :=
    ((put32_same _ 12 t (by omega)).trans (put32_same _ 16 t (by omega))).trans
      (put32_same _ 8 t (by omega))
  have hz : ∀ o, 2 ≤ o → u32 (put16 (fun _ => 0) 0 mode) o = 0 := fun o ho =>
    u32_blit_out (by omega)
  refine ⟨h.mode.trans (u16_put16 _ 0 mode), h.links.trans ?_, h.size.trans (hz 4 (by omega)),
    fun k hk => (h.ptr k hk).trans (hz _ (by omega))⟩
  exact u16_blit_out (by omega)

end Updates

end Xv6Vfs.Ext2
