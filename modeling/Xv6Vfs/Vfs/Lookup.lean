import Xv6Vfs.Vfs.Vnode

/-! The `lookup` operation of the three backends, as far as the VFS can see it: a search in
the directory's contents, then a vnode for what was found. xv6fs makes a fresh vnode each
time, ext2 and FAT32 first ask `vfs_iget`. -/
namespace Xv6Vfs.Vfs

variable {held : List Nat} {s s0 : State}

abbrev Name := List UInt8

def dot : Name := [46]
def dotdot : Name := [46, 46]

/-- An entry found in a directory: the inode number or first cluster, the byte offset of the
FAT32 short entry, and what goes into the vnode. -/
structure Hit where
  node : Nat
  off : Nat
  type : VType
  major : Int
  minor : Int
  size : Nat
deriving DecidableEq

/-- What is on the devices. `search` answers for the directories of all of them (`dirlookup`,
`ext2_dir_lookup`, `dlookup`): device, directory, name. `rootClus` is the root cluster of a FAT32
volume; `image` says whether a backend accepts the device, with type and size of its root.
`create` is the entry a backend makes for a new file, absent when it fails before it has made one,
with a flag whether the entry could be written. -/
structure Content where
  search : Nat → Nat → Name → Option Hit
  rootClus : Nat → Nat
  image : Nat → FsType → Option (VType × Nat)
  create : Nat → Nat → Name → Option (Hit × Bool)

/-- Outcome of a lookup: whether it returned 0, what it stored through the result pointer if
it stored at all, and the new state. -/
structure Looked where
  ok : Bool
  stored : Option (Option Nat)
  st : State

def Looked.of (r : Option Nat × State) : Looked := ⟨r.1.isSome, some r.1, r.2⟩

/-- The vnode a backend fills in for an entry of directory `d`. -/
def vnodeOf (fs : FsType) (d : Vnode) (h : Hit) (inum ikey : Nat) : Vnode where
  type := h.type
  dev := d.dev
  major := h.major
  minor := h.minor
  ops := some fs
  mp := d.mp
  ref := 1
  inum := inum
  ikey := ikey
  size := h.size
  priv := some h.node

/-- `vfs_iget`, and on a miss the vnode `v`. -/
def igetOr (v : Vnode) (s : State) : Option (Option Nat × State) :=
  match v.mp.bind fun mp => vfsIget mp v.inum v.ikey s with
  | some (i, s') => some (some i, s')
  | none => vnodeNew v s

def xv6fsLookup (c : Content) (s : State) (d : Vnode) (node : Nat) (name : Name) : Option Looked :=
  match c.search d.dev node name with
  | none => some ⟨false, none, s⟩
  | some h => (vnodeNew (vnodeOf .xv6fs d h h.node 0) s).map Looked.of

def ext2Lookup (c : Content) (s : State) (d : Vnode) (node : Nat) (name : Name) : Option Looked :=
  match c.search d.dev node name with
  | none => some ⟨false, none, s⟩
  | some h => (igetOr (vnodeOf .ext2 d h h.node 0) s).map Looked.of

/-- `flookup`: "." in any directory and ".." in the root are the directory itself; a vnode is
named by its parent's first cluster and the offset of its entry. -/
def flookup (c : Content) (s : State) (di : Nat) (d : Vnode) (clus : Nat) (name : Name) :
    Option Looked :=
  if name = dot then some ⟨true, some (some di), vget di s⟩
  else if name = dotdot ∧ clus = c.rootClus d.dev then some ⟨true, some (some di), vget di s⟩
  else match c.search d.dev clus name with
    | none => some ⟨false, none, s⟩
    | some h => (igetOr (vnodeOf .fat32 d { h with major := 0, minor := 0 } clus h.off) s).map Looked.of

/-- `vp->ops->lookup`; undefined for a vnode without operations or private data. -/
def lookup (c : Content) (s : State) (di : Nat) (name : Name) : Option Looked :=
  let d := s.vnodes di
  match d.ops, d.priv with
  | some .xv6fs, some node => xv6fsLookup c s d node name
  | some .ext2, some node => ext2Lookup c s d node name
  | some .fat32, some clus => flookup c s di d clus name
  | _, _ => none

/-- What a lookup does to the references: a success holds one more, on the vnode it stored. -/
structure Balanced (s0 : State) (held : List Nat) (s : State) (r : Looked) : Prop where
  holds : Holds s0 ((if r.ok then (r.stored.bind id).toList else []) ++ held) r.st
  stored : r.ok = true → ∃ i, r.stored = some (some i)
  failed : r.ok = false → r.stored = none ∨ r.stored = some none
  live : ∀ j, 0 < refs s j → ident (r.st.vnodes j) = ident (s.vnodes j)

theorem Balanced.of {s' : State} {r : Option Nat} (h : Holds s0 (r.toList ++ held) s')
    (hl : ∀ j, 0 < refs s j → ident (s'.vnodes j) = ident (s.vnodes j)) : Balanced s0 held s (Looked.of (r, s')) := by
  cases r with
  | none => exact ⟨by simpa [Looked.of] using h, by simp [Looked.of], by simp [Looked.of], hl⟩
  | some i => exact ⟨by simpa [Looked.of] using h, by simp [Looked.of], by simp [Looked.of], hl⟩

theorem Balanced.miss (h : Holds s0 held s) : Balanced s0 held s ⟨false, none, s⟩ :=
  ⟨by simpa using h, by simp, by simp, fun _ _ => rfl⟩

theorem Balanced.self (h : Holds s0 held s) {i : Nat} (hi : 0 < refs s i) :
    Balanced s0 held s ⟨true, some (some i), vget i s⟩ :=
  ⟨by simpa using h.get hi, by simp, by simp, fun j _ => vget_ident i j s⟩

theorem vnodeOf_filled {fs : FsType} {d : Vnode} (hd : Filled d) (h : Hit) (inum ikey : Nat)
    (hk : fs ≠ .fat32 → h.node = inum) : Filled (vnodeOf fs d h inum ikey) := by
  refine ⟨hd.1, rfl, rfl, fun hne => ?_⟩
  have : fs ≠ .fat32 := by
    intro he
    exact hne (by rw [he]; rfl)
  simp [vnodeOf, hk this]

theorem vnodeOf_fits {fs : FsType} {d : Vnode} {di : Nat} (hdi : 0 < refs s di) (hd : ident d = ident (s.vnodes di))
    (h : Hit) (inum ikey : Nat) (hk : fs ≠ .fat32 → h.node = inum) : Fits s (vnodeOf fs d h inum ikey) where
  filled hs := vnodeOf_filled ((hs di hdi).congr hd) h inum ikey hk
  mp hs := by
    obtain ⟨m, h1, h2⟩ := hs di hdi
    exact ⟨m, (congrArg Vnode.mp hd).trans h1, h2⟩

theorem Holds.igetOr (h : Holds s0 held s) (v : Vnode) (hf : Fits s v) :
    ∃ r s', Vfs.igetOr v s = some (r, s') ∧ Holds s0 (r.toList ++ held) s' ∧
      ∀ j, 0 < refs s j → ident (s'.vnodes j) = ident (s.vnodes j) := by
  unfold Vfs.igetOr
  cases hg : v.mp.bind fun mp => vfsIget mp v.inum v.ikey s with
  | none =>
    obtain ⟨r, s', h1, h2, -, h4, -⟩ := h.new v hf
    exact ⟨r, s', h1, h2, h4⟩
  | some p =>
    obtain ⟨i, s'⟩ := p
    cases hmp : v.mp with
    | none => simp [hmp] at hg
    | some mp =>
      simp only [hmp, Option.bind_some] at hg
      obtain ⟨hi, -, -, -, rfl⟩ := vfsIget_spec hg
      exact ⟨some i, _, rfl, by simpa using h.get hi, fun j _ => vget_ident i j s⟩

section

variable (c : Content) (h : Holds s0 held s) {di : Nat} (hdi : 0 < refs s di) (name : Name)
include h hdi

/-- In a filled directory every lookup of every backend comes to an end, and is balanced whatever the
directory holds. -/
theorem lookup_ends {fs : FsType} {node : Nat} (hops : (s.vnodes di).ops = some fs)
    (hpriv : (s.vnodes di).priv = some node) : ∃ r, lookup c s di name = some r ∧ Balanced s0 held s r := by
  have hget : ∀ v, Fits s v → ∃ r, (igetOr v s).map Looked.of = some r ∧ Balanced s0 held s r := by
    intro v hf
    obtain ⟨x, s', h1, h2, h3⟩ := h.igetOr v hf
    exact ⟨_, congrArg (Option.map Looked.of) h1, Balanced.of h2 h3⟩
  unfold lookup
  simp only [hops, hpriv]
  cases fs with
  | xv6fs =>
    simp only [xv6fsLookup]
    split
    · exact ⟨_, rfl, Balanced.miss h⟩
    · obtain ⟨x, s', h1, h2, -, h3, -⟩ := h.new _ (vnodeOf_fits hdi rfl _ _ _ fun _ => rfl)
      exact ⟨_, congrArg (Option.map Looked.of) h1, Balanced.of h2 h3⟩
  | ext2 =>
    simp only [ext2Lookup]
    split
    · exact ⟨_, rfl, Balanced.miss h⟩
    · exact hget _ (vnodeOf_fits hdi rfl _ _ _ fun _ => rfl)
  | fat32 =>
    simp only [flookup]
    split
    · exact ⟨_, rfl, Balanced.self h hdi⟩
    split
    · exact ⟨_, rfl, Balanced.self h hdi⟩
    split
    · exact ⟨_, rfl, Balanced.miss h⟩
    · exact hget _ (vnodeOf_fits hdi rfl _ _ _ fun hne => absurd rfl hne)

theorem lookup_balanced {r : Looked} (hr : lookup c s di name = some r) : Balanced s0 held s r := by
  cases hops : (s.vnodes di).ops with
  | none => simp [lookup, hops] at hr
  | some fs =>
    cases hpriv : (s.vnodes di).priv with
    | none => simp [lookup, hpriv] at hr
    | some node =>
      obtain ⟨r', h1, h2⟩ := lookup_ends c h hdi name hops hpriv
      cases h1.symm.trans hr
      exact h2

end

end Xv6Vfs.Vfs
