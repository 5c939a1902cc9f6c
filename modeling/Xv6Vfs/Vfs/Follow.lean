import Xv6Vfs.Vfs.Updown

/-! What a walk keeps of the vnodes it goes through: every directory has its "..", or its entry in the
directory it is known by. -/
namespace Xv6Vfs.Vfs

variable {x : Hit} {w : Vnode} {name : Name}

variable {c : Content} {s0 s s' : State} {i m : Nat} {v : Vnode}

/-- Directories of xv6fs and ext2 that are found have their "..", those of FAT32 an entry in the
directory they are known by. -/
def Linked (c : Content) (v : Vnode) : Prop :=
  v.type = .dir → if v.ops = some .fat32 then FatEntry c v else HasUp c v

/-- Every directory of an inode file system has "." for itself, and a parent that has "..". -/
structure Dots (c : Content) (dev : Nat) : Prop where
  self : ∀ n x, c.search dev n dot = some x → x.node = n
  up : ∀ n x, c.search dev n dotdot = some x → (c.search dev x.node dotdot).isSome

/-- A vnode of mount `m` that the device accounts for. -/
structure Real (c : Content) (s : State) (m : Nat) (v : Vnode) : Prop where
  genuine : Genuine c s m v
  linked : Linked c v

def AllReal (c : Content) (s0 s : State) : Prop :=
  ∀ i, 0 < refs s i → ∀ m ∈ s0.mounttable, (s.vnodes i).mp = some m → Real c s0 m (s.vnodes i)

theorem Linked.congr (h : Linked c v) (hi : ident w = ident v) : Linked c w := by
  have h1 : Linked c (ident w) := by
    rwa [hi]
  exact h1

theorem Real.congr (h : Real c s0 m v) (hi : ident w = ident v) : Real c s0 m w :=
  ⟨h.genuine.congr hi, h.linked.congr hi⟩

theorem AllReal.congr (h : AllReal c s0 s)
    (hs : ∀ i, 0 < refs s' i → 0 < refs s i ∧ ident (s'.vnodes i) = ident (s.vnodes i)) : AllReal c s0 s' :=
  AllOf.congr h Real.congr hs

/-- An entry of a real directory of an inode file system is real. -/
theorem inode_real (hcfg : Config c s0) (hd : Real c s0 m v) {fs : FsType} (hops : v.ops = some fs)
    (hfs : fs ≠ .fat32) (hdots : Dots c v.dev) (hvd : v.type = .dir) (hx : c.search v.dev v.inum name = some x) :
    Real c s0 m (vnodeOf fs v x x.node 0) := by
  refine ⟨inode_genuine hcfg hd.genuine hops hfs hx, fun hxd => ?_⟩
  have hne : ¬ (vnodeOf fs v x x.node 0).ops = some .fat32 := by simpa [vnodeOf] using hfs
  rw [if_neg hne]
  have hup : (c.search v.dev x.node dotdot).isSome := by
    by_cases h1 : name = dot
    · have hvn : v.ops ≠ some .fat32 := by simpa [hops] using hfs
      have h2 := hd.linked hvd
      rw [if_neg hvn] at h2
      rw [hdots.self v.inum x (h1 ▸ hx)]
      exact (h2 v.inum (hd.genuine.filled.2.2.2 hvn)).resolve_left fun h3 => hvn h3.1
    · by_cases h2 : name = dotdot
      · exact hdots.up v.inum x (h2 ▸ hx)
      · obtain ⟨mt, h3, h4, h5⟩ := hd.genuine.mount
        have hmo : mt.ops ≠ some .fat32 := by
          rw [← h5, hops]
          simpa using hfs
        obtain ⟨root, htree⟩ := hcfg.types h3 hmo
        rw [h4] at hx ⊢
        obtain ⟨y, hy, -⟩ := htree.parent v.inum name x ⟨h1, h2⟩ hx hxd
        simp [hy]
  intro node hnode
  obtain rfl : x.node = node := Option.some.inj hnode
  exact .inr hup

theorem fat_real (hcfg : Config c s0) (hm : m ∈ s0.mounttable) (hd : Real c s0 m v) (hops : v.ops = some .fat32)
    {clus : Nat} (hx : c.search v.dev clus name = some x) :
    Real c s0 m (vnodeOf .fat32 v { x with major := 0, minor := 0 } clus x.off) := by
  refine ⟨fat_genuine hcfg hm hd.genuine hops hx, fun hxd => ?_⟩
  have hf : (vnodeOf .fat32 v { x with major := 0, minor := 0 } clus x.off).ops = some .fat32 := rfl
  rw [if_pos hf]
  exact .inr ⟨name, x, hx, rfl, hxd⟩

theorem real_closed (hcfg : Config c s0)
    (hdots : ∀ m mt, s0.mounts m = some mt → mt.ops ≠ some .fat32 → Dots c mt.dev) :
    Closed c s0 (Real c s0) where
  congr := Real.congr
  genuine := Real.genuine
  inode hd hops hfs hdir hx := by
    obtain ⟨mt, h1, h2, h3⟩ := hd.genuine.mount
    have hne : mt.ops ≠ some .fat32 := by
      rw [← h3, hops]
      simpa using hfs
    exact inode_real hcfg hd hops hfs (h2 ▸ hdots _ mt h1 hne) hdir hx
  fat hm hd hops hx := fat_real hcfg hm hd hops hx

end Xv6Vfs.Vfs
