import Xv6Vfs.Vfs.Resolve

/-! `vfs_namei` follows the resolution of `Resolve`, also while `vfs_mount` has a file system in hand
that is not in the table: a walk that does not fail arrives where `trek` says, and as long as two slots
and two pages are free it fails only where `trek` does. -/
namespace Xv6Vfs.Vfs
open List

variable {h : Hit} {p : Nat} {d w : Vnode} {name : Name}

theorem spot_congr {v : Vnode} (h : ident v = ident w) : spot v = spot w := by
  have h1 : spot (ident v) = spot (ident w) := congrArg spot h
  exact h1

/-- State `s` has the mounts of `s0`, and at least its references and `held`. -/
structure Above (s0 : State) (held : List Nat) (s : State) : Prop where
  count : ∀ i, refs s0 i + held.count i ≤ refs s i
  same : ∀ i, 0 < refs s0 i → ident (s.vnodes i) = ident (s0.vnodes i)
  filled : AllFilled s
  mounts : ∀ m ∈ s0.mounttable, s.mounts m = s0.mounts m
  table : s.mounttable = s0.mounttable

variable {c : Content} {s0 s1 s s' : State} {held hs : List Nat} {i m vp : Nat} {v : Vnode}

theorem Genuine.congr (h : Genuine c s m v) (hi : ident w = ident v) : Genuine c s m w := by
  have h1 : Genuine c s m (ident w) := by
    rw [hi]
    exact ⟨h.mount, h.filled, h.inode, h.fatRoot, h.fat⟩
  exact ⟨h1.mount, h1.filled, h1.inode, h1.fatRoot, h1.fat⟩

theorem Config.types (hcfg : Config c s0) {mt : Mount} (hm : s0.mounts m = some mt) (hne : mt.ops ≠ some .fat32) :
    ∃ root, InodeTree c mt.dev root := by
  obtain ⟨mt', fs, r, h1, h2, h3, -⟩ := hcfg.mounted m (hcfg.only m (by simp [hm]))
  obtain rfl : mt = mt' := Option.some.inj (hm.symm.trans h1)
  cases fs with
  | xv6fs => exact ⟨1, h3⟩
  | ext2 => exact ⟨2, h3⟩
  | fat32 => exact absurd h2 hne

theorem inode_genuine {fs : FsType} (hcfg : Config c s0) (hd : Genuine c s0 m d) (hops : d.ops = some fs)
    (hfs : fs ≠ .fat32) {n : Nat} (hs : c.search d.dev n name = some h) : Genuine c s0 m (vnodeOf fs d h h.node 0) := by
  obtain ⟨mt, h1, hdev, hops'⟩ := hd.mount
  have hne : mt.ops ≠ some .fat32 := by
    rw [← hops', hops]
    exact fun he => hfs (Option.some.inj he)
  obtain ⟨root, h3⟩ := hcfg.types h1 hne
  refine ⟨⟨mt, h1, hdev, hops.symm.trans hops'⟩, vnodeOf_filled hd.filled h _ _ fun _ => rfl, ?_, ?_, ?_⟩
  · intro _ n' name' h' hs' hn
    simp only [vnodeOf, hdev] at hs' hn hs
    exact h3.types n' name' h' n name h hs' hs hn
  · intro hf
    exact absurd (Option.some.inj hf) hfs
  · intro hf
    exact absurd (Option.some.inj hf) hfs

theorem fat_genuine (hcfg : Config c s0) (hm : m ∈ s0.mounttable) (hd : Genuine c s0 m d) (hops : d.ops = some .fat32)
    {clus : Nat} (hs : c.search d.dev clus name = some h) :
    Genuine c s0 m (vnodeOf .fat32 d { h with major := 0, minor := 0 } clus h.off) := by
  obtain ⟨mt, fs, r, h1, h2, h3, -⟩ := hcfg.mounted m hm
  obtain ⟨mt', h1', hdev, hops'⟩ := hd.mount
  obtain rfl : mt = mt' := Option.some.inj (h1.symm.trans h1')
  obtain rfl : fs = .fat32 := Option.some.inj (h2.symm.trans (hops'.symm.trans hops))
  have hne : clus ≠ 0 := by
    intro he
    rw [he, hdev, h3.zero name] at hs
    simp at hs
  refine ⟨⟨mt, h1, hdev, hops.symm.trans hops'⟩, vnodeOf_filled hd.filled _ _ _ fun hn => absurd rfl hn, ?_, ?_, ?_⟩
  · intro hf
    simp [vnodeOf] at hf
  · intro _ h0
    exact absurd h0 hne
  · intro _ name' h' hs' ho
    simp only [vnodeOf] at hs' ho
    obtain ⟨h4, h5⟩ := h3.slots clus name' h' name h (hdev ▸ hs') (hdev ▸ hs) ho
    exact ⟨h4, by rw [h5]; rfl⟩

theorem spot_eq (hv : Genuine c s0 m v) (hw : Genuine c s0 m w) (hmp : v.mp = w.mp) (htype : v.type = w.type)
    (hinum : v.inum = w.inum) (hpriv : v.priv = w.priv) : spot v = spot w := by
  obtain ⟨mt, h1, hdev, hops⟩ := hv.mount
  obtain ⟨mt', h1', hdev', hops'⟩ := hw.mount
  obtain rfl : mt = mt' := Option.some.inj (h1.symm.trans h1')
  simp only [spot, hmp, htype, hinum, hpriv, hdev, hdev', hops, hops']

theorem Genuine.agree (hv : Genuine c s0 m v) (hw : Genuine c s0 m w) : v.dev = w.dev ∧ v.ops = w.ops := by
  obtain ⟨mt, h1, h2, h3⟩ := hv.mount
  obtain ⟨mt', h1', h2', h3'⟩ := hw.mount
  obtain rfl : mt = mt' := Option.some.inj (h1.symm.trans h1')
  exact ⟨h2.trans h2'.symm, h3.trans h3'.symm⟩

theorem Config.mountsLive (hcfg : Config c s0) : MountsLive s0 := by
  intro m mt hm i hi
  rcases hi with hi | hi
  · obtain ⟨mt', fs, r, h1, -, -, h4, h5, -⟩ := hcfg.mounted m (hcfg.only m (by simp [hm]))
    obtain rfl : mt = mt' := Option.some.inj (hm.symm.trans h1)
    obtain rfl : r = i := Option.some.inj (h4.symm.trans hi)
    exact h5
  · exact (hcfg.points m i (by simp [mpointOf, hm, hi])).1

theorem Above.refl (hf : AllFilled s) : Above s [] s :=
  ⟨fun _ => by simp, fun _ _ => rfl, hf, fun _ _ => rfl, rfl⟩

theorem Above.live (h : Above s0 held s) (hi : 0 < refs s0 i ∨ i ∈ held) : 0 < refs s i := by
  have h1 := h.count i
  rcases hi with hi | hi
  · omega
  · have := count_pos_iff.mpr hi
    omega

theorem Above.holds (h : Above s0 held s) (hh : Holds s hs s') : Above s0 (hs ++ held) s' where
  count := by
    intro i
    have h1 := h.count i
    have h2 := hh.count i
    simp only [count_append]
    omega
  same := fun i hi => (hh.same i (h.live (.inl hi))).trans (h.same i hi)
  filled := hh.filled h.filled
  mounts := fun m hm => by rw [hh.mounts]; exact h.mounts m hm
  table := hh.table.trans h.table

/-! ### What is known of the vnodes of a mount -/

/-- A property of the vnodes of mount `m` that passes from a directory to its entries. -/
structure Closed (c : Content) (s0 : State) (P : Nat → Vnode → Prop) : Prop where
  congr : ∀ {m v w}, P m v → ident w = ident v → P m w
  genuine : ∀ {m v}, P m v → Genuine c s0 m v
  inode : ∀ {m v fs name x}, P m v → v.ops = some fs → fs ≠ .fat32 → v.type = .dir →
    c.search v.dev v.inum name = some x → P m (vnodeOf fs v x x.node 0)
  fat : ∀ {m v clus name x}, m ∈ s0.mounttable → P m v → v.ops = some .fat32 →
    c.search v.dev clus name = some x → P m (vnodeOf .fat32 v { x with major := 0, minor := 0 } clus x.off)

/-- Every live vnode of a mounted file system has the property. -/
def AllOf (P : Nat → Vnode → Prop) (s0 s : State) : Prop :=
  ∀ i, 0 < refs s i → ∀ m ∈ s0.mounttable, (s.vnodes i).mp = some m → P m (s.vnodes i)

theorem genuine_closed (hcfg : Config c s0) : Closed c s0 (Genuine c s0) where
  congr := Genuine.congr
  genuine := id
  inode hd hops hfs _ hs := inode_genuine hcfg hd hops hfs hs
  fat hm hd hops hs := fat_genuine hcfg hm hd hops hs

/-- Outcome of a lookup in state `s` that should find `r`: nothing stored only if nothing is there, what
is found is what should be, and with a slot and a page it is found. -/
structure FoundOr (P : Nat → Vnode → Prop) (s0 s : State) (r : Option Vnode) (l : Looked) : Prop where
  real : AllOf P s0 l.st
  missing : l.stored = none → r = none
  arrives : ∀ n, l.ok = true → l.stored = some (some n) → r = some (spot (l.st.vnodes n))
  room : (∃ i < nvnode, refs s i = 0) → s.pages ≠ 0 → l.ok = false → r = none

/-- The walk is at the spot `v`, holding one reference more than `s1`. -/
structure Follows (P : Nat → Vnode → Prop) (s0 s1 : State) (vp : Nat) (v : Vnode) (s : State) : Prop where
  holds : Holds s1 [vp] s
  here : spot (s.vnodes vp) = v
  real : AllOf P s0 s
  mount : ∃ m ∈ s0.mounttable, v.mp = some m

/-- What one step of the walk does: fail, or arrive. -/
def Lands (P : Nat → Vnode → Prop) (s0 s1 : State) (r : Option Vnode) : Walk → Prop
  | .fail s => Holds s1 [] s ∧ AllOf P s0 s ∧ (Room s1 → r = none)
  | .at vp _ s => ∃ v, r = some v ∧ Follows P s0 s1 vp v s

variable {P : Nat → Vnode → Prop}

theorem AllOf.congr (h : AllOf P s0 s) (hP : ∀ {m v w}, P m v → ident w = ident v → P m w)
    (hs : ∀ i, 0 < refs s' i → 0 < refs s i ∧ ident (s'.vnodes i) = ident (s.vnodes i)) : AllOf P s0 s' := by
  intro i hi m hm hmp
  obtain ⟨h1, h2⟩ := hs i hi
  exact hP (h i h1 m hm ((ident_mp h2).symm.trans hmp)) h2

theorem Follows.mp_eq (h : Follows P s0 s1 vp v s) (hmp : v.mp = some m) : (s.vnodes vp).mp = some m := by
  rwa [← h.here] at hmp

theorem Follows.seek_eq (h : Follows P s0 s1 vp v s) (name : Name) : seek c (s.vnodes vp) name = seek c v name := by
  rw [← h.here]
  rfl

section Tracking

variable (hP : Closed c s0 P)
include hP

theorem AllOf.get (h : AllOf P s0 s) (hi : 0 < refs s i) : AllOf P s0 (vget i s) := by
  refine h.congr hP.congr fun j hj => ⟨?_, vget_ident i j s⟩
  rw [vget_refs] at hj
  by_cases he : i = j
  · exact he ▸ hi
  · simpa [he] using hj

section

variable (hg : AllOf P s0 s)
include hg

theorem AllOf.put (h : Holds s1 (i :: held) s) : ∃ s', vput i s = some s' ∧ Holds s1 held s' ∧ AllOf P s0 s' ∧
      ∀ j, 0 < refs s' j → ident (s'.vnodes j) = ident (s.vnodes j) := by
  obtain ⟨s', h1, h2, h3⟩ := h.put
  refine ⟨s', h1, h2, hg.congr hP.congr fun j hj => ⟨?_, h3 j hj⟩, h3⟩
  rw [h.live_iff]
  exact ((h2.live_iff j).mp hj).imp_right (mem_cons_of_mem i)

theorem FoundOr.self (hi : 0 < refs s i) :
    FoundOr P s0 s (some (spot (s.vnodes i))) ⟨true, some (some i), vget i s⟩ := by
  refine ⟨hg.get hP hi, by simp, fun n _ hn => ?_, by simp⟩
  obtain rfl : i = n := by simpa using hn
  rw [spot_congr (vget_ident i i s)]

theorem new_found {di : Nat} (hdi : 0 < refs s di) (hdm : (s.vnodes di).mp = some m) (hmp : v.mp = some m)
    (hv : P m v) :
    ∃ l, (vnodeNew v s).map Looked.of = some l ∧ FoundOr P s0 s (some (spot v)) l := by
  have hfits : Fits s v := ⟨fun _ => (hP.genuine hv).filled, fun hs => hmp.symm ▸ hdm ▸ hs di hdi⟩
  obtain ⟨r, t, h1, h2, h3, h4, h5⟩ := (Holds.refl s).new v hfits
  have hall : AllOf P s0 t := by
    intro j hj m' hm' hjm
    by_cases hlive : 0 < refs s j
    · exact hP.congr (hg j hlive m' hm' ((ident_mp (h4 j hlive)).symm.trans hjm)) (h4 j hlive)
    · have hr : r = some j := by
        have h6 := (h2.live_iff j).mp hj
        simpa [Option.mem_toList] using h6.resolve_left hlive
      obtain rfl : m = m' := Option.some.inj (hmp.symm.trans ((ident_mp (h3 j hr)).symm.trans hjm))
      exact hP.congr hv (h3 j hr)
  refine ⟨Looked.of (r, t), by rw [h1]; rfl, hall, by simp [Looked.of], fun n _ hn => ?_,
    fun ⟨i, hi, h0⟩ hpage hok => ?_⟩
  · have hr : r = some n := by simpa [Looked.of] using hn
    exact congrArg some (spot_congr (h3 n hr)).symm
  · rcases h5 (by simpa [Looked.of] using hok) with h5 | h5
    · have := h5 i hi
      omega
    · exact absurd h5 hpage

theorem igetOr_found {di : Nat} (hdi : 0 < refs s di) (hdm : (s.vnodes di).mp = some m) (hm : m ∈ s0.mounttable)
    (hmp : v.mp = some m) (hv : P m v)
    (huniq : ∀ w, Genuine c s0 m w → w.mp = some m → w.inum = v.inum → w.ikey = v.ikey → spot w = spot v) :
    ∃ l, (igetOr v s).map Looked.of = some l ∧ FoundOr P s0 s (some (spot v)) l := by
  unfold igetOr
  simp only [hmp, Option.bind_some]
  cases hget : vfsIget m v.inum v.ikey s with
  | none => exact new_found hP hg hdi hdm hmp hv
  | some p =>
    obtain ⟨i, t⟩ := p
    obtain ⟨h1, h2, h3, h4, rfl⟩ := vfsIget_spec hget
    refine ⟨_, rfl, ?_⟩
    rw [← huniq _ (hP.genuine (hg i h1 m hm h2)) h2 h3 h4]
    exact FoundOr.self hP hg h1

/-- Every lookup in a directory finds what `seek` finds, or fails for want of a slot or a page. -/
theorem lookup_found {di : Nat} (hdi : 0 < refs s di) (hdir : (s.vnodes di).type = .dir)
    (hm : m ∈ s0.mounttable) (hmp : (s.vnodes di).mp = some m) (name : Name) :
    ∃ l, lookup c s di name = some l ∧ FoundOr P s0 s (seek c (s.vnodes di) name) l := by
  have hdm := hmp
  have hd := hg di hdi m hm hmp
  have hself : ∃ l, (some ⟨true, some (some di), vget di s⟩ : Option Looked) = some l ∧
      FoundOr P s0 s (some (spot (s.vnodes di))) l := ⟨_, rfl, FoundOr.self hP hg hdi⟩
  have hmiss : ∃ l, (some ⟨false, none, s⟩ : Option Looked) = some l ∧ FoundOr P s0 s none l :=
    ⟨_, rfl, hg, fun _ => rfl, by simp, fun _ _ _ => rfl⟩
  generalize hv : s.vnodes di = d at hmp hd hself hdir
  have hgd := hP.genuine hd
  obtain ⟨-, hpriv, hopsome, hkey⟩ := hgd.filled
  obtain ⟨node, hnode⟩ := Option.isSome_iff_exists.mp hpriv
  obtain ⟨fs, hops⟩ := Option.isSome_iff_exists.mp hopsome
  have hinode : ∀ x, fs ≠ .fat32 → c.search d.dev node name = some x →
      P m (vnodeOf fs d x x.node 0) := by
    intro x hfs hx
    have hne : d.ops ≠ some .fat32 := by simpa [hops] using hfs
    obtain rfl : d.inum = node := Option.some.inj ((hkey hne).symm.trans hnode)
    exact hP.inode hd hops hfs hdir hx
  cases fs with
  | xv6fs =>
    simp only [lookup, seek, hv, hops, hnode, xv6fsLookup]
    cases hs : c.search d.dev node name with
    | none => exact hmiss
    | some x => exact new_found hP hg hdi hdm hmp (hinode x (by simp) hs)
  | ext2 =>
    simp only [lookup, seek, hv, hops, hnode, ext2Lookup]
    cases hs : c.search d.dev node name with
    | none => exact hmiss
    | some x =>
      have hx := hinode x (by simp) hs
      refine igetOr_found hP hg hdi hdm hm hmp hx fun w hw hwm hi _ => ?_
      obtain ⟨hwd, hwo⟩ := hw.agree hgd
      rw [hops] at hwo
      refine spot_eq hw (hP.genuine hx) (hwm.trans hmp.symm) ?_ hi ?_
      · exact (hw.inode (by simp [hwo]) node name x (hwd.symm ▸ hs) hi.symm).symm
      · have := hw.filled.2.2.2 (by simp [hwo])
        rw [this, hi]
        rfl
  | fat32 =>
    simp only [lookup, seek, hv, hops, hnode, flookup]
    by_cases h1 : name = dot
    · simp only [h1, if_true, true_or]
      exact hself
    by_cases h2 : name = dotdot ∧ node = c.rootClus d.dev
    · rwa [if_neg h1, if_pos h2, if_pos (.inr h2)]
    rw [if_neg h1, if_neg h2, if_neg (by simp only [h1, h2, or_self, not_false_eq_true])]
    cases hs : c.search d.dev node name with
    | none => exact hmiss
    | some x =>
      have hx := hP.fat hm hd hops hs
      refine igetOr_found hP hg hdi hdm hm (v := vnodeOf .fat32 d { x with major := 0, minor := 0 } node x.off)
        hmp hx fun w hw hwm hi hk => ?_
      obtain ⟨hwd, hwo⟩ := hw.agree hgd
      have hin : w.inum = node := hi
      obtain ⟨h4, h5⟩ := hw.fat (hwo.trans hops) name x (by rw [hwd, hin]; exact hs) hk.symm
      exact spot_eq hw (hP.genuine hx) (hwm.trans hmp.symm) h4.symm hi h5

end

end Tracking

theorem find?_congr_mem {α : Type*} {p q : α → Bool} {l : List α} (h : ∀ x ∈ l, p x = q x) : l.find? p = l.find? q := by
  induction l with
  | nil => rfl
  | cons a l ih =>
    rw [find?_cons, find?_cons, h a mem_cons_self, ih fun x hx => h x (mem_cons_of_mem a hx)]

theorem Above.lookupMount_eq (hl : MountsLive s0) (h : Above s0 held s) (v : Vnode) :
    vfsLookupMount s v = vfsLookupMount s0 v := by
  unfold vfsLookupMount
  rw [h.table]
  refine find?_congr_mem fun m hm => ?_
  unfold covers
  rw [h.mounts m (mem_tail hm)]
  cases hp : (s0.mounts m).bind Mount.mountpoint with
  | none => rfl
  | some p =>
    obtain ⟨mt, h1, h2⟩ := Option.bind_eq_some_iff.mp hp
    have h3 := h.same p (hl m mt h1 p (.inr h2))
    simp only [ident_dev h3, ident_inum h3]

theorem Above.crossUp_eq (hl : MountsLive s0) (h : Above s0 held s) (hm : m ∈ s0.mounttable)
    (hv : v.mp = some m) : crossUp s v = crossUp s0 v := by
  unfold crossUp
  simp only [hv, h.mounts m hm]
  cases hmt : s0.mounts m with
  | none => rfl
  | some mt =>
    dsimp only
    cases hp : mt.mountpoint with
    | none => rfl
    | some p =>
      cases hr : mt.root with
      | none => rfl
      | some r =>
        have h3 := h.same r (hl m mt hmt r (.inl hr))
        simp only [ident_dev h3, ident_inum h3]

theorem Room.left (hroom : Room s0) (hf : AllFilled s0) (h : Holds s0 [vp] s) :
    (∃ i < nvnode, refs s i = 0) ∧ s.pages ≠ 0 := by
  obtain ⟨⟨i, j, hi, hj, hne, h1, h2⟩, h3⟩ := hroom
  constructor
  · have hfree : ∀ k, refs s0 k = 0 → k ≠ vp → refs s k = 0 := by
      intro k hk hkv
      rw [h.count k, hk, count_singleton, if_neg (by simpa using Ne.symm hkv)]
    by_cases he : i = vp
    · exact ⟨j, hj, hfree j h2 fun h4 => hne (he.trans h4.symm)⟩
    · exact ⟨i, hi, hfree i h1 he⟩
  · have h4 := h.pages hf
    rw [fresh_cons] at h4
    have h5 : fresh s0 [] = 0 := rfl
    split at h4 <;> omega

theorem seek_mp (h : seek c v name = some w) : w.mp = v.mp := by
  unfold seek at h
  split at h
  · obtain ⟨x, -, rfl⟩ := Option.map_eq_some_iff.mp h
    rfl
  · obtain ⟨x, -, rfl⟩ := Option.map_eq_some_iff.mp h
    rfl
  · split at h
    · cases h
      rfl
    · obtain ⟨x, -, rfl⟩ := Option.map_eq_some_iff.mp h
      rfl
  · simp at h

theorem HasUp.seek (h : HasUp c v) (hf : Filled v) : ∃ w, Vfs.seek c v dotdot = some w := by
  obtain ⟨-, h2, h3, -⟩ := hf
  obtain ⟨node, hnode⟩ := Option.isSome_iff_exists.mp h2
  obtain ⟨fs, hops⟩ := Option.isSome_iff_exists.mp h3
  have h4 := h node hnode
  rw [hops] at h4
  unfold Vfs.seek
  cases fs with
  | xv6fs =>
    obtain ⟨x, hx⟩ := Option.isSome_iff_exists.mp (h4.resolve_left (by simp))
    simp [hops, hnode, hx]
  | ext2 =>
    obtain ⟨x, hx⟩ := Option.isSome_iff_exists.mp (h4.resolve_left (by simp))
    simp [hops, hnode, hx]
  | fat32 =>
    simp only [hops, hnode]
    split
    · exact ⟨_, rfl⟩
    case isFalse hne =>
      rcases h4 with h4 | h4
      · exact absurd (.inr ⟨trivial, h4.2⟩) hne
      · obtain ⟨x, hx⟩ := Option.isSome_iff_exists.mp h4
        simp [hx]

/-- `seek`, `cross` and `crossUp` read only the spot. -/
theorem seek_spot (v : Vnode) (name : Name) : seek c (spot v) name = seek c v name := rfl

theorem crossUp_some (h : crossUp s0 v = some (some p)) : ∃ m, v.mp = some m ∧ mpointOf s0 m = some p := by
  unfold crossUp at h
  split at h
  · simp at h
  case h_2 m hmp =>
    split at h
    · simp at h
    case h_2 mt hm =>
      split at h
      · simp at h
      · simp at h
      case h_3 q r hq hr =>
        split at h
        · cases Option.some.inj h
          exact ⟨m, hmp, by simp [mpointOf, hm, hq]⟩
        · simp at h

/-- Within a configuration `crossUp` follows no dead pointer. -/
theorem Config.crossUp_ne_none (hcfg : Config c s0) (hm : m ∈ s0.mounttable) (hmp : v.mp = some m) :
    crossUp s0 v ≠ none := by
  obtain ⟨mt, fs, r, h1, h2, h3, h4, h5, h6⟩ := hcfg.mounted m hm
  simp only [crossUp, hmp, h1, h4]
  cases mt.mountpoint with
  | none => simp
  | some p =>
    dsimp only
    split <;> simp

/-- Where a path leads. -/
def leads (c : Content) (s : State) (cwd : Option Nat) (path : List UInt8) : Option Vnode :=
  (pathStart path cwd s).bind fun r => trek c s (spot (s.vnodes r)) (components path)

section Walks

variable (hcfg : Config c s0) (hP : Closed c s0 P) (hab : Above s0 [] s1)
include hcfg hP hab

theorem cross_follow (h : Follows P s0 s1 vp v s) :
    ∃ x w, crossMount vp s = some x ∧ cross s0 v = some w ∧ Follows P s0 s1 x.1 w x.2 := by
  have heq : vfsLookupMount s (s.vnodes vp) = vfsLookupMount s0 v := by
    rw [(hab.holds h.holds).lookupMount_eq hcfg.mountsLive, ← h.here]
    rfl
  unfold crossMount cross
  rw [heq]
  cases hm : vfsLookupMount s0 v with
  | none => exact ⟨_, _, rfl, rfl, h⟩
  | some m =>
    have hmem := mem_tail (mem_of_find?_eq_some hm)
    obtain ⟨mt, fs, r, h1, h2, h3, h4, h5, h6⟩ := hcfg.mounted m hmem
    obtain ⟨t, p1, p2, p3, p4⟩ := h.real.put hP h.holds
    have hr : (s.mounts m).bind Mount.root = some r := by
      simp [(hab.holds h.holds).mounts m hmem, h1, h4]
    have hr0 : (s0.mounts m).bind Mount.root = some r := by
      simp [h1, h4]
    have hlive := p2.live (.inl (hab.live (.inl h5)))
    refine ⟨(r, vget r t), spot (s0.vnodes r), by simp [p1, hr], by simp [hr0], p2.get hlive, ?_,
      p3.get hP hlive, m, hmem, ?_⟩
    · exact spot_congr ((vget_ident r r t).trans ((hab.holds p2).same r h5))
    · rw [h6]
      rfl

theorem stepDown_follow (h : Follows P s0 s1 vp v s) (hdir : v.type = .dir) (name : Name) :
    ∃ w, stepDown c name vp s = some w ∧ Lands P s0 s1 ((seek c v name).bind (cross s0)) w := by
  obtain ⟨m, hm, hmp⟩ := h.mount
  have hlive := h.holds.live (.inr mem_cons_self)
  have hdir' : (s.vnodes vp).type = .dir := by
    rwa [← h.here] at hdir
  obtain ⟨l, hl, hfound⟩ := lookup_found hP h.real hlive hdir' hm (h.mp_eq hmp) name
  rw [h.seek_eq] at hfound
  have hops := (hP.genuine (h.real vp hlive m hm (h.mp_eq hmp))).filled.2.2.1
  have hb := lookup_balanced c h.holds hlive name hl
  have hh := hb.holds
  unfold stepDown
  rw [if_neg (by
    intro hn
    simp [hn] at hops), hl, Option.bind_some]
  cases hok : l.ok with
  | false =>
    simp only [hok, Bool.false_eq_true, if_false, nil_append] at hh
    obtain ⟨t, p1, p2, p3, -⟩ := hfound.real.put hP hh
    refine ⟨.fail t, by simp [p1], p2, p3, fun hroom => ?_⟩
    obtain ⟨hslot, hpage⟩ := hroom.left hab.filled h.holds
    rw [hfound.room hslot hpage hok, Option.bind_none]
  | true =>
    obtain ⟨n, hn⟩ := hb.stored hok
    simp only [hok, if_true, hn, Option.bind_some, id_eq, Option.toList_some, cons_append, nil_append] at hh
    obtain ⟨t, p1, p2, p3, p4⟩ := hfound.real.put hP (hh.perm (List.Perm.swap vp n []))
    have hu := hfound.arrives n hok hn
    have hn1 : spot (t.vnodes n) = spot (l.st.vnodes n) :=
      spot_congr (p4 n (p2.live (.inr mem_cons_self)))
    obtain ⟨x, w, hx, hw, hsim⟩ := cross_follow hcfg hP hab ⟨p2, hn1, p3, m, hm, (seek_mp hu).trans hmp⟩
    refine ⟨.at x.1 (some (some n)) x.2, by simp [p1, hn, hx], w, ?_, hsim⟩
    rw [hu, Option.bind_some, hw]

theorem stepUp_follow (h : Follows P s0 s1 vp v s) (next : Option (Option Nat)) (hp : mpointOf s0 m = some p) :
    ∃ w, stepUp c p vp next s = some w ∧ Lands P s0 s1 (seek c (s0.vnodes p) dotdot) w := by
  obtain ⟨hplive, hpdir, ⟨m', hm', hmp', -⟩, hup, -⟩ := hcfg.points m p hp
  have hpl1 := hab.live (.inl hplive)
  have hget := h.holds.get (h.holds.live (.inl hpl1))
  obtain ⟨s2, p1, p2, p3, -⟩ := (h.real.get hP (h.holds.live (.inl hpl1))).put hP
    (hget.perm (List.Perm.swap vp p []))
  have hpl2 : 0 < refs s2 p := p2.live (.inl hpl1)
  have hid := (hab.holds p2).same p hplive
  have hmp2 := (ident_mp hid).trans hmp'
  obtain ⟨l, hl, hfound⟩ := lookup_found hP p3 hpl2 ((ident_type hid).trans hpdir) hm' hmp2 dotdot
  have hops := (hP.genuine (p3 p hpl2 m' hm' hmp2)).filled.2.2.1
  have hb := lookup_balanced c p2 hpl2 dotdot hl
  have hh := hb.holds
  have hseek : seek c (s2.vnodes p) dotdot = seek c (s0.vnodes p) dotdot := by
    rw [← seek_spot, spot_congr hid, seek_spot]
  obtain ⟨u, hu⟩ := hup.seek (hcfg.filled p hplive)
  rw [hseek, hu] at hfound
  unfold stepUp
  simp only [p1, Option.bind_some, hops, if_true, hl]
  cases hok : l.ok with
  | false =>
    -- "..", which is there, was not found: no slot or page was left, and 0 was stored.
    have hst : l.stored = some none := (hb.failed hok).resolve_left fun hn => by
      have := hfound.missing hn
      cases this
    simp only [hok, Bool.false_eq_true, if_false, nil_append] at hh
    obtain ⟨t, q1, q2, q3, -⟩ := hfound.real.put hP hh
    refine ⟨.fail t, by simp [q1, hst], q2, q3, fun hroom => ?_⟩
    obtain ⟨hslot, hpage⟩ := hroom.left hab.filled p2
    rw [hu, hfound.room hslot hpage hok]
  | true =>
    obtain ⟨n, hn⟩ := hb.stored hok
    simp only [hok, if_true, hn, Option.bind_some, id_eq, Option.toList_some, cons_append, nil_append] at hh
    obtain ⟨t, q1, q2, q3, q4⟩ := hfound.real.put hP (hh.perm (List.Perm.swap p n []))
    have hnu := hfound.arrives n hok hn
    refine ⟨.at n (some (some n)) t, by simp [q1, hn], u, hu, q2, ?_, q3, m', hm', (seek_mp hu).trans hmp'⟩
    rw [spot_congr (q4 n (q2.live (.inr mem_cons_self)))]
    exact (Option.some.inj hnu).symm

theorem nameiStep_follow (h : Follows P s0 s1 vp v s) (next : Option (Option Nat)) (name : Name) :
    ∃ w, nameiStep c name vp next s = some w ∧ Lands P s0 s1 (hop c s0 v name) w := by
  obtain ⟨m, hm, hmp⟩ := h.mount
  have htype : (s.vnodes vp).type = v.type := by
    rw [← h.here]
    rfl
  have hup : crossUp s (s.vnodes vp) = crossUp s0 v := by
    rw [(hab.holds h.holds).crossUp_eq hcfg.mountsLive hm (h.mp_eq hmp), ← h.here]
    rfl
  unfold nameiStep hop descend
  rw [htype, hup]
  by_cases hdir : v.type ≠ .dir
  · simp only [if_pos hdir, ite_self]
    obtain ⟨t, h1, h2, h3, -⟩ := h.real.put hP h.holds
    exact ⟨.fail t, by rw [h1]; rfl, h2, h3, fun _ => rfl⟩
  simp only [if_neg hdir]
  by_cases hdd : name = dotdot
  · simp only [if_pos hdd]
    cases hc : crossUp s0 v with
    | none => exact absurd hc (hcfg.crossUp_ne_none hm hmp)
    | some o =>
      cases o with
      | none => exact stepDown_follow hcfg hP hab h (not_not.mp hdir) name
      | some p =>
        obtain ⟨m', -, hp⟩ := crossUp_some hc
        exact stepUp_follow hcfg hP hab h next hp
  · simp only [if_neg hdd]
    exact stepDown_follow hcfg hP hab h (not_not.mp hdir) name

/-- A walk over a list of components fails, or ends where `trek` ends. -/
theorem walk_follow (names : List Name) (h : Follows P s0 s1 vp v s) (next : Option (Option Nat)) :
    ∃ r s', walk c names vp next s = some (r, s') ∧ AllOf P s0 s' ∧
      (r = none → Room s1 → trek c s0 v names = none) ∧
      ∀ vp', r = some vp' → ∃ v', trek c s0 v names = some v' ∧ Follows P s0 s1 vp' v' s' := by
  induction names generalizing vp v s next with
  | nil =>
    refine ⟨some vp, s, rfl, h.real, by simp, fun vp' hvp => ?_⟩
    cases hvp
    exact ⟨v, rfl, h⟩
  | cons name names ih =>
    obtain ⟨w, hw, hl⟩ := nameiStep_follow hcfg hP hab h next name
    simp only [walk, hw, Option.bind_some, trek]
    cases w with
    | fail s' =>
      refine ⟨none, s', rfl, hl.2.1, fun _ hroom => ?_, by simp⟩
      rw [hl.2.2 hroom, Option.bind_none]
    | «at» vp' next' s' =>
      obtain ⟨v', hv', hf⟩ := hl
      rw [hv', Option.bind_some]
      exact ih hf next'

/-- `vfs_namei` fails, or ends where the path leads. -/
theorem vfsNamei_follow (hg : AllOf P s0 s1) {cwd : Option Nat}
    (hcwd : ∀ i, cwd = some i → 0 < refs s0 i ∧ ∃ m ∈ s0.mounttable, (s0.vnodes i).mp = some m) (path : List UInt8) :
    ∃ r s', vfsNamei c cwd path s1 = some (r, s') ∧ AllOf P s0 s' ∧
      (r = none → Room s1 → leads c s0 cwd path = none) ∧
      ∀ vp, r = some vp → ∃ v, leads c s0 cwd path = some v ∧ Follows P s0 s1 vp v s' := by
  obtain ⟨m1, ms, mt1, ht1, hm1, -⟩ := hcfg.first
  have hstart : pathStart path cwd s1 = pathStart path cwd s0 := by
    simp [pathStart, hab.table, ht1, hab.mounts m1 (by simp [ht1])]
  unfold leads
  cases hp : pathStart path cwd s0 with
  | none =>
    refine ⟨none, s1, ?_, hg, fun _ _ => rfl, by simp⟩
    simp [vfsNamei, hstart, hp]
  | some r0 =>
    have hr0 : 0 < refs s0 r0 ∧ ∃ m ∈ s0.mounttable, (s0.vnodes r0).mp = some m := by
      unfold pathStart at hp
      split at hp
      · obtain ⟨mt, hmt, hroot⟩ := Option.bind_eq_some_iff.mp hp
        obtain ⟨m, hm, hmt⟩ := Option.bind_eq_some_iff.mp hmt
        have hmem : m ∈ s0.mounttable := mem_of_mem_head? hm
        obtain ⟨mt', fs, r, h1, -, -, h4, h5, h6⟩ := hcfg.mounted m hmem
        obtain rfl : mt = mt' := Option.some.inj (hmt.symm.trans h1)
        obtain rfl : r0 = r := Option.some.inj (hroot.symm.trans h4)
        have h7 : (spot (s0.vnodes r0)).mp = some m := by
          rw [h6]
          rfl
        exact ⟨h5, m, hmem, h7⟩
      · exact hcwd r0 hp
    have hlive := hab.live (.inl hr0.1)
    have hf : Follows P s0 s1 r0 (spot (s0.vnodes r0)) (vget r0 s1) :=
      ⟨(Holds.refl s1).get hlive, spot_congr ((vget_ident r0 r0 s1).trans (hab.same r0 hr0.1)), hg.get hP hlive, hr0.2⟩
    rw [vfsNamei_eq_walk c cwd path s1 (hstart.trans hp)]
    exact walk_follow hcfg hP hab (components path) hf none

end Walks

/-- The root of the first mount. -/
def rootSpot (s : State) : Option Vnode :=
  (pathStart [slash] none s).map fun r => spot (s.vnodes r)

/-- `vfs_namei` of an absolute path ends where the components lead from the root. -/
theorem vfsNamei_sim (hcfg : Config c s) (hroom : Room s) (cwd : Option Nat) {path : List UInt8}
    (habs : path.head? = some slash) {v0 : Vnode} (hv0 : rootSpot s = some v0) :
    ∃ r s', vfsNamei c cwd path s = some (r, s') ∧
      ((r = none ∧ trek c s v0 (components path) = none) ∨
        ∃ vp v, r = some vp ∧ trek c s v0 (components path) = some v ∧
          spot (s'.vnodes vp) = v) := by
  obtain ⟨r0, hr0, rfl⟩ := Option.map_eq_some_iff.mp hv0
  have hcwd : vfsNamei c cwd path s = vfsNamei c none path s := by simp [vfsNamei, pathStart, habs]
  have hlead : leads c s none path = trek c s (spot (s.vnodes r0)) (components path) := by
    have hstart : pathStart path none s = some r0 := by simpa [pathStart, habs] using hr0
    rw [leads, hstart, Option.bind_some]
  have hnone : ∀ i, (none : Option Nat) = some i →
      0 < refs s i ∧ ∃ m ∈ s.mounttable, (s.vnodes i).mp = some m := by simp
  obtain ⟨r, s', h1, -, h3, h4⟩ :=
    vfsNamei_follow hcfg (genuine_closed hcfg) (Above.refl hcfg.filled) hcfg.genuine hnone path
  rw [hlead] at h3 h4
  refine ⟨r, s', hcwd.trans h1, ?_⟩
  cases r with
  | none => exact .inl ⟨rfl, h3 rfl hroom⟩
  | some vp =>
    obtain ⟨v, h5, h6⟩ := h4 vp rfl
    exact .inr ⟨vp, v, rfl, h5, h6.here⟩

end Xv6Vfs.Vfs
