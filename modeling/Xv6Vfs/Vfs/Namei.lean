import Xv6Vfs.Vfs.Lookup

/-! Path resolution: `skipelem`, `cross_mount`, `vfs_namei` and `vfs_nameiparent`, with the
references each step takes and drops. -/
namespace Xv6Vfs.Vfs
open List Option

variable {s s0 : State} {vp : Nat} {w : Walk}

def slash : UInt8 := 47

/-- Next path element, cut to 255 bytes, and the rest of the path without leading slashes. -/
def skipelem (path : List UInt8) : Option (Name × List UInt8) :=
  let p := path.dropWhile (· = slash)
  if p = [] then none
  else some ((p.takeWhile (· ≠ slash)).take 255, (p.dropWhile (· ≠ slash)).dropWhile (· = slash))

/-- `mounttable[i]->mountpoint` has the device and inode number of `v`. -/
def covers (s : State) (v : Vnode) (m : Nat) : Bool :=
  match (s.mounts m).bind Mount.mountpoint with
  | some p => (s.vnodes p).dev = v.dev ∧ (s.vnodes p).inum = v.inum
  | none => false

/-- The file system mounted on `v`; entry 0 of the table is skipped. -/
def vfsLookupMount (s : State) (v : Vnode) : Option Nat :=
  s.mounttable.tail.find? (covers s v)

def crossMount (vp : Nat) (s : State) : Option (Nat × State) :=
  match vfsLookupMount s (s.vnodes vp) with
  | none => some (vp, s)
  | some m =>
    (vput vp s).bind fun s1 => ((s.mounts m).bind Mount.root).map fun r => (r, vget r s1)

/-- The mountpoint to continue from when ".." is met at the root of a mounted file system.
Undefined where the code would follow a null or freed pointer. -/
def crossUp (s : State) (v : Vnode) : Option (Option Nat) :=
  match v.mp with
  | none => some none
  | some m =>
    match s.mounts m with
    | none => none
    | some mt =>
      match mt.mountpoint, mt.root with
      | none, _ => some none
      | some _, none => none
      | some p, some r =>
        if v.dev = (s.vnodes r).dev ∧ v.inum = (s.vnodes r).inum then some (some p) else some none

/-- One step of the walk: it ends with 0, or goes on from `vp`. `next` is the local variable
of the loop, absent while it has never been assigned. -/
inductive Walk where
  | fail (s : State)
  | at (vp : Nat) (next : Option (Option Nat)) (s : State)

/-- ".." from the root of a mounted file system: look up ".." in the mountpoint. The return
value of that lookup is ignored, only `next` is tested. -/
def stepUp (c : Content) (p vp : Nat) (next : Option (Option Nat)) (s : State) : Option Walk :=
  (vput vp (vget p s)).bind fun s2 =>
    (if (s2.vnodes p).ops.isSome then lookup c s2 p dotdot
      else some ⟨false, some none, s2⟩).bind fun r =>
    (vput p r.st).bind fun s3 =>
      match (if r.stored.isSome then r.stored else next) with
      | none => none
      | some none => some (.fail s3)
      | some (some n) => some (.at n (some (some n)) s3)

/-- An ordinary component: look it up, then cross into what is mounted there. -/
def stepDown (c : Content) (name : Name) (vp : Nat) (s : State) : Option Walk :=
  if (s.vnodes vp).ops = none then (vput vp s).map .fail
  else (lookup c s vp name).bind fun r =>
    (vput vp r.st).bind fun s1 =>
      if r.ok then
        (r.stored.bind id).bind fun n =>
          (crossMount n s1).map fun w => .at w.1 (some (some n)) w.2
      else some (.fail s1)

def nameiStep (c : Content) (name : Name) (vp : Nat) (next : Option (Option Nat)) (s : State) :
    Option Walk :=
  if (s.vnodes vp).type ≠ .dir then (vput vp s).map .fail
  else
    (if name = dotdot then crossUp s (s.vnodes vp) else some none).bind fun up =>
      match up with
      | some p => stepUp c p vp next s
      | none => stepDown c name vp s

/-- The loop of `vfs_namei`; `fuel` bounds the number of components. -/
def nameiLoop (c : Content) : Nat → List UInt8 → Nat → Option (Option Nat) → State →
    Option (Option Nat × State)
  | 0, _, vp, _, s => some (some vp, s)
  | fuel + 1, path, vp, next, s =>
    match skipelem path with
    | none => some (some vp, s)
    | some (name, rest) =>
      (nameiStep c name vp next s).bind fun w =>
        match w with
        | .fail s' => some (none, s')
        | .at vp' next' s' => nameiLoop c fuel rest vp' next' s'

/-- The vnode a path starts from: the root of the first mount, or the current directory. -/
def pathStart (path : List UInt8) (cwd : Option Nat) (s : State) : Option Nat :=
  if path.head? = some slash then (s.mounttable.head?.bind s.mounts).bind Mount.root else cwd

def vfsNamei (c : Content) (cwd : Option Nat) (path : List UInt8) (s : State) :
    Option (Option Nat × State) :=
  match pathStart path cwd s with
  | none => some (none, s)
  | some v => nameiLoop c path.length path v none (vget v s)

/-- The loop of `vfs_nameiparent`: it stops in front of the last component and returns it. -/
def nameiparentLoop (c : Content) : Nat → List UInt8 → Nat → Option (Option Nat) → State →
    Option (Option (Nat × Name) × State)
  | 0, _, vp, _, s => (vput vp s).map fun s' => (none, s')
  | fuel + 1, path, vp, next, s =>
    match skipelem path with
    | none => (vput vp s).map fun s' => (none, s')
    | some (name, rest) =>
      if rest = [] then
        if (s.vnodes vp).type ≠ .dir then (vput vp s).map fun s' => (none, s')
        else some (some (vp, name), s)
      else
        (nameiStep c name vp next s).bind fun w =>
          match w with
          | .fail s' => some (none, s')
          | .at vp' next' s' => nameiparentLoop c fuel rest vp' next' s'

def vfsNameiparent (c : Content) (cwd : Option Nat) (path : List UInt8) (s : State) :
    Option (Option (Nat × Name) × State) :=
  match pathStart path cwd s with
  | none => some (none, s)
  | some v => nameiparentLoop c path.length path v none (vget v s)

/-- The root and the mountpoint of every mount are referenced. -/
def MountsLive (s : State) : Prop :=
  ∀ m mt, s.mounts m = some mt → ∀ i, mt.root = some i ∨ mt.mountpoint = some i → 0 < refs s i

/-- ".." can be found in directory `v`: FAT32 answers it for its root without a search. -/
def HasUp (c : Content) (v : Vnode) : Prop :=
  ∀ node, v.priv = some node →
    (v.ops = some .fat32 ∧ node = c.rootClus v.dev) ∨ (c.search v.dev node dotdot).isSome

theorem HasUp.congr {c : Content} {v w : Vnode} (h : HasUp c v) (hi : ident w = ident v) : HasUp c w := by
  have h1 : (ident w).priv = (ident v).priv := congrArg Vnode.priv hi
  have h2 : (ident w).ops = (ident v).ops := congrArg Vnode.ops hi
  have h3 : (ident w).dev = (ident v).dev := congrArg Vnode.dev hi
  simp only [ident] at h1 h2 h3
  intro node hn
  rw [h2, h3]
  exact h node (h1 ▸ hn)

/-- ".." can be found in every mountpoint, so that the walk never goes on with a `next` that
the ignored lookup did not set. -/
def UpFound (c : Content) (s : State) : Prop :=
  ∀ m mt p, s.mounts m = some mt → mt.mountpoint = some p → HasUp c (s.vnodes p)

theorem lookup_up_stored (c : Content) (s : State) (p : Nat) (h : HasUp c (s.vnodes p))
    {r : Looked} (hr : lookup c s p dotdot = some r) : r.stored ≠ none := by
  have hof : ∀ o : Option (Option Nat × State), o.map Looked.of = some r → r.stored ≠ none := by
    intro o ho
    cases o with
    | none => simp at ho
    | some x =>
      cases ho
      simp [Looked.of]
  unfold lookup at hr
  dsimp only at hr
  split at hr
  case h_1 ho hp =>
    rcases h _ hp with ⟨h1, -⟩ | h1
    · simp [ho] at h1
    · obtain ⟨x, hx⟩ := isSome_iff_exists.mp h1
      simp only [xv6fsLookup, hx] at hr
      exact hof _ hr
  case h_2 ho hp =>
    rcases h _ hp with ⟨h1, -⟩ | h1
    · simp [ho] at h1
    · obtain ⟨x, hx⟩ := isSome_iff_exists.mp h1
      simp only [ext2Lookup, hx] at hr
      exact hof _ hr
  case h_3 clus ho hp =>
    unfold flookup at hr
    rw [if_neg (by decide)] at hr
    split at hr
    · cases hr
      simp
    case isFalse hroot =>
      rcases h _ hp with ⟨-, h1⟩ | h1
      · exact absurd ⟨rfl, h1⟩ hroot
      · obtain ⟨x, hx⟩ := isSome_iff_exists.mp h1
        simp only [hx] at hr
        exact hof _ hr
  case h_4 => simp at hr

/-- References after one step of the walk. -/
def Walk.Holds (s0 : State) : Walk → Prop
  | .fail s => Vfs.Holds s0 [] s
  | .at vp _ s => Vfs.Holds s0 [vp] s

theorem crossMount_holds (hl : MountsLive s0) (h : Holds s0 [vp] s) {w : Nat × State} (hw : crossMount vp s = some w) :
    Holds s0 [w.1] w.2 := by
  unfold crossMount at hw
  split at hw
  · cases hw
    exact h
  · obtain ⟨s1, h1, h2, -⟩ := h.put
    rw [h1] at hw
    obtain ⟨r, hr, rfl⟩ := map_eq_some_iff.mp hw
    obtain ⟨mt, hm, hroot⟩ := bind_eq_some_iff.mp hr
    rw [h.mounts] at hm
    exact h2.get (h2.live (.inl (hl _ mt hm r (.inl hroot))))

theorem fail_holds (h : Holds s0 [vp] s) (hw : (vput vp s).map Walk.fail = some w) : w.Holds s0 := by
  obtain ⟨s1, h1, h2, -⟩ := h.put
  rw [h1] at hw
  cases hw
  exact h2

theorem stepDown_holds (c : Content) (name : Name) (hl : MountsLive s0) (h : Holds s0 [vp] s)
    (hw : stepDown c name vp s = some w) : w.Holds s0 := by
  unfold stepDown at hw
  split at hw
  · exact fail_holds h hw
  obtain ⟨r, hr, hw⟩ := bind_eq_some_iff.mp hw
  have hb := lookup_balanced c h (h.live (.inr mem_cons_self)) name hr
  cases hok : r.ok with
  | false =>
    have h1 := hb.holds
    simp only [hok, Bool.false_eq_true, if_false, nil_append] at h1 hw
    obtain ⟨s1, h2, h3, -⟩ := h1.put
    rw [h2] at hw
    cases hw
    exact h3
  | true =>
    obtain ⟨n, hn⟩ := hb.stored hok
    have h1 := hb.holds
    simp only [hok, if_true, hn, bind_some, id_eq, toList_some, cons_append, nil_append] at h1 hw
    obtain ⟨s1, h2, h3, -⟩ := (h1.perm (List.Perm.swap vp n [])).put
    rw [h2] at hw
    obtain ⟨x, hx, rfl⟩ := map_eq_some_iff.mp hw
    exact crossMount_holds hl h3 hx

theorem stepUp_holds (c : Content) {p : Nat} (next : Option (Option Nat)) (hp : 0 < refs s0 p)
    (hup : HasUp c (s0.vnodes p)) (h : Holds s0 [vp] s) (hw : stepUp c p vp next s = some w) : w.Holds s0 := by
  unfold stepUp at hw
  obtain ⟨s2, h2, h3, -⟩ := ((h.get (h.live (.inl hp))).perm (List.Perm.swap vp p [])).put
  rw [h2, bind_some] at hw
  have hid : HasUp c (s2.vnodes p) := hup.congr (h3.same p hp)
  obtain ⟨r, hr, hw⟩ := bind_eq_some_iff.mp hw
  have hb : Balanced s0 [p] s2 r ∧ r.stored ≠ none := by
    split at hr
    · exact ⟨lookup_balanced c h3 (h3.live (.inl hp)) dotdot hr, lookup_up_stored c s2 p hid hr⟩
    · cases hr
      exact ⟨⟨by simpa using h3, by simp, by simp, fun _ _ => rfl⟩, by simp⟩
  obtain ⟨hb, hst⟩ := hb
  cases hok : r.ok with
  | false =>
    have h4 : r.stored = some none := (hb.failed hok).resolve_left hst
    have h1 := hb.holds
    simp only [hok, Bool.false_eq_true, if_false, nil_append] at h1
    obtain ⟨s3, h5, h6, -⟩ := h1.put
    simp only [h5, h4, bind_some, isSome_some, if_true] at hw
    cases hw
    exact h6
  | true =>
    obtain ⟨n, hn⟩ := hb.stored hok
    have h1 := hb.holds
    simp only [hok, if_true, hn, bind_some, id_eq, toList_some, cons_append, nil_append] at h1
    obtain ⟨s3, h5, h6, -⟩ := (h1.perm (List.Perm.swap p n [])).put
    simp only [h5, hn, bind_some, isSome_some, if_true] at hw
    cases hw
    exact h6

theorem nameiStep_holds (c : Content) (name : Name) (next : Option (Option Nat)) (hl : MountsLive s0)
    (hup : UpFound c s0) (h : Holds s0 [vp] s) (hw : nameiStep c name vp next s = some w) : w.Holds s0 := by
  unfold nameiStep at hw
  split at hw
  · exact fail_holds h hw
  obtain ⟨up, hu, hw⟩ := bind_eq_some_iff.mp hw
  cases up with
  | none => exact stepDown_holds c name hl h hw
  | some p =>
    split at hu
    · unfold crossUp at hu
      split at hu
      · simp at hu
      split at hu
      · simp at hu
      case _ mt hm =>
        split at hu
        · simp at hu
        · simp at hu
        case _ q r hq hroot =>
          split at hu
          · obtain rfl := some.inj (some.inj hu)
            rw [h.mounts] at hm
            exact stepUp_holds c next (hl _ mt hm q (.inr hq)) (hup _ mt q hm hq) h hw
          · simp at hu
    · simp at hu

theorem pathStart_live {path : List UInt8} {cwd : Option Nat} {v : Nat} (hl : MountsLive s)
    (hcwd : ∀ i, cwd = some i → 0 < refs s i) (hv : pathStart path cwd s = some v) : 0 < refs s v := by
  unfold pathStart at hv
  split at hv
  · obtain ⟨mt, hm, hr⟩ := bind_eq_some_iff.mp hv
    obtain ⟨m, -, hm⟩ := bind_eq_some_iff.mp hm
    exact hl m mt hm v (.inl hr)
  · exact hcwd v hv

end Xv6Vfs.Vfs
