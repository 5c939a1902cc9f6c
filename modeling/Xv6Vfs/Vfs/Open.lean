import Xv6Vfs.Vfs.Components

/-! `vfs_open`: path resolution, creation of a missing file, and the checks on directories. -/
namespace Xv6Vfs.Vfs
open Option

variable {s : State} {r : Option Nat × State}

def oWronly : Nat := 0
def oRdwr : Nat := 1
def oAppend : Nat := 4
def oCreate : Nat := 9
def oTrunc : Nat := 10

/-- Make the vnode of a new entry; if the entry could not be written, drop it again. -/
def createdVnode (made : Option (Option Nat × State)) (written : Bool) :
    Option (Option Nat × State) :=
  made.bind fun r =>
    match r.1 with
    | none => some (none, r.2)
    | some i => if written then some (some i, r.2) else (vput i r.2).map fun s => (none, s)

def xv6fsCreate (c : Content) (s : State) (d : Vnode) (node : Nat) (name : Name) :
    Option (Option Nat × State) :=
  if (c.search d.dev node name).isSome then some (none, s)
  else match c.create d.dev node name with
    | none => some (none, s)
    | some (h, _) => vnodeNew (vnodeOf .xv6fs d h h.node 0) s

/-- `ext2_create` gets the vnode of an existing entry only to drop it. -/
def ext2Create (c : Content) (s : State) (d : Vnode) (node : Nat) (name : Name) :
    Option (Option Nat × State) :=
  (match c.search d.dev node name with
    | none => some (none, s)
    | some h => igetOr (vnodeOf .ext2 d h h.node 0) s).bind fun r =>
  match r.1 with
  | some i => (vput i r.2).map fun s' => (none, s')
  | none =>
    match c.create d.dev node name with
    | none => some (none, r.2)
    | some (h, _) => igetOr (vnodeOf .ext2 d h h.node 0) r.2

/-- `fcreate` makes the vnode before it writes the entry. -/
def fcreate (c : Content) (s : State) (d : Vnode) (clus : Nat) (name : Name) :
    Option (Option Nat × State) :=
  if (c.search d.dev clus name).isSome then some (none, s)
  else match c.create d.dev clus name with
    | none => some (none, s)
    | some (h, written) =>
      createdVnode (igetOr (vnodeOf .fat32 d { h with major := 0, minor := 0 } clus h.off) s) written

/-- `VOP_CREATE` for a regular file; undefined for a vnode without operations. -/
def create (c : Content) (s : State) (di : Nat) (name : Name) : Option (Option Nat × State) :=
  let d := s.vnodes di
  match d.ops, d.priv with
  | some .xv6fs, some node => xv6fsCreate c s d node name
  | some .ext2, some node => ext2Create c s d node name
  | some .fat32, some clus => fcreate c s d clus name
  | _, _ => none

/-- The checks at the end of `vfs_open`: no directory with `O_CREATE` or for writing. -/
def openCheck (mode ip : Nat) (s : State) : Option (Option Nat × State) :=
  if (s.vnodes ip).type = .dir ∧ (mode.testBit oCreate ∨ mode.testBit oWronly ∨ mode.testBit oRdwr) then
    (vput ip s).map fun s' => (none, s')
  else some (some ip, s)

def vfsOpen (c : Content) (cwd : Option Nat) (path : List UInt8) (mode : Nat) (s : State) :
    Option (Option Nat × State) :=
  (vfsNamei c cwd path s).bind fun r =>
    match r.1 with
    | some ip => openCheck mode ip r.2
    | none =>
      if mode.testBit oCreate then
        (vfsNameiparent c cwd path r.2).bind fun q =>
          match q.1 with
          | none => some (none, q.2)
          | some (dir, name) =>
            (create c q.2 dir name).bind fun w =>
              (vput dir w.2).bind fun s2 =>
                match w.1 with
                | none => some (none, s2)
                | some ip => openCheck mode ip s2
      else some (none, r.2)

section Holds

variable {s0 s : State} {held : List Nat}

section

variable (c : Content) (h : Holds s0 held s) {di : Nat} (hdi : 0 < refs s di) (name : Name)
include h hdi

/-- A new file costs one reference, on its vnode; a failure costs nothing. -/
theorem create_ends {fs : FsType} {node : Nat} (hops : (s.vnodes di).ops = some fs)
    (hpriv : (s.vnodes di).priv = some node) :
    ∃ r, create c s di name = some r ∧ Holds s0 (r.1.toList ++ held) r.2 := by
  have hput : ∀ {i s1}, Holds s0 (i :: held) s1 →
      ∃ r : Option Nat × State, (vput i s1).map (fun s2 => (none, s2)) = some r ∧
        Holds s0 (r.1.toList ++ held) r.2 := by
    intro i s1 hh
    obtain ⟨s2, h1, h2, -⟩ := hh.put
    exact ⟨(none, s2), congrArg (Option.map _) h1, h2⟩
  unfold create
  simp only [hops, hpriv]
  cases fs with
  | xv6fs =>
    simp only [xv6fsCreate]
    split
    · exact ⟨_, rfl, h⟩
    split
    · exact ⟨_, rfl, h⟩
    · obtain ⟨r, s', h1, h2, -⟩ := h.new _ (vnodeOf_fits hdi rfl _ _ _ fun _ => rfl)
      exact ⟨_, h1, h2⟩
  | ext2 =>
    have hmake : ∀ s1, Holds s0 held s1 → ident (s.vnodes di) = ident (s1.vnodes di) →
        ∃ r, (match c.create (s.vnodes di).dev node name with
          | none => some (none, s1)
          | some (e, _) => igetOr (vnodeOf .ext2 (s.vnodes di) e e.node 0) s1) = some r ∧
            Holds s0 (r.1.toList ++ held) r.2 := by
      intro s1 hh hid
      split
      · exact ⟨_, rfl, hh⟩
      · have hlive := hh.live ((h.live_iff di).mp hdi)
        obtain ⟨r, s', h1, h2, -⟩ := hh.igetOr _ (vnodeOf_fits hlive hid _ _ _ fun _ => rfl)
        exact ⟨_, h1, h2⟩
    cases hs : c.search (s.vnodes di).dev node name with
    | none =>
      simp only [ext2Create, hs, bind_some]
      exact hmake s h rfl
    | some e =>
      obtain ⟨i, s1, h1, hh, hid⟩ := h.igetOr (vnodeOf .ext2 (s.vnodes di) e e.node 0)
        (vnodeOf_fits hdi rfl _ _ _ fun _ => rfl)
      simp only [ext2Create, hs, h1, bind_some]
      cases i with
      | some i => exact hput hh
      | none => exact hmake s1 hh (hid di hdi).symm
  | fat32 =>
    simp only [fcreate]
    split
    · exact ⟨_, rfl, h⟩
    split
    · exact ⟨_, rfl, h⟩
    case h_2 e written _ =>
      obtain ⟨i, s1, h1, hh, -⟩ := h.igetOr _
        (vnodeOf_fits hdi rfl { e with major := 0, minor := 0 } node e.off fun hne => absurd rfl hne)
      rw [createdVnode, h1, bind_some]
      cases i with
      | none => exact ⟨_, rfl, hh⟩
      | some i =>
        cases written with
        | true => exact ⟨_, rfl, hh⟩
        | false => exact hput hh

theorem create_holds (hr : create c s di name = some r) : Holds s0 (r.1.toList ++ held) r.2 := by
  cases hops : (s.vnodes di).ops with
  | none => simp [create, hops] at hr
  | some fs =>
    cases hpriv : (s.vnodes di).priv with
    | none => simp [create, hpriv] at hr
    | some node =>
      obtain ⟨r', h1, h2⟩ := create_ends c h hdi name hops hpriv
      cases h1.symm.trans hr
      exact h2

end

theorem openCheck_holds {mode ip : Nat} (h : Holds s0 [ip] s) (hr : openCheck mode ip s = some r) :
    Holds s0 r.1.toList r.2 := by
  unfold openCheck at hr
  split at hr
  · obtain ⟨s2, h2, h3, -⟩ := h.put
    rw [h2] at hr
    cases hr
    exact h3
  · cases hr
    exact h

end Holds

/-- `MountsLive` and `UpFound` along a balanced change. -/
theorem Holds.walkable {c : Content} {s' : State} (h : Holds s [] s') (hl : MountsLive s) (hup : UpFound c s) :
    MountsLive s' ∧ UpFound c s' := by
  constructor
  · intro m mt hm i hi
    rw [h.mounts] at hm
    exact h.live (.inl (hl m mt hm i hi))
  · intro m mt p hm hp
    rw [h.mounts] at hm
    exact (hup m mt p hm hp).congr (h.same p (hl m mt hm p (.inr hp)))

theorem Holds.trans {s1 s2 : State} {held : List Nat} (h : Holds s [] s1) (h' : Holds s1 held s2) :
    Holds s held s2 where
  count i := by
    rw [h'.count i, h.count i, List.count_nil, Nat.add_zero]
  same i hi := (h'.same i (h.live (.inl hi))).trans (h.same i hi)
  mounts := h'.mounts.trans h.mounts
  table := h'.table.trans h.table
  filled h0 := h'.filled (h.filled h0)
  mp h0 := h'.mp (h.mp h0)
  pages h0 := by
    have h1 := h'.pages (h.filled h0)
    have h2 := h.pages h0
    have h3 : fresh s1 held = fresh s held := by
      unfold fresh
      congr 1
      refine List.filter_congr fun i _ => ?_
      rw [h.count i, List.count_nil, Nat.add_zero]
    have h4 : fresh s [] = 0 := rfl
    omega

/-- `vfs_open` returns with one more reference, on the vnode it returns, and with none when it
fails. -/
theorem vfsOpen_holds (c : Content) (cwd : Option Nat) (path : List UInt8) (mode : Nat) (hl : MountsLive s)
    (hup : UpFound c s) (hcwd : ∀ i, cwd = some i → 0 < refs s i) (hr : vfsOpen c cwd path mode s = some r) :
    Holds s r.1.toList r.2 := by
  obtain ⟨⟨ip, s1⟩, h1, hr⟩ := bind_eq_some_iff.mp hr
  have hh := vfsNamei_holds c cwd path hl hup hcwd h1
  cases ip with
  | some ip => exact openCheck_holds hh hr
  | none =>
    dsimp only at hr
    split at hr
    · obtain ⟨⟨q, s2⟩, h2, hr⟩ := bind_eq_some_iff.mp hr
      obtain ⟨hl1, hup1⟩ := hh.walkable hl hup
      have hq := hh.trans (vfsNameiparent_holds c cwd path hl1 hup1 (fun i hi => hh.live (.inl (hcwd i hi))) h2)
      cases q with
      | none =>
        cases hr
        exact hq
      | some q =>
        obtain ⟨dir, name⟩ := q
        obtain ⟨⟨ip, s3⟩, h3, hr⟩ := bind_eq_some_iff.mp hr
        have hc := create_holds c hq (hq.live (.inr List.mem_cons_self)) name h3
        cases ip with
        | none =>
          obtain ⟨s4, h4, h5, -⟩ := Holds.put hc
          rw [h4] at hr
          cases hr
          exact h5
        | some ip =>
          obtain ⟨s4, h4, h5, -⟩ := (hc.perm (List.Perm.swap dir ip [])).put
          rw [h4] at hr
          exact openCheck_holds h5 hr
    · cases hr
      exact hh

end Xv6Vfs.Vfs
