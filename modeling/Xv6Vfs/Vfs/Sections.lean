import Xv6Vfs.Lib.Run
import Xv6Vfs.Vfs.Vnode

/-! The vnode table under concurrency. What `alloc_vnode`, `vget`, `vfs_iget` and `vput` do under
`vnode_lock` is one step each; any number of processes take steps in any order. `vput` calls
`destroy` after it has released the lock, with what it took out of the slot. -/
namespace Xv6Vfs.Vfs
open Function

/-- What `vfs_iget` compares: mount, inode number and secondary key. -/
structure Key where
  mp : Nat
  inum : Nat
  ikey : Nat
deriving DecidableEq

def Vnode.key (v : Vnode) : Option Key := v.mp.map fun mp => ⟨mp, v.inum, v.ikey⟩

/-- The part of `vput` under the lock. The last reference empties the slot; what is left to be
done is `destroy` of the backend, on the private data. -/
def vputSection (i : Nat) (s : State) : Option (State × Option (FsType × Option Nat)) :=
  let v := s.vnodes i
  if v.ref < 1 then none
  else if v.ref = 1 then
    some (s.setVnode i { v with ref := 0, priv := none, ops := none, mp := none, type := .none },
      v.ops.map fun fs => (fs, v.priv))
  else some (s.setVnode i { v with ref := v.ref - 1 }, none)

/-- The rest of `vput`: the page of the private data is free again. -/
def runDestroy (d : Option (FsType × Option Nat)) (s : State) : State :=
  { s with pages := if d.any (·.2.isSome) then s.pages + 1 else s.pages }

/-- What a process is doing between two sections: nothing, or it has missed a key and is on its
way to `alloc_vnode`, or it fills in slot `i`. xv6fs fills in slots without asking for a key. -/
inductive Phase where
  | idle
  | missed (k : Key)
  | building (i : Nat) (k : Option Key)
deriving DecidableEq

/-- A `destroy` that is due or was called: number of the allocation, backend, private data. -/
structure Destroy where
  life : Nat
  ops : FsType
  priv : Option Nat
deriving DecidableEq

/-- The table, the references by process and slot, and what the processes are doing. `leaving` are
the calls of `vput` between their section and `destroy`. The rest is a record that the kernel does
not keep: `life` numbers the allocation a slot is in, `given` is what a backend has filled in
for an allocation, `destroyed` the calls of `destroy`. -/
structure Conc where
  st : State
  held : List (Nat × Nat)
  phase : Nat → Phase
  leaving : List Destroy
  life : Nat → Nat
  allocs : Nat
  given : Nat → Option (FsType × Nat)
  destroyed : List Destroy

/-- Steps of process `p`. `hand` gives a reference to another process, `giveUp` is a failure to
read the inode, `destroy n` runs the `n`-th of the calls that are due. -/
inductive Sect where
  | iget (p : Nat) (k : Key)
  | giveUp (p : Nat)
  | alloc (p : Nat)
  | fill (p : Nat) (v : Vnode)
  | vget (p i : Nat)
  | hand (p q i : Nat)
  | put (p i : Nat)
  | destroy (n : Nat)

def Conc.setPhase (y : Conc) (p : Nat) (x : Phase) : Conc :=
  { y with phase := update y.phase p x }

/-- `vfs_iget`: one more reference, or a miss. -/
def Conc.iget (y : Conc) (p : Nat) (k : Key) : Conc :=
  match vfsIget k.mp k.inum k.ikey y.st with
  | some (i, s) => { y with st := s, held := (p, i) :: y.held }
  | none => y.setPhase p (.missed k)

/-- `alloc_vnode`; without a free slot the process gives up. -/
def Conc.alloc (y : Conc) (p : Nat) (k : Option Key) : Conc :=
  match allocVnode y.st with
  | none => y.setPhase p .idle
  | some (i, s) =>
    { y.setPhase p (.building i k) with
      st := s, held := (p, i) :: y.held
      life := update y.life i y.allocs, allocs := y.allocs + 1 }

/-- The backend fills in slot `i`, whose count it does not touch. -/
def Conc.fill (y : Conc) (p i : Nat) (v : Vnode) (fs : FsType) (q : Nat) : Conc :=
  { y.setPhase p .idle with
    st := y.st.setVnode i { v with ref := (y.st.vnodes i).ref }
    given := update y.given (y.life i) (some (fs, q)) }

def Conc.put (y : Conc) (p i : Nat) : Option Conc :=
  (vputSection i y.st).map fun r =>
    { y.setPhase p .idle with
      st := r.1, held := y.held.erase (p, i)
      leaving := (r.2.map fun d => ⟨y.life i, d.1, d.2⟩).toList ++ y.leaving }

/-- Undefined where the code panics, and for steps that are not at the process's place in the code
or not on a reference it owns. -/
def sect : Sect → Conc → Option Conc
  | .iget p k, y => if y.phase p = .idle then some (y.iget p k) else none
  | .giveUp p, y =>
    match y.phase p with
    | .missed _ => some (y.setPhase p .idle)
    | _ => none
  | .alloc p, y =>
    match y.phase p with
    | .idle => some (y.alloc p none)
    | .missed k => some (y.alloc p (some k))
    | .building _ _ => none
  | .fill p v, y =>
    match y.phase p, v.ops, v.priv with
    | .building i k, some fs, some q => if k = none ∨ v.key = k then some (y.fill p i v fs q) else none
    | _, _, _ => none
  | .vget p i, y =>
    if y.phase p = .idle ∧ (p, i) ∈ y.held then
      some { y with st := vget i y.st, held := (p, i) :: y.held }
    else none
  | .hand p q i, y =>
    if y.phase p = .idle ∧ (p, i) ∈ y.held then
      some { y with held := (q, i) :: y.held.erase (p, i) }
    else none
  | .put p i, y =>
    if (p, i) ∈ y.held then
      match y.phase p with
      | .idle => y.put p i
      | .building j _ => if j = i then y.put p i else none
      | .missed _ => none
    else none
  | .destroy n, y =>
    (y.leaving[n]?).map fun d =>
      { y with
        st := runDestroy (some (d.ops, d.priv)) y.st
        leaving := y.leaving.eraseIdx n, destroyed := d :: y.destroyed }

/-- After `vfs_init`. -/
def concInit (pages : Nat) : Conc where
  st := ⟨fun _ => ⟨.none, 0, 0, 0, none, none, 0, 0, 0, 0, none⟩, fun _ => none, [], pages⟩
  held := []
  phase := fun _ => .idle
  leaving := []
  life := fun _ => 0
  allocs := 0
  given := fun _ => none
  destroyed := []

end Xv6Vfs.Vfs
