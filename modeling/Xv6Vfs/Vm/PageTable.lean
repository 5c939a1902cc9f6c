import Xv6Vfs.Lib.Radix
import Xv6Vfs.Lib.Bytes

/-! User page tables on both hardware layers. Functions are undefined where the code panics;
`free` is the list of free pages, from which `kalloc` takes and to which `kfree` gives back. -/
namespace Xv6Vfs.Vm
open Xv6Vfs.Radix

def pgsize : Nat := 4096
def maxva : Nat := 2 ^ 38

def pgRoundUp (x : Nat) : Nat := (x + 4095) / 4096 * 4096 % 2 ^ 64

def pgRoundDown (x : Nat) : Nat := x / 4096 * 4096

/-- A valid entry of the lowest level. -/
structure Page where
  pa : Nat
  user : Bool
  write : Bool
  exec : Bool
deriving DecidableEq

/-- What the hardware layers differ in: the number of levels above the lowest, the addresses
`walk` accepts, and the pages that every user table maps for the kernel, which fill the space
from `top` to `MAXVA`. -/
structure Hal where
  level : Nat
  valid : Nat → Bool
  fixed : List (Nat × Bool × Bool)
  top : Nat
  level_pos : 2 ≤ level
  valid_low : ∀ va, va < maxva → valid va = true
  valid_maxva : valid maxva = false
  valid_high : ∀ va, valid va = true → va < 2 ^ 64 - pgsize
  top_le : top ≤ maxva
  top_aligned : top % pgsize = 0
  fixed_aligned : ∀ f ∈ fixed, f.1 % pgsize = 0
  fixed_iff : ∀ a, a % pgsize = 0 → ((∃ f ∈ fixed, f.1 = a) ↔ top ≤ a ∧ a < maxva)
  fixed_nodup : (fixed.map Prod.fst).Nodup

def trampoline : Nat := maxva - pgsize
def trapframe : Nat := maxva - 2 * pgsize

/-- Three levels; trampoline and trapframe, with their write and execute permissions. -/
def riscv : Hal where
  level := 2
  valid va := va < maxva
  fixed := [(trampoline, false, true), (trapframe, true, false)]
  top := trapframe
  level_pos := Nat.le_refl 2
  valid_low := fun _ h => decide_eq_true h
  valid_maxva := by decide
  valid_high := fun va h => by
    have := of_decide_eq_true h
    simp only [maxva, pgsize] at *
    omega
  top_le := by decide
  top_aligned := by decide
  fixed_aligned := by decide
  fixed_iff := fun a ha => by
    simp only [List.mem_cons, List.not_mem_nil, or_false, exists_eq_or_imp, exists_eq_left,
      trampoline, trapframe, maxva, pgsize] at *
    omega
  fixed_nodup := by decide

def kstackTop : Nat := 0xFFFFFFFFFFFFF000
def kstackRegionBottom : Nat := kstackTop - 64 * 3 * pgsize

/-- Four levels; the walker also accepts the kernel stacks, and nothing is mapped for the
kernel. -/
def loongarch : Hal where
  level := 3
  valid va := va < maxva ∨ (kstackRegionBottom ≤ va ∧ va < kstackTop)
  fixed := []
  top := maxva
  level_pos := by decide
  valid_low := fun _ h => decide_eq_true (.inl h)
  valid_maxva := by decide
  valid_high := fun va h => by
    have := of_decide_eq_true h
    simp only [maxva, pgsize, kstackTop] at *
    omega
  top_le := Nat.le_refl _
  top_aligned := by decide
  fixed_aligned := by simp
  fixed_iff := fun a _ => by
    simp only [List.not_mem_nil, false_and, exists_const, false_iff]
    omega
  fixed_nodup := List.nodup_nil

abbrev PT (h : Hal) : Type := Tree Page h.level

def vpn (va : Nat) : Nat := va / pgsize

section Tables

variable (h : Hal)

/-- Physical address of a user page; below `MAXVA` the walk does not panic. -/
def walkaddr (pt : PT h) (va : Nat) : Option Nat :=
  if maxva ≤ va then none
  else (get h.level pt (vpn va)).bind fun pg => if pg.user then some pg.pa else none

/-- One page; false if there is no page for a table. -/
def mappages (pt : PT h) (va : Nat) (pg : Page) (free : List Nat) :
    Option (Bool × PT h × List Nat) :=
  if va % pgsize ≠ 0 ∨ h.valid va = false then none
  else
    match insert h.level pt (vpn va) pg free with
    | .remap => none
    | .full t f => some (false, t, f)
    | .done t f => some (true, t, f)

/-- `*pte = 0`. -/
def unmap (pt : PT h) (va : Nat) : PT h := alter (fun _ => none) h.level pt (vpn va)

/-- The loop of `uvmunmap` over `npages` pages from `a`. -/
def uvmunmap (doFree : Bool) : (npages a : Nat) → PT h → List Nat → Option (PT h × List Nat)
  | 0, _, pt, free => some (pt, free)
  | k + 1, a, pt, free =>
    if h.valid a = false then none
    else
      match get h.level pt (vpn a) with
      | none => uvmunmap doFree k (a + pgsize) pt free
      | some pg =>
        uvmunmap doFree k (a + pgsize) (unmap h pt a) (if doFree then pg.pa :: free else free)

def uvmdealloc (pt : PT h) (oldsz newsz : Nat) (free : List Nat) : Option (PT h × List Nat) :=
  if oldsz ≤ newsz then some (pt, free)
  else if pgRoundUp newsz < pgRoundUp oldsz then
    uvmunmap h true ((pgRoundUp oldsz - pgRoundUp newsz) / pgsize) (pgRoundUp newsz) pt free
  else some (pt, free)

/-- The loop of `uvmalloc` with `k` pages to go; false, with the address it got to, if memory ran
out. -/
def growLoop (write exec : Bool) : (k a : Nat) → PT h → List Nat →
    Option (Bool × Nat × PT h × List Nat)
  | 0, a, pt, free => some (true, a, pt, free)
  | k + 1, a, pt, free =>
    match free with
    | [] => some (false, a, pt, [])
    | mem :: free =>
      (mappages h pt a ⟨mem, true, write, exec⟩ free).bind fun r =>
        if r.1 then growLoop write exec k (a + pgsize) r.2.1 r.2.2
        else some (false, a, r.2.1, mem :: r.2.2)

/-- The new size, 0 when memory ran out. -/
def uvmalloc (pt : PT h) (oldsz newsz : Nat) (write exec : Bool) (free : List Nat) :
    Option (Nat × PT h × List Nat) :=
  if newsz < oldsz then some (oldsz, pt, free)
  else
    let a0 := pgRoundUp oldsz
    (growLoop h write exec ((newsz - a0 + 4095) / pgsize) a0 pt free).bind fun r =>
      if r.1 then some (newsz, r.2.2)
      else (uvmdealloc h r.2.2.1 r.2.1 a0 r.2.2.2).map fun q => (0, q)

def uvmfree (pt : PT h) (sz : Nat) (free : List Nat) : Option (List Nat) :=
  (if 0 < sz then uvmunmap h true (pgRoundUp sz / pgsize) 0 pt free else some (pt, free)).bind
    fun r => freewalk h.level r.1 r.2

/-- Take the user permission from a page; undefined if its table does not exist. -/
def uvmclear (pt : PT h) (va : Nat) : Option (PT h) :=
  if h.valid va = false ∨ reached h.level pt (vpn va) = false then none
  else some (alter (fun pg => some { pg with user := false }) h.level pt (vpn va))

/-- `hal_vm_map_trampoline`: `pas` are the physical pages; what is mapped when a later page
fails is unmapped again. -/
def mapFixed (pas : Nat → Nat) : List (Nat × Bool × Bool) → (done : List Nat) → PT h → List Nat →
    Option (Bool × PT h × List Nat)
  | [], _, pt, free => some (true, pt, free)
  | (va, write, exec) :: rest, done, pt, free =>
    (mappages h pt va ⟨pas va, false, write, exec⟩ free).bind fun r =>
      if r.1 then mapFixed pas rest (va :: done) r.2.1 r.2.2
      else some (false, done.foldl (fun t a => unmap h t a) r.2.1, r.2.2)

/-- `proc_pagetable`. -/
def procPagetable (pas : Nat → Nat) (free : List Nat) : Option (Option (PT h) × List Nat) :=
  match free with
  | [] => some (none, [])
  | root :: free =>
    (mapFixed h pas h.fixed [] (empty h.level root) free).bind fun r =>
      if r.1 then some (some r.2.1, r.2.2)
      else (uvmfree h r.2.1 0 r.2.2).map fun f => (none, f)

/-- `hal_vm_unmap_trampoline`. -/
def unmapFixed : List (Nat × Bool × Bool) → PT h → List Nat → Option (PT h × List Nat)
  | [], pt, free => some (pt, free)
  | (va, _) :: rest, pt, free => (uvmunmap h false 1 va pt free).bind fun r => unmapFixed rest r.1 r.2

/-- `proc_freepagetable`. -/
def procFreepagetable (pt : PT h) (sz : Nat) (free : List Nat) : Option (List Nat) :=
  (unmapFixed h h.fixed pt free).bind fun r => uvmfree h r.1 sz r.2

end Tables

end Xv6Vfs.Vm
