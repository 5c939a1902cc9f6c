import Xv6Vfs.Vm.Pte

/-! Page tables in physical memory: `walk`, `mappages` and `uvmunmap` on words. Functions are
undefined where the code panics. -/
namespace Xv6Vfs.Vm.Phys
open Xv6Vfs.Radix Function

/-- Physical memory: address of a page, number of a word in it. -/
abbrev Mem := Nat → Nat → Nat

def Mem.store (mem : Mem) (p i w : Nat) : Mem := update mem p (update (mem p) i w)

/-- `memset` of a page, with the word that results. -/
def Mem.fill (mem : Mem) (p w : Nat) : Mem := update mem p fun _ => w

/-- `memmove` of a page. -/
def Mem.copy (mem : Mem) (dst src : Nat) : Mem := update mem dst (mem src)

/-- The page is filled with 5s. -/
def kalloc (mem : Mem) : List Nat → Option (Nat × Mem × List Nat)
  | [] => none
  | p :: free => some (p, mem.fill p 0x0505050505050505, free)

/-- The page is filled with 1s. -/
def kfree (pa : Nat) (mem : Mem) (free : List Nat) : Mem × List Nat :=
  (mem.fill pa 0x0101010101010101, pa :: free)

/-- `PX` -/
def px (level va : Nat) : Nat := va >>> (12 + 9 * level) &&& 0x1FF

section Tables

variable (F : Format)

/-- The loop of `walk`. The result is the page and number of the entry. -/
def walkLevel (va : Nat) (alloc : Bool) : (level pagetable : Nat) → Mem → List Nat →
    Option (Nat × Nat) × Mem × List Nat
  | 0, t, mem, free => (some (t, px 0 va), mem, free)
  | l + 1, t, mem, free =>
    let pte := mem t (px (l + 1) va)
    if pteV pte then walkLevel va alloc l (F.pte2pa pte) mem free
    else if alloc then
      match kalloc mem free with
      | none => (none, mem, free)
      | some (p, mem, free) =>
        walkLevel va alloc l p ((mem.fill p 0).store t (px (l + 1) va) (F.pa2pte p ||| 1)) free
    else (none, mem, free)

def walk (root va : Nat) (alloc : Bool) (mem : Mem) (free : List Nat) :
    Option (Option (Nat × Nat) × Mem × List Nat) :=
  if F.hal.valid va then some (walkLevel F va alloc F.hal.level root mem free) else none

/-- The loop of `mappages` over `n` pages; false if there is no page for a table. -/
def mapLoop (root perm : Nat) : (n a pa : Nat) → Mem → List Nat → Option (Bool × Mem × List Nat)
  | 0, _, _, mem, free => some (true, mem, free)
  | n + 1, a, pa, mem, free =>
    (walk F root a true mem free).bind fun r =>
      match r.1 with
      | none => some (false, r.2)
      | some (t, i) =>
        if pteV (r.2.1 t i) then none
        else mapLoop root perm n ((a + pgsize) % 2 ^ 64) ((pa + pgsize) % 2 ^ 64)
          (r.2.1.store t i (F.leaf pa perm)) r.2.2

def mappages (root va size pa perm : Nat) (mem : Mem) (free : List Nat) : Option (Bool × Mem × List Nat) :=
  if va % pgsize ≠ 0 ∨ size % pgsize ≠ 0 ∨ size = 0 then none
  else mapLoop F root perm (size / pgsize) va pa mem free

/-- The loop of `uvmunmap`. -/
def unmapLoop (root : Nat) (doFree : Bool) : (n a : Nat) → Mem → List Nat → Option (Mem × List Nat)
  | 0, _, mem, free => some (mem, free)
  | n + 1, a, mem, free =>
    (walk F root a false mem free).bind fun r =>
      match r.1 with
      | none => unmapLoop root doFree n ((a + pgsize) % 2 ^ 64) mem free
      | some (t, i) =>
        if pteV (mem t i) then
          let q := if doFree then kfree (F.pte2pa (mem t i)) mem free else (mem, free)
          unmapLoop root doFree n ((a + pgsize) % 2 ^ 64) (q.1.store t i 0) q.2
        else unmapLoop root doFree n ((a + pgsize) % 2 ^ 64) mem free

/-- The end of the range wraps around. -/
def unmapPages (va npages : Nat) : Nat := ((va + npages * pgsize) % 2 ^ 64 - va) / pgsize

def uvmunmap (root va npages : Nat) (doFree : Bool) (mem : Mem) (free : List Nat) : Option (Mem × List Nat) :=
  if va % pgsize ≠ 0 then none else unmapLoop F root doFree (unmapPages va npages) va mem free

def uvmclear (root va : Nat) (mem : Mem) : Option Mem :=
  (walk F root va false mem []).bind fun r => r.1.map fun e => mem.store e.1 e.2 (Nat.ldiff (mem e.1 e.2) F.pteU)

/-- `err` of `uvmcopy`. -/
def copyErr (new i : Nat) (mem : Mem) (free : List Nat) : Option (Bool × Mem × List Nat) :=
  (uvmunmap F new 0 (i / pgsize) true mem free).map fun r => (false, r)

/-- The loop of `uvmcopy` over `n` pages from `i`. The flags are kept in 32 bits. -/
def copyLoop (old new : Nat) : (n i : Nat) → Mem → List Nat → Option (Bool × Mem × List Nat)
  | 0, _, mem, free => some (true, mem, free)
  | n + 1, i, mem, free =>
    (walk F old i false mem free).bind fun r =>
      match r.1 with
      | none => copyLoop old new n ((i + pgsize) % 2 ^ 64) mem free
      | some (t, j) =>
        if pteV (mem t j) then
          match kalloc mem free with
          | none => copyErr F new i mem free
          | some (page, mem1, free1) =>
            (mappages F new i pgsize page (F.flags (mem t j) % 2 ^ 32) (mem1.copy page (F.pte2pa (mem t j)))
              free1).bind fun q =>
              if q.1 then copyLoop old new n ((i + pgsize) % 2 ^ 64) q.2.1 q.2.2
              else copyErr F new i (kfree page q.2.1 q.2.2).1 (kfree page q.2.1 q.2.2).2
        else copyLoop old new n ((i + pgsize) % 2 ^ 64) mem free

/-- True for the result 0. -/
def uvmcopy (old new sz : Nat) (mem : Mem) (free : List Nat) : Option (Bool × Mem × List Nat) :=
  copyLoop F old new ((sz + 4095) / pgsize) 0 mem free

/-- The valid entry that `walk(va, 0)` finds. -/
def lookup (root va : Nat) (mem : Mem) : Option (Option Nat) :=
  (walk F root va false mem []).map fun r =>
    r.1.bind fun e => if pteV (mem e.1 e.2) then some (mem e.1 e.2) else none

/-- The pages of a table. -/
def tablePages (mem : Mem) : (level pagetable : Nat) → List Nat
  | 0, p => [p]
  | l + 1, p => p :: (List.range fanout).flatMap fun i =>
      if pteV (mem p i) then tablePages mem l (F.pte2pa (mem p i)) else []

end Tables

end Xv6Vfs.Vm.Phys
