import Xv6Vfs.Vm.Translate

/-! The TLB refill handler of LoongArch: its instructions, and the machine they run on. -/
namespace Xv6Vfs.Tlb
open Xv6Vfs.Vm Xv6Vfs.Vm.Phys

inductive Reg where
  | r0
  | t0
  | t1

inductive Csr where
  | tlbrsave
  | tlbrehi
  | tlbrbadv
  | tlbrelo0
  | tlbrelo1
  | ksave2
  | pgd

inductive Label where
  | chkKern
  | refillOk
  | kernBad
  | invalid
deriving DecidableEq

inductive Instr where
  | label (l : Label)
  | csrwr (rd : Reg) (c : Csr)
  | csrrd (rd : Reg) (c : Csr)
  | srli (rd rj : Reg) (n : Nat)
  | slli (rd rj : Reg) (n : Nat)
  | ori (rd rj : Reg) (n : Nat)
  | andi (rd rj : Reg) (n : Nat)
  | addi (rd rj : Reg) (n : Int)
  | li (rd : Reg) (n : Nat)
  | blt (rj rd : Reg) (l : Label)
  | bltu (rj rd : Reg) (l : Label)
  | bgeu (rj rd : Reg) (l : Label)
  | bnez (rj : Reg) (l : Label)
  | beqz (rj : Reg) (l : Label)
  | b (l : Label)
  | lddir (rd rj : Reg) (level : Nat)
  | ldpte (rj : Reg) (odd : Bool)
  | tlbfill
  | ertn

/-- A pair of pages: the entries of the even and of the odd page. -/
structure Entry where
  vppn : Nat
  ps : Nat
  elo0 : Nat
  elo1 : Nat

/-- `path` records the labels passed, `tlb` the entry filled. -/
structure Cpu where
  t0 : Nat
  t1 : Nat
  tlbrsave : Nat
  tlbrehi : Nat
  tlbrbadv : Nat
  tlbrelo0 : Nat
  tlbrelo1 : Nat
  ksave2 : Nat
  pgdl : Nat
  pgdh : Nat
  pwcl : Nat
  pwch : Nat
  mem : Mem
  tlb : Option Entry
  path : List Label

namespace Cpu

def get (s : Cpu) : Reg → Nat
  | .r0 => 0
  | .t0 => s.t0
  | .t1 => s.t1

def set (s : Cpu) (v : Nat) : Reg → Cpu
  | .r0 => s
  | .t0 => { s with t0 := v }
  | .t1 => { s with t1 := v }

/-- `CSR_PGD` is the root for the half that the faulting address is in. -/
def read (s : Cpu) : Csr → Nat
  | .tlbrsave => s.tlbrsave
  | .tlbrehi => s.tlbrehi
  | .tlbrbadv => s.tlbrbadv
  | .tlbrelo0 => s.tlbrelo0
  | .tlbrelo1 => s.tlbrelo1
  | .ksave2 => s.ksave2
  | .pgd => if s.tlbrbadv.testBit 63 then s.pgdh else s.pgdl

def write (s : Cpu) (v : Nat) : Csr → Cpu
  | .tlbrsave => { s with tlbrsave := v }
  | .tlbrehi => { s with tlbrehi := v }
  | .tlbrbadv => { s with tlbrbadv := v }
  | .tlbrelo0 => { s with tlbrelo0 := v }
  | .tlbrelo1 => { s with tlbrelo1 := v }
  | .ksave2 => { s with ksave2 := v }
  | .pgd => s

/-- `width` bits from bit `base` on. -/
def field (x base width : Nat) : Nat := x >>> base &&& (2 ^ width - 1)

/-- Position and width of an index of the address, by level; level 0 is `ldpte`. -/
def walkField (s : Cpu) : Nat → Nat × Nat
  | 0 => (field s.pwcl 0 5, field s.pwcl 5 5)
  | 1 => (field s.pwcl 10 5, field s.pwcl 15 5)
  | 2 => (field s.pwcl 20 5, field s.pwcl 25 5)
  | 3 => (field s.pwch 0 6, field s.pwch 6 6)
  | _ => (field s.pwch 12 6, field s.pwch 18 6)

def walkIndex (s : Cpu) (level : Nat) : Nat :=
  field s.tlbrbadv (s.walkField level).1 (s.walkField level).2

/-- What `lddir` loads from the directory at `base`. -/
def dir (s : Cpu) (level base : Nat) : Nat := s.mem base (s.walkIndex level)

/-- What `ldpte` loads: the even or the odd entry of the pair. -/
def pte (s : Cpu) (odd : Bool) (base : Nat) : Nat := s.mem base (s.walkIndex 0 / 2 * 2 + odd.toNat)

def fill (s : Cpu) : Cpu :=
  { s with tlb := some ⟨s.tlbrehi >>> 13, s.tlbrehi &&& 0x3F, s.tlbrelo0, s.tlbrelo1⟩ }

end Cpu

/-- What `hal_vm_enable` writes: four levels of 9 bits. -/
def pwcl : Nat := 12 <<< 0 ||| 9 <<< 5 ||| 21 <<< 10 ||| 9 <<< 15 ||| 30 <<< 20 ||| 9 <<< 25
def pwch : Nat := 39 <<< 0 ||| 9 <<< 6

/-- A 64-bit word as a signed number. -/
def signed (x : Nat) : Int := if x < 2 ^ 63 then x else x - 2 ^ 64

/-- An immediate that may be negative, added in 64 bits. -/
def addImm (x : Nat) (n : Int) : Nat := ((x + n) % 2 ^ 64).toNat

def invalid : List Instr :=
  [.label .invalid,
   .csrwr .r0 .tlbrelo0,
   .csrwr .r0 .tlbrelo1,
   .tlbfill,
   .csrrd .t0 .tlbrsave,
   .ertn]

def kernBad : List Instr :=
  [.label .kernBad,
   .csrrd .t1 .ksave2] ++ invalid

def refillOk : List Instr :=
  [.label .refillOk,
   .csrrd .t0 .pgd,
   .lddir .t0 .t0 3,
   .andi .t0 .t0 1,
   .beqz .t0 .invalid,
   .csrrd .t0 .pgd,
   .lddir .t0 .t0 3,
   .addi .t0 .t0 (-1),
   .lddir .t0 .t0 2,
   .andi .t0 .t0 1,
   .beqz .t0 .invalid,
   .csrrd .t0 .pgd,
   .lddir .t0 .t0 3,
   .addi .t0 .t0 (-1),
   .lddir .t0 .t0 2,
   .addi .t0 .t0 (-1),
   .lddir .t0 .t0 1,
   .andi .t0 .t0 1,
   .beqz .t0 .invalid,
   .csrrd .t0 .pgd,
   .lddir .t0 .t0 3,
   .addi .t0 .t0 (-1),
   .lddir .t0 .t0 2,
   .addi .t0 .t0 (-1),
   .lddir .t0 .t0 1,
   .addi .t0 .t0 (-1),
   .ldpte .t0 false,
   .ldpte .t0 true,
   .tlbfill,
   .csrrd .t0 .tlbrsave,
   .ertn]

def chkKern : List Instr :=
  [.label .chkKern,
   .csrwr .t1 .ksave2,
   .li .t1 kstackRegionBottom,
   .bltu .t0 .t1 .kernBad,
   .li .t1 kstackTop,
   .bgeu .t0 .t1 .kernBad,
   .csrrd .t1 .ksave2] ++ refillOk

/-- `HAL_VA_BITS` is 38. -/
def tlbRefillEntry : List Instr :=
  [.csrwr .t0 .tlbrsave,
   .csrrd .t0 .tlbrehi,
   .srli .t0 .t0 6,
   .slli .t0 .t0 6,
   .ori .t0 .t0 12,
   .csrwr .t0 .tlbrehi,
   .csrrd .t0 .tlbrbadv,
   .blt .t0 .r0 .chkKern,
   .srli .t0 .t0 38,
   .bnez .t0 .invalid,
   .b .refillOk]

def target : Label → List Instr
  | .chkKern => chkKern
  | .refillOk => refillOk
  | .kernBad => kernBad
  | .invalid => invalid

/-- At most so many instructions; `csrwr` exchanges register and CSR. -/
def exec : Nat → List Instr → Cpu → Option Cpu
  | 0, _, _ => none
  | _ + 1, [], _ => none
  | n + 1, i :: is, s =>
    match i with
    | .label l => exec n is { s with path := l :: s.path }
    | .csrwr rd c => exec n is ((s.write (s.get rd) c).set (s.read c) rd)
    | .csrrd rd c => exec n is (s.set (s.read c) rd)
    | .srli rd rj k => exec n is (s.set (s.get rj >>> k) rd)
    | .slli rd rj k => exec n is (s.set (s.get rj <<< k % 2 ^ 64) rd)
    | .ori rd rj k => exec n is (s.set (s.get rj ||| k) rd)
    | .andi rd rj k => exec n is (s.set (s.get rj &&& k) rd)
    | .addi rd rj k => exec n is (s.set (addImm (s.get rj) k) rd)
    | .li rd k => exec n is (s.set k rd)
    | .blt rj rd l => if signed (s.get rj) < signed (s.get rd) then exec n (target l) s else exec n is s
    | .bltu rj rd l => if s.get rj < s.get rd then exec n (target l) s else exec n is s
    | .bgeu rj rd l => if s.get rd ≤ s.get rj then exec n (target l) s else exec n is s
    | .bnez rj l => if s.get rj ≠ 0 then exec n (target l) s else exec n is s
    | .beqz rj l => if s.get rj = 0 then exec n (target l) s else exec n is s
    | .b l => exec n (target l) s
    | .lddir rd rj k => exec n is (s.set (s.dir k (s.get rj)) rd)
    | .ldpte rj odd =>
      exec n is (s.write (s.pte odd (s.get rj)) (if odd then .tlbrelo1 else .tlbrelo0))
    | .tlbfill => exec n is s.fill
    | .ertn => some s

end Xv6Vfs.Tlb
