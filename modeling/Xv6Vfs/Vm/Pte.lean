import Mathlib.Data.Nat.Bitwise
import Xv6Vfs.Vm.PageTable

/-! Page-table entries as 64-bit words, in the formats of the two hardware layers. -/
namespace Xv6Vfs.Vm
open Xv6Vfs.Radix Nat

variable {f i p : Nat}

/-- `PTE_V`, bit 0 on both. -/
def pteV (w : Nat) : Bool := w.testBit 0

/-- A page that an entry can point to. -/
def PhysPage (pa : Nat) : Prop := pa % pgsize = 0 ∧ pa < 2 ^ 56

instance (pa : Nat) : Decidable (PhysPage pa) := inferInstanceAs (Decidable (_ ∧ _))

/-- The macros of `arch.h` that `vm.c` uses. `Perm` are the permissions that may be passed to
`mappages`, `norm` is what `PTE_FLAGS` returns for them. -/
structure Format where
  hal : Hal
  pa2pte : Nat → Nat
  pte2pa : Nat → Nat
  encodePerm : Nat → Nat
  flags : Nat → Nat
  vCache : Nat
  pteR : Nat
  pteW : Nat
  pteX : Nat
  pteU : Nat
  Perm : Nat → Prop
  norm : Nat → Nat
  table_pa : ∀ p, PhysPage p → pte2pa (pa2pte p ||| 1) = p
  leaf_valid : ∀ x, pteV (x ||| vCache) = true
  leaf_pa : ∀ p f, PhysPage p → Perm f → pte2pa (pa2pte p ||| encodePerm f ||| vCache) = p
  leaf_flags : ∀ p f, PhysPage p → Perm f → flags (pa2pte p ||| encodePerm f ||| vCache) = norm f
  pteU_valid : pteV pteU = false
  flags_perm : ∀ w, Perm (flags w)
  flags_uint : ∀ w, flags w < 2 ^ 32
  norm_flags : ∀ w, pteV w = true → norm (flags w) = flags w
  norm_perm : ∀ f, norm f &&& (pteR ||| pteW ||| pteX ||| pteU) = f &&& (pteR ||| pteW ||| pteX ||| pteU)
  pa2pte_page : ∀ pa, pa2pte pa = pa2pte (pa / pgsize * pgsize)
  valid_page : ∀ a, hal.valid a = true → hal.valid (vpn a * pgsize) = true
  valid_inj : ∀ a b, hal.valid a = true → hal.valid b = true → Same hal.level (vpn a) (vpn b) → vpn a = vpn b

/-- Read, write, execute and user. -/
def Format.rwxu (F : Format) (perm : Nat) : Nat := perm &&& (F.pteR ||| F.pteW ||| F.pteX ||| F.pteU)

/-- The entry that `mappages` writes. -/
def Format.leaf (F : Format) (pa perm : Nat) : Nat := F.pa2pte pa ||| F.encodePerm perm ||| F.vCache

theorem testBit_one_shiftLeft (k i : Nat) : (1 <<< k).testBit i = decide (i = k) := by
  rw [one_shiftLeft, testBit_two_pow]
  exact decide_eq_decide.mpr eq_comm

theorem and_bit_eq_zero (w k : Nat) : w &&& (1 <<< k) = 0 ↔ w.testBit k = false := by
  constructor
  · intro h
    have := congrArg (·.testBit k) h
    simpa [testBit_one_shiftLeft] using this
  · intro h
    refine eq_of_testBit_eq fun i => ?_
    rw [testBit_and, testBit_one_shiftLeft, zero_testBit]
    by_cases hi : i = k
    · rw [hi, h, Bool.false_and]
    · rw [decide_eq_false hi, Bool.and_false]

theorem physPage_testBit (h : PhysPage p) (hi : i < 12 ∨ 56 ≤ i) : p.testBit i = false := by
  cases hi with
  | inl hi =>
    have hp : p = (p / pgsize) <<< 12 := by
      have := h.1
      simp only [pgsize, shiftLeft_eq] at this ⊢
      omega
    rw [hp, testBit_shiftLeft]
    simp [Nat.not_le.mpr hi]
  | inr hi => exact testBit_lt_two_pow (Nat.lt_of_lt_of_le h.2 (Nat.pow_le_pow_right (by decide) hi))

namespace Riscv

def pteR : Nat := 1 <<< 1
def pteW : Nat := 1 <<< 2
def pteX : Nat := 1 <<< 3
def pteU : Nat := 1 <<< 4

def pa2pte (pa : Nat) : Nat := (pa >>> 12) <<< 10 % 2 ^ 64
def pte2pa (pte : Nat) : Nat := (pte >>> 10) <<< 12 % 2 ^ 64
def flags (pte : Nat) : Nat := pte &&& 0x3FF

theorem pa2pte_testBit (h : PhysPage p) (i : Nat) : (pa2pte p).testBit i = (decide (10 ≤ i) && p.testBit (i + 2)) := by
  rw [pa2pte, testBit_mod_two_pow, testBit_shiftLeft, testBit_shiftRight]
  by_cases hi : 10 ≤ i
  · rw [show 12 + (i - 10) = i + 2 by omega]
    by_cases h64 : i < 64
    · simp [h64]
    · rw [physPage_testBit h (.inr (by omega))]
      simp
  · simp [hi]

theorem pte2pa_testBit (w i : Nat) :
    (pte2pa w).testBit i = (decide (i < 64) && (decide (12 ≤ i) && w.testBit (i - 2))) := by
  rw [pte2pa, testBit_mod_two_pow, testBit_shiftLeft, testBit_shiftRight]
  by_cases hi : 12 ≤ i
  · rw [show 10 + (i - 12) = i - 2 by omega]
  · simp [hi]

theorem low_testBit (h : f < 1024) (hi : 10 ≤ i) : f.testBit i = false :=
  testBit_lt_two_pow (Nat.lt_of_lt_of_le h (Nat.pow_le_pow_right (by decide : 0 < 2) hi))

theorem pte2pa_or (hp : PhysPage p) (hf : f < 1024) : pte2pa (pa2pte p ||| f) = p := by
  refine eq_of_testBit_eq fun i => ?_
  rw [pte2pa_testBit, testBit_or, pa2pte_testBit hp]
  by_cases hi : 12 ≤ i
  · rw [low_testBit hf (by omega), show i - 2 + 2 = i by omega]
    by_cases h64 : i < 64
    · simp [hi, h64, show 10 ≤ i - 2 by omega]
    · rw [physPage_testBit hp (.inr (by omega))]
      simp
  · rw [physPage_testBit (i := i) hp (.inl (by omega))]
    simp [hi]

theorem or_one_lt (h : f < 1024) : f ||| 1 < 1024 := or_lt_two_pow (n := 10) h (by decide)

theorem flags_testBit (w i : Nat) : (flags w).testBit i = (decide (i < 10) && w.testBit i) := by
  rw [flags, show (0x3FF : Nat) = 2 ^ 10 - 1 from rfl, and_two_pow_sub_one_eq_mod, testBit_mod_two_pow]

theorem flags_lt (w : Nat) : flags w < 1024 := by
  rw [flags, show (0x3FF : Nat) = 2 ^ 10 - 1 from rfl, and_two_pow_sub_one_eq_mod]
  exact mod_lt _ (by decide)

theorem or_one_perm (f : Nat) :
    (f ||| 1) &&& (pteR ||| pteW ||| pteX ||| pteU) = f &&& (pteR ||| pteW ||| pteX ||| pteU) := by
  rw [Nat.and_or_distrib_right]
  exact Nat.or_zero _

theorem pa2pte_page (pa : Nat) : pa2pte pa = pa2pte (pa / pgsize * pgsize) := by
  simp only [pa2pte, pgsize, shiftRight_eq_div_pow]
  rw [Nat.mul_div_cancel _ (by decide)]

theorem valid_inj {a b : Nat} (ha : a < maxva) (hb : b < maxva) (hs : Same 2 (vpn a) (vpn b)) : vpn a = vpn b := by
  simp only [Same, fanout, vpn, pgsize, maxva] at *
  omega

theorem leaf_pa (hp : PhysPage p) (hf : f < 1024) : pte2pa (pa2pte p ||| f ||| 1) = p := by
  rw [Nat.or_assoc]
  exact pte2pa_or hp (or_one_lt hf)

theorem leaf_flags (hp : PhysPage p) (hf : f < 1024) : flags (pa2pte p ||| f ||| 1) = f ||| 1 := by
  refine eq_of_testBit_eq fun i => ?_
  rw [flags_testBit, Nat.or_assoc, testBit_or, pa2pte_testBit hp]
  by_cases hi : i < 10
  · simp [hi, show ¬ 10 ≤ i by omega]
  · rw [low_testBit (or_one_lt hf) (by omega)]
    simp [hi]

theorem flags_norm {w : Nat} (hw : pteV w = true) : flags w ||| 1 = flags w := by
  refine eq_of_testBit_eq fun i => ?_
  rw [testBit_or, flags_testBit]
  by_cases hi : i = 0
  · subst hi
    unfold pteV at hw
    simp [hw]
  · simp [hi, testBit_one_eq_true_iff_self_eq_zero]

theorem valid_page {a : Nat} (ha : a < maxva) : vpn a * pgsize < maxva := by
  simp only [vpn, pgsize, maxva] at *
  omega

def format : Format where
  hal := riscv
  pa2pte := pa2pte
  pte2pa := pte2pa
  encodePerm perm := perm
  flags := flags
  vCache := 1
  pteR := pteR
  pteW := pteW
  pteX := pteX
  pteU := pteU
  Perm f := f < 1024
  norm f := f ||| 1
  table_pa _ hp := pte2pa_or hp (by decide)
  leaf_valid x := by simp [pteV]
  leaf_pa _ _ := leaf_pa
  leaf_flags _ _ := leaf_flags
  pteU_valid := by decide
  flags_perm := flags_lt
  flags_uint w := Nat.lt_trans (flags_lt w) (by decide)
  norm_flags _ := flags_norm
  norm_perm := or_one_perm
  pa2pte_page := pa2pte_page
  valid_page _ ha := decide_eq_true (valid_page (of_decide_eq_true ha))
  valid_inj _ _ ha hb := valid_inj (of_decide_eq_true ha) (of_decide_eq_true hb)

end Riscv

namespace Loongarch

def pteD : Nat := 1 <<< 1
def ptePlv3 : Nat := 1 <<< 2 ||| 1 <<< 3
def pteMat : Nat := 1 <<< 4
def pteG : Nat := 1 <<< 6
def pteP : Nat := 1 <<< 7
def pteHwW : Nat := 1 <<< 8
def pteNR : Nat := 1 <<< 61
def pteNX : Nat := 1 <<< 62

def pteR : Nat := 1 <<< 9
def pteW : Nat := pteD ||| pteHwW
def pteX : Nat := 1 <<< 10
def pteU : Nat := ptePlv3

def pteVCache : Nat := 1 ||| pteMat ||| pteP

def paMask : Nat := 0x0FFFFFFFFFFF000

def pa2pte (pa : Nat) : Nat := pa &&& paMask
def pte2pa (pte : Nat) : Nat := pte &&& paMask

/-- The attributes that are the same in both representations. -/
def kept : Nat := pteW ||| pteU ||| pteG

def encodePerm (perm : Nat) : Nat :=
  perm &&& kept ||| (if perm &&& pteR = 0 then pteNR else 0) ||| (if perm &&& pteX = 0 then pteNX else 0)

/-- `hal_pte_decode_perm` -/
def decodePerm (pte : Nat) : Nat :=
  pte &&& kept ||| (if pte &&& pteNR = 0 then pteR else 0) ||| (if pte &&& pteNX = 0 then pteX else 0)

theorem paMask_testBit (i : Nat) : paMask.testBit i = (decide (12 ≤ i) && decide (i < 56)) := by
  rw [show paMask = (2 ^ 44 - 1) <<< 12 from rfl, testBit_shiftLeft, testBit_two_pow_sub_one]
  by_cases h : 12 ≤ i
  · simp only [h, decide_true, Bool.true_and]
    exact decide_eq_decide.mpr (by omega)
  · simp [h]

theorem kept_testBit (i : Nat) : kept.testBit i = decide (i = 1 ∨ i = 2 ∨ i = 3 ∨ i = 6 ∨ i = 8) := by
  simp only [kept, pteW, pteU, pteD, pteHwW, ptePlv3, pteG, testBit_or, testBit_one_shiftLeft]
  rw [← Bool.decide_or, ← Bool.decide_or, ← Bool.decide_or, ← Bool.decide_or]
  exact decide_eq_decide.mpr (by omega)

theorem vCache_testBit (i : Nat) : pteVCache.testBit i = decide (i = 0 ∨ i = 4 ∨ i = 7) := by
  simp only [pteVCache, pteMat, pteP, testBit_or, testBit_one_shiftLeft]
  rw [show (1 : Nat) = 1 <<< 0 from rfl, testBit_one_shiftLeft, ← Bool.decide_or, ← Bool.decide_or]
  exact decide_eq_decide.mpr (by omega)

theorem ite_testBit (w k j i : Nat) :
    (if w &&& 1 <<< k = 0 then 1 <<< j else 0).testBit i = (decide (i = j) && !w.testBit k) := by
  by_cases h : w.testBit k = false
  · rw [if_pos ((and_bit_eq_zero w k).mpr h), testBit_one_shiftLeft, h, Bool.not_false, Bool.and_true]
  · rw [if_neg fun h0 => h ((and_bit_eq_zero w k).mp h0), zero_testBit, Bool.eq_true_of_not_eq_false h,
      Bool.not_true, Bool.and_false]

theorem encodePerm_testBit (f i : Nat) : (encodePerm f).testBit i =
    (f.testBit i && kept.testBit i || (decide (i = 61) && !f.testBit 9) || (decide (i = 62) && !f.testBit 10)) := by
  rw [encodePerm, testBit_or, testBit_or, testBit_and, pteR, pteNR, pteX, pteNX, ite_testBit, ite_testBit]

theorem decodePerm_testBit (w i : Nat) : (decodePerm w).testBit i =
    (w.testBit i && kept.testBit i || (decide (i = 9) && !w.testBit 61) || (decide (i = 10) && !w.testBit 62)) := by
  rw [decodePerm, testBit_or, testBit_or, testBit_and, pteR, pteNR, pteX, pteNX, ite_testBit, ite_testBit]

theorem pa2pte_eq (hp : PhysPage p) : pa2pte p = p := by
  refine eq_of_testBit_eq fun i => ?_
  rw [pa2pte, testBit_and, paMask_testBit]
  by_cases hi : i < 12 ∨ 56 ≤ i
  · rw [physPage_testBit hp hi, Bool.false_and]
  · rw [decide_eq_true (by omega : 12 ≤ i), decide_eq_true (by omega : i < 56), Bool.and_true, Bool.and_true]

theorem pte2pa_or (hp : PhysPage p) (hf : ∀ i, 12 ≤ i → i < 56 → f.testBit i = false) :
    pte2pa (pa2pte p ||| f) = p := by
  refine eq_of_testBit_eq fun i => ?_
  rw [pa2pte_eq hp, pte2pa, testBit_and, testBit_or, paMask_testBit]
  by_cases hi : i < 12 ∨ 56 ≤ i
  · rw [physPage_testBit hp hi]
    cases hi with
    | inl hi => rw [decide_eq_false (by omega : ¬ 12 ≤ i), Bool.false_and, Bool.and_false]
    | inr hi => rw [decide_eq_false (by omega : ¬ i < 56), Bool.and_false, Bool.and_false]
  · rw [hf i (by omega) (by omega), decide_eq_true (by omega : 12 ≤ i), decide_eq_true (by omega : i < 56),
      Bool.or_false, Bool.and_true, Bool.and_true]

theorem kept_high (hi : 12 ≤ i) : kept.testBit i = false := by
  rw [kept_testBit]
  exact decide_eq_false (by omega)

theorem attr_testBit (h1 : 12 ≤ i) (h2 : i < 56) : (encodePerm f ||| pteVCache).testBit i = false := by
  rw [testBit_or, encodePerm_testBit, vCache_testBit, kept_high h1, decide_eq_false (by omega : ¬ i = 61),
    decide_eq_false (by omega : ¬ i = 62), decide_eq_false (by omega), Bool.and_false, Bool.false_and, Bool.false_and]
  rfl

/-- R, W, X, U and G. -/
def permMask : Nat := kept ||| pteR ||| pteX

theorem permMask_testBit (i : Nat) : permMask.testBit i = (kept.testBit i || decide (i = 9) || decide (i = 10)) := by
  rw [permMask, testBit_or, testBit_or, pteR, pteX, testBit_one_shiftLeft, testBit_one_shiftLeft]

theorem leaf_testBit (hp : PhysPage p) (hi : kept.testBit i ∨ i = 61 ∨ i = 62) :
    (pa2pte p ||| encodePerm f ||| pteVCache).testBit i = (encodePerm f).testBit i := by
  have hk : kept.testBit i → i < 12 ∧ ¬(i = 0 ∨ i = 4 ∨ i = 7) := by
    rw [kept_testBit, decide_eq_true_eq]
    omega
  have hout : (i < 12 ∨ 56 ≤ i) ∧ ¬(i = 0 ∨ i = 4 ∨ i = 7) := by
    rcases hi with hi | hi
    · exact ⟨.inl (hk hi).1, (hk hi).2⟩
    · omega
  rw [pa2pte_eq hp, testBit_or, testBit_or, physPage_testBit hp hout.1, vCache_testBit,
    decide_eq_false hout.2, Bool.false_or, Bool.or_false]

theorem decodePerm_leaf (hp : PhysPage p) : decodePerm (pa2pte p ||| encodePerm f ||| pteVCache) = f &&& permMask := by
  refine eq_of_testBit_eq fun i => ?_
  have h61 : (encodePerm f).testBit 61 = !f.testBit 9 := by
    rw [encodePerm_testBit, kept_high (by decide)]
    simp
  have h62 : (encodePerm f).testBit 62 = !f.testBit 10 := by
    rw [encodePerm_testBit, kept_high (by decide)]
    simp
  rw [decodePerm_testBit, leaf_testBit hp (.inr (.inl rfl)), leaf_testBit hp (.inr (.inr rfl)), h61, h62,
    testBit_and, permMask_testBit, Bool.not_not, Bool.not_not]
  by_cases hk : kept.testBit i
  · have hne : ¬ i = 61 ∧ ¬ i = 62 := by
      rw [kept_testBit, decide_eq_true_eq] at hk
      omega
    rw [leaf_testBit hp (.inl hk), encodePerm_testBit, hk, decide_eq_false hne.1, decide_eq_false hne.2]
    have h9 : ¬ i = 9 ∧ ¬ i = 10 := by
      rw [kept_testBit, decide_eq_true_eq] at hk
      omega
    rw [decide_eq_false h9.1, decide_eq_false h9.2]
    simp
  · rw [Bool.not_eq_true] at hk
    rw [hk, Bool.and_false, Bool.false_or, Bool.false_or]
    by_cases h9 : i = 9
    · simp [h9]
    · by_cases h10 : i = 10
      · simp [h10]
      · simp [h9, h10]

theorem table_pa (hp : PhysPage p) : pte2pa (pa2pte p ||| 1) = p := pte2pa_or hp fun i hi _ => by
  rw [show (1 : Nat) = 1 <<< 0 from rfl, testBit_one_shiftLeft]
  exact decide_eq_false (by omega)

theorem leaf_valid (x : Nat) : pteV (x ||| pteVCache) = true := by
  rw [pteV, testBit_or, vCache_testBit]
  simp

theorem leaf_pa (hp : PhysPage p) : pte2pa (pa2pte p ||| encodePerm f ||| pteVCache) = p := by
  rw [Nat.or_assoc]
  exact pte2pa_or hp fun i h1 h2 => attr_testBit h1 h2

theorem decodePerm_lt (w : Nat) : decodePerm w < 2 ^ 32 := lt_pow_two_of_testBit _ fun i hi => by
  rw [decodePerm_testBit, kept_high (by omega), decide_eq_false (by omega : ¬ i = 9),
    decide_eq_false (by omega : ¬ i = 10), Bool.and_false]
  rfl

theorem decodePerm_norm (w : Nat) : decodePerm w &&& permMask = decodePerm w := by
  refine eq_of_testBit_eq fun i => ?_
  rw [testBit_and, permMask_testBit, decodePerm_testBit]
  by_cases hk : kept.testBit i
  · simp [hk]
  · rw [Bool.not_eq_true] at hk
    rw [hk]
    by_cases h9 : i = 9
    · simp [h9]
    · by_cases h10 : i = 10
      · simp [h10]
      · simp [h9, h10]

theorem pa2pte_page (pa : Nat) : pa2pte pa = pa2pte (pa / pgsize * pgsize) := by
  refine eq_of_testBit_eq fun i => ?_
  have hp : pa / pgsize * pgsize = (pa >>> 12) <<< 12 := by
    rw [shiftRight_eq_div_pow, shiftLeft_eq]
    rfl
  rw [pa2pte, pa2pte, testBit_and, testBit_and, paMask_testBit, hp, testBit_shiftLeft,
    testBit_shiftRight]
  by_cases hi : 12 ≤ i
  · simp [hi, show 12 + (i - 12) = i by omega]
  · simp [hi]

theorem valid_page (a : Nat) (h : loongarch.valid a = true) : loongarch.valid (vpn a * pgsize) = true := by
  have h := of_decide_eq_true h
  refine decide_eq_true ?_
  simp only [vpn, pgsize, maxva, kstackRegionBottom, kstackTop] at *
  omega

theorem valid_inj (a b : Nat) (ha : loongarch.valid a = true) (hb : loongarch.valid b = true)
    (hs : Same loongarch.level (vpn a) (vpn b)) : vpn a = vpn b := by
  have ha := of_decide_eq_true ha
  have hb := of_decide_eq_true hb
  simp only [Same, fanout, loongarch, vpn, pgsize, maxva, kstackRegionBottom, kstackTop] at *
  omega

def format : Format where
  hal := loongarch
  pa2pte := pa2pte
  pte2pa := pte2pa
  encodePerm := encodePerm
  flags := decodePerm
  vCache := pteVCache
  pteR := pteR
  pteW := pteW
  pteX := pteX
  pteU := pteU
  Perm _ := True
  norm f := f &&& permMask
  table_pa _ := table_pa
  leaf_valid := leaf_valid
  leaf_pa _ _ hp _ := leaf_pa hp
  leaf_flags _ _ hp _ := decodePerm_leaf hp
  pteU_valid := by decide
  flags_perm _ := trivial
  flags_uint := decodePerm_lt
  norm_flags w _ := decodePerm_norm w
  norm_perm _ := Nat.and_assoc ..
  pa2pte_page := pa2pte_page
  valid_page := valid_page
  valid_inj := valid_inj

end Loongarch

inductive Arch where
  | riscv
  | loongarch

def Arch.format : Arch → Format
  | .riscv => Riscv.format
  | .loongarch => Loongarch.format

end Xv6Vfs.Vm
