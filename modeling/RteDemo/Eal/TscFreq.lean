import RteDemo.Lib.Word
import Mathlib.Logic.Basic

/-!
# `get_tsc_freq_arch`

Leaf `0x15` of CPUID gives the TSC/crystal ratio `b / a` and the crystal's frequency `c`. The code
divides before it multiplies, in 32 bits, and by whatever the processor reports: a ratio that is no
whole number loses its fraction, a product from `2 ^ 32` on wraps, and a zero denominator traps. Without
the leaf the frequency comes from a model specific register.
-/

namespace Tsc

/-- `eax` to `edx` after CPUID -/
structure CpuidRegs where
  a : Nat
  b : Nat
  c : Nat
  d : Nat

/-- What the code reads of the machine: CPUID, and `/dev/cpu/0/msr` (the descriptor or a negative
error, what `pread` returns and what it reads). -/
structure Machine where
  maxLeaf : Nat
  cpuid : Nat → CpuidRegs
  msrFd : Int
  msrRead : Nat → Int × Nat

/-- `rte_cpu_get_model` -/
def rteCpuGetModel (famModStep : Nat) : Nat :=
  let family := (famModStep >>> 8) &&& 0xf
  let model := (famModStep >>> 4) &&& 0xf
  if family = 6 ∨ family = 15 then
    let extModel := (famModStep >>> 16) &&& 0xf
    Word.add 32 model (extModel <<< 4)
  else model

/-- `rdmsr`; the value stays `0` where nothing is read. -/
def rdmsr (m : Machine) (msr : Nat) : Int × Nat := if m.msrFd < 0 then (m.msrFd, 0) else m.msrRead msr

/-- `check_model_wsm_nhm` -/
def checkModelWsmNhm (model : Nat) : Bool := [0x25, 0x2C, 0x2F, 0x1E, 0x1F, 0x1A, 0x2E].contains model

/-- `check_model_gdm_dnv` -/
def checkModelGdmDnv (model : Nat) : Bool := [0x5C, 0x5F].contains model

/-- `bit_AVX` -/
def bitAvx : Nat := 1 <<< 28

/-- The part behind the leaf: the ratio of the platform's register, in units of `mult` MHz. -/
def platformFreq (m : Machine) : Nat :=
  let regs := m.cpuid 0x1
  let model := rteCpuGetModel regs.a % 2 ^ 8
  let mult :=
    if checkModelWsmNhm model = true then some 133
    else if regs.c &&& bitAvx ≠ 0 ∨ checkModelGdmDnv model = true then some 100
    else none
  match mult with
  | none => 0
  | some mult =>
    let (ret, tscHz) := rdmsr m 0xCE
    if ret < 0 then 0 else ((tscHz >>> 8) &&& 0xff) * mult * 1000000

/-- `get_tsc_freq_arch`; `none` is a division by zero. -/
def getTscFreqArch (m : Machine) : Option Nat :=
  let regs := m.cpuid 0x15
  if m.maxLeaf ≥ 0x15 ∧ regs.b ≠ 0 ∧ regs.c ≠ 0 then
    if regs.a = 0 then none else some (Word.mul 32 regs.c (regs.b / regs.a))
  else some (platformFreq m)

/-- The frequency is exact: no division by zero, and the crystal's frequency times the ratio, rounded
down. -/
def FreqExact (m : Machine) (regs : CpuidRegs) : Prop :=
  getTscFreqArch m ≠ none ∧ (regs.a ≠ 0 → getTscFreqArch m = some (regs.c * regs.b / regs.a))

instance (m : Machine) (regs : CpuidRegs) : Decidable (FreqExact m regs) :=
  inferInstanceAs (Decidable (_ ∧ _))

/-- Dividing first loses what the remainder would have brought. -/
theorem mul_div_split {a : Nat} (ha : 0 < a) (b c : Nat) : c * b / a = c * (b / a) + c * (b % a) / a := by
  have hb := Nat.div_add_mod b a
  have hprod : c * b = c * (b % a) + a * (c * (b / a)) :=
    calc c * b = c * (a * (b / a) + b % a) := by rw [hb]
      _ = c * (b % a) + a * (c * (b / a)) := by rw [Nat.mul_add, Nat.mul_left_comm, Nat.add_comm]
  rw [hprod, Nat.add_mul_div_left _ _ ha, Nat.add_comm]

/-- The code's product is the rounded quotient exactly when neither the remainder nor the top counts. -/
theorem mul_div_eq_iff {a : Nat} (ha : 0 < a) (b c : Nat) :
    Word.mul 32 c (b / a) = c * b / a ↔ c * (b % a) < a ∧ c * (b / a) < 2 ^ 32 := by
  have hle : Word.mul 32 c (b / a) ≤ c * (b / a) := Nat.mod_le _ _
  have hrem : c * (b % a) / a = 0 ↔ c * (b % a) < a := Nat.div_eq_zero_iff_lt ha
  have hlt : Word.mul 32 c (b / a) < 2 ^ 32 := Nat.mod_lt _ (by decide)
  rw [mul_div_split ha, ← hrem]
  generalize c * (b % a) / a = rest
  constructor
  · intro h
    exact ⟨by omega, by omega⟩
  · rintro ⟨h0, hfit⟩
    rw [Word.mul_eq hfit, h0, Nat.add_zero]

/-- **The TSC frequency** is exact exactly when the denominator is not zero, the ratio's remainder brings
less than one hertz, and the product fits 32 bits. -/
theorem freqExact_iff {m : Machine} {regs : CpuidRegs} (hleaf : 0x15 ≤ m.maxLeaf)
    (hregs : m.cpuid 0x15 = regs) (hb : regs.b ≠ 0) (hc : regs.c ≠ 0) :
    FreqExact m regs ↔
      regs.a ≠ 0 ∧ regs.c * (regs.b % regs.a) < regs.a ∧ regs.c * (regs.b / regs.a) < 2 ^ 32 := by
  have hcode : getTscFreqArch m =
      if regs.a = 0 then none else some (Word.mul 32 regs.c (regs.b / regs.a)) := by
    simp only [getTscFreqArch, hregs]
    rw [if_pos ⟨hleaf, hb, hc⟩]
  rw [FreqExact, hcode]
  by_cases ha : regs.a = 0
  · rw [if_pos ha]
    exact ⟨fun h => absurd rfl h.1, fun h => absurd ha h.1⟩
  · rw [if_neg ha, Option.some_inj, mul_div_eq_iff (Nat.pos_of_ne_zero ha)]
    constructor
    · rintro ⟨-, h⟩
      exact ⟨ha, h ha⟩
    · rintro ⟨-, h⟩
      exact ⟨nofun, fun _ => h⟩

/-- A machine with leaf `0x15` and nothing else. -/
def leafMachine (a b c : Nat) : Machine := ⟨0x16, fun _ => ⟨a, b, c, 0⟩, -2, fun _ => (8, 0)⟩

/-- A ratio of 84 and a crystal of 24 MHz. -/
theorem freqExact_iff_84 : FreqExact (leafMachine 2 168 24000000) ⟨2, 168, 24000000, 0⟩ ↔
    2 ≠ 0 ∧ 24000000 * (168 % 2) < 2 ∧ 24000000 * (168 / 2) < 2 ^ 32 :=
  freqExact_iff (by decide) rfl (by decide) (by decide)

/-- A ratio of 3/2 is taken for 1. -/
theorem not_freqExact_ratio : ¬FreqExact (leafMachine 2 3 24000000) ⟨2, 3, 24000000, 0⟩ := by decide

end Tsc
