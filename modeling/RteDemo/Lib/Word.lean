import Mathlib.Data.Nat.Bitwise
import Mathlib.Data.Nat.Log
import Mathlib.Tactic.Common

/-!
# Fixed-width unsigned words as naturals

A `w`-bit word is a natural number below `2 ^ w`. Addition and subtraction wrap; `Word.not` is
the bitwise complement. Masking with the complement of `2 ^ k - 1` rounds down to a multiple of
`2 ^ k` (`land_not_mask`), and two words agree under that mask exactly when they lie in the same
aligned block (`land_not_mask_inj`).
-/

namespace Word

/-- Wrapping addition. -/
def add (w a b : Nat) : Nat := (a + b) % 2 ^ w

/-- Wrapping subtraction. -/
def sub (w a b : Nat) : Nat := (a + (2 ^ w - b % 2 ^ w)) % 2 ^ w

/-- Wrapping multiplication. -/
def mul (w a b : Nat) : Nat := a * b % 2 ^ w

/-- Bitwise complement. -/
def not (w a : Nat) : Nat := 2 ^ w - 1 - a % 2 ^ w

theorem add_lt (w a b : Nat) : add w a b < 2 ^ w := Nat.mod_lt _ (Nat.two_pow_pos w)

theorem sub_lt (w a b : Nat) : sub w a b < 2 ^ w := Nat.mod_lt _ (Nat.two_pow_pos w)

theorem add_eq {w a b : Nat} (h : a + b < 2 ^ w) : add w a b = a + b := Nat.mod_eq_of_lt h

theorem mul_eq {w a b : Nat} (h : a * b < 2 ^ w) : mul w a b = a * b := Nat.mod_eq_of_lt h

/-- Subtraction is exact when nothing is borrowed. -/
theorem sub_eq {w a b : Nat} (hba : b ≤ a) (ha : a < 2 ^ w) : sub w a b = a - b := by
  unfold sub
  rw [Nat.mod_eq_of_lt (hba.trans_lt ha), show a + (2 ^ w - b) = (a - b) + 2 ^ w by omega,
    Nat.add_mod_right, Nat.mod_eq_of_lt (by omega)]

/-- Subtraction that borrows lands near the top of the range. -/
theorem sub_eq_of_lt {w a b : Nat} (hab : a < b) (hb : b < 2 ^ w) :
    sub w a b = a + 2 ^ w - b := by
  unfold sub
  rw [Nat.mod_eq_of_lt hb, Nat.mod_eq_of_lt (by omega)]
  omega

/-- The difference of two counters, one `d` ahead of the other, is `d` however they wrap. -/
theorem sub_mod_of_eq_add {w a b d : Nat} (hd : d < 2 ^ w) (h : a = b + d) :
    sub w (a % 2 ^ w) (b % 2 ^ w) = d := by
  subst h
  have hpos := Nat.two_pow_pos w
  have hb : b % 2 ^ w < 2 ^ w := Nat.mod_lt _ hpos
  unfold sub
  rw [Nat.mod_mod, Nat.add_mod b d, Nat.mod_eq_of_lt hd]
  by_cases hlt : b % 2 ^ w + d < 2 ^ w
  · rw [Nat.mod_eq_of_lt hlt, show b % 2 ^ w + d + (2 ^ w - b % 2 ^ w) = d + 2 ^ w by omega,
      Nat.add_mod_right, Nat.mod_eq_of_lt hd]
  · have hlow : (b % 2 ^ w + d) % 2 ^ w = b % 2 ^ w + d - 2 ^ w := by
      rw [Nat.mod_eq_sub_mod (by omega), Nat.mod_eq_of_lt (by omega)]
    rw [hlow, show b % 2 ^ w + d - 2 ^ w + (2 ^ w - b % 2 ^ w) = d by omega, Nat.mod_eq_of_lt hd]

theorem sub_one_of_succ_mod (w x : Nat) (hw : 0 < w) : sub w ((x + 1) % 2 ^ w) 1 = x % 2 ^ w := by
  have h2 : 2 ^ 1 ≤ 2 ^ w := Nat.pow_le_pow_right (by decide) hw
  have hx := Nat.mod_lt x (Nat.two_pow_pos w)
  rw [Nat.add_mod, Nat.mod_eq_of_lt (show 1 < 2 ^ w by omega)]
  rcases Nat.lt_or_ge (x % 2 ^ w + 1) (2 ^ w) with h | h
  · rw [Nat.mod_eq_of_lt h, sub_eq (by omega) h, Nat.add_sub_cancel]
  · rw [show x % 2 ^ w + 1 = 2 ^ w by omega, Nat.mod_self, sub_eq_of_lt (by omega) (by omega)]
    omega

/-! ## Masks -/

theorem testBit_not_mask {w k i : Nat} (hk : k ≤ w) :
    (not w (2 ^ k - 1)).testBit i = (decide (i < w) && !decide (i < k)) := by
  have hlt : 2 ^ k - 1 < 2 ^ w :=
    (Nat.sub_lt (Nat.two_pow_pos k) Nat.one_pos).trans_le (Nat.pow_le_pow_right (by decide) hk)
  unfold not
  rw [Nat.mod_eq_of_lt hlt, show 2 ^ w - 1 - (2 ^ k - 1) = 2 ^ w - (2 ^ k - 1 + 1) by omega,
    Nat.testBit_two_pow_sub_succ hlt, Nat.testBit_two_pow_sub_one]

/-- Clearing the low `k` bits rounds down to a multiple of `2 ^ k`. -/
theorem land_not_mask {w k v : Nat} (hv : v < 2 ^ w) (hk : k ≤ w) :
    v &&& not w (2 ^ k - 1) = v / 2 ^ k * 2 ^ k := by
  refine Nat.eq_of_testBit_eq fun i => ?_
  rw [Nat.testBit_and, testBit_not_mask hk, Nat.testBit_mul_two_pow, Nat.testBit_div_two_pow]
  by_cases hi : k ≤ i
  · by_cases hw : i < w
    · simp [hi, hw, Nat.not_lt.mpr hi]
    · have hb : v.testBit i = false :=
        Nat.testBit_lt_two_pow (hv.trans_le (Nat.pow_le_pow_right (by decide) (by omega)))
      simp [hi, hw, hb]
  · simp [hi, Nat.lt_of_not_le hi]

/-- Two words agree under the mask exactly when they lie in the same aligned block. -/
theorem land_not_mask_inj {w k u v : Nat} (hu : u < 2 ^ w) (hv : v < 2 ^ w) (hk : k ≤ w) :
    u &&& not w (2 ^ k - 1) = v &&& not w (2 ^ k - 1) ↔ u / 2 ^ k = v / 2 ^ k := by
  rw [land_not_mask hu hk, land_not_mask hv hk]
  exact ⟨Nat.eq_of_mul_eq_mul_right (Nat.two_pow_pos k), fun h => by rw [h]⟩

theorem land_mask {v k : Nat} : v &&& (2 ^ k - 1) = v % 2 ^ k := Nat.and_two_pow_sub_one_eq_mod v k

/-! ## Rounding to powers of two -/

/-- `x` rounded down to a multiple of `2 ^ k`. -/
theorem div_mul_le (x k : Nat) : x / 2 ^ k * 2 ^ k ≤ x := Nat.div_mul_le_self x (2 ^ k)

theorem lt_div_mul_add (x k : Nat) : x < x / 2 ^ k * 2 ^ k + 2 ^ k := by
  have h := Nat.div_add_mod x (2 ^ k)
  have hm := Nat.mod_lt x (Nat.two_pow_pos k)
  rw [Nat.mul_comm] at h
  omega

/-- The rounded value is the largest multiple that is not above `x`. -/
theorem le_div_mul {x k d : Nat} (hd : 2 ^ k ∣ d) (hle : d ≤ x) : d ≤ x / 2 ^ k * 2 ^ k := by
  obtain ⟨q, rfl⟩ := hd
  rw [Nat.mul_comm]
  exact Nat.mul_le_mul_right _ ((Nat.le_div_iff_mul_le (Nat.two_pow_pos k)).mpr
    (by rw [Nat.mul_comm]; exact hle))

theorem two_pow_dvd_two_pow {a b : Nat} (h : 2 ^ a ≤ 2 ^ b) : 2 ^ a ∣ 2 ^ b :=
  Nat.pow_dvd_pow 2 ((Nat.pow_le_pow_iff_right (by decide)).mp h)

end Word
