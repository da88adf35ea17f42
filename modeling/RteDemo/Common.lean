import RteDemo.Lib.Word

/-!
# Build configuration and the macros of `rte_common.h`

The constants are those of `rte_config.h` on a 64-bit machine, with `RTE_MALLOC_DEBUG` and
`RTE_LIBRTE_MEMPOOL_DEBUG` off. Pointers, `size_t` and `uintptr_t` are 64-bit words, `unsigned`
is a 32-bit word; `NULL` is `0`.
-/

namespace RteDemo

/-- `RTE_CACHE_LINE_SIZE` -/
@[simp] def rteCacheLineSize : Nat := 64
/-- `RTE_MAX_NUMA_NODES` -/
@[simp] def rteMaxNumaNodes : Nat := 8
/-- `RTE_MAX_MEMSEG` -/
@[simp] def rteMaxMemseg : Nat := 256

/-- `RTE_PTR_ADD` -/
def rtePtrAdd (ptr x : Nat) : Nat := Word.add 64 ptr x

/-- `RTE_PTR_SUB` -/
def rtePtrSub (ptr x : Nat) : Nat := Word.sub 64 ptr x

/-- `RTE_ALIGN_FLOOR(val, align)` for a 64-bit `val`, given the value of `(align) - 1`, which
the macro computes in the width of `align`. -/
def rteAlignFloor (val alignMinusOne : Nat) : Nat := val &&& Word.not 64 alignMinusOne

/-- `RTE_CACHE_LINE_ROUNDUP` on a `w`-bit word. -/
def rteCacheLineRoundup (w x : Nat) : Nat :=
  rteCacheLineSize * (Word.sub w (Word.add w x rteCacheLineSize) 1 / rteCacheLineSize)

/-- `rte_is_power_of_2` -/
def rteIsPowerOf2 (n : Nat) : Bool := n != 0 && n &&& (n - 1) == 0

/-! ## What the macros compute -/

theorem rtePtrAdd_eq {a b : Nat} (h : a + b < 2 ^ 64) : rtePtrAdd a b = a + b := Word.add_eq h

theorem rtePtrSub_eq {a b : Nat} (h : b ≤ a) (ha : a < 2 ^ 64) : rtePtrSub a b = a - b :=
  Word.sub_eq h ha

theorem rteAlignFloor_two_pow {v k : Nat} (hv : v < 2 ^ 64) (hk : k ≤ 64) :
    rteAlignFloor v (2 ^ k - 1) = v / 2 ^ k * 2 ^ k := Word.land_not_mask hv hk

theorem rteAlignFloor_cacheLine {v : Nat} (hv : v < 2 ^ 64) :
    rteAlignFloor v 63 = v / 64 * 64 := rteAlignFloor_two_pow (k := 6) hv (by decide)

/-- The macro rounds up unless the rounded value does not fit. -/
theorem rteCacheLineRoundup_eq {w x : Nat} (hw : 1 ≤ w) (h : x + 63 < 2 ^ w) :
    rteCacheLineRoundup w x = 64 * ((x + 63) / 64) := by
  have hw2 : 2 ^ 1 ≤ 2 ^ w := Nat.pow_le_pow_right (by decide) hw
  unfold rteCacheLineRoundup rteCacheLineSize
  rcases Nat.lt_or_ge (x + 64) (2 ^ w) with hlt | hge
  · rw [Word.add_eq hlt, Word.sub_eq (by omega) hlt]
    rfl
  · -- the sum is `2 ^ w`, and the subtraction takes the wrap back
    have hx : x + 64 = 2 ^ w := by omega
    rw [Word.add, hx, Nat.mod_self, Word.sub_eq_of_lt (by omega) (by omega), ← hx]
    congr 2
    omega

theorem rteCacheLineRoundup_of_dvd {w x : Nat} (hw : 1 ≤ w) (hd : 64 ∣ x) (h : x + 63 < 2 ^ w) :
    rteCacheLineRoundup w x = x := by
  rw [rteCacheLineRoundup_eq hw h]
  omega

theorem rteIsPowerOf2_iff {n : Nat} : rteIsPowerOf2 n = true ↔ n.isPowerOfTwo := by
  rw [← Nat.ne_zero_and_sub_one_eq_zero_iff_isPowerOfTwo]
  simp [rteIsPowerOf2]

end RteDemo
