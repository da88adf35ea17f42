import RteDemo.Lib.Loop
import RteDemo.Mempool.ObjSize
import Mathlib.Order.Bounds.Basic

/-!
# The search of `optimize_object_size`

`get_gcd` is Euclid's algorithm with the greater argument first, and its loop ends because the
remainder falls. The outer loop counts up from the number of cache lines of the object to the first
number coprime to the channels and ranks `r`: one of any `r` consecutive numbers is `1` modulo `r`, so
it is there before `r` rounds are over.
-/

namespace Mempool

open RteDemo

/-- The condition of `get_gcd`'s loop, on `a` and `b`. -/
def gcdCond (p : Nat × Nat) : Prop := p.2 ≠ 0

/-- The body of `get_gcd`'s loop -/
def gcdBody (p : Nat × Nat) : Nat × Nat := (p.2, p.1 % p.2)

/-- The arguments in the order in which `get_gcd` enters its loop. -/
def gcdStart (a b : Nat) : Nat × Nat := if a < b then (b, a) else (a, b)

/-- The condition of `optimize_object_size`'s loop -/
def spreadCond (n newObjSize : Nat) : Prop := getGcd newObjSize n ≠ 1

/-- The body of `optimize_object_size`'s loop -/
def spreadBody (newObjSize : Nat) : Nat := Word.add 32 newObjSize 1

/-- The number of channels times the number of ranks, with the defaults for unknown counts. -/
def channelsRanks (nchan nrank : Nat) : Nat :=
  (if nrank = 0 then 1 else nrank) * (if nchan = 0 then 4 else nchan)

/-- `optimize_object_size`'s first candidate -/
def firstLines (objSize : Nat) : Nat := Word.add 32 objSize (rteMempoolAlign - 1) / rteMempoolAlign

/-! ## Euclid -/

/-- Euclid's loop comes to the greatest common divisor. -/
theorem gcdLoop_ends (a b : Nat) : ∃ n, Loop.Ends gcdCond gcdBody n (a, b) (Nat.gcd a b, 0) := by
  have hfall : ∀ p, gcdCond p → (gcdBody p).2 < p.2 := fun p hp =>
    Nat.mod_lt _ (Nat.pos_of_ne_zero hp)
  obtain ⟨n, -, ⟨x, y⟩, hends⟩ := Loop.ends_of_measure Prod.snd hfall (a, b)
  have hy : y = 0 := not_not.mp hends.stopped
  -- the greatest common divisor of the two is the same in every round
  have hkeep : ∀ p : Nat × Nat, Nat.gcd p.1 p.2 = Nat.gcd a b → gcdCond p →
      Nat.gcd (gcdBody p).1 (gcdBody p).2 = Nat.gcd a b := by
    intro p hp _
    rw [← hp, gcdBody, Nat.gcd_comm, ← Nat.gcd_rec, Nat.gcd_comm]
  have hgcd := hends.invariant (I := fun p => Nat.gcd p.1 p.2 = Nat.gcd a b) hkeep rfl
  simp only [hy, Nat.gcd_zero_right] at hgcd
  rw [hy, hgcd] at hends
  exact ⟨n, hends⟩

/-- **`get_gcd`** ends with the greatest common divisor of any two arguments. -/
theorem getGcd_ends (a b : Nat) :
    (∃ n, Loop.Ends gcdCond gcdBody n (gcdStart a b) (getGcd a b, 0)) ∧ getGcd a b = Nat.gcd a b := by
  refine ⟨?_, getGcd_eq a b⟩
  rw [getGcd_eq, gcdStart]
  split_ifs
  · rw [Nat.gcd_comm]
    exact gcdLoop_ends b a
  · exact gcdLoop_ends a b

/-! ## The search -/

/-- One of `r` consecutive numbers is coprime to `r`. -/
theorem exists_coprime_of_consecutive {r : Nat} (hr : 0 < r) (q : Nat) :
    ∃ c, q ≤ c ∧ c < q + r ∧ Nat.Coprime c r := by
  rcases Nat.lt_or_ge 1 r with h1 | h1
  · have hdiv := Nat.div_add_mod (q + r - 2) r
    have hmod := Nat.mod_lt (q + r - 2) hr
    refine ⟨r * ((q + r - 2) / r) + 1, by omega, by omega, ?_⟩
    rw [Nat.coprime_mul_left_add_left]
    exact Nat.coprime_one_left r
  · have hone : r = 1 := by omega
    exact ⟨q, Nat.le_refl q, by omega, by rw [hone]; exact Nat.coprime_one_right q⟩

theorem spreadBody_iterate {q : Nat} : ∀ {i : Nat}, q + i < 2 ^ 32 → spreadBody^[i] q = q + i
  | 0, _ => rfl
  | i + 1, h => by
    rw [Function.iterate_succ_apply', spreadBody_iterate (by omega), spreadBody, Word.add_eq (by omega)]
    rfl

/-- The loop counts up to the first number coprime to `n`. -/
theorem spreadLoop_ends {n q c : Nat} (hq : q ≤ c) (hc : c < 2 ^ 32) (hcop : Nat.Coprime c n)
    (hfirst : ∀ i, q ≤ i → i < c → ¬Nat.Coprime i n) :
    Loop.Ends (spreadCond n) spreadBody (c - q) q c := by
  have hlast : spreadBody^[c - q] q = c := by
    rw [spreadBody_iterate (by omega)]
    omega
  have hcond : ∀ x, spreadCond n x ↔ ¬Nat.Coprime x n := fun x => by
    rw [spreadCond, getGcd_eq]
  have hends : Loop.Ends (spreadCond n) spreadBody (c - q) q (spreadBody^[c - q] q) := by
    refine Loop.ends_iterate (fun i hi => ?_) ?_
    · rw [hcond, spreadBody_iterate (by omega)]
      exact hfirst _ (by omega) (by omega)
    · rw [hlast, hcond, not_not]
      exact hcop
  rwa [hlast] at hends

theorem channelsRanks_pos (nchan nrank : Nat) : 0 < channelsRanks nchan nrank := by
  unfold channelsRanks
  refine Nat.mul_pos ?_ ?_ <;> split_ifs <;> omega

/-- **Spreading** ends at the least good size: both loops end, the outer one in fewer rounds than there
are channels and ranks, and the result is the least number of whole cache lines that holds the object
and is coprime to them. -/
theorem optimizeObjectSize_least {nchan nrank objSize : Nat}
    (hfits : ((objSize + 63) / rteMempoolAlign + channelsRanks nchan nrank) * rteMempoolAlign < 2 ^ 32) :
    (∀ a b, (∃ n, Loop.Ends gcdCond gcdBody n (gcdStart a b) (getGcd a b, 0)) ∧
        getGcd a b = Nat.gcd a b) ∧
      (∃ j < channelsRanks nchan nrank, ∃ c,
        Loop.Ends (spreadCond (spreadCount nchan nrank)) spreadBody j (firstLines objSize) c ∧
          optimizeObjectSize nchan nrank objSize = Word.mul 32 c rteMempoolAlign) ∧
      IsLeast {m | rteMempoolAlign ∣ m ∧ objSize ≤ m ∧
        Nat.Coprime (m / rteMempoolAlign) (channelsRanks nchan nrank)}
        (optimizeObjectSize nchan nrank objSize) := by
  refine ⟨getGcd_ends, ?_⟩
  have hline : rteMempoolAlign = 64 := rfl
  have hpos := channelsRanks_pos nchan nrank
  rw [hline] at hfits ⊢
  have hcount : spreadCount nchan nrank = channelsRanks nchan nrank := by
    have hlt : channelsRanks nchan nrank < 2 ^ 32 := by omega
    exact Nat.mod_eq_of_lt hlt
  have hq : firstLines objSize = (objSize + 63) / 64 := by
    rw [firstLines, hline, Word.add_eq (by omega)]
  obtain ⟨c, hqc, hct, hcop, hfirst⟩ :=
    exists_first (exists_coprime_of_consecutive hpos ((objSize + 63) / 64))
  have hval : optimizeObjectSize nchan nrank objSize = c * 64 := by
    rw [optimizeObjectSize_of_first (by omega) (by omega) hqc (by rwa [hcount])
      (by rwa [hcount])]
    exact Nat.mod_eq_of_lt (by omega)
  refine ⟨⟨c - (objSize + 63) / 64, by omega, c, ?_, ?_⟩, ?_, ?_⟩
  · rw [hcount, hq]
    exact spreadLoop_ends hqc (by omega) hcop hfirst
  · rw [hval, Word.mul_eq (by omega)]
  · rw [hval]
    refine ⟨Nat.dvd_mul_left 64 c, by omega, ?_⟩
    rwa [Nat.mul_div_cancel c (by decide)]
  · -- a smaller multiple would be an earlier candidate
    rintro m ⟨⟨k, rfl⟩, hobj, hk⟩
    rw [Nat.mul_div_cancel_left k (by decide)] at hk
    rw [hval]
    by_contra hlt
    exact hfirst k (by omega) (by omega) hk

/-- An object of four cache lines, four channels and two ranks. -/
theorem optimizeObjectSize_least_256 :
    IsLeast {m | rteMempoolAlign ∣ m ∧ 256 ≤ m ∧ Nat.Coprime (m / rteMempoolAlign) (channelsRanks 4 2)}
      (optimizeObjectSize 4 2 256) :=
  (optimizeObjectSize_least (by decide)).2.2

end Mempool
