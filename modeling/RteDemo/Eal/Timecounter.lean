import RteDemo.Lib.Word
import Mathlib.Logic.Basic

/-!
# The time counter does not drift

`rte_timecounter_update` adds the cycles since the last reading to nanoseconds and a fraction. Both of
its formulas for the difference, the plain one and the one for a counter that wrapped, give the cycles
that elapsed, for every width of the counter (`cycleDelta_eq`). One call keeps nanoseconds and fraction
together equal to what was there plus what elapsed (`update_total`), hence so does every sequence of calls,
and how the cycles were split into readings is lost (`timecounter_exact`).

A `cycle_last` that is no reading, a whole number of periods above the first one, is the exception: the formula
for the wrap then adds a period (`not_timecounter_exact`).
-/

namespace Timecounter

/-- `struct rte_timecounter` -/
structure RteTimecounter where
  cycleLast : Nat
  nsec : Nat
  nsecMask : Nat
  nsecFrac : Nat
  ccMask : Nat
  ccShift : Nat
  deriving DecidableEq

/-- `rte_cyclecounter_cycles_to_ns` -/
def rteCyclecounterCyclesToNs (tc : RteTimecounter) (cycles : Nat) : RteTimecounter × Nat :=
  let ns := Word.add 64 cycles tc.nsecFrac
  ({ tc with nsecFrac := ns &&& tc.nsecMask }, ns >>> tc.ccShift)

/-- `cycle_delta` of `rte_timecounter_update` -/
def cycleDelta (tc : RteTimecounter) (cycleNow : Nat) : Nat :=
  if tc.cycleLast ≤ cycleNow then Word.sub 64 cycleNow tc.cycleLast &&& tc.ccMask
  -- the counter has wrapped around
  else Word.add 64 (Word.not 64 (Word.sub 64 tc.cycleLast cycleNow) &&& tc.ccMask) 1

/-- `rte_timecounter_update` -/
def rteTimecounterUpdate (tc : RteTimecounter) (cycleNow : Nat) : RteTimecounter × Nat :=
  let (tc, nsOffset) := rteCyclecounterCyclesToNs tc (cycleDelta tc cycleNow)
  let tc := { tc with cycleLast := cycleNow }
  let tc := { tc with nsec := Word.add 64 tc.nsec nsOffset }
  (tc, tc.nsec)

/-- A sequence of calls, with what they returned. -/
def updates (tc : RteTimecounter) : List Nat → RteTimecounter × List Nat
  | [] => (tc, [])
  | c :: cs =>
    let (tc, ns) := rteTimecounterUpdate tc c
    let (tc, nss) := updates tc cs
    (tc, ns :: nss)

/-! ## What is meant -/

/-- Nanoseconds and fraction together, in cycles. -/
def RteTimecounter.total (tc : RteTimecounter) : Nat := tc.nsec * 2 ^ tc.ccShift + tc.nsecFrac

/-- The cycles from `a` to `b` on a `k`-bit counter: `(b - a) mod 2 ^ k`. -/
def elapsed (k a b : Nat) : Nat := (b + (2 ^ k - a % 2 ^ k)) % 2 ^ k

/-- The cycles over a sequence of readings that `a` comes before. -/
def elapsedSum (k : Nat) (a : Nat) : List Nat → Nat
  | [] => 0
  | c :: cs => elapsed k a c + elapsedSum k c cs

/-- The masks of a `k`-bit counter. -/
structure Config (k : Nat) (tc : RteTimecounter) : Prop where
  width : k ≤ 64
  /-- `>>` is defined for less than the width of the word. -/
  shift : tc.ccShift < 64
  ccMask : tc.ccMask = 2 ^ k - 1
  nsecMask : tc.nsecMask = 2 ^ tc.ccShift - 1
  last : tc.cycleLast < 2 ^ 64

/-- `cycle_last` is not a whole number of periods above the reading; no reading is. -/
def InPeriod (k : Nat) (tc : RteTimecounter) (c : Nat) : Prop :=
  c < tc.cycleLast → ¬2 ^ k ∣ tc.cycleLast - c

theorem inPeriod_of_lt {k : Nat} {tc : RteTimecounter} (h : tc.cycleLast < 2 ^ k) (c : Nat) : InPeriod k tc c :=
  fun hlt hdvd => absurd (Nat.le_of_dvd (by omega) hdvd) (by omega)

/-- The sums of one call fit 64 bits. -/
def SumsFit (tc : RteTimecounter) (cycleNow : Nat) : Prop :=
  cycleDelta tc cycleNow + tc.nsecFrac < 2 ^ 64 ∧
    tc.nsec + (rteCyclecounterCyclesToNs tc (cycleDelta tc cycleNow)).2 < 2 ^ 64

instance (tc : RteTimecounter) (cycleNow : Nat) : Decidable (SumsFit tc cycleNow) :=
  inferInstanceAs (Decidable (_ ∧ _))

/-- The sums of every call fit 64 bits. -/
def AllSumsFit (tc : RteTimecounter) : List Nat → Prop
  | [] => True
  | c :: cs => SumsFit tc c ∧ AllSumsFit (rteTimecounterUpdate tc c).1 cs

/-! ## One call -/

variable {k : Nat} {tc : RteTimecounter} {c : Nat}

/-- The complement below `2 ^ k` -/
theorem not_land_mask {d : Nat} (hk : k ≤ 64) (hd : d < 2 ^ 64) :
    Word.not 64 d &&& (2 ^ k - 1) = 2 ^ k - 1 - d % 2 ^ k := by
  have hmod := Nat.mod_lt d (Nat.two_pow_pos k)
  have hsplit : 2 ^ 64 = 2 ^ k * 2 ^ (64 - k) := by rw [← Nat.pow_add, Nat.add_sub_cancel' hk]
  have hdiv := Nat.div_add_mod d (2 ^ k)
  have hq : d / 2 ^ k < 2 ^ (64 - k) := Nat.div_lt_of_lt_mul (hsplit ▸ hd)
  obtain ⟨q, hq⟩ : ∃ q, 2 ^ (64 - k) = d / 2 ^ k + q + 1 := ⟨2 ^ (64 - k) - d / 2 ^ k - 1, by omega⟩
  rw [hq, Nat.mul_succ, Nat.mul_add] at hsplit
  have hnot : Word.not 64 d = (2 ^ k - 1 - d % 2 ^ k) + 2 ^ k * q := by
    rw [Word.not, Nat.mod_eq_of_lt hd]
    omega
  rw [Word.land_mask, hnot, Nat.add_mul_mod_self_left, Nat.mod_eq_of_lt (by omega)]

/-- A distance upwards is the remainder. -/
theorem elapsed_of_le {a b : Nat} (hle : a ≤ b) : elapsed k a b = (b - a) % 2 ^ k := by
  have hmod := Nat.mod_lt a (Nat.two_pow_pos k)
  have hdiv := Nat.div_add_mod a (2 ^ k)
  have hsum : b + (2 ^ k - a % 2 ^ k) = (b - a) + 2 ^ k * (a / 2 ^ k + 1) := by
    rw [Nat.mul_succ]
    omega
  rw [elapsed, hsum, Nat.add_mul_mod_self_left]

/-- A distance downwards is what its remainder leaves of a period. -/
theorem elapsed_of_gt {a b : Nat} (hlt : b < a) (hne : ¬2 ^ k ∣ a - b) :
    elapsed k a b = 2 ^ k - (a - b) % 2 ^ k := by
  have hpos := Nat.two_pow_pos k
  have hmod := Nat.mod_lt a hpos
  have hdiv := Nat.div_add_mod a (2 ^ k)
  have hrest := Nat.div_add_mod (a - b) (2 ^ k)
  have hlow : 0 < (a - b) % 2 ^ k := Nat.pos_of_ne_zero fun h => hne (Nat.dvd_of_mod_eq_zero h)
  have hhigh := Nat.mod_lt (a - b) hpos
  have hquot : (a - b) / 2 ^ k ≤ a / 2 ^ k := Nat.div_le_div_right (Nat.sub_le a b)
  obtain ⟨q, hq⟩ : ∃ q, a / 2 ^ k = (a - b) / 2 ^ k + q := ⟨a / 2 ^ k - (a - b) / 2 ^ k, by omega⟩
  have hsum : b + (2 ^ k - a % 2 ^ k) = (2 ^ k - (a - b) % 2 ^ k) + 2 ^ k * q := by
    rw [hq, Nat.mul_add] at hdiv
    omega
  rw [elapsed, hsum, Nat.add_mul_mod_self_left, Nat.mod_eq_of_lt (by omega)]

/-- Both formulas give the cycles that elapsed. -/
theorem cycleDelta_eq (hcfg : Config k tc) (hc : c < 2 ^ k) (hin : InPeriod k tc c) :
    cycleDelta tc c = elapsed k tc.cycleLast c := by
  have hpow : 2 ^ k ≤ 2 ^ 64 := Nat.pow_le_pow_right (by decide) hcfg.width
  have hlast := hcfg.last
  rw [cycleDelta, hcfg.ccMask]
  split_ifs with hle
  · rw [elapsed_of_le hle, Word.sub_eq hle (by omega), Word.land_mask]
  · have hdvd := hin (by omega)
    have hlow : 0 < (tc.cycleLast - c) % 2 ^ k :=
      Nat.pos_of_ne_zero fun h => hdvd (Nat.dvd_of_mod_eq_zero h)
    have hhigh := Nat.mod_lt (tc.cycleLast - c) (Nat.two_pow_pos k)
    rw [elapsed_of_gt (by omega) hdvd, Word.sub_eq (by omega) (by omega), not_land_mask hcfg.width (by omega),
      Word.add_eq (by omega)]
    omega

/-- A call keeps the masks and stores the reading. -/
theorem update_config (hcfg : Config k tc) (hc : c < 2 ^ k) :
    Config k (rteTimecounterUpdate tc c).1 :=
  ⟨hcfg.width, hcfg.shift, hcfg.ccMask, hcfg.nsecMask,
    hc.trans_le (Nat.pow_le_pow_right (by decide) hcfg.width)⟩

/-- A call adds what elapsed. -/
theorem update_total (hcfg : Config k tc) (hc : c < 2 ^ k) (hin : InPeriod k tc c) (hfit : SumsFit tc c) :
    (rteTimecounterUpdate tc c).1.total = tc.total + elapsed k tc.cycleLast c := by
  obtain ⟨hcycles, hnsec⟩ := hfit
  have hns : Word.add 64 (cycleDelta tc c) tc.nsecFrac = cycleDelta tc c + tc.nsecFrac :=
    Word.add_eq hcycles
  simp only [rteCyclecounterCyclesToNs, hns, Nat.shiftRight_eq_div_pow] at hnsec
  simp only [rteTimecounterUpdate, rteCyclecounterCyclesToNs, RteTimecounter.total, hns,
    Nat.shiftRight_eq_div_pow]
  rw [Word.add_eq hnsec, hcfg.nsecMask, Word.land_mask, Nat.add_mul, cycleDelta_eq hcfg hc hin]
  -- the quotient and the remainder of the shift are the whole
  have hsplit := Nat.div_add_mod (elapsed k tc.cycleLast c + tc.nsecFrac) (2 ^ tc.ccShift)
  rw [Nat.mul_comm] at hsplit
  omega

/-- The fraction that a call leaves is less than a nanosecond. -/
theorem update_frac (hcfg : Config k tc) (c : Nat) :
    (rteTimecounterUpdate tc c).1.nsecFrac < 2 ^ tc.ccShift := by
  simp only [rteTimecounterUpdate, rteCyclecounterCyclesToNs, hcfg.nsecMask, Word.land_mask]
  exact Nat.mod_lt _ (Nat.two_pow_pos _)

/-- A call returns the nanoseconds of its total. -/
theorem update_report (hcfg : Config k tc) (c : Nat) :
    (rteTimecounterUpdate tc c).2 = (rteTimecounterUpdate tc c).1.total / 2 ^ tc.ccShift := by
  have hfrac := update_frac hcfg c
  have htotal : (rteTimecounterUpdate tc c).1.total =
      (rteTimecounterUpdate tc c).1.nsecFrac + 2 ^ tc.ccShift * (rteTimecounterUpdate tc c).2 := by
    rw [Nat.mul_comm, Nat.add_comm]
    rfl
  rw [htotal, Nat.add_mul_div_left _ _ (Nat.two_pow_pos _), Nat.div_eq_of_lt hfrac, Nat.zero_add]

/-! ## Sequences -/

theorem updates_shift (tc : RteTimecounter) (cs : List Nat) : (updates tc cs).1.ccShift = tc.ccShift := by
  induction cs generalizing tc with
  | nil => rfl
  | cons c cs ih => exact ih (rteTimecounterUpdate tc c).1

theorem updates_total {cs : List Nat} (hcfg : Config k tc) (hcs : ∀ c ∈ cs, c < 2 ^ k)
    (hin : ∀ c ∈ cs.head?, InPeriod k tc c) (hfit : AllSumsFit tc cs) :
    (updates tc cs).1.total = tc.total + elapsedSum k tc.cycleLast cs := by
  induction cs generalizing tc with
  | nil => rfl
  | cons c cs ih =>
    have hc := hcs c List.mem_cons_self
    -- from now on the last reading is one
    have hrest := ih (update_config hcfg hc) (fun c' h => hcs c' (List.mem_cons_of_mem c h))
      (fun c' _ => inPeriod_of_lt hc c') hfit.2
    rw [update_total hcfg hc (hin c rfl) hfit.1, Nat.add_assoc] at hrest
    exact hrest

/-- The last call of a sequence returned the nanoseconds of the total. -/
theorem updates_report {cs : List Nat} (hcfg : Config k tc) (hcs : ∀ c ∈ cs, c < 2 ^ k) (hne : cs ≠ []) :
    (updates tc cs).2.getLast? = some ((updates tc cs).1.total / 2 ^ tc.ccShift) := by
  induction cs generalizing tc with
  | nil => exact absurd rfl hne
  | cons c cs ih =>
    cases cs with
    | nil => exact congrArg some (update_report hcfg c)
    | cons c' cs =>
      have hrest := ih (update_config hcfg (hcs c List.mem_cons_self))
        (fun x h => hcs x (List.mem_cons_of_mem c h)) (List.cons_ne_nil c' cs)
      refine Eq.trans ?_ hrest
      exact List.getLast?_cons_cons

/-- The readings of a counter whose true count goes through `ts`. -/
def readings (k : Nat) (ts : List Nat) : List Nat := ts.map (· % 2 ^ k)

/-- Counts in a row are less than one period apart. -/
def Within (k : Nat) : Nat → List Nat → Prop
  | _, [] => True
  | t, t' :: ts => t ≤ t' ∧ t' < t + 2 ^ k ∧ Within k t' ts

theorem elapsed_of_counts {t t' : Nat} (hle : t ≤ t') (hlt : t' < t + 2 ^ k) :
    elapsed k (t % 2 ^ k) (t' % 2 ^ k) = t' - t := by
  have hcounts := elapsed_of_le (k := k) hle
  rw [Nat.mod_eq_of_lt (by omega), elapsed] at hcounts
  rw [elapsed, Nat.mod_mod, Nat.mod_add_mod, hcounts]

theorem elapsedSum_mod (a : Nat) (cs : List Nat) : elapsedSum k (a % 2 ^ k) cs = elapsedSum k a cs := by
  cases cs with
  | nil => rfl
  | cons c cs => rw [elapsedSum, elapsedSum, elapsed, elapsed, Nat.mod_mod]

/-- The elapsed cycles add up to the distance of the last count from the first. -/
theorem elapsedSum_of_counts {ts : List Nat} : ∀ {t : Nat}, Within k t ts →
    t + elapsedSum k (t % 2 ^ k) (readings k ts) = (t :: ts).getLast (List.cons_ne_nil t ts) := by
  induction ts with
  | nil => exact fun _ => rfl
  | cons t' ts ih =>
    intro t ⟨hle, hlt, hrest⟩
    have hnext := ih hrest
    rw [List.getLast_cons (List.cons_ne_nil t' ts), ← hnext, readings, List.map_cons, elapsedSum,
      elapsed_of_counts hle hlt]
    change t + (t' - t + elapsedSum k (t' % 2 ^ k) (readings k ts)) = _
    omega

/-- What one sequence of readings leaves, and any other way to read the same cycles. -/
structure Exact (k : Nat) (tc : RteTimecounter) (cs : List Nat) : Prop where
  total : (updates tc cs).1.nsec * 2 ^ tc.ccShift + (updates tc cs).1.nsecFrac =
    tc.nsec * 2 ^ tc.ccShift + tc.nsecFrac + elapsedSum k tc.cycleLast cs
  /-- For the counts behind the readings the sum is the distance. -/
  true_elapsed : ∀ t ts, Within k t ts → t % 2 ^ k = tc.cycleLast % 2 ^ k → readings k ts = cs →
    t + elapsedSum k tc.cycleLast cs = (t :: ts).getLast (List.cons_ne_nil t ts)
  report : cs ≠ [] → (updates tc cs).2.getLast? =
    some ((tc.nsec * 2 ^ tc.ccShift + tc.nsecFrac + elapsedSum k tc.cycleLast cs) / 2 ^ tc.ccShift)
  /-- Readings of as many cycles report the same nanoseconds, however many there are. -/
  split : ∀ cs', cs ≠ [] → cs' ≠ [] → (∀ c ∈ cs', c < 2 ^ k) → (∀ c ∈ cs'.head?, InPeriod k tc c) →
    AllSumsFit tc cs' → elapsedSum k tc.cycleLast cs = elapsedSum k tc.cycleLast cs' →
      (updates tc cs).2.getLast? = (updates tc cs').2.getLast?

/-- **The time counter** is exact, for every width, every shift and every sequence of readings, from every state
whose `cycle_last` is not a whole number of periods above the first reading. -/
theorem timecounter_exact {cs : List Nat} (hcfg : Config k tc) (hcs : ∀ c ∈ cs, c < 2 ^ k)
    (hin : ∀ c ∈ cs.head?, InPeriod k tc c) (hfit : AllSumsFit tc cs) : Exact k tc cs := by
  have htotal : ∀ cs', (∀ c ∈ cs', c < 2 ^ k) → (∀ c ∈ cs'.head?, InPeriod k tc c) → AllSumsFit tc cs' →
      (updates tc cs').1.total =
        tc.nsec * 2 ^ tc.ccShift + tc.nsecFrac + elapsedSum k tc.cycleLast cs' :=
    fun cs' hcs' hin' hfit' => updates_total hcfg hcs' hin' hfit'
  have hreport : ∀ cs', cs' ≠ [] → (∀ c ∈ cs', c < 2 ^ k) → (∀ c ∈ cs'.head?, InPeriod k tc c) →
      AllSumsFit tc cs' → (updates tc cs').2.getLast? =
        some ((tc.nsec * 2 ^ tc.ccShift + tc.nsecFrac + elapsedSum k tc.cycleLast cs') / 2 ^ tc.ccShift) := by
    intro cs' hne hcs' hin' hfit'
    rw [updates_report hcfg hcs' hne, htotal cs' hcs' hin' hfit']
  refine ⟨?_, ?_, fun hne => hreport cs hne hcs hin hfit, ?_⟩
  · have h := htotal cs hcs hin hfit
    rwa [RteTimecounter.total, updates_shift] at h
  · intro t ts hwithin hlast hreadings
    rw [← elapsedSum_mod, ← hlast, ← hreadings]
    exact elapsedSum_of_counts hwithin
  · intro cs' hne hne' hcs' hin' hfit' hsum
    rw [hreport cs hne hcs hin hfit, hreport cs' hne' hcs' hin' hfit', hsum]

/-- An 8-bit counter that wraps twice, read three times. -/
theorem timecounter_exact_wrap :
    Exact 8 ⟨250, 7, 15, 9, 255, 4⟩ [4, 3, 200] :=
  timecounter_exact ⟨by decide, by decide, rfl, rfl, by decide⟩ (by decide)
    (fun c _ => inPeriod_of_lt (show 250 < 2 ^ 8 by decide) c) ⟨by decide, by decide, by decide, trivial⟩

/-- An 8-bit counter whose `cycle_last` is one period above the first reading: a period is added, and not zero. -/
theorem not_timecounter_exact : Config 8 ⟨259, 0, 0, 0, 255, 0⟩ ∧ AllSumsFit ⟨259, 0, 0, 0, 255, 0⟩ [3] ∧
    elapsed 8 259 3 = 0 ∧ (updates ⟨259, 0, 0, 0, 255, 0⟩ [3]).1.nsec = 256 ∧
    ¬Exact 8 ⟨259, 0, 0, 0, 255, 0⟩ [3] := by
  refine ⟨⟨by decide, by decide, rfl, rfl, by decide⟩, ⟨by decide, trivial⟩, by decide, by decide, fun h => ?_⟩
  exact absurd h.total (by decide)

end Timecounter
