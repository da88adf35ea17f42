import RteDemo.Eal.NumPages
import RteDemo.Lib.Loop

/-!
# `rte_get_next_lcore`

The index goes up, or round when `wrap` is set, until it is past the table or on an lcore that may be
returned. Without `wrap` the loop ends, at the first eligible lcore; it starts past the end for an `i`
that is past it, and then returns no more than its successor. With `wrap` the index never leaves the
table: the loop ends at the cyclic successor when some lcore is eligible and not at all when none is.
-/

namespace EalLcore

open RteDemo EalMemory

/-- `enum rte_lcore_role_t` -/
inductive RteLcoreRole
  | rte
  | off
  | service
  deriving DecidableEq, Repr

/-- The lcores in `struct rte_config`. -/
structure RteConfig where
  masterLcore : Nat
  lcoreCount : Nat
  lcoreRole : Nat → RteLcoreRole

/-- `rte_lcore_is_enabled` -/
def rteLcoreIsEnabled (cfg : RteConfig) (lcoreId : Nat) : Bool :=
  if lcoreId ≥ rteMaxLcore then false else cfg.lcoreRole lcoreId == .rte

/-- `i++`, and `i %= RTE_MAX_LCORE` with `wrap`. -/
def nextIndex (wrap : Bool) (i : Nat) : Nat :=
  let i := Word.add 32 i 1
  if wrap = true then i % rteMaxLcore else i

/-- The loop goes on while it is in the table and has to skip. -/
def skipping (cfg : RteConfig) (skipMaster : Bool) (i : Nat) : Prop :=
  i < rteMaxLcore ∧ (rteLcoreIsEnabled cfg i = false ∨ skipMaster = true ∧ i = cfg.masterLcore)

instance (cfg : RteConfig) (skipMaster : Bool) : DecidablePred (skipping cfg skipMaster) :=
  fun _ => inferInstanceAs (Decidable (_ ∧ _))

/-- `rte_get_next_lcore`; `none` when the fuel does not last. -/
def rteGetNextLcore (cfg : RteConfig) (i : Nat) (skipMaster wrap : Bool) (fuel : Nat) : Option Nat :=
  Loop.run (skipping cfg skipMaster) (nextIndex wrap) fuel (nextIndex wrap i)

/-! ## What is meant -/

/-- An lcore that may be returned. -/
def Eligible (cfg : RteConfig) (skipMaster : Bool) (i : Nat) : Prop :=
  i < rteMaxLcore ∧ cfg.lcoreRole i = .rte ∧ (skipMaster = true → i ≠ cfg.masterLcore)

/-- The indices after `i`, in increasing order or round the table; `(unsigned)-1` is before `0`. -/
def indexAfter (i : Nat) (wrap : Bool) (n : Nat) : Nat :=
  if wrap = true then (i + 1 + n) % rteMaxLcore else Word.add 32 i 1 + n

/-- The first eligible lcore after `i`, or `RTE_MAX_LCORE` if there is none. -/
def IsNext (cfg : RteConfig) (i : Nat) (skipMaster wrap : Bool) (r : Nat) : Prop :=
  (∃ n, indexAfter i wrap n = r ∧ Eligible cfg skipMaster r ∧
      ∀ j < n, ¬Eligible cfg skipMaster (indexAfter i wrap j)) ∨
    r = rteMaxLcore ∧ ∀ n, ¬Eligible cfg skipMaster (indexAfter i wrap n)

/-- The loop ends, with the next lcore. -/
def EndsAtNext (cfg : RteConfig) (i : Nat) (skipMaster wrap : Bool) : Prop :=
  ∃ r, (∃ fuel, rteGetNextLcore cfg i skipMaster wrap fuel = some r) ∧ IsNext cfg i skipMaster wrap r

/-- With `wrap` some lcore is eligible; without, `i` is in the table or before it. -/
def NextDefined (cfg : RteConfig) (i : Nat) (skipMaster wrap : Bool) : Prop :=
  if wrap = true then ∃ lcore, Eligible cfg skipMaster lcore else i < rteMaxLcore ∨ i = 2 ^ 32 - 1

/-! ## The loop -/

section

variable {cfg : RteConfig} {i : Nat} {skipMaster wrap : Bool}

theorem skipping_iff {x : Nat} :
    skipping cfg skipMaster x ↔ x < rteMaxLcore ∧ ¬Eligible cfg skipMaster x := by
  unfold skipping Eligible rteLcoreIsEnabled
  by_cases hx : x < rteMaxLcore
  · rw [if_neg (Nat.not_le.mpr hx)]
    have hlt : x < 128 := hx
    cases cfg.lcoreRole x <;> simp [hlt]
  · simp only [hx, false_and]

theorem getNextLcore_eq_some {r : Nat} :
    (∃ fuel, rteGetNextLcore cfg i skipMaster wrap fuel = some r) ↔
      ∃ n, Loop.Ends (skipping cfg skipMaster) (nextIndex wrap) n (nextIndex wrap i) r :=
  Loop.run_eq_some

/-- The loop goes through the indices after `i`, without `wrap` up to the end of the table. -/
theorem nextIndex_iterate {n : Nat} (h : wrap = true ∨ indexAfter i wrap 0 + n ≤ rteMaxLcore) :
    (nextIndex wrap)^[n] (nextIndex wrap i) = indexAfter i wrap n := by
  have hmax : rteMaxLcore = 128 := rfl
  induction n with
  | zero =>
    simp only [Function.iterate_zero, id_eq, nextIndex, indexAfter, Word.add, hmax]
    split_ifs <;> omega
  | succ n ih =>
    rw [Function.iterate_succ_apply', ih (h.imp_right fun hle => by omega)]
    simp only [nextIndex, indexAfter, Word.add, hmax] at h ⊢
    split_ifs with hw
    · omega
    · rw [if_neg hw] at h
      have hle := h.resolve_left hw
      omega

/-- The first eligible index is where the loop ends. -/
theorem ends_of_first {n : Nat} (h : wrap = true ∨ indexAfter i wrap 0 + n ≤ rteMaxLcore)
    (hin : ∀ j < n, indexAfter i wrap j < rteMaxLcore)
    (hno : ∀ j < n, ¬Eligible cfg skipMaster (indexAfter i wrap j))
    (hlast : ¬skipping cfg skipMaster (indexAfter i wrap n)) :
    Loop.Ends (skipping cfg skipMaster) (nextIndex wrap) n (nextIndex wrap i) (indexAfter i wrap n) := by
  have hiter := nextIndex_iterate h
  rw [← hiter]
  refine Loop.ends_iterate (fun j hj => ?_) (by rwa [hiter])
  rw [nextIndex_iterate (h.imp_right fun hle => by omega), skipping_iff]
  exact ⟨hin j hj, hno j hj⟩

end

/-! ## Round the table -/

section

variable {cfg : RteConfig} {i : Nat} {skipMaster : Bool}

theorem indexAfter_wrap_lt (i n : Nat) : indexAfter i true n < rteMaxLcore :=
  Nat.mod_lt _ (by decide)

/-- Every index of the table comes after `i`. -/
theorem exists_indexAfter_wrap (i : Nat) {x : Nat} (hx : x < rteMaxLcore) : ∃ n, indexAfter i true n = x := by
  have hmax : rteMaxLcore = 128 := rfl
  refine ⟨x + 128 * (i + 1) - (i + 1), ?_⟩
  rw [indexAfter, if_pos rfl, hmax]
  rw [hmax] at hx
  omega

theorem endsAtNext_wrap (h : ∃ lcore, Eligible cfg skipMaster lcore) :
    EndsAtNext cfg i skipMaster true := by
  classical
  obtain ⟨lcore, hlcore⟩ := h
  have hex : ∃ n, Eligible cfg skipMaster (indexAfter i true n) := by
    obtain ⟨n, hn⟩ := exists_indexAfter_wrap i hlcore.1
    exact ⟨n, by rwa [hn]⟩
  have hfirst : ∀ j < Nat.find hex, ¬Eligible cfg skipMaster (indexAfter i true j) :=
    fun j hj => Nat.find_min hex hj
  have hlast := Nat.find_spec hex
  refine ⟨indexAfter i true (Nat.find hex), getNextLcore_eq_some.mpr ⟨Nat.find hex, ?_⟩,
    .inl ⟨_, rfl, hlast, hfirst⟩⟩
  exact ends_of_first (.inl rfl) (fun j _ => indexAfter_wrap_lt i j) hfirst
    (fun hskip => (skipping_iff.mp hskip).2 hlast)

/-- With nothing to return the index goes round for ever. -/
theorem not_endsAtNext_wrap (h : ¬∃ lcore, Eligible cfg skipMaster lcore) :
    ¬EndsAtNext cfg i skipMaster true := by
  rintro ⟨r, hr, -⟩
  obtain ⟨n, hn⟩ := getNextLcore_eq_some.mp hr
  refine Loop.not_ends_of_iterate (fun j => ?_) hn
  rw [nextIndex_iterate (.inl rfl), skipping_iff]
  exact ⟨indexAfter_wrap_lt i j, fun he => h ⟨_, he⟩⟩

/-! ## Up to the end -/

theorem endsAtNext_of_inside (hi : i < rteMaxLcore ∨ i = 2 ^ 32 - 1) :
    EndsAtNext cfg i skipMaster false := by
  classical
  have hmax : rteMaxLcore = 128 := rfl
  have hindex : ∀ n, indexAfter i false n = indexAfter i false 0 + n := fun n => rfl
  have hstart : indexAfter i false 0 ≤ rteMaxLcore := by
    simp only [indexAfter, Word.add, hmax] at hi ⊢
    rw [if_neg Bool.false_ne_true]
    omega
  by_cases hex : ∃ n, Eligible cfg skipMaster (indexAfter i false n)
  · have hlast := Nat.find_spec hex
    have hfirst : ∀ j < Nat.find hex, ¬Eligible cfg skipMaster (indexAfter i false j) :=
      fun j hj => Nat.find_min hex hj
    have hlt := hlast.1
    rw [hindex] at hlt
    refine ⟨indexAfter i false (Nat.find hex), getNextLcore_eq_some.mpr ⟨Nat.find hex, ?_⟩,
      .inl ⟨_, rfl, hlast, hfirst⟩⟩
    refine ends_of_first (.inr (by omega)) (fun j hj => ?_) hfirst
      (fun hskip => (skipping_iff.mp hskip).2 hlast)
    rw [hindex]
    omega
  · -- the end of the table is where the loop stops
    have hno : ∀ n, ¬Eligible cfg skipMaster (indexAfter i false n) := fun n he => hex ⟨n, he⟩
    have hend : indexAfter i false (rteMaxLcore - indexAfter i false 0) = rteMaxLcore := by
      rw [hindex]
      omega
    have hends : Loop.Ends (skipping cfg skipMaster) (nextIndex false)
        (rteMaxLcore - indexAfter i false 0) (nextIndex false i)
        (indexAfter i false (rteMaxLcore - indexAfter i false 0)) := by
      refine ends_of_first (.inr (by omega)) (fun j hj => ?_) (fun j _ => hno j) (fun hskip => ?_)
      · rw [hindex]
        omega
      · exact absurd (skipping_iff.mp hskip).1 (by rw [hend]; exact Nat.lt_irrefl _)
    rw [hend] at hends
    exact ⟨rteMaxLcore, getNextLcore_eq_some.mpr ⟨_, hends⟩, .inr ⟨rfl, hno⟩⟩

/-- From past the end the loop does not start, and the index is not `RTE_MAX_LCORE`. -/
theorem not_endsAtNext_of_past (hi : rteMaxLcore ≤ i) (hi' : i < 2 ^ 32 - 1) :
    ¬EndsAtNext cfg i skipMaster false := by
  have hmax : rteMaxLcore = 128 := rfl
  have hstart : nextIndex false i = i + 1 := Word.add_eq (by omega)
  rintro ⟨r, hr, hnext⟩
  obtain ⟨n, hn⟩ := getNextLcore_eq_some.mp hr
  rw [hstart] at hn
  have hstop : ¬skipping cfg skipMaster (i + 1) := fun hskip => absurd hskip.1 (by omega)
  obtain ⟨-, rfl⟩ := hn.unique (.done hstop)
  rcases hnext with ⟨-, -, hel, -⟩ | ⟨heq, -⟩
  · exact absurd hel.1 (by omega)
  · omega

end

/-- **`rte_get_next_lcore`** ends with the next lcore exactly when, with `wrap`, some lcore is eligible
and, without, `i` is in the table or the number before it. -/
theorem endsAtNext_iff (cfg : RteConfig) {i : Nat} (hi : i < 2 ^ 32) (skipMaster wrap : Bool) :
    EndsAtNext cfg i skipMaster wrap ↔ NextDefined cfg i skipMaster wrap := by
  cases wrap with
  | true => exact ⟨fun h => by_contra fun hno => not_endsAtNext_wrap hno h, endsAtNext_wrap⟩
  | false =>
    refine ⟨fun h => ?_, endsAtNext_of_inside⟩
    rcases Nat.lt_or_ge i rteMaxLcore with hlt | hge
    · exact .inl hlt
    · by_cases htop : i = 2 ^ 32 - 1
      · exact .inr htop
      · exact absurd h (not_endsAtNext_of_past hge (by omega))

/-- Four lcores, the second of them the master. -/
def fourLcores : RteConfig := ⟨1, 4, fun i => if i < 4 then .rte else .off⟩

theorem endsAtNext_iff_four : EndsAtNext fourLcores 3 true true ↔ NextDefined fourLcores 3 true true :=
  endsAtNext_iff fourLcores (by decide) true true

/-- No lcore but the master. -/
def onlyMaster : RteConfig := ⟨0, 1, fun i => if i = 0 then .rte else .off⟩

/-- Looking for a slave round the table, with no slave there. -/
theorem not_endsAtNext_onlyMaster : ¬EndsAtNext onlyMaster 0 true true := by
  refine not_endsAtNext_wrap ?_
  rintro ⟨lcore, -, hrole, hne⟩
  have hzero : lcore = 0 := by
    by_contra h
    simp [onlyMaster, h] at hrole
  exact hne rfl hzero

end EalLcore
