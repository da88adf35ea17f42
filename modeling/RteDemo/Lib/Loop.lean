import Mathlib.Logic.Function.Iterate
import Mathlib.Tactic.Common

/-!
# `while` loops

A loop is a condition and a body on a state. `Ends` says that it stops, after how many rounds and
where; `run` executes it for as long as the fuel lasts. They agree (`run_eq_some`), so a loop that never
stops is one for which no fuel is enough.
-/

namespace Loop

variable {σ : Type*} {cond : σ → Prop} {body : σ → σ}

/-- `while (cond) body` from `x` stops at `y` after `n` rounds. -/
inductive Ends (cond : σ → Prop) (body : σ → σ) : Nat → σ → σ → Prop
  | done {x} : ¬cond x → Ends cond body 0 x x
  | again {n x y} : cond x → Ends cond body n (body x) y → Ends cond body (n + 1) x y

/-- The loop, with fuel: `none` if it runs out. -/
def run (cond : σ → Prop) [DecidablePred cond] (body : σ → σ) : Nat → σ → Option σ
  | 0, _ => none
  | fuel + 1, x => if cond x then run cond body fuel (body x) else some x

theorem Ends.stopped {n : Nat} {x y : σ} (h : Ends cond body n x y) : ¬cond y := by
  induction h with
  | done hx => exact hx
  | again _ _ ih => exact ih

/-- A loop stops in one way only. -/
theorem Ends.unique {n m : Nat} {x y z : σ} (h : Ends cond body n x y) (h' : Ends cond body m x z) :
    n = m ∧ y = z := by
  induction h generalizing m z with
  | done hx =>
    cases h' with
    | done => exact ⟨rfl, rfl⟩
    | again hx' => exact absurd hx' hx
  | again hx _ ih =>
    cases h' with
    | done hx' => exact absurd hx hx'
    | again _ h' =>
      obtain ⟨rfl, rfl⟩ := ih h'
      exact ⟨rfl, rfl⟩

theorem run_of_ends [DecidablePred cond] {n fuel : Nat} {x y : σ} (h : Ends cond body n x y)
    (hfuel : n < fuel) : run cond body fuel x = some y := by
  induction h generalizing fuel with
  | done hx =>
    obtain ⟨fuel, rfl⟩ := Nat.exists_eq_add_of_lt hfuel
    rw [run, if_neg hx]
  | again hx _ ih =>
    cases fuel with
    | zero => exact absurd hfuel (Nat.not_lt_zero _)
    | succ fuel =>
      rw [run, if_pos hx]
      exact ih (Nat.lt_of_succ_lt_succ hfuel)

/-- Some fuel is enough for the loops that stop, and for no others. -/
theorem run_eq_some [DecidablePred cond] {x y : σ} :
    (∃ fuel, run cond body fuel x = some y) ↔ ∃ n, Ends cond body n x y := by
  constructor
  · rintro ⟨fuel, h⟩
    induction fuel generalizing x with
    | zero => exact nomatch h
    | succ fuel ih =>
      rw [run] at h
      split_ifs at h with hx
      · obtain ⟨n, hn⟩ := ih h
        exact ⟨n + 1, .again hx hn⟩
      · cases h
        exact ⟨0, .done hx⟩
  · rintro ⟨n, hn⟩
    exact ⟨n + 1, run_of_ends hn (Nat.lt_succ_self n)⟩

/-- A number that every round makes smaller bounds the rounds. -/
theorem ends_of_measure (f : σ → Nat) (hf : ∀ x, cond x → f (body x) < f x) (x : σ) :
    ∃ n ≤ f x, ∃ y, Ends cond body n x y := by
  have hall : ∀ k x, f x ≤ k → ∃ n ≤ f x, ∃ y, Ends cond body n x y := by
    intro k
    induction k with
    | zero =>
      intro x hk
      exact ⟨0, Nat.zero_le _, x, .done fun hx => by have := hf x hx; omega⟩
    | succ k ih =>
      intro x hk
      by_cases hx : cond x
      · have hlt := hf x hx
        obtain ⟨n, hn, y, hy⟩ := ih (body x) (by omega)
        exact ⟨n + 1, by omega, y, .again hx hy⟩
      · exact ⟨0, Nat.zero_le _, x, .done hx⟩
  exact hall (f x) x (Nat.le_refl _)

/-- What holds before the loop and after each round holds where it stops. -/
theorem Ends.invariant {I : σ → Prop} (hI : ∀ x, I x → cond x → I (body x)) {n : Nat} {x y : σ}
    (h : Ends cond body n x y) (hx : I x) : I y := by
  induction h with
  | done => exact hx
  | again hc _ ih => exact ih (hI _ hx hc)

/-- The loop stops at the first of the states it passes that does not meet the condition. -/
theorem ends_iterate {x : σ} : ∀ {n : Nat}, (∀ i < n, cond (body^[i] x)) → ¬cond (body^[n] x) →
    Ends cond body n x (body^[n] x)
  | 0, _, h => .done h
  | n + 1, hall, h => by
    refine .again (hall 0 (Nat.succ_pos n)) ?_
    rw [Function.iterate_succ_apply] at h ⊢
    exact ends_iterate (fun i hi => hall (i + 1) (Nat.succ_lt_succ hi)) h

/-- The loop never stops if all states it passes meet the condition. -/
theorem not_ends_of_iterate {x y : σ} {n : Nat} (hall : ∀ i, cond (body^[i] x)) : ¬Ends cond body n x y := by
  intro h
  have hstop := h.stopped
  have hy : ∃ i, y = body^[i] x := by
    clear hstop
    induction h with
    | done => exact ⟨0, rfl⟩
    | again _ _ ih =>
      obtain ⟨i, hi⟩ := ih fun i => hall (i + 1)
      exact ⟨i + 1, hi⟩
  obtain ⟨i, rfl⟩ := hy
  exact hstop (hall i)

end Loop
