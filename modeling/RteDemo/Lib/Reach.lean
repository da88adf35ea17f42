import Mathlib.Logic.Relation
import Mathlib.Tactic.Common

/-!
# Runs of a transition system

`Reach init step x`: a run from an initial state leads to `x`. A property that holds initially and
that every step keeps holds in all reachable states (`Reach.invariant`); a second invariant may use
the first one on both sides of a step (`Reach.invariant_with`).
-/

/-- The states that runs lead to. -/
inductive Reach {σ : Type*} (init : σ → Prop) (step : σ → σ → Prop) : σ → Prop
  | start {x : σ} : init x → Reach init step x
  | next {x y : σ} : Reach init step x → step x y → Reach init step y

namespace Reach

variable {σ : Type*} {init init' : σ → Prop} {step step' : σ → σ → Prop}

/-- The invariant rule. -/
theorem invariant {I : σ → Prop} (hinit : ∀ x, init x → I x) (hstep : ∀ x y, I x → step x y → I y)
    {x : σ} (h : Reach init step x) : I x := by
  induction h with
  | start hx => exact hinit _ hx
  | next _ hs ih => exact hstep _ _ ih hs

/-- The invariant rule under another invariant. -/
theorem invariant_with {I J : σ → Prop} (hJ : ∀ x, Reach init step x → J x)
    (hinit : ∀ x, init x → I x) (hstep : ∀ x y, J x → J y → I x → step x y → I y)
    {x : σ} (h : Reach init step x) : I x := by
  induction h with
  | start hx => exact hinit _ hx
  | next hr hs ih => exact hstep _ _ (hJ _ hr) (hJ _ (.next hr hs)) ih hs

/-- Fewer initial states and fewer steps reach fewer states. -/
theorem mono (hinit : ∀ x, init x → init' x) (hstep : ∀ x y, step x y → step' x y) {x : σ}
    (h : Reach init step x) : Reach init' step' x := by
  induction h with
  | start hx => exact .start (hinit _ hx)
  | next _ hs ih => exact .next ih (hstep _ _ hs)

/-- A run goes on with any number of steps. -/
theorem steps {x y : σ} (h : Reach init step x) (hs : Relation.ReflTransGen step x y) :
    Reach init step y := by
  induction hs with
  | refl => exact h
  | tail _ hs ih => exact .next ih hs

end Reach
