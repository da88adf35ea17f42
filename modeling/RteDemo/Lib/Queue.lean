import Mathlib.Data.List.Basic
import Mathlib.Tactic.Common

/-!
# Bounded FIFO queues

A queue of at most `cap` items. Items are added at the back and taken from the front, several at a
time; either all that were asked for or as many as fit (`Amount`).
-/

/-- How many items a call moves when it cannot move all. -/
inductive Amount
  | fixed
  | variable
  deriving DecidableEq, Repr

/-- The number of items moved, of `n` wanted, when there are `avail`. -/
def Amount.take (a : Amount) (n avail : Nat) : Nat :=
  if n ≤ avail then n
  else
    match a with
    | .fixed => 0
    | .variable => avail

theorem Amount.take_le (a : Amount) (n avail : Nat) : a.take n avail ≤ avail := by
  unfold take
  split
  · assumption
  · cases a
    · exact Nat.zero_le _
    · exact Nat.le_refl _

structure BoundedQueue (α : Type*) (cap : Nat) where
  items : List α
  le : items.length ≤ cap

namespace BoundedQueue

variable {α : Type*} {cap : Nat}

def empty : BoundedQueue α cap := ⟨[], Nat.zero_le _⟩

def length (q : BoundedQueue α cap) : Nat := q.items.length

/-- The number of items that still fit. -/
def room (q : BoundedQueue α cap) : Nat := cap - q.length

/-- The number of items that `push` adds. -/
def pushed (q : BoundedQueue α cap) (a : Amount) (n : Nat) : Nat := a.take n q.room

/-- The number of items that `pop` takes. -/
def popped (q : BoundedQueue α cap) (a : Amount) (n : Nat) : Nat := a.take n q.length

/-- Add the first items of `xs`. -/
def push (q : BoundedQueue α cap) (a : Amount) (n : Nat) (xs : Nat → α) : BoundedQueue α cap where
  items := q.items ++ (List.range (q.pushed a n)).map xs
  le := by
    have h := a.take_le n q.room
    have hq := q.le
    rw [List.length_append, List.length_map, List.length_range]
    unfold pushed
    unfold room length at h
    unfold room length
    omega

/-- Take items from the front. -/
def pop (q : BoundedQueue α cap) (a : Amount) (n : Nat) : BoundedQueue α cap where
  items := q.items.drop (q.popped a n)
  le := by
    have hq := q.le
    rw [List.length_drop]
    omega

/-- The table `t` with the items that `pop` takes at its front. -/
def taken (q : BoundedQueue α cap) (a : Amount) (n : Nat) (t : Nat → α) : Nat → α := fun i =>
  if i < q.popped a n then q.items.getD i (t i) else t i

theorem length_push (q : BoundedQueue α cap) (a : Amount) (n : Nat) (xs : Nat → α) :
    (q.push a n xs).length = q.length + q.pushed a n := by
  simp [push, length]

theorem length_pop (q : BoundedQueue α cap) (a : Amount) (n : Nat) :
    (q.pop a n).length = q.length - q.popped a n := by
  simp [pop, length]

theorem pushed_le (q : BoundedQueue α cap) (a : Amount) (n : Nat) :
    q.length + q.pushed a n ≤ cap := by
  have h := a.take_le n q.room
  have hq : q.length ≤ cap := q.le
  unfold pushed
  unfold room at h ⊢
  omega

theorem popped_le (q : BoundedQueue α cap) (a : Amount) (n : Nat) : q.popped a n ≤ q.length :=
  a.take_le n q.length

end BoundedQueue
