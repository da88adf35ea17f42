import Mathlib.Logic.Function.Basic
import Mathlib.Tactic.Common

/-!
# The abstract read-write lock

Who holds a lock, and in which mode: `Holders T` gives every thread `free`, `read` or `write`. A
thread may take a read lock when nobody writes and a write lock when nobody holds the lock at all.
Every grant under these rules keeps the lock exclusive (`Holders.Exclusive`): a writer is alone.
-/

/-- How a thread holds a lock. -/
inductive Mode
  | free
  | read
  | write
  deriving DecidableEq, Repr

/-- The mode in which every thread holds the lock. -/
abbrev Holders (T : Type*) := T → Mode

namespace Holders

variable {T : Type*} {h : Holders T} {t u : T}

/-- Nobody writes: a read lock can be granted. -/
def CanRead (h : Holders T) : Prop := ∀ t, h t ≠ .write

/-- Nobody holds the lock: a write lock can be granted. -/
def CanWrite (h : Holders T) : Prop := ∀ t, h t = .free

/-- The guard under which mode `m` is granted. -/
def Grants (h : Holders T) : Mode → Prop
  | .free => True
  | .read => h.CanRead
  | .write => h.CanWrite

/-- A writer is the only holder. -/
def Exclusive (h : Holders T) : Prop := ∀ t u, h t = .write → u ≠ t → h u = .free

theorem exclusive_free : Exclusive (fun _ : T => Mode.free) := fun _ _ ht _ => by cases ht

theorem Exclusive.not_both (hx : h.Exclusive) (ht : h t = .write) (hu : h u = .read) : False := by
  have hne : u ≠ t := by
    rintro rfl
    rw [ht] at hu
    cases hu
  have := hx t u ht hne
  rw [hu] at this
  cases this

variable [DecidableEq T]

/-- A step of the abstract lock: a thread is granted mode `m`, or gives the lock back. -/
inductive Step : Holders T → Holders T → Prop
  | take {h : Holders T} (t : T) {m : Mode} : h.Grants m → Step h (Function.update h t m)

/-- A granted acquisition, or a release, keeps the lock exclusive. -/
theorem Exclusive.update {m : Mode} (hx : h.Exclusive) (hm : h.Grants m) :
    Exclusive (Function.update h t m) := by
  intro a b ha hb
  by_cases hat : a = t
  · subst hat
    rw [Function.update_self] at ha
    subst ha
    rw [Function.update_of_ne hb]
    exact hm b
  · rw [Function.update_of_ne hat] at ha
    by_cases hbt : b = t
    · subst hbt
      rw [Function.update_self]
      cases m with
      | free => rfl
      | read => exact absurd ha (hm a)
      | write => exact absurd ((hm a).symm.trans ha) (by decide)
    · rw [Function.update_of_ne hbt]
      exact hx a b ha hb

end Holders
