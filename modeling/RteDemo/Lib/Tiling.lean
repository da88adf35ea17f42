import Mathlib.Algebra.Ring.Nat
import Mathlib.Tactic.Common
import Mathlib.Data.List.Pairwise

/-!
# Pieces laid end to end

A list of sized pieces placed from an address on, each starting where the one before it ends.
`place` gives every piece its address, `lastStart` the address of the last piece. Concatenation
is the basic fact: the second list starts `total` bytes further on.
-/

namespace Tiling

variable {α : Type*} (sz : α → Nat)

/-- The sum of the sizes. -/
def total (L : List α) : Nat := (L.map sz).sum

/-- The pieces with their addresses, the first one at `a`. -/
def place : Nat → List α → List (Nat × α)
  | _, [] => []
  | a, x :: L => (a, x) :: place (a + sz x) L

/-- The address of the last piece, or `d` if there is none. -/
def lastStart (d : Nat) : Nat → List α → Nat
  | _, [] => d
  | a, x :: L => lastStart a (a + sz x) L

@[simp] theorem total_nil : total sz [] = 0 := rfl
@[simp] theorem total_cons (x : α) (L : List α) : total sz (x :: L) = sz x + total sz L := by
  simp [total]
@[simp] theorem total_append (L R : List α) : total sz (L ++ R) = total sz L + total sz R := by
  simp [total]

@[simp] theorem place_nil (a : Nat) : place sz a [] = [] := rfl
@[simp] theorem place_cons (a : Nat) (x : α) (L : List α) :
    place sz a (x :: L) = (a, x) :: place sz (a + sz x) L := rfl

theorem place_append (L R : List α) (a : Nat) :
    place sz a (L ++ R) = place sz a L ++ place sz (a + total sz L) R := by
  induction L generalizing a with
  | nil => simp
  | cons x L ih => simp [ih, Nat.add_assoc]

@[simp] theorem lastStart_nil (d a : Nat) : lastStart sz d a [] = d := rfl
@[simp] theorem lastStart_cons (d a : Nat) (x : α) (L : List α) :
    lastStart sz d a (x :: L) = lastStart sz a (a + sz x) L := rfl

theorem lastStart_append (L R : List α) (d a : Nat) :
    lastStart sz d a (L ++ R) = lastStart sz (lastStart sz d a L) (a + total sz L) R := by
  induction L generalizing d a with
  | nil => simp
  | cons x L ih => simp [ih, Nat.add_assoc]

/-- A placed piece splits the list at its address. -/
theorem mem_place {L : List α} {a x : Nat} {p : α} :
    (x, p) ∈ place sz a L ↔ ∃ L₁ L₂, L = L₁ ++ p :: L₂ ∧ x = a + total sz L₁ := by
  induction L generalizing a with
  | nil => simp
  | cons y L ih =>
    rw [place_cons, List.mem_cons, ih]
    constructor
    · rintro (h | ⟨L₁, L₂, rfl, rfl⟩)
      · obtain ⟨rfl, rfl⟩ := Prod.mk.inj h
        exact ⟨[], L, rfl, rfl⟩
      · exact ⟨y :: L₁, L₂, rfl, by simp [Nat.add_assoc]⟩
    · rintro ⟨L₁, L₂, h, rfl⟩
      cases L₁ with
      | nil =>
        obtain ⟨rfl, rfl⟩ := List.cons.inj h
        exact .inl rfl
      | cons z L₁ =>
        obtain ⟨rfl, rfl⟩ := List.cons.inj h
        exact .inr ⟨L₁, L₂, rfl, by simp [Nat.add_assoc]⟩

theorem mem_of_mem_place {L : List α} {a x : Nat} {p : α} (h : (x, p) ∈ place sz a L) : p ∈ L := by
  obtain ⟨L₁, L₂, rfl, -⟩ := (mem_place sz).mp h
  simp

/-- A placed piece lies inside the tiled range. -/
theorem place_bounds {L : List α} {a x : Nat} {p : α} (h : (x, p) ∈ place sz a L) :
    a ≤ x ∧ x + sz p ≤ a + total sz L := by
  obtain ⟨L₁, L₂, rfl, rfl⟩ := (mem_place sz).mp h
  simp only [total_append, total_cons]
  omega

/-- Placed pieces come in address order and do not overlap. -/
theorem place_pairwise (L : List α) (a : Nat) :
    (place sz a L).Pairwise fun u v => u.1 + sz u.2 ≤ v.1 := by
  induction L generalizing a with
  | nil => exact List.Pairwise.nil
  | cons x L ih =>
    refine List.Pairwise.cons (fun v hv => ?_) (ih _)
    exact (place_bounds sz (x := v.1) (p := v.2) hv).1

theorem place_nodup {L : List α} (hpos : ∀ p ∈ L, 0 < sz p) (a : Nat) :
    ((place sz a L).map (·.1)).Nodup := by
  rw [List.Nodup, List.pairwise_map]
  refine (place_pairwise sz L a).imp_of_mem fun {u v} hu _ huv => ?_
  have h := hpos u.2 (mem_of_mem_place sz (x := u.1) hu)
  omega

end Tiling
