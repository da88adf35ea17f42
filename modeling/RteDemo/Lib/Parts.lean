import Mathlib.Algebra.BigOperators.Group.Finset.Basic
import Mathlib.Data.Multiset.UnionInter
import Mathlib.Tactic.Common

/-!
# Things that are each in one place

The elements of `whole` are spread over the parts `part i`: each of them is in one part, and there
once. Elements move between parts, and new ones come in.
-/

open Finset

variable {α ι : Type*}

structure Parts (whole : Multiset α) (part : ι → Multiset α) : Prop where
  nodup : ∀ i, (part i).Nodup
  disjoint : ∀ ⦃i j⦄, i ≠ j → Disjoint (part i) (part j)
  mem_iff : ∀ x, x ∈ whole ↔ ∃ i, x ∈ part i

theorem disjoint_sum {S : Finset ι} {m : Multiset α} {part : ι → Multiset α} :
    Disjoint m (∑ i ∈ S, part i) ↔ ∀ i ∈ S, Disjoint m (part i) := by
  simp only [Multiset.disjoint_left, Multiset.mem_sum]
  constructor
  · intro h i hi x hx hxi
    exact h hx ⟨i, hi, hxi⟩
  · rintro h x hx ⟨i, hi, hxi⟩
    exact h i hi hx hxi

theorem sum_nodup_iff [DecidableEq ι] {S : Finset ι} {part : ι → Multiset α} :
    (∑ i ∈ S, part i).Nodup ↔ (∀ i ∈ S, (part i).Nodup) ∧
      ∀ i ∈ S, ∀ j ∈ S, i ≠ j → Disjoint (part i) (part j) := by
  induction S using Finset.induction_on with
  | empty => simp
  | insert a S ha ih =>
    rw [sum_insert ha, Multiset.nodup_add, ih, disjoint_sum]
    constructor
    · rintro ⟨hnodup, ⟨hall, hpair⟩, hdisj⟩
      refine ⟨fun i hi => ?_, fun i hi j hj hij => ?_⟩
      · rcases mem_insert.mp hi with rfl | hi
        · exact hnodup
        · exact hall i hi
      · rcases mem_insert.mp hi with rfl | hiS <;> rcases mem_insert.mp hj with rfl | hjS
        · exact absurd rfl hij
        · exact hdisj j hjS
        · exact (hdisj i hiS).symm
        · exact hpair i hiS j hjS hij
    · rintro ⟨hall, hpair⟩
      refine ⟨hall a (mem_insert_self a S), ⟨fun i hi => hall i (mem_insert_of_mem hi),
        fun i hi j hj => hpair i (mem_insert_of_mem hi) j (mem_insert_of_mem hj)⟩, fun i hi => ?_⟩
      exact hpair a (mem_insert_self a S) i (mem_insert_of_mem hi) fun h => ha (h ▸ hi)

namespace Parts

variable {whole : Multiset α} {part part' : ι → Multiset α}

theorem start : Parts (0 : Multiset α) fun _ : ι => 0 where
  nodup := fun _ => Multiset.nodup_zero
  disjoint := fun _ _ _ => Multiset.disjoint_left.mpr fun hx => absurd hx (Multiset.notMem_zero _)
  mem_iff := fun x => by simp

theorem mem (h : Parts whole part) {i : ι} {x : α} (hx : x ∈ part i) : x ∈ whole :=
  (h.mem_iff x).mpr ⟨i, hx⟩

/-- Each element is in exactly one part. -/
theorem exists_unique (h : Parts whole part) {x : α} (hx : x ∈ whole) : ∃! i, x ∈ part i := by
  obtain ⟨i, hi⟩ := (h.mem_iff x).mp hx
  refine ⟨i, hi, fun j hj => ?_⟩
  by_contra hne
  exact Multiset.disjoint_left.mp (h.disjoint hne) hj hi

variable [DecidableEq ι]

theorem nodup_sum (h : Parts whole part) (S : Finset ι) : (∑ i ∈ S, part i).Nodup :=
  sum_nodup_iff.mpr ⟨fun i _ => h.nodup i, fun _ _ _ _ hij => h.disjoint hij⟩

/-- Several parts together are no larger than the whole. -/
theorem card_le (h : Parts whole part) (S : Finset ι) : ∑ i ∈ S, (part i).card ≤ whole.card := by
  rw [← Multiset.card_sum]
  refine Multiset.card_le_card ((Multiset.le_iff_subset (h.nodup_sum S)).mpr fun x hx => ?_)
  obtain ⟨i, -, hi⟩ := Multiset.mem_sum.mp hx
  exact h.mem hi

/-- Elements move between the parts in `S`. -/
theorem move (h : Parts whole part) (S : Finset ι) (hsum : ∑ i ∈ S, part' i = ∑ i ∈ S, part i)
    (hother : ∀ i ∉ S, part' i = part i) : Parts whole part' := by
  obtain ⟨hnodup, hdisj⟩ := sum_nodup_iff.mp (hsum ▸ h.nodup_sum S)
  have hmem : ∀ {p q : ι → Multiset α} {i x}, ∑ i ∈ S, p i = ∑ i ∈ S, q i → i ∈ S → x ∈ p i →
      ∃ j ∈ S, x ∈ q j := by
    intro p q i x heq hi hx
    exact Multiset.mem_sum.mp (heq ▸ Multiset.mem_sum.mpr ⟨i, hi, hx⟩)
  -- what moved is in no part outside of `S`
  have hapart : ∀ i ∈ S, ∀ j ∉ S, Disjoint (part' i) (part' j) := by
    intro i hi j hj
    refine Multiset.disjoint_left.mpr fun {x} hx hxj => ?_
    obtain ⟨k, hk, hxk⟩ := hmem hsum hi hx
    have hkj : k ≠ j := fun heq => hj (heq ▸ hk)
    rw [hother j hj] at hxj
    exact Multiset.disjoint_left.mp (h.disjoint hkj) hxk hxj
  refine ⟨fun i => ?_, fun i j hij => ?_, fun x => ?_⟩
  · by_cases hi : i ∈ S
    · exact hnodup i hi
    · exact hother i hi ▸ h.nodup i
  · by_cases hi : i ∈ S
    · by_cases hj : j ∈ S
      · exact hdisj i hi j hj hij
      · exact hapart i hi j hj
    · by_cases hj : j ∈ S
      · exact (hapart j hj i hi).symm
      · rw [hother i hi, hother j hj]
        exact h.disjoint hij
  · rw [h.mem_iff x]
    constructor
    · rintro ⟨i, hi⟩
      by_cases hiS : i ∈ S
      · obtain ⟨j, -, hj⟩ := hmem hsum.symm hiS hi
        exact ⟨j, hj⟩
      · exact ⟨i, (hother i hiS).symm ▸ hi⟩
    · rintro ⟨i, hi⟩
      by_cases hiS : i ∈ S
      · obtain ⟨j, -, hj⟩ := hmem hsum hiS hi
        exact ⟨j, hj⟩
      · exact ⟨i, hother i hiS ▸ hi⟩

/-- A new element comes into part `i`. -/
theorem insert (h : Parts whole part) {i : ι} {x : α} (hx : x ∉ whole)
    (hi : part' i = part i + {x}) (hother : ∀ k ≠ i, part' k = part k) :
    Parts (whole + {x}) part' := by
  have hnew : ∀ k, x ∉ part k := fun k hk => hx (h.mem hk)
  have hmem : ∀ k y, y ∈ part' k ↔ y ∈ part k ∨ k = i ∧ y = x := by
    intro k y
    by_cases hk : k = i
    · rw [hk, hi, Multiset.mem_add, Multiset.mem_singleton]
      simp
    · rw [hother k hk]
      simp [hk]
  refine ⟨fun k => ?_, fun k l hkl => ?_, fun y => ?_⟩
  · by_cases hk : k = i
    · rw [hk, hi, Multiset.nodup_add]
      refine ⟨h.nodup i, Multiset.nodup_singleton x, Multiset.disjoint_left.mpr fun {y} hy hyx => ?_⟩
      exact hnew i (Multiset.mem_singleton.mp hyx ▸ hy)
    · exact hother k hk ▸ h.nodup k
  · refine Multiset.disjoint_left.mpr fun {y} hk hl => ?_
    rcases (hmem k y).mp hk with hk | ⟨hk, rfl⟩
    · rcases (hmem l y).mp hl with hl | ⟨-, rfl⟩
      · exact Multiset.disjoint_left.mp (h.disjoint hkl) hk hl
      · exact hnew k hk
    · rcases (hmem l y).mp hl with hl | ⟨hl, -⟩
      · exact hnew l hl
      · exact hkl (hk.trans hl.symm)
  · rw [Multiset.mem_add, Multiset.mem_singleton, h.mem_iff y]
    constructor
    · rintro (⟨k, hk⟩ | rfl)
      · exact ⟨k, (hmem k y).mpr (.inl hk)⟩
      · exact ⟨i, (hmem i y).mpr (.inr ⟨rfl, rfl⟩)⟩
    · rintro ⟨k, hk⟩
      exact ((hmem k y).mp hk).imp (fun hk => ⟨k, hk⟩) And.right

end Parts
