import RteDemo.Malloc.Serve

/-!
# The buckets of the free lists

Bucket `0` holds sizes up to `2 ^ 8`, bucket `k` the sizes above `2 ^ (8 + 2 (k - 1))` and up to
`2 ^ (8 + 2 k)`, and the last one everything above `2 ^ 30` (`freeListIndex_buckets`). Elements are
listed by their capacity and searched for from the bucket of the request on, so the search visits every
element with enough of it.
-/

namespace RteDemo

/-- The index before the clamp: half the rounded-up logarithm, above the smallest size. -/
theorem freeListIndex_raw {size : Nat} (h : 2 ^ 8 < size) (htop : size ≤ 2 ^ 64) :
    ∃ k, (64 - builtinClzl (size - 1) - 8 + 2 - 1) / 2 = k ∧ 1 ≤ k ∧ 2 ^ (6 + 2 * k) < size ∧
      size ≤ 2 ^ (8 + 2 * k) := by
  have hne : size - 1 ≠ 0 := by omega
  have h8 : 8 ≤ Nat.log2 (size - 1) := (Nat.le_log2 hne).mpr (by omega)
  have h64 : Nat.log2 (size - 1) < 64 := (Nat.log2_lt hne).mpr (by omega)
  have hlo : 2 ^ Nat.log2 (size - 1) ≤ size - 1 := Nat.log2_self_le hne
  have hhi : size - 1 < 2 ^ (Nat.log2 (size - 1) + 1) := (Nat.log2_lt hne).mp (Nat.lt_succ_self _)
  unfold builtinClzl
  generalize Nat.log2 (size - 1) = l at *
  refine ⟨(l - 6) / 2, by omega, by omega, ?_, ?_⟩
  · have hle : 2 ^ (6 + 2 * ((l - 6) / 2)) ≤ 2 ^ l := Nat.pow_le_pow_right (by decide) (by omega)
    omega
  · have hle : 2 ^ (l + 1) ≤ 2 ^ (8 + 2 * ((l - 6) / 2)) := Nat.pow_le_pow_right (by decide) (by omega)
    omega

/-- An exponent is found between two powers only. -/
theorem bucket_unique {size j k : Nat} (hj : 2 ^ (6 + 2 * j) < size) (hj' : size ≤ 2 ^ (8 + 2 * j))
    (hk : 2 ^ (6 + 2 * k) < size) (hk' : size ≤ 2 ^ (8 + 2 * k)) : j = k := by
  have hlt := (Nat.pow_lt_pow_iff_right (by decide : 1 < 2)).mp (hj.trans_le hk')
  have hlt' := (Nat.pow_lt_pow_iff_right (by decide : 1 < 2)).mp (hk.trans_le hj')
  omega

theorem freeListIndex_zero {size : Nat} (htop : size < 2 ^ 64) :
    mallocElemFreeListIndex size = 0 ↔ size ≤ 2 ^ 8 := by
  unfold mallocElemFreeListIndex
  by_cases h8 : size ≤ 2 ^ 8
  · rw [if_pos h8]
    exact iff_of_true rfl h8
  · obtain ⟨k, hk, hk1, -, -⟩ := freeListIndex_raw (Nat.lt_of_not_le h8) htop.le
    rw [if_neg h8]
    simp only [hk, rteHeapNumFreelists]
    refine iff_of_false ?_ h8
    split_ifs
    · omega
    · decide

/-- Where the index is below the clamp. -/
theorem freeListIndex_mid {size k : Nat} (htop : size < 2 ^ 64) (hk : 1 ≤ k) (hk' : k ≤ 11) :
    mallocElemFreeListIndex size = k ↔ 2 ^ (8 + 2 * (k - 1)) < size ∧ size ≤ 2 ^ (8 + 2 * k) := by
  have hexp : 8 + 2 * (k - 1) = 6 + 2 * k := by omega
  rw [hexp]
  by_cases h8 : size ≤ 2 ^ 8
  · have hpow : 2 ^ 8 ≤ 2 ^ (6 + 2 * k) := Nat.pow_le_pow_right (by decide) (by omega)
    rw [(freeListIndex_zero htop).mpr h8]
    exact iff_of_false (by omega) (by omega)
  · obtain ⟨j, hj, -, hlo, hhi⟩ := freeListIndex_raw (Nat.lt_of_not_le h8) htop.le
    unfold mallocElemFreeListIndex
    rw [if_neg h8]
    simp only [hj, rteHeapNumFreelists]
    constructor
    · intro h
      have hjk : j = k := by
        split_ifs at h <;> omega
      exact hjk ▸ ⟨hlo, hhi⟩
    · rintro ⟨hlo', hhi'⟩
      rw [bucket_unique hlo hhi hlo' hhi', if_pos (by omega)]

theorem freeListIndex_last {size : Nat} (htop : size < 2 ^ 64) :
    mallocElemFreeListIndex size = 12 ↔ 2 ^ 30 < size := by
  by_cases h8 : size ≤ 2 ^ 8
  · rw [(freeListIndex_zero htop).mpr h8]
    exact iff_of_false (by decide) (by omega)
  · obtain ⟨j, hj, -, hlo, hhi⟩ := freeListIndex_raw (Nat.lt_of_not_le h8) htop.le
    have hiff : 12 ≤ j ↔ 2 ^ 30 < size := by
      constructor
      · intro h12
        exact (Nat.pow_le_pow_right (by decide) (by omega)).trans_lt hlo
      · intro h30
        have hlt := (Nat.pow_lt_pow_iff_right (by decide : 1 < 2)).mp (h30.trans_le hhi)
        omega
    unfold mallocElemFreeListIndex
    rw [if_neg h8, ← hiff]
    simp only [hj, rteHeapNumFreelists]
    split_ifs <;> omega

/-- An element that is put on its list is one that the search for no more than its capacity visits. -/
theorem inserted_visited (s : HeapState) {e size : Nat}
    (h : size ≤ Word.sub 64 (s.elem .size e) mallocElemHeaderLen) :
    e ∈ ((mallocElemFreeListInsert s e).mallocHeaps
      ((mallocElemFreeListInsert s e).elem .heap e)).candidates size := by
  have hmono := mallocElemFreeListIndex_mono h (Word.sub_lt 64 _ _).le
  have hlt := mallocElemFreeListIndex_lt (Word.sub 64 (s.elem .size e) mallocElemHeaderLen)
  refine List.mem_flatMap.mpr ⟨_, List.mem_range'_1.mpr ⟨hmono, by simp only [rteHeapNumFreelists]; omega⟩, ?_⟩
  have hlist : ((mallocElemFreeListInsert s e).mallocHeaps
      ((mallocElemFreeListInsert s e).elem .heap e)).freeHead
        (mallocElemFreeListIndex (Word.sub 64 (s.elem .size e) mallocElemHeaderLen)) =
      e :: ((s.setMem (mallocElem.set .state s.mem e ElemState.free.val)).mallocHeaps
        ((mallocElemFreeListInsert s e).elem .heap e)).freeHead
          (mallocElemFreeListIndex (Word.sub 64 (s.elem .size e) mallocElemHeaderLen)) := by
    simp only [mallocElemFreeListInsert, HeapState.elem, HeapState.modifyHeap_mem, HeapState.modifyHeap_self,
      Function.update_self]
  rw [hlist]
  exact List.mem_cons_self

/-- **The buckets.** Every size has one, with the documented bounds, and greater sizes do not have
smaller buckets; an element listed under a capacity of at least `size` is visited by the search for
`size` bytes. -/
theorem freeListIndex_buckets :
    (∀ size < 2 ^ 64, mallocElemFreeListIndex size < rteHeapNumFreelists ∧
      (mallocElemFreeListIndex size = 0 ↔ size ≤ 2 ^ 8) ∧
      (∀ k, 1 ≤ k → k ≤ 11 → (mallocElemFreeListIndex size = k ↔
        2 ^ (8 + 2 * (k - 1)) < size ∧ size ≤ 2 ^ (8 + 2 * k))) ∧
      (mallocElemFreeListIndex size = 12 ↔ 2 ^ 30 < size)) ∧
    (∀ a b, a ≤ b → b < 2 ^ 64 → mallocElemFreeListIndex a ≤ mallocElemFreeListIndex b) ∧
    ∀ (s : HeapState) (e size : Nat), size ≤ Word.sub 64 (s.elem .size e) mallocElemHeaderLen →
      e ∈ ((mallocElemFreeListInsert s e).mallocHeaps
        ((mallocElemFreeListInsert s e).elem .heap e)).candidates size :=
  ⟨fun size htop => ⟨mallocElemFreeListIndex_lt size, freeListIndex_zero htop,
      fun _ hk hk' => freeListIndex_mid htop hk hk', freeListIndex_last htop⟩,
    fun _ _ h hb => mallocElemFreeListIndex_mono h hb.le, fun s _ _ h => inserted_visited s h⟩

example : mallocElemFreeListIndex (2 ^ 12) = 2 ∧ mallocElemFreeListIndex (2 ^ 12 + 1) = 3 := by decide

end RteDemo
