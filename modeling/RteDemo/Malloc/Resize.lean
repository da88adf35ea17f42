import RteDemo.Malloc.Free

/-!
# `malloc_elem_resize` on arenas

Growing in place takes over a free right neighbour and gives back what is not needed. The bytes the
block already held are not touched.
-/

namespace RteDemo

open Bytes Tiling

/-- The size of an element of `total` bytes after it was cut down to `newSize`, if that pays. -/
def cutSize (total newSize : Nat) : Nat := if 128 ≤ total - newSize then newSize else total

def cutRest (total newSize : Nat) : List Elem :=
  if 128 ≤ total - newSize then [⟨total - newSize, .free⟩] else []

theorem cutSize_add_rest {t newSize : Nat} (h : newSize ≤ t) :
    cutSize t newSize + total Elem.size (cutRest t newSize) = t := by
  unfold cutSize cutRest
  split_ifs <;> simp
  omega

theorem le_cutSize {t newSize : Nat} (h : newSize ≤ t) :
    newSize ≤ cutSize t newSize ∧ cutSize t newSize ≤ t := by
  unfold cutSize
  split_ifs <;> omega

/-- The outcome of growing an element of `n` bytes over a free neighbour of `k` bytes. -/
structure Grown (s s' : HeapState) (c : Focus) (n pad newSize k : Nat) (R : List Elem) : Prop where
  right : c.right = ⟨k, .free⟩ :: R
  lt : n < newSize
  le : newSize ≤ n + k
  rep : HeapRep s' (Focus.plug { c with right := R }
    (⟨cutSize (n + k) newSize, .busy pad⟩ :: cutRest (n + k) newSize))
  counts : SameCounts s s'
  keep : ∀ x, (x < c.pos + 48 ∨ c.pos + 56 ≤ x) → (x < c.pos + newSize ∨ c.pos + n + k ≤ x) →
    (x < c.pos + n + k + 8 ∨ c.pos + n + k + 16 ≤ x) → s'.mem x = s.mem x
  interior : ∀ x, c.pos + newSize + 64 ≤ x → x < c.pos + n + k → s'.mem x = s.mem x

section

variable {s : HeapState} {c : Focus} {n k pad newSize : Nat}

/-- Cutting a busy element down. -/
def cutElem (s : HeapState) (elem newSize : Nat) : HeapState :=
  mallocElemFreeListInsert (s.setMem (splitElem s.mem elem (elem + newSize))) (elem + newSize)

theorem resize_ok {pad n m : Nat} (h : (Elem.mk n (.busy pad)).OK) (hnm : n ≤ m) (hm : 64 ∣ m) :
    (Elem.mk m (.busy pad)).OK := by
  obtain ⟨-, hn, hpad, hle, hlt⟩ := h
  simp only at hn hle
  exact ⟨hm, by simp only; omega, hpad, by simp only; omega, hlt⟩

/-- The branch of the code that grows the element. -/
theorem HeapRep.grow {R : List Elem} (h : HeapRep s (c.plug [⟨n, .busy pad⟩]))
    (hright : c.right = ⟨k, .free⟩ :: R) (hlt : n < newSize) (hle : newSize ≤ n + k)
    (hd : 64 ∣ newSize) :
    Grown s (let s := (elemFreeListRemove s (c.pos + n)).setMem (joinElem s.mem c.pos (c.pos + n))
      if 128 ≤ n + k - newSize then cutElem s c.pos newSize else s) c n pad newSize k R := by
  have hplug : c.plug [⟨n, .busy pad⟩] =
      Focus.plug { c with right := R } [⟨n, .busy pad⟩, ⟨k, .free⟩] := by
    simp [Focus.plug, Focus.arena, hright]
  have hn := h.gap_ok _ List.mem_cons_self
  have hk : (Elem.mk k .free).OK := h.right_ok _ (hright ▸ List.mem_cons_self)
  have hnk : 64 ∣ n + k := Nat.dvd_add hn.dvd hk.dvd
  have h₀ := hplug ▸ h
  have hjoin := h₀.absorbNext (by simp)
  have hkeep : ∀ x, (x < c.pos + 48 ∨ c.pos + 56 ≤ x) →
      (x < c.pos + n + k + 8 ∨ c.pos + n + k + 16 ≤ x) →
      joinElem s.mem c.pos (c.pos + n) x = s.mem x := fun x hx hx' => h₀.joinElem_keep hx hx'
  have hcounts := (sameCounts_remove s (c.pos + n)).trans
    (sameCounts_setMem _ (joinElem s.mem c.pos (c.pos + n)))
  have hpos : Focus.pos { c with right := R } = c.pos := rfl
  rw [hpos] at hjoin
  by_cases hcut : 128 ≤ n + k - newSize
  · have hsum : newSize + (n + k - newSize) = n + k := by omega
    have hj := hjoin
    rw [← hsum] at hj
    have htrim := hj.trim (by simp) (resize_ok hn hlt.le hd)
      ⟨(Nat.dvd_add_right hd).mp (by rw [hsum]; exact hnk), by simp only; omega, trivial⟩
    have htkeep := fun x => hj.trim_keep (x := x) (by omega)
    rw [hpos] at htrim htkeep
    refine ⟨hright, hlt, hle, ?_, ?_, ?_, ?_⟩
    · rw [if_pos hcut, cutSize, cutRest, if_pos hcut, if_pos hcut]
      exact htrim
    · rw [if_pos hcut]
      exact (hcounts.trans (sameCounts_setMem _ _)).trans (sameCounts_insert _ _)
    · intro x hx hx' hx''
      rw [if_pos hcut]
      exact (htkeep x (by omega) (by omega) (by omega)).trans (hkeep x hx hx'')
    · intro x hx hx'
      rw [if_pos hcut]
      exact (htkeep x (by omega) (by omega) (by omega)).trans (hkeep x (by omega) (by omega))
  · refine ⟨hright, hlt, hle, ?_, ?_, ?_, ?_⟩
    · rw [if_neg hcut, cutSize, cutRest, if_neg hcut, if_neg hcut]
      exact hjoin
    · rw [if_neg hcut]
      exact hcounts
    · intro x hx _ hx''
      rw [if_neg hcut]
      exact hkeep x hx hx''
    · intro x hx hx'
      rw [if_neg hcut]
      exact hkeep x (by omega) (by omega)

/-- **`malloc_elem_resize` on arenas.** Either nothing changes, or the element grows. -/
theorem HeapRep.resize {size : Nat} (h : HeapRep s (c.plug [⟨n, .busy pad⟩]))
    (hset : ∀ e ∈ c.right, e.use ≠ .detached) (hd : 64 ∣ size) (hx : size + pad + 64 < 2 ^ 64) :
    (size + pad + 64 ≤ n ∧ mallocElemResize s c.pos size = (s, 0)) ∨
      (n < size + pad + 64 ∧ mallocElemResize s c.pos size = (s, -1)) ∨
      ((mallocElemResize s c.pos size).2 = 0 ∧
        ∃ k R, Grown s (mallocElemResize s c.pos size).1 c n pad (size + pad + 64) k R) := by
  have hok := h.gap_ok _ List.mem_cons_self
  have htop := h.top
  simp only [total_cons, total_nil] at htop
  have hsz : s.elem .size c.pos = n := h.single_hdr.size
  have hpad : s.elem .pad c.pos = pad := h.single_hdr.use.2.1
  have hnew : Word.add 64 (Word.add 64 size pad) 64 = size + pad + 64 := by
    rw [Word.add_eq (a := size) (by omega), Word.add_eq (by omega)]
  have hnext : rtePtrAdd c.pos n = c.pos + n := rtePtrAdd_eq (by omega)
  have hnewd : 64 ∣ size + pad + 64 := Nat.dvd_add (Nat.dvd_add hd hok.2.2.1) (Nat.dvd_refl 64)
  simp only [mallocElemResize, hsz, hpad, hnext, mallocElemOverhead, mallocElemHeaderLen,
    mallocElemTrailerLen, Nat.add_zero, hnew]
  by_cases hge : size + pad + 64 ≤ n
  · exact .inl ⟨hge, if_pos hge⟩
  rw [if_neg hge]
  refine .inr ?_
  by_cases hfree : s.elem .state (c.pos + n) = ElemState.free.val
  swap
  · exact .inl ⟨by omega, if_pos hfree⟩
  rw [if_neg (not_not.mpr hfree)]
  obtain ⟨k, R, hright⟩ := (h.next_state hset).mp hfree
  have hplug : c.plug [⟨n, .busy pad⟩] =
      Focus.plug { c with right := R } [⟨n, .busy pad⟩, ⟨k, .free⟩] := by
    simp [Focus.plug, Focus.arena, hright]
  have htop' := h.top
  simp only [hright, total_cons, total_nil] at htop'
  have hnsz : s.elem .size (c.pos + n) = k := (hplug ▸ h).gap_chain.2.1.size
  rw [hnsz, Word.add_eq (a := n) (by omega)]
  by_cases hlack : n + k < size + pad + 64
  · exact .inl ⟨by omega, if_pos hlack⟩
  rw [if_neg hlack]
  have hgrow := h.grow hright (show n < size + pad + 64 by omega) (by omega) hnewd
  have hjoin := (hplug ▸ h).absorbNext (by simp)
  have hjsz : ((elemFreeListRemove s (c.pos + n)).setMem
      (joinElem s.mem c.pos (c.pos + n))).elem .size c.pos = n + k := hjoin.single_hdr.size
  simp only [remove_mem, hjsz]
  rw [Word.sub_eq (by omega) (by omega)]
  have hposd : c.pos + (size + pad + 64) < 2 ^ 64 := by omega
  -- the split point is already a whole number of cache lines
  have hsplit : rteAlignFloor (rtePtrAdd (rtePtrAdd c.pos (size + pad + 64)) (rteCacheLineSize - 1))
      (rteCacheLineSize - 1) = c.pos + (size + pad + 64) := by
    rw [rtePtrAdd_eq hposd, rteCacheLineSize, rtePtrAdd_eq (by omega), rteAlignFloor_cacheLine (by omega)]
    obtain ⟨q, hq⟩ := Nat.dvd_add h.pos_dvd hnewd
    omega
  rw [hsplit]
  refine .inr ⟨?_, k, R, ?_⟩
  · split_ifs <;> rfl
  · by_cases hcut : 128 ≤ n + k - (size + pad + 64)
    · rw [if_pos hcut] at hgrow
      rw [if_pos (show n + k - (size + pad + 64) ≥ minDataSize + 64 from hcut)]
      exact hgrow
    · rw [if_neg hcut] at hgrow
      rw [if_neg (show ¬ n + k - (size + pad + 64) ≥ minDataSize + 64 from hcut)]
      exact hgrow

end

end RteDemo
