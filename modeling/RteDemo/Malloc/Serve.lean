import RteDemo.Malloc.Find

/-!
# When a heap serves a request

A heap can serve a request if the data fit into one of its free elements. The buckets of the free
lists are ordered like the sizes, so the search sees every element that has room, and as long as no
subtraction borrows a request is refused exactly when no element has room (`HeapRep.served_iff`).
-/

namespace RteDemo

open Bytes Tiling

/-! ## The buckets -/

theorem mallocElemFreeListIndex_mono {a b : Nat} (h : a ≤ b) (hb : b ≤ 2 ^ 64) :
    mallocElemFreeListIndex a ≤ mallocElemFreeListIndex b := by
  unfold mallocElemFreeListIndex
  by_cases ha8 : a ≤ 2 ^ 8
  · rw [if_pos ha8]
    exact Nat.zero_le _
  · have hlog : Nat.log2 (a - 1) ≤ Nat.log2 (b - 1) := by
      rw [Nat.log2_eq_log_two, Nat.log2_eq_log_two]
      exact Nat.log_mono_right (by omega)
    rw [if_neg ha8, if_neg (show ¬b ≤ 2 ^ 8 by omega)]
    have hcap : ∀ i j : Nat, i ≤ j →
        (if i ≤ 13 - 1 then i else 13 - 1) ≤ if j ≤ 13 - 1 then j else 13 - 1 := by
      intro i j hij
      split_ifs <;> omega
    refine hcap _ _ ?_
    unfold builtinClzl
    omega

/-! ## Room for a request -/

/-- Some free element of the heap has room for the request. -/
def CanServe (s : HeapState) (heap size align bound : Nat) : Prop :=
  ∃ idx, ∃ e ∈ (s.mallocHeaps heap).freeHead idx, ∃ d, Fits e (s.elem .size e) size align bound d

section

variable {s : HeapState} {ars : List Arena} {heap size size' flags align k bound : Nat}

/-- The header of a listed element. -/
theorem HeapRep.listed_elem (h : HeapRep s ars) {idx e : Nat} (he : e ∈ (s.mallocHeaps heap).freeHead idx) :
    ∃ ar ∈ ars, ar.heap = heap ∧ (e, ⟨s.elem .size e, .free⟩) ∈ place Elem.size ar.base ar.elems ∧
      0 < e ∧ e + s.elem .size e < 2 ^ 64 := by
  obtain ⟨ar, har, hheap, n, hn, -⟩ := h.mem_freeHead.mp he
  obtain ⟨c, rfl, rfl, -, -, -⟩ := Focus.exists_plug har hn
  have hsz : s.elem .size c.pos = n := h.single_hdr.size
  have htop := h.top
  have h64 := h.base_pos.trans (HeapRep.base_le_pos c)
  simp only [total_cons, total_nil] at htop
  rw [hsz]
  exact ⟨ar, har, hheap, hn, by omega, by omega⟩

/-- An element with room is one that the search sees, and it can hold the request. -/
theorem HeapRep.candidate_of_fits (h : HeapRep s ars) {idx e d : Nat}
    (he : e ∈ (s.mallocHeaps heap).freeHead idx) (hfit : Fits e (s.elem .size e) size (2 ^ k) bound d)
    (hk : k < 32) (hb : BoundOK bound) (hs : 0 < size) (hsb : bound = 0 ∨ size ≤ bound) :
    e ∈ (s.mallocHeaps heap).candidates size ∧
      (StartExact (e + s.elem .size e) size (2 ^ k) bound →
        mallocElemCanHold s.mem e size (2 ^ k) bound = true) := by
  obtain ⟨ar, har, hheap, hn, hpos, htop⟩ := h.listed_elem he
  have hhead := hfit.header
  have hstop := hfit.stop
  simp only [mallocElemHeaderLen] at hhead
  refine ⟨h.mem_candidates.mpr ⟨ar, har, hheap, _, hn, ?_⟩, fun hx => ?_⟩
  · exact mallocElemFreeListIndex_mono (by omega) (by omega)
  · have hne := (elemStartPt_complete hk hb hpos htop hx hs hsb hfit).1
    exact bne_iff_ne.mpr hne

/-- **When a request for any pages is refused.** -/
theorem HeapRep.served_iff (h : HeapRep s ars) (hk : k < 32) (hb : BoundOK bound) (hs : 0 < size)
    (hround : size + 63 < 2 ^ 64) (hsize : rteCacheLineRoundup 64 size = size')
    (hsb : bound = 0 ∨ size' ≤ bound) (hany : AnyPage flags ∨ ∀ e, PageOK s flags e)
    (hx : SearchExact s size' flags (2 ^ max k 6) bound ((s.mallocHeaps heap).candidates size')) :
    (mallocHeapAlloc s heap size flags (2 ^ k) bound).2 ≠ 0 ↔
      CanServe s heap size' (2 ^ max k 6) bound := by
  have heq := rteCacheLineRoundup_eq (by decide) hround
  rw [hsize] at heq
  have hspec := h.heapAlloc hsize (rteCacheLineRoundup_two_pow hk)
    (heq ▸ Nat.dvd_mul_right 64 _) ⟨_, Nat.le_max_right k 6, by omega, rfl⟩ hb hx
  constructor
  · intro hne
    rcases hspec with ⟨hcode, -⟩ | ⟨c, n, front, rfl, ha⟩
    · exact absurd (congrArg Prod.snd hcode) hne
    · have hsz : s.elem .size c.pos = n := h.single_hdr.size
      refine ⟨_, c.pos, h.mem_freeHead.mpr ⟨_, HeapRep.arena_mem c _, ha.heapEq, n, ?_, rfl⟩, _,
        hsz.symm ▸ ha.fits⟩
      exact (mem_place Elem.size).mpr ⟨c.left, c.right, by simp [Focus.arena], rfl⟩
  · rintro ⟨idx, e, he, d, hfit⟩
    obtain ⟨hmem, hcan⟩ := h.candidate_of_fits he hfit (by omega) hb (by omega) hsb
    rcases hspec with ⟨-, hnone⟩ | ⟨c, n', front, -, ha⟩
    · obtain ⟨hexact, hrefused⟩ := hnone e hmem
      obtain ⟨hpage, hnot⟩ := hrefused (hcan hexact)
      exact absurd (hany.resolve_left hnot e) hpage
    · have hptr := ha.ptrEq
      omega

/-- Without flags any pages will do. -/
theorem pageOK_zero (s : HeapState) (e : Nat) : PageOK s 0 e := by
  have hflags : checkHugepageSz 0 (s.memseg.getD (s.elem .ms e) default).hugepageSz = 1 :=
    if_pos (by decide)
  rw [PageOK, hflags]
  exact one_ne_zero

end

end RteDemo
