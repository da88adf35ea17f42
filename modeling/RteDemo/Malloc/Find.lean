import RteDemo.Malloc.Edit
import RteDemo.Malloc.StartPt

/-!
# `find_suitable_element` and `malloc_heap_alloc`

The search visits the free lists from the bucket of the request upwards. What it needs from the
addresses is `SearchExact`: no subtraction of `elem_start_pt` borrows for an element it visits. Then
the element it finds has room, and an allocation is one edit of the heap.
-/

namespace RteDemo

open Bytes Tiling

/-! ## The search loop -/

/-- The pages of the element at `elem` were asked for. -/
abbrev PageOK (s : HeapState) (flags elem : Nat) : Prop :=
  checkHugepageSz flags (s.memseg.getD (s.elem .ms elem) default).hugepageSz ≠ 0

section

variable (s : HeapState) (size flags align bound : Nat)

/-- The element at `elem` has room for the request, on pages that were asked for. -/
def suitable (elem : Nat) : Bool :=
  mallocElemCanHold s.mem elem size align bound && decide (PageOK s flags elem)

/-- No subtraction of `elem_start_pt` borrows for an element that the search visits. -/
def SearchExact : List Nat → Prop
  | [] => True
  | elem :: rest =>
    StartExact (elem + s.elem .size elem) size align bound ∧
      (suitable s size flags align bound elem = true ∨ SearchExact rest)

instance SearchExact.decidable : (l : List Nat) → Decidable (SearchExact s size flags align bound l)
  | [] => inferInstanceAs (Decidable True)
  | _ :: rest =>
    have := SearchExact.decidable rest
    inferInstanceAs (Decidable (_ ∧ (_ ∨ _)))

/-- Elements on any pages will do. -/
abbrev AnyPage : Prop := flags &&& rteMemzoneSizeHintOnly ≠ 0

end

section

variable {s : HeapState} {size flags align bound : Nat}

theorem suitable_iff {e : Nat} : suitable s size flags align bound e = true ↔
    mallocElemCanHold s.mem e size align bound = true ∧ PageOK s flags e := by
  rw [suitable, Bool.and_eq_true, decide_eq_true_iff]

theorem findLoop_nil (alt : Nat) :
    findSuitableElementLoop s size flags align bound [] alt =
      if alt ≠ 0 ∧ flags &&& rteMemzoneSizeHintOnly ≠ 0 then alt else 0 := rfl

theorem findLoop_cons (elem : Nat) (rest : List Nat) (alt : Nat) :
    findSuitableElementLoop s size flags align bound (elem :: rest) alt =
      if mallocElemCanHold s.mem elem size align bound then
        if PageOK s flags elem then elem
        else findSuitableElementLoop s size flags align bound rest (if alt = 0 then elem else alt)
      else findSuitableElementLoop s size flags align bound rest alt := rfl

/-- The search by its result: the first suitable element, else the first one with room if any pages
will do. -/
theorem findLoop_eq {l : List Nat} (hne : ∀ e ∈ l, e ≠ 0) (alt : Nat) :
    findSuitableElementLoop s size flags align bound l alt =
      (l.find? (suitable s size flags align bound)).getD
        (if AnyPage flags then
          if alt ≠ 0 then alt
          else (l.find? fun e => mallocElemCanHold s.mem e size align bound).getD 0
        else 0) := by
  induction l generalizing alt with
  | nil =>
    rw [findLoop_nil, List.find?_nil, List.find?_nil, Option.getD_none, Option.getD_none]
    by_cases ha : AnyPage flags
    · rw [if_pos ha]
      by_cases h0 : alt = 0
      · rw [if_neg (not_not.mpr h0)]
        exact ite_eq_right_iff.mpr fun h => absurd h0 h.1
      · rw [if_pos h0, if_pos ⟨h0, ha⟩]
    · rw [if_neg ha]
      exact if_neg fun h => ha h.2
  | cons e l ih =>
    have he := hne e List.mem_cons_self
    have ih := ih fun e' h => hne e' (List.mem_cons_of_mem _ h)
    rw [findLoop_cons]
    by_cases hcan : mallocElemCanHold s.mem e size align bound = true
    · rw [if_pos hcan, List.find?_cons_of_pos (p := fun e => mallocElemCanHold s.mem e size align bound) hcan]
      by_cases hpage : PageOK s flags e
      · rw [if_pos hpage, List.find?_cons_of_pos (suitable_iff.mpr ⟨hcan, hpage⟩), Option.getD_some]
      · -- room on other pages: keep the first such element
        rw [if_neg hpage, List.find?_cons_of_neg fun h => hpage (suitable_iff.mp h).2, ih]
        by_cases h0 : alt = 0
        · rw [if_pos h0, if_pos he, if_neg (not_not.mpr h0), Option.getD_some]
        · rw [if_neg h0, if_pos h0, if_pos h0]
    · -- no room: go on as before
      rw [if_neg hcan, List.find?_cons_of_neg (p := fun e => mallocElemCanHold s.mem e size align bound) hcan,
        List.find?_cons_of_neg fun h => hcan (suitable_iff.mp h).1]
      exact ih alt

theorem SearchExact.found {l : List Nat} (h : SearchExact s size flags align bound l) {e : Nat}
    (he : l.find? (suitable s size flags align bound) = some e) :
    StartExact (e + s.elem .size e) size align bound := by
  induction l with
  | nil => simp at he
  | cons x l ih =>
    obtain ⟨hx, hrest⟩ := h
    rw [List.find?_cons] at he
    cases hs : suitable s size flags align bound x
    · rw [hs] at he hrest
      exact ih (hrest.resolve_left (by simp)) he
    · rw [hs] at he
      exact Option.some.inj he ▸ hx

theorem SearchExact.all {l : List Nat} (h : SearchExact s size flags align bound l)
    (hn : l.find? (suitable s size flags align bound) = none) {e : Nat} (he : e ∈ l) :
    StartExact (e + s.elem .size e) size align bound := by
  induction l with
  | nil => simp at he
  | cons x l ih =>
    obtain ⟨hx, hrest⟩ := h
    rw [List.find?_eq_none] at hn
    rcases List.mem_cons.mp he with rfl | he
    · exact hx
    · exact ih (hrest.resolve_left (hn x List.mem_cons_self))
        (List.find?_eq_none.mpr fun e' h => hn e' (List.mem_cons_of_mem _ h)) he

/-- What the search returns. -/
theorem findLoop_spec {l : List Nat} (hne : ∀ e ∈ l, e ≠ 0)
    (hx : SearchExact s size flags align bound l) {e : Nat}
    (he : findSuitableElementLoop s size flags align bound l 0 = e) :
    (e ≠ 0 ∧ e ∈ l ∧ StartExact (e + s.elem .size e) size align bound ∧
        mallocElemCanHold s.mem e size align bound = true ∧
        (PageOK s flags e ∨ AnyPage flags ∧
          ∀ e' ∈ l, mallocElemCanHold s.mem e' size align bound = true → ¬ PageOK s flags e')) ∨
      (e = 0 ∧ ∀ e' ∈ l, StartExact (e' + s.elem .size e') size align bound ∧
        (mallocElemCanHold s.mem e' size align bound = true →
          ¬ PageOK s flags e' ∧ ¬ AnyPage flags)) := by
  rw [findLoop_eq hne] at he
  cases hf : l.find? (suitable s size flags align bound) with
  | some e' =>
    rw [hf, Option.getD_some] at he
    subst he
    have hmem := List.mem_of_find?_eq_some hf
    have hs := suitable_iff.mp (List.find?_some hf)
    exact .inl ⟨hne e' hmem, hmem, hx.found hf, hs.1, .inl hs.2⟩
  | none =>
    rw [hf, Option.getD_none] at he
    have hpage : ∀ e' ∈ l, mallocElemCanHold s.mem e' size align bound = true → ¬ PageOK s flags e' := by
      intro e' he' hc
      exact fun hp => List.find?_eq_none.mp hf e' he' (suitable_iff.mpr ⟨hc, hp⟩)
    by_cases ha : AnyPage flags
    · rw [if_pos ha, if_neg (not_not.mpr rfl)] at he
      cases hg : l.find? fun e => mallocElemCanHold s.mem e size align bound with
      | some e' =>
        rw [hg, Option.getD_some] at he
        subst he
        have hmem := List.mem_of_find?_eq_some hg
        have hc := List.find?_some hg
        exact .inl ⟨hne e' hmem, hmem, hx.all hf hmem, hc, .inr ⟨ha, hpage⟩⟩
      | none =>
        rw [hg, Option.getD_none] at he
        have hnone := List.find?_eq_none.mp hg
        exact .inr ⟨he.symm, fun e' he' => ⟨hx.all hf he', fun hc => absurd hc (hnone e' he')⟩⟩
    · rw [if_neg ha] at he
      exact .inr ⟨he.symm, fun e' he' => ⟨hx.all hf he', fun hc => ⟨hpage e' he' hc, ha⟩⟩⟩

end

/-! ## The elements the search goes through -/

theorem mallocElemFreeListIndex_lt (size : Nat) : mallocElemFreeListIndex size < 13 := by
  have hcap : ∀ i : Nat, (if i ≤ 13 - 1 then i else 13 - 1) < 13 := fun i => by split <;> omega
  unfold mallocElemFreeListIndex
  split
  · decide
  · exact hcap _

section

variable {s : HeapState} {ars : List Arena} {heap size flags align bound : Nat}

theorem HeapRep.mem_freeHead (h : HeapRep s ars) {idx x : Nat} :
    x ∈ (s.mallocHeaps heap).freeHead idx ↔ ∃ ar ∈ ars, ar.heap = heap ∧
      ∃ n, (x, ⟨n, .free⟩) ∈ place Elem.size ar.base ar.elems ∧
        mallocElemFreeListIndex (n - 64) = idx :=
  (h.listed heap idx).mem_iff.trans mem_freeAt

/-- The search sees the free elements of the heap from the bucket of the request on. -/
theorem HeapRep.mem_candidates (h : HeapRep s ars) {x : Nat} :
    x ∈ (s.mallocHeaps heap).candidates size ↔ ∃ ar ∈ ars, ar.heap = heap ∧
      ∃ n, (x, ⟨n, .free⟩) ∈ place Elem.size ar.base ar.elems ∧
        mallocElemFreeListIndex size ≤ mallocElemFreeListIndex (n - 64) := by
  simp only [MallocHeap.candidates, List.mem_flatMap, List.mem_range'_1, h.mem_freeHead,
    rteHeapNumFreelists]
  constructor
  · rintro ⟨idx, hidx, ar, har, hh, n, hn, hi⟩
    exact ⟨ar, har, hh, n, hn, by omega⟩
  · rintro ⟨ar, har, hh, n, hn, hi⟩
    have := mallocElemFreeListIndex_lt (n - 64)
    exact ⟨_, by omega, ar, har, hh, n, hn, rfl⟩

theorem HeapRep.candidate_ne_zero (h : HeapRep s ars) :
    ∀ x ∈ (s.mallocHeaps heap).candidates size, x ≠ 0 := by
  intro x hx
  obtain ⟨ar, har, -, n, hn, -⟩ := h.mem_candidates.mp hx
  have := (place_bounds Elem.size hn).1
  have := (h.wf ar har).pos
  simp only [Arena.frame] at this
  omega

end

/-! ## `malloc_heap_alloc` -/

theorem Edit.adjustCount {s s' : HeapState} {c : Focus} {D D' : List Elem} (h : Edit s s' c D D')
    (heap : Nat) (f : Nat → Nat) : Edit s (s'.adjustCount heap f) c D D' where
  rep := h.rep
  rep' := h.rep'.modifyHeap heap fun _ => rfl
  size := h.size
  memseg := h.memseg
  totalSize i := (s'.totalSize_adjustCount heap f i).trans (h.totalSize i)
  outside := h.outside

/-- The outcome of a successful allocation: the block at `ptr` is in the free element of `n` bytes
in the gap of `c`, its header `front` bytes in. -/
structure Allocated (s s' : HeapState) (heap size flags align bound ptr : Nat) (c : Focus)
    (n front : Nat) : Prop where
  heapEq : c.heap = heap
  edit : Edit s s' c [⟨n, .free⟩] (allocElems n front size)
  ptrEq : ptr = c.pos + front + 64
  frontDvd : 64 ∣ front
  fits : Fits c.pos n size align bound ptr
  page : PageOK s flags c.pos ∨ AnyPage flags ∧
    ∀ e' ∈ (s.mallocHeaps heap).candidates size,
      mallocElemCanHold s.mem e' size align bound = true → ¬ PageOK s flags e'
  counts : SameCounts (s.adjustCount heap fun k => Word.add 32 k 1) s'
  keep : ∀ x, (x < c.pos ∨ c.pos + 64 ≤ x) → (x < c.pos + front ∨ c.pos + front + 64 ≤ x) →
    (128 < trailer n front size → x < c.pos + front + size + 64 ∨ c.pos + front + size + 128 ≤ x) →
    (x < c.pos + n + 8 ∨ c.pos + n + 16 ≤ x) → s'.mem x = s.mem x

theorem Allocated.le {s s' : HeapState} {heap size flags align bound ptr : Nat} {c : Focus}
    {n front : Nat} (h : Allocated s s' heap size flags align bound ptr c n front) :
    front + size + 64 ≤ n := by
  have := h.fits.stop
  have := h.ptrEq
  omega

theorem mallocHeapAlloc_eq {s : HeapState} {heap size size' flags align align' bound e : Nat}
    (hsize : rteCacheLineRoundup 64 size = size') (halign : rteCacheLineRoundup 64 align = align')
    (he : findSuitableElement s heap size' flags align' bound = e) :
    mallocHeapAlloc s heap size flags align bound =
      if e ≠ 0 then
        ((mallocElemAlloc s e size' align' bound).1.adjustCount heap fun k => Word.add 32 k 1,
          if (mallocElemAlloc s e size' align' bound).2 = 0 then 0
          else rtePtrAdd (mallocElemAlloc s e size' align' bound).2 mallocElemHeaderLen)
      else (s, 0) := by
  subst hsize halign he
  rfl

/-- **`malloc_heap_alloc` on arenas**, for a rounded request: refused with nothing changed, or one
edit of the heap. -/
theorem HeapRep.heapAlloc {s : HeapState} {ars : List Arena} {heap size size' flags align align' bound : Nat}
    (h : HeapRep s ars) (hsize : rteCacheLineRoundup 64 size = size')
    (halign : rteCacheLineRoundup 64 align = align') (hs : 64 ∣ size') (ha : AlignOK align')
    (hb : BoundOK bound)
    (hx : SearchExact s size' flags align' bound ((s.mallocHeaps heap).candidates size')) :
    (mallocHeapAlloc s heap size flags align bound = (s, 0) ∧
        ∀ e ∈ (s.mallocHeaps heap).candidates size',
          StartExact (e + s.elem .size e) size' align' bound ∧
            (mallocElemCanHold s.mem e size' align' bound = true →
              ¬ PageOK s flags e ∧ ¬ AnyPage flags)) ∨
      ∃ c n front, ars = c.plug [⟨n, .free⟩] ∧
        Allocated s (mallocHeapAlloc s heap size flags align bound).1 heap size' flags align' bound
          (mallocHeapAlloc s heap size flags align bound).2 c n front := by
  obtain ⟨e, he⟩ : ∃ e, findSuitableElement s heap size' flags align' bound = e := ⟨_, rfl⟩
  have hcode := mallocHeapAlloc_eq hsize halign he
  rcases findLoop_spec h.candidate_ne_zero hx he with ⟨hne, hmem, hstart, hcan, hpage⟩ | ⟨h0, hnone⟩
  · rw [if_pos hne] at hcode
    obtain ⟨ar, har, hheap, n, hn, -⟩ := h.mem_candidates.mp hmem
    obtain ⟨c, hplug, hpos, hch, -, -⟩ := Focus.exists_plug har hn
    have hc := hplug ▸ h
    have htop := hc.top
    have h64 := hc.base_pos.trans (HeapRep.base_le_pos c)
    simp only [total_cons, total_nil] at htop
    obtain ⟨k, hk6, hk, rfl⟩ := ha
    subst hpos
    have hsz : s.elem .size c.pos = n := hc.single_hdr.size
    rw [hsz] at hstart
    have hstart0 : elemStartPt c.pos n size' (2 ^ k) bound ≠ 0 := by
      have hget : mallocElem.get .size s.mem c.pos = n := hsz
      simpa [mallocElemCanHold, hget] using hcan
    have hfits := elemStartPt_fits hk hb (by omega) (by omega) hstart hstart0
    have hhdr := hfits.header
    have hstop := hfits.stop
    simp only [mallocElemHeaderLen] at hhdr
    -- the header of the block sits `front` bytes into the element
    obtain ⟨front, hfront⟩ : ∃ front, elemStartPt c.pos n size' (2 ^ k) bound = c.pos + front :=
      Nat.exists_eq_add_of_le (by omega)
    have hfd : 64 ∣ front := by
      have h1 : 64 ∣ c.pos + front + 64 :=
        hfront ▸ (Nat.pow_dvd_pow 2 hk6).trans hfits.aligned
      have h2 := hc.pos_dvd
      omega
    have hle : front + size' + 64 ≤ n := by omega
    obtain ⟨-, hret, hcounts⟩ := hc.alloc hfront hle hfd hs
    have hedit := hc.alloc_edit hfront hle hfd hs
    have hkeep := fun x => hc.alloc_keep (x := x) hfront hle hfd hs
    generalize mallocElemAlloc s c.pos size' (2 ^ k) bound = r at hcode hret hcounts hedit hkeep
    have hptr : rtePtrAdd (c.pos + front) 64 = c.pos + front + 64 := rtePtrAdd_eq (by omega)
    rw [hret, if_neg (show c.pos + front ≠ 0 by omega), mallocElemHeaderLen, hptr] at hcode
    rw [hcode]
    refine .inr ⟨c, n, front, hplug, ?_⟩
    exact {
      heapEq := hch.trans hheap
      edit := hedit.adjustCount heap fun k => Word.add 32 k 1
      ptrEq := rfl
      frontDvd := hfd
      fits := hfront ▸ hfits
      page := hpage
      counts := hcounts.adjustCount heap fun k => Word.add 32 k 1
      keep := by
        rw [HeapState.adjustCount_mem]
        intro x h₁ h₂ h₃ h₄
        exact hkeep x h₁ h₂ h₃ h₄ }
  · rw [if_neg (not_not.mpr h0)] at hcode
    exact .inl ⟨hcode, hnone⟩

end RteDemo
