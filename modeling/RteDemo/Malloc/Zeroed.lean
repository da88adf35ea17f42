import RteDemo.Malloc.Isolation

/-!
# Free memory is zero

`rte_zmalloc` does not clear the block it returns. It relies on `malloc_elem_free`, which clears the
data of the block and every header that comes to lie inside of a free element, so that behind its own
header a free element is zero (`FreeZero`). Padding, splitting and growing in place leave headers
behind in busy elements only, until the next free.

With memsegs that are zero at the start this holds in every run in which nothing wraps
(`free_memory_zero`), and what an allocation hands out is zero (`alloc_zero`).
-/

namespace RteDemo

open Bytes Tiling

/-- Behind its header, every free element is zero. -/
def FreeZero (m : Mem) (ars : List Arena) : Prop :=
  ∀ a n, (a, ⟨n, .free⟩) ∈ placed ars → ∀ x, a + 64 ≤ x → x < a + n → m x = 0

/-- The same, read off the free lists and the headers. -/
def HeapState.FreeCleared (s : HeapState) : Prop :=
  ∀ heap idx, ∀ e ∈ (s.mallocHeaps heap).freeHead idx,
    ∀ x, e + mallocElemHeaderLen ≤ x → x < e + s.elem .size e → s.mem x = 0

theorem HeapRep.freeCleared_iff {s : HeapState} {ars : List Arena} (h : HeapRep s ars) :
    s.FreeCleared ↔ FreeZero s.mem ars := by
  constructor
  · intro hc a n hm x hx hx'
    obtain ⟨ar, har, hin⟩ := mem_placed.mp hm
    have hlisted : a ∈ (s.mallocHeaps ar.heap).freeHead (mallocElemFreeListIndex (n - 64)) :=
      h.mem_freeHead.mpr ⟨ar, har, rfl, n, hin, rfl⟩
    obtain ⟨c, rfl, rfl, -, -, -⟩ := Focus.exists_plug har hin
    have hsz : s.elem .size c.pos = n := h.single_hdr.size
    exact hc _ _ _ hlisted x hx (by rw [hsz]; exact hx')
  · intro hz heap idx e he x hx hx'
    obtain ⟨ar, har, -, n, hin, -⟩ := h.mem_freeHead.mp he
    have hm : (e, ⟨n, .free⟩) ∈ placed ars := mem_placed.mpr ⟨ar, har, hin⟩
    obtain ⟨c, rfl, rfl, -, -, -⟩ := Focus.exists_plug har hin
    have hsz : s.elem .size c.pos = n := h.single_hdr.size
    rw [hsz] at hx'
    exact hz _ n hm x hx hx'

/-! ## One edit -/

section

variable {s s' : HeapState} {c : Focus} {D D' : List Elem} {n front size : Nat}

/-- Outside of the gap nothing changes behind the headers, so only the new free elements count. -/
theorem FreeZero.edit (hz : FreeZero s.mem (c.plug D)) (he : Edit s s' c D D')
    (hgap : ∀ a k, (a, ⟨k, .free⟩) ∈ place Elem.size c.pos D' →
      ∀ x, a + 64 ≤ x → x < a + k → s'.mem x = 0) : FreeZero s'.mem (c.plug D') := by
  intro a k hm x hx hx'
  rcases he.rest_iff.mp hm with hin | hout
  · exact hgap a k hin x hx hx'
  · have hkeep := (he.rest_keep hout).2 x (by omega) hx'
    have hold := hz a k (c.mem_placed_plug.mpr (.inr hout)) x hx hx'
    exact hkeep.trans hold

/-- An element in the gap, behind its header. -/
theorem FreeZero.gap (hz : FreeZero s.mem (c.plug D)) {a k x : Nat}
    (hm : (a, ⟨k, .free⟩) ∈ place Elem.size c.pos D) (hx : a + 64 ≤ x) (hx' : x < a + k) : s.mem x = 0 :=
  hz a k (c.mem_placed_plug.mpr (.inl hm)) x hx hx'

/-- The free elements that an allocation leaves. -/
theorem free_allocElems {p a k : Nat} (h : (a, ⟨k, .free⟩) ∈ place Elem.size p (allocElems n front size)) :
    (a = p ∧ k = front) ∨
      128 < trailer n front size ∧ a = p + (front + size + 64) ∧ k = trailer n front size := by
  unfold allocElems backElems at h
  by_cases ht : 128 < trailer n front size
  · have hkept : keptSize n front size = front + size + 64 := if_pos ht
    by_cases hf : front < 128
    · simp only [hf, ht, if_true, List.cons_append, List.nil_append, place_cons, place_nil, List.mem_cons,
        Prod.mk.injEq, Elem.mk.injEq, reduceCtorEq, and_false, List.not_mem_nil, or_false, false_or,
        and_true, hkept] at h
      exact .inr ⟨ht, h⟩
    · simp only [hf, ht, if_true, if_false, List.cons_append, List.nil_append, place_cons, place_nil,
        List.mem_cons, Prod.mk.injEq, Elem.mk.injEq, reduceCtorEq, and_false, List.not_mem_nil, or_false,
        false_or, and_true, hkept] at h
      rcases h with h | h
      · exact .inl h
      · exact .inr ⟨ht, by omega, h.2⟩
  · by_cases hf : front < 128
    · simp [hf, ht] at h
    · simp only [hf, ht, if_false, List.append_nil, place_cons, place_nil, List.mem_cons, Prod.mk.injEq,
        Elem.mk.injEq, reduceCtorEq, and_false, List.not_mem_nil, or_false, and_true] at h
      exact .inl h

/-- What an allocation takes and what it leaves is zero behind the new headers. -/
theorem Allocated.zero {heap flags align bound ptr : Nat} (hz : FreeZero s.mem (c.plug [⟨n, .free⟩]))
    (ha : Allocated s s' heap size flags align bound ptr c n front) :
    FreeZero s'.mem (c.plug (allocElems n front size)) ∧
      ∀ x, ptr ≤ x → x < c.pos + keptSize n front size → s'.mem x = 0 := by
  have hle := ha.le
  have hptr := ha.ptrEq
  have hold : ∀ x, c.pos + 64 ≤ x → x < c.pos + n → s.mem x = 0 := fun x hx hx' =>
    hz.gap (by rw [place_cons, place_nil]; exact List.mem_cons_self) hx hx'
  refine ⟨hz.edit ha.edit fun a k hm x hx hx' => ?_, fun x hx hx' => ?_⟩
  · rcases free_allocElems hm with ⟨rfl, rfl⟩ | ⟨ht, rfl, rfl⟩
    · exact (ha.keep x (by omega) (by omega) (by omega) (by omega)).trans (hold x hx (by omega))
    · unfold trailer at hx' ht
      exact (ha.keep x (by omega) (by omega) (fun _ => by omega) (by omega)).trans
        (hold x (by omega) (by omega))
  · have hk := le_keptSize hle
    have hkeep := ha.keep x (by omega) (by omega) (fun ht => .inl ?_) (by omega)
    · exact hkeep.trans (hold x (by omega) (by omega))
    · rw [keptSize, if_pos ht] at hx'
      omega

/-- The busy element that an allocation leaves ends with what was kept. -/
theorem busy_allocElems_end {p x m pad : Nat} (hle : front + size + 64 ≤ n)
    (h : (x, ⟨m, .busy pad⟩) ∈ place Elem.size p (allocElems n front size)) :
    x + m = p + keptSize n front size := by
  have hk := le_keptSize hle
  have hback : ∀ y, (x, ⟨m, .busy pad⟩) ∉ place Elem.size y (backElems n front size) := fun y => by
    unfold backElems
    split_ifs <;> simp
  unfold allocElems at h
  rw [place_append, List.mem_append] at h
  have h := h.resolve_right (hback _)
  split_ifs at h
  · simp only [place_cons, place_nil, List.mem_singleton, Prod.mk.injEq, Elem.mk.injEq] at h
    omega
  · simp only [place_cons, place_nil, List.mem_cons, Prod.mk.injEq, Elem.mk.injEq, reduceCtorEq,
      and_false, List.not_mem_nil, or_false, false_or] at h
    omega

/-- A block that was just handed out is zero from the first to the last usable byte. -/
theorem Allocated.usable_zero {heap flags align bound ptr : Nat}
    (hz : FreeZero s.mem (c.plug [⟨n, .free⟩]))
    (ha : Allocated s s' heap size flags align bound ptr c n front) :
    ∃ u, rteMallocValidate s' ptr = some u ∧ size ≤ u ∧ ∀ x, ptr ≤ x → x < ptr + u → s'.mem x = 0 := by
  have hle := ha.le
  have hptr := ha.ptrEq
  obtain ⟨m, pad, hm, hpad, hsz⟩ := mem_allocElems (a := c.pos) hle
  have hend := busy_allocElems_end hle hm
  have hold : Holds (c.plug (allocElems n front size)) ⟨ptr, size, align, bound, false⟩
      (c.pos + front - pad) m pad :=
    ⟨c.mem_placed_plug.mpr (.inl hm), by simp only; omega, hsz⟩
  refine ⟨m - pad - 64, ha.edit.rep'.validate hold, by omega, fun x hx hx' => ?_⟩
  exact (ha.zero hz).2 x hx (by omega)

/-- Freeing clears the block and the headers around it; the neighbours it joins are zero already. -/
theorem Freed.zero {pad : Nat} {L A B R : List Elem} (hz : FreeZero s.mem (c.plug [⟨n, .busy pad⟩]))
    (h : HeapRep s (c.plug [⟨n, .busy pad⟩])) (hf : Freed s s' c n L A B R) :
    FreeZero s'.mem (Focus.plug { c with left := L, right := R }
      [⟨total Elem.size A + (n + total Elem.size B), .free⟩]) := by
  have hz' := hz
  rw [c.plug_absorbed hf.left hf.right] at hz'
  have hn : 64 ≤ n := (h.gap_ok _ List.mem_cons_self).le
  have hpos : c.pos = Focus.pos { c with left := L, right := R } + total Elem.size A := by
    simp only [Focus.pos, hf.left, total_append, Nat.add_assoc]
  have hbase : c.base + total Elem.size L = Focus.pos { c with left := L, right := R } := rfl
  refine FreeZero.edit hz' (hf.edit h) fun a k hm x hx hx' => ?_
  rw [place_cons, place_nil, List.mem_singleton, Prod.mk.injEq, Elem.mk.injEq] at hm
  obtain ⟨rfl, rfl, -⟩ := hm
  by_cases hlo : x < clearedFrom c.pos A
  · -- the left neighbour
    rcases hf.absorbedLeft with rfl | ⟨k, rfl⟩
    · rw [clearedFrom, if_pos rfl] at hlo
      simp only [total_nil] at hpos
      omega
    · rw [clearedFrom, if_neg (List.cons_ne_nil _ _)] at hlo
      simp only [total_cons, total_nil] at hpos
      have hkeep := hf.keep x (.inl (by rw [clearedFrom, if_neg (List.cons_ne_nil _ _)]; exact hlo))
        (by omega) (by omega)
      refine hkeep.trans (hz'.gap (a := Focus.pos { c with left := L, right := R }) (k := k) ?_ hx (by omega))
      rw [List.append_assoc, List.singleton_append, place_cons]
      exact List.mem_cons_self
  · by_cases hhi : x < clearedTo (c.pos + n) B
    · exact hf.cleared x (by omega) hhi
    · -- the right neighbour
      rcases hf.absorbedRight with rfl | ⟨k, rfl⟩
      · rw [clearedTo, if_pos rfl] at hhi
        simp only [total_nil] at hx'
        omega
      · have hkeep := hf.keep x (.inr (by omega)) (by
          rw [clearedTo, if_neg (List.cons_ne_nil _ _)] at hhi
          omega) (by
          simp only [total_cons, total_nil] at hx' ⊢
          omega)
        rw [clearedTo, if_neg (List.cons_ne_nil _ _)] at hhi
        simp only [total_cons, total_nil] at hx'
        refine hkeep.trans (hz'.gap (a := c.pos + n) (k := k) ?_ (by omega) (by omega))
        rw [place_append, List.mem_append]
        refine .inr ?_
        simp only [total_append, total_cons, total_nil, place_cons, place_nil, List.mem_singleton,
          Prod.mk.injEq, and_true]
        omega

/-- What a block does not need of its neighbour stays zero behind the new header. -/
theorem Grown.zero {pad newSize k : Nat} {R : List Elem} (hz : FreeZero s.mem (c.plug [⟨n, .busy pad⟩]))
    (h : HeapRep s (c.plug [⟨n, .busy pad⟩])) (hg : Grown s s' c n pad newSize k R) :
    FreeZero s'.mem (Focus.plug { c with right := R }
      (⟨cutSize (n + k) newSize, .busy pad⟩ :: cutRest (n + k) newSize)) := by
  have hz' := hz
  rw [c.plug_absorbed (A := []) (B := [⟨k, .free⟩]) (List.append_nil _).symm hg.right] at hz'
  have hpos : Focus.pos { c with right := R } = c.pos := rfl
  have hle := hg.le
  have hlt := hg.lt
  refine FreeZero.edit hz' (hg.edit h) fun a j hm x hx hx' => ?_
  rw [hpos] at hm
  unfold cutRest cutSize at hm
  split_ifs at hm with hcut
  · simp only [place_cons, place_nil, List.mem_cons, Prod.mk.injEq, Elem.mk.injEq, reduceCtorEq,
      and_false, List.not_mem_nil, or_false, false_or, and_true] at hm
    obtain ⟨rfl, rfl⟩ := hm
    refine (hg.interior x hx (by omega)).trans (hz'.gap (a := c.pos + n) (k := k) ?_ (by omega) (by omega))
    simp only [List.nil_append, List.cons_append, place_cons, place_nil, hpos, List.mem_cons, true_or,
      or_true]
  · simp at hm

end

/-! ## Every run -/

section

variable {segs : List RteMemseg} {r : RunState} {ars ars' : List Arena}

/-- One step, from what it does to the heap. -/
theorem Inv.step_zero {op : MallocOp} {s' : HeapState} (h : Inv segs r ars) (hz : FreeZero r.heap.mem ars)
    (ho : Outcome r ars op s' ars') : FreeZero s'.mem ars' := by
  cases ho with
  | same => exact hz
  | allocated _ hars ha =>
    subst hars
    exact (ha.zero hz).1
  | freed hb hars hold hf =>
    subst hars
    exact hf.zero hz h.rep
  | grown hb hars hold hg =>
    subst hars
    exact hg.zero hz h.rep
  | @written b a n pad m hb hold hout =>
    intro e k hm x hx hx'
    have hne : e ≠ a := by
      rintro rfl
      exact absurd (h.rep.placed_inj hold.mem hm) (by simp)
    have hap := h.rep.placed_apart hold.mem hm hne
    have hend := h.rep.ptr_add_usable hold
    have hptr := hold.ptr
    simp only at hap
    have hkeep : m x = r.heap.mem x := hout x (by omega)
    exact hkeep.trans (hz e k hm x hx hx')

/-- The memsegs are zero. -/
def MemsegsZero (segs : List RteMemseg) (m : Mem) : Prop :=
  ∀ seg ∈ segs, ∀ x, seg.addr ≤ x → x < seg.addr + seg.len → m x = 0

/-- The headers written at initialisation are the only bytes that may differ from zero. -/
theorem freeZero_init (hok : MemsegsOK segs) {m : Mem} (hm : MemsegsZero segs m) :
    FreeZero (rteEalMallocHeapInit (HeapState.boot segs m)).mem (segArenas segs) := by
  have hadd := rteEalMallocHeapInit_added hok m
  intro a n hmem x hx hx'
  obtain ⟨ar, har, hin⟩ := mem_placed.mp hmem
  obtain ⟨i, hi, rfl⟩ := mem_segArenas.mp har
  simp only [segArena, place_cons, place_nil, List.mem_singleton, Prod.mk.injEq, Elem.mk.injEq,
    and_true] at hin
  obtain ⟨rfl, rfl⟩ := hin
  have hseg : segs[i] ∈ segs := List.getElem_mem hi
  have hb := RteMemseg.elemSize_bounds (hok.long _ hseg)
  refine (hadd.keep x fun seg' hseg' => ?_).trans (hm _ hseg x (by omega) (by omega))
  rw [List.take_length] at hseg'
  obtain ⟨j, hj, rfl⟩ := List.getElem_of_mem hseg'
  have hb' := RteMemseg.elemSize_bounds (hok.long _ hseg')
  by_cases hij : i = j
  · subst hij
    omega
  · -- another memseg: its headers are in its own area
    have hdis : segs[i].addr + segs[i].len ≤ segs[j].addr ∨ segs[j].addr + segs[j].len ≤ segs[i].addr := by
      rcases Nat.lt_or_gt_of_ne hij with hlt | hgt
      · exact List.pairwise_iff_getElem.mp hok.disjoint i j hi hj hlt
      · exact (List.pairwise_iff_getElem.mp hok.disjoint j i hj hi hgt).symm
    omega

/-- The invariant of a run that starts from zero memory. -/
theorem exists_inv_zero (hok : MemsegsOK segs) {m : Mem} (hm : MemsegsZero segs m)
    (h : Reach (MallocInit segs m) ExactStep r) : ∃ ars, Inv segs r ars ∧ FreeZero r.heap.mem ars := by
  refine Reach.invariant (I := fun r => ∃ ars, Inv segs r ars ∧ FreeZero r.heap.mem ars) ?_ ?_ h
  · intro r hr
    refine ⟨_, Inv.init hok hr, ?_⟩
    rw [hr]
    exact freeZero_init hok hm
  · rintro r r' ⟨ars, hinv, hz⟩ ⟨op, hv, hn, rfl⟩
    obtain ⟨ars', hout, hinv'⟩ := hinv.step hv hn
    exact ⟨ars', hinv', hinv.step_zero hz hout⟩

/-- **Free memory is zero** in every run in which nothing wraps, whatever the holders of the blocks
write to them. -/
theorem free_memory_zero (hok : MemsegsOK segs) {m : Mem} (hm : MemsegsZero segs m)
    (h : Reach (MallocInit segs m) ExactStep r) : r.heap.FreeCleared := by
  obtain ⟨ars, hinv, hz⟩ := exists_inv_zero hok hm h
  exact hinv.rep.freeCleared_iff.mpr hz

end

end RteDemo
