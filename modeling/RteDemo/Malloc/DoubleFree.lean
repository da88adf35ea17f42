import RteDemo.Malloc.Isolation

/-!
# A repeated free

After a block is freed, its header is a free element, or was cleared with the rest of the block: by
the `memset` over the padding of a padded block, or over the header when the element was joined to
the one before it. `ELEM_FREE` is the zero state, so a second free finds no busy element
(`Freed.state_block`).
-/

namespace RteDemo

open Bytes Tiling

/-- When freeing the block at `p` has succeeded, freeing it again at once fails and changes
nothing. -/
def RepeatDetected (s : HeapState) (p : Nat) : Prop :=
  ∀ s', mallocElemFree s (mallocElemFromData s.mem p) = (s', 0) →
    mallocElemFree s' (mallocElemFromData s'.mem p) = (s', -1)

/-- A free of a pointer with a free header is refused. -/
theorem mallocElemFree_refused {s : HeapState} {p : Nat} (hp : 64 ≤ p) (htop : p < 2 ^ 64)
    (hstate : s.elem .state (p - 64) = ElemState.free.val) :
    mallocElemFree s (mallocElemFromData s.mem p) = (s, -1) := by
  have hpad : mallocElem.get .state s.mem (p - 64) ≠ ElemState.pad.val := by
    rw [show mallocElem.get .state s.mem (p - 64) = ElemState.free.val from hstate]
    decide
  have hdata : mallocElemFromData s.mem p = p - 64 := by
    rw [mallocElemFromData, if_neg (by omega), mallocElemHeaderLen, rtePtrSub_eq hp htop]
    simp only
    split_ifs with h0
    · exact h0.symm
    · rfl
  have hbusy : s.elem .state (p - 64) ≠ ElemState.busy.val := by
    rw [hstate]
    decide
  rw [hdata, mallocElemFree, if_pos (.inr hbusy)]

section

variable {s s' : HeapState} {c : Focus} {n pad : Nat} {L A B R : List Elem}

/-- The 64 bytes below the data of a freed block are a free header. -/
theorem Freed.state_block (hf : Freed s s' c n L A B R) (hpad : 64 ∣ pad) (hle : pad + 64 ≤ n) :
    s'.elem .state (c.pos + pad) = ElemState.free.val := by
  have hto : c.pos + n ≤ clearedTo (c.pos + n) B := by
    unfold clearedTo
    split_ifs <;> omega
  by_cases hkept : A = [] ∧ pad = 0
  · -- the header itself has become the free element
    obtain ⟨rfl, rfl⟩ := hkept
    have hpos : Focus.pos { c with left := L, right := R } = c.pos := by
      simp [Focus.pos, hf.left]
    have hfree := hf.rep.single_hdr.use
    rw [hpos] at hfree
    exact hfree
  · -- it is among the bytes that were cleared
    have hfrom : clearedFrom c.pos A ≤ c.pos + pad := by
      unfold clearedFrom
      split_ifs with hA
      · have hne : pad ≠ 0 := fun h0 => hkept ⟨hA, h0⟩
        have := Nat.le_of_dvd (Nat.pos_of_ne_zero hne) hpad
        omega
      · omega
    refine mallocElem.get_zero fun x hx hx' => hf.cleared x (hfrom.trans hx) ?_
    change x < c.pos + pad + 64 at hx'
    omega

end

/-- The first free succeeds and the second one is detected, in a state with the invariant. -/
theorem Inv.repeatDetected {segs : List RteMemseg} {r : RunState} {ars : List Arena}
    (h : Inv segs r ars) {b : Block} (hb : b ∈ r.live) :
    (mallocElemFree r.heap (mallocElemFromData r.heap.mem b.ptr)).2 = 0 ∧
      RepeatDetected r.heap b.ptr := by
  obtain ⟨-, a, n, pad, hold⟩ := h.live b hb
  have hdata := h.rep.fromData hold
  obtain ⟨c, rfl, rfl⟩ := hold.focus
  obtain ⟨-, -, hpad, -, -⟩ := h.rep.gap_ok _ List.mem_cons_self
  have htop := h.rep.top
  simp only [total_cons, total_nil] at htop
  have hfit := hold.size
  have hptr := hold.ptr
  obtain ⟨hok, L, A, B, R, hf⟩ := h.rep.free h.settled_focus
  rw [hdata]
  refine ⟨hok, fun s' hs' => ?_⟩
  rw [hdata] at hs'
  rw [hs'] at hf
  have hstate := hf.state_block hpad (by omega)
  refine mallocElemFree_refused (by omega) (by omega) ?_
  rw [hptr, Nat.add_sub_cancel]
  exact hstate

/-- **A repeated free is detected.** In a run whose operations do not wrap, every live block can be
freed, and a second free of it right away returns `-1` and changes nothing. -/
theorem repeat_detected {segs : List RteMemseg} (hok : MemsegsOK segs) {m : Mem} {r : RunState}
    (h : Reach (MallocInit segs m) ExactStep r) {b : Block} (hb : b ∈ r.live) :
    (mallocElemFree r.heap (mallocElemFromData r.heap.mem b.ptr)).2 = 0 ∧
      RepeatDetected r.heap b.ptr := by
  obtain ⟨ars, hinv⟩ := Inv.of_reach hok h
  exact hinv.repeatDetected hb

theorem repeat_detected_oneSeg : ∃ b ∈ oneSegBlock.live,
    (mallocElemFree oneSegBlock.heap (mallocElemFromData oneSegBlock.heap.mem b.ptr)).2 = 0 ∧
      RepeatDetected oneSegBlock.heap b.ptr := by
  have hlive : ∃ b, b ∈ oneSegBlock.live := by
    rw [oneSegBlock, MallocOp.run_alloc, MallocOp.allocated, alloc_top oneSegStart_inv.rep,
      if_neg (by decide)]
    exact ⟨_, List.mem_cons_self⟩
  obtain ⟨b, hb⟩ := hlive
  have hexact : Reach (MallocInit oneSeg fun _ => 0) ExactStep oneSegBlock := by
    refine reach_oneSegBlock.mono (fun _ h => h) ?_
    rintro x y ⟨op, hv, hn, -, hrun⟩
    exact ⟨op, hv, hn, hrun⟩
  exact ⟨b, hb, repeat_detected oneSeg_ok hexact hb⟩

/-! ## An end marker that is handed out

A request for `2 ^ 64 - 64` bytes in an element of more than a gigabyte: `elem_start_pt` subtracts
below zero and arrives at the header behind the element, the end marker, which becomes an element of
size zero. The `memset` of a free then clears nothing. -/

/-- One memseg of two gigabytes. -/
def bigSeg : List RteMemseg := [⟨2 ^ 31, 2 ^ 31, 2 ^ 21, 0⟩]

theorem bigSeg_ok : MemsegsOK bigSeg where
  count := by decide
  pos := by decide
  dvd := by decide
  long := by decide
  top := by decide
  socket := by decide
  disjoint := List.pairwise_singleton _ _

def bigSegStart : RunState := ⟨rteEalMallocHeapInit (HeapState.boot bigSeg fun _ => 0), []⟩

/-- The free element of the memseg. -/
def bigSegFocus : Focus := ⟨[], 0, 0, 2 ^ 31, [], [], []⟩

theorem bigSegStart_inv : Inv bigSeg bigSegStart (bigSegFocus.plug [⟨2 ^ 31 - 64, .free⟩]) :=
  Inv.init bigSeg_ok (m := fun _ => 0) rfl

section

variable {s : HeapState}

/-- The front split with nothing given back behind the block. -/
theorem mallocElemAlloc_front {elem n size align bound newElem : Nat} (hsize : s.elem .size elem = n)
    (hnew : elemStartPt elem n size align bound = newElem) (hold : ¬Word.sub 64 newElem elem < 128)
    (htrail : ¬Word.sub 64 (Word.sub 64 (Word.sub 64 n (Word.sub 64 newElem elem)) size) 64 > 128) :
    mallocElemAlloc s elem size align bound =
      (mallocElemFreeListInsert ((elemFreeListRemove s elem).setMem (mallocElem.set .state
        (splitElem s.mem elem newElem) newElem ElemState.busy.val)) elem, newElem) := by
  unfold mallocElemAlloc
  rw [hsize, hnew]
  dsimp only
  rw [if_neg (show ¬Word.sub 64 newElem elem < mallocElemOverhead + minDataSize from hold),
    if_neg (show ¬Word.sub 64 _ mallocElemOverhead > mallocElemOverhead + minDataSize from htrail)]
  rfl

/-- The front split after a part behind the block was given back. -/
theorem mallocElemAlloc_middle {elem n size align bound newElem : Nat} (hsize : s.elem .size elem = n)
    (hnew : elemStartPt elem n size align bound = newElem) (hold : ¬Word.sub 64 newElem elem < 128)
    (htrail : Word.sub 64 (Word.sub 64 (Word.sub 64 n (Word.sub 64 newElem elem)) size) 64 > 128)
    {back : Nat} (hback : rtePtrAdd newElem (Word.add 64 size 64) = back) :
    ∃ s₁ : HeapState, s₁.mem = mallocElem.set .state (splitElem s.mem elem back) back
        ElemState.free.val ∧
      mallocElemAlloc s elem size align bound =
        (mallocElemFreeListInsert (s₁.setMem (mallocElem.set .state
          (splitElem s₁.mem elem newElem) newElem ElemState.busy.val)) elem, newElem) := by
  unfold mallocElemAlloc
  rw [hsize, hnew]
  dsimp only
  rw [if_neg (show ¬Word.sub 64 newElem elem < mallocElemOverhead + minDataSize from hold),
    if_pos (show Word.sub 64 _ mallocElemOverhead > mallocElemOverhead + minDataSize from htrail),
    show rtePtrAdd newElem (Word.add 64 size mallocElemOverhead) = back from hback]
  exact ⟨_, rfl, rfl⟩

/-- An element that was the only one on the lists of its heap, and is listed anew. -/
theorem candidates_relisted {e heap size : Nat} {m : Mem} (hheap : s.elem .heap e = heap)
    (hheap' : mallocElem.get .heap m e = heap)
    (honly : ∀ idx, ∀ x ∈ (s.mallocHeaps heap).freeHead idx, x = e)
    (hidx : mallocElemFreeListIndex size ≤
      mallocElemFreeListIndex (Word.sub 64 (mallocElem.get .size m e) 64)) (x : Nat) :
    x ∈ ((mallocElemFreeListInsert ((elemFreeListRemove s e).setMem m) e).mallocHeaps
      heap).candidates size ↔ x = e := by
  have hlists : ((mallocElemFreeListInsert ((elemFreeListRemove s e).setMem m) e).mallocHeaps
      heap).freeHead = Function.update (fun idx => ((s.mallocHeaps heap).freeHead idx).erase e)
        (mallocElemFreeListIndex (Word.sub 64 (mallocElem.get .size m e) 64))
        (e :: ((s.mallocHeaps heap).freeHead
          (mallocElemFreeListIndex (Word.sub 64 (mallocElem.get .size m e) 64))).erase e) := by
    have hset : mallocElem.get .heap (mallocElem.set .state m e ElemState.free.val) e = heap :=
      (get_set_other (by decide) _ _ _).trans hheap'
    simp only [mallocElemFreeListInsert, elemFreeListRemove, HeapState.elem, HeapState.modifyHeap,
      HeapState.setMem, hset, show mallocElem.get .heap s.mem e = heap from hheap,
      Function.update_self, mallocElemHeaderLen]
  have herase : ∀ idx, ∀ x ∈ ((s.mallocHeaps heap).freeHead idx).erase e, x = e := fun idx x hx =>
    honly idx x (List.mem_of_mem_erase hx)
  have hlt := mallocElemFreeListIndex_lt (Word.sub 64 (mallocElem.get .size m e) 64)
  simp only [MallocHeap.candidates, List.mem_flatMap, List.mem_range'_1, hlists, rteHeapNumFreelists]
  constructor
  · rintro ⟨idx, -, hx⟩
    rw [Function.update_apply] at hx
    split_ifs at hx
    · rcases List.mem_cons.mp hx with rfl | hx
      · rfl
      · exact herase _ x hx
    · exact herase _ x hx
  · rintro rfl
    refine ⟨_, ⟨hidx, by omega⟩, ?_⟩
    rw [Function.update_self]
    exact List.mem_cons_self

theorem inserted_mem (s : HeapState) (e : Nat) (m : Mem) :
    (mallocElemFreeListInsert (s.setMem m) e).mem = mallocElem.set .state m e ElemState.free.val := rfl

theorem bigSeg_listed (h : HeapRep s (bigSegFocus.plug [⟨2 ^ 31 - 64, .free⟩])) (idx : Nat) :
    ∀ x ∈ (s.mallocHeaps 0).freeHead idx, x = 2 ^ 31 := by
  intro x hx
  obtain ⟨ar, har, -, n, hn, -⟩ := h.mem_freeHead.mp hx
  rw [List.mem_singleton.mp (show ar ∈ [bigSegFocus.arena _] from har)] at hn
  exact congrArg Prod.fst (List.mem_singleton.mp hn)

theorem bigSeg_candidates (h : HeapRep s (bigSegFocus.plug [⟨2 ^ 31 - 64, .free⟩])) (x : Nat) :
    x ∈ (s.mallocHeaps 0).candidates (2 ^ 64 - 64) ↔ x = 2 ^ 31 := by
  constructor
  · intro hx
    obtain ⟨idx, -, hidx⟩ := List.mem_flatMap.mp hx
    exact bigSeg_listed h idx x hidx
  · rintro rfl
    refine h.mem_candidates.mpr ⟨_, HeapRep.arena_mem _ _, rfl, 2 ^ 31 - 64, List.mem_singleton.mpr rfl,
      by decide⟩

/-- The memory when the end marker has become an element: its size is zero. -/
def markerMem (m : Mem) : Mem :=
  mallocElem.set .state (splitElem m (2 ^ 31) (2 ^ 32 - 64)) (2 ^ 32 - 64) ElemState.busy.val

theorem markerMem_fields {m : Mem} (hsize : mallocElem.get .size m (2 ^ 31) = 2 ^ 31 - 64) :
    mallocElem.get .heap (markerMem m) (2 ^ 31) = mallocElem.get .heap m (2 ^ 31) ∧
      mallocElem.get .size (markerMem m) (2 ^ 31) = 2 ^ 31 - 64 ∧
      mallocElem.get .size (markerMem m) (2 ^ 32 - 64) = 0 ∧
      mallocElem.get .state (markerMem m) (2 ^ 32 - 64) = ElemState.busy.val := by
  have hnext : rtePtrAdd (2 ^ 31) (2 ^ 31 - 64) = 2 ^ 32 - 64 := by decide
  have hold : Word.sub 64 (2 ^ 32 - 64) (2 ^ 31) = 2 ^ 31 - 64 := by decide
  have hnew : Word.sub 64 (2 ^ 31 - 64) (2 ^ 31 - 64) = 0 := by decide
  simp only [markerMem, splitElem, hsize, hnext, hold, hnew]
  refine ⟨?_, ?_, ?_, ?_⟩ <;>
    simp (disch := first | decide | omega) only [mallocElemInit, get_set_other, get_set_apart,
      get_set_word, get_set_half, ElemState.val]

/-- The end marker is an element of size zero, in front of it the one free element. -/
structure MarkerTaken (s : HeapState) : Prop where
  size : s.elem .size (2 ^ 31) = 2 ^ 31 - 64
  listed : ∀ x, x ∈ (s.mallocHeaps 0).candidates 64 ↔ x = 2 ^ 31
  markerSize : s.elem .size (2 ^ 32 - 64) = 0
  markerState : s.elem .state (2 ^ 32 - 64) = ElemState.busy.val

theorem alloc_marker (h : HeapRep s (bigSegFocus.plug [⟨2 ^ 31 - 64, .free⟩])) :
    ∃ s', mallocHeapAlloc s 0 (2 ^ 64 - 64) 0 (2 ^ 6) 0 = (s', 2 ^ 32) ∧ MarkerTaken s' := by
  have hsize : s.elem .size (2 ^ 31) = 2 ^ 31 - 64 := h.single_hdr.size
  have hheap : s.elem .heap (2 ^ 31) = 0 := h.single_hdr.heap
  have hcan : mallocElemCanHold s.mem (2 ^ 31) (2 ^ 64 - 64) (2 ^ 6) 0 = true := by
    rw [mallocElemCanHold, show mallocElem.get .size s.mem (2 ^ 31) = 2 ^ 31 - 64 from hsize]
    decide
  have hcode := mallocHeapAlloc_eq (show rteCacheLineRoundup 64 (2 ^ 64 - 64) = 2 ^ 64 - 64 by decide)
    (show rteCacheLineRoundup 64 (2 ^ 6) = 2 ^ 6 by decide) (find_only (bigSeg_candidates h) hcan)
  have halloc : mallocElemAlloc s (2 ^ 31) (2 ^ 64 - 64) (2 ^ 6) 0 = (mallocElemFreeListInsert
      ((elemFreeListRemove s (2 ^ 31)).setMem (markerMem s.mem)) (2 ^ 31), 2 ^ 32 - 64) :=
    mallocElemAlloc_front hsize (by decide) (by decide) (by decide)
  rw [if_pos (by decide), halloc] at hcode
  dsimp only at hcode
  rw [if_neg (by decide), show rtePtrAdd (2 ^ 32 - 64) mallocElemHeaderLen = 2 ^ 32 by decide] at hcode
  obtain ⟨fheap, fsize, fmsize, fmstate⟩ := markerMem_fields hsize
  generalize markerMem s.mem = m at hcode fheap fsize fmsize fmstate
  have hidx : mallocElemFreeListIndex 64 ≤
      mallocElemFreeListIndex (Word.sub 64 (mallocElem.get .size m (2 ^ 31)) 64) := by
    rw [fsize]
    decide
  have hlist := candidates_relisted hheap (fheap.trans hheap) (bigSeg_listed h) hidx
  have hmem := inserted_mem (elemFreeListRemove s (2 ^ 31)) (2 ^ 31) m
  generalize mallocElemFreeListInsert ((elemFreeListRemove s (2 ^ 31)).setMem m) (2 ^ 31) = s₁
    at hcode hlist hmem
  refine ⟨_, hcode, ?_, fun x => ?_, ?_, ?_⟩
  · rw [HeapState.elem, HeapState.adjustCount_mem, hmem, get_set_other (by decide), fsize]
  · rw [HeapState.adjustCount, HeapState.modifyHeap_self]
    exact hlist x
  · rw [HeapState.elem, HeapState.adjustCount_mem, hmem, get_set_apart (by decide), fmsize]
  · rw [HeapState.elem, HeapState.adjustCount_mem, hmem, get_set_apart (by decide), fmstate]

/-- The memory after the end of the free element was cut off. -/
def backMem (m : Mem) : Mem :=
  mallocElem.set .state (splitElem m (2 ^ 31) (2 ^ 32 - 4032)) (2 ^ 32 - 4032) ElemState.free.val

/-- It is the predecessor of the end marker now. -/
theorem backMem_fields {m : Mem} (hsize : mallocElem.get .size m (2 ^ 31) = 2 ^ 31 - 64) :
    mallocElem.get .size (backMem m) (2 ^ 31) = 2 ^ 31 - 4032 ∧
      mallocElem.get .size (backMem m) (2 ^ 32 - 64) = mallocElem.get .size m (2 ^ 32 - 64) ∧
      mallocElem.get .state (backMem m) (2 ^ 32 - 64) = mallocElem.get .state m (2 ^ 32 - 64) ∧
      mallocElem.get .prev (backMem m) (2 ^ 32 - 64) = 2 ^ 32 - 4032 ∧
      mallocElem.get .state (backMem m) (2 ^ 32 - 4032) = ElemState.free.val := by
  have hnext : rtePtrAdd (2 ^ 31) (2 ^ 31 - 64) = 2 ^ 32 - 64 := by decide
  have hold : Word.sub 64 (2 ^ 32 - 4032) (2 ^ 31) = 2 ^ 31 - 4032 := by decide
  simp only [backMem, splitElem, hsize, hnext, hold]
  refine ⟨?_, ?_, ?_, ?_, ?_⟩ <;>
    simp (disch := first | decide | omega) only [mallocElemInit, get_set_other, get_set_apart,
      get_set_word, get_set_half, ElemState.val]

/-- The front split in front of it writes to neither header but for the `prev` field of the one. -/
theorem splitElem_back {m : Mem} (hsize : mallocElem.get .size m (2 ^ 31) = 2 ^ 31 - 4032) :
    (∀ f, mallocElem.get f (splitElem m (2 ^ 31) (2 ^ 32 - 4160)) (2 ^ 32 - 64) =
        mallocElem.get f m (2 ^ 32 - 64)) ∧
      mallocElem.get .state (splitElem m (2 ^ 31) (2 ^ 32 - 4160)) (2 ^ 32 - 4032) =
        mallocElem.get .state m (2 ^ 32 - 4032) := by
  have hnext : rtePtrAdd (2 ^ 31) (2 ^ 31 - 4032) = 2 ^ 32 - 4032 := by decide
  simp only [splitElem, hsize, hnext]
  refine ⟨fun f => ?_, ?_⟩ <;>
    simp (disch := first | decide | omega) only [mallocElemInit, get_set_other, get_set_apart]

/-- A free element has come to lie in front of the end marker. -/
structure MarkerJoins (s : HeapState) : Prop where
  size : s.elem .size (2 ^ 32 - 64) = 0
  state : s.elem .state (2 ^ 32 - 64) = ElemState.busy.val
  prev : s.elem .prev (2 ^ 32 - 64) = 2 ^ 32 - 4032
  prevState : s.elem .state (2 ^ 32 - 4032) = ElemState.free.val

/-- A block of 64 bytes on a boundary of 4096 leaves a free element behind it. -/
theorem alloc_page (h : MarkerTaken s) :
    MarkerJoins (mallocHeapAlloc s 0 64 0 (2 ^ 12) 0).1 := by
  have hcan : mallocElemCanHold s.mem (2 ^ 31) 64 (2 ^ 12) 0 = true := by
    rw [mallocElemCanHold, show mallocElem.get .size s.mem (2 ^ 31) = 2 ^ 31 - 64 from h.size]
    decide
  have hcode := mallocHeapAlloc_eq (show rteCacheLineRoundup 64 64 = 64 by decide)
    (show rteCacheLineRoundup 64 (2 ^ 12) = 2 ^ 12 by decide) (find_only h.listed hcan)
  obtain ⟨s₁, hmem, halloc⟩ := mallocElemAlloc_middle h.size
    (show elemStartPt (2 ^ 31) (2 ^ 31 - 64) 64 (2 ^ 12) 0 = 2 ^ 32 - 4160 by decide)
    (by decide) (by decide) (show rtePtrAdd (2 ^ 32 - 4160) (Word.add 64 64 64) = 2 ^ 32 - 4032 by decide)
  obtain ⟨bsize, bmsize, bmstate, bprev, bstate⟩ := backMem_fields h.size
  rw [if_pos (by decide), halloc] at hcode
  rw [hcode]
  rw [show s₁.mem = backMem s.mem from hmem]
  generalize backMem s.mem = m at bsize bmsize bmstate bprev bstate
  obtain ⟨hmarker, hback⟩ := splitElem_back bsize
  have hkeep := inserted_mem s₁ (2 ^ 31)
    (mallocElem.set .state (splitElem m (2 ^ 31) (2 ^ 32 - 4160)) (2 ^ 32 - 4160) ElemState.busy.val)
  dsimp only
  generalize mallocElemFreeListInsert (s₁.setMem _) (2 ^ 31) = s₂ at hkeep ⊢
  refine ⟨?_, ?_, ?_, ?_⟩
  · rw [HeapState.elem, HeapState.adjustCount_mem, hkeep, get_set_apart (by decide),
      get_set_apart (by decide), hmarker, bmsize]
    exact h.markerSize
  · rw [HeapState.elem, HeapState.adjustCount_mem, hkeep, get_set_apart (by decide),
      get_set_apart (by decide), hmarker, bmstate]
    exact h.markerState
  · rw [HeapState.elem, HeapState.adjustCount_mem, hkeep, get_set_apart (by decide),
      get_set_apart (by decide), hmarker, bprev]
  · rw [HeapState.elem, HeapState.adjustCount_mem, hkeep, get_set_apart (by decide),
      get_set_apart (by decide), hback, bstate]

/-- The marker is the element of the block that was handed out behind it. -/
theorem fromData_marker (h : s.elem .state (2 ^ 32 - 64) = ElemState.busy.val) :
    mallocElemFromData s.mem (2 ^ 32) = 2 ^ 32 - 64 := by
  have hpad : mallocElem.get .state s.mem (2 ^ 32 - 64) ≠ ElemState.pad.val := by
    rw [show mallocElem.get .state s.mem (2 ^ 32 - 64) = ElemState.busy.val from h]
    decide
  rw [mallocElemFromData, if_neg (by decide),
    show rtePtrSub (2 ^ 32) mallocElemHeaderLen = 2 ^ 32 - 64 by decide]
  simp only
  rw [if_neg (by decide), if_pos hpad]

/-- Freeing a busy element succeeds. -/
theorem mallocElemFree_busy {e : Nat} (h0 : e ≠ 0) (hb : s.elem .state e = ElemState.busy.val) :
    (mallocElemFree s e).2 = 0 := by
  rw [mallocElemFree_eq h0 hb]

theorem fill_zero (m : Mem) (a : Nat) (b : UInt8) : fill m a 0 b = m :=
  funext fun x => fill_out (by omega)

/-- Freeing the marker joins it to the element in front, clears nothing and leaves it busy. -/
theorem free_marker (h : MarkerJoins s) :
    (mallocElemFree s (2 ^ 32 - 64)).1.elem .state (2 ^ 32 - 64) = ElemState.busy.val := by
  have hself : rtePtrAdd (2 ^ 32 - 64) 0 = 2 ^ 32 - 64 := by decide
  have hnext : freeNext s (2 ^ 32 - 64) = (s, 0) := by
    simp only [freeNext, h.size, hself]
    exact if_neg (by rw [h.state]; decide)
  have hprev : freePrev s (2 ^ 32 - 64) = ((elemFreeListRemove s (2 ^ 32 - 4032)).setMem
      (joinElem s.mem (2 ^ 32 - 4032) (2 ^ 32 - 64)), 64, 2 ^ 32 - 4032) := by
    simp only [freePrev, h.prev]
    exact if_pos ⟨by decide, h.prevState⟩
  have hjoin : mallocElem.get .state (joinElem s.mem (2 ^ 32 - 4032) (2 ^ 32 - 64)) (2 ^ 32 - 64) =
      ElemState.busy.val := by
    have hmsize : mallocElem.get .size s.mem (2 ^ 32 - 64) = 0 := h.size
    simp only [joinElem, hmsize, hself]
    rw [get_set_other (by decide), get_set_apart (by decide)]
    exact h.state
  have hlen : Word.add 64 (Word.add 64 (Word.sub 64 (Word.sub 64 0 64) 0) 0) 64 = 0 := by decide
  rw [mallocElemFree_eq (by decide) h.state]
  simp only [hnext, hprev, h.size, hlen, fill_zero]
  generalize joinElem s.mem (2 ^ 32 - 4032) (2 ^ 32 - 64) = m at hjoin
  have hmem := inserted_mem (elemFreeListRemove s (2 ^ 32 - 4032)) (2 ^ 32 - 4032) m
  generalize mallocElemFreeListInsert ((elemFreeListRemove s (2 ^ 32 - 4032)).setMem m)
    (2 ^ 32 - 4032) = s₁ at hmem
  rw [HeapState.elem, HeapState.setMem_mem, HeapState.modifyHeap_mem, hmem,
    get_set_apart (by decide), hjoin]

end

/-- The run: the request that is answered with the end marker, and a block of 64 bytes. -/
def markerState : RunState := (MallocOp.alloc 0 (2 ^ 64 - 64) 0 (2 ^ 6) 0).run bigSegStart

def joinState : RunState := (MallocOp.alloc 0 64 0 (2 ^ 12) 0).run markerState

theorem reach_joinState : Reach (MallocInit bigSeg fun _ => 0) MallocStep joinState := by
  have hstart : MallocInit bigSeg (fun _ => 0) bigSegStart := by
    rw [MallocInit, bigSegStart]
  have hvalid := MallocOp.valid_alloc bigSegStart 0 (2 ^ 64 - 64) 0 6 (by decide)
  have hvalid' := MallocOp.valid_alloc markerState 0 64 0 12 (by decide)
  exact .next (.next (.start hstart) ⟨.alloc 0 (2 ^ 64 - 64) 0 (2 ^ 6) 0, hvalid, by rw [markerState]⟩)
    ⟨.alloc 0 64 0 (2 ^ 12) 0, hvalid', by rw [joinState]⟩

def markerBlock : Block := ⟨2 ^ 32, 2 ^ 64 - 64, 2 ^ 6, 0, false⟩

theorem joinState_spec : markerBlock ∈ joinState.live ∧ MarkerJoins joinState.heap := by
  obtain ⟨s', halloc, htaken⟩ := alloc_marker bigSegStart_inv.rep
  have hmarker : markerState = ⟨s', [markerBlock]⟩ := by
    rw [markerState, MallocOp.run_alloc, halloc, MallocOp.allocated,
      if_neg (show ¬2 ^ 32 = 0 by decide), bigSegStart, markerBlock]
  rw [joinState, MallocOp.run_alloc, hmarker, MallocOp.allocated]
  refine ⟨?_, alloc_page htaken⟩
  dsimp only
  split_ifs
  · exact List.mem_cons_self
  · exact List.mem_cons_of_mem _ List.mem_cons_self

/-- The block behind the marker can be freed twice. -/
theorem not_repeat_detected : ∃ r, Reach (MallocInit bigSeg fun _ => 0) MallocStep r ∧
    ∃ b ∈ r.live, (mallocElemFree r.heap (mallocElemFromData r.heap.mem b.ptr)).2 = 0 ∧
      ¬RepeatDetected r.heap b.ptr := by
  obtain ⟨hlive, hjoins⟩ := joinState_spec
  refine ⟨joinState, reach_joinState, markerBlock, hlive, ?_⟩
  rw [show markerBlock.ptr = 2 ^ 32 from rfl, RepeatDetected, fromData_marker hjoins.state]
  have hfree := mallocElemFree_busy (by decide) hjoins.state
  have hstill := free_marker hjoins
  generalize hs : mallocElemFree joinState.heap (2 ^ 32 - 64) = res at hfree hstill
  obtain ⟨s', v⟩ := res
  simp only at hfree hstill
  subst hfree
  refine ⟨rfl, fun h => ?_⟩
  have hres := congrArg Prod.snd (h s' rfl)
  rw [fromData_marker hstill, mallocElemFree_busy (by decide) hstill] at hres
  exact absurd (show (0 : Int) = -1 from hres) (by decide)

end RteDemo
