import RteDemo.Malloc.Layout

/-!
# An allocation that wraps

`elem_start_pt` subtracts the header from a data address that the alignment has rounded down. When
that address is `0` the subtraction wraps, the result is above the element and passes the test against
its start: one memseg at `2 ^ 30` and one request for 64 bytes aligned to `2 ^ 31` do it. The front
split then writes a size of nearly `2 ^ 64` into the element.

Small requests in the same memseg are exact, and a run of two of them leaves two blocks (`exists_twoBlocks`).
-/

namespace RteDemo

open Bytes Tiling

/-- One memseg of a gigabyte. -/
def oneSeg : List RteMemseg := [⟨2 ^ 30, 2 ^ 30, 2 ^ 21, 0⟩]

theorem oneSeg_ok : MemsegsOK oneSeg where
  count := by decide
  pos := by decide
  dvd := by decide
  long := by decide
  top := by decide
  socket := by decide
  disjoint := List.pairwise_singleton _ _

/-- Its heap before anything is allocated. -/
def oneSegStart : RunState := ⟨rteEalMallocHeapInit (HeapState.boot oneSeg fun _ => 0), []⟩

/-- The state after a refused request. -/
def wrapped : RunState := (MallocOp.alloc 0 64 0 (2 ^ 31) 0).run oneSegStart

/-- The free element of the memseg. -/
def oneSegFocus : Focus := ⟨[], 0, 0, 2 ^ 30, [], [], []⟩

theorem oneSegStart_inv : Inv oneSeg oneSegStart (oneSegFocus.plug [⟨2 ^ 30 - 64, .free⟩]) :=
  Inv.init oneSeg_ok (m := fun _ => 0) rfl

theorem mallocElemAlloc_snd (s : HeapState) (elem size align bound : Nat) :
    (mallocElemAlloc s elem size align bound).2 =
      elemStartPt elem (s.elem .size elem) size align bound := by
  rw [mallocElemAlloc]
  dsimp only
  exact (apply_ite Prod.snd _ _ _).trans (ite_self _)

/-- The front split, whatever was given back behind the block. -/
theorem mallocElemAlloc_split {s : HeapState} {elem size align bound newElem : Nat}
    (hnew : elemStartPt elem (s.elem .size elem) size align bound = newElem)
    (hold : ¬Word.sub 64 newElem elem < 128) : ∃ s₁ : HeapState, s₁.memseg = s.memseg ∧
      mallocElemAlloc s elem size align bound =
        (mallocElemFreeListInsert (s₁.setMem (mallocElem.set .state
          (splitElem s₁.mem elem newElem) newElem ElemState.busy.val)) elem, newElem) := by
  have hrem := (sameCounts_remove s elem).memseg
  unfold mallocElemAlloc
  rw [hnew]
  dsimp only
  rw [if_neg (show ¬Word.sub 64 newElem elem < mallocElemOverhead + minDataSize from hold)]
  refine ⟨_, ?_, rfl⟩
  split_ifs
  · exact (sameCounts_insert _ _).memseg.trans hrem
  · exact hrem

/-- It leaves the distance to the new header in the size field. -/
theorem mallocElemAlloc_size {s : HeapState} {elem size align bound newElem : Nat}
    (hnew : elemStartPt elem (s.elem .size elem) size align bound = newElem)
    (hold : ¬Word.sub 64 newElem elem < 128) (hapart : elem + 64 ≤ newElem) :
    ∃ s', mallocElemAlloc s elem size align bound = (s', newElem) ∧ s'.memseg = s.memseg ∧
      s'.elem .size elem = Word.sub 64 newElem elem := by
  obtain ⟨s₁, hseg, hcode⟩ := mallocElemAlloc_split hnew hold
  refine ⟨_, hcode, (sameCounts_insert _ _).memseg.trans hseg, ?_⟩
  have hmem : (mallocElemFreeListInsert (s₁.setMem (mallocElem.set .state
      (splitElem s₁.mem elem newElem) newElem ElemState.busy.val)) elem).mem =
      mallocElem.set .state (mallocElem.set .state (splitElem s₁.mem elem newElem) newElem
        ElemState.busy.val) elem ElemState.free.val := rfl
  rw [HeapState.elem, hmem, get_set_other (by decide), get_set_apart (by omega), splitElem,
    get_set_word rfl (Word.sub_lt 64 newElem elem)]

/-- A search is exact if no element it may visit makes a subtraction borrow. -/
theorem SearchExact.of_all {s : HeapState} {size flags align bound : Nat} {l : List Nat}
    (h : ∀ e ∈ l, StartExact (e + s.elem .size e) size align bound) :
    SearchExact s size flags align bound l := by
  induction l with
  | nil => trivial
  | cons e l ih => exact ⟨h e List.mem_cons_self, .inr (ih fun e' he' => h e' (List.mem_cons_of_mem _ he'))⟩

/-- The search takes the first candidate, if the request asks for no pages and it can hold it. -/
theorem find_head {s : HeapState} {heap size align bound e : Nat} {rest : List Nat}
    (hlist : (s.mallocHeaps heap).candidates size = e :: rest)
    (hcan : mallocElemCanHold s.mem e size align bound = true) :
    findSuitableElement s heap size 0 align bound = e := by
  have hflags : checkHugepageSz 0 (s.memseg.getD (s.elem .ms e) default).hugepageSz = 1 :=
    if_pos (by decide)
  rw [findSuitableElement, hlist, findSuitableElementLoop, if_pos hcan, hflags, if_pos (by decide)]

/-- The same for the only candidate. -/
theorem find_only {s : HeapState} {heap size align bound e : Nat}
    (hmem : ∀ x, x ∈ (s.mallocHeaps heap).candidates size ↔ x = e)
    (hcan : mallocElemCanHold s.mem e size align bound = true) :
    findSuitableElement s heap size 0 align bound = e := by
  obtain ⟨x, rest, hlist⟩ := List.exists_cons_of_ne_nil (List.ne_nil_of_mem ((hmem e).mpr rfl))
  have hx : x = e := (hmem x).mp (hlist ▸ List.mem_cons_self)
  exact find_head (hx ▸ hlist) hcan

section

variable {s : HeapState}

/-- The only free element is a candidate for a small request. -/
theorem oneSeg_candidates (h : HeapRep s (oneSegFocus.plug [⟨2 ^ 30 - 64, .free⟩])) (x : Nat) :
    x ∈ (s.mallocHeaps 0).candidates 64 ↔ x = 2 ^ 30 := by
  have hplaced : ∀ {x n : Nat}, (x, Elem.mk n .free) ∈
      place Elem.size (oneSegFocus.arena [⟨2 ^ 30 - 64, .free⟩]).base
        (oneSegFocus.arena [⟨2 ^ 30 - 64, .free⟩]).elems ↔ x = 2 ^ 30 ∧ n = 2 ^ 30 - 64 := by
    intro x n
    simp [oneSegFocus, Focus.arena]
  rw [h.mem_candidates]
  constructor
  · rintro ⟨ar, har, -, n, hn, -⟩
    rw [List.mem_singleton.mp (show ar ∈ [oneSegFocus.arena _] from har)] at hn
    exact (hplaced.mp hn).1
  · rintro rfl
    exact ⟨_, HeapRep.arena_mem _ _, rfl, _, hplaced.mpr ⟨rfl, rfl⟩, by decide⟩

/-- The search takes the only free element, in which the request does not fit. -/
theorem find_wrapped (h : HeapRep s (oneSegFocus.plug [⟨2 ^ 30 - 64, .free⟩])) :
    findSuitableElement s 0 64 0 (2 ^ 31) 0 = 2 ^ 30 := by
  have hsize : mallocElem.get .size s.mem (2 ^ 30) = 2 ^ 30 - 64 := h.single_hdr.size
  have hcan : mallocElemCanHold s.mem (2 ^ 30) 64 (2 ^ 31) 0 = true := by
    rw [mallocElemCanHold, hsize]
    decide
  exact find_only (oneSeg_candidates h) hcan

/-- The request is refused, and the element has got another size. -/
theorem alloc_wrapped (h : HeapRep s (oneSegFocus.plug [⟨2 ^ 30 - 64, .free⟩])) :
    ∃ s', mallocHeapAlloc s 0 64 0 (2 ^ 31) 0 = (s', 0) ∧ s'.memseg = s.memseg ∧
      s'.elem .size (2 ^ 30) = 2 ^ 64 - 64 - 2 ^ 30 := by
  have hsize : s.elem .size (2 ^ 30) = 2 ^ 30 - 64 := h.single_hdr.size
  have hcode := mallocHeapAlloc_eq (show rteCacheLineRoundup 64 64 = 64 by decide)
    (show rteCacheLineRoundup 64 (2 ^ 31) = 2 ^ 31 by decide) (find_wrapped h)
  have hstart : elemStartPt (2 ^ 30) (s.elem .size (2 ^ 30)) 64 (2 ^ 31) 0 = 2 ^ 64 - 64 := by
    rw [hsize]
    decide
  obtain ⟨s', halloc, hseg, hsize'⟩ := mallocElemAlloc_size hstart (by decide) (by decide)
  rw [if_pos (by decide), halloc] at hcode
  dsimp only at hcode
  rw [if_neg (by decide), show rtePtrAdd (2 ^ 64 - 64) mallocElemHeaderLen = 0 by decide] at hcode
  have hdist : Word.sub 64 (2 ^ 64 - 64) (2 ^ 30) = 2 ^ 64 - 64 - 2 ^ 30 := by decide
  exact ⟨_, hcode, hseg, hsize'.trans hdist⟩

end

/-- A power of two is a valid alignment, and no bound is a valid bound. -/
theorem MallocOp.valid_alloc (r : RunState) (heap size flags k : Nat) (hk : k < 32) :
    (alloc heap size flags (2 ^ k) 0).Valid r :=
  And.intro (Exists.intro k ⟨hk, Eq.refl _⟩) (Or.inl (Eq.refl 0))

/-- It is a step that callers are allowed. -/
theorem reach_wrapped : Reach (MallocInit oneSeg fun _ => 0) MallocStep wrapped := by
  have hvalid := MallocOp.valid_alloc oneSegStart 0 64 0 31 (by decide)
  have hstart : MallocInit oneSeg (fun _ => 0) oneSegStart := by
    rw [MallocInit, oneSegStart]
  refine .next (.start hstart) ⟨.alloc 0 64 0 (2 ^ 31) 0, hvalid, ?_⟩
  rw [wrapped]

theorem wrapped_eq : wrapped.live = [] ∧ wrapped.heap.memseg = oneSeg ∧
    wrapped.heap.elem .size (2 ^ 30) = 2 ^ 64 - 64 - 2 ^ 30 := by
  obtain ⟨s', halloc, hseg, hsize⟩ := alloc_wrapped oneSegStart_inv.rep
  rw [wrapped, MallocOp.run_alloc, halloc, MallocOp.allocated, if_pos (Eq.refl 0)]
  exact ⟨Eq.refl _, hseg.trans oneSegStart_inv.memseg, hsize⟩

/-! ## A run in which nothing wraps

Two blocks are allocated, the first is freed, and the second grows into its place.
-/

/-- The arena of the memseg. -/
def oneArena (D : List Elem) : List Arena := [⟨0, 0, 2 ^ 30, D⟩]

/-- A gap in it. -/
def oneFocus (L R : List Elem) : Focus := ⟨[], 0, 0, 2 ^ 30, L, R, []⟩

theorem oneArena_focus {c : Focus} {D D' : List Elem} (h : oneArena D = c.plug D') :
    ∃ L R, c = oneFocus L R ∧ D = L ++ D' ++ R := by
  obtain ⟨before, heap, ms, base, left, right, after⟩ := c
  simp only [oneArena, Focus.plug, Focus.arena] at h
  cases before with
  | nil =>
    simp only [List.nil_append, List.cons.injEq, Arena.mk.injEq] at h
    obtain ⟨⟨rfl, rfl, rfl, helems⟩, rfl⟩ := h
    exact ⟨left, right, rfl, helems⟩
  | cons x before => simp at h

/-- A request for 64 bytes. -/
def smallAlloc : MallocOp := .alloc 0 64 0 (2 ^ 6) 0

/-- It is served and nothing wraps. -/
def SmallStep (r r' : RunState) : Prop := smallAlloc.NoWrap r ∧ r' = smallAlloc.run r

theorem SmallStep.exact {r r' : RunState} (h : SmallStep r r') : ExactStep r r' :=
  ⟨smallAlloc, MallocOp.valid_alloc r 0 64 0 6 (by decide), h.1, h.2⟩

/-- The block that it gets at `ptr`. -/
def smallBlock (ptr : Nat) : Block := ⟨ptr, 64, 2 ^ 6, 0, false⟩

section

variable {r : RunState} {n : Nat} {R : List Elem}

theorem oneArena_candidates {s : HeapState} (h : HeapRep s (oneArena (⟨n, .free⟩ :: R)))
    (hR : ∀ e ∈ R, e.use ≠ .free)
    (hidx : mallocElemFreeListIndex 64 ≤ mallocElemFreeListIndex (n - 64)) (x : Nat) :
    x ∈ (s.mallocHeaps 0).candidates 64 ↔ x = 2 ^ 30 := by
  rw [h.mem_candidates]
  constructor
  · rintro ⟨ar, har, -, m, hm, -⟩
    rw [List.mem_singleton.mp har] at hm
    rcases List.mem_cons.mp hm with heq | hm
    · exact congrArg Prod.fst heq
    · exact absurd rfl (hR _ (mem_of_mem_place Elem.size hm))
  · rintro rfl
    exact ⟨_, List.mem_singleton.mpr rfl, rfl, n, List.mem_cons_self, hidx⟩

/-- The block is taken from the end of the free element. -/
theorem Inv.small_alloc (h : Inv oneSeg r (oneArena (⟨n, .free⟩ :: R))) (hR : ∀ e ∈ R, e.use ≠ .free)
    (hidx : mallocElemFreeListIndex 64 ≤ mallocElemFreeListIndex (n - 64))
    (hexact : StartExact (2 ^ 30 + n) 64 (2 ^ 6) 0)
    (hstart : elemStartPt (2 ^ 30) n 64 (2 ^ 6) 0 = 2 ^ 30 + (n - 128)) (hlt : n < 2 ^ 31)
    (helems : allocElems n (n - 128) 64 = [⟨n - 128, .free⟩, ⟨128, .busy 0⟩]) :
    smallAlloc.NoWrap r ∧
      (smallAlloc.run r).live = smallBlock (2 ^ 30 + (n - 128) + 64) :: r.live ∧
      Inv oneSeg (smallAlloc.run r) (oneArena (⟨n - 128, .free⟩ :: ⟨128, .busy 0⟩ :: R)) := by
  have hround : rteCacheLineRoundup 64 64 = 64 := by decide
  have halign : rteCacheLineRoundup 64 (2 ^ 6) = 2 ^ 6 := by decide
  have hrep : HeapRep r.heap ((oneFocus [] R).plug [⟨n, .free⟩]) := h.rep
  have hpos : (oneFocus [] R).pos = 2 ^ 30 := by simp [oneFocus, Focus.pos]
  have hsize : r.heap.elem .size (2 ^ 30) = n := hpos ▸ hrep.single_hdr.size
  have hcand := oneArena_candidates h.rep hR hidx
  have hsearch : SearchExact r.heap 64 0 (2 ^ 6) 0 ((r.heap.mallocHeaps 0).candidates 64) :=
    SearchExact.of_all fun e he => by
      rw [(hcand e).mp he, hsize]
      exact hexact
  have hwrap : smallAlloc.NoWrap r := by
    simp only [smallAlloc, MallocOp.NoWrap, hround, halign]
    exact ⟨by decide, hsearch⟩
  -- where the block is
  have hcan : mallocElemCanHold r.heap.mem (2 ^ 30) 64 (2 ^ 6) 0 = true := by
    rw [mallocElemCanHold, show mallocElem.get .size r.heap.mem (2 ^ 30) = n from hsize, hstart, bne_iff_ne]
    omega
  have hptr : (mallocHeapAlloc r.heap 0 64 0 (2 ^ 6) 0).2 = 2 ^ 30 + (n - 128) + 64 := by
    rw [mallocHeapAlloc_eq hround halign (find_only hcand hcan), if_pos (by decide)]
    dsimp only
    rw [mallocElemAlloc_snd, hsize, hstart, if_neg (by omega), mallocElemHeaderLen, rtePtrAdd_eq (by omega)]
  have halloc := @Inv.heapAlloc _ _ _ h 0 64 0 6 0 (by decide) (.inl rfl) (by decide) hwrap.2
  refine ⟨hwrap, ?_⟩
  rw [smallAlloc, MallocOp.run_alloc]
  rw [hround] at halloc
  generalize mallocHeapAlloc r.heap 0 64 0 (2 ^ 6) 0 = res at *
  rcases halloc with hnone | ⟨c, n', front, hars, ha⟩
  · have hzero := congrArg Prod.snd hnone
    simp only at hzero
    omega
  obtain ⟨L, R', rfl, hD⟩ := oneArena_focus hars
  obtain ⟨rfl, rfl, rfl⟩ : L = [] ∧ n' = n ∧ R' = R := by
    cases L with
    | nil =>
      simp only [List.nil_append, List.cons_append, List.cons.injEq, Elem.mk.injEq, and_true] at hD
      exact ⟨rfl, hD.1.symm, hD.2.symm⟩
    | cons x L =>
      simp only [List.cons_append, List.cons.injEq] at hD
      exact absurd rfl (hR ⟨n', .free⟩ (by rw [hD.2]; simp))
  have hfront := ha.ptrEq
  rw [hpos, hptr] at hfront
  have hdist : front = n' - 128 := by omega
  have hinv := (hars ▸ h).allocated ha (Nat.le_refl _) (ha.fits.placed (Nat.le_refl _))
  rw [hdist, helems] at hinv
  have hafter : MallocOp.allocated r 64 (2 ^ 6) 0 res =
      ⟨res.1, smallBlock (2 ^ 30 + (n' - 128) + 64) :: r.live⟩ := by
    rw [MallocOp.allocated, hptr, if_neg (by omega), smallBlock]
  rw [hptr] at hinv
  rw [hafter]
  exact ⟨Eq.refl _, hinv⟩

/-- The last element is freed; the one before it is busy. -/
theorem Inv.free_last {m : Nat} {b : Block}
    (h : Inv oneSeg r (oneArena [⟨m, .free⟩, ⟨128, .busy 0⟩, ⟨128, .busy 0⟩])) (hb : b ∈ r.live)
    (hptr : b.ptr = 2 ^ 30 + m + 192) (hsize : b.size = 64) :
    Inv oneSeg ((MallocOp.free b).run r) (oneArena [⟨m, .free⟩, ⟨128, .busy 0⟩, ⟨128, .free⟩]) := by
  have hold : Holds (oneArena [⟨m, .free⟩, ⟨128, .busy 0⟩, ⟨128, .busy 0⟩]) b (2 ^ 30 + m + 128) 128 0 :=
    ⟨mem_placed.mpr ⟨_, List.mem_singleton.mpr rfl, by simp⟩, by omega, by omega⟩
  have hpos : (oneFocus [⟨m, .free⟩, ⟨128, .busy 0⟩] []).pos = 2 ^ 30 + m + 128 := by
    simp [oneFocus, Focus.pos, Nat.add_assoc]
  have hinv : Inv oneSeg r ((oneFocus [⟨m, .free⟩, ⟨128, .busy 0⟩] []).plug [⟨128, .busy 0⟩]) := h
  obtain ⟨-, L, A, B, R, hf⟩ := hinv.rep.free hinv.settled_focus
  have hfrom := h.rep.fromData hold
  rw [← hpos] at hfrom hold
  have hfreed := hinv.freed hb hold hf
  -- nothing is absorbed
  have hleft : [⟨m, .free⟩, ⟨128, .busy 0⟩] = L ++ A := hf.left
  have hright : [] = B ++ R := hf.right
  obtain ⟨rfl, rfl⟩ := List.nil_eq_append_iff.mp hright
  obtain rfl : A = [] := by
    rcases hf.absorbedLeft with rfl | ⟨k, rfl⟩
    · rfl
    · have hlast := congrArg List.getLast? hleft
      simp at hlast
  rw [List.append_nil] at hleft
  subst hleft
  simp only [MallocOp.run, RunState.elemOf, hfrom]
  exact hfreed

/-- The second block grows into the element behind it. -/
theorem Inv.grow_last {m : Nat} {b : Block}
    (h : Inv oneSeg r (oneArena [⟨m, .free⟩, ⟨128, .busy 0⟩, ⟨128, .free⟩]))
    (hptr : b.ptr = 2 ^ 30 + m + 64) (hsize : b.size = 64) (hm : m < 2 ^ 30) :
    (MallocOp.resize b 128).NoWrap r ∧
      ((MallocOp.resize b 128).run r).live = { b with size := 128, grown := true } :: r.live.erase b := by
  have hold : Holds (oneArena [⟨m, .free⟩, ⟨128, .busy 0⟩, ⟨128, .free⟩]) b (2 ^ 30 + m) 128 0 :=
    ⟨mem_placed.mpr ⟨_, List.mem_singleton.mpr rfl, by simp⟩, by omega, by omega⟩
  have hpos : (oneFocus [⟨m, .free⟩] [⟨128, .free⟩]).pos = 2 ^ 30 + m := by simp [oneFocus, Focus.pos]
  have hfrom := h.rep.fromData hold
  have hrep : HeapRep r.heap ((oneFocus [⟨m, .free⟩] [⟨128, .free⟩]).plug [⟨128, .busy 0⟩]) := h.rep
  have hnext : HeapRep r.heap ((oneFocus [⟨m, .free⟩, ⟨128, .busy 0⟩] []).plug [⟨128, .free⟩]) := h.rep
  have hpad : r.heap.elem .pad (2 ^ 30 + m) = 0 := hpos ▸ hrep.single_hdr.use.2.1
  have hn : r.heap.elem .size (2 ^ 30 + m) = 128 := hpos ▸ hrep.single_hdr.size
  have hpos' : (oneFocus [⟨m, .free⟩, ⟨128, .busy 0⟩] []).pos = 2 ^ 30 + m + 128 := by
    simp [oneFocus, Focus.pos, Nat.add_assoc]
  have hfree : r.heap.elem .state (2 ^ 30 + m + 128) = ElemState.free.val := hpos' ▸ hnext.single_hdr.use
  have hsz : r.heap.elem .size (2 ^ 30 + m + 128) = 128 := hpos' ▸ hnext.single_hdr.size
  have hzero : (mallocElemResize r.heap (2 ^ 30 + m) 128).2 = 0 := by
    simp only [mallocElemResize, hpad, hn, rtePtrAdd_eq (show 2 ^ 30 + m + 128 < 2 ^ 64 by omega), hfree, hsz]
    rw [if_neg (by decide), if_neg (not_not.mpr rfl), if_neg (by decide)]
    split_ifs <;> rfl
  constructor
  · simp only [MallocOp.NoWrap, RunState.elemOf, hfrom, hpad]
    decide
  · simp only [MallocOp.run, RunState.elemOf, hfrom, hzero, if_true, hsize]
    simp

end

/-- Two blocks of 64 bytes, the second below the first. -/
theorem exists_twoBlocks : ∃ r, Reach (MallocInit oneSeg fun _ => 0) SmallStep r ∧
    r.live = [smallBlock (2 ^ 31 - 256), smallBlock (2 ^ 31 - 128)] ∧ smallAlloc.NoWrap r ∧
    Inv oneSeg r (oneArena [⟨2 ^ 30 - 320, .free⟩, ⟨128, .busy 0⟩, ⟨128, .busy 0⟩]) := by
  have hreach : Reach (MallocInit oneSeg fun _ => 0) SmallStep oneSegStart := .start (by rw [MallocInit, oneSegStart])
  have hinv : Inv oneSeg oneSegStart (oneArena [⟨2 ^ 30 - 64, .free⟩]) := oneSegStart_inv
  have hlive : oneSegStart.live = [] := by rw [oneSegStart]
  generalize oneSegStart = r at hreach hinv hlive
  obtain ⟨hwrap₁, hlive₁, hinv₁⟩ := hinv.small_alloc nofun (by decide) (by decide) (by decide) (by decide) (by decide)
  obtain ⟨hwrap₂, hlive₂, hinv₂⟩ := hinv₁.small_alloc (by simp) (by decide) (by decide) (by decide) (by decide)
    (by decide)
  obtain ⟨hwrap₃, -, -⟩ := hinv₂.small_alloc (by simp) (by decide) (by decide) (by decide) (by decide) (by decide)
  refine ⟨_, (hreach.next ⟨hwrap₁, rfl⟩).next ⟨hwrap₂, rfl⟩, ?_, hwrap₃, hinv₂⟩
  rw [hlive₂, hlive₁, hlive]
  decide

end RteDemo
