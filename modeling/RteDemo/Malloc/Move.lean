import RteDemo.Malloc.Realloc

/-!
# What callers of `rte_realloc` see

A block that grows can move to a heap of another socket, and takes with it a number of bytes that fits
the old block only if this has no padding, or the new one is small (`realloc_ok`, `realloc_node`). A
block that shrinks stays, unless the default alignment is asked for: an `align` of zero is rounded up
to zero, and then makes the mask of `RTE_PTR_ALIGN` one of `2 ^ 32` bytes (`realloc_shrink`).
-/

namespace RteDemo

open Bytes Tiling

/-! ## The alignment of the pointer -/

theorem rteAlignFloor_add_mask {ptr j : Nat} (hlt : ptr < 2 ^ 64) (hj : j ≤ 64) (hd : 2 ^ j ∣ ptr) :
    rteAlignFloor (rtePtrAdd ptr (2 ^ j - 1)) (2 ^ j - 1) = ptr := by
  have hpos := Nat.two_pow_pos j
  obtain ⟨q, rfl⟩ := hd
  obtain ⟨t, ht⟩ : 2 ^ j ∣ 2 ^ 64 := Nat.pow_dvd_pow 2 hj
  -- the pointer is at least one alignment below the top
  have hq : q + 1 ≤ t := by
    rw [ht] at hlt
    exact Nat.lt_of_mul_lt_mul_left hlt
  have htop : 2 ^ j * q + 2 ^ j ≤ 2 ^ 64 := by
    rw [ht, ← Nat.mul_succ]
    exact Nat.mul_le_mul_left _ hq
  rw [rtePtrAdd_eq (by omega), rteAlignFloor_two_pow (by omega) hj, Nat.add_comm, Nat.add_mul_div_left _ _ hpos,
    Nat.div_eq_of_lt (by omega), Nat.zero_add, Nat.mul_comm]

theorem reallocAlign_two_pow {k : Nat} (hk : k < 32) : reallocAlign (2 ^ k) = 2 ^ max k 6 := by
  have hle : 2 ^ k ≤ 2 ^ 31 := Nat.pow_le_pow_right (by decide) (by omega)
  rw [reallocAlign, rteCacheLineRoundup_eq (by decide) (by omega)]
  rcases Nat.le_total k 6 with h6 | h6
  · have h64 : 2 ^ k ≤ 2 ^ 6 := Nat.pow_le_pow_right (by decide) h6
    have hpos := Nat.two_pow_pos k
    rw [Nat.max_eq_right h6]
    omega
  · obtain ⟨q, hq⟩ : 2 ^ 6 ∣ 2 ^ k := Nat.pow_dvd_pow 2 h6
    rw [Nat.max_eq_left h6]
    omega

theorem rtePtrAlign_two_pow {ptr k : Nat} (hlt : ptr < 2 ^ 64) (hk : k < 32) (hd : 2 ^ k ∣ ptr) :
    rtePtrAlign ptr (2 ^ k) = ptr := by
  have hle : 2 ^ k ≤ 2 ^ 31 := Nat.pow_le_pow_right (by decide) (by omega)
  have hpos := Nat.two_pow_pos k
  have hmask : Word.sub 32 (2 ^ k) 1 = 2 ^ k - 1 := Word.sub_eq hpos (by omega)
  rw [rtePtrAlign, hmask]
  exact rteAlignFloor_add_mask hlt (by omega) hd

/-- Aligned to zero is aligned to `2 ^ 32`. -/
theorem rtePtrAlign_zero {ptr : Nat} (hlt : ptr < 2 ^ 64) : rtePtrAlign ptr 0 = ptr ↔ 2 ^ 32 ∣ ptr := by
  have hmask : Word.sub 32 0 1 = 2 ^ 32 - 1 := by decide
  rw [rtePtrAlign, hmask]
  constructor
  · intro h
    have hfloor := @rteAlignFloor_two_pow (rtePtrAdd ptr (2 ^ 32 - 1)) 32 (Word.add_lt 64 _ _) (by decide)
    exact Dvd.intro_left _ (hfloor.symm.trans h)
  · exact rteAlignFloor_add_mask hlt (by decide)

section

variable {segs : List RteMemseg} {r : RunState} {ars : List Arena} {size k align : Nat}

/-- The end of a block is in the address space. -/
theorem Inv.ptr_lt (h : Inv segs r ars) {b : Block} (hb : b ∈ r.live) : b.ptr < 2 ^ 64 := by
  obtain ⟨-, a, n, pad, hold⟩ := h.live b hb
  obtain ⟨c, rfl, rfl⟩ := hold.focus
  have htop := h.rep.top
  have hptr := hold.ptr
  have hsz := hold.size
  simp only [total_cons, total_nil] at htop
  omega

/-- An alignment that the pointer has is no reason to move. -/
theorem Inv.ptrAlign (h : Inv segs r ars) {b : Block} (hb : b ∈ r.live) (hk : k < 32) (hd : 2 ^ k ∣ b.ptr) :
    rtePtrAlign b.ptr (reallocAlign (2 ^ k)) = b.ptr := by
  obtain ⟨hplaced, -⟩ := h.live b hb
  rw [reallocAlign_two_pow hk]
  refine rtePtrAlign_two_pow (h.ptr_lt hb) (by omega) ?_
  rcases Nat.le_total k 6 with h6 | h6
  · rw [Nat.max_eq_right h6]
    exact hplaced.cacheLine
  · rwa [Nat.max_eq_left h6]

/-- A length that the block has room for needs no resize. -/
theorem Inv.resize_within (h : Inv segs r ars) {b : Block} (hb : b ∈ r.live) (hle : size ≤ r.heap.usable b) :
    mallocElemResize r.heap (mallocElemFromData r.heap.mem b.ptr) (rteCacheLineRoundup 64 size) =
      (r.heap, 0) := by
  obtain ⟨-, a, n, pad, hold⟩ := h.live b hb
  have hfrom := h.rep.fromData hold
  have hu := h.rep.usable hold
  have hsz := hold.size
  have htop := hold.size_lt h.rep
  have hok := h.rep.placed_ok hold.mem
  obtain ⟨hn, -, hpad, -, -⟩ := hok
  obtain ⟨c, rfl, rfl⟩ := hold.focus
  obtain ⟨i, hi⟩ := hn
  obtain ⟨j, hj⟩ := hpad
  simp only at hi hj
  have hround := @rteCacheLineRoundup_eq 64 size (by decide) (by omega)
  have hd : 64 ∣ rteCacheLineRoundup 64 size := hround ▸ Nat.dvd_mul_right 64 _
  have hfit : rteCacheLineRoundup 64 size + pad + 64 ≤ n := by omega
  rw [hfrom]
  rcases h.rep.resize (fun e he => h.settled_focus e (List.mem_append_right _ he)) hd (by omega) with
    ⟨-, hcode⟩ | ⟨hlt, -⟩ | ⟨-, k, R, hgrown⟩
  · exact hcode
  · omega
  · have hlt := hgrown.lt
    omega

/-- The pointer of a block is that of no other. -/
theorem Inv.allocated_ne (h : Inv segs r ars) {b : Block} (hb : b ∈ r.live) {s' : HeapState}
    {heap ptr n front : Nat} {c : Focus} (hars : ars = c.plug [⟨n, .free⟩])
    (ha : Allocated r.heap s' heap size 0 align 0 ptr c n front) (h64 : 64 ∣ align) : ptr ≠ b.ptr := by
  subst hars
  have hplaced := @Block.placed_mk size ptr _ ha.fits.aligned h64
  have hd := (h.allocated ha (Nat.le_refl size) hplaced).distinct
  exact List.rel_of_pairwise_cons hd hb

end

/-! ## What a call promises -/

section

variable {segs : List RteMemseg} {m : Mem} {r : RunState} {b : Block} {size align : Nat}

/-- The block stays where it is, and so does everything else. -/
def Kept (env : EalEnv) (s : HeapState) (ptr size align : Nat) : Prop :=
  rteRealloc env s ptr size align = some (s, ptr)

/-- A block that the call leaves alone is one that stays. -/
theorem Inv.kept_stays {ars : List Arena} (h : Inv segs r ars) (env : EalEnv) (hb : b ∈ r.live)
    (hx : ReallocExact env r b size align) (hkept : Kept env r.heap b.ptr size align) :
    Stays r.heap b.ptr size align := by
  rw [Kept] at hkept
  cases h.reallocated env hb hx with
  | stays _ hstay => exact hstay
  | refused _ _ hcode =>
    obtain ⟨-, a, n, pad, hold⟩ := h.live b hb
    have hptr := hold.ptr
    have hnull := (Prod.mk.inj (Option.some.inj (hcode.symm.trans hkept))).2
    omega
  | moved hto s' res hcode _ _ hars ha =>
    have hsame := (Prod.mk.inj (Option.some.inj (hcode.symm.trans hkept))).2
    exact absurd hsame (h.allocated_ne hb hars ha hto.2.1.2.1.dvd)

/-- With the default alignment only a pointer that is aligned to `2 ^ 32` stays. -/
theorem Inv.stays_zero {ars : List Arena} (h : Inv segs r ars) (hb : b ∈ r.live)
    (hstay : Stays r.heap b.ptr size 0) : 2 ^ 32 ∣ b.ptr :=
  (rtePtrAlign_zero (h.ptr_lt hb)).mp hstay.1

/-- Within its size and its alignment a block is left alone. No search is made, so none has to be exact. -/
theorem Inv.kept_within {ars : List Arena} (h : Inv segs r ars) (env : EalEnv) (hb : b ∈ r.live)
    (hle : size ≤ r.heap.usable b)
    (halign : align = 0 ∧ 2 ^ 32 ∣ b.ptr ∨ ∃ k < 32, align = 2 ^ k ∧ 2 ^ k ∣ b.ptr) :
    Kept env r.heap b.ptr size align := by
  have hresize := h.resize_within hb hle
  have haligned : rtePtrAlign b.ptr (reallocAlign align) = b.ptr := by
    rcases halign with ⟨rfl, hd⟩ | ⟨k, hk, rfl, hd⟩
    · exact (rtePtrAlign_zero (h.ptr_lt hb)).mpr hd
    · exact h.ptrAlign hb hk hd
  have hstays : Stays r.heap b.ptr size align := by
    rw [Stays, hresize]
    exact ⟨haligned, Eq.refl _⟩
  obtain ⟨hptr, helem⟩ := h.elem_ne_zero hb
  obtain ⟨hcode, -⟩ := rteRealloc_stays env hptr helem hstays
  rw [hresize] at hcode
  exact hcode

/-- **A block that shrinks stays where it is**, but not when the default alignment is asked for. -/
theorem realloc_shrink (hok : MemsegsOK segs) (h : Reach (MallocInit segs m) ExactStep r) (env : EalEnv)
    (hb : b ∈ r.live) (hle : size ≤ r.heap.usable b)
    (halign : align = 0 ∨ ∃ k < 32, align = 2 ^ k ∧ 2 ^ k ∣ b.ptr)
    (hx : ReallocExact env r b size align) :
    Kept env r.heap b.ptr size align ↔ (align = 0 → 2 ^ 32 ∣ b.ptr) := by
  obtain ⟨ars, hinv⟩ := Inv.of_reach hok h
  constructor
  · rintro hkept rfl
    exact hinv.stays_zero hb (hinv.kept_stays env hb hx hkept)
  · intro hcond
    exact hinv.kept_within env hb hle (halign.imp_left fun h0 => ⟨h0, hcond h0⟩)

/-- Memsegs do not overlap. -/
theorem InHeap.unique (hok : MemsegsOK segs) {i j q : Nat} (hi : InHeap segs i q 1) (hj : InHeap segs j q 1) :
    i = j := by
  obtain ⟨a, ha, rfl, halo, hahi⟩ := hi
  obtain ⟨b, hb, rfl, hblo, hbhi⟩ := hj
  have hsymm : Std.Symm fun a b : RteMemseg => a.addr + a.len ≤ b.addr ∨ b.addr + b.len ≤ a.addr :=
    ⟨fun _ _ => Or.symm⟩
  by_contra hne
  have hapart := hok.disjoint.forall ha hb fun heq => hne (congrArg RteMemseg.socketId heq)
  omega

end

/-! ## A full heap beside an empty one -/

/-- Two megabytes on socket 0 and a gigabyte on socket 1. -/
def nodeSegs : List RteMemseg := [⟨2 ^ 28, 2 ^ 21, 2 ^ 21, 0⟩, ⟨2 ^ 30, 2 ^ 30, 2 ^ 21, 1⟩]

theorem nodeSegs_ok : MemsegsOK nodeSegs where
  count := by decide
  pos := by decide
  dvd := by decide
  long := by decide
  top := by decide
  socket := by decide
  disjoint := by decide

def nodeArenas (D : List Elem) : List Arena :=
  [⟨0, 0, 2 ^ 28, D⟩, ⟨1, 1, 2 ^ 30, [⟨2 ^ 30 - 64, .free⟩]⟩]

def nodeStart : RunState := ⟨rteEalMallocHeapInit (HeapState.boot nodeSegs fun _ => 0), []⟩

theorem nodeStart_inv : Inv nodeSegs nodeStart (nodeArenas [⟨2 ^ 21 - 64, .free⟩]) :=
  Inv.init nodeSegs_ok (m := fun _ => 0) rfl

/-- A block that takes all of socket 0, behind padding. -/
def nodeAlloc : MallocOp := .alloc 0 (2 ^ 21 - 192) 0 (2 ^ 7) 0

def nodeBlock : Block := ⟨2 ^ 28 + 128, 2 ^ 21 - 192, 2 ^ 7, 0, false⟩

section

variable {r : RunState} {D : List Elem} {size align : Nat}

theorem nodeArenas_free {heap x n : Nat} {ar : Arena} (har : ar ∈ nodeArenas D) (hheap : ar.heap = heap)
    (hn : (x, ⟨n, .free⟩) ∈ place Elem.size ar.base ar.elems) :
    heap = 0 ∧ (x, ⟨n, .free⟩) ∈ place Elem.size (2 ^ 28) D ∨ heap = 1 ∧ x = 2 ^ 30 ∧ n = 2 ^ 30 - 64 := by
  subst hheap
  rcases List.mem_cons.mp har with rfl | har
  · exact .inl ⟨rfl, hn⟩
  · rw [List.mem_singleton.mp har] at hn ⊢
    have heq := List.mem_singleton.mp hn
    exact .inr ⟨rfl, congrArg Prod.fst heq, congrArg (fun p => p.2.size) heq⟩

/-- The gap on socket 0 is the whole memseg. -/
theorem nodeArenas_focus {c : Focus} {e e' : Elem} (heq : nodeArenas [e'] = c.plug [e]) (hheap : c.heap = 0) :
    e = e' ∧ c.pos = 2 ^ 28 ∧ ∀ D', c.plug D' = nodeArenas D' := by
  obtain ⟨before, heap, ms, base, left, right, after⟩ := c
  simp only [nodeArenas, Focus.plug, Focus.arena] at heq hheap
  cases before with
  | nil =>
    simp only [List.nil_append, List.cons.injEq, Arena.mk.injEq] at heq
    obtain ⟨⟨rfl, rfl, rfl, helems⟩, rfl⟩ := heq
    cases left with
    | nil =>
      simp only [List.nil_append, List.cons_append, List.cons.injEq] at helems
      obtain ⟨rfl, rfl⟩ := helems
      exact ⟨rfl, rfl, fun D' => by simp [nodeArenas, Focus.plug, Focus.arena]⟩
    | cons x left => simp at helems
  | cons x before =>
    cases before with
    | nil =>
      simp only [List.cons_append, List.nil_append, List.cons.injEq, Arena.mk.injEq] at heq
      omega
    | cons y before => simp at heq

/-- The only element of the first memseg is taken. -/
theorem nodeAlloc_inv (h : Inv nodeSegs r (nodeArenas [⟨2 ^ 21 - 64, .free⟩])) (hlive : r.live = []) :
    nodeAlloc.NoWrap r ∧ Inv nodeSegs (nodeAlloc.run r) (nodeArenas [⟨2 ^ 21 - 64, .busy 64⟩]) ∧
      (nodeAlloc.run r).live = [nodeBlock] := by
  have hround : rteCacheLineRoundup 64 (2 ^ 21 - 192) = 2 ^ 21 - 192 := by decide
  have halign : rteCacheLineRoundup 64 (2 ^ 7) = 2 ^ 7 := by decide
  have hlisted : 2 ^ 28 ∈ (r.heap.mallocHeaps 0).freeHead (mallocElemFreeListIndex (2 ^ 21 - 64 - 64)) :=
    h.rep.mem_freeHead.mpr ⟨_, List.mem_cons_self, rfl, _, List.mem_singleton.mpr rfl, rfl⟩
  have hsize : r.heap.elem .size (2 ^ 28) = 2 ^ 21 - 64 :=
    h.rep.elem_size (mem_placed.mpr ⟨_, List.mem_cons_self, List.mem_singleton.mpr rfl⟩)
  have hexact : SearchExact r.heap (2 ^ 21 - 192) 0 (2 ^ 7) 0
      ((r.heap.mallocHeaps 0).candidates (2 ^ 21 - 192)) := by
    refine SearchExact.of_all fun e he => ?_
    obtain ⟨ar, har, hheap, n, hn, -⟩ := h.rep.mem_candidates.mp he
    rcases nodeArenas_free har hheap hn with ⟨-, hn⟩ | ⟨hone, -⟩
    · obtain rfl : e = 2 ^ 28 := congrArg Prod.fst (List.mem_singleton.mp hn)
      rw [hsize]
      decide
    · exact absurd hone (by decide)
  have hcan : CanServe r.heap 0 (2 ^ 21 - 192) (2 ^ max 7 6) 0 :=
    ⟨_, 2 ^ 28, hlisted, 2 ^ 28 + 128, hsize ▸ ⟨by decide, by decide, by decide, noCross_zero _ _⟩⟩
  have hserved := (h.rep.served_iff (by decide) (.inl rfl) (by decide) (by decide) hround (.inl rfl)
    (.inr (pageOK_zero _)) hexact).mpr hcan
  have hwrap : nodeAlloc.NoWrap r := by
    simp only [nodeAlloc, MallocOp.NoWrap, hround, halign]
    exact ⟨by decide, hexact⟩
  have halloc := @Inv.heapAlloc _ _ _ h 0 (2 ^ 21 - 192) 0 7 0 (by decide) (.inl rfl) (by decide) hwrap.2
  refine ⟨hwrap, ?_⟩
  rw [nodeAlloc, MallocOp.run_alloc]
  rw [hround] at halloc
  generalize mallocHeapAlloc r.heap 0 (2 ^ 21 - 192) 0 (2 ^ 7) 0 = res at *
  rcases halloc with hnone | ⟨c, n, front, hars, ha⟩
  · exact absurd (congrArg Prod.snd hnone) hserved
  obtain ⟨hn, hpos, hplug⟩ := nodeArenas_focus hars ha.heapEq
  obtain rfl : n = 2 ^ 21 - 64 := congrArg Elem.size hn
  have hhead := ha.fits.header
  have hstop := ha.fits.stop
  have haligned : 2 ^ 7 ∣ res.2 := ha.fits.aligned
  have hptr := ha.ptrEq
  rw [hpos] at hhead hstop hptr
  simp only [mallocElemHeaderLen] at hhead
  obtain ⟨hres, rfl⟩ : res.2 = 2 ^ 28 + 128 ∧ front = 64 := by omega
  have hinv := (hars ▸ h).allocated ha (Nat.le_refl _) (ha.fits.placed (Nat.le_refl _))
  have helems : allocElems (2 ^ 21 - 64) 64 (2 ^ 21 - 192) = [⟨2 ^ 21 - 64, .busy 64⟩] := by decide
  rw [helems, hplug] at hinv
  rw [MallocOp.allocated, if_neg hserved, hlive, hres] at *
  exact ⟨hinv, rfl⟩

/-- The block and its padding. -/
theorem node_holds : Holds (nodeArenas [⟨2 ^ 21 - 64, .busy 64⟩]) nodeBlock (2 ^ 28) (2 ^ 21 - 64) 64 where
  mem := mem_placed.mpr ⟨_, List.mem_cons_self, List.mem_singleton.mpr rfl⟩
  ptr := by decide
  size := by decide

/-- The only free element is the one on socket 1. -/
theorem node_free {ar : Arena} (har : ar ∈ nodeArenas [⟨2 ^ 21 - 64, .busy 64⟩]) {x n : Nat}
    (hn : (x, ⟨n, .free⟩) ∈ place Elem.size ar.base ar.elems) : ar.heap = 1 ∧ x = 2 ^ 30 ∧ n = 2 ^ 30 - 64 := by
  rcases nodeArenas_free har rfl hn with ⟨-, hn⟩ | hone
  · have huse := congrArg (fun p => p.2.use) (List.mem_singleton.mp hn)
    simp at huse
  · exact hone

variable (h : Inv nodeSegs r (nodeArenas [⟨2 ^ 21 - 64, .busy 64⟩]))

include h

theorem node_usable : r.heap.usable nodeBlock = 2 ^ 21 - 192 := h.rep.usable node_holds

theorem node_pad : r.heap.elem .pad (r.elemOf nodeBlock) = 64 := by
  rw [RunState.elemOf, h.rep.fromData node_holds]
  exact h.rep.elem_pad node_holds.mem

theorem node_size : r.heap.elem .size (2 ^ 30) = 2 ^ 30 - 64 :=
  h.rep.elem_size (mem_placed.mpr
    ⟨_, List.mem_cons_of_mem _ List.mem_cons_self, List.mem_singleton.mpr rfl⟩)

theorem node_allExact (hx : StartExact (2 ^ 30 + (2 ^ 30 - 64)) size align 0) (l : List Nat) :
    AllExact r.heap size align l := by
  intro heap _
  refine SearchExact.of_all fun e he => ?_
  obtain ⟨ar, har, -, n, hn, -⟩ := h.rep.mem_candidates.mp he
  obtain ⟨-, rfl, -⟩ := node_free har hn
  rw [node_size h]
  exact hx

/-- Socket 1 has room for it. -/
theorem node_canServe : CanServe r.heap 1 (2 ^ 21 - 128) 64 0 := by
  have hlisted : 2 ^ 30 ∈ (r.heap.mallocHeaps 1).freeHead (mallocElemFreeListIndex (2 ^ 30 - 64 - 64)) :=
    h.rep.mem_freeHead.mpr ⟨_, List.mem_cons_of_mem _ List.mem_cons_self, rfl, _,
      List.mem_singleton.mpr rfl, rfl⟩
  refine ⟨_, 2 ^ 30, hlisted, 2 ^ 30 + 64, ?_⟩
  rw [node_size h]
  exact ⟨by decide, by decide, by decide, noCross_zero _ _⟩

/-- A thread on socket 1. -/
abbrev onSocketOne : EalEnv := ⟨true, 1⟩

theorem node_exact (hsize : size + 63 < 2 ^ 63)
    (hx : StartExact (2 ^ 30 + (2 ^ 30 - 64)) (rteCacheLineRoundup 64 size) (effAlign (reallocAlign align)) 0) :
    ReallocExact onSocketOne r nodeBlock size align := by
  have hround := @rteCacheLineRoundup_eq 64 size (by decide) (by omega)
  refine ⟨by omega, ?_, fun _ _ => node_allExact h hx _⟩
  simp only [MallocOp.NoWrap, node_pad h]
  omega

end

/-- The state with the block. -/
def nodeState : RunState := nodeAlloc.run nodeStart

theorem nodeState_spec : Reach (MallocInit nodeSegs fun _ => 0) ExactStep nodeState ∧
    Inv nodeSegs nodeState (nodeArenas [⟨2 ^ 21 - 64, .busy 64⟩]) ∧ nodeBlock ∈ nodeState.live := by
  have hstart : MallocInit nodeSegs (fun _ => 0) nodeStart := by
    rw [MallocInit, nodeStart]
  have hvalid : nodeAlloc.Valid nodeStart := MallocOp.valid_alloc nodeStart 0 (2 ^ 21 - 192) 0 7 (by decide)
  obtain ⟨hwrap, hinv, hlive⟩ := nodeAlloc_inv nodeStart_inv (by rw [nodeStart])
  refine ⟨.next (.start hstart) ⟨nodeAlloc, hvalid, hwrap, by rw [nodeState]⟩, hinv, ?_⟩
  rw [nodeState, hlive]
  exact List.mem_cons_self

theorem realloc_shrink_node : Kept onSocketOne nodeState.heap nodeBlock.ptr 64 (2 ^ 6) := by
  obtain ⟨hreach, hinv, hlive⟩ := nodeState_spec
  refine (realloc_shrink nodeSegs_ok hreach onSocketOne hlive ?_ (.inr ⟨6, by decide, rfl, by decide⟩)
    (node_exact hinv (by decide) (by decide))).mpr fun h0 => absurd h0 (by decide)
  rw [node_usable hinv]
  decide

theorem not_realloc_shrink : Reach (MallocInit nodeSegs fun _ => 0) ExactStep nodeState ∧
    nodeBlock ∈ nodeState.live ∧ 64 ≤ nodeState.heap.usable nodeBlock ∧
      ¬Kept onSocketOne nodeState.heap nodeBlock.ptr 64 0 := by
  obtain ⟨hreach, hinv, hlive⟩ := nodeState_spec
  have hle : 64 ≤ nodeState.heap.usable nodeBlock := by
    rw [node_usable hinv]
    decide
  refine ⟨hreach, hlive, hle, fun hkept => ?_⟩
  have hstays := hinv.kept_stays onSocketOne hlive (node_exact hinv (by decide) (by decide)) hkept
  exact absurd (hinv.stays_zero hlive hstays) (by decide)

end RteDemo
