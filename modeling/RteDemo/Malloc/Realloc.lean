import RteDemo.Malloc.Socket

/-!
# `rte_realloc`

A block is resized where it is, or its contents are copied to a new block and it is freed. The copy
takes its length from the size of the element, padding included, in an `unsigned`: it is right for
blocks without padding, or that shrink, of less than `2 ^ 32` bytes.
-/

namespace RteDemo

open Bytes Tiling

/-! ## The promise -/

/-- The length of the copy when a block moves. -/
def copySize (s : HeapState) (elem size : Nat) : Nat :=
  if Word.sub 64 (s.elem .size elem) mallocElemOverhead % 2 ^ 32 < size then
    Word.sub 64 (s.elem .size elem) mallocElemOverhead % 2 ^ 32
  else size

/-- The length of the copy, if `rte_realloc` moves the block. -/
def reallocCopied (env : EalEnv) (s : HeapState) (ptr size align : Nat) : Option Nat :=
  let elem := mallocElemFromData s.mem ptr
  let size := rteCacheLineRoundup 64 size
  let align := rteCacheLineRoundup 32 align
  let r := mallocElemResize s elem size
  if rtePtrAlign ptr align = ptr ∧ r.2 = 0 then none
  else
    let s := if rtePtrAlign ptr align = ptr then r.1 else s
    let r := rteMalloc env s size align
    if r.2 = 0 then none else some (copySize r.1 elem size)

/-- A block that moves is copied so far. -/
theorem reallocMove_eq (s : HeapState) (ptr newPtr elem size : Nat) :
    reallocMove s ptr newPtr elem size =
      (rteFree (s.setMem (copy s.mem newPtr ptr (copySize s elem size))) ptr).map fun s => (s, newPtr) := rfl

section

variable {segs : List RteMemseg} {r : RunState} {ars : List Arena} {size k : Nat}

/-! ## Moving a block -/

/-- The size that the header of an element shows. -/
theorem HeapRep.elem_size {s : HeapState} (h : HeapRep s ars) {a : Nat} {e : Elem}
    (hm : (a, e) ∈ placed ars) : s.elem .size a = e.size := by
  obtain ⟨ar, har, hin⟩ := mem_placed.mp hm
  obtain ⟨c, rfl, rfl, -, -, -⟩ := Focus.exists_plug har hin
  exact h.single_hdr.size

theorem Holds.size_lt {b : Block} {a n pad : Nat} (hold : Holds ars b a n pad) {s : HeapState}
    (h : HeapRep s ars) : n < 2 ^ 64 := by
  obtain ⟨c, rfl, rfl⟩ := hold.focus
  have ht := h.top
  simp only [total_cons, total_nil] at ht
  omega

/-- The bytes of a block after it was moved. -/
structure Moved (r : RunState) (b : Block) (size len : Nat) (s' : HeapState) (q : Nat) : Prop where
  content : ∀ i < len, i < r.heap.usable b → s'.mem (q + i) = r.heap.mem (b.ptr + i)
  usable : ∃ u', rteMallocValidate s' q = some u' ∧ size ≤ u'

/-- A live block can be freed. -/
theorem Inv.rteFree_live (h : Inv segs r ars) {b : Block} (hb : b ∈ r.live) :
    rteFree r.heap b.ptr = some ((MallocOp.free b).run r).heap := by
  obtain ⟨-, a, n, pad, hold⟩ := h.live b hb
  have hfrom := h.rep.fromData hold
  obtain ⟨c, hc, hpos⟩ := hold.focus
  have hret := ((hc ▸ h.rep).free (hc ▸ h).settled_focus).1
  have hptr0 : b.ptr ≠ 0 := by
    have := hold.ptr
    omega
  rw [rteFree, if_neg hptr0]
  simp only [MallocOp.run, RunState.elemOf]
  rw [hfrom, ← hpos, hret, if_neg (by decide)]

theorem Inv.reallocMove (h : Inv segs r ars) {b : Block} (hb : b ∈ r.live) {a n pad : Nat}
    (hold : Holds ars b a n pad) {align heap front n' : Nat} {c : Focus} {res : HeapState × Nat}
    (hars : ars = c.plug [⟨n', .free⟩])
    (ha : Allocated r.heap res.1 heap size 0 align 0 res.2 c n' front)
    (hplaced : Block.Placed ⟨res.2, size, align, 0, false⟩) :
    res.1.elem .size a = n ∧ ∃ s', RteDemo.reallocMove res.1 b.ptr res.2 a size = some (s', res.2) ∧
      Moved r b size (min ((n - 64) % 2 ^ 32) size) s' res.2 := by
  subst hars
  obtain ⟨q, hq⟩ : ∃ q, res.2 = q := ⟨_, rfl⟩
  obtain ⟨s₁, hs₁⟩ : ∃ s₁, res.1 = s₁ := ⟨_, rfl⟩
  rw [hq] at ha hplaced ⊢
  rw [hs₁] at ha ⊢
  obtain ⟨nb, hnb⟩ : ∃ nb : Block, nb = ⟨q, size, align, 0, false⟩ := ⟨_, rfl⟩
  have h₁ := h.allocated ha (Nat.le_refl size) hplaced
  rw [← hnb] at h₁
  have hkeep : ∀ x, b.ptr ≤ x → x < b.ptr + r.heap.usable b → s₁.mem x = r.heap.mem x :=
    fun x hx hx' => ha.edit.usable_keep hold (by simp) hx hx'
  have hold₁ := ha.edit.holds hold (by simp)
  have hsize := h₁.rep.elem_size hold₁.mem
  have hn := (h.rep.placed_ok hold.mem).le
  have htop : n < 2 ^ 64 := hold.size_lt h.rep
  simp only at hn hsize
  refine ⟨hsize, ?_⟩
  -- the copy stays inside of the new block
  have hnbl : nb ∈ nb :: r.live := List.mem_cons_self
  obtain ⟨-, a', m', pad', hold'⟩ := h₁.live nb hnbl
  have hend := h₁.rep.ptr_add_usable hold'
  have hsz' := hold'.size
  have hptr' := hold'.ptr
  have hq' : nb.ptr = q := by rw [hnb]
  have hs' : nb.size = size := by rw [hnb]
  obtain ⟨len, hlen⟩ : ∃ len, min ((n - 64) % 2 ^ 32) size = len := ⟨_, rfl⟩
  have hle : len ≤ size := hlen ▸ Nat.min_le_right _ _
  obtain ⟨m₂, hm₂⟩ : ∃ m₂, copy s₁.mem q b.ptr len = m₂ := ⟨_, rfl⟩
  have hout : ∀ x, (x < nb.ptr ∨ nb.ptr + (RunState.mk s₁ (nb :: r.live)).heap.usable nb ≤ x) →
      m₂ x = s₁.mem x := by
    intro x hx
    rw [← hm₂]
    exact copy_out (by omega)
  have h₂ := h₁.written hold' hout
  -- the old block is freed
  have hb₂ : b ∈ nb :: r.live := List.mem_cons_of_mem _ hb
  have hne : nb ≠ b := by
    intro heq
    have hd := List.rel_of_pairwise_cons h₁.distinct hb
    exact hd (congrArg Block.ptr heq)
  have hfree := @Inv.undisturbed _ _ _ h₂ (.free b) hb₂ trivial
  obtain ⟨ars₃, -, h₃⟩ := @Inv.step _ _ _ h₂ (.free b) hb₂ trivial
  have hcode := h₂.rteFree_live hb₂
  refine ⟨((MallocOp.free b).run ⟨s₁.setMem m₂, nb :: r.live⟩).heap, ?_, ?_⟩
  · rw [RteDemo.reallocMove]
    simp only [hsize]
    have hmin : (if Word.sub 64 n mallocElemOverhead % 2 ^ 32 < size then
        Word.sub 64 n mallocElemOverhead % 2 ^ 32 else size) = len := by
      rw [← hlen, show Word.sub 64 n mallocElemOverhead = n - 64 from Word.sub_eq hn htop]
      split <;> omega
    rw [hmin, hm₂, hcode]
    rfl
  · refine ⟨fun i hi hu => ?_, ?_⟩
    · rw [hlen] at hi
      have husable : ((RunState.mk (s₁.setMem m₂) (nb :: r.live)).heap).usable nb = m' - pad' - 64 :=
        h₂.rep.usable hold'
      have husable₁ := h₁.rep.usable hold'
      rw [husable₁] at hend
      have hstay := hfree nb hnbl (fun heq => hne heq.symm) (q + i) (by omega) (by rw [husable]; omega)
      rw [hstay]
      change m₂ (q + i) = _
      rw [← hm₂, copy_in (Nat.le_add_right q i) (by omega), Nat.add_sub_cancel_left]
      exact hkeep _ (Nat.le_add_right _ _) (by omega)
    · have hnb₃ : nb ∈ ((MallocOp.free b).run ⟨s₁.setMem m₂, nb :: r.live⟩).live :=
        h₂.mem_erase.mpr ⟨hne, hnbl⟩
      obtain ⟨-, a₃, n₃, pad₃, hold₃⟩ := h₃.live nb hnb₃
      have hsz₃ := hold₃.size
      have hval := h₃.rep.validate hold₃
      rw [hq'] at hval
      exact ⟨n₃ - pad₃ - 64, hval, by omega⟩

/-! ## Reallocation -/

/-- The alignment that `rte_realloc` goes on with. -/
def reallocAlign (align : Nat) : Nat := rteCacheLineRoundup 32 align

/-- The block stays where it is. -/
def Stays (s : HeapState) (ptr size align : Nat) : Prop :=
  rtePtrAlign ptr (reallocAlign align) = ptr ∧
    (mallocElemResize s (mallocElemFromData s.mem ptr) (rteCacheLineRoundup 64 size)).2 = 0

/-- Nothing wraps: neither the round-up, nor the sum of the resize, nor, when the block moves, a
search of `rte_malloc`. -/
def ReallocExact (env : EalEnv) (r : RunState) (b : Block) (size align : Nat) : Prop :=
  size + 63 < 2 ^ 64 ∧ (MallocOp.resize b (rteCacheLineRoundup 64 size)).NoWrap r ∧
    (¬Stays r.heap b.ptr size align → MallocAlign (reallocAlign align) →
      AllExact r.heap (rteCacheLineRoundup 64 size) (effAlign (reallocAlign align))
        (mallocOrder env socketIdAny))

/-- The size without the header, in 32 bits, or the new size: what a move copies. -/
def copyLen (r : RunState) (b : Block) (size : Nat) : Nat :=
  min ((r.heap.usable b + r.heap.elem .pad (r.elemOf b)) % 2 ^ 32) (rteCacheLineRoundup 64 size)

/-- The first heap of `l` that can serve the request. -/
def FirstServing (s : HeapState) (size align : Nat) (l : List Nat) (heap : Nat) : Prop :=
  ∃ l₁ l₂, l = l₁ ++ heap :: l₂ ∧ (∀ i ∈ l₁, ¬CanServe s i size align 0) ∧ CanServe s heap size align 0

/-- The block does not stay, and `heap` is the first to serve the request for its new place. -/
def MovesTo (env : EalEnv) (r : RunState) (b : Block) (size align heap : Nat) : Prop :=
  ¬Stays r.heap b.ptr size align ∧ (0 < rteCacheLineRoundup 64 size ∧ MallocAlign (reallocAlign align) ∧
    mallocGetNumaSocket env < rteMaxNumaNodes) ∧
    FirstServing r.heap (rteCacheLineRoundup 64 size) (effAlign (reallocAlign align))
      (mallocOrder env socketIdAny) heap

/-- What a call of `rte_realloc` does. -/
inductive Reallocated (env : EalEnv) (r : RunState) (ars : List Arena) (b : Block) (size align : Nat) : Prop
  | stays (s' : HeapState) (stays : Stays r.heap b.ptr size align)
      (code : rteRealloc env r.heap b.ptr size align = some (s', b.ptr))
      (copied : reallocCopied env r.heap b.ptr size align = none)
      (resize : mallocElemResize r.heap (mallocElemFromData r.heap.mem b.ptr)
        (rteCacheLineRoundup 64 size) = (s', 0))
  | refused (never : ∀ heap, ¬MovesTo env r b size align heap) (moves : ¬Stays r.heap b.ptr size align)
      (code : rteRealloc env r.heap b.ptr size align = some (r.heap, 0))
      (copied : reallocCopied env r.heap b.ptr size align = none)
  | moved {heap n front : Nat} {c : Focus} (moves : MovesTo env r b size align heap) (s' : HeapState)
      (res : HeapState × Nat) (code : rteRealloc env r.heap b.ptr size align = some (s', res.2))
      (copied : reallocCopied env r.heap b.ptr size align = some (copyLen r b size))
      (moved : Moved r b (rteCacheLineRoundup 64 size) (copyLen r b size) s' res.2)
      (arenas : ars = c.plug [⟨n, .free⟩])
      (alloc : Allocated r.heap res.1 heap (rteCacheLineRoundup 64 size) 0 (effAlign (reallocAlign align)) 0
        res.2 c n front)

theorem FirstServing.unique {s : HeapState} {align : Nat} {l : List Nat} {i j : Nat}
    (hi : FirstServing s size align l i) (hj : FirstServing s size align l j) : i = j := by
  obtain ⟨l₁, l₂, rfl, hnot, hcan⟩ := hi
  obtain ⟨l₁', l₂', heq, hnot', hcan'⟩ := hj
  rcases List.append_eq_append_iff.mp heq with ⟨t, rfl, ht⟩ | ⟨t, rfl, ht⟩
  · cases t with
    | nil => exact (List.cons.inj ht).1
    | cons x t =>
      rw [(List.cons.inj ht).1] at hcan
      exact absurd hcan (hnot' x (List.mem_append_right _ List.mem_cons_self))
  · cases t with
    | nil => exact (List.cons.inj ht).1.symm
    | cons x t =>
      rw [(List.cons.inj ht).1] at hcan'
      exact absurd hcan' (hnot x (List.mem_append_right _ List.mem_cons_self))

/-- A request that some heap can serve is served. -/
theorem Served.ne_zero {s : HeapState} {align heap : Nat} {l : List Nat}
    {res : HeapState × Nat} (h : Served s ars size align l res) (hmem : heap ∈ l)
    (hcan : CanServe s heap size align 0) : res.2 ≠ 0 := by
  cases h with
  | refused hnone => exact absurd hcan (hnone heap hmem)
  | served _ _ _ halloc =>
    have hptr := halloc.ptrEq
    omega

/-- A request is served by the first heap that can. -/
theorem Served.first {s : HeapState} {align : Nat} {l : List Nat} {res : HeapState × Nat}
    (h : Served s ars size align l res) (hne : res.2 ≠ 0) :
    ∃ heap c n front, FirstServing s size align l heap ∧ ars = c.plug [⟨n, .free⟩] ∧
      Allocated s res.1 heap size 0 align 0 res.2 c n front := by
  cases h with
  | refused => exact absurd rfl hne
  | served hfirst hcan hars ha => exact ⟨_, _, _, _, ⟨_, _, rfl, hfirst, hcan⟩, hars, ha⟩

theorem reallocAlign_lt (align : Nat) : reallocAlign align < 2 ^ 32 := by
  have hlt := Word.sub_lt 32 (Word.add 32 align 64) 1
  have hle := Nat.div_mul_le_self (Word.sub 32 (Word.add 32 align 64) 1) 64
  rw [reallocAlign, rteCacheLineRoundup, rteCacheLineSize, Nat.mul_comm]
  omega

/-- **`rte_malloc`**, for a length that is rounded already and any alignment. -/
theorem Inv.rteMalloc_served (h : Inv segs r ars) (env : EalEnv) {align : Nat} (ha : align < 2 ^ 32)
    (hd : 64 ∣ size) (hround : size + 63 < 2 ^ 64)
    (hx : MallocAlign align → AllExact r.heap size (effAlign align) (mallocOrder env socketIdAny)) :
    (¬(0 < size ∧ MallocAlign align ∧ mallocGetNumaSocket env < rteMaxNumaNodes) ∧
        rteMalloc env r.heap size align = (r.heap, 0)) ∨
      (0 < size ∧ MallocAlign align ∧ mallocGetNumaSocket env < rteMaxNumaNodes) ∧
        Served r.heap ars size (effAlign align) (mallocOrder env socketIdAny)
          (rteMalloc env r.heap size align) := by
  have hany : effSocket env socketIdAny = socketIdAny := ite_self _
  by_cases hok : 0 < size ∧ MallocAlign align ∧ mallocGetNumaSocket env < rteMaxNumaNodes
  · obtain ⟨hpos, hal, hnuma⟩ := hok
    refine .inr ⟨⟨hpos, hal, hnuma⟩, h.rep.mallocSocket_served hal hpos hround
      (rteCacheLineRoundup_of_dvd (by decide) hd hround) ?_ (hx hal)⟩
    rw [mallocOrder, if_pos hany]
    intro heap hheap
    rw [← Option.some.inj hheap]
    exact hnuma
  · refine .inl ⟨hok, ?_⟩
    rw [rteMalloc, rteMallocSocket]
    split
    · rfl
    · rename_i hguard
      rw [not_or, not_and, Bool.not_eq_false] at hguard
      simp only [ite_self, if_true]
      refine if_pos (Nat.le_of_not_lt fun hnuma => hok ⟨Nat.pos_of_ne_zero hguard.1, ?_, hnuma⟩)
      by_cases h0 : align = 0
      · exact .inl h0
      · obtain ⟨k, hpow⟩ := rteIsPowerOf2_iff.mp (hguard.2 h0)
        refine .inr ⟨k, ?_, hpow⟩
        rw [hpow] at ha
        exact (Nat.pow_lt_pow_iff_right (by decide)).mp ha

/-- A resize that is refused leaves the heap as it is. -/
theorem Inv.resize_refused (h : Inv segs r ars) {b : Block} (hb : b ∈ r.live) (hd : 64 ∣ size)
    (hn : (MallocOp.resize b size).NoWrap r)
    (hret : (mallocElemResize r.heap (mallocElemFromData r.heap.mem b.ptr) size).2 ≠ 0) :
    (mallocElemResize r.heap (mallocElemFromData r.heap.mem b.ptr) size).1 = r.heap := by
  obtain ⟨-, a, n, pad, hold⟩ := h.live b hb
  have hfrom := h.rep.fromData hold
  have hpad := h.rep.elem_pad hold.mem
  obtain ⟨c, rfl, rfl⟩ := hold.focus
  simp only [MallocOp.NoWrap, RunState.elemOf, hfrom, hpad] at hn hret ⊢
  rcases h.rep.resize (fun e he => h.settled_focus e (List.mem_append_right _ he)) hd hn with
    ⟨-, hcode⟩ | ⟨-, hcode⟩ | ⟨hzero, -⟩
  · rw [hcode]
  · rw [hcode]
  · exact absurd hzero hret

/-- A block that stays where it is keeps its bytes and has the new size. -/
theorem Inv.resize_done (h : Inv segs r ars) {b : Block} (hb : b ∈ r.live) (hd : 64 ∣ size)
    (hn : (MallocOp.resize b size).NoWrap r) (hret : (mallocElemResize r.heap (r.elemOf b) size).2 = 0) :
    (∀ i < r.heap.usable b,
      (mallocElemResize r.heap (r.elemOf b) size).1.mem (b.ptr + i) = r.heap.mem (b.ptr + i)) ∧
      ∃ u', rteMallocValidate (mallocElemResize r.heap (r.elemOf b) size).1 b.ptr = some u' ∧
        size ≤ u' := by
  have hvalid : (MallocOp.resize b size).Valid r := ⟨hb, hd⟩
  have hkeep := h.undisturbed hvalid hn b hb id
  obtain ⟨ars', -, h'⟩ := h.step hvalid hn
  refine ⟨fun i hi => hkeep (b.ptr + i) (Nat.le_add_right _ _) (by omega), ?_⟩
  have hlive : { b with size := size, grown := b.grown || decide (b.size < size) } ∈
      ((MallocOp.resize b size).run r).live := by
    simp only [MallocOp.run, hret, if_true]
    exact List.mem_cons_self
  obtain ⟨-, a, n, pad, hold⟩ := h'.live _ hlive
  have hsz := hold.size
  have hval := h'.rep.validate hold
  simp only at hsz
  exact ⟨n - pad - 64, hval, by omega⟩

/-- The alignment that `rte_malloc` gives a block is one of at least a cache line. -/
theorem MallocAlign.dvd {align : Nat} (h : MallocAlign align) : 64 ∣ effAlign align := by
  obtain ⟨k, hk, hpow⟩ := h.pow
  rw [effAlign, hpow, rteCacheLineRoundup_two_pow hk]
  exact Nat.pow_dvd_pow 2 (Nat.le_max_right k 6)

section

variable (env : EalEnv) {s : HeapState} {ptr align : Nat}

theorem rteRealloc_stays (hptr : ptr ≠ 0) (helem : mallocElemFromData s.mem ptr ≠ 0)
    (hstay : Stays s ptr size align) :
    rteRealloc env s ptr size align =
        some ((mallocElemResize s (mallocElemFromData s.mem ptr) (rteCacheLineRoundup 64 size)).1, ptr) ∧
      reallocCopied env s ptr size align = none := by
  unfold Stays reallocAlign at hstay
  rw [rteRealloc, if_neg hptr, reallocCopied]
  simp only [if_neg helem]
  exact ⟨if_pos hstay, if_pos hstay⟩

/-- A block that does not stay is moved to what `rte_malloc` gives. -/
theorem rteRealloc_moves (hptr : ptr ≠ 0) (helem : mallocElemFromData s.mem ptr ≠ 0)
    (hmoves : ¬Stays s ptr size align)
    (hsame : rtePtrAlign ptr (reallocAlign align) = ptr →
      (mallocElemResize s (mallocElemFromData s.mem ptr) (rteCacheLineRoundup 64 size)).1 = s) :
    (rteRealloc env s ptr size align =
      if (rteMalloc env s (rteCacheLineRoundup 64 size) (reallocAlign align)).2 = 0 then
        some ((rteMalloc env s (rteCacheLineRoundup 64 size) (reallocAlign align)).1, 0)
      else RteDemo.reallocMove (rteMalloc env s (rteCacheLineRoundup 64 size) (reallocAlign align)).1 ptr
        (rteMalloc env s (rteCacheLineRoundup 64 size) (reallocAlign align)).2
        (mallocElemFromData s.mem ptr) (rteCacheLineRoundup 64 size)) ∧
      reallocCopied env s ptr size align =
        if (rteMalloc env s (rteCacheLineRoundup 64 size) (reallocAlign align)).2 = 0 then none
        else some (copySize (rteMalloc env s (rteCacheLineRoundup 64 size) (reallocAlign align)).1
          (mallocElemFromData s.mem ptr) (rteCacheLineRoundup 64 size)) := by
  have hheap : (if rtePtrAlign ptr (reallocAlign align) = ptr then
      (mallocElemResize s (mallocElemFromData s.mem ptr) (rteCacheLineRoundup 64 size)).1 else s) = s := by
    split
    · rename_i hal
      exact hsame hal
    · rfl
  unfold Stays reallocAlign at hmoves
  unfold reallocAlign at hheap ⊢
  rw [rteRealloc, if_neg hptr, reallocCopied]
  simp only [if_neg helem, if_neg hmoves, hheap]
  exact ⟨trivial, trivial⟩

end

theorem Block.placed_mk {q align : Nat} (h : align ∣ q) (h64 : 64 ∣ align) :
    Block.Placed ⟨q, size, align, 0, false⟩ := ⟨h, h64.trans h, fun _ => noCross_zero _ _⟩

theorem eq_mk_of_snd {α β : Type*} {x : α × β} {y : β} (h : x.2 = y) : x = (x.1, y) := Prod.ext rfl h

/-- The pointer of a live block and its element are not `NULL`. -/
theorem Inv.elem_ne_zero (h : Inv segs r ars) {b : Block} (hb : b ∈ r.live) :
    b.ptr ≠ 0 ∧ mallocElemFromData r.heap.mem b.ptr ≠ 0 := by
  obtain ⟨-, a, n, pad, hold⟩ := h.live b hb
  have hdata : mallocElemFromData r.heap.mem b.ptr = a := h.rep.fromData hold
  have hptr := hold.ptr
  have ha0 : a ≠ 0 := by
    obtain ⟨c, hc, rfl⟩ := hold.focus
    have h64 := (hc ▸ h.rep).base_pos.trans (HeapRep.base_le_pos c)
    omega
  exact ⟨by omega, hdata ▸ ha0⟩

/-- **`rte_realloc`** by its three outcomes. -/
theorem Inv.reallocated (h : Inv segs r ars) (env : EalEnv) {b : Block} (hb : b ∈ r.live) {align : Nat}
    (hx : ReallocExact env r b size align) : Reallocated env r ars b size align := by
  obtain ⟨-, a, n, pad, hold⟩ := h.live b hb
  have hfrom : r.elemOf b = a := h.rep.fromData hold
  have hdata : mallocElemFromData r.heap.mem b.ptr = a := hfrom
  have hu := h.rep.usable hold
  have hpad := h.rep.elem_pad hold.mem
  have hptr := hold.ptr
  have hfit := hold.size
  have hn : 64 ≤ n := (h.rep.placed_ok hold.mem).le
  have htop : n < 2 ^ 64 := hold.size_lt h.rep
  obtain ⟨hround63, hresize, hsearch⟩ := hx
  have hround := @rteCacheLineRoundup_eq 64 size (by decide) hround63
  have hd : 64 ∣ rteCacheLineRoundup 64 size := hround ▸ Nat.dvd_mul_right 64 _
  obtain ⟨hptr0, helem⟩ := h.elem_ne_zero hb
  have hlen : copyLen r b size = min ((n - 64) % 2 ^ 32) (rteCacheLineRoundup 64 size) := by
    rw [copyLen, hu, hfrom, hpad, show n - pad - 64 + pad = n - 64 by omega]
  by_cases hstay : Stays r.heap b.ptr size align
  · -- the block stays where it is
    obtain ⟨hcode, hcopied⟩ := rteRealloc_stays env hptr0 helem hstay
    exact .stays _ hstay hcode hcopied (eq_mk_of_snd hstay.2)
  · have hsame : rtePtrAlign b.ptr (reallocAlign align) = b.ptr →
        (mallocElemResize r.heap (mallocElemFromData r.heap.mem b.ptr) (rteCacheLineRoundup 64 size)).1 =
          r.heap := fun hal => h.resize_refused hb hd hresize fun h0 => hstay ⟨hal, h0⟩
    obtain ⟨hcode, hcopied⟩ := rteRealloc_moves env hptr0 helem hstay hsame
    have hmalloc := h.rteMalloc_served env (reallocAlign_lt align) hd (by omega) (hsearch hstay)
    generalize rteMalloc env r.heap (rteCacheLineRoundup 64 size) (reallocAlign align) = res at *
    by_cases hq : res.2 = 0
    · -- there is no memory
      rw [if_pos hq] at hcode hcopied
      rcases hmalloc with ⟨hnot, hres⟩ | ⟨-, hserved⟩
      · exact .refused (fun heap hto => hnot hto.2.1) hstay (by rw [hcode, hres]) hcopied
      · obtain ⟨hres, hnone⟩ := hserved.zero hq
        refine .refused (fun heap hto => ?_) hstay (by rw [hcode, hres]) hcopied
        obtain ⟨-, -, l₁, l₂, horder, -, hcan⟩ := hto
        exact hnone heap (horder ▸ List.mem_append_right _ List.mem_cons_self) hcan
    · rw [if_neg hq] at hcode hcopied
      rcases hmalloc with ⟨-, heq⟩ | ⟨hok, hserved⟩
      · exact absurd (congrArg Prod.snd heq) hq
      obtain ⟨heap, c, n', front, hfirst, hars, ha⟩ := hserved.first hq
      have hplaced := @Block.placed_mk (rteCacheLineRoundup 64 size) res.2 _ ha.fits.aligned hok.2.1.dvd
      obtain ⟨hsz, s', hmove, hmoved⟩ := h.reallocMove hb hold hars ha hplaced
      rw [hdata, hmove] at hcode
      rw [← hlen] at hmoved
      refine .moved ⟨hstay, hok, hfirst⟩ s' res hcode ?_ hmoved hars ha
      rw [hcopied, hdata, copySize, hsz,
        show Word.sub 64 n mallocElemOverhead = n - 64 from Word.sub_eq hn htop, hlen]
      congr 1
      split <;> omega

end

end RteDemo
