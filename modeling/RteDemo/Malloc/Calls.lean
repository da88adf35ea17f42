import RteDemo.Malloc.Zeroed
import RteDemo.Malloc.Realloc
import Mathlib.Logic.Relation

/-!
# Runs of the public allocator

Threads call `rte_malloc_socket` and its variants, `rte_calloc_socket`, `rte_realloc` and `rte_free`, and
write to the blocks they hold. Every such call is a sequence of operations on the heaps
(`Inv.call`), so a run of calls is a run of `MallocOp`s and has all of its invariants
(`reach_of_calls`), and a call does for its caller what it is for and leaves the blocks of the
others alone (`calls_isolated`). In particular `rte_zmalloc` and `rte_calloc` return zeroed memory
(`zmalloc_zero`).
-/

namespace RteDemo

open Bytes Tiling Relation

/-! ## Calls -/

/-- A call from a thread in the environment `env`, or a write to a block. -/
inductive MallocCall
  /-- `rte_malloc_socket`, and `rte_malloc`, `rte_zmalloc` and `rte_zmalloc_socket` through it -/
  | malloc (env : EalEnv) (size align : Nat) (socketArg : Int)
  | calloc (env : EalEnv) (num size align : Nat) (socketArg : Int)
  | realloc (env : EalEnv) (b : Block) (size align : Nat)
  | free (b : Block)
  /-- The user writes to a block; afterwards the memory is `m`. -/
  | write (b : Block) (m : Mem)

/-- The alignment that `rte_malloc_socket` passes on. -/
def heapAlign (align : Nat) : Nat := if align = 0 then 1 else align

/-- The block that `rte_realloc` leaves at `q`. -/
def reallocBlock (b : Block) (size align q : Nat) : Block :=
  if q = b.ptr then
    { b with size := rteCacheLineRoundup 64 size, grown := b.grown || decide (b.size < rteCacheLineRoundup 64 size) }
  else ⟨q, rteCacheLineRoundup 64 size, heapAlign (reallocAlign align), 0, false⟩

/-- The state after an `rte_realloc` that returned `res`. -/
def afterRealloc (r : RunState) (b : Block) (size align : Nat) (res : HeapState × Nat) : RunState :=
  ⟨res.1, if res.2 = 0 then r.live else reallocBlock b size align res.2 :: r.live.erase b⟩

theorem afterRealloc_zero (r : RunState) (b : Block) (size align : Nat) :
    afterRealloc r b size align (r.heap, 0) = r := rfl

theorem afterRealloc_same {r : RunState} {b : Block} (size align : Nat) (s : HeapState) (h : b.ptr ≠ 0) :
    afterRealloc r b size align (s, b.ptr) = ⟨s,
      { b with
        size := rteCacheLineRoundup 64 size
        grown := b.grown || decide (b.size < rteCacheLineRoundup 64 size) } :: r.live.erase b⟩ := by
  rw [afterRealloc, if_neg h, reallocBlock, if_pos rfl]

theorem afterRealloc_new {r : RunState} {b : Block} (size align : Nat) (s : HeapState) {q : Nat} (h : q ≠ 0)
    (hne : q ≠ b.ptr) : afterRealloc r b size align (s, q) =
      ⟨s, ⟨q, rteCacheLineRoundup 64 size, heapAlign (reallocAlign align), 0, false⟩ :: r.live.erase b⟩ := by
  rw [afterRealloc, if_neg h, reallocBlock, if_neg hne]

namespace MallocCall

/-- The state after the call; `none` is a panic. -/
def run (r : RunState) : MallocCall → Option RunState
  | malloc env size align socketArg =>
    some (MallocOp.allocated r size (heapAlign align) 0 (rteMallocSocket env r.heap size align socketArg))
  | calloc env num size align socketArg =>
    some (MallocOp.allocated r (Word.mul 64 num size) (heapAlign align) 0
      (rteCallocSocket env r.heap num size align socketArg))
  | realloc env b size align =>
    (rteRealloc env r.heap b.ptr size align).map (afterRealloc r b size align)
  | free b => (rteFree r.heap b.ptr).map fun s => ⟨s, r.live.erase b⟩
  | write _ m => some ⟨r.heap.setMem m, r.live⟩

/-- What callers promise: alignments that fit an `unsigned`, sockets that are not negative, live blocks,
and writes inside of the usable area. -/
def Valid (r : RunState) : MallocCall → Prop
  | malloc env _ align socketArg | calloc env _ _ align socketArg =>
    align < 2 ^ 32 ∧ (effSocket env socketArg = socketIdAny ∨ 0 ≤ effSocket env socketArg)
  | realloc _ b _ _ => b ∈ r.live
  | free b => b ∈ r.live
  | write b m => (MallocOp.write b m).Valid r

/-- The request is refused and nothing changes, or a block of `size` bytes is new. -/
def Granted (r r' : RunState) (size align : Nat) (res : HeapState × Nat) : Prop :=
  res.2 = 0 ∧ r' = r ∨ res.2 ≠ 0 ∧ r' = ⟨res.1, ⟨res.2, size, align, 0, false⟩ :: r.live⟩

/-- What a call does for its caller. A block that `rte_realloc` leaves where it is keeps all of its bytes,
one that moves keeps those that are copied. -/
def Does (r r' : RunState) : MallocCall → Prop
  | malloc env size align socketArg =>
    Granted r r' size (heapAlign align) (rteMallocSocket env r.heap size align socketArg)
  | calloc env num size align socketArg =>
    Granted r r' (Word.mul 64 num size) (heapAlign align) (rteCallocSocket env r.heap num size align socketArg)
  | realloc env b size align =>
    ∃ s' q, rteRealloc env r.heap b.ptr size align = some (s', q) ∧
      (q = 0 ∧ r' = r ∨ q ≠ 0 ∧ r' = ⟨s', reallocBlock b size align q :: r.live.erase b⟩ ∧
        ∀ i < r.heap.usable b, Stays r.heap b.ptr size align ∨ i < copyLen r b size →
          s'.mem (q + i) = r.heap.mem (b.ptr + i))
  | free b => ∃ s', rteFree r.heap b.ptr = some s' ∧ r' = ⟨s', r.live.erase b⟩
  | write _ m => r' = ⟨r.heap.setMem m, r.live⟩

/-- The call is made by the holder of the block. -/
def Touches (b : Block) : MallocCall → Prop
  | realloc _ b' _ _ | free b' | write b' _ => b' = b
  | _ => False

end MallocCall

/-- The usable bytes of the block are as before. -/
def BytesKept (r r' : RunState) (b : Block) : Prop :=
  ∀ x, b.ptr ≤ x → x < b.ptr + r.heap.usable b → r'.heap.mem x = r.heap.mem x

theorem BytesKept.refl (r : RunState) (b : Block) : BytesKept r r b := fun _ _ _ => rfl

theorem BytesKept.trans {r r' r'' : RunState} {b : Block} (h : BytesKept r r' b)
    (hu : r'.heap.usable b = r.heap.usable b) (h' : BytesKept r' r'' b) : BytesKept r r'' b := by
  intro x hx hx'
  have hlt : x < b.ptr + r'.heap.usable b := by
    rw [hu]
    exact hx'
  rw [h' x hx hlt, h x hx hx']

/-- Neither the round-up of a request nor a search for it wraps. -/
def MallocExact (env : EalEnv) (s : HeapState) (size align : Nat) (socketArg : Int) : Prop :=
  size + 63 < 2 ^ 64 ∧ (MallocAlign align →
    AllExact s (rteCacheLineRoundup 64 size) (effAlign align) (mallocOrder env socketArg))

/-- Nothing wraps in the heaps during the call. -/
def MallocCall.NoWrap (r : RunState) : MallocCall → Prop
  | malloc env size align socketArg => MallocExact env r.heap size align socketArg
  | calloc env num size align socketArg => MallocExact env r.heap (Word.mul 64 num size) align socketArg
  | realloc env b size align => ReallocExact env r b size align
  | _ => True

/-- A call that keeps the promises, in which nothing wraps. -/
def CallStep (r r' : RunState) : Prop :=
  ∃ c : MallocCall, c.Valid r ∧ c.NoWrap r ∧ c.run r = some r'

/-! ## Allocating calls -/

/-- Heaps that refuse leave the state as it is, so a search over heaps is one allocation. -/
theorem tryHeaps_run {s : HeapState} {size flags align bound : Nat} {l : List Nat}
    (hfail : ∀ heap ∈ l, (mallocHeapAlloc s heap size flags align bound).2 = 0 →
      mallocHeapAlloc s heap size flags align bound = (s, 0)) :
    tryHeaps s size flags align bound l = (s, 0) ∨
      ∃ heap ∈ l, tryHeaps s size flags align bound l = mallocHeapAlloc s heap size flags align bound := by
  induction l with
  | nil => exact .inl rfl
  | cons i l ih =>
    have hi := hfail i List.mem_cons_self
    have ih := ih fun heap hheap => hfail heap (List.mem_cons_of_mem _ hheap)
    rw [tryHeaps]
    generalize hres : mallocHeapAlloc s i size flags align bound = res at hi ⊢
    by_cases h0 : res.2 = 0
    · rw [if_neg (not_not.mpr h0), hi h0]
      rcases ih with ih | ⟨heap, hheap, ih⟩
      · exact .inl ih
      · exact .inr ⟨heap, List.mem_cons_of_mem _ hheap, ih⟩
    · rw [if_pos h0]
      exact .inr ⟨i, List.mem_cons_self, hres.symm⟩

section

variable {segs : List RteMemseg} {r : RunState} {ars : List Arena} {env : EalEnv} {size align : Nat}
  {socketArg : Int}

/-- **`rte_malloc_socket`** is refused, or is one allocation in one of the heaps that it asks. -/
theorem Inv.mallocSocket_run (h : Inv segs r ars) (ha : align < 2 ^ 32)
    (hx : MallocExact env r.heap size align socketArg) :
    rteMallocSocket env r.heap size align socketArg = (r.heap, 0) ∨
      ∃ heap k, k < 32 ∧ heapAlign align = 2 ^ k ∧
        rteMallocSocket env r.heap size align socketArg = mallocHeapAlloc r.heap heap size 0 (2 ^ k) 0 ∧
        (MallocOp.alloc heap size 0 (2 ^ k) 0).NoWrap r := by
  obtain ⟨hround, hall⟩ := hx
  by_cases hguard : size = 0 ∨ align ≠ 0 ∧ rteIsPowerOf2 align = false
  · exact .inl (by rw [rteMallocSocket, if_pos hguard])
  have hpos : 0 < size := Nat.pos_of_ne_zero fun h0 => hguard (.inl h0)
  have hal : MallocAlign align := by
    by_cases h0 : align = 0
    · exact .inl h0
    · have hp : rteIsPowerOf2 align = true := by
        by_contra hp
        exact hguard (.inr ⟨h0, Bool.eq_false_iff.mpr hp⟩)
      obtain ⟨k, hk⟩ := rteIsPowerOf2_iff.mp hp
      rw [hk] at ha
      exact .inr ⟨k, (Nat.pow_lt_pow_iff_right (by decide)).mp ha, hk⟩
  have hall := hall hal
  obtain ⟨k, hk, hpow⟩ := hal.pow
  -- a heap that refuses leaves everything as it is
  have hfail : ∀ heap ∈ mallocOrder env socketArg,
      (mallocHeapAlloc r.heap heap size 0 (if align = 0 then 1 else align) 0).2 = 0 →
        mallocHeapAlloc r.heap heap size 0 (if align = 0 then 1 else align) 0 = (r.heap, 0) := by
    intro heap hheap h0
    have hserved := h.rep.heap_served hal hpos hround rfl heap fun i hi => by
      rw [List.mem_singleton.mp hi]
      exact hall heap hheap
    exact (hserved.zero h0).1
  have hwrap : ∀ heap ∈ mallocOrder env socketArg, (MallocOp.alloc heap size 0 (2 ^ k) 0).NoWrap r := by
    intro heap hheap
    have hexact := hall heap hheap
    rw [effAlign, hpow] at hexact
    exact ⟨hround, hexact⟩
  have hone : rteMallocSocket env r.heap size align socketArg = (r.heap, 0) ∨
      ∃ heap ∈ mallocOrder env socketArg, rteMallocSocket env r.heap size align socketArg =
        mallocHeapAlloc r.heap heap size 0 (if align = 0 then 1 else align) 0 := by
    have hsa : (if env.hasHugepages = true then socketArg else socketIdAny) = effSocket env socketArg := rfl
    unfold mallocOrder at hfail ⊢
    rw [rteMallocSocket, if_neg hguard]
    simp only [hsa]
    generalize effSocket env socketArg = sa at hfail ⊢
    by_cases hany : sa = socketIdAny
    · simp only [if_pos hany] at hfail ⊢
      split
      · exact .inl rfl
      · have hi := hfail _ List.mem_cons_self
        have htry := tryHeaps_run fun heap hheap => hfail heap (List.mem_cons_of_mem _ hheap)
        generalize hres : mallocHeapAlloc r.heap (mallocGetNumaSocket env) size 0
          (if align = 0 then 1 else align) 0 = res at hi ⊢
        by_cases h0 : res.2 = 0
        · rw [if_neg (by simp [h0, hany]), hi h0]
          rcases htry with htry | ⟨heap, hheap, htry⟩
          · exact .inl htry
          · exact .inr ⟨heap, List.mem_cons_of_mem _ hheap, htry⟩
        · rw [if_pos (.inl h0)]
          exact .inr ⟨_, List.mem_cons_self, hres.symm⟩
    · simp only [if_neg hany]
      split
      · exact .inl rfl
      · rw [if_pos (.inr hany)]
        exact .inr ⟨_, List.mem_cons_self, rfl⟩
  rcases hone with hone | ⟨heap, hheap, hone⟩
  · exact .inl hone
  · rw [hpow] at hone
    exact .inr ⟨heap, k, hk, hpow, hone, hwrap heap hheap⟩

/-- A call that allocates is at most one operation, and leaves all blocks alone. -/
theorem Inv.malloc_run (h : Inv segs r ars) (ha : align < 2 ^ 32)
    (hx : MallocExact env r.heap size align socketArg) {r' : RunState}
    (hr' : MallocOp.allocated r size (heapAlign align) 0
      (rteMallocSocket env r.heap size align socketArg) = r') :
    ReflTransGen BoundedStep r r' ∧ ∀ b ∈ r.live, BytesKept r r' b := by
  rcases h.mallocSocket_run ha hx with hrun | ⟨heap, k, hk, hpow, hrun, hn⟩
  · rw [hrun, MallocOp.allocated, if_pos rfl] at hr'
    subst hr'
    exact ⟨.refl, fun b _ => .refl r b⟩
  · rw [hrun, hpow, ← MallocOp.run_alloc] at hr'
    subst hr'
    have hv := MallocOp.valid_alloc r heap size 0 k hk
    exact ⟨.single ⟨_, hv, hn, trivial, rfl⟩, fun b hb => h.undisturbed hv hn b hb id⟩

/-- A refused request changes nothing, a granted one gives the caller a block. -/
theorem Inv.malloc_granted (h : Inv segs r ars) (ha : align < 2 ^ 32)
    (hx : MallocExact env r.heap size align socketArg) :
    MallocCall.Granted r
      (MallocOp.allocated r size (heapAlign align) 0 (rteMallocSocket env r.heap size align socketArg)) size
      (heapAlign align) (rteMallocSocket env r.heap size align socketArg) := by
  rw [MallocCall.Granted, MallocOp.allocated]
  by_cases h0 : (rteMallocSocket env r.heap size align socketArg).2 = 0
  · have hsame : (rteMallocSocket env r.heap size align socketArg).1 = r.heap := by
      rcases h.mallocSocket_run ha hx with hrun | ⟨heap, k, hk, -, hrun, hn⟩
      · rw [hrun]
      · simp only [MallocOp.NoWrap] at hn
        obtain ⟨hround, hsearch⟩ := hn
        rcases h.heapAlloc hk (.inl rfl) hround hsearch with hspec | ⟨c, n, front, -, halloc⟩
        · rw [hrun, hspec]
        · have hptr := halloc.ptrEq
          rw [← hrun, h0] at hptr
          omega
    rw [if_pos h0, hsame]
    exact .inl ⟨h0, rfl⟩
  · rw [if_neg h0]
    exact .inr ⟨h0, rfl⟩

end

/-! ## Reallocation -/

section

variable {segs : List RteMemseg} {r : RunState} {ars : List Arena} {env : EalEnv} {b : Block}
  {size align : Nat}

theorem copySize_le (s : HeapState) (elem size : Nat) : copySize s elem size ≤ size := by
  unfold copySize
  split <;> omega

/-- An allocation keeps the usable size of a block. -/
theorem Inv.alloc_usable (h : Inv segs r ars) {heap size flags align bound : Nat}
    (hv : (MallocOp.alloc heap size flags align bound).Valid r)
    (hn : (MallocOp.alloc heap size flags align bound).NoWrap r) (hb : b ∈ r.live) :
    ((MallocOp.alloc heap size flags align bound).run r).heap.usable b = r.heap.usable b := by
  obtain ⟨ars', hout, h'⟩ := h.step hv hn
  obtain ⟨-, a, n, pad, hold⟩ := h.live b hb
  rw [h.rep.usable hold]
  have hrep := h'.rep
  generalize ((MallocOp.alloc heap size flags align bound).run r).heap = s' at hout hrep ⊢
  cases hout with
  | same => exact hrep.usable hold
  | allocated _ hars ha =>
    subst hars
    exact hrep.usable (ha.edit.holds hold (by simp))

/-- A block that moves: a new block is allocated, the contents are copied into it, and the old block is
freed. The other blocks are left alone. -/
theorem Inv.move_run (h : Inv segs r ars) (hb : b ∈ r.live) {heap size k elem : Nat} (hk : k < 32)
    (hn : (MallocOp.alloc heap size 0 (2 ^ k) 0).NoWrap r) {res : HeapState × Nat}
    (hres : mallocHeapAlloc r.heap heap size 0 (2 ^ k) 0 = res) (hne : res.2 ≠ 0) :
    ∃ s', RteDemo.reallocMove res.1 b.ptr res.2 elem size = some (s', res.2) ∧ res.2 ≠ b.ptr ∧
      ReflTransGen BoundedStep r ⟨s', ⟨res.2, size, 2 ^ k, 0, false⟩ :: r.live.erase b⟩ ∧
      ∀ b' ∈ r.live, b' ≠ b →
        BytesKept r ⟨s', ⟨res.2, size, 2 ^ k, 0, false⟩ :: r.live.erase b⟩ b' := by
  have hv := MallocOp.valid_alloc r heap size 0 k hk
  have hkeep₁ : ∀ b' ∈ r.live, BytesKept r ((MallocOp.alloc heap size 0 (2 ^ k) 0).run r) b' :=
    fun b' hb' => h.undisturbed hv hn b' hb' id
  have husable₁ := fun b' (hb' : b' ∈ r.live) => h.alloc_usable hv hn hb'
  have hrun := MallocOp.run_alloc r heap size 0 (2 ^ k) 0
  obtain ⟨ars₁, -, h₁⟩ := h.step hv hn
  have hstep₁ : BoundedStep r ((MallocOp.alloc heap size 0 (2 ^ k) 0).run r) := ⟨_, hv, hn, trivial, rfl⟩
  rw [hrun, hres, MallocOp.allocated, if_neg hne] at h₁ hstep₁ hkeep₁
  simp only [hrun, hres, MallocOp.allocated, if_neg hne] at husable₁
  obtain ⟨nb, hnb⟩ : ∃ nb : Block, nb = ⟨res.2, size, 2 ^ k, 0, false⟩ := ⟨_, rfl⟩
  rw [← hnb] at h₁ hstep₁ hkeep₁ ⊢
  have hptr : nb.ptr = res.2 := by rw [hnb]
  have hsz : nb.size = size := by rw [hnb]
  obtain ⟨r₁, hr₁⟩ : ∃ r₁ : RunState, r₁ = ⟨res.1, nb :: r.live⟩ := ⟨_, rfl⟩
  rw [← hr₁] at h₁ hstep₁ hkeep₁
  have hheap₁ : r₁.heap = res.1 := by rw [hr₁]
  have hlive₁ : r₁.live = nb :: r.live := by rw [hr₁]
  have hnbl : nb ∈ r₁.live := hlive₁ ▸ List.mem_cons_self
  have hdist := h₁.distinct
  rw [hlive₁] at hdist
  have hne' : nb.ptr ≠ b.ptr := List.rel_of_pairwise_cons hdist hb
  -- the copy stays inside of the new block
  obtain ⟨-, a, m, pad, hold⟩ := h₁.live nb hnbl
  have hend := h₁.rep.ptr_add_usable hold
  have hfit := hold.size
  have hat := hold.ptr
  have hlen := copySize_le res.1 elem size
  obtain ⟨m₂, hm₂⟩ : ∃ m₂, copy res.1.mem res.2 b.ptr (copySize res.1 elem size) = m₂ := ⟨_, rfl⟩
  have hwrite : (MallocOp.write nb m₂).Valid r₁ := by
    refine ⟨hnbl, fun x hx => ?_⟩
    rw [hheap₁, ← hm₂]
    rw [hheap₁] at hend hx
    exact copy_out (by omega)
  have h₂ : Inv segs ((MallocOp.write nb m₂).run r₁) ars₁ := h₁.written hold hwrite.2
  have hstep₂ : BoundedStep r₁ ((MallocOp.write nb m₂).run r₁) := ⟨_, hwrite, trivial, trivial, rfl⟩
  have hb₂ : b ∈ ((MallocOp.write nb m₂).run r₁).live := by
    rw [MallocOp.run, hlive₁]
    exact List.mem_cons_of_mem _ hb
  have hstep₃ : BoundedStep ((MallocOp.write nb m₂).run r₁)
      ((MallocOp.free b).run ((MallocOp.write nb m₂).run r₁)) := ⟨.free b, hb₂, trivial, trivial, rfl⟩
  have hfree := h₂.rteFree_live hb₂
  have hheap₂ : ((MallocOp.write nb m₂).run r₁).heap = res.1.setMem m₂ := by rw [MallocOp.run, hheap₁]
  have hlive₃ : ((MallocOp.free b).run ((MallocOp.write nb m₂).run r₁)).live = nb :: r.live.erase b := by
    rw [MallocOp.run, MallocOp.run, hlive₁]
    exact List.erase_cons_tail (by
      rw [beq_iff_eq]
      exact fun heq => hne' (congrArg Block.ptr heq))
  rw [hheap₂] at hfree
  refine ⟨((MallocOp.free b).run ((MallocOp.write nb m₂).run r₁)).heap, ?_, hptr ▸ hne', ?_, ?_⟩
  · rw [reallocMove_eq, hm₂, hfree]
    rfl
  · have hall := ((ReflTransGen.single hstep₁).tail hstep₂).tail hstep₃
    rw [← hlive₃]
    exact hall
  · intro b' hb' hother
    rw [← hlive₃]
    have hb₁ : b' ∈ r₁.live := hlive₁ ▸ List.mem_cons_of_mem _ hb'
    have hnew : nb ≠ b' := fun heq => List.rel_of_pairwise_cons hdist hb' (congrArg Block.ptr heq)
    obtain ⟨-, a', n', pad', hold'⟩ := h₁.live b' hb₁
    have husable₂ : ((MallocOp.write nb m₂).run r₁).heap.usable b' = r₁.heap.usable b' :=
      (h₂.rep.usable hold').trans (h₁.rep.usable hold').symm
    have hkeep₂ : BytesKept r₁ ((MallocOp.write nb m₂).run r₁) b' :=
      h₁.undisturbed hwrite trivial b' hb₁ hnew
    have hkeep₃ : BytesKept ((MallocOp.write nb m₂).run r₁)
        ((MallocOp.free b).run ((MallocOp.write nb m₂).run r₁)) b' :=
      @Inv.undisturbed _ _ _ h₂ (.free b) hb₂ trivial b' hb₁ fun heq => hother heq.symm
    have husable : r₁.heap.usable b' = r.heap.usable b' := by
      rw [hheap₁]
      exact husable₁ b' hb'
    exact ((hkeep₁ b' hb').trans husable hkeep₂).trans (husable₂.trans husable) hkeep₃

/-- **`rte_realloc`** resizes the block, or moves it, or leaves everything as it is. The other blocks are
left alone. -/
theorem Inv.realloc_run (h : Inv segs r ars) (hb : b ∈ r.live) (h0 : b.bound = 0)
    (hx : ReallocExact env r b size align) :
    ∃ r', (MallocCall.realloc env b size align).run r = some r' ∧ ReflTransGen BoundedStep r r' ∧
      ∀ b' ∈ r.live, b' ≠ b → BytesKept r r' b' := by
  obtain ⟨-, a, n, pad, hold⟩ := h.live b hb
  have hdata : mallocElemFromData r.heap.mem b.ptr = a := h.rep.fromData hold
  have hptr := hold.ptr
  obtain ⟨hround63, hresize, hsearch⟩ := hx
  have hround := @rteCacheLineRoundup_eq 64 size (by decide) hround63
  have hd : 64 ∣ rteCacheLineRoundup 64 size := hround ▸ Nat.dvd_mul_right 64 _
  have helem : mallocElemFromData r.heap.mem b.ptr ≠ 0 := by
    rw [hdata]
    obtain ⟨c, hc, rfl⟩ := hold.focus
    have h64 := (hc ▸ h.rep).base_pos.trans (HeapRep.base_le_pos c)
    omega
  have hptr0 : b.ptr ≠ 0 := by omega
  rw [MallocCall.run]
  by_cases hstay : Stays r.heap b.ptr size align
  · -- the block stays where it is
    rw [(rteRealloc_stays env hptr0 helem hstay).1, Option.map_some]
    have hvalid : (MallocOp.resize b (rteCacheLineRoundup 64 size)).Valid r := ⟨hb, hd⟩
    have hrun : afterRealloc r b size align
        ((mallocElemResize r.heap (mallocElemFromData r.heap.mem b.ptr) (rteCacheLineRoundup 64 size)).1, b.ptr) =
          (MallocOp.resize b (rteCacheLineRoundup 64 size)).run r := by
      have hret : (mallocElemResize r.heap (r.elemOf b) (rteCacheLineRoundup 64 size)).2 = 0 := hstay.2
      rw [afterRealloc_same size align _ hptr0, MallocOp.run, hret, if_pos rfl]
      rfl
    refine ⟨_, rfl, .single ⟨_, hvalid, hresize, .inl h0, hrun⟩, fun b' hb' _ => ?_⟩
    rw [hrun]
    exact h.undisturbed hvalid hresize b' hb' id
  · have hsame : rtePtrAlign b.ptr (reallocAlign align) = b.ptr →
        (mallocElemResize r.heap (mallocElemFromData r.heap.mem b.ptr) (rteCacheLineRoundup 64 size)).1 =
          r.heap := fun hal => h.resize_refused hb hd hresize fun h0 => hstay ⟨hal, h0⟩
    have hexact : MallocExact env r.heap (rteCacheLineRoundup 64 size) (reallocAlign align) socketIdAny := by
      refine ⟨by omega, fun hal => ?_⟩
      rw [rteCacheLineRoundup_of_dvd (by decide) hd (by omega)]
      exact hsearch hstay hal
    have hmalloc := h.mallocSocket_run (reallocAlign_lt align) hexact
    have hserved := h.rteMalloc_served env (reallocAlign_lt align) hd (by omega) (hsearch hstay)
    rw [← rteMalloc] at hmalloc
    rw [(rteRealloc_moves env hptr0 helem hstay hsame).1]
    generalize rteMalloc env r.heap (rteCacheLineRoundup 64 size) (reallocAlign align) = res
      at hmalloc hserved ⊢
    by_cases h0 : res.2 = 0
    · -- there is no memory
      have hsame' : res.1 = r.heap := by
        rcases hserved with ⟨-, hrefused⟩ | ⟨-, hserved⟩
        · rw [hrefused]
        · rw [(hserved.zero h0).1]
      refine ⟨r, ?_, .refl, fun b' _ _ => .refl r b'⟩
      rw [if_pos h0, hsame', Option.map_some, afterRealloc_zero]
    · rw [if_neg h0]
      rcases hmalloc with hrefused | ⟨heap, k, hk, hpow, hrun, hn⟩
      · exact absurd (congrArg Prod.snd hrefused) h0
      · obtain ⟨s', hmove, hne, hsteps, hkept⟩ := @Inv.move_run segs r ars b h hb heap _ k
          (mallocElemFromData r.heap.mem b.ptr) hk hn res hrun.symm h0
        rw [hmove, Option.map_some]
        refine ⟨_, rfl, ?_⟩
        rw [afterRealloc_new size align s' h0 hne, hpow]
        exact ⟨hsteps, hkept⟩

/-- The contents of a block go with it. -/
theorem Inv.realloc_does (h : Inv segs r ars) (hb : b ∈ r.live) (hx : ReallocExact env r b size align)
    {r' : RunState} (hrun : (MallocCall.realloc env b size align).run r = some r') :
    (MallocCall.realloc env b size align).Does r r' := by
  rw [MallocCall.run] at hrun
  have hptr0 : b.ptr ≠ 0 := by
    obtain ⟨-, a, n, pad, hold⟩ := h.live b hb
    have := hold.ptr
    omega
  rcases h.reallocated env hb hx with
    ⟨s', hstay, hcode, -, hresize⟩ | ⟨-, -, hcode, -⟩ | ⟨hmoves, s', res, hcode, -, hmoved, -, halloc⟩
  · rw [hcode, Option.map_some, afterRealloc, if_neg hptr0] at hrun
    refine ⟨s', b.ptr, hcode, .inr ⟨hptr0, (Option.some.inj hrun).symm, fun i hi _ => ?_⟩⟩
    have hround := @rteCacheLineRoundup_eq 64 size (by decide) hx.1
    have hkeep := (h.resize_done hb (hround ▸ Nat.dvd_mul_right 64 _) hx.2.1 hstay.2).1 i hi
    rwa [RunState.elemOf, hresize] at hkeep
  · rw [hcode, Option.map_some, afterRealloc_zero] at hrun
    exact ⟨r.heap, 0, hcode, .inl ⟨rfl, (Option.some.inj hrun).symm⟩⟩
  · have hne : res.2 ≠ 0 := by
      have := halloc.ptrEq
      omega
    rw [hcode, Option.map_some, afterRealloc, if_neg hne] at hrun
    refine ⟨s', res.2, hcode, .inr ⟨hne, (Option.some.inj hrun).symm, fun i hi hcopied => ?_⟩⟩
    exact hmoved.content i (hcopied.resolve_left hmoves.1) hi

end

/-! ## Every call -/

/-- Blocks of the public allocator have no bound. -/
def Unbounded (r : RunState) : Prop := ∀ b ∈ r.live, b.bound = 0

section

variable {segs : List RteMemseg} {m : Mem} {r r' : RunState} {ars : List Arena} {c : MallocCall}

/-- **A call that keeps the promises does not panic, and is a sequence of heap operations.** It does what it
is for and leaves the blocks of the others alone. -/
theorem Inv.call (h : Inv segs r ars) (hu : Unbounded r) (hv : c.Valid r) (hn : c.NoWrap r) :
    ∃ r', c.run r = some r' ∧ ReflTransGen BoundedStep r r' ∧ c.Does r r' ∧
      ∀ b ∈ r.live, ¬c.Touches b → BytesKept r r' b := by
  cases c with
  | malloc env size align socketArg =>
    obtain ⟨hsteps, hkept⟩ := h.malloc_run hv.1 hn rfl
    exact ⟨_, rfl, hsteps, h.malloc_granted hv.1 hn, fun b hb _ => hkept b hb⟩
  | calloc env num size align socketArg =>
    obtain ⟨hsteps, hkept⟩ := h.malloc_run hv.1 hn rfl
    exact ⟨_, rfl, hsteps, h.malloc_granted hv.1 hn, fun b hb _ => hkept b hb⟩
  | realloc env b size align =>
    obtain ⟨r', hrun, hsteps, hkept⟩ := h.realloc_run hv (hu b hv) hn
    exact ⟨r', hrun, hsteps, h.realloc_does hv hn hrun, fun b' hb' hne => hkept b' hb' fun heq => hne heq.symm⟩
  | free b =>
    have hfree := h.rteFree_live hv
    refine ⟨(MallocOp.free b).run r, ?_, .single ⟨.free b, hv, trivial, trivial, rfl⟩, ⟨_, hfree, rfl⟩,
      @Inv.undisturbed _ _ _ h (.free b) hv trivial⟩
    rw [MallocCall.run, hfree]
    rfl
  | write b m =>
    exact ⟨_, rfl, .single ⟨.write b m, hv, trivial, trivial, rfl⟩, rfl,
      @Inv.undisturbed _ _ _ h (.write b m) hv trivial⟩

theorem Unbounded.allocated (hu : Unbounded r) (size align : Nat) (res : HeapState × Nat) :
    Unbounded (MallocOp.allocated r size align 0 res) := by
  intro b hb
  rw [MallocOp.allocated] at hb
  split at hb
  · exact hu b hb
  · rcases List.mem_cons.mp hb with rfl | hb
    · rfl
    · exact hu b hb

theorem Unbounded.call (hu : Unbounded r) (hv : c.Valid r) (hrun : c.run r = some r') : Unbounded r' := by
  cases c with
  | malloc env size align socketArg =>
    obtain rfl := Option.some.inj hrun
    exact hu.allocated _ _ _
  | calloc env num size align socketArg =>
    obtain rfl := Option.some.inj hrun
    exact hu.allocated _ _ _
  | realloc env b size align =>
    rw [MallocCall.run] at hrun
    generalize rteRealloc env r.heap b.ptr size align = res at hrun
    obtain ⟨res, rfl, rfl⟩ := Option.map_eq_some_iff.mp hrun
    intro b' hb'
    rw [afterRealloc] at hb'
    split at hb'
    · exact hu b' hb'
    · rcases List.mem_cons.mp hb' with rfl | hb'
      · rw [reallocBlock]
        split
        · exact hu b hv
        · rfl
      · exact hu b' (List.mem_of_mem_erase hb')
  | free b =>
    rw [MallocCall.run] at hrun
    obtain ⟨s, -, rfl⟩ := Option.map_eq_some_iff.mp hrun
    exact fun b' hb' => hu b' (List.mem_of_mem_erase hb')
  | write b m =>
    obtain rfl := Option.some.inj hrun
    exact hu

theorem BoundedStep.exact (h : BoundedStep r r') : ExactStep r r' := by
  obtain ⟨op, hv, hn, -, hrun⟩ := h
  exact ⟨op, hv, hn, hrun⟩

/-- Runs of calls are runs of heap operations. -/
theorem reach_of_calls (hok : MemsegsOK segs) (h : Reach (MallocInit segs m) CallStep r) :
    Reach (MallocInit segs m) BoundedStep r ∧ Unbounded r := by
  induction h with
  | start hinit =>
    refine ⟨.start hinit, fun b hb => ?_⟩
    rw [hinit] at hb
    exact absurd hb List.not_mem_nil
  | next _ hs ih =>
    obtain ⟨hreach, hu⟩ := ih
    obtain ⟨ars, hinv⟩ := Inv.of_reach hok (hreach.mono (fun _ => id) fun _ _ => BoundedStep.exact)
    obtain ⟨c, hv, hn, hrun⟩ := hs
    obtain ⟨r', hrun', hsteps, -⟩ := hinv.call hu hv hn
    obtain rfl := Option.some.inj (hrun.symm.trans hrun')
    exact ⟨hreach.steps hsteps, hu.call hv hrun⟩

/-- **The public allocator.** After every run of calls in which nothing wraps the blocks are isolated. A
further call does not panic, does for its caller what it is for, and leaves the bytes of all other blocks and
the isolation as they are. -/
theorem calls_isolated (hok : MemsegsOK segs) (h : Reach (MallocInit segs m) CallStep r) :
    Reach (MallocInit segs m) BoundedStep r ∧ Isolated segs r ∧
      ∀ c : MallocCall, c.Valid r → c.NoWrap r →
        ∃ r', c.run r = some r' ∧ ReflTransGen BoundedStep r r' ∧ c.Does r r' ∧ Isolated segs r' ∧
          ∀ b ∈ r.live, ¬c.Touches b → BytesKept r r' b := by
  obtain ⟨hreach, hu⟩ := reach_of_calls hok h
  obtain ⟨ars, hinv⟩ := Inv.of_reach hok (hreach.mono (fun _ => id) fun _ _ => BoundedStep.exact)
  refine ⟨hreach, (live_blocks_isolated hok hreach).1, fun c hv hn => ?_⟩
  obtain ⟨r', hrun, hsteps, hdoes, hkept⟩ := hinv.call hu hv hn
  exact ⟨r', hrun, hsteps, hdoes, (live_blocks_isolated hok (hreach.steps hsteps)).1, hkept⟩

/-- The block at `p` is zero over its usable size, which is at least `size`. -/
def ZeroBlock (s : HeapState) (p size : Nat) : Prop :=
  ∃ u, rteMallocValidate s p = some u ∧ size ≤ u ∧ ∀ x, p ≤ x → x < p + u → s.mem x = 0

/-- A request that is granted gives a block of zeros. -/
theorem Inv.mallocSocket_zero (h : Inv segs r ars) (hz : FreeZero r.heap.mem ars) {env : EalEnv}
    {size align : Nat} {socketArg : Int} (ha : align < 2 ^ 32) (hx : MallocExact env r.heap size align socketArg)
    {res : HeapState × Nat} (hres : rteMallocSocket env r.heap size align socketArg = res) (hne : res.2 ≠ 0) :
    ZeroBlock res.1 res.2 size := by
  rcases h.mallocSocket_run ha hx with hrefused | ⟨heap, k, hk, -, hrun, hn⟩
  · exact absurd (congrArg Prod.snd (hres.symm.trans hrefused)) hne
  · simp only [MallocOp.NoWrap] at hn
    obtain ⟨hround, hsearch⟩ := hn
    have hspec := h.heapAlloc hk (.inl rfl) hround hsearch
    rw [← hrun, hres] at hspec
    rcases hspec with hspec | ⟨c, n, front, rfl, halloc⟩
    · exact absurd (congrArg Prod.snd hspec) hne
    · obtain ⟨u, hu, hle, hzero⟩ := halloc.usable_zero hz
      have hup := @rteCacheLineRoundup_eq 64 size (by decide) hround
      exact ⟨u, hu, by omega, hzero⟩

/-- **`rte_zmalloc` and `rte_calloc` return zeroed memory**, in every run of calls in which nothing wraps:
neither function clears anything, but all free memory is zero. The product that `rte_calloc` asks for has
to fit a `size_t`. -/
theorem zmalloc_zero (hok : MemsegsOK segs) (hm : MemsegsZero segs m)
    (h : Reach (MallocInit segs m) CallStep r) : r.heap.FreeCleared ∧
      ∀ (env : EalEnv) (align : Nat) (socketArg : Int), align < 2 ^ 32 →
        (∀ size, MallocExact env r.heap size align socketArg →
          (rteZmallocSocket env r.heap size align socketArg).2 ≠ 0 →
            ZeroBlock (rteZmallocSocket env r.heap size align socketArg).1
              (rteZmallocSocket env r.heap size align socketArg).2 size) ∧
        ∀ num size, num * size < 2 ^ 64 → MallocExact env r.heap (num * size) align socketArg →
          (rteCallocSocket env r.heap num size align socketArg).2 ≠ 0 →
            ZeroBlock (rteCallocSocket env r.heap num size align socketArg).1
              (rteCallocSocket env r.heap num size align socketArg).2 (num * size) := by
  obtain ⟨hreach, -⟩ := reach_of_calls hok h
  obtain ⟨ars, hinv, hz⟩ := exists_inv_zero hok hm (hreach.mono (fun _ => id) fun _ _ => BoundedStep.exact)
  refine ⟨hinv.rep.freeCleared_iff.mpr hz, fun env align socketArg ha => ⟨fun size hx hne => ?_,
    fun num size hfit hx hne => ?_⟩⟩
  · exact hinv.mallocSocket_zero hz ha hx rfl hne
  · rw [rteCallocSocket, Word.mul_eq hfit] at hne ⊢
    exact hinv.mallocSocket_zero hz ha hx rfl hne

end

/-! ## Small calls -/

theorem mallocSocket_zero_eq (s : HeapState) :
    rteMallocSocket onSocketZero s 64 (2 ^ 6) 0 = mallocHeapAlloc s 0 64 0 (2 ^ 6) 0 := by
  have harg : (if onSocketZero.hasHugepages = true then (0 : Int) else socketIdAny) = 0 := rfl
  have hany : ¬(0 : Int) = socketIdAny := by decide
  have halign : (if 2 ^ 6 = 0 then 1 else 2 ^ 6) = 2 ^ 6 := rfl
  rw [rteMallocSocket, if_neg (by decide)]
  simp only [harg, if_neg hany, halign]
  rw [if_neg (show ¬(0 : Int).toNat ≥ rteMaxNumaNodes by decide), if_pos (.inr hany)]
  rfl

theorem smallAlloc_exact {r : RunState} (hn : smallAlloc.NoWrap r) :
    MallocExact onSocketZero r.heap 64 (2 ^ 6) 0 := by
  simp only [smallAlloc, MallocOp.NoWrap] at hn
  obtain ⟨hround, hsearch⟩ := hn
  have horder : mallocOrder onSocketZero 0 = [0] := by decide
  have heff : effAlign (2 ^ 6) = rteCacheLineRoundup 64 (2 ^ 6) := by rw [effAlign, if_neg (by decide)]
  refine ⟨hround, fun _ heap hheap => ?_⟩
  rw [horder, List.mem_singleton] at hheap
  rw [hheap, heff]
  exact hsearch

/-- A small request is a call of `rte_malloc_socket`. -/
theorem SmallStep.call {r r' : RunState} (h : SmallStep r r') : CallStep r r' := by
  obtain ⟨hn, rfl⟩ := h
  refine ⟨.malloc onSocketZero 64 (2 ^ 6) 0, ⟨by decide, .inr (by decide)⟩, smallAlloc_exact hn, ?_⟩
  rw [MallocCall.run, mallocSocket_zero_eq, smallAlloc, MallocOp.run_alloc]
  rfl

/-- Two blocks are requested, and the second of them is given back. -/
theorem calls_isolated_twoBlocks : ∃ r r', Reach (MallocInit oneSeg fun _ => 0) CallStep r ∧
    r.live = [smallBlock (2 ^ 31 - 256), smallBlock (2 ^ 31 - 128)] ∧ Isolated oneSeg r ∧
    (MallocCall.free (smallBlock (2 ^ 31 - 256))).run r = some r' ∧ r'.live = [smallBlock (2 ^ 31 - 128)] ∧
    Isolated oneSeg r' ∧ BytesKept r r' (smallBlock (2 ^ 31 - 128)) := by
  obtain ⟨r, hsmall, hlive, -, -⟩ := exists_twoBlocks
  have hreach := hsmall.mono (fun _ => id) fun _ _ => SmallStep.call
  obtain ⟨-, hiso, hcall⟩ := calls_isolated oneSeg_ok hreach
  have hne : smallBlock (2 ^ 31 - 256) ≠ smallBlock (2 ^ 31 - 128) := by decide
  obtain ⟨r', hrun, -, ⟨s', -, hr'⟩, hiso', hkept⟩ :=
    hcall (.free (smallBlock (2 ^ 31 - 256))) (hlive ▸ List.mem_cons_self) trivial
  refine ⟨r, r', hreach, hlive, hiso, hrun, ?_, hiso', hkept _ ?_ hne⟩
  · rw [hr', hlive, List.erase_cons_head]
  · rw [hlive]
    exact List.mem_cons_of_mem _ List.mem_cons_self

theorem zmalloc_zero_oneSeg :
    oneSegBlock.heap.FreeCleared ∧
    ZeroBlock (rteZmallocSocket onSocketZero oneSegStart.heap 64 (2 ^ 6) 0).1 (2 ^ 31 - 128) 64 ∧
    ZeroBlock (rteCallocSocket onSocketZero oneSegStart.heap 2 32 (2 ^ 6) 0).1 (2 ^ 31 - 128) (2 * 32) := by
  have hzero : MemsegsZero oneSeg fun _ => 0 := fun _ _ _ _ _ => rfl
  have hn : smallAlloc.NoWrap oneSegStart := oneSeg_noWrap oneSegStart_inv.rep
  have hstart : Reach (MallocInit oneSeg fun _ => 0) CallStep oneSegStart :=
    .start (by rw [MallocInit, oneSegStart])
  have hblock : CallStep oneSegStart oneSegBlock := SmallStep.call ⟨hn, by rw [oneSegBlock, smallAlloc]⟩
  have hptr : (rteZmallocSocket onSocketZero oneSegStart.heap 64 (2 ^ 6) 0).2 = 2 ^ 31 - 128 := by
    rw [rteZmallocSocket, mallocSocket_zero_eq, alloc_top oneSegStart_inv.rep]
  have hptr' : (rteCallocSocket onSocketZero oneSegStart.heap 2 32 (2 ^ 6) 0).2 = 2 ^ 31 - 128 := hptr
  obtain ⟨-, hz⟩ := zmalloc_zero oneSeg_ok hzero hstart
  obtain ⟨hz, hc⟩ := hz onSocketZero (2 ^ 6) 0 (by decide)
  have hzeroed := hz 64 (smallAlloc_exact hn) (by rw [hptr]; decide)
  have hcleared := hc 2 32 (by decide) (smallAlloc_exact hn) (by rw [hptr']; decide)
  rw [hptr] at hzeroed
  rw [hptr'] at hcleared
  exact ⟨(zmalloc_zero oneSeg_ok hzero (hstart.next hblock)).1, hzeroed, hcleared⟩

end RteDemo
