import RteDemo.Malloc.Wrap
import Mathlib.Data.List.Perm.Basic

/-!
# Freeing is confluent and undoes allocation

The busy elements determine the layout (`Inv.unique`), and freeing a block takes away its element and
no other (`Inv.free_busyAt`). So the order in which blocks are freed does not matter, a block that is
freed at once leaves the layout as it was, and when nothing is live every memseg is one free element.
-/

namespace RteDemo

open Bytes Tiling

/-! ## Statistics -/

/-- The loop of `malloc_heap_get_stats` looks at the size of the element only. -/
def countFreeSize (st : RteMallocSocketStats) (size : Nat) : RteMallocSocketStats :=
  { st with
    freeCount := Word.add 32 st.freeCount 1
    heapFreeszBytes := Word.add 64 st.heapFreeszBytes size
    greatestFreeSize := if size > st.greatestFreeSize then size else st.greatestFreeSize }

instance : RightCommutative countFreeSize where
  right_comm st a b := by
    simp only [countFreeSize, RteMallocSocketStats.mk.injEq, true_and, and_true]
    refine ⟨?_, ?_⟩
    · unfold Word.add
      omega
    · split_ifs <;> omega

/-- The sizes of the free elements of a heap. -/
def HeapState.freeSizes (s : HeapState) (heap : Nat) : List Nat :=
  ((List.range rteHeapNumFreelists).flatMap (s.mallocHeaps heap).freeHead).map (s.elem .size)

theorem mallocHeapGetStats_eq (s : HeapState) (heap : Nat) :
    mallocHeapGetStats s heap =
      { (s.freeSizes heap).foldl countFreeSize ⟨0, 0, 0, 0, 0, 0⟩ with
        heapTotalszBytes := (s.mallocHeaps heap).totalSize
        heapAllocszBytes := Word.sub 64 (s.mallocHeaps heap).totalSize
          ((s.freeSizes heap).foldl countFreeSize ⟨0, 0, 0, 0, 0, 0⟩).heapFreeszBytes
        allocCount := (s.mallocHeaps heap).allocCount } := by
  rw [HeapState.freeSizes, List.foldl_map]
  rfl

/-- The same layout, counts and statistics. -/
structure SameHeaps (s s' : HeapState) : Prop where
  layout : s.layout = s'.layout
  allocCount : ∀ heap, (s.mallocHeaps heap).allocCount = (s'.mallocHeaps heap).allocCount
  stats : ∀ heap, mallocHeapGetStats s heap = mallocHeapGetStats s' heap

theorem HeapRep.size_of_mem_freeAt {s : HeapState} {ars : List Arena} (h : HeapRep s ars)
    {heap idx x : Nat} (hx : x ∈ freeAt heap idx ars) {n : Nat} (hn : (x, ⟨n, .free⟩) ∈ placed ars) :
    s.elem .size x = n := by
  obtain ⟨ar, har, hm⟩ := mem_placed.mp hn
  obtain ⟨c, rfl, rfl, -, -, -⟩ := Focus.exists_plug har hm
  exact h.single_hdr.size

/-- Two states with the same arenas have the same sizes on their lists. -/
theorem HeapRep.freeSizes_perm {s s' : HeapState} {ars : List Arena} (h : HeapRep s ars)
    (h' : HeapRep s' ars) (heap : Nat) : (s.freeSizes heap).Perm (s'.freeSizes heap) := by
  have hperm : ∀ {s : HeapState}, HeapRep s ars →
      ((List.range rteHeapNumFreelists).flatMap (s.mallocHeaps heap).freeHead).Perm
        ((List.range rteHeapNumFreelists).flatMap fun idx => freeAt heap idx ars) := fun h =>
    List.Perm.flatMap_left _ fun idx _ => h.listed heap idx
  have hsizes : ∀ x ∈ (List.range rteHeapNumFreelists).flatMap fun idx => freeAt heap idx ars,
      s.elem .size x = s'.elem .size x := fun x hx => by
    obtain ⟨idx, -, hx⟩ := List.mem_flatMap.mp hx
    obtain ⟨ar, har, -, n, hn, -⟩ := mem_freeAt.mp hx
    have hm : (x, ⟨n, .free⟩) ∈ placed ars := mem_placed.mpr ⟨ar, har, hn⟩
    rw [h.size_of_mem_freeAt hx hm, h'.size_of_mem_freeAt hx hm]
  refine ((hperm h).map _).trans ?_
  rw [List.map_congr_left hsizes]
  exact ((hperm h').map _).symm

/-- **The arenas determine** the layout, the counts and the statistics. -/
theorem Inv.sameHeaps {segs : List RteMemseg} {r r' : RunState} {ars : List Arena}
    (h : Inv segs r ars) (h' : Inv segs r' ars) : SameHeaps r.heap r'.heap where
  layout := h.layout.trans h'.layout.symm
  allocCount heap := (h.allocCount heap).trans (h'.allocCount heap).symm
  stats heap := by
    have hfold := (h.rep.freeSizes_perm h'.rep heap).foldl_eq (f := countFreeSize)
      ⟨0, 0, 0, 0, 0, 0⟩
    rw [mallocHeapGetStats_eq, mallocHeapGetStats_eq, hfold, h.totalSize, h'.totalSize, h.allocCount,
      h'.allocCount]

/-! ## Freeing blocks -/

/-- The busy element at `x` has the data pointer `p`. -/
def OfPtr (x : Nat) (e : Elem) (p : Nat) : Prop := ∃ m pad, e = ⟨m, .busy pad⟩ ∧ x + pad + 64 = p

theorem HeapRep.ofPtr_inj {s : HeapState} {ars : List Arena} (h : HeapRep s ars) {x x' m m' pad pad' : Nat}
    (hx : (x, ⟨m, .busy pad⟩) ∈ placed ars) (hx' : (x', ⟨m', .busy pad'⟩) ∈ placed ars)
    (hp : x + pad = x' + pad') : x = x' := by
  have hok := (h.placed_ok hx).2.2.2.1
  have hok' := (h.placed_ok hx').2.2.2.1
  obtain ⟨ar, har, hm⟩ := mem_placed.mp hx
  obtain ⟨c, rfl, rfl, -, -, -⟩ := Focus.exists_plug har hm
  simp only at hok hok'
  rcases c.mem_placed_plug.mp hx' with hin | hrest
  · rw [place_cons, place_nil, List.mem_singleton] at hin
    exact (Prod.mk.inj hin).1.symm
  · have hap := h.rest_apart hrest
    simp only [total_cons, total_nil] at hap
    omega

/-- Freeing a live block takes away its element and no other busy one. -/
theorem Inv.free_busyAt {segs : List RteMemseg} {r : RunState} {ars : List Arena}
    (h : Inv segs r ars) {b : Block} (hb : b ∈ r.live) : ∃ ars',
      Inv segs ((MallocOp.free b).run r) ars' ∧
        ∀ x e, BusyAt ars' x e ↔ BusyAt ars x e ∧ ¬OfPtr x e b.ptr := by
  obtain ⟨-, a, n, pad, hold⟩ := h.live b hb
  have hfrom := h.rep.fromData hold
  obtain ⟨c, rfl, rfl⟩ := hold.focus
  obtain ⟨-, L, A, B, R, hf⟩ := h.rep.free h.settled_focus
  simp only [MallocOp.run, RunState.elemOf, hfrom]
  refine ⟨_, h.freed hb hold hf, fun x e => ?_⟩
  rw [hf.busyAt h.rep]
  refine and_congr_right fun hbusy => not_congr ⟨?_, ?_⟩
  · rintro rfl
    have he := h.rep.placed_inj hold.mem hbusy.1
    exact ⟨n, pad, he, hold.ptr.symm⟩
  · rintro ⟨m, pad', rfl, hp⟩
    have hptr := hold.ptr
    exact h.rep.ofPtr_inj hbusy.1 hold.mem (by omega)

/-- The blocks of the list are freed one after the other. -/
def freeAll (r : RunState) (l : List Block) : RunState :=
  l.foldl (fun r b => (MallocOp.free b).run r) r

theorem Inv.freeAll {segs : List RteMemseg} {r : RunState} {ars : List Arena} (h : Inv segs r ars)
    {l : List Block} (hnd : l.Nodup) (hl : ∀ b ∈ l, b ∈ r.live) : ∃ ars',
      Inv segs (freeAll r l) ars' ∧
        ∀ x e, BusyAt ars' x e ↔ BusyAt ars x e ∧ ∀ b ∈ l, ¬OfPtr x e b.ptr := by
  induction l generalizing r ars with
  | nil => exact ⟨ars, h, fun x e => ⟨fun hx => ⟨hx, by simp⟩, And.left⟩⟩
  | cons b l ih =>
    rw [List.nodup_cons] at hnd
    obtain ⟨ars₁, h₁, hbusy₁⟩ := h.free_busyAt (hl b List.mem_cons_self)
    obtain ⟨ars', h', hbusy'⟩ := ih h₁ hnd.2 fun b' hb' =>
      h.mem_erase.mpr ⟨fun heq => hnd.1 (heq ▸ hb'), hl b' (List.mem_cons_of_mem _ hb')⟩
    refine ⟨ars', h', fun x e => ?_⟩
    rw [hbusy', hbusy₁, List.forall_mem_cons, and_assoc]

/-- Any two orders of freeing the same blocks lead to the same heaps. -/
theorem Inv.freeAll_perm {segs : List RteMemseg} {r : RunState} {ars : List Arena}
    (h : Inv segs r ars) {l l' : List Block} (hp : l.Perm l') (hnd : l.Nodup)
    (hl : ∀ b ∈ l, b ∈ r.live) : SameHeaps (RteDemo.freeAll r l).heap (RteDemo.freeAll r l').heap := by
  obtain ⟨ars₁, h₁, hbusy₁⟩ := h.freeAll hnd hl
  obtain ⟨ars₂, h₂, hbusy₂⟩ := h.freeAll (hp.nodup_iff.mp hnd) fun b hb => hl b (hp.mem_iff.mpr hb)
  have heq : ars₁ = ars₂ := h₁.unique h₂ fun x e => by
    rw [hbusy₁, hbusy₂]
    exact and_congr_right fun _ => forall_congr' fun b => by rw [hp.mem_iff]
  subst heq
  exact h₁.sameHeaps h₂

/-- When everything has been freed the arenas are the initial ones. -/
theorem Inv.freeAll_live {segs : List RteMemseg} (hok : MemsegsOK segs) {r : RunState}
    {ars : List Arena} (h : Inv segs r ars) {l : List Block} (hp : l.Perm r.live) :
    Inv segs (RteDemo.freeAll r l) (segArenas segs) := by
  have hnd : l.Nodup := hp.nodup_iff.mpr h.nodup
  obtain ⟨ars', h', hbusy⟩ := h.freeAll hnd fun b hb => hp.mem_iff.mp hb
  have h0 := Inv.init hok (m := fun _ => 0) (r := ⟨_, []⟩) rfl
  have heq : ars' = segArenas segs := h'.unique h0 fun x e => by
    have hnone : ∀ {brs : List Arena}, (∀ a n pad, (a, ⟨n, .busy pad⟩) ∉ placed brs) →
        (∀ ar ∈ brs, ∀ f ∈ ar.elems, f.use ≠ .detached) → ¬BusyAt brs x e := by
      rintro brs hno hset ⟨hm, hu⟩
      obtain ⟨n, u⟩ := e
      obtain ⟨ar, har, hin⟩ := mem_placed.mp hm
      cases u with
      | busy pad => exact hno _ _ _ hm
      | free => exact hu rfl
      | detached => exact hset ar har _ (mem_of_mem_place Elem.size hin) rfl
    refine iff_of_false (hnone (fun a n pad hm => ?_) h'.settled) (hnone (fun a n pad hm => ?_) h0.settled)
    · obtain ⟨hold, hne⟩ := (hbusy a ⟨n, .busy pad⟩).1 ⟨hm, by simp⟩
      obtain ⟨b, hb, hptr⟩ := h.owned a n pad hold.1
      exact hne b (hp.mem_iff.mpr hb) ⟨n, pad, rfl, hptr.symm⟩
    · obtain ⟨b, hb, -⟩ := h0.owned a n pad hm
      cases hb
  exact heq ▸ h'

/-! ## Allocating and freeing at once -/

/-- The block that an allocation returns, freed at once, leaves the arenas of before. -/
theorem Inv.alloc_free {segs : List RteMemseg} {r : RunState} {ars : List Arena} (h : Inv segs r ars)
    {heap size flags align bound : Nat} (hv : (MallocOp.alloc heap size flags align bound).Valid r)
    (hn : (MallocOp.alloc heap size flags align bound).NoWrap r) {res : HeapState × Nat}
    (hres : mallocHeapAlloc r.heap heap size flags align bound = res) (hne : res.2 ≠ 0) :
    Inv segs ((MallocOp.free ⟨res.2, size, align, bound, false⟩).run
      (MallocOp.allocated r size align bound res)) ars := by
  obtain ⟨⟨k, hk, rfl⟩, hb⟩ := hv
  have hle : size ≤ rteCacheLineRoundup 64 size := by
    rw [rteCacheLineRoundup_eq (by decide) hn.1]
    omega
  have hspec := h.heapAlloc hk hb hn.1 hn.2
  rw [hres] at hspec
  rcases hspec with hfail | ⟨c, n, front, rfl, ha⟩
  · exact absurd (congrArg Prod.snd hfail) hne
  · have hinv := h.allocated ha hle (ha.fits.placed hle)
    have hafter : MallocOp.allocated r size (2 ^ k) bound res =
        ⟨res.1, ⟨res.2, size, 2 ^ k, bound, false⟩ :: r.live⟩ := by
      rw [MallocOp.allocated, if_neg hne]
    rw [hafter]
    obtain ⟨ars', h', hbusy⟩ := hinv.free_busyAt List.mem_cons_self
    have heq : ars' = c.plug [⟨n, .free⟩] := h'.unique h fun x e => by
      rw [hbusy]
      constructor
      · rintro ⟨hx, hno⟩
        exact (ha.busyAt x e hx).resolve_right hno
      · intro hx
        obtain ⟨hin, hap⟩ := ha.busyAt_of hx
        refine ⟨hin, ?_⟩
        rintro ⟨m, pad, rfl, hp⟩
        have hfit := (h.rep.placed_ok hx.1).2.2.2.1
        have hptr := ha.ptrEq
        have hlen := ha.le
        simp only at hp hfit hap
        omega
    exact heq ▸ h'

/-! ## Every run -/

/-- The layout with nothing allocated. -/
def unallocated (segs : List RteMemseg) : List (List ElemView) :=
  segs.map fun seg => [⟨seg.addr, seg.elemSize, ElemState.free.val⟩]

/-- There the size of the first element is that of the memseg. -/
theorem size_of_unallocated {s : HeapState} {seg : RteMemseg} (hseg : seg ∈ s.memseg)
    (hpos : 0 < seg.elemSize) (h : s.layout = unallocated s.memseg) :
    s.elem .size seg.addr = seg.elemSize := by
  have hwalk := List.map_inj_left.mp h seg hseg
  have hhead := congrArg List.head? hwalk
  rw [walk_head hpos (by omega), List.head?_cons] at hhead
  exact congrArg ElemView.size (Option.some.inj hhead)

/-- **Freeing is confluent and undoes allocation** in every run in which nothing wraps. -/
theorem free_confluent {segs : List RteMemseg} (hok : MemsegsOK segs) {m : Mem} {r : RunState}
    (h : Reach (MallocInit segs m) ExactStep r) :
    (∀ l l' : List Block, l.Perm l' → l.Nodup → (∀ b ∈ l, b ∈ r.live) →
      SameHeaps (freeAll r l).heap (freeAll r l').heap) ∧
    (∀ (heap size flags align bound : Nat) (s' : HeapState) (ptr : Nat),
      (MallocOp.alloc heap size flags align bound).Valid r →
      (MallocOp.alloc heap size flags align bound).NoWrap r →
      mallocHeapAlloc r.heap heap size flags align bound = (s', ptr) → ptr ≠ 0 →
      (mallocElemFree s' (mallocElemFromData s'.mem ptr)).1.layout = r.heap.layout) ∧
    ∀ l : List Block, l.Perm r.live →
      (freeAll r l).heap.layout = unallocated segs := by
  obtain ⟨ars, hinv⟩ := Inv.of_reach hok h
  refine ⟨fun l l' hp hnd hl => hinv.freeAll_perm hp hnd hl, ?_, fun l hp => ?_⟩
  · intro heap size flags align bound s' ptr hv hn hres hne
    have hback := hinv.alloc_free hv hn hres hne
    exact hback.layout.trans hinv.layout.symm
  · rw [(hinv.freeAll_live hok hp).layout]
    refine List.ext_getElem (by simp [segArenas, unallocated]) fun i hi hi' => ?_
    simp [segArenas, segArena, unallocated, viewOf, Use.stateVal]

/-- Two blocks are freed in both orders, and a third one is allocated and freed at once. -/
theorem free_confluent_oneSeg : ∃ r b b', r.live = [b, b'] ∧ b ≠ b' ∧
    SameHeaps (freeAll r [b, b']).heap (freeAll r [b', b]).heap ∧
    (∃ s' ptr, mallocHeapAlloc r.heap 0 64 0 (2 ^ 6) 0 = (s', ptr) ∧ ptr ≠ 0 ∧
      (mallocElemFree s' (mallocElemFromData s'.mem ptr)).1.layout = r.heap.layout) ∧
    (freeAll r [b, b']).heap.layout = unallocated oneSeg := by
  obtain ⟨r, hreach, hlive, hwrap, hinv⟩ := exists_twoBlocks
  have hreach := hreach.mono (fun _ => id) fun _ _ => SmallStep.exact
  obtain ⟨hperm, hundo, hall⟩ := free_confluent oneSeg_ok hreach
  have hne : smallBlock (2 ^ 31 - 256) ≠ smallBlock (2 ^ 31 - 128) := by decide
  refine ⟨r, _, _, hlive, hne, ?_, ?_, hall _ (by rw [hlive])⟩
  · refine hperm _ _ (List.Perm.swap _ _ _) ?_ fun b hb => by rwa [hlive]
    simp only [List.nodup_cons, List.mem_singleton, List.not_mem_nil, not_false_eq_true, List.nodup_nil, and_true]
    exact hne
  · obtain ⟨-, hnew, -⟩ := hinv.small_alloc (by simp) (by decide) (by decide) (by decide) (by decide) (by decide)
    have hptr : (mallocHeapAlloc r.heap 0 64 0 (2 ^ 6) 0).2 ≠ 0 := by
      intro h0
      rw [smallAlloc, MallocOp.run_alloc, MallocOp.allocated, if_pos h0] at hnew
      exact absurd hnew (List.cons_ne_self _ _).symm
    exact ⟨_, _, rfl, hptr, hundo 0 64 0 (2 ^ 6) 0 _ _ (MallocOp.valid_alloc r 0 64 0 6 (by decide)) hwrap rfl hptr⟩

/-- After the request that wraps nothing is live, and the memseg is not one free element. -/
theorem not_free_confluent :
    Reach (MallocInit oneSeg fun _ => 0) MallocStep wrapped ∧ wrapped.live = [] ∧
      (freeAll wrapped wrapped.live).heap.layout ≠ unallocated oneSeg := by
  obtain ⟨hlive, hseg, hsize⟩ := wrapped_eq
  refine ⟨reach_wrapped, hlive, fun h => ?_⟩
  rw [hlive, freeAll, List.foldl_nil, ← hseg] at h
  have hmem : ⟨2 ^ 30, 2 ^ 30, 2 ^ 21, 0⟩ ∈ wrapped.heap.memseg := hseg ▸ List.mem_cons_self
  have hfull := size_of_unallocated hmem (by decide) h
  exact absurd (hsize.symm.trans hfull) (by decide)

end RteDemo
