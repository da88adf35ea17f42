import RteDemo.Malloc.Find
import RteDemo.Malloc.Init
import RteDemo.Malloc.RteMalloc
import RteDemo.Lib.Reach
import Mathlib.Data.List.Chain

/-!
# Runs of the allocator

The users of the allocator hold blocks (`Block`). They allocate, free and resize blocks, and write to
the usable area of blocks they hold: a `MallocOp` each. `MallocOp.Valid` is what a caller promises,
`MallocOp.NoWrap` that no subtraction or sum of the operation wraps.
-/

namespace RteDemo

open Bytes Tiling

/-! ## Blocks and operations -/

/-- A block as its holder sees it: the pointer and the request. `grown` records that a resize asked
for more than before. -/
structure Block where
  ptr : Nat
  size : Nat
  align : Nat
  bound : Nat
  grown : Bool
  deriving DecidableEq

structure RunState where
  heap : HeapState
  live : List Block

/-- The usable size that `rte_malloc_validate` reports. -/
def HeapState.usable (s : HeapState) (b : Block) : Nat := (rteMallocValidate s b.ptr).getD 0

inductive MallocOp
  | alloc (heap size flags align bound : Nat)
  | free (b : Block)
  | resize (b : Block) (size : Nat)
  /-- The user writes to a block; afterwards the memory is `m`. -/
  | write (b : Block) (m : Mem)

/-- The element of a block. -/
def RunState.elemOf (r : RunState) (b : Block) : Nat := mallocElemFromData r.heap.mem b.ptr

namespace MallocOp

/-- What callers promise: powers of two, live blocks, sizes rounded to cache lines in a resize, and
writes inside the usable area. -/
def Valid (r : RunState) : MallocOp → Prop
  | alloc _ _ _ align bound => (∃ k < 32, align = 2 ^ k) ∧ BoundOK bound
  | free b => b ∈ r.live
  | resize b size => b ∈ r.live ∧ 64 ∣ size
  | write b m => b ∈ r.live ∧
    ∀ x, (x < b.ptr ∨ b.ptr + r.heap.usable b ≤ x) → m x = r.heap.mem x

/-- Nothing wraps: neither the round-up of the size, nor a subtraction of `elem_start_pt` for an
element that the search visits, nor the sum that a resize compares with. -/
def NoWrap (r : RunState) : MallocOp → Prop
  | alloc heap size flags align bound =>
    let size' := rteCacheLineRoundup 64 size
    size + 63 < 2 ^ 64 ∧ SearchExact r.heap size' flags (rteCacheLineRoundup 64 align) bound
      ((r.heap.mallocHeaps heap).candidates size')
  | resize b size => size + r.heap.elem .pad (r.elemOf b) + 64 < 2 ^ 64
  | _ => True

/-- The state after an allocation that answered `res`. -/
def allocated (r : RunState) (size align bound : Nat) (res : HeapState × Nat) : RunState :=
  ⟨res.1, if res.2 = 0 then r.live else ⟨res.2, size, align, bound, false⟩ :: r.live⟩

/-- The state after the operation. -/
def run (r : RunState) : MallocOp → RunState
  | alloc heap size flags align bound =>
    allocated r size align bound (mallocHeapAlloc r.heap heap size flags align bound)
  | free b => ⟨(mallocElemFree r.heap (r.elemOf b)).1, r.live.erase b⟩
  | resize b size =>
    let res := mallocElemResize r.heap (r.elemOf b) size
    ⟨res.1, if res.2 = 0 then
        { b with size := size, grown := b.grown || decide (b.size < size) } :: r.live.erase b
      else r.live⟩
  | write _ m => ⟨r.heap.setMem m, r.live⟩

end MallocOp

theorem MallocOp.run_alloc (r : RunState) (heap size flags align bound : Nat) :
    (alloc heap size flags align bound).run r =
      allocated r size align bound (mallocHeapAlloc r.heap heap size flags align bound) := rfl

/-- Any operation that keeps the promises. -/
def MallocStep (r r' : RunState) : Prop := ∃ op : MallocOp, op.Valid r ∧ r' = op.run r

/-- An operation in which nothing wraps. -/
def ExactStep (r r' : RunState) : Prop := ∃ op : MallocOp, op.Valid r ∧ op.NoWrap r ∧ r' = op.run r

/-- The state that `rte_eal_malloc_heap_init` leaves: no block is live. -/
def MallocInit (segs : List RteMemseg) (m : Mem) (r : RunState) : Prop :=
  r = ⟨rteEalMallocHeapInit (HeapState.boot segs m), []⟩

/-! ## Neighbouring free elements -/

/-- No two neighbours are both free. -/
def Compact (L : List Elem) : Prop := L.IsChain fun e f => ¬ (e.use = .free ∧ f.use = .free)

def StartsFree (L : List Elem) : Prop := ∃ e ∈ L.head?, e.use = .free

def EndsFree (L : List Elem) : Prop := ∃ e ∈ L.getLast?, e.use = .free

@[simp] theorem compact_nil : Compact [] := List.IsChain.nil
@[simp] theorem compact_single (e : Elem) : Compact [e] := List.isChain_singleton e
@[simp] theorem compact_cons_cons {e f : Elem} {L : List Elem} :
    Compact (e :: f :: L) ↔ ¬ (e.use = .free ∧ f.use = .free) ∧ Compact (f :: L) :=
  List.isChain_cons_cons
@[simp] theorem startsFree_cons {e : Elem} {L : List Elem} : StartsFree (e :: L) ↔ e.use = .free := by
  simp [StartsFree]
@[simp] theorem endsFree_single {e : Elem} : EndsFree [e] ↔ e.use = .free := by simp [EndsFree]
@[simp] theorem endsFree_cons_cons {e f : Elem} {L : List Elem} :
    EndsFree (e :: f :: L) ↔ EndsFree (f :: L) := by simp [EndsFree, List.getLast?_cons_cons]

theorem compact_append {L R : List Elem} :
    Compact (L ++ R) ↔ Compact L ∧ Compact R ∧ ¬ (EndsFree L ∧ StartsFree R) := by
  unfold Compact EndsFree StartsFree
  rw [List.isChain_append]
  refine and_congr_right fun _ => and_congr_right fun _ => ⟨?_, ?_⟩
  · rintro h ⟨⟨e, he, hef⟩, f, hf, hff⟩
    exact h e he f hf ⟨hef, hff⟩
  · intro h e he f hf hef
    exact h ⟨⟨e, he, hef.1⟩, f, hf, hef.2⟩

theorem endsFree_append {L D : List Elem} (hD : D ≠ []) : EndsFree (L ++ D) ↔ EndsFree D := by
  unfold EndsFree
  rw [List.getLast?_append_of_ne_nil _ hD]

/-- What it takes to put `D` between `L` and `R`. -/
theorem compact_between {L D R : List Elem} (hD : D ≠ []) :
    Compact (L ++ D ++ R) ↔ Compact L ∧ Compact D ∧ Compact R ∧ ¬ (EndsFree L ∧ StartsFree D) ∧
      ¬ (EndsFree D ∧ StartsFree R) := by
  rw [compact_append, compact_append, endsFree_append hD]
  tauto

/-! ## The invariant -/

/-- Counts the busy elements. -/
def busyCount (e : Elem) : Nat :=
  match e.use with
  | .busy _ => 1
  | _ => 0

/-- The element at `a` of `n` bytes, with `pad` bytes of padding, holds the block. -/
structure Holds (ars : List Arena) (b : Block) (a n pad : Nat) : Prop where
  mem : (a, ⟨n, .busy pad⟩) ∈ placed ars
  ptr : b.ptr = a + pad + 64
  size : b.size + pad + 64 ≤ n

/-- The block is placed as it was requested. -/
structure Block.Placed (b : Block) : Prop where
  align : b.align ∣ b.ptr
  cacheLine : 64 ∣ b.ptr
  bound : b.grown = false → NoCross b.bound b.ptr b.size

/-- The heaps describe the arenas `ars`, and every live block has a busy element of its own. -/
structure Inv (segs : List RteMemseg) (r : RunState) (ars : List Arena) : Prop where
  rep : HeapRep r.heap ars
  memseg : r.heap.memseg = segs
  frames : ars.map Arena.frame = (segArenas segs).map Arena.frame
  settled : ∀ ar ∈ ars, ∀ e ∈ ar.elems, e.use ≠ .detached
  compact : ∀ ar ∈ ars, Compact ar.elems
  allocCount : ∀ heap, (r.heap.mallocHeaps heap).allocCount = tally heap busyCount ars % 2 ^ 32
  totalSize : ∀ heap, (r.heap.mallocHeaps heap).totalSize = tally heap Elem.size ars % 2 ^ 64
  live : ∀ b ∈ r.live, b.Placed ∧ ∃ a n pad, Holds ars b a n pad
  distinct : r.live.Pairwise fun b b' => b.ptr ≠ b'.ptr
  /-- No busy element is lost. -/
  owned : ∀ a n pad, (a, ⟨n, .busy pad⟩) ∈ placed ars → ∃ b ∈ r.live, b.ptr = a + pad + 64

/-! ## Elements of blocks -/

theorem HeapRep.placed_inj {s : HeapState} {ars : List Arena} (h : HeapRep s ars) {a : Nat}
    {e e' : Elem} (he : (a, e) ∈ placed ars) (he' : (a, e') ∈ placed ars) : e' = e := by
  obtain ⟨ar, har, hm⟩ := mem_placed.mp he
  obtain ⟨c, rfl, rfl, -, -, -⟩ := Focus.exists_plug har hm
  have h64 := (h.placed_ok he).le
  have h64' := (h.placed_ok he').le
  rcases c.mem_placed_plug.mp he' with hin | hout
  · simpa using hin
  · have := h.rest_apart hout
    simp only [total_cons, total_nil] at this
    omega

/-- The focus on the element that holds a block. -/
theorem Holds.focus {ars : List Arena} {b : Block} {a n pad : Nat} (h : Holds ars b a n pad) :
    ∃ c : Focus, ars = c.plug [⟨n, .busy pad⟩] ∧ c.pos = a := by
  obtain ⟨ar, har, hm⟩ := mem_placed.mp h.mem
  obtain ⟨c, hplug, hpos, -⟩ := Focus.exists_plug har hm
  exact ⟨c, hplug, hpos⟩

/-- **`malloc_elem_from_data`** recovers the element, through the dummy header if there is one. -/
theorem HeapRep.fromData {s : HeapState} {ars : List Arena} (h : HeapRep s ars) {b : Block}
    {a n pad : Nat} (hb : Holds ars b a n pad) : mallocElemFromData s.mem b.ptr = a := by
  obtain ⟨c, rfl, rfl⟩ := hb.focus
  have hok := h.gap_ok _ List.mem_cons_self
  have htop := h.top
  have h64 := h.base_pos.trans (HeapRep.base_le_pos c)
  obtain ⟨hst, hpd, hdummy⟩ := h.single_hdr.use
  obtain ⟨-, hn, hpdvd, hle, -⟩ := hok
  simp only [total_cons, total_nil] at htop hn hle
  have hsub : rtePtrSub b.ptr 64 = c.pos + pad := by
    rw [hb.ptr, rtePtrSub_eq (by omega) (by omega)]
    omega
  rw [mallocElemFromData, if_neg (by rw [hb.ptr]; omega), mallocElemHeaderLen, hsub]
  simp only
  rw [if_neg (by omega)]
  rcases Nat.eq_zero_or_pos pad with h0 | hpos
  · subst h0
    rw [Nat.add_zero, hst, if_pos (by decide)]
  · obtain ⟨hs, hp⟩ := hdummy (Nat.pos_iff_ne_zero.mp hpos)
    rw [hs, if_neg (by simp), hp, rtePtrSub_eq (by omega) (by omega)]
    omega

/-! ## The invariant over an edit -/

theorem tally_size (heap : Nat) {c : Focus} {D D' : List Elem}
    (h : total Elem.size D' = total Elem.size D) :
    tally heap Elem.size (c.plug D') = tally heap Elem.size (c.plug D) := by
  rw [c.tally_plug, c.tally_plug]
  unfold total at h
  rw [h]

section

variable {segs : List RteMemseg} {r : RunState} {s' : HeapState} {c : Focus} {D D' : List Elem}

/-- An edit that leaves the neighbourhood compact and counts right keeps the invariant for the blocks
that still have their elements. -/
theorem Inv.edit (h : Inv segs r (c.plug D)) (he : Edit r.heap s' c D D')
    (hset : ∀ e ∈ D', e.use ≠ .detached) (hcomp : Compact (c.left ++ D' ++ c.right))
    (hcount : ∀ heap, (s'.mallocHeaps heap).allocCount = tally heap busyCount (c.plug D') % 2 ^ 32)
    {live : List Block} (hlive : ∀ b ∈ live, b.Placed ∧ ∃ a n pad, Holds (c.plug D') b a n pad)
    (hdist : live.Pairwise fun b b' => b.ptr ≠ b'.ptr)
    (howned : ∀ a n pad, (a, ⟨n, .busy pad⟩) ∈ place Elem.size c.pos D' ∨
      (a, ⟨n, .busy pad⟩) ∈ c.restPlaced (total Elem.size D) → ∃ b ∈ live, b.ptr = a + pad + 64) :
    Inv segs ⟨s', live⟩ (c.plug D') where
  rep := he.rep'
  memseg := he.memseg.trans h.memseg
  frames := he.frames.trans h.frames
  settled ar har e hm := by
    rcases HeapRep.mem_plug.mp har with rfl | har
    · simp only [Focus.arena, List.mem_append] at hm
      rcases hm with (hm | hm) | hm
      · exact h.settled _ (HeapRep.arena_mem c D) e (by simp [Focus.arena, hm])
      · exact hset e hm
      · exact h.settled _ (HeapRep.arena_mem c D) e (by simp [Focus.arena, hm])
    · exact h.settled ar (HeapRep.mem_plug.mpr (.inr har)) e hm
  compact ar har := by
    rcases HeapRep.mem_plug.mp har with rfl | har
    · exact hcomp
    · exact h.compact ar (HeapRep.mem_plug.mpr (.inr har))
  allocCount := hcount
  totalSize heap := by
    rw [he.totalSize, h.totalSize, tally_size heap he.size]
  live := hlive
  distinct := hdist
  owned a n pad hm := howned a n pad (he.rest_iff.mp hm)

/-- A block outside the gap keeps its element. -/
theorem Edit.holds (he : Edit r.heap s' c D D') {b : Block} {a n pad : Nat}
    (hb : Holds (c.plug D) b a n pad) (hout : (a, ⟨n, .busy pad⟩) ∉ place Elem.size c.pos D) :
    Holds (c.plug D') b a n pad :=
  ⟨he.rest_iff.mpr (.inr ((c.mem_placed_plug.mp hb.mem).resolve_left hout)), hb.ptr, hb.size⟩

/-- Blocks in one element have one pointer. -/
theorem Holds.ptr_eq {ars : List Arena} (h : HeapRep r.heap ars) {b b' : Block} {a n n' pad pad' : Nat}
    (hb : Holds ars b a n pad) (hb' : Holds ars b' a n' pad') : b'.ptr = b.ptr := by
  have he := h.placed_inj hb.mem hb'.mem
  simp only [Elem.mk.injEq, Use.busy.injEq] at he
  rw [hb.ptr, hb'.ptr, he.2]

theorem Inv.compact_gap (h : Inv segs r (c.plug D)) (hD : D ≠ []) :
    Compact c.left ∧ Compact D ∧ Compact c.right ∧ ¬ (EndsFree c.left ∧ StartsFree D) ∧
      ¬ (EndsFree D ∧ StartsFree c.right) :=
  (compact_between hD).mp (h.compact _ (HeapRep.arena_mem c D))

end

/-! ## Allocation -/

theorem sum_busyCount_allocElems (n front size : Nat) :
    ((allocElems n front size).map busyCount).sum = 1 := by
  unfold allocElems backElems
  split_ifs <;> rfl

theorem allocElems_settled (n front size : Nat) :
    ∀ e ∈ allocElems n front size, e.use ≠ .detached := by
  unfold allocElems backElems
  split_ifs <;> simp

theorem compact_allocElems (n front size : Nat) : Compact (allocElems n front size) := by
  unfold allocElems backElems
  split_ifs <;> simp

theorem allocElems_ne_nil (n front size : Nat) : allocElems n front size ≠ [] := by
  unfold allocElems
  split_ifs <;> simp

/-- Where the block is among the new elements. -/
theorem mem_allocElems {n front size a : Nat} (hle : front + size + 64 ≤ n) :
    ∃ m pad, (a + front - pad, ⟨m, .busy pad⟩) ∈ place Elem.size a (allocElems n front size) ∧
      pad ≤ front ∧ size + pad + 64 ≤ m := by
  have hk := le_keptSize hle
  unfold allocElems
  split_ifs with hlt
  · exact ⟨keptSize n front size, front, by simp, Nat.le_refl _, by omega⟩
  · exact ⟨keptSize n front size - front, 0, by simp, Nat.zero_le _, by omega⟩

/-- The one busy element among them. -/
theorem busy_allocElems {n front size a x m pad : Nat}
    (h : (x, ⟨m, .busy pad⟩) ∈ place Elem.size a (allocElems n front size)) :
    x + pad = a + front := by
  have hback : ∀ y, (x, ⟨m, .busy pad⟩) ∉ place Elem.size y (backElems n front size) := fun y => by
    unfold backElems
    split_ifs <;> simp
  unfold allocElems at h
  rw [place_append, List.mem_append] at h
  have h := h.resolve_right (hback _)
  split_ifs at h
  · simp only [place_cons, place_nil, List.mem_singleton, Prod.mk.injEq, Elem.mk.injEq,
      Use.busy.injEq] at h
    omega
  · simp only [place_cons, place_nil, List.mem_cons, Prod.mk.injEq, Elem.mk.injEq, reduceCtorEq,
      and_false, Use.busy.injEq, List.not_mem_nil, or_false, false_or] at h
    omega

theorem Fits.placed {pos n size size' k bound ptr : Nat} (h : Fits pos n size' (2 ^ max k 6) bound ptr)
    (hle : size ≤ size') : Block.Placed ⟨ptr, size, 2 ^ k, bound, false⟩ :=
  ⟨(Nat.pow_dvd_pow 2 (Nat.le_max_left k 6)).trans h.aligned,
    (Nat.pow_dvd_pow 2 (Nat.le_max_right k 6)).trans h.aligned, fun _ => h.bounded.mono hle⟩

section

variable {segs : List RteMemseg} {r : RunState} {s' : HeapState} {c : Focus}
  {heap size flags align bound ptr n front : Nat}

theorem Inv.allocated (h : Inv segs r (c.plug [⟨n, .free⟩]))
    (ha : Allocated r.heap s' heap size flags align bound ptr c n front) {size₀ align₀ : Nat}
    (hsize : size₀ ≤ size) (hb : Block.Placed ⟨ptr, size₀, align₀, bound, false⟩) :
    Inv segs ⟨s', ⟨ptr, size₀, align₀, bound, false⟩ :: r.live⟩
      (c.plug (allocElems n front size)) := by
  have hptr := ha.ptrEq
  have hle := ha.le
  have hgap := h.compact_gap (List.cons_ne_nil _ _)
  simp only [startsFree_cons, endsFree_single, and_true, true_and] at hgap
  obtain ⟨hcl, -, hcr, hl, hr⟩ := hgap
  have hkeep : ∀ b' ∈ r.live, ∃ a m pad, Holds (c.plug (allocElems n front size)) b' a m pad ∧
      ptr ≠ b'.ptr := by
    intro b' hb'
    obtain ⟨-, a, m, pad, hold⟩ := h.live b' hb'
    have hnot : (a, Elem.mk m (.busy pad)) ∉ place Elem.size c.pos [⟨n, .free⟩] := by simp
    have hrest := (c.mem_placed_plug.mp hold.mem).resolve_left hnot
    have hap := h.rep.rest_apart hrest
    have hfits := (h.rep.placed_ok hold.mem).2.2.2.1
    simp only [total_cons, total_nil] at hap hfits
    refine ⟨a, m, pad, ha.edit.holds hold hnot, ?_⟩
    rw [hptr, hold.ptr]
    omega
  refine h.edit ha.edit (allocElems_settled n front size) ?_ (fun i => ?_) ?_ ?_ ?_
  · rw [compact_between (allocElems_ne_nil n front size)]
    exact ⟨hcl, compact_allocElems n front size, hcr, fun hc => hl hc.1, fun hc => hr hc.2⟩
  · rw [ha.counts.allocCount, HeapState.allocCount_adjustCount, h.allocCount, c.tally_plug,
      c.tally_plug, sum_busyCount_allocElems, ha.heapEq]
    by_cases hi : i = heap
    · rw [if_pos hi, if_pos hi.symm, if_pos hi.symm]
      simp [Word.add, busyCount, Nat.add_comm]
    · rw [if_neg hi, if_neg (Ne.symm hi), if_neg (Ne.symm hi)]
  · intro b' hb'
    rcases List.mem_cons.mp hb' with rfl | hb'
    · obtain ⟨m, pad, hm, hpad, hms⟩ := mem_allocElems (a := c.pos) hle
      exact ⟨hb, _, m, pad, ha.edit.rest_iff.mpr (.inl hm), by simp only; omega, by simp only; omega⟩
    · obtain ⟨a, m, pad, hold, -⟩ := hkeep b' hb'
      exact ⟨(h.live b' hb').1, a, m, pad, hold⟩
  · refine List.pairwise_cons.mpr ⟨fun b' hb' => ?_, h.distinct⟩
    obtain ⟨-, -, -, -, hne⟩ := hkeep b' hb'
    exact hne
  · rintro a m pad (hin | hrest)
    · have hat := busy_allocElems hin
      exact ⟨_, List.mem_cons_self, by simp only; omega⟩
    · obtain ⟨b', hb', hp⟩ := h.owned a m pad (c.mem_placed_plug.mpr (.inr hrest))
      exact ⟨b', List.mem_cons_of_mem _ hb', hp⟩

end

/-! ## Freeing -/

section

variable {segs : List RteMemseg} {r : RunState} {s' : HeapState} {c : Focus} {n pad : Nat} {b : Block}

theorem Absorbed.sum_busyCount {E : List Elem} (h : Absorbed E) : (E.map busyCount).sum = 0 := by
  rcases h with rfl | ⟨k, rfl⟩ <;> rfl

theorem Absorbed.free {E : List Elem} (h : Absorbed E) : ∀ e ∈ E, e.use = .free := by
  rcases h with rfl | ⟨k, rfl⟩ <;> simp

/-- Other live blocks have other pointers. -/
theorem Inv.ptr_ne {ars : List Arena} (h : Inv segs r ars) (hb : b ∈ r.live) {b' : Block}
    (hb' : b' ∈ r.live) (hne : b' ≠ b) : b'.ptr ≠ b.ptr := by
  have : Std.Symm fun b b' : Block => b.ptr ≠ b'.ptr := ⟨fun _ _ => Ne.symm⟩
  exact h.distinct.forall hb' hb hne

theorem Inv.nodup {ars : List Arena} (h : Inv segs r ars) : r.live.Nodup :=
  h.distinct.imp fun hne heq => hne (congrArg Block.ptr heq)

theorem Inv.mem_erase {ars : List Arena} (h : Inv segs r ars) {b b' : Block} :
    b' ∈ r.live.erase b ↔ b' ≠ b ∧ b' ∈ r.live := h.nodup.mem_erase_iff

/-- The element of another block is outside a gap whose only busy element holds `b`. -/
theorem Inv.other_outside (h : Inv segs r (c.plug [⟨n, .busy pad⟩])) (hb : b ∈ r.live)
    (hold : Holds (c.plug [⟨n, .busy pad⟩]) b c.pos n pad) {b' : Block} (hb' : b' ∈ r.live)
    (hne : b' ≠ b) {a m pad' : Nat} (hold' : Holds (c.plug [⟨n, .busy pad⟩]) b' a m pad') :
    a ≠ c.pos := by
  rintro rfl
  exact h.ptr_ne hb hb' hne (hold.ptr_eq h.rep hold')

theorem Inv.freed (h : Inv segs r (c.plug [⟨n, .busy pad⟩])) (hb : b ∈ r.live)
    (hold : Holds (c.plug [⟨n, .busy pad⟩]) b c.pos n pad) {L A B R : List Elem}
    (hf : Freed r.heap s' c n L A B R) :
    Inv segs ⟨s', r.live.erase b⟩ (Focus.plug { c with left := L, right := R }
      [⟨total Elem.size A + (n + total Elem.size B), .free⟩]) := by
  have hedit := hf.edit h.rep
  have hplug := c.plug_absorbed (D := [⟨n, .busy pad⟩]) hf.left hf.right
  have h' := hplug ▸ h
  have hD : A ++ [⟨n, .busy pad⟩] ++ B ≠ [] := by simp
  obtain ⟨hcl, -, hcr, hl, hr⟩ := h'.compact_gap hD
  have hEl : ¬ EndsFree L := by
    rcases hf.absorbedLeft with hA | ⟨k, rfl⟩
    · rintro ⟨e, he, hfree⟩
      exact hf.endLeft hA e he hfree
    · exact fun hE => hl ⟨hE, by simp⟩
  have hEr : ¬ StartsFree R := by
    rcases hf.absorbedRight with hB | ⟨k, rfl⟩
    · rintro ⟨e, he, hfree⟩
      exact hf.endRight hB e he hfree
    · exact fun hS => hr ⟨by rw [endsFree_append (List.cons_ne_nil _ _)]; simp, hS⟩
  have hposA : c.pos = Focus.pos { c with left := L, right := R } + total Elem.size A := by
    simp only [Focus.pos, hf.left, total_append, Nat.add_assoc]
  refine h'.edit hedit (by simp) ?_ (fun i => ?_) (fun b' hb' => ?_)
    (h.distinct.sublist List.erase_sublist) (fun a m pad' hm => ?_)
  · rw [compact_between (List.cons_ne_nil _ _)]
    exact ⟨hcl, compact_single _, hcr, fun hc => hEl hc.1, fun hc => hEr hc.2⟩
  · rw [hf.counts.allocCount, HeapState.allocCount_adjustCount, h.allocCount, hplug,
      Focus.tally_plug, Focus.tally_plug]
    simp only [List.map_append, List.sum_append, hf.absorbedLeft.sum_busyCount,
      hf.absorbedRight.sum_busyCount, List.map_cons, List.map_nil, List.sum_cons, List.sum_nil,
      busyCount, Nat.add_zero, Nat.zero_add]
    by_cases hi : i = c.heap
    · rw [if_pos hi, if_pos hi.symm, if_pos hi.symm, Nat.zero_add, Nat.add_comm 1,
        Word.sub_one_of_succ_mod _ _ (by decide)]
    · rw [if_neg hi, if_neg (Ne.symm hi), if_neg (Ne.symm hi)]
  · obtain ⟨hne, hb'⟩ := h.mem_erase.mp hb'
    obtain ⟨hpl, a, m, pad', hold'⟩ := h.live b' hb'
    have ha := h.other_outside hb hold hb' hne hold'
    refine ⟨hpl, a, m, pad', hedit.holds (hplug ▸ hold') fun hin => ?_⟩
    -- the absorbed elements are free, so the only busy one is the block's own
    rw [place_append, place_append, List.mem_append, List.mem_append] at hin
    rcases hin with (hin | hin) | hin
    · exact absurd (hf.absorbedLeft.free _ (mem_of_mem_place Elem.size hin)) (by simp)
    · have hpos : Focus.pos { c with left := L, right := R } + total Elem.size A = c.pos := by
        simp only [Focus.pos, hf.left, total_append, Nat.add_assoc]
      rw [hpos, place_cons, place_nil, List.mem_singleton] at hin
      exact ha (Prod.mk.inj hin).1
    · exact absurd (hf.absorbedRight.free _ (mem_of_mem_place Elem.size hin)) (by simp)
  · -- the element of another busy header lies below or above the gap
    have hrest := hm.resolve_left (by simp)
    have hall := (Focus.mem_placed_plug _).mpr (.inr hrest)
    obtain ⟨b', hb', hp⟩ := h'.owned a m pad' hall
    refine ⟨b', h.mem_erase.mpr ⟨?_, hb'⟩, hp⟩
    rintro rfl
    have hap := h'.rep.rest_apart hrest
    have hok := (h'.rep.placed_ok hall).2.2.2.1
    have hok' := (h.rep.gap_ok _ List.mem_cons_self).2.2.2.1
    have hptr := hold.ptr
    simp only [total_append, total_cons, total_nil] at hap hok hok'
    omega

/-! ## Resizing -/

theorem cutRest_free (t newSize : Nat) : ∀ e ∈ cutRest t newSize, e.use = .free := by
  unfold cutRest
  split_ifs <;> simp

theorem compact_cut (t newSize pad : Nat) :
    Compact (⟨cutSize t newSize, .busy pad⟩ :: cutRest t newSize) := by
  unfold cutRest
  split_ifs <;> simp

theorem sum_busyCount_cut (t newSize pad : Nat) :
    ((⟨cutSize t newSize, .busy pad⟩ :: cutRest t newSize).map busyCount).sum = 1 := by
  unfold cutRest
  split_ifs <;> rfl

/-- A block with a new size, in the element that holds it. -/
theorem Block.Placed.resize (h : b.Placed) (size : Nat) :
    Block.Placed { b with size := size, grown := b.grown || decide (b.size < size) } where
  align := h.align
  cacheLine := h.cacheLine
  bound hg := by
    simp only [Bool.or_eq_false_iff, decide_eq_false_iff_not, Nat.not_lt] at hg
    exact (h.bound hg.1).mono hg.2

theorem Inv.distinct_resize (h : Inv segs r (c.plug [⟨n, .busy pad⟩])) (hb : b ∈ r.live) (size : Nat) :
    ({ b with size := size, grown := b.grown || decide (b.size < size) } ::
      r.live.erase b).Pairwise fun b b' => b.ptr ≠ b'.ptr := by
  refine List.pairwise_cons.mpr ⟨fun b' hb' => ?_, h.distinct.sublist List.erase_sublist⟩
  obtain ⟨hne, hb'⟩ := h.mem_erase.mp hb'
  exact (h.ptr_ne hb hb' hne).symm

/-- The resized block keeps its pointer. -/
theorem Inv.owned_resize {ars : List Arena} (h : Inv segs r ars) {b' : Block} (hb' : b' ∈ r.live)
    {p : Nat} (hp : b'.ptr = p) (size : Nat) :
    ∃ b'' ∈ { b with size := size, grown := b.grown || decide (b.size < size) } :: r.live.erase b,
      b''.ptr = p := by
  by_cases hbb : b' = b
  · exact ⟨_, List.mem_cons_self, hbb ▸ hp⟩
  · exact ⟨b', List.mem_cons_of_mem _ (h.mem_erase.mpr ⟨hbb, hb'⟩), hp⟩

theorem Inv.resized (h : Inv segs r (c.plug [⟨n, .busy pad⟩])) (hb : b ∈ r.live)
    (hold : Holds (c.plug [⟨n, .busy pad⟩]) b c.pos n pad) {size : Nat} (hsize : size + pad + 64 ≤ n) :
    Inv segs ⟨r.heap, { b with size := size, grown := b.grown || decide (b.size < size) } ::
      r.live.erase b⟩ (c.plug [⟨n, .busy pad⟩]) where
  rep := h.rep
  memseg := h.memseg
  frames := h.frames
  settled := h.settled
  compact := h.compact
  allocCount := h.allocCount
  totalSize := h.totalSize
  live b' hb' := by
    rcases List.mem_cons.mp hb' with rfl | hb'
    · exact ⟨(h.live b hb).1.resize size, c.pos, n, pad, hold.mem, hold.ptr, hsize⟩
    · exact h.live b' (List.mem_of_mem_erase hb')
  distinct := h.distinct_resize hb size
  owned a m pad' hm := by
    obtain ⟨b', hb', hp⟩ := h.owned a m pad' hm
    exact h.owned_resize hb' hp size

theorem Inv.grown (h : Inv segs r (c.plug [⟨n, .busy pad⟩])) (hb : b ∈ r.live)
    (hold : Holds (c.plug [⟨n, .busy pad⟩]) b c.pos n pad) {size k : Nat} {R : List Elem}
    (hg : Grown r.heap s' c n pad (size + pad + 64) k R) :
    Inv segs ⟨s', { b with size := size, grown := b.grown || decide (b.size < size) } ::
      r.live.erase b⟩ (Focus.plug { c with right := R }
        (⟨cutSize (n + k) (size + pad + 64), .busy pad⟩ :: cutRest (n + k) (size + pad + 64))) := by
  have hedit := hg.edit h.rep
  have hplug : c.plug [⟨n, .busy pad⟩] =
      Focus.plug { c with right := R } [⟨n, .busy pad⟩, ⟨k, .free⟩] :=
    c.plug_absorbed (A := []) (B := [⟨k, .free⟩]) (List.append_nil _).symm hg.right
  have h' := hplug ▸ h
  obtain ⟨hcl, -, hcr, -, hr⟩ := h'.compact_gap (List.cons_ne_nil _ _)
  simp only [endsFree_cons_cons, endsFree_single, true_and] at hr
  have hle := le_cutSize hg.le
  refine h'.edit hedit (fun e he => ?_) ?_ (fun i => ?_) (fun b' hb' => ?_)
    (h.distinct_resize hb size) (fun a m pad' hm => ?_)
  · rcases List.mem_cons.mp he with rfl | he
    · simp
    · rw [cutRest_free _ _ e he]
      simp
  · rw [compact_between (List.cons_ne_nil _ _)]
    exact ⟨hcl, compact_cut _ _ _, hcr, fun hc => by simp at hc, fun hc => hr hc.2⟩
  · rw [hg.counts.allocCount, h.allocCount, hplug, Focus.tally_plug, Focus.tally_plug,
      sum_busyCount_cut]
    rfl
  · rcases List.mem_cons.mp hb' with rfl | hb'
    · exact ⟨(h.live b hb).1.resize size, c.pos, _, pad, hedit.rest_iff.mpr (.inl List.mem_cons_self),
        hold.ptr, hle.1⟩
    · obtain ⟨hne, hb'⟩ := h.mem_erase.mp hb'
      obtain ⟨hpl, a, m, pad', hold'⟩ := h.live b' hb'
      have ha := h.other_outside hb hold hb' hne hold'
      refine ⟨hpl, a, m, pad', hedit.holds (hplug ▸ hold') fun hin => ?_⟩
      simp only [place_cons, place_nil, List.mem_cons, Prod.mk.injEq, Elem.mk.injEq, reduceCtorEq,
        and_false, List.not_mem_nil, or_false] at hin
      exact ha hin.1
  · rcases hm with hin | hrest
    · rw [place_cons, List.mem_cons] at hin
      rcases hin with hin | hin
      · simp only [Prod.mk.injEq, Elem.mk.injEq, Use.busy.injEq] at hin
        obtain ⟨rfl, -, rfl⟩ := hin
        exact ⟨_, List.mem_cons_self, hold.ptr⟩
      · exact absurd (cutRest_free _ _ _ (mem_of_mem_place Elem.size hin)) (by simp)
    · obtain ⟨b', hb', hp⟩ := h'.owned a m pad' ((Focus.mem_placed_plug _).mpr (.inr hrest))
      exact h.owned_resize hb' hp size

end

/-! ## Writing -/

section

variable {segs : List RteMemseg} {r : RunState} {ars : List Arena} {b : Block} {a n pad : Nat}

/-- **`rte_malloc_validate`** reports what the element has left for the block. -/
theorem HeapRep.validate {s : HeapState} (h : HeapRep s ars) (hb : Holds ars b a n pad) :
    rteMallocValidate s b.ptr = some (n - pad - 64) := by
  have hfrom := h.fromData hb
  obtain ⟨c, rfl, rfl⟩ := hb.focus
  have hok := h.gap_ok _ List.mem_cons_self
  have htop := h.top
  have h64 := h.base_pos.trans (HeapRep.base_le_pos c)
  obtain ⟨-, hn, -, hle, -⟩ := hok
  simp only [total_cons, total_nil] at htop hn hle
  have hsz : s.elem .size c.pos = n := h.single_hdr.size
  have hpad : s.elem .pad c.pos = pad := h.single_hdr.use.2.1
  have hne : mallocElemCookiesOk c.pos = true := by
    rw [mallocElemCookiesOk, bne_iff_ne]
    omega
  rw [rteMallocValidate, hfrom]
  simp only [hne, if_true, hsz, hpad, mallocElemOverhead, mallocElemHeaderLen, mallocElemTrailerLen,
    Nat.add_zero]
  rw [Word.sub_eq (a := n) (by omega) (by omega), Word.sub_eq (by omega) (by omega)]

theorem HeapRep.usable {s : HeapState} (h : HeapRep s ars) (hb : Holds ars b a n pad) :
    s.usable b = n - pad - 64 := by
  rw [HeapState.usable, h.validate hb, Option.getD_some]

/-- The end of the usable area is the end of the element. -/
theorem HeapRep.ptr_add_usable {s : HeapState} (h : HeapRep s ars) (hb : Holds ars b a n pad) :
    b.ptr + s.usable b = a + n := by
  have hle := (h.placed_ok hb.mem).2.2.2.1
  simp only at hle
  rw [h.usable hb, hb.ptr]
  omega

/-- Writing behind the header of a block's data leaves all headers alone. -/
theorem HeapRep.writeData {s : HeapState} {c : Focus} {m : Mem}
    (h : HeapRep s (c.plug [⟨n, .busy pad⟩]))
    (hout : ∀ x, (x < c.pos + pad + 64 ∨ c.pos + n ≤ x) → m x = s.mem x) :
    HeapRep (s.setMem m) (c.plug [⟨n, .busy pad⟩]) := by
  have hok := h.gap_ok _ List.mem_cons_self
  have hdr := h.single_hdr
  obtain ⟨-, -, hpad, hle, -⟩ := hok
  simp only at hle
  have hag : Agree s.mem m c.pos (c.pos + pad + 64) := fun x _ hx => hout x (.inl hx)
  have hget : ∀ f, mallocElem.get f m c.pos = mallocElem.get f s.mem c.pos := fun f =>
    mallocElem.get_congr (hag.mono (Nat.le_refl _) (by change c.pos + 64 ≤ _; omega))
  have hdummy : ∀ f, mallocElem.get f m (c.pos + pad) = mallocElem.get f s.mem (c.pos + pad) :=
    fun f => mallocElem.get_congr (hag.mono (Nat.le_add_right _ _) (Nat.le_refl _))
  refine h.rewriteMem (.inside h rfl (by simpa using h.gap_ok _ List.mem_cons_self) (fun x hx => hout x ?_)
    rfl ⟨⟨?_, ?_, ?_, ?_, ?_, ?_, fun hne => ⟨?_, ?_⟩⟩, trivial⟩) (by simp) (by simp)
  · simp only [total_cons, total_nil] at hx
    omega
  · rw [hget]; exact hdr.heap
  · rw [hget]; exact hdr.ms
  · rw [hget]; exact hdr.prev
  · rw [hget]; exact hdr.size
  · rw [hget]; exact hdr.use.1
  · rw [hget]; exact hdr.use.2.1
  · rw [hdummy]; exact (hdr.use.2.2 hne).1
  · rw [hdummy]; exact (hdr.use.2.2 hne).2

theorem Inv.written (h : Inv segs r ars) (hb : Holds ars b a n pad) {m : Mem}
    (hout : ∀ x, (x < b.ptr ∨ b.ptr + r.heap.usable b ≤ x) → m x = r.heap.mem x) :
    Inv segs ⟨r.heap.setMem m, r.live⟩ ars := by
  have hend := h.rep.ptr_add_usable hb
  have hptr := hb.ptr
  obtain ⟨c, rfl, rfl⟩ := hb.focus
  exact { h with rep := h.rep.writeData fun x hx => hout x (by omega) }

end

/-! ## Every operation -/

/-- What an operation does to the heap, in terms of arenas. -/
inductive Outcome (r : RunState) (ars : List Arena) : MallocOp → HeapState → List Arena → Prop
  /-- The heap stays as it is. -/
  | same (op : MallocOp) : Outcome r ars op r.heap ars
  | allocated {heap size flags align bound size' align' ptr n front : Nat} {s' : HeapState} {c : Focus}
      (hsize : size ≤ size') (hars : ars = c.plug [⟨n, .free⟩])
      (ha : Allocated r.heap s' heap size' flags align' bound ptr c n front) :
      Outcome r ars (.alloc heap size flags align bound) s' (c.plug (allocElems n front size'))
  | freed {b : Block} {n pad : Nat} {s' : HeapState} {c : Focus} {L A B R : List Elem}
      (hb : b ∈ r.live) (hars : ars = c.plug [⟨n, .busy pad⟩]) (hold : Holds ars b c.pos n pad)
      (hf : Freed r.heap s' c n L A B R) :
      Outcome r ars (.free b) s' (Focus.plug { c with left := L, right := R }
        [⟨total Elem.size A + (n + total Elem.size B), .free⟩])
  | grown {b : Block} {size n pad k : Nat} {s' : HeapState} {c : Focus} {R : List Elem}
      (hb : b ∈ r.live) (hars : ars = c.plug [⟨n, .busy pad⟩]) (hold : Holds ars b c.pos n pad)
      (hg : Grown r.heap s' c n pad (size + pad + 64) k R) :
      Outcome r ars (.resize b size) s' (Focus.plug { c with right := R }
        (⟨cutSize (n + k) (size + pad + 64), .busy pad⟩ :: cutRest (n + k) (size + pad + 64)))
  | written {b : Block} {a n pad : Nat} {m : Mem} (hb : b ∈ r.live) (hold : Holds ars b a n pad)
      (hout : ∀ x, (x < b.ptr ∨ b.ptr + r.heap.usable b ≤ x) → m x = r.heap.mem x) :
      Outcome r ars (.write b m) (r.heap.setMem m) ars

theorem Inv.settled_focus {segs : List RteMemseg} {r : RunState} {c : Focus} {D : List Elem}
    (h : Inv segs r (c.plug D)) : ∀ e ∈ c.left ++ c.right, e.use ≠ .detached := fun e he =>
  h.settled _ (HeapRep.arena_mem c D) e (by
    simp only [Focus.arena, List.mem_append] at he ⊢
    tauto)

/-- What an allocation answers, once its search has been described. -/
theorem Inv.step_alloc {segs : List RteMemseg} {r : RunState} {ars : List Arena} (h : Inv segs r ars)
    {heap size size' flags k bound : Nat} (hle : size ≤ size') {res : HeapState × Nat}
    (hspec : res = (r.heap, 0) ∨ ∃ c n front, ars = c.plug [⟨n, .free⟩] ∧
      Allocated r.heap res.1 heap size' flags (2 ^ max k 6) bound res.2 c n front) :
    ∃ ars', Outcome r ars (.alloc heap size flags (2 ^ k) bound)
        (MallocOp.allocated r size (2 ^ k) bound res).heap ars' ∧
      Inv segs (MallocOp.allocated r size (2 ^ k) bound res) ars' := by
  unfold MallocOp.allocated
  rcases hspec with rfl | ⟨c, n, front, rfl, ha⟩
  · exact ⟨ars, .same _, h⟩
  · have hne : res.2 ≠ 0 := by
      have := ha.ptrEq
      omega
    rw [if_neg hne]
    exact ⟨_, .allocated hle rfl ha, h.allocated ha hle (ha.fits.placed hle)⟩

/-- `malloc_heap_alloc` in a state with the invariant. -/
theorem Inv.heapAlloc {segs : List RteMemseg} {r : RunState} {ars : List Arena}
    (h : Inv segs r ars) {heap size flags k bound : Nat} (hk : k < 32) (hb : BoundOK bound)
    (hround : size + 63 < 2 ^ 64)
    (hx : SearchExact r.heap (rteCacheLineRoundup 64 size) flags (rteCacheLineRoundup 64 (2 ^ k))
      bound ((r.heap.mallocHeaps heap).candidates (rteCacheLineRoundup 64 size))) :
    mallocHeapAlloc r.heap heap size flags (2 ^ k) bound = (r.heap, 0) ∨
      ∃ c n front, ars = c.plug [⟨n, .free⟩] ∧
        Allocated r.heap (mallocHeapAlloc r.heap heap size flags (2 ^ k) bound).1 heap
          (rteCacheLineRoundup 64 size) flags (2 ^ max k 6) bound
          (mallocHeapAlloc r.heap heap size flags (2 ^ k) bound).2 c n front := by
  have hsize := rteCacheLineRoundup_eq (w := 64) (by decide) hround
  have halign := rteCacheLineRoundup_two_pow hk
  have hsd : 64 ∣ rteCacheLineRoundup 64 size := hsize ▸ Nat.dvd_mul_right 64 _
  rw [halign] at hx
  exact (h.rep.heapAlloc rfl halign hsd ⟨_, Nat.le_max_right k 6, by omega, rfl⟩ hb hx).imp_left
    And.left

/-- **One step.** An operation in which nothing wraps has an outcome and keeps the invariant. -/
theorem Inv.step {segs : List RteMemseg} {r : RunState} {ars : List Arena} (h : Inv segs r ars)
    {op : MallocOp} (hv : op.Valid r) (hn : op.NoWrap r) :
    ∃ ars', Outcome r ars op (op.run r).heap ars' ∧ Inv segs (op.run r) ars' := by
  cases op with
  | alloc heap size flags align bound =>
    obtain ⟨⟨k, hk, rfl⟩, hb⟩ := hv
    have hle : size ≤ rteCacheLineRoundup 64 size := by
      rw [rteCacheLineRoundup_eq (by decide) hn.1]
      omega
    rw [MallocOp.run_alloc]
    exact h.step_alloc hle (h.heapAlloc hk hb hn.1 hn.2)
  | free b =>
    obtain ⟨-, a, n, pad, hold⟩ := h.live b hv
    have hfrom := h.rep.fromData hold
    obtain ⟨c, rfl, rfl⟩ := hold.focus
    obtain ⟨-, L, A, B, R, hf⟩ := h.rep.free h.settled_focus
    simp only [MallocOp.run, RunState.elemOf, hfrom]
    exact ⟨_, .freed hv rfl hold hf, h.freed hv hold hf⟩
  | resize b size =>
    obtain ⟨hb, hd⟩ := hv
    obtain ⟨-, a, n, pad, hold⟩ := h.live b hb
    have hfrom := h.rep.fromData hold
    obtain ⟨c, rfl, rfl⟩ := hold.focus
    have hpad : r.heap.elem .pad c.pos = pad := h.rep.single_hdr.use.2.1
    simp only [MallocOp.NoWrap, RunState.elemOf, hfrom, hpad] at hn
    simp only [MallocOp.run, RunState.elemOf, hfrom]
    rcases h.rep.resize (fun e he => h.settled_focus e (List.mem_append_right _ he)) hd hn with
      ⟨hle, hcode⟩ | ⟨-, hcode⟩ | ⟨hret, k, R, hg⟩
    · rw [hcode]
      exact ⟨_, .same _, h.resized hb hold hle⟩
    · rw [hcode]
      exact ⟨_, .same _, h⟩
    · rw [if_pos hret]
      exact ⟨_, .grown hb rfl hold hg, h.grown hb hold hg⟩
  | write b m =>
    obtain ⟨hb, hout⟩ := hv
    obtain ⟨-, a, n, pad, hold⟩ := h.live b hb
    exact ⟨ars, .written hb hold hout, h.written hold hout⟩

end RteDemo
