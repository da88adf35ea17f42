import RteDemo.Malloc.HeapsOK

/-!
# Live blocks are isolated

What the holder of a block relies on: the block lies where it was asked for, inside a busy element of
a memseg and apart from all other blocks and all headers (`Isolated`), and no operation on another
block changes a byte of it (`Undisturbed`). Both hold in every run in which nothing wraps and no
bounded block is resized beyond its request.
-/

namespace RteDemo

open Bytes Tiling

/-! ## What the holders rely on -/

/-- A header is at `x`: that of an element, the dummy header behind its padding, or an end marker. -/
def IsHeader (segs : List RteMemseg) (s : HeapState) (x : Nat) : Prop :=
  ∃ seg ∈ segs, x = seg.endMarker ∨ ∃ v ∈ s.walkSeg seg,
    x = v.addr ∨ v.state = ElemState.busy.val ∧ x = v.addr + s.elem .pad v.addr

structure BlockIsolated (segs : List RteMemseg) (r : RunState) (b : Block) : Prop where
  align : b.align ∣ b.ptr
  cacheLine : 64 ∣ b.ptr
  bound : NoCross b.bound b.ptr b.size
  /-- It lies behind the padding of a busy element, which `malloc_elem_from_data` recovers. -/
  element : ∃ seg ∈ segs, ∃ v ∈ r.heap.walkSeg seg, v.state = ElemState.busy.val ∧
    mallocElemFromData r.heap.mem b.ptr = v.addr ∧
    b.ptr = v.addr + r.heap.elem .pad v.addr + mallocElemHeaderLen ∧
    b.ptr + b.size ≤ v.addr + v.size ∧ v.addr + v.size ≤ seg.endMarker
  others : ∀ b' ∈ r.live, b' ≠ b → b.ptr + b.size ≤ b'.ptr ∨ b'.ptr + b'.size ≤ b.ptr
  headers : ∀ x, IsHeader segs r.heap x → x + mallocElemHeaderLen ≤ b.ptr ∨ b.ptr + b.size ≤ x
  usable : ∃ u, rteMallocValidate r.heap b.ptr = some u ∧ b.size ≤ u

structure Isolated (segs : List RteMemseg) (r : RunState) : Prop where
  nodup : r.live.Nodup
  block : ∀ b ∈ r.live, BlockIsolated segs r b

/-- The operation gives up the block or writes to it. -/
def MallocOp.Touches (b : Block) : MallocOp → Prop
  | free b' => b' = b
  | write b' _ => b' = b
  | _ => False

/-- The operation leaves the usable areas of all blocks alone, but for the one it frees or writes to.
A resize leaves alone what the block had before. -/
def Undisturbed (r : RunState) (op : MallocOp) : Prop :=
  ∀ b ∈ r.live, ¬op.Touches b → ∀ x, b.ptr ≤ x → x < b.ptr + r.heap.usable b →
    (op.run r).heap.mem x = r.heap.mem x

/-- No resize asks for more of a block with a bound than was requested. -/
def MallocOp.BoundKept : MallocOp → Prop
  | resize b size => b.bound = 0 ∨ size ≤ b.size
  | _ => True

/-- An operation in which nothing wraps and bounds are kept. -/
def BoundedStep (r r' : RunState) : Prop :=
  ∃ op : MallocOp, op.Valid r ∧ op.NoWrap r ∧ op.BoundKept ∧ r' = op.run r

/-! ## Elements are apart -/

section

variable {s : HeapState} {ars : List Arena}

/-- Two elements do not overlap. -/
theorem HeapRep.placed_apart (h : HeapRep s ars) {a a' : Nat} {e e' : Elem} (he : (a, e) ∈ placed ars)
    (he' : (a', e') ∈ placed ars) (hne : a' ≠ a) : a + e.size ≤ a' ∨ a' + e'.size ≤ a := by
  obtain ⟨ar, har, hm⟩ := mem_placed.mp he
  obtain ⟨c, rfl, rfl, -, -, -⟩ := Focus.exists_plug har hm
  rcases c.mem_placed_plug.mp he' with hin | hout
  · rw [place_cons, place_nil, List.mem_singleton] at hin
    exact absurd (Prod.mk.inj hin).1 hne
  · have hap := h.rest_apart hout
    simp only [total_cons, total_nil] at hap
    omega

/-- An element does not overlap an end marker. -/
theorem HeapRep.marker_apart (h : HeapRep s ars) {a : Nat} {e : Elem} (he : (a, e) ∈ placed ars)
    {ar : Arena} (har : ar ∈ ars) : ar.stop + 64 ≤ a ∨ a + e.size ≤ ar.stop := by
  obtain ⟨br, hbr, hm⟩ := mem_placed.mp he
  obtain ⟨c, rfl, rfl, -, -, -⟩ := Focus.exists_plug hbr hm
  rcases HeapRep.mem_plug.mp har with rfl | hother
  · rw [Focus.stop_arena]
    simp only [total_cons, total_nil]
    omega
  · have hap := h.others_apart hother
    have hbp := HeapRep.base_le_pos c
    simp only [Frame.Apart, Arena.frame, Focus.stop_arena, total_cons, total_nil] at hap
    simp only [Arena.stop, Focus.arena] at hap ⊢
    omega

/-- The padding that the header of a busy element shows. -/
theorem HeapRep.elem_pad (h : HeapRep s ars) {a n pad : Nat} (hm : (a, ⟨n, .busy pad⟩) ∈ placed ars) :
    s.elem .pad a = pad := by
  obtain ⟨ar, har, hin⟩ := mem_placed.mp hm
  obtain ⟨c, rfl, rfl, -, -, -⟩ := Focus.exists_plug har hin
  exact h.single_hdr.use.2.1

end

/-! ## The invariant isolates -/

section

variable {segs : List RteMemseg} {r : RunState} {ars : List Arena}

/-- An element that a walk visits. -/
theorem Inv.walk_elem (h : Inv segs r ars) {seg : RteMemseg} (hseg : seg ∈ segs) {v : ElemView}
    (hv : v ∈ r.heap.walkSeg seg) : ∃ e, (v.addr, e) ∈ placed ars ∧ viewOf (v.addr, e) = v := by
  obtain ⟨ar, ha⟩ := h.arenaOf_mem hseg
  rw [h.walkSeg ha] at hv
  obtain ⟨⟨x, e⟩, hm, rfl⟩ := List.mem_map.mp hv
  exact ⟨e, mem_placed.mpr ⟨ar, ha.mem, hm⟩, rfl⟩

theorem Use.eq_busy {u : Use} (h : u.stateVal = ElemState.busy.val) : ∃ pad, u = .busy pad := by
  cases u with
  | busy pad => exact ⟨pad, rfl⟩
  | free => exact absurd h (by decide)
  | detached => exact absurd h (by decide)

/-- A header begins an element, or lies behind its padding, or ends a memseg. -/
theorem Inv.header_cases (h : Inv segs r ars) {x : Nat} (hx : IsHeader segs r.heap x) :
    (∃ ar ∈ ars, x = ar.stop) ∨ (∃ e, (x, e) ∈ placed ars) ∨
      ∃ a n pad, (a, ⟨n, .busy pad⟩) ∈ placed ars ∧ x = a + pad := by
  obtain ⟨seg, hseg, rfl | ⟨v, hv, hat⟩⟩ := hx
  · obtain ⟨ar, ha⟩ := h.arenaOf_mem hseg
    exact .inl ⟨ar, ha.mem, ha.stop.symm⟩
  · obtain ⟨⟨n, u⟩, hm, hview⟩ := h.walk_elem hseg hv
    rcases hat with rfl | ⟨hstate, rfl⟩
    · exact .inr (.inl ⟨_, hm⟩)
    · have huse : u.stateVal = ElemState.busy.val := (congrArg ElemView.state hview).trans hstate
      obtain ⟨pad, rfl⟩ := Use.eq_busy huse
      exact .inr (.inr ⟨v.addr, n, pad, hm, by rw [h.rep.elem_pad hm]⟩)

theorem Inv.blockIsolated (h : Inv segs r ars) {b : Block} (hb : b ∈ r.live)
    (hgrown : b.grown = true → b.bound = 0) : BlockIsolated segs r b := by
  obtain ⟨hpl, a, n, pad, hold⟩ := h.live b hb
  have hptr := hold.ptr
  have hsize := hold.size
  have hlen : mallocElemHeaderLen = 64 := rfl
  refine ⟨hpl.align, hpl.cacheLine, ?_, ?_, fun b' hb' hne => ?_, fun x hx => ?_,
    _, h.rep.validate hold, by omega⟩
  · cases hg : b.grown with
    | false => exact hpl.bound hg
    | true => exact hgrown hg ▸ noCross_zero _ _
  · obtain ⟨ar, har, hm⟩ := mem_placed.mp hold.mem
    obtain ⟨seg, hseg, ha⟩ := h.segOf_mem har
    refine ⟨seg, hseg, viewOf (a, ⟨n, .busy pad⟩), ?_, rfl, h.rep.fromData hold, ?_, ?_, ?_⟩
    · rw [h.walkSeg ha]
      exact List.mem_map_of_mem hm
    · exact hptr.trans (by rw [viewOf, h.rep.elem_pad hold.mem, hlen])
    · change b.ptr + b.size ≤ a + n
      omega
    · rw [← ha.stop]
      exact (place_bounds Elem.size hm).2
  · obtain ⟨-, a', n', pad', hold'⟩ := h.live b' hb'
    have hptr' := hold'.ptr
    have hsize' := hold'.size
    have ha : a' ≠ a := by
      rintro rfl
      exact h.ptr_ne hb hb' hne (hold.ptr_eq h.rep hold')
    have hap := h.rep.placed_apart hold.mem hold'.mem ha
    simp only at hap
    omega
  · rw [hlen]
    rcases h.header_cases hx with ⟨ar, har, rfl⟩ | ⟨e, hm⟩ | ⟨a', n', pad', hm, rfl⟩
    · have hap := h.rep.marker_apart hold.mem har
      simp only at hap
      omega
    · by_cases hxa : x = a
      · omega
      · have hap := h.rep.placed_apart hold.mem hm hxa
        have hok := (h.rep.placed_ok hm).le
        simp only at hap
        omega
    · by_cases hxa : a' = a
      · subst hxa
        have heq := h.rep.placed_inj hold.mem hm
        simp only [Elem.mk.injEq, Use.busy.injEq] at heq
        omega
      · have hap := h.rep.placed_apart hold.mem hm hxa
        obtain ⟨-, -, -, hfit, -⟩ := h.rep.placed_ok hm
        simp only at hap hfit
        omega

end

/-! ## No operation disturbs another block -/

section

variable {segs : List RteMemseg} {r : RunState} {s' : HeapState} {c : Focus} {D D' : List Elem}
  {b : Block} {a n pad : Nat}

/-- An edit keeps the usable area of a block whose element is outside of its gap. -/
theorem Edit.usable_keep (he : Edit r.heap s' c D D') (hb : Holds (c.plug D) b a n pad)
    (hout : (a, ⟨n, .busy pad⟩) ∉ place Elem.size c.pos D) {x : Nat} (hx : b.ptr ≤ x)
    (hx' : x < b.ptr + r.heap.usable b) : s'.mem x = r.heap.mem x := by
  have hend := he.rep.ptr_add_usable hb
  have hptr := hb.ptr
  have hrest := (c.mem_placed_plug.mp hb.mem).resolve_left hout
  refine (he.rest_keep hrest).2 x (by omega) ?_
  simp only
  omega

/-- The busy element among those that a free joins is that of the block. -/
theorem mem_joined {L A B R : List Elem} {m pad₀ : Nat} (hf : Freed r.heap s' c m L A B R)
    (hm : (a, ⟨n, .busy pad⟩) ∈ place Elem.size (Focus.pos { c with left := L, right := R })
      (A ++ [⟨m, .busy pad₀⟩] ++ B)) : a = c.pos := by
  rw [place_append, place_append, List.mem_append, List.mem_append] at hm
  rcases hm with (hm | hm) | hm
  · exact absurd (hf.absorbedLeft.free _ (mem_of_mem_place Elem.size hm)) (by simp)
  · have hpos : Focus.pos { c with left := L, right := R } + total Elem.size A = c.pos := by
      simp only [Focus.pos, hf.left, total_append, Nat.add_assoc]
    rw [hpos, place_cons, place_nil, List.mem_singleton] at hm
    exact (Prod.mk.inj hm).1
  · exact absurd (hf.absorbedRight.free _ (mem_of_mem_place Elem.size hm)) (by simp)

/-- **One operation** leaves the other blocks alone. -/
theorem Inv.undisturbed {ars : List Arena} (h : Inv segs r ars) {op : MallocOp} (hv : op.Valid r)
    (hn : op.NoWrap r) : Undisturbed r op := by
  intro b hb htouch x hx hx'
  obtain ⟨ars', hout, -⟩ := h.step hv hn
  obtain ⟨-, a, n, pad, hold⟩ := h.live b hb
  generalize (op.run r).heap = s' at hout
  cases hout with
  | same op => rfl
  | allocated _ hars ha =>
    subst hars
    exact ha.edit.usable_keep hold (by simp) hx hx'
  | @freed b₀ m pad₀ _ c L A B R hb₀ hars hold₀ hf =>
    subst hars
    have hne : b ≠ b₀ := fun heq => htouch heq.symm
    have ha := h.other_outside hb₀ hold₀ hb hne hold
    have hplug := c.plug_absorbed (D := [⟨m, .busy pad₀⟩]) hf.left hf.right
    exact (hf.edit h.rep).usable_keep (hplug ▸ hold) (fun hm => ha (mem_joined hf hm)) hx hx'
  | @grown b₀ size m pad₀ k _ c R hb₀ hars hold₀ hg =>
    subst hars
    by_cases hne : b = b₀
    · -- the block grows behind its last byte
      subst hne
      have hend := h.rep.ptr_add_usable hold₀
      have hptr := hold₀.ptr
      have hlt := hg.lt
      exact hg.keep x (by omega) (by omega) (by omega)
    · have ha := h.other_outside hb₀ hold₀ hb hne hold
      have hplug := c.plug_absorbed (A := []) (B := [⟨k, .free⟩]) (D := [⟨m, .busy pad₀⟩])
        (List.append_nil _).symm hg.right
      refine (hg.edit h.rep).usable_keep (hplug ▸ hold) (fun hm => ?_) hx hx'
      simp only [place_cons, place_nil, List.mem_cons, Prod.mk.injEq, Elem.mk.injEq, reduceCtorEq,
        and_false, List.not_mem_nil, or_false] at hm
      exact ha hm.1
  | @written b₀ a₀ n₀ pad₀ m hb₀ hold₀ hkeep =>
    have hne : b ≠ b₀ := fun heq => htouch heq.symm
    have hptr_ne := h.ptr_ne hb₀ hb hne
    have ha : a ≠ a₀ := by
      rintro rfl
      exact hptr_ne (hold₀.ptr_eq h.rep hold)
    have hap := h.rep.placed_apart hold₀.mem hold.mem ha
    have hend := h.rep.ptr_add_usable hold
    have hend₀ := h.rep.ptr_add_usable hold₀
    have hptr := hold.ptr
    have hptr₀ := hold₀.ptr
    simp only at hap
    exact hkeep x (by omega)

end

/-! ## Every run -/

/-- Only blocks without a bound have grown. -/
def GrownUnbounded (r : RunState) : Prop := ∀ b ∈ r.live, b.grown = true → b.bound = 0

theorem GrownUnbounded.step {r : RunState} (h : GrownUnbounded r) {op : MallocOp}
    (hop : op.Valid r) (hk : op.BoundKept) : GrownUnbounded (op.run r) := by
  intro b hb hg
  cases op with
  | alloc heap size flags align bound =>
    rw [MallocOp.run_alloc, MallocOp.allocated] at hb
    simp only at hb
    split at hb
    · exact h b hb hg
    · rcases List.mem_cons.mp hb with rfl | hb
      · exact absurd hg (by simp)
      · exact h b hb hg
  | free b' => exact h b (List.mem_of_mem_erase hb) hg
  | resize b' size =>
    simp only [MallocOp.run] at hb
    split at hb
    · rcases List.mem_cons.mp hb with rfl | hb
      · simp only [Bool.or_eq_true, decide_eq_true_eq] at hg
        rcases hg with hg | hlt
        · exact h b' hop.1 hg
        · exact hk.resolve_right (Nat.not_le_of_lt hlt)
      · exact h b (List.mem_of_mem_erase hb) hg
    · exact h b hb hg
  | write b' m => exact h b hb hg

/-- **Live-block isolation** in every run in which nothing wraps and bounds are kept. -/
theorem live_blocks_isolated {segs : List RteMemseg} (hok : MemsegsOK segs) {m : Mem} {r : RunState}
    (h : Reach (MallocInit segs m) BoundedStep r) :
    Isolated segs r ∧ ∀ op : MallocOp, op.Valid r → op.NoWrap r → Undisturbed r op := by
  have hinv : (∃ ars, Inv segs r ars) ∧ GrownUnbounded r := by
    refine Reach.invariant (I := fun r => (∃ ars, Inv segs r ars) ∧ GrownUnbounded r) ?_ ?_ h
    · intro r hr
      refine ⟨⟨_, Inv.init hok hr⟩, fun b hb => ?_⟩
      rw [hr] at hb
      exact absurd hb List.not_mem_nil
    · rintro r r' ⟨⟨ars, hinv⟩, hgrown⟩ ⟨op, hv, hn, hk, rfl⟩
      obtain ⟨ars', -, hinv'⟩ := hinv.step hv hn
      exact ⟨⟨ars', hinv'⟩, hgrown.step hv hk⟩
  obtain ⟨⟨ars, hinv⟩, hgrown⟩ := hinv
  exact ⟨⟨hinv.nodup, fun b hb => hinv.blockIsolated hb (hgrown b hb)⟩,
    fun op hv hn => hinv.undisturbed hv hn⟩

/-- What an allocation returns that splits the element which the search takes. -/
theorem alloc_split {s : HeapState} {heap size k bound e newElem : Nat}
    (hsize : rteCacheLineRoundup 64 size = size) (halign : rteCacheLineRoundup 64 (2 ^ k) = 2 ^ k)
    (hfind : findSuitableElement s heap size 0 (2 ^ k) bound = e) (he : e ≠ 0)
    (hnew : elemStartPt e (s.elem .size e) size (2 ^ k) bound = newElem)
    (hold : ¬Word.sub 64 newElem e < 128) (hne : newElem ≠ 0) :
    (mallocHeapAlloc s heap size 0 (2 ^ k) bound).2 = rtePtrAdd newElem mallocElemHeaderLen := by
  obtain ⟨s₁, -, halloc⟩ := mallocElemAlloc_split hnew hold
  rw [mallocHeapAlloc_eq hsize halign hfind, if_pos he, halloc]
  exact if_neg hne

theorem oneSeg_noWrap {r : RunState} (h : HeapRep r.heap (oneSegFocus.plug [⟨2 ^ 30 - 64, .free⟩])) :
    (MallocOp.alloc 0 64 0 (2 ^ 6) 0).NoWrap r := by
  have hsize : r.heap.elem .size (2 ^ 30) = 2 ^ 30 - 64 := h.single_hdr.size
  have hround : rteCacheLineRoundup 64 64 = 64 := by decide
  have halign : rteCacheLineRoundup 64 (2 ^ 6) = 64 := by decide
  simp only [MallocOp.NoWrap, hround, halign]
  refine ⟨by decide, SearchExact.of_all fun e he => ?_⟩
  rw [(oneSeg_candidates h e).mp he, hsize]
  decide

section

variable {s : HeapState}

theorem alloc_top (h : HeapRep s (oneSegFocus.plug [⟨2 ^ 30 - 64, .free⟩])) :
    (mallocHeapAlloc s 0 64 0 (2 ^ 6) 0).2 = 2 ^ 31 - 128 := by
  have hsize : s.elem .size (2 ^ 30) = 2 ^ 30 - 64 := h.single_hdr.size
  have hcan : mallocElemCanHold s.mem (2 ^ 30) 64 (2 ^ 6) 0 = true := by
    rw [mallocElemCanHold, show mallocElem.get .size s.mem (2 ^ 30) = 2 ^ 30 - 64 from hsize]
    decide
  have hnew : elemStartPt (2 ^ 30) (s.elem .size (2 ^ 30)) 64 (2 ^ 6) 0 = 2 ^ 31 - 192 := by
    rw [hsize]
    decide
  rw [alloc_split (by decide) (by decide) (find_only (oneSeg_candidates h) hcan) (by decide) hnew
    (by decide) (by decide)]
  decide

end

/-- The state after one request for 64 bytes. -/
def oneSegBlock : RunState := (MallocOp.alloc 0 64 0 (2 ^ 6) 0).run oneSegStart

theorem reach_oneSegBlock : Reach (MallocInit oneSeg fun _ => 0) BoundedStep oneSegBlock := by
  have hstart : MallocInit oneSeg (fun _ => 0) oneSegStart := by
    rw [MallocInit, oneSegStart]
  have hvalid := MallocOp.valid_alloc oneSegStart 0 64 0 6 (by decide)
  have hexact := oneSeg_noWrap oneSegStart_inv.rep
  exact .next (.start hstart) ⟨.alloc 0 64 0 (2 ^ 6) 0, hvalid, hexact, trivial, by rw [oneSegBlock]⟩

theorem live_blocks_isolated_oneSeg :
    Isolated oneSeg oneSegBlock ∧ oneSegBlock.live = [⟨2 ^ 31 - 128, 64, 2 ^ 6, 0, false⟩] := by
  refine ⟨(live_blocks_isolated oneSeg_ok reach_oneSegBlock).1, ?_⟩
  rw [oneSegBlock, MallocOp.run_alloc, MallocOp.allocated, alloc_top oneSegStart_inv.rep,
    if_neg (by decide), oneSegStart]

/-! ## A block outside of all memsegs -/

/-- A memseg on socket 0 that ends below `2 ^ 30`, and one of a gigabyte on socket 1. -/
def twoSegs : List RteMemseg := [⟨2 ^ 28, 2 ^ 29, 2 ^ 21, 0⟩, ⟨2 ^ 30, 2 ^ 30, 2 ^ 21, 1⟩]

theorem twoSegs_ok : MemsegsOK twoSegs where
  count := by decide
  pos := by decide
  dvd := by decide
  long := by decide
  top := by decide
  socket := by decide
  disjoint := by decide

def twoSegsStart : RunState := ⟨rteEalMallocHeapInit (HeapState.boot twoSegs fun _ => 0), []⟩

/-- The free element of the first memseg. -/
def twoSegsFocus : Focus := ⟨[], 0, 0, 2 ^ 28, [], [], [⟨1, 1, 2 ^ 30, [⟨2 ^ 30 - 64, .free⟩]⟩]⟩

theorem twoSegsStart_inv : Inv twoSegs twoSegsStart (twoSegsFocus.plug [⟨2 ^ 29 - 64, .free⟩]) :=
  Inv.init twoSegs_ok (m := fun _ => 0) rfl

section

variable {s : HeapState}

theorem twoSegs_candidates (h : HeapRep s (twoSegsFocus.plug [⟨2 ^ 29 - 64, .free⟩])) (x : Nat) :
    x ∈ (s.mallocHeaps 0).candidates (2 ^ 30) ↔ x = 2 ^ 28 := by
  rw [h.mem_candidates]
  constructor
  · rintro ⟨ar, har, hheap, n, hn, -⟩
    rcases HeapRep.mem_plug.mp har with rfl | hother
    · exact congrArg Prod.fst (List.mem_singleton.mp hn)
    · rw [List.mem_singleton.mp (show ar ∈ [_] from hother)] at hheap
      exact absurd hheap (by decide)
  · rintro rfl
    exact ⟨_, HeapRep.arena_mem _ _, rfl, 2 ^ 29 - 64, List.mem_singleton.mpr rfl, by decide⟩

/-- The only element on socket 0 is taken for a block that is longer than its end address:
`elem_start_pt` subtracts below zero. -/
theorem alloc_outside (h : HeapRep s (twoSegsFocus.plug [⟨2 ^ 29 - 64, .free⟩])) :
    (mallocHeapAlloc s 0 (2 ^ 30) 0 (2 ^ 6) 0).2 = 2 ^ 64 - 2 ^ 28 - 64 := by
  have hsize : s.elem .size (2 ^ 28) = 2 ^ 29 - 64 := h.single_hdr.size
  have hcan : mallocElemCanHold s.mem (2 ^ 28) (2 ^ 30) (2 ^ 6) 0 = true := by
    rw [mallocElemCanHold, show mallocElem.get .size s.mem (2 ^ 28) = 2 ^ 29 - 64 from hsize]
    decide
  have hnew : elemStartPt (2 ^ 28) (s.elem .size (2 ^ 28)) (2 ^ 30) (2 ^ 6) 0 =
      2 ^ 64 - 2 ^ 28 - 128 := by
    rw [hsize]
    decide
  rw [alloc_split (by decide) (by decide) (find_only (twoSegs_candidates h) hcan) (by decide) hnew
    (by decide) (by decide)]
  decide

end

/-- The block is handed out although no memseg reaches as far. -/
theorem not_live_blocks_isolated : ∃ r, Reach (MallocInit twoSegs fun _ => 0) MallocStep r ∧
    ¬Isolated twoSegs r := by
  have hvalid := MallocOp.valid_alloc twoSegsStart 0 (2 ^ 30) 0 6 (by decide)
  have hstart : MallocInit twoSegs (fun _ => 0) twoSegsStart := by
    rw [MallocInit, twoSegsStart]
  refine ⟨_, .next (.start hstart) ⟨.alloc 0 (2 ^ 30) 0 (2 ^ 6) 0, hvalid, rfl⟩, fun h => ?_⟩
  rw [MallocOp.run_alloc, MallocOp.allocated, alloc_outside twoSegsStart_inv.rep, if_neg (by decide)] at h
  obtain ⟨seg, hseg, v, -, -, -, -, hle, hend⟩ := (h.block _ List.mem_cons_self).element
  have hstops : ∀ seg ∈ twoSegs, seg.endMarker ≤ 2 ^ 31 := by decide
  have hstop := hstops seg hseg
  simp only at hle
  omega

end RteDemo
