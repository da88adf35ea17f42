import RteDemo.Malloc.Wrap

/-!
# The representation invariant, read from memory

`HeapsOK` says what the headers and the free lists of the heaps look like, with no mention of arenas:
the size links tile every memseg up to its end marker, `prev` goes back along them, free neighbours
have been joined, the free lists hold the free elements, and the counters count. It holds in every
state of a run in which nothing wraps.
-/

namespace RteDemo

open Bytes Tiling

/-- The address of the end marker. -/
def RteMemseg.endMarker (seg : RteMemseg) : Nat := seg.addr + seg.elemSize

/-- The elements that the size links of a memseg visit. -/
def HeapState.walkSeg (s : HeapState) (seg : RteMemseg) : List ElemView :=
  walk s.mem seg.endMarker seg.elemSize seg.addr

/-- The `prev` fields of the headers at the addresses `l`, the first of which has `prev`. -/
def LinkedBack (m : Mem) : Nat → List Nat → Prop
  | _, [] => True
  | prev, a :: l => mallocElem.get .prev m a = prev ∧ LinkedBack m a l

/-- The heaps of the memsegs are well formed. -/
structure HeapsOK (segs : List RteMemseg) (s : HeapState) : Prop where
  /-- The elements tile the memseg up to its end marker. -/
  tiles : ∀ seg ∈ segs, ((s.walkSeg seg).map ElemView.size).sum = seg.elemSize
  marker : ∀ seg ∈ segs, s.elem .size seg.endMarker = 0 ∧
    s.elem .state seg.endMarker = ElemState.busy.val
  prev : ∀ seg ∈ segs,
    LinkedBack s.mem 0 ((s.walkSeg seg).map ElemView.addr ++ [seg.endMarker])
  joined : ∀ seg ∈ segs, (s.walkSeg seg).IsChain fun v w =>
    ¬(v.state = ElemState.free.val ∧ w.state = ElemState.free.val)
  /-- The free lists hold the free elements and nothing else, in the bucket of their size. -/
  listed : ∀ heap idx x, x ∈ (s.mallocHeaps heap).freeHead idx ↔
    ∃ seg ∈ segs, seg.socketId = heap ∧ ∃ v ∈ s.walkSeg seg, v.addr = x ∧
      v.state = ElemState.free.val ∧ mallocElemFreeListIndex (v.size - mallocElemHeaderLen) = idx
  once : ∀ heap idx, ((s.mallocHeaps heap).freeHead idx).Nodup
  allocCount : ∀ heap, (s.mallocHeaps heap).allocCount =
    (segs.map fun seg => if seg.socketId = heap then
      (s.walkSeg seg).countP (fun v => v.state = ElemState.busy.val) else 0).sum % 2 ^ 32
  totalSize : ∀ heap, (s.mallocHeaps heap).totalSize =
    (segs.map fun seg => if seg.socketId = heap then seg.elemSize else 0).sum % 2 ^ 64

/-! ## From the arenas to memory -/

theorem linkedBack_chain {m : Mem} {heap ms : Nat} {L : List Elem} :
    ∀ {prev a : Nat}, Tail m heap ms prev a L →
      LinkedBack m prev ((place Elem.size a L).map (·.1) ++ [a + total Elem.size L]) := by
  induction L with
  | nil =>
    intro prev a h
    exact ⟨h.2.prev, trivial⟩
  | cons e L ih =>
    intro prev a ⟨⟨hh, hc⟩, hend⟩
    rw [lastStart_cons, total_cons, ← Nat.add_assoc] at hend
    rw [total_cons, place_cons, List.map_cons, ← Nat.add_assoc]
    exact ⟨hh.prev, ih ⟨hc, hend⟩⟩

theorem Use.stateVal_free {u : Use} (h : u ≠ .detached) : u.stateVal = ElemState.free.val ↔ u = .free := by
  cases u with
  | busy pad => exact iff_of_false (show ElemState.busy.val ≠ ElemState.free.val by decide) (by simp)
  | free => exact iff_of_true rfl rfl
  | detached => exact absurd rfl h

theorem isChain_views {L : List Elem} (hset : ∀ e ∈ L, e.use ≠ .detached) (hc : Compact L) (a : Nat) :
    ((place Elem.size a L).map viewOf).IsChain fun v w =>
      ¬(v.state = ElemState.free.val ∧ w.state = ElemState.free.val) := by
  induction L generalizing a with
  | nil => exact List.IsChain.nil
  | cons e L ih =>
    have htail := ih (fun f hf => hset f (List.mem_cons_of_mem _ hf)) hc.tail (a + e.size)
    cases L with
    | nil => exact List.isChain_singleton _
    | cons f L =>
      have hpair := (compact_cons_cons.mp hc).1
      have he := Use.stateVal_free (hset e List.mem_cons_self)
      have hf := Use.stateVal_free (hset f (List.mem_cons_of_mem _ List.mem_cons_self))
      simp only [place_cons, List.map_cons, List.isChain_cons_cons] at htail ⊢
      exact ⟨fun h => hpair ⟨he.mp h.1, hf.mp h.2⟩, htail⟩

theorem countP_views (L : List Elem) (a : Nat) :
    ((place Elem.size a L).map viewOf).countP (fun v => v.state = ElemState.busy.val) =
      (L.map busyCount).sum := by
  induction L generalizing a with
  | nil => rfl
  | cons e L ih =>
    have hone : (if (viewOf (a, e)).state = ElemState.busy.val then 1 else 0) = busyCount e := by
      cases e with
      | mk n u => cases u <;> rfl
    rw [place_cons, List.map_cons, List.countP_cons, ih, List.map_cons, List.sum_cons, ← hone,
      Nat.add_comm]
    simp only [decide_eq_true_eq]

theorem sum_views (L : List Elem) (a : Nat) :
    (((place Elem.size a L).map viewOf).map ElemView.size).sum = total Elem.size L := by
  induction L generalizing a with
  | nil => rfl
  | cons e L ih =>
    rw [place_cons, List.map_cons, List.map_cons, List.sum_cons, ih, total_cons]
    rfl

section

variable {s : HeapState} {ars : List Arena}

theorem freeAddrs_nodup {L : List Elem} (hok : ∀ e ∈ L, e.OK) (idx a : Nat) :
    (freeAddrs idx a L).Nodup := by
  have hnd := place_nodup Elem.size (fun e he => show 0 < e.size by have := (hok e he).le; omega) a
  exact hnd.sublist (List.filter_sublist.map _)

/-- No element is listed twice. -/
theorem HeapRep.freeAt_nodup (h : HeapRep s ars) (heap idx : Nat) : (freeAt heap idx ars).Nodup := by
  have hok := h.ok
  have hap := h.apart
  clear h
  induction ars with
  | nil => exact List.nodup_nil
  | cons ar ars ih =>
    rw [List.map_cons, List.pairwise_cons] at hap
    have htail := ih (fun br hbr => hok br (List.mem_cons_of_mem _ hbr)) hap.2
    have hcons : freeAt heap idx (ar :: ars) =
        (if ar.heap = heap then freeAddrs idx ar.base ar.elems else []) ++ freeAt heap idx ars := rfl
    rw [hcons]
    split_ifs with hheap
    · refine List.nodup_append.mpr ⟨freeAddrs_nodup (hok ar List.mem_cons_self) idx ar.base, htail, ?_⟩
      rintro x hx y hy rfl
      obtain ⟨n, hn, -⟩ := mem_freeAddrs.mp hx
      obtain ⟨br, hbr, -, n', hn', -⟩ := mem_freeAt.mp hy
      have hb := place_bounds Elem.size hn
      have hb' := place_bounds Elem.size hn'
      have hle := (hok ar List.mem_cons_self _ (mem_of_mem_place Elem.size hn)).le
      have hle' := (hok br (List.mem_cons_of_mem _ hbr) _ (mem_of_mem_place Elem.size hn')).le
      have hout := hap.1 _ (List.mem_map_of_mem hbr)
      simp only [Frame.Apart, Arena.frame, Arena.stop] at hout
      simp only at hb hb' hle hle'
      omega
    · exact htail

end

section

variable {segs : List RteMemseg} {r : RunState} {ars : List Arena}

/-- A memseg and its arena. -/
structure ArenaOf (ars : List Arena) (seg : RteMemseg) (ar : Arena) : Prop where
  mem : ar ∈ ars
  heap : ar.heap = seg.socketId
  base : ar.base = seg.addr
  stop : ar.stop = seg.endMarker

/-- The memsegs and the arenas correspond one to one. -/
theorem Inv.arenaOf (h : Inv segs r ars) : ars.length = segs.length ∧
    ∀ i (hi : i < segs.length) (hi' : i < ars.length), ArenaOf ars segs[i] ars[i] := by
  refine ⟨by simpa [segArenas] using congrArg List.length h.frames, fun i hi hi' => ?_⟩
  have hframe : ars[i].frame = (segArena i segs[i]).frame := by
    have hget := List.getElem_of_eq h.frames (show i < (ars.map Arena.frame).length by simpa using hi')
    simpa [segArenas] using hget
  have hstop := congrArg Frame.stop hframe
  refine ⟨List.getElem_mem hi', congrArg Frame.heap hframe, congrArg Frame.base hframe, ?_⟩
  simpa [Arena.frame, Arena.stop, segArena, RteMemseg.endMarker] using hstop

theorem Inv.arenaOf_mem (h : Inv segs r ars) {seg : RteMemseg} (hseg : seg ∈ segs) :
    ∃ ar, ArenaOf ars seg ar := by
  obtain ⟨hlen, hof⟩ := h.arenaOf
  obtain ⟨i, hi, rfl⟩ := List.getElem_of_mem hseg
  exact ⟨_, hof i hi (hlen ▸ hi)⟩

theorem Inv.segOf_mem (h : Inv segs r ars) {ar : Arena} (har : ar ∈ ars) :
    ∃ seg ∈ segs, ArenaOf ars seg ar := by
  obtain ⟨hlen, hof⟩ := h.arenaOf
  obtain ⟨i, hi, rfl⟩ := List.getElem_of_mem har
  exact ⟨_, List.getElem_mem (hlen ▸ hi), hof i (hlen ▸ hi) hi⟩

/-- What is the same for a memseg and its arena is the same for the lists of them. -/
theorem Inv.map_segs {β : Type} (h : Inv segs r ars) {f : RteMemseg → β} {g : Arena → β}
    (hfg : ∀ seg ar, ArenaOf ars seg ar → f seg = g ar) : segs.map f = ars.map g := by
  obtain ⟨hlen, hof⟩ := h.arenaOf
  refine List.ext_getElem (by simp [hlen]) fun i hi hi' => ?_
  rw [List.getElem_map, List.getElem_map]
  exact hfg _ _ (hof i (by simpa using hi) (by simpa using hi'))

theorem Inv.walkSeg (h : Inv segs r ars) {seg : RteMemseg} {ar : Arena} (ha : ArenaOf ars seg ar) :
    r.heap.walkSeg seg = (place Elem.size ar.base ar.elems).map viewOf := by
  have hok := h.rep.ok ar ha.mem
  have hfuel := length_le_total hok
  have hstop := ha.stop
  have hbase := ha.base
  unfold Arena.stop RteMemseg.endMarker at hstop
  rw [HeapState.walkSeg, RteMemseg.endMarker, ← hstop, ← hbase]
  exact walk_chain hok (h.rep.rep ar ha.mem).1 (by omega)

theorem ArenaOf.total {seg : RteMemseg} {ar : Arena} (ha : ArenaOf ars seg ar) :
    total Elem.size ar.elems = seg.elemSize := by
  have hstop := ha.stop
  have hbase := ha.base
  unfold Arena.stop RteMemseg.endMarker at hstop
  omega

/-- The free elements that the walks visit are those of the arenas. -/
theorem Inv.mem_listed (h : Inv segs r ars) (heap idx x : Nat) :
    x ∈ freeAt heap idx ars ↔ ∃ seg ∈ segs, seg.socketId = heap ∧ ∃ v ∈ r.heap.walkSeg seg,
      v.addr = x ∧ v.state = ElemState.free.val ∧
        mallocElemFreeListIndex (v.size - mallocElemHeaderLen) = idx := by
  rw [mem_freeAt]
  constructor
  · rintro ⟨ar, har, hheap, n, hn, hidx⟩
    obtain ⟨seg, hseg, ha⟩ := h.segOf_mem har
    refine ⟨seg, hseg, ha.heap ▸ hheap, viewOf (x, ⟨n, .free⟩), ?_, rfl, rfl, hidx⟩
    rw [h.walkSeg ha]
    exact List.mem_map_of_mem hn
  · rintro ⟨seg, hseg, hheap, v, hv, rfl, hstate, hidx⟩
    obtain ⟨ar, ha⟩ := h.arenaOf_mem hseg
    rw [h.walkSeg ha] at hv
    obtain ⟨⟨x, n, u⟩, hm, rfl⟩ := List.mem_map.mp hv
    have hset := h.settled ar ha.mem _ (mem_of_mem_place Elem.size hm)
    obtain rfl := (Use.stateVal_free hset).mp hstate
    exact ⟨ar, ha.mem, ha.heap.trans hheap, n, hm, hidx⟩

/-- **The invariant gives the representation invariant.** -/
theorem Inv.heapsOK (h : Inv segs r ars) : HeapsOK segs r.heap where
  tiles seg hseg := by
    obtain ⟨ar, ha⟩ := h.arenaOf_mem hseg
    rw [h.walkSeg ha, sum_views, ha.total]
  marker seg hseg := by
    obtain ⟨ar, ha⟩ := h.arenaOf_mem hseg
    have hend := (h.rep.rep ar ha.mem).2
    rw [← ha.stop]
    exact ⟨hend.size, hend.state⟩
  prev seg hseg := by
    obtain ⟨ar, ha⟩ := h.arenaOf_mem hseg
    have hlinks := linkedBack_chain (h.rep.rep ar ha.mem)
    rw [h.walkSeg ha, List.map_map, ← ha.stop]
    exact hlinks
  joined seg hseg := by
    obtain ⟨ar, ha⟩ := h.arenaOf_mem hseg
    rw [h.walkSeg ha]
    exact isChain_views (h.settled ar ha.mem) (h.compact ar ha.mem) ar.base
  listed heap idx x := by
    rw [(h.rep.listed heap idx).mem_iff]
    exact h.mem_listed heap idx x
  once heap idx := (h.rep.listed heap idx).nodup_iff.mpr (h.rep.freeAt_nodup heap idx)
  allocCount heap := by
    rw [h.allocCount, tally]
    refine congrArg (fun l => List.sum l % 2 ^ 32) (h.map_segs fun seg ar ha => ?_).symm
    rw [h.walkSeg ha, countP_views, ha.heap]
  totalSize heap := by
    rw [h.totalSize, tally]
    refine congrArg (fun l => List.sum l % 2 ^ 64) (h.map_segs fun seg ar ha => ?_).symm
    rw [← ha.total, ha.heap]
    rfl

end

/-! ## Every run -/

/-- **The representation invariant** holds in every state of a run in which nothing wraps. -/
theorem heapsOK_of_exact {segs : List RteMemseg} (hok : MemsegsOK segs) {m : Mem} {r : RunState}
    (h : Reach (MallocInit segs m) ExactStep r) : HeapsOK segs r.heap := by
  obtain ⟨ars, hinv⟩ := Inv.of_reach hok h
  exact hinv.heapsOK

/-- Two blocks are allocated, the first is freed, and the second grows into its place. -/
theorem heapsOK_oneSeg : ∃ r, r.live = [smallBlock (2 ^ 31 - 256), smallBlock (2 ^ 31 - 128)] ∧
    HeapsOK oneSeg r.heap ∧
    ((MallocOp.resize (smallBlock (2 ^ 31 - 256)) 128).run
      ((MallocOp.free (smallBlock (2 ^ 31 - 128))).run r)).live =
        [{ smallBlock (2 ^ 31 - 256) with size := 128, grown := true }] ∧
    HeapsOK oneSeg ((MallocOp.resize (smallBlock (2 ^ 31 - 256)) 128).run
      ((MallocOp.free (smallBlock (2 ^ 31 - 128))).run r)).heap := by
  obtain ⟨r, hreach, hlive, -, hinv⟩ := exists_twoBlocks
  have hreach := hreach.mono (fun _ => id) fun _ _ => SmallStep.exact
  have hfree : smallBlock (2 ^ 31 - 128) ∈ r.live := by
    rw [hlive]
    exact List.mem_cons_of_mem _ List.mem_cons_self
  have hinv' := hinv.free_last hfree (by decide) rfl
  have hreach' := hreach.next ⟨.free (smallBlock (2 ^ 31 - 128)), hfree, trivial, rfl⟩
  have hlive' : ((MallocOp.free (smallBlock (2 ^ 31 - 128))).run r).live = [smallBlock (2 ^ 31 - 256)] := by
    have herase : [smallBlock (2 ^ 31 - 256), smallBlock (2 ^ 31 - 128)].erase (smallBlock (2 ^ 31 - 128)) =
        [smallBlock (2 ^ 31 - 256)] := by decide
    rw [MallocOp.run, hlive, herase]
  refine ⟨r, hlive, heapsOK_of_exact oneSeg_ok hreach, ?_⟩
  generalize (MallocOp.free (smallBlock (2 ^ 31 - 128))).run r = r' at *
  have hmem : smallBlock (2 ^ 31 - 256) ∈ r'.live := by
    rw [hlive']
    exact List.mem_cons_self
  obtain ⟨hwrap, hgrown⟩ := hinv'.grow_last (b := smallBlock (2 ^ 31 - 256)) (by decide) rfl (by decide)
  refine ⟨?_, heapsOK_of_exact oneSeg_ok
    (hreach'.next ⟨.resize (smallBlock (2 ^ 31 - 256)) 128, ⟨hmem, by decide⟩, hwrap, rfl⟩)⟩
  rw [hgrown, hlive']
  decide

/-- After the request that wraps, the size of the only element reaches far beyond the memseg. -/
theorem not_heapsOK :
    Reach (MallocInit oneSeg fun _ => 0) MallocStep wrapped ∧ ¬HeapsOK oneSeg wrapped.heap := by
  obtain ⟨-, -, hsize⟩ := wrapped_eq
  refine ⟨reach_wrapped, fun h => ?_⟩
  generalize wrapped.heap = s at hsize h
  have htiles := h.tiles ⟨2 ^ 30, 2 ^ 30, 2 ^ 21, 0⟩ List.mem_cons_self
  have hhead := walk_head (m := s.mem) (show 0 < RteMemseg.elemSize ⟨2 ^ 30, 2 ^ 30, 2 ^ 21, 0⟩ by decide)
    (show 2 ^ 30 < RteMemseg.endMarker ⟨2 ^ 30, 2 ^ 30, 2 ^ 21, 0⟩ by decide)
  obtain ⟨l, hl⟩ := List.head?_eq_some_iff.mp hhead
  rw [HeapState.walkSeg, hl, List.map_cons, List.sum_cons] at htiles
  have hval : RteMemseg.elemSize ⟨2 ^ 30, 2 ^ 30, 2 ^ 21, 0⟩ = 2 ^ 30 - 64 := by decide
  rw [hval] at htiles
  have hget : mallocElem.get .size s.mem (2 ^ 30) = 2 ^ 64 - 64 - 2 ^ 30 := hsize
  simp only [hget] at htiles
  omega

end RteDemo
