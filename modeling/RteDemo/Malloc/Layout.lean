import RteDemo.Malloc.Run

/-!
# The layout of the elements

What the size links of a memseg visit (`HeapState.layout`), read from memory alone. In every state
with the invariant the layout is that of the arenas, and these are determined by their busy elements:
between two of them there is one free element or none (`Inv.unique`).
-/

namespace RteDemo

open Bytes Tiling

/-! ## Reading the layout from memory -/

/-- An element as the size links show it. -/
structure ElemView where
  addr : Nat
  size : Nat
  state : Nat
  deriving DecidableEq

/-- The elements that the size links visit from `a` on, up to `stop`. -/
def walk (m : Mem) (stop : Nat) : Nat → Nat → List ElemView
  | 0, _ => []
  | fuel + 1, a =>
    if a < stop then
      ⟨a, mallocElem.get .size m a, mallocElem.get .state m a⟩ ::
        walk m stop fuel (a + mallocElem.get .size m a)
    else []

/-- It begins with the element at `a`. -/
theorem walk_head {m : Mem} {stop fuel a : Nat} (hfuel : 0 < fuel) (h : a < stop) :
    (walk m stop fuel a).head? = some ⟨a, mallocElem.get .size m a, mallocElem.get .state m a⟩ := by
  cases fuel with
  | zero => exact absurd hfuel (Nat.lt_irrefl 0)
  | succ fuel => rw [walk, if_pos h, List.head?_cons]

/-- The elements of every memseg. -/
def HeapState.layout (s : HeapState) : List (List ElemView) :=
  s.memseg.map fun seg => walk s.mem (seg.addr + seg.elemSize) seg.elemSize seg.addr

/-- The state that the header of an element shows. -/
def Use.stateVal : Use → Nat
  | .busy _ => ElemState.busy.val
  | _ => ElemState.free.val

def viewOf (p : Nat × Elem) : ElemView := ⟨p.1, p.2.size, p.2.use.stateVal⟩

theorem HdrRep.state {m : Mem} {heap ms prev a : Nat} {e : Elem} (h : HdrRep m heap ms prev a e) :
    mallocElem.get .state m a = e.use.stateVal := by
  have hu := h.use
  cases e with
  | mk size use =>
    cases use with
    | busy pad => exact hu.1
    | free => exact hu
    | detached => exact hu

theorem walk_chain {m : Mem} {heap ms : Nat} {L : List Elem} (hok : ∀ e ∈ L, e.OK) :
    ∀ {prev a fuel : Nat}, Chain m heap ms prev a L → L.length ≤ fuel →
      walk m (a + total Elem.size L) fuel a = (place Elem.size a L).map viewOf := by
  induction L with
  | nil =>
    intro prev a fuel _ _
    cases fuel with
    | zero => rfl
    | succ fuel => rw [walk, total_nil, if_neg (by omega)]; rfl
  | cons e L ih =>
    intro prev a fuel ⟨hh, hc⟩ hfuel
    have hle := (hok e List.mem_cons_self).le
    obtain ⟨fuel, rfl⟩ : ∃ f, fuel = f + 1 := ⟨fuel - 1, by rw [List.length_cons] at hfuel; omega⟩
    rw [walk, total_cons, if_pos (by omega), hh.size, hh.state, ← Nat.add_assoc,
      ih (fun e' he' => hok e' (List.mem_cons_of_mem _ he')) hc (Nat.le_of_succ_le_succ hfuel)]
    rfl

theorem length_le_total {L : List Elem} (hok : ∀ e ∈ L, e.OK) : L.length ≤ total Elem.size L := by
  induction L with
  | nil => exact Nat.zero_le _
  | cons e L ih =>
    have hle := (hok e List.mem_cons_self).le
    have htail := ih fun e' he' => hok e' (List.mem_cons_of_mem _ he')
    rw [total_cons, List.length_cons]
    omega

/-- **The layout in memory is that of the arenas.** -/
theorem Inv.layout {segs : List RteMemseg} {r : RunState} {ars : List Arena} (h : Inv segs r ars) :
    r.heap.layout = ars.map fun ar => (place Elem.size ar.base ar.elems).map viewOf := by
  have hlen : ars.length = segs.length := by
    simpa [segArenas] using congrArg List.length h.frames
  rw [HeapState.layout, h.memseg]
  refine List.ext_getElem (by simp [hlen]) fun i hi hi' => ?_
  rw [List.getElem_map, List.getElem_map]
  simp only [List.length_map] at hi hi'
  have har : ars[i] ∈ ars := List.getElem_mem hi'
  have hframe : ars[i].frame = (segArena i segs[i]).frame := by
    have hget := List.getElem_of_eq h.frames (show i < (ars.map Arena.frame).length by simpa using hi')
    simpa [segArenas] using hget
  have hbase : segs[i].addr = ars[i].base := (congrArg Frame.base hframe).symm
  have hstop : segs[i].addr + segs[i].elemSize = ars[i].base + total Elem.size ars[i].elems := by
    have hs := congrArg Frame.stop hframe
    simpa [Arena.frame, Arena.stop, segArena] using hs.symm
  have hok := h.rep.ok _ har
  have hfuel := length_le_total hok
  rw [hstop, hbase]
  exact walk_chain hok (h.rep.rep _ har).1 (by omega)

/-! ## Busy elements determine the layout -/

/-- Compact lists of elements that tile the same range are equal when they have the same busy
elements at the same addresses. -/
theorem elems_unique {L L' : List Elem} {a : Nat} (hok : ∀ e ∈ L, e.OK) (hok' : ∀ e ∈ L', e.OK)
    (hcomp : Compact L) (hcomp' : Compact L') (hset : ∀ e ∈ L, e.use ≠ .detached)
    (hset' : ∀ e ∈ L', e.use ≠ .detached) (htotal : total Elem.size L = total Elem.size L')
    (hbusy : ∀ x e, e.use ≠ .free → ((x, e) ∈ place Elem.size a L ↔ (x, e) ∈ place Elem.size a L')) :
    L = L' := by
  induction L generalizing L' a with
  | nil =>
    by_contra hne
    have hpos := total_pos hok' (Ne.symm hne)
    rw [← htotal, total_nil] at hpos
    omega
  | cons e L ih =>
    have he := (hok e List.mem_cons_self).le
    obtain ⟨e', L', rfl⟩ : ∃ e' L₁, L' = e' :: L₁ := by
      refine List.exists_cons_of_ne_nil fun h => ?_
      rw [h, total_nil, total_cons] at htotal
      omega
    have he' := (hok' e' List.mem_cons_self).le
    simp only [total_cons] at htotal
    -- at the first address there is the first element only
    have hfirst : ∀ {f g : Elem} {M : List Elem}, 64 ≤ f.size → (a, g) ∈ place Elem.size a (f :: M) →
        g = f := by
      intro f g M hf hm
      rw [place_cons, List.mem_cons] at hm
      rcases hm with hm | hm
      · exact (Prod.mk.inj hm).2
      · have hb := (place_bounds Elem.size hm).1
        omega
    -- where a free element ends before another one there is a busy element inside the other
    have hshort : ∀ {f g : Elem} {M N : List Elem}, f.use = .free → Compact (f :: M) →
        64 ≤ f.size → f.size + total Elem.size M = g.size + total Elem.size N → f.size < g.size →
        (∀ x u, u.use ≠ .free → (x, u) ∈ place Elem.size a (f :: M) →
          (x, u) ∈ place Elem.size a (g :: N)) → False := by
      intro f g M N hf hc hpos hsum hlt hin
      cases M with
      | nil =>
        rw [total_nil] at hsum
        omega
      | cons u M =>
        have hu : u.use ≠ .free := fun h => (compact_cons_cons.mp hc).1 ⟨hf, h⟩
        have hm := hin (a + f.size) u hu (by simp)
        rw [place_cons, List.mem_cons] at hm
        rcases hm with hm | hm
        · have h1 := (Prod.mk.inj hm).1
          omega
        · have hb := (place_bounds Elem.size hm).1
          omega
    have hhead : e = e' := by
      by_cases hf : e.use = .free
      · by_cases hf' : e'.use = .free
        · have hsize : e.size = e'.size := by
            rcases Nat.lt_trichotomy e.size e'.size with hlt | heq | hgt
            · exact (hshort hf hcomp he htotal hlt fun x u hu hm => (hbusy x u hu).1 hm).elim
            · exact heq
            · exact (hshort hf' hcomp' he' htotal.symm hgt fun x u hu hm => (hbusy x u hu).2 hm).elim
          cases e
          cases e'
          simp only at hf hf' hsize
          rw [hf, hf', hsize]
        · exact (hfirst he ((hbusy a e' hf').2 List.mem_cons_self)).symm
      · exact hfirst he' ((hbusy a e hf).1 List.mem_cons_self)
    subst hhead
    refine congrArg (e :: ·) (ih (a := a + e.size) (fun x hx => hok x (List.mem_cons_of_mem _ hx))
      (fun x hx => hok' x (List.mem_cons_of_mem _ hx)) hcomp.tail hcomp'.tail
      (fun x hx => hset x (List.mem_cons_of_mem _ hx))
      (fun x hx => hset' x (List.mem_cons_of_mem _ hx)) (by omega) fun x u hu => ?_)
    have hiff := hbusy x u hu
    rw [place_cons, place_cons, List.mem_cons, List.mem_cons] at hiff
    have hne : ∀ {M : List Elem}, (x, u) ∈ place Elem.size (a + e.size) M → (x, u) ≠ (a, e) := by
      rintro M hm heq
      have hb := (place_bounds Elem.size hm).1
      have h1 := (Prod.mk.inj heq).1
      omega
    exact ⟨fun hm => (hiff.1 (.inr hm)).resolve_left (hne hm),
      fun hm => (hiff.2 (.inr hm)).resolve_left (hne hm)⟩

/-- `(x, e)` is a busy element. -/
def BusyAt (ars : List Arena) (x : Nat) (e : Elem) : Prop := (x, e) ∈ placed ars ∧ e.use ≠ .free

/-- Arenas of the same memsegs with the same busy elements are the same. -/
theorem Inv.unique {segs : List RteMemseg} {r r' : RunState} {ars ars' : List Arena}
    (h : Inv segs r ars) (h' : Inv segs r' ars')
    (hbusy : ∀ x e, BusyAt ars x e ↔ BusyAt ars' x e) : ars = ars' := by
  have hframes := h.frames.trans h'.frames.symm
  have hlen : ars.length = ars'.length := by simpa using congrArg List.length hframes
  have hframe : ∀ i (hi : i < ars.length) (hi' : i < ars'.length), ars[i].frame = ars'[i].frame := by
    intro i hi hi'
    have hget := List.getElem_of_eq hframes (show i < (ars.map Arena.frame).length by simpa using hi)
    simpa using hget
  -- an element of arena `i` can only be in arena `i`
  have hlocal : ∀ {s : HeapState} {brs : List Arena} (hrep : HeapRep s brs) {i : Nat}
      (hi : i < brs.length) {x : Nat} {e : Elem}, 64 ≤ e.size → brs[i].base ≤ x →
      x + e.size ≤ brs[i].stop → (x, e) ∈ placed brs →
      (x, e) ∈ place Elem.size brs[i].base brs[i].elems := by
    intro s brs hrep i hi x e hsz hlo hhi hm
    obtain ⟨br, hbr, hin⟩ := mem_placed.mp hm
    obtain ⟨j, hj, rfl⟩ := List.getElem_of_mem hbr
    have hb := place_bounds Elem.size hin
    have hap := List.pairwise_iff_getElem.mp hrep.apart
    rcases Nat.lt_trichotomy i j with hlt | rfl | hgt
    · have h1 := hap i j (by simpa using hi) (by simpa using hj) hlt
      simp only [List.getElem_map, Frame.Apart, Arena.frame, Arena.stop] at h1 hhi
      omega
    · exact hin
    · have h1 := hap j i (by simpa using hj) (by simpa using hi) hgt
      simp only [List.getElem_map, Frame.Apart, Arena.frame, Arena.stop] at h1 hhi
      omega
  have hin : ∀ {s : HeapState} {brs : List Arena} (hrep : HeapRep s brs) {i : Nat}
      (hi : i < brs.length) {x : Nat} {e : Elem}, (x, e) ∈ place Elem.size brs[i].base brs[i].elems →
      64 ≤ e.size ∧ brs[i].base ≤ x ∧ x + e.size ≤ brs[i].stop ∧ (x, e) ∈ placed brs := by
    intro s brs hrep i hi x e hm
    have hb := place_bounds Elem.size hm
    exact ⟨(hrep.ok _ (List.getElem_mem hi) e (mem_of_mem_place Elem.size hm)).le, hb.1, hb.2,
      mem_placed.mpr ⟨_, List.getElem_mem hi, hm⟩⟩
  refine List.ext_getElem hlen fun i hi hi' => ?_
  have hf := hframe i hi hi'
  have hbase : ars[i].base = ars'[i].base := congrArg Frame.base hf
  have hstop : ars[i].stop = ars'[i].stop := congrArg Frame.stop hf
  have har := List.getElem_mem hi
  have har' := List.getElem_mem hi'
  have helems : ars[i].elems = ars'[i].elems := by
    refine elems_unique (a := ars[i].base) (h.rep.ok _ har) (h'.rep.ok _ har') (h.compact _ har)
      (h'.compact _ har') (h.settled _ har) (h'.settled _ har') ?_ fun x e he => ?_
    · unfold Arena.stop at hstop
      omega
    · constructor
      · intro hm
        obtain ⟨hsz, hlo, hhi, hp⟩ := hin h.rep hi hm
        have hp' := ((hbusy x e).1 ⟨hp, he⟩).1
        rw [hbase]
        exact hlocal h'.rep hi' hsz (by omega) (by omega) hp'
      · intro hm
        rw [hbase] at hm
        obtain ⟨hsz, hlo, hhi, hp⟩ := hin h'.rep hi' hm
        have hp' := ((hbusy x e).2 ⟨hp, he⟩).1
        exact hlocal h.rep hi hsz (by omega) (by omega) hp'
  have hheap : ars[i].heap = ars'[i].heap := congrArg Frame.heap hf
  have hms : ars[i].ms = ars'[i].ms := congrArg Frame.ms hf
  rcases hA : ars[i] with ⟨heap, ms, base, elems⟩
  rcases hB : ars'[i] with ⟨heap', ms', base', elems'⟩
  rw [hA, hB] at hbase helems hheap hms
  simp only at hbase helems hheap hms
  rw [hbase, helems, hheap, hms]

/-! ## Runs -/

/-- The heaps as they are initialised satisfy the invariant. -/
theorem Inv.init {segs : List RteMemseg} (hok : MemsegsOK segs) {m : Mem} {r : RunState}
    (h : MallocInit segs m r) : Inv segs r (segArenas segs) := by
  subst h
  have hadd := rteEalMallocHeapInit_added hok m
  have hrep := hadd.rep
  have htotal := hadd.totalSize
  rw [List.take_length] at hrep htotal
  have helems : ∀ ar ∈ segArenas segs, ∃ n, ar.elems = [⟨n, .free⟩] := fun ar har => by
    obtain ⟨i, hi, rfl⟩ := mem_segArenas.mp har
    exact ⟨_, rfl⟩
  have hcount : ∀ heap, tally heap busyCount (segArenas segs) = 0 := fun heap => by
    refine List.sum_eq_zero_iff_forall_eq_nat.mpr fun x hx => ?_
    obtain ⟨ar, har, rfl⟩ := List.mem_map.mp hx
    obtain ⟨n, hn⟩ := helems ar har
    rw [hn]
    split_ifs <;> rfl
  refine ⟨hrep, hadd.memseg, rfl, fun ar har e he => ?_, fun ar har => ?_, fun heap => ?_, htotal,
    fun b hb => absurd hb List.not_mem_nil, List.Pairwise.nil, fun a n pad hm => ?_⟩
  · obtain ⟨n, hn⟩ := helems ar har
    rw [hn, List.mem_singleton] at he
    simp [he]
  · obtain ⟨n, hn⟩ := helems ar har
    rw [hn]
    exact compact_single _
  · rw [hadd.allocCount, hcount, Nat.zero_mod]
  · obtain ⟨ar, har, hin⟩ := mem_placed.mp hm
    obtain ⟨k, hk⟩ := helems ar har
    rw [hk, place_cons, place_nil, List.mem_singleton] at hin
    simp at hin

/-- **Every run.** In a run whose operations do not wrap, every state has the invariant. -/
theorem Inv.of_reach {segs : List RteMemseg} (hok : MemsegsOK segs) {m : Mem} {r : RunState}
    (h : Reach (MallocInit segs m) ExactStep r) : ∃ ars, Inv segs r ars := by
  refine Reach.invariant (I := fun r => ∃ ars, Inv segs r ars) (fun r hr => ⟨_, Inv.init hok hr⟩) ?_ h
  rintro r r' ⟨ars, hinv⟩ ⟨op, hv, hn, rfl⟩
  obtain ⟨ars', -, hinv'⟩ := hinv.step hv hn
  exact ⟨ars', hinv'⟩

/-! ## What allocating and freeing do to the busy elements -/

section

variable {s s' : HeapState} {c : Focus} {n pad : Nat}

/-- Freeing takes away the one busy element. -/
theorem Freed.busyAt {L A B R : List Elem} (h : HeapRep s (c.plug [⟨n, .busy pad⟩]))
    (hf : Freed s s' c n L A B R) (x : Nat) (e : Elem) :
    BusyAt (Focus.plug { c with left := L, right := R }
        [⟨total Elem.size A + (n + total Elem.size B), .free⟩]) x e ↔
      BusyAt (c.plug [⟨n, .busy pad⟩]) x e ∧ x ≠ c.pos := by
  have hedit := hf.edit h
  have hplug := c.plug_absorbed (D := [⟨n, .busy pad⟩]) hf.left hf.right
  have hpos : Focus.pos { c with left := L, right := R } + total Elem.size A = c.pos := by
    simp only [Focus.pos, hf.left, total_append, Nat.add_assoc]
  have hn : 64 ≤ n := (h.gap_ok _ List.mem_cons_self).le
  unfold BusyAt
  rw [hedit.rest_iff, hplug, Focus.mem_placed_plug]
  constructor
  · rintro ⟨hin | hrest, hu⟩
    · rw [place_cons, place_nil, List.mem_singleton] at hin
      rw [(Prod.mk.inj hin).2] at hu
      exact absurd rfl hu
    · refine ⟨⟨.inr hrest, hu⟩, fun hx => ?_⟩
      have hap := hedit.rep.rest_apart hrest
      have hsz := (hedit.rep.placed_ok ((Focus.mem_placed_plug _).mpr (.inr hrest))).le
      simp only [total_append, total_cons, total_nil] at hap
      omega
  · rintro ⟨⟨hin | hrest, hu⟩, hx⟩
    · rw [place_append, place_append, List.mem_append, List.mem_append] at hin
      rcases hin with (hin | hin) | hin
      · exact absurd (hf.absorbedLeft.free _ (mem_of_mem_place Elem.size hin)) hu
      · rw [hpos, place_cons, place_nil, List.mem_singleton] at hin
        exact absurd (Prod.mk.inj hin).1 hx
      · exact absurd (hf.absorbedRight.free _ (mem_of_mem_place Elem.size hin)) hu
    · exact ⟨.inr hrest, hu⟩

/-- Allocating adds one busy element, from which the data pointer is found again. -/
theorem Allocated.busyAt {heap size flags align bound ptr front : Nat}
    (ha : Allocated s s' heap size flags align bound ptr c n front) (x : Nat) (e : Elem) :
    BusyAt (c.plug (allocElems n front size)) x e →
      BusyAt (c.plug [⟨n, .free⟩]) x e ∨ ∃ m pad, e = ⟨m, .busy pad⟩ ∧ x + pad + 64 = ptr := by
  rintro ⟨hm, hu⟩
  have hptr := ha.ptrEq
  rcases ha.edit.rest_iff.mp hm with hin | hrest
  · obtain ⟨m, u⟩ := e
    have hset := allocElems_settled n front size _ (mem_of_mem_place Elem.size hin)
    cases u with
    | busy pad =>
      have hat := busy_allocElems hin
      exact .inr ⟨m, pad, rfl, by omega⟩
    | free => exact absurd rfl hu
    | detached => exact absurd rfl hset
  · exact .inl ⟨c.mem_placed_plug.mpr (.inr hrest), hu⟩

/-- The busy elements from before stay. -/
theorem Allocated.busyAt_of {heap size flags align bound ptr front : Nat}
    (ha : Allocated s s' heap size flags align bound ptr c n front) {x : Nat} {e : Elem}
    (h : BusyAt (c.plug [⟨n, .free⟩]) x e) :
    BusyAt (c.plug (allocElems n front size)) x e ∧ (x + e.size ≤ c.pos ∨ c.pos + n ≤ x) := by
  obtain ⟨hm, hu⟩ := h
  have hrest : (x, e) ∈ c.restPlaced (total Elem.size [⟨n, .free⟩]) := by
    refine (c.mem_placed_plug.mp hm).resolve_left fun hin => ?_
    rw [place_cons, place_nil, List.mem_singleton] at hin
    exact hu (by rw [(Prod.mk.inj hin).2])
  have hap := ha.edit.rep.rest_apart hrest
  simp only [total_cons, total_nil] at hap
  exact ⟨⟨ha.edit.rest_iff.mpr (.inr hrest), hu⟩, by omega⟩

end

end RteDemo
