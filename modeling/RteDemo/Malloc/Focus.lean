import RteDemo.Malloc.Arena

/-!
# Arenas with a gap

Operations work on a few neighbouring elements of one arena. A `Focus` is a list of arenas with a
gap; plugging elements of the same total size into the gap leaves everything around it in place,
and changes the free elements only by those in the gap (`Focus.freeAt_plug`).
-/

namespace RteDemo

open Bytes Tiling

/-- The element area of a memseg. -/
structure Arena where
  heap : Nat
  ms : Nat
  base : Nat
  elems : List Elem

/-- The address of the end marker. -/
def Arena.stop (ar : Arena) : Nat := ar.base + total Elem.size ar.elems

/-- What an operation never changes about an arena. -/
structure Frame where
  heap : Nat
  ms : Nat
  base : Nat
  stop : Nat
  deriving DecidableEq

def Arena.frame (ar : Arena) : Frame := ⟨ar.heap, ar.ms, ar.base, ar.stop⟩

/-- Frame and end marker are cache-line aligned and inside the address space. -/
structure Frame.WF (f : Frame) : Prop where
  pos : 0 < f.base
  dvd : 64 ∣ f.base
  top : f.stop + 64 ≤ 2 ^ 64

/-- The two areas, end markers included, do not overlap. -/
def Frame.Apart (f g : Frame) : Prop := f.stop + 64 ≤ g.base ∨ g.stop + 64 ≤ f.base

theorem Frame.Apart.symm {f g : Frame} (h : f.Apart g) : g.Apart f := Or.symm h

/-! ## Free elements -/

/-- The addresses of the free elements of bucket `idx` among `L`, placed from `a`. -/
def freeAddrs (idx a : Nat) (L : List Elem) : List Nat :=
  ((place Elem.size a L).filter fun p =>
    p.2.use = .free ∧ mallocElemFreeListIndex (p.2.size - 64) = idx).map (·.1)

/-- The addresses of the free elements of a heap in bucket `idx`. -/
def freeAt (heap idx : Nat) (ars : List Arena) : List Nat :=
  ars.flatMap fun ar => if ar.heap = heap then freeAddrs idx ar.base ar.elems else []

theorem freeAddrs_append (idx a : Nat) (L R : List Elem) :
    freeAddrs idx a (L ++ R) = freeAddrs idx a L ++ freeAddrs idx (a + total Elem.size L) R := by
  simp [freeAddrs, place_append]

theorem freeAddrs_not_free {idx a : Nat} {L : List Elem} (h : ∀ e ∈ L, e.use ≠ .free) :
    freeAddrs idx a L = [] := by
  simp only [freeAddrs, List.map_eq_nil_iff, List.filter_eq_nil_iff]
  rintro ⟨x, e⟩ hx
  simp [h e (mem_of_mem_place Elem.size hx)]

theorem freeAddrs_single_free (idx a n : Nat) :
    freeAddrs idx a [⟨n, .free⟩] = if mallocElemFreeListIndex (n - 64) = idx then [a] else [] := by
  by_cases h : mallocElemFreeListIndex (n - 64) = idx <;> simp [freeAddrs, h]

theorem mem_freeAddrs {idx a x : Nat} {L : List Elem} :
    x ∈ freeAddrs idx a L ↔
      ∃ n, (x, ⟨n, .free⟩) ∈ place Elem.size a L ∧ mallocElemFreeListIndex (n - 64) = idx := by
  simp only [freeAddrs, List.mem_map, List.mem_filter, decide_eq_true_eq, Prod.exists,
    exists_and_right, exists_eq_right]
  constructor
  · rintro ⟨⟨n, u⟩, hm, hu, hi⟩
    simp only at hu hi
    subst hu
    exact ⟨n, hm, hi⟩
  · rintro ⟨n, hm, hi⟩
    exact ⟨⟨n, .free⟩, hm, rfl, hi⟩

theorem mem_freeAt {heap idx x : Nat} {ars : List Arena} :
    x ∈ freeAt heap idx ars ↔ ∃ ar ∈ ars, ar.heap = heap ∧
      ∃ n, (x, ⟨n, .free⟩) ∈ place Elem.size ar.base ar.elems ∧
        mallocElemFreeListIndex (n - 64) = idx := by
  simp only [freeAt, List.mem_flatMap]
  refine exists_congr fun ar => and_congr_right fun _ => ?_
  split_ifs with h
  · rw [mem_freeAddrs]; simp [h]
  · simp [h]

/-! ## Focus -/

/-- A list of arenas with a gap inside one of them. -/
structure Focus where
  before : List Arena
  heap : Nat
  ms : Nat
  base : Nat
  left : List Elem
  right : List Elem
  after : List Arena

namespace Focus

variable (c : Focus)

/-- The arena with the gap filled. -/
def arena (D : List Elem) : Arena := ⟨c.heap, c.ms, c.base, c.left ++ D ++ c.right⟩

def plug (D : List Elem) : List Arena := c.before ++ c.arena D :: c.after

/-- The address of the gap. -/
def pos : Nat := c.base + total Elem.size c.left

/-- The element before the gap, or `NULL`. -/
def prev : Nat := lastStart Elem.size 0 c.base c.left

theorem stop_arena (D : List Elem) :
    (c.arena D).stop = c.pos + total Elem.size D + total Elem.size c.right := by
  simp only [Arena.stop, arena, pos, total_append]
  omega

theorem frames_plug {D D' : List Elem} (h : total Elem.size D' = total Elem.size D) :
    (c.plug D').map Arena.frame = (c.plug D).map Arena.frame := by
  have hstop := (c.stop_arena D').trans ((congrArg (c.pos + · + _) h).trans (c.stop_arena D).symm)
  simp only [plug, List.map_append, List.map_cons, Arena.frame, hstop]
  rfl

/-- The gap after the element `e`. -/
def afterElem (e : Elem) : Focus := { c with left := c.left ++ [e] }

/-- The gap before the elements `R`. -/
def beforeElems (R : List Elem) : Focus := { c with right := R ++ c.right }

theorem plug_afterElem (e : Elem) (D : List Elem) : (c.afterElem e).plug D = c.plug (e :: D) := by
  simp [plug, arena, afterElem]

theorem plug_beforeElems (D R : List Elem) : (c.beforeElems R).plug D = c.plug (D ++ R) := by
  simp [plug, arena, beforeElems]

@[simp] theorem pos_afterElem (e : Elem) : (c.afterElem e).pos = c.pos + e.size := by
  simp [pos, afterElem, Nat.add_assoc]

@[simp] theorem pos_beforeElems (R : List Elem) : (c.beforeElems R).pos = c.pos := rfl
@[simp] theorem heap_afterElem (e : Elem) : (c.afterElem e).heap = c.heap := rfl
@[simp] theorem ms_afterElem (e : Elem) : (c.afterElem e).ms = c.ms := rfl
@[simp] theorem heap_beforeElems (R : List Elem) : (c.beforeElems R).heap = c.heap := rfl
@[simp] theorem ms_beforeElems (R : List Elem) : (c.beforeElems R).ms = c.ms := rfl
@[simp] theorem prev_beforeElems (R : List Elem) : (c.beforeElems R).prev = c.prev := rfl
@[simp] theorem prev_afterElem (e : Elem) : (c.afterElem e).prev = c.pos := by
  simp [prev, afterElem, lastStart_append, pos]

/-- Every placed element is the filling of some gap. -/
theorem exists_plug {ars : List Arena} {ar : Arena} (har : ar ∈ ars) {x : Nat} {e : Elem}
    (he : (x, e) ∈ place Elem.size ar.base ar.elems) :
    ∃ c : Focus, ars = c.plug [e] ∧ c.pos = x ∧ c.heap = ar.heap ∧ c.ms = ar.ms ∧
      c.base = ar.base := by
  obtain ⟨B, A, rfl⟩ := List.append_of_mem har
  obtain ⟨L, R, hL, rfl⟩ := (mem_place Elem.size).mp he
  refine ⟨⟨B, ar.heap, ar.ms, ar.base, L, R, A⟩, ?_, rfl, rfl, rfl, rfl⟩
  cases ar
  simp_all [plug, arena]

/-- The free elements of bucket `idx` outside a gap of `t` bytes. -/
def restFree (heap idx t : Nat) : List Nat :=
  (freeAt heap idx c.before ++
    if c.heap = heap then freeAddrs idx c.base c.left ++ freeAddrs idx (c.pos + t) c.right else []) ++
    freeAt heap idx c.after

theorem freeAt_plug (heap idx : Nat) (D : List Elem) :
    (freeAt heap idx (c.plug D)).Perm
      ((if c.heap = heap then freeAddrs idx c.pos D else []) ++
        c.restFree heap idx (total Elem.size D)) := by
  by_cases h : c.heap = heap
  · simp only [freeAt, plug, arena, restFree, h, if_true, List.flatMap_append, List.flatMap_cons,
      freeAddrs_append, pos, List.append_assoc]
    exact (List.Perm.append_left _ (List.perm_append_comm_assoc _ _ _)).trans
      (List.perm_append_comm_assoc _ _ _)
  · simp [freeAt, plug, arena, restFree, h]

end Focus

end RteDemo
