import RteDemo.Malloc.Resize

/-!
# One operation, seen from the rest of the heap

Every operation of the allocator replaces a few neighbouring elements of one memseg by others of the
same total size: an `Edit`. From there the elements elsewhere are the same, keep their bytes, and
whatever is summed over a heap changes by the edited elements alone.
-/

namespace RteDemo

open Bytes Tiling

/-! ## All elements of all arenas -/

/-- The elements with their addresses. -/
def placed (ars : List Arena) : List (Nat × Elem) :=
  ars.flatMap fun ar => place Elem.size ar.base ar.elems

theorem mem_placed {ars : List Arena} {p : Nat × Elem} :
    p ∈ placed ars ↔ ∃ ar ∈ ars, p ∈ place Elem.size ar.base ar.elems := List.mem_flatMap

/-- A sum over the elements of one heap. -/
def tally (heap : Nat) (f : Elem → Nat) (ars : List Arena) : Nat :=
  (ars.map fun ar => if ar.heap = heap then (ar.elems.map f).sum else 0).sum

theorem tally_append (heap : Nat) (f : Elem → Nat) (ars brs : List Arena) :
    tally heap f (ars ++ brs) = tally heap f ars + tally heap f brs := by
  simp [tally]

namespace Focus

variable (c : Focus)

/-- The elements outside a gap of `t` bytes. -/
def restPlaced (t : Nat) : List (Nat × Elem) :=
  placed c.before ++ (place Elem.size c.base c.left ++ place Elem.size (c.pos + t) c.right) ++
    placed c.after

theorem mem_placed_plug {D : List Elem} {p : Nat × Elem} :
    p ∈ placed (c.plug D) ↔ p ∈ place Elem.size c.pos D ∨ p ∈ c.restPlaced (total Elem.size D) := by
  simp only [placed, plug, arena, restPlaced, List.flatMap_append, List.flatMap_cons, place_append,
    List.mem_append, pos, total_append, Nat.add_assoc]
  tauto

/-- The part of a sum that lies outside the gap. -/
def restTally (heap : Nat) (f : Elem → Nat) : Nat :=
  tally heap f c.before + (if c.heap = heap then (c.left.map f).sum + (c.right.map f).sum else 0) +
    tally heap f c.after

theorem tally_plug (heap : Nat) (f : Elem → Nat) (D : List Elem) :
    tally heap f (c.plug D) = (if c.heap = heap then (D.map f).sum else 0) + c.restTally heap f := by
  simp only [tally, plug, arena, restTally, List.map_append, List.map_cons, List.sum_append,
    List.sum_cons]
  split_ifs <;> omega

end Focus

/-! ## Edits -/

/-- `D` became `D'` in the gap of `c`. Outside the gap only the `prev` field behind it may change. -/
structure Edit (s s' : HeapState) (c : Focus) (D D' : List Elem) : Prop where
  rep : HeapRep s (c.plug D)
  rep' : HeapRep s' (c.plug D')
  size : total Elem.size D' = total Elem.size D
  memseg : s'.memseg = s.memseg
  totalSize : ∀ heap, (s'.mallocHeaps heap).totalSize = (s.mallocHeaps heap).totalSize
  outside : ∀ x, (x < c.pos ∨ c.pos + total Elem.size D ≤ x) →
    (x < c.pos + total Elem.size D + 8 ∨ c.pos + total Elem.size D + 16 ≤ x) → s'.mem x = s.mem x

/-- An element outside the gap lies below it, above it, or in another area. -/
theorem HeapRep.rest_apart {s : HeapState} {c : Focus} {D : List Elem} (h : HeapRep s (c.plug D))
    {a : Nat} {e : Elem} (he : (a, e) ∈ c.restPlaced (total Elem.size D)) :
    a + e.size ≤ c.pos ∨ a = c.pos + total Elem.size D ∨
      c.pos + total Elem.size D + 64 ≤ a := by
  have hother : ∀ br ∈ c.before ++ c.after, (a, e) ∈ place Elem.size br.base br.elems →
      a + e.size ≤ c.pos ∨ c.pos + total Elem.size D + 64 ≤ a := by
    intro br hbr hm
    have hb := place_bounds Elem.size hm
    have hap := h.others_apart hbr
    have hbp := base_le_pos c
    simp only [Frame.Apart, Arena.frame, Focus.stop_arena] at hap
    simp only [Arena.stop, Focus.arena] at hap
    omega
  simp only [Focus.restPlaced, List.mem_append, mem_placed] at he
  rcases he with (⟨br, hbr, hm⟩ | hl | hr) | ⟨br, hbr, hm⟩
  · have := hother br (List.mem_append_left _ hbr) hm
    omega
  · exact .inl (place_bounds Elem.size hl).2
  · cases hright : c.right with
    | nil => simp [hright] at hr
    | cons f R =>
      rw [hright, place_cons, List.mem_cons] at hr
      rcases hr with hr | hr
      · exact .inr (.inl (Prod.mk.inj hr).1)
      · have hb := (place_bounds Elem.size hr).1
        have hf := (h.right_ok f (hright ▸ List.mem_cons_self)).le
        omega
  · have := hother br (List.mem_append_right _ hbr) hm
    omega

theorem HeapRep.placed_ok {s : HeapState} {ars : List Arena} (h : HeapRep s ars) {a : Nat} {e : Elem}
    (he : (a, e) ∈ placed ars) : e.OK := by
  obtain ⟨ar, har, hm⟩ := mem_placed.mp he
  exact h.ok ar har e (mem_of_mem_place Elem.size hm)

namespace Edit

variable {s s' : HeapState} {c : Focus} {D D' : List Elem}

theorem frames (h : Edit s s' c D D') :
    (c.plug D').map Arena.frame = (c.plug D).map Arena.frame := c.frames_plug h.size

theorem rest_iff (h : Edit s s' c D D') {p : Nat × Elem} :
    p ∈ placed (c.plug D') ↔
      p ∈ place Elem.size c.pos D' ∨ p ∈ c.restPlaced (total Elem.size D) := by
  rw [c.mem_placed_plug, h.size]

/-- Elements outside the gap keep their bytes, up to the `prev` field. -/
theorem rest_keep (h : Edit s s' c D D') {a : Nat} {e : Elem}
    (he : (a, e) ∈ c.restPlaced (total Elem.size D)) :
    Agree s.mem s'.mem a (a + 8) ∧ Agree s.mem s'.mem (a + 16) (a + e.size) := by
  have hap := h.rep.rest_apart he
  have hsz := (h.rep.placed_ok (c.mem_placed_plug.mpr (.inr he))).le
  exact ⟨fun x hx hx' => h.outside x (by omega) (by omega),
    fun x hx hx' => h.outside x (by omega) (by omega)⟩

end Edit

/-! ## The three operations -/

section

variable {s : HeapState} {c : Focus} {n : Nat}

theorem HeapRep.alloc_edit {front size align bound : Nat} (h : HeapRep s (c.plug [⟨n, .free⟩]))
    (hp : elemStartPt c.pos n size align bound = c.pos + front) (hle : front + size + 64 ≤ n)
    (hf : 64 ∣ front) (hs : 64 ∣ size) :
    Edit s (mallocElemAlloc s c.pos size align bound).1 c [⟨n, .free⟩] (allocElems n front size) := by
  obtain ⟨hrep, -, hcounts⟩ := h.alloc hp hle hf hs
  refine ⟨h, hrep, by simp [total_allocElems hle], hcounts.memseg, hcounts.totalSize, ?_⟩
  intro x hx hx'
  simp only [total_cons, total_nil, Nat.add_zero] at hx hx'
  refine h.alloc_keep hp hle hf hs (by omega) (by omega) (fun ht => ?_) (by omega)
  unfold trailer at ht
  omega

theorem Focus.plug_absorbed {L A B R D : List Elem} (hl : c.left = L ++ A) (hr : c.right = B ++ R) :
    c.plug D = Focus.plug { c with left := L, right := R } (A ++ D ++ B) := by
  simp [Focus.plug, Focus.arena, hl, hr]

theorem Freed.edit {s' : HeapState} {pad : Nat} {L A B R : List Elem}
    (h : HeapRep s (c.plug [⟨n, .busy pad⟩])) (hf : Freed s s' c n L A B R) :
    Edit s s' { c with left := L, right := R } (A ++ [⟨n, .busy pad⟩] ++ B)
      [⟨total Elem.size A + (n + total Elem.size B), .free⟩] := by
  have hpos : c.pos = Focus.pos { c with left := L, right := R } + total Elem.size A := by
    simp only [Focus.pos, hf.left, total_append, Nat.add_assoc]
  have hbase : c.base + total Elem.size L = Focus.pos { c with left := L, right := R } := rfl
  have hsum : total Elem.size (A ++ [⟨n, .busy pad⟩] ++ B) =
      total Elem.size A + (n + total Elem.size B) := by
    simp only [total_append, total_cons, total_nil]
    omega
  have hn : 64 ≤ n := (h.gap_ok _ List.mem_cons_self).le
  have hB64 : B ≠ [] → 64 ≤ total Elem.size B :=
    total_pos fun e he => h.right_ok e (hf.right ▸ List.mem_append_left _ he)
  refine ⟨c.plug_absorbed hf.left hf.right ▸ h, hf.rep, by rw [hsum, total_cons, total_nil]; rfl, hf.counts.memseg,
    fun i => (hf.counts.totalSize i).trans (s.totalSize_adjustCount _ _ i), fun x hx hx' => ?_⟩
  rw [hsum] at hx hx'
  refine hf.keep x ?_ (by omega) (by omega)
  by_cases hBe : B = []
  · rw [clearedTo, if_pos hBe, clearedFrom]
    split_ifs <;> omega
  · have := hB64 hBe
    rw [clearedTo, if_neg hBe, clearedFrom]
    split_ifs <;> omega

theorem Grown.edit {s' : HeapState} {pad newSize k : Nat} {R : List Elem}
    (h : HeapRep s (c.plug [⟨n, .busy pad⟩])) (hg : Grown s s' c n pad newSize k R) :
    Edit s s' { c with right := R } [⟨n, .busy pad⟩, ⟨k, .free⟩]
      (⟨cutSize (n + k) newSize, .busy pad⟩ :: cutRest (n + k) newSize) := by
  have hsum := cutSize_add_rest hg.le
  have hn := (h.gap_ok _ List.mem_cons_self).le
  have hle := hg.le
  have hpos : Focus.pos { c with right := R } = c.pos := rfl
  refine ⟨?_, hg.rep, by simpa using hsum, hg.counts.memseg, hg.counts.totalSize, fun x hx hx' => ?_⟩
  · have hplug := c.plug_absorbed (A := []) (B := [⟨k, .free⟩]) (D := [⟨n, .busy pad⟩])
      (List.append_nil _).symm hg.right
    exact hplug ▸ h
  · simp only [total_cons, total_nil, hpos] at hx hx' hn
    exact hg.keep x (by omega) (by omega) (by omega)

end

end RteDemo
