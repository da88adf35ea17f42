import RteDemo.Malloc.Alloc

/-!
# `malloc_elem_free` on arenas

Freeing absorbs a free neighbour on either side. What is cleared is the data of the block itself and
the headers that end up inside the new free element; the data of the neighbours is left as it was.
-/

namespace RteDemo

open Bytes Tiling

/-! ## Reading a neighbour's state -/

theorem UseRep.state_free_iff {m : Mem} {a : Nat} {u : Use} (h : UseRep m a u) (hu : u ≠ .detached) :
    mallocElem.get .state m a = ElemState.free.val ↔ u = .free := by
  cases u with
  | free => exact iff_of_true h rfl
  | detached => exact absurd rfl hu
  | busy pad => exact iff_of_false (by rw [h.1]; decide) (by simp)

/-- The heads of the two lists an element is freed between: a free neighbour, or nothing. -/
def Absorbed (E : List Elem) : Prop := E = [] ∨ ∃ k, E = [⟨k, .free⟩]

namespace HeapRep

variable {s : HeapState} {c : Focus} {n k : Nat} {u : Use}

/-- The state behind an element says whether its right neighbour is free. -/
theorem next_state (h : HeapRep s (c.plug [⟨n, u⟩])) (hset : ∀ e ∈ c.right, e.use ≠ .detached) :
    mallocElem.get .state s.mem (c.pos + n) = ElemState.free.val ↔
      ∃ k R, c.right = ⟨k, .free⟩ :: R := by
  have htail := h.right_tail
  simp only [total_cons, total_nil, Nat.add_zero] at htail
  cases hr : c.right with
  | nil =>
    rw [hr] at htail
    have hend : mallocElem.get .state s.mem (c.pos + n) = ElemState.busy.val := htail.2.state
    exact iff_of_false (by rw [hend]; decide) (by simp)
  | cons e R =>
    rw [hr] at htail
    obtain ⟨k, v⟩ := e
    rw [htail.1.1.use.state_free_iff (hset ⟨k, v⟩ (by simp [hr]))]
    simp

/-- The `prev` field says whether the left neighbour is free. -/
theorem prev_state (h : HeapRep s (c.plug [⟨n, u⟩])) (hset : ∀ e ∈ c.left, e.use ≠ .detached) :
    (c.prev ≠ 0 ∧ mallocElem.get .state s.mem c.prev = ElemState.free.val) ↔
      ∃ k L, c.left = L ++ [⟨k, .free⟩] := by
  have hbase := h.base_pos
  rcases List.eq_nil_or_concat c.left with hl | ⟨L, ⟨k, v⟩, hl⟩
  · have hprev : c.prev = 0 := by simp [Focus.prev, hl]
    rw [hprev, hl]
    simp
  · rw [List.concat_eq_append] at hl
    obtain ⟨hchain, -, -⟩ := h.split_tail
    have hprev : c.prev = c.base + total Elem.size L := by simp [Focus.prev, hl, lastStart_append]
    rw [hl, chain_append] at hchain
    rw [hprev, hchain.2.1.use.state_free_iff (hset ⟨k, v⟩ (by simp [hl])), hl]
    constructor
    · rintro ⟨-, rfl⟩
      exact ⟨k, L, rfl⟩
    · rintro ⟨k', L', heq⟩
      obtain ⟨-, he⟩ := List.append_inj' heq rfl
      have hkv := Elem.mk.inj (List.cons.inj he).1
      exact ⟨by omega, hkv.2⟩

/-! ## Joining with a neighbour -/

/-- Take the free right neighbour off its list and join. -/
theorem absorbNext (h : HeapRep s (c.plug [⟨n, u⟩, ⟨k, .free⟩])) (hu : u ≠ .free) :
    HeapRep ((elemFreeListRemove s (c.pos + n)).setMem (joinElem s.mem c.pos (c.pos + n)))
      (c.plug [⟨n + k, u⟩]) := by
  rw [← c.plug_afterElem] at h
  have hr := h.remove
  rw [c.plug_afterElem, c.pos_afterElem] at hr
  exact hr.join hu (by simp)

/-- Take the free left neighbour off its list and join; the result is on no list. -/
theorem absorbPrev (h : HeapRep s (c.plug [⟨k, .free⟩, ⟨n, u⟩])) (hu : u ≠ .free) :
    HeapRep ((elemFreeListRemove s c.pos).setMem (joinElem s.mem c.pos (c.pos + k)))
      (c.plug [⟨k + n, .detached⟩]) := by
  rw [show ([⟨k, .free⟩, ⟨n, u⟩] : List Elem) = [⟨k, .free⟩] ++ [⟨n, u⟩] from rfl,
    ← c.plug_beforeElems] at h
  have hr := h.remove
  rw [c.plug_beforeElems, c.pos_beforeElems] at hr
  exact hr.join (by simp) hu

/-- The counters of a heap say nothing about its lists. -/
theorem modifyHeap {ars : List Arena} (h : HeapRep s ars) (heap : Nat) {f : MallocHeap → MallocHeap}
    (hf : ∀ g, (f g).freeHead = g.freeHead) : HeapRep (s.modifyHeap heap f) ars where
  wf := h.wf
  apart := h.apart
  ok := h.ok
  rep := h.rep
  listed i idx := by
    by_cases hi : i = heap
    · rw [hi, s.modifyHeap_self, hf]
      exact h.listed heap idx
    · rw [s.modifyHeap_ne hi]
      exact h.listed i idx

end HeapRep

/-! ## The stages of the code -/

/-- Absorb the right neighbour: the state, and what to clear beyond the data of the element. -/
def freeNext (s : HeapState) (elem : Nat) : HeapState × Nat :=
  let next := rtePtrAdd elem (s.elem .size elem)
  if s.elem .state next = ElemState.free.val then
    ((elemFreeListRemove s next).setMem (joinElem s.mem elem next), mallocElemOverhead)
  else (s, 0)

/-- Absorb the left neighbour: the state, what to clear below the data, and the merged element. -/
def freePrev (s : HeapState) (elem : Nat) : HeapState × Nat × Nat :=
  let prev := s.elem .prev elem
  if prev ≠ 0 ∧ s.elem .state prev = ElemState.free.val then
    ((elemFreeListRemove s prev).setMem (joinElem s.mem prev elem), mallocElemOverhead, prev)
  else (s, 0, elem)

theorem sameCounts_freeNext (s : HeapState) (elem : Nat) : SameCounts s (freeNext s elem).1 := by
  simp only [freeNext]
  split_ifs
  · exact (sameCounts_remove s _).trans (sameCounts_setMem _ _)
  · exact .refl s

theorem sameCounts_freePrev (s : HeapState) (elem : Nat) : SameCounts s (freePrev s elem).1 := by
  simp only [freePrev]
  split_ifs
  · exact (sameCounts_remove s _).trans (sameCounts_setMem _ _)
  · exact .refl s

section

variable {s : HeapState} {c : Focus} {n : Nat} {u : Use}

theorem freeNext_spec (h : HeapRep s (c.plug [⟨n, u⟩])) (hu : u ≠ .free)
    (hset : ∀ e ∈ c.right, e.use ≠ .detached) :
    ∃ B R, c.right = B ++ R ∧ Absorbed B ∧ (B = [] → ∀ e ∈ R.head?, e.use ≠ .free) ∧
      HeapRep (freeNext s c.pos).1
        (Focus.plug { c with right := R } [⟨n + total Elem.size B, u⟩]) ∧
      (freeNext s c.pos).2 = (if B = [] then 0 else 64) ∧
      ∀ x, (x < c.pos + 48 ∨ c.pos + 56 ≤ x) →
        (x < c.pos + n + total Elem.size B + 8 ∨ c.pos + n + total Elem.size B + 16 ≤ x) →
        (freeNext s c.pos).1.mem x = s.mem x := by
  have htop := h.top
  simp only [total_cons, total_nil] at htop
  have hsz : s.elem .size c.pos = n := h.single_hdr.size
  have hnext : rtePtrAdd c.pos n = c.pos + n := rtePtrAdd_eq (by omega)
  have hstate := h.next_state hset
  by_cases hf : mallocElem.get .state s.mem (c.pos + n) = ElemState.free.val
  · obtain ⟨k, R, hr⟩ := hstate.mp hf
    have hplug : c.plug [⟨n, u⟩] = Focus.plug { c with right := R } [⟨n, u⟩, ⟨k, .free⟩] := by
      simp [Focus.plug, Focus.arena, hr]
    have h' := hplug ▸ h
    have hcode : freeNext s c.pos = ((elemFreeListRemove s (c.pos + n)).setMem
        (joinElem s.mem c.pos (c.pos + n)), 64) := by
      simp only [freeNext, hsz, hnext]
      exact if_pos hf
    refine ⟨[⟨k, .free⟩], R, hr, .inr ⟨k, rfl⟩, fun hne => absurd hne (by simp), ?_, ?_, ?_⟩
    · rw [hcode]
      simp only [total_cons, total_nil, Nat.add_zero]
      exact h'.absorbNext hu
    · rw [hcode]
      simp
    · intro x hx hx'
      simp only [total_cons, total_nil, Nat.add_zero] at hx'
      rw [hcode]
      exact h'.joinElem_keep hx hx'
  · have hcode : freeNext s c.pos = (s, 0) := by
      simp only [freeNext, hsz, hnext]
      exact if_neg hf
    refine ⟨[], c.right, rfl, .inl rfl, fun _ e he hfree => hf (hstate.mpr ?_), ?_, ?_, ?_⟩
    · obtain ⟨R, hR⟩ := List.head?_eq_some_iff.mp he
      exact ⟨e.size, R, by rw [hR, ← hfree]⟩
    · rw [hcode]
      exact h
    · rw [hcode]
      rfl
    · intro x _ _
      rw [hcode]

theorem freePrev_spec (h : HeapRep s (c.plug [⟨n, u⟩])) (hu : u ≠ .free)
    (hset : ∀ e ∈ c.left, e.use ≠ .detached) :
    ∃ L A, c.left = L ++ A ∧ Absorbed A ∧ (A = [] → ∀ e ∈ L.getLast?, e.use ≠ .free) ∧
      (∃ v, v ≠ .free ∧ HeapRep (freePrev s c.pos).1
        (Focus.plug { c with left := L } [⟨total Elem.size A + n, v⟩])) ∧
      (freePrev s c.pos).2 = (if A = [] then 0 else 64, c.base + total Elem.size L) ∧
      ∀ x, (x < c.base + total Elem.size L + 48 ∨ c.base + total Elem.size L + 56 ≤ x) →
        (x < c.pos + n + 8 ∨ c.pos + n + 16 ≤ x) → (freePrev s c.pos).1.mem x = s.mem x := by
  have hprev : s.elem .prev c.pos = c.prev := h.single_hdr.prev
  have hstate := h.prev_state hset
  by_cases hf : c.prev ≠ 0 ∧ mallocElem.get .state s.mem c.prev = ElemState.free.val
  · obtain ⟨k, L, hl⟩ := hstate.mp hf
    have hplug : c.plug [⟨n, u⟩] = Focus.plug { c with left := L } [⟨k, .free⟩, ⟨n, u⟩] := by
      simp [Focus.plug, Focus.arena, hl]
    have h' := hplug ▸ h
    have hpos : c.pos = Focus.pos { c with left := L } + k := by
      simp [Focus.pos, hl, Nat.add_assoc]
    have hpv : c.prev = Focus.pos { c with left := L } := by
      simp [Focus.prev, Focus.pos, hl, lastStart_append]
    have hcode : freePrev s c.pos = ((elemFreeListRemove s c.prev).setMem
        (joinElem s.mem c.prev c.pos), 64, c.prev) := by
      simp only [freePrev, hprev]
      exact if_pos hf
    rw [hpv, hpos] at hcode
    rw [hpos, hcode]
    refine ⟨L, [⟨k, .free⟩], hl, .inr ⟨k, rfl⟩, fun hne => absurd hne (by simp), ⟨.detached, by simp, ?_⟩,
      ?_, ?_⟩
    · simpa using h'.absorbPrev hu
    · simp [Focus.pos]
    · intro x hx hx'
      exact h'.joinElem_keep hx hx'
  · have hcode : freePrev s c.pos = (s, 0, c.pos) := by
      simp only [freePrev, hprev]
      exact if_neg hf
    rw [hcode]
    refine ⟨c.left, [], by simp, .inl rfl, fun _ e he hfree => hf (hstate.mpr ?_), ⟨u, hu, ?_⟩, ?_, ?_⟩
    · obtain ⟨L, hL⟩ := List.getLast?_eq_some_iff.mp he
      exact ⟨e.size, L, by rw [hL, ← hfree]⟩
    · simpa using h
    · rfl
    · exact fun _ _ _ => rfl

end

/-! ## `malloc_elem_free` -/

/-- The code by its stages. -/
theorem mallocElemFree_eq {s : HeapState} {elem : Nat} (h0 : elem ≠ 0)
    (hb : s.elem .state elem = ElemState.busy.val) :
    mallocElemFree s elem =
      (let next := freeNext s elem
       let prev := freePrev next.1 elem
       let s' := mallocElemFreeListInsert prev.1 prev.2.2
       let s' := s'.modifyHeap (s'.elem .heap prev.2.2) fun h =>
         { h with allocCount := Word.sub 32 h.allocCount 1 }
       s'.setMem (fill s'.mem (rtePtrSub (rtePtrAdd elem 64) prev.2.1)
         (Word.add 64 (Word.add 64 (Word.sub 64 (Word.sub 64 (s.elem .size elem) 64) 0) next.2)
           prev.2.1) 0), 0) := by
  have hsub : ∀ a b, Word.add 64 (Word.sub 64 a b) 0 = Word.sub 64 a b := fun a b =>
    Word.add_eq (Word.sub_lt 64 a b)
  have hadd : ∀ a b, Word.add 64 (Word.add 64 a b) 0 = Word.add 64 a b := fun a b =>
    Word.add_eq (Word.add_lt 64 a b)
  have hptr : rtePtrSub (rtePtrAdd elem 64) 0 = rtePtrAdd elem 64 :=
    rtePtrSub_eq (Nat.zero_le _) (Word.add_lt 64 elem 64)
  rw [mallocElemFree, if_neg (by simp [h0, hb])]
  by_cases hn : s.elem .state (rtePtrAdd elem (s.elem .size elem)) = ElemState.free.val
  · have hnext : freeNext s elem = ((elemFreeListRemove s (rtePtrAdd elem (s.elem .size elem))).setMem
        (joinElem s.mem elem (rtePtrAdd elem (s.elem .size elem))), 64) := if_pos hn
    simp only [hn, if_true, hnext, mallocElemHeaderLen, mallocElemTrailerLen, mallocElemOverhead,
      remove_mem]
    generalize (elemFreeListRemove s (rtePtrAdd elem (s.elem .size elem))).setMem
      (joinElem s.mem elem (rtePtrAdd elem (s.elem .size elem))) = s₁
    by_cases hp : s₁.elem .prev elem ≠ 0 ∧ s₁.elem .state (s₁.elem .prev elem) = ElemState.free.val
    · simp [freePrev, hp]
    · simp [freePrev, hp, hptr, hadd]
  · have hnext : freeNext s elem = (s, 0) := if_neg hn
    simp only [hn, if_false, hnext, mallocElemHeaderLen, mallocElemTrailerLen, mallocElemOverhead]
    by_cases hp : s.elem .prev elem ≠ 0 ∧ s.elem .state (s.elem .prev elem) = ElemState.free.val
    · simp [freePrev, hp, hsub]
    · simp [freePrev, hp, hptr, hsub]

/-- What `malloc_elem_free` clears: the data of the block, and the headers next to it that are now
inside a free element. `A` and `B` are the elements absorbed on the left and on the right. -/
def clearedFrom (pos : Nat) (A : List Elem) : Nat := if A = [] then pos + 64 else pos

def clearedTo (stop : Nat) (B : List Elem) : Nat := if B = [] then stop else stop + 64

/-- The arguments of the `memset`. -/
theorem clearRange_eq {pos n : Nat} {A B : List Elem} (hn : 64 ≤ n) (hpos : 64 ≤ pos)
    (htop : pos + n + 64 ≤ 2 ^ 64) :
    rtePtrSub (rtePtrAdd pos 64) (if A = [] then 0 else 64) = clearedFrom pos A ∧
      Word.add 64 (Word.add 64 (Word.sub 64 (Word.sub 64 n 64) 0) (if B = [] then 0 else 64))
        (if A = [] then 0 else 64) = clearedTo (pos + n) B - clearedFrom pos A := by
  have hadd : ∀ b a, b ≤ 64 → a ≤ 64 →
      Word.add 64 (Word.add 64 (n - 64 - 0) b) a = n - 64 + b + a := fun b a hb ha => by
    rw [Nat.sub_zero, Word.add_eq (a := n - 64) (by omega), Word.add_eq (by omega)]
  rw [rtePtrAdd_eq (by omega), Word.sub_eq hn (by omega), Word.sub_eq (Nat.zero_le _) (by omega),
    hadd _ _ (by split_ifs <;> omega) (by split_ifs <;> omega), clearedTo, clearedFrom]
  refine ⟨?_, by split_ifs <;> omega⟩
  split_ifs
  · exact rtePtrSub_eq (Nat.zero_le _) (by omega)
  · rw [rtePtrSub_eq (by omega) (by omega), Nat.add_sub_cancel]

/-- The outcome of freeing an element of `n` bytes in the gap of `c`: it absorbs `A` and `B`. -/
structure Freed (s s' : HeapState) (c : Focus) (n : Nat) (L A B R : List Elem) : Prop where
  left : c.left = L ++ A
  right : c.right = B ++ R
  absorbedLeft : Absorbed A
  absorbedRight : Absorbed B
  endLeft : A = [] → ∀ e ∈ L.getLast?, e.use ≠ .free
  endRight : B = [] → ∀ e ∈ R.head?, e.use ≠ .free
  rep : HeapRep s' (Focus.plug { c with left := L, right := R }
    [⟨total Elem.size A + (n + total Elem.size B), .free⟩])
  counts : SameCounts (s.adjustCount c.heap fun k => Word.sub 32 k 1) s'
  cleared : ∀ x, clearedFrom c.pos A ≤ x → x < clearedTo (c.pos + n) B → s'.mem x = 0
  keep : ∀ x, (x < clearedFrom c.pos A ∨ clearedTo (c.pos + n) B ≤ x) →
    (x < c.base + total Elem.size L ∨ c.base + total Elem.size L + 64 ≤ x) →
    (x < c.pos + n + total Elem.size B + 8 ∨ c.pos + n + total Elem.size B + 16 ≤ x) →
    s'.mem x = s.mem x

/-- **`malloc_elem_free` on arenas.** The element becomes free, together with a free neighbour on
either side; afterwards no neighbour is free. -/
theorem HeapRep.free {s : HeapState} {c : Focus} {n pad : Nat}
    (h : HeapRep s (c.plug [⟨n, .busy pad⟩]))
    (hset : ∀ e ∈ c.left ++ c.right, e.use ≠ .detached) :
    (mallocElemFree s c.pos).2 = 0 ∧
      ∃ L A B R, Freed s (mallocElemFree s c.pos).1 c n L A B R := by
  have hn64 : 64 ≤ n := (h.gap_ok _ List.mem_cons_self).le
  have htop := h.top
  simp only [total_cons, total_nil] at htop
  have hbusy : s.elem .state c.pos = ElemState.busy.val := h.single_hdr.use.1
  have hsz : s.elem .size c.pos = n := h.single_hdr.size
  have hpos64 : 64 ≤ c.pos := h.base_pos.trans (HeapRep.base_le_pos c)
  obtain ⟨B, R, hright, hB, hBend, hrep₁, hsz₁, hkeep₁⟩ :=
    freeNext_spec h (by simp) fun e he => hset e (List.mem_append_right _ he)
  obtain ⟨L, A, hleft, hA, hAend, ⟨v, hv, hrep₂⟩, hsz₂, hkeep₂⟩ :=
    freePrev_spec hrep₁ (by simp) fun e he => hset e (List.mem_append_left _ he)
  have hleft : c.left = L ++ A := hleft
  have hposR : Focus.pos { c with right := R } = c.pos := rfl
  simp only [hposR] at hrep₂ hsz₂ hkeep₂
  have hpos : c.pos = c.base + total Elem.size L + total Elem.size A := by
    simp [Focus.pos, hleft, Nat.add_assoc]
  have hA0 : A = [] → total Elem.size A = 0 := fun hA => by rw [hA, total_nil]
  have hA64 : A ≠ [] → 64 ≤ total Elem.size A :=
    total_pos fun e he => h.left_ok e (hleft ▸ List.mem_append_right _ he)
  have hB64 : B ≠ [] → 64 ≤ total Elem.size B :=
    total_pos fun e he => h.right_ok e (hright ▸ List.mem_append_left _ he)
  -- only the inside of the merged element is cleared
  have hlow : c.base + total Elem.size L + 64 ≤ clearedFrom c.pos A := by
    unfold clearedFrom
    split_ifs with hAe
    · omega
    · have := hA64 hAe
      omega
  have hhigh : clearedTo (c.pos + n) B ≤ c.pos + n + total Elem.size B := by
    unfold clearedTo
    split_ifs with hBe
    · omega
    · have := hB64 hBe
      omega
  have hcode := mallocElemFree_eq (s := s) (show c.pos ≠ 0 by omega) hbusy
  obtain ⟨hlo, hlen⟩ := clearRange_eq (A := A) (B := B) hn64 hpos64 (show c.pos + n + 64 ≤ 2 ^ 64 by omega)
  simp only [hsz, hsz₁, hsz₂, hlo, hlen] at hcode
  have hcounts := (sameCounts_freeNext s c.pos).trans (sameCounts_freePrev _ c.pos)
  generalize (freePrev (freeNext s c.pos).1 c.pos).1 = s₂ at hrep₂ hkeep₂ hcode hcounts
  have hins := hrep₂.insert hv
  have hpos' : Focus.pos { c with left := L, right := R } = c.base + total Elem.size L := rfl
  rw [hpos'] at hins
  have hheap : (mallocElemFreeListInsert s₂ (c.base + total Elem.size L)).elem .heap
    (c.base + total Elem.size L) = c.heap := hins.single_hdr.heap
  rw [hheap] at hcode
  rw [hcode]
  refine ⟨rfl, L, A, B, R, ?_⟩
  refine ⟨hleft, hright, hA, hB, hAend, hBend, ?_, ?_, ?_, ?_⟩
  · have hcount := hins.modifyHeap c.heap
      (f := fun h => { h with allocCount := Word.sub 32 h.allocCount 1 }) fun _ => rfl
    refine hcount.clear fun x hx => fill_out ?_
    rw [hpos'] at hx
    omega
  · exact ((hcounts.trans (sameCounts_insert s₂ _)).adjustCount c.heap _).trans (sameCounts_setMem _ _)
  · intro x hx hx'
    exact fill_in hx (by omega)
  · intro x hx hx' hx''
    refine (fill_out (by omega)).trans ((insert_keep (by omega)).trans ?_)
    refine (hkeep₂ x (by omega) (by omega)).trans (hkeep₁ x ?_ hx'')
    -- the old header is either the merged one or cleared
    by_cases hAe : A = []
    · have := hA0 hAe
      omega
    · rw [clearedFrom, if_neg hAe, clearedTo] at hx
      split_ifs at hx <;> omega

end RteDemo
