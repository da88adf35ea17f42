import RteDemo.Malloc.Primitives

/-!
# `malloc_elem_alloc` on arenas

Taking a block out of a free element leaves a busy element, a free one behind it when enough is
left there, and in front of it either padding or a free element (`allocElems`). Only the headers of
these elements, and the `prev` field behind them, are written.
-/

namespace RteDemo

open Bytes Tiling

/-! ## Fields the list operations leave alone -/

/-- The fields no list operation and no write to memory touches. -/
structure SameCounts (s s' : HeapState) : Prop where
  memseg : s'.memseg = s.memseg
  allocCount : ∀ heap, (s'.mallocHeaps heap).allocCount = (s.mallocHeaps heap).allocCount
  totalSize : ∀ heap, (s'.mallocHeaps heap).totalSize = (s.mallocHeaps heap).totalSize

theorem SameCounts.refl (s : HeapState) : SameCounts s s := ⟨rfl, fun _ => rfl, fun _ => rfl⟩

theorem SameCounts.trans {s s' s'' : HeapState} (h : SameCounts s s') (h' : SameCounts s' s'') :
    SameCounts s s'' :=
  ⟨h'.memseg.trans h.memseg, fun i => (h'.allocCount i).trans (h.allocCount i),
    fun i => (h'.totalSize i).trans (h.totalSize i)⟩

theorem sameCounts_setMem (s : HeapState) (m : Mem) : SameCounts s (s.setMem m) :=
  ⟨rfl, fun _ => rfl, fun _ => rfl⟩

/-- An update of the lists of one heap. -/
theorem sameCounts_modifyHeap (s : HeapState) (heap : Nat) {f : MallocHeap → MallocHeap}
    (ha : ∀ h, (f h).allocCount = h.allocCount) (ht : ∀ h, (f h).totalSize = h.totalSize) :
    SameCounts s (s.modifyHeap heap f) := by
  refine ⟨rfl, fun i => ?_, fun i => ?_⟩
  · by_cases hi : i = heap
    · rw [hi, s.modifyHeap_self, ha]
    · rw [s.modifyHeap_ne hi]
  · by_cases hi : i = heap
    · rw [hi, s.modifyHeap_self, ht]
    · rw [s.modifyHeap_ne hi]

theorem sameCounts_remove (s : HeapState) (e : Nat) : SameCounts s (elemFreeListRemove s e) :=
  sameCounts_modifyHeap s _ (fun _ => rfl) (fun _ => rfl)

theorem sameCounts_insert (s : HeapState) (e : Nat) :
    SameCounts s (mallocElemFreeListInsert s e) := by
  simp only [mallocElemFreeListInsert]
  refine (sameCounts_setMem s _).trans (sameCounts_modifyHeap _ _ ?_ ?_) <;> exact fun _ => rfl

/-- Adjust the count of allocated elements of one heap. -/
def HeapState.adjustCount (s : HeapState) (heap : Nat) (f : Nat → Nat) : HeapState :=
  s.modifyHeap heap fun h => { h with allocCount := f h.allocCount }

@[simp] theorem HeapState.adjustCount_mem (s : HeapState) (heap : Nat) (f : Nat → Nat) :
    (s.adjustCount heap f).mem = s.mem := rfl

theorem HeapState.allocCount_adjustCount (s : HeapState) (heap : Nat) (f : Nat → Nat) (i : Nat) :
    ((s.adjustCount heap f).mallocHeaps i).allocCount =
      if i = heap then f (s.mallocHeaps i).allocCount else (s.mallocHeaps i).allocCount := by
  unfold adjustCount
  split_ifs with hi
  · rw [hi, modifyHeap_self]
  · rw [modifyHeap_ne s hi]

theorem HeapState.totalSize_adjustCount (s : HeapState) (heap : Nat) (f : Nat → Nat) (i : Nat) :
    ((s.adjustCount heap f).mallocHeaps i).totalSize = (s.mallocHeaps i).totalSize := by
  unfold adjustCount
  by_cases hi : i = heap
  · rw [hi, modifyHeap_self]
  · rw [modifyHeap_ne s hi]

theorem SameCounts.adjustCount {s s' : HeapState} (h : SameCounts s s') (heap : Nat) (f : Nat → Nat) :
    SameCounts (s.adjustCount heap f) (s'.adjustCount heap f) := by
  refine ⟨h.memseg, fun i => ?_, fun i => ?_⟩
  · rw [HeapState.allocCount_adjustCount, HeapState.allocCount_adjustCount, h.allocCount]
  · rw [HeapState.totalSize_adjustCount, HeapState.totalSize_adjustCount, h.totalSize]

@[simp] theorem remove_mem (s : HeapState) (e : Nat) : (elemFreeListRemove s e).mem = s.mem := rfl

theorem insert_keep {s : HeapState} {e x : Nat} (h : x < e + 40 ∨ e + 44 ≤ x) :
    (mallocElemFreeListInsert s e).mem x = s.mem x :=
  mallocElem.set_out h

/-! ## Cutting off the end of an element -/

namespace HeapRep

variable {s : HeapState} {c : Focus}

/-- `split_elem` followed by putting the second part on its free list. -/
theorem trim {n k : Nat} {u : Use} (h : HeapRep s (c.plug [⟨n + k, u⟩])) (hu : u ≠ .free)
    (hn : (Elem.mk n u).OK) (hk : (Elem.mk k .detached).OK) :
    HeapRep (mallocElemFreeListInsert (s.setMem (splitElem s.mem c.pos (c.pos + n))) (c.pos + n))
      (c.plug [⟨n, u⟩, ⟨k, .free⟩]) := by
  have h' := h.split hu hn hk
  rw [← c.plug_afterElem] at h'
  have h'' := h'.insert (by simp)
  rwa [c.plug_afterElem, c.pos_afterElem] at h''

theorem trim_keep {n k : Nat} {u : Use} (h : HeapRep s (c.plug [⟨n + k, u⟩])) (hk : 0 < k)
    {x : Nat} (h₁ : x < c.pos + 48 ∨ c.pos + 56 ≤ x) (h₂ : x < c.pos + n ∨ c.pos + n + 64 ≤ x)
    (h₃ : x < c.pos + n + k + 8 ∨ c.pos + n + k + 16 ≤ x) :
    (mallocElemFreeListInsert (s.setMem (splitElem s.mem c.pos (c.pos + n))) (c.pos + n)).mem x =
      s.mem x :=
  (insert_keep (by omega)).trans (h.splitElem_keep hk h₁ h₂ h₃)

end HeapRep

/-! ## The elements after an allocation -/

/-- What is free behind a block of `size` bytes whose header is `front` bytes into the element. -/
def trailer (n front size : Nat) : Nat := n - front - size - 64

/-- The element that holds the block, padding in front included. -/
def keptSize (n front size : Nat) : Nat := if 128 < trailer n front size then front + size + 64 else n

def backElems (n front size : Nat) : List Elem :=
  if 128 < trailer n front size then [⟨trailer n front size, .free⟩] else []

/-- A free element of `n` bytes after a block of `size` bytes was placed in it, its header `front`
bytes in. -/
def allocElems (n front size : Nat) : List Elem :=
  (if front < 128 then [⟨keptSize n front size, .busy front⟩]
    else [⟨front, .free⟩, ⟨keptSize n front size - front, .busy 0⟩]) ++ backElems n front size

theorem keptSize_add_back {n front size : Nat} (hle : front + size + 64 ≤ n) :
    keptSize n front size + total Elem.size (backElems n front size) = n := by
  unfold keptSize backElems trailer
  split_ifs <;> simp
  omega

theorem le_keptSize {n front size : Nat} (hle : front + size + 64 ≤ n) :
    front + size + 64 ≤ keptSize n front size ∧ keptSize n front size ≤ n := by
  unfold keptSize
  split_ifs <;> omega

theorem total_allocElems {n front size : Nat} (hle : front + size + 64 ≤ n) :
    total Elem.size (allocElems n front size) = n := by
  have hb := keptSize_add_back hle
  have hk := le_keptSize hle
  unfold allocElems
  split_ifs <;> simp only [total_append, total_cons, total_nil] <;> omega

section

variable {s : HeapState} {c : Focus} {n front size : Nat}

/-- The first half of `malloc_elem_alloc`: give back what is behind the block. -/
def giveBack (s : HeapState) (elem n front size : Nat) : HeapState :=
  if 128 < trailer n front size then
    mallocElemFreeListInsert (s.setMem (splitElem s.mem elem (elem + keptSize n front size)))
      (elem + keptSize n front size)
  else s

theorem keptSize_dvd {n front size : Nat} (hn : 64 ∣ n) (hf : 64 ∣ front) (hs : 64 ∣ size) :
    64 ∣ keptSize n front size := by
  unfold keptSize
  split_ifs
  · exact Nat.dvd_add (Nat.dvd_add hf hs) (Nat.dvd_refl 64)
  · exact hn

theorem giveBack_rep (h : HeapRep s (c.plug [⟨n, .detached⟩])) (hle : front + size + 64 ≤ n)
    (hf : 64 ∣ front) (hs : 64 ∣ size) :
    HeapRep (giveBack s c.pos n front size)
      ((c.beforeElems (backElems n front size)).plug [⟨keptSize n front size, .detached⟩]) := by
  have hn := h.gap_ok _ List.mem_cons_self
  have hkd := keptSize_dvd hn.dvd hf hs
  rw [Focus.plug_beforeElems]
  by_cases ht : 128 < trailer n front size
  · have hkept : keptSize n front size = front + size + 64 := if_pos ht
    have hsum : keptSize n front size + trailer n front size = n := by
      rw [hkept]; unfold trailer; omega
    have htd : 64 ∣ trailer n front size := by
      rw [← Nat.dvd_add_right hkd, hsum]
      exact hn.dvd
    rw [giveBack, if_pos ht, backElems, if_pos ht]
    refine HeapRep.trim ?_ (by decide) ⟨hkd, by simp only; omega, trivial⟩
      ⟨htd, by simp only; omega, trivial⟩
    rw [hsum]
    exact h
  · rw [giveBack, if_neg ht, backElems, if_neg ht, keptSize, if_neg ht]
    exact h

theorem giveBack_keep (h : HeapRep s (c.plug [⟨n, .detached⟩])) (hle : front + size + 64 ≤ n)
    {x : Nat} (h₁ : x < c.pos ∨ c.pos + 64 ≤ x)
    (h₂ : 128 < trailer n front size →
      x < c.pos + front + size + 64 ∨ c.pos + front + size + 128 ≤ x)
    (h₃ : x < c.pos + n + 8 ∨ c.pos + n + 16 ≤ x) :
    (giveBack s c.pos n front size).mem x = s.mem x := by
  unfold giveBack
  split_ifs with ht
  · have hkept : keptSize n front size = front + size + 64 := if_pos ht
    have hsum : keptSize n front size + trailer n front size = n := by
      rw [hkept]; unfold trailer; omega
    have h' := h₂ ht
    exact HeapRep.trim_keep (hsum.symm ▸ h) (by omega) (by omega) (by omega) (by omega)
  · rfl

theorem sameCounts_giveBack (s : HeapState) (e n front size : Nat) :
    SameCounts s (giveBack s e n front size) := by
  unfold giveBack
  split_ifs
  · exact (sameCounts_setMem s _).trans (sameCounts_insert _ _)
  · exact .refl s

/-- The memory after padding: busy, and a dummy header in front of the data. -/
def padElem (m : Mem) (elem newElem kept front : Nat) : Mem :=
  let m := mallocElem.set .state m elem ElemState.busy.val
  let m := mallocElem.set .pad m elem front
  if 0 < front then
    let m := mallocElem.set .pad m newElem front
    let m := mallocElem.set .state m newElem ElemState.pad.val
    mallocElem.set .size m newElem (kept - front)
  else m

theorem padElem_keep {m : Mem} {elem newElem kept front x : Nat} (h₁ : x < elem ∨ elem + 64 ≤ x)
    (h₂ : x < newElem ∨ newElem + 64 ≤ x) : padElem m elem newElem kept front x = m x := by
  simp only [padElem]
  split_ifs
  · rw [set_apart h₂, set_apart h₂, set_apart h₂, set_apart h₁, set_apart h₁]
  · rw [set_apart h₁, set_apart h₁]

theorem padElem_rep (h : HeapRep s (c.plug [⟨n, .detached⟩])) (hf : 64 ∣ front) (hlt : front < 128)
    (hle : front + 64 ≤ n) :
    HeapRep (s.setMem (padElem s.mem c.pos (c.pos + front) n front)) (c.plug [⟨n, .busy front⟩]) := by
  have hn := h.gap_ok _ List.mem_cons_self
  have hdr := h.single_hdr
  refine h.setBusy ⟨hn.1, hn.2.1, hf, hle, hlt⟩
    (fun x hx => padElem_keep (by omega) (by omega)) ?_
  by_cases h0 : front = 0
  · subst h0
    simp only [padElem, Nat.lt_irrefl, if_false]
    refine ⟨?_, ?_, ?_, ?_, ?_, ?_, fun h => absurd rfl h⟩
    · rw [get_set_other (by decide), get_set_other (by decide)]; exact hdr.heap
    · rw [get_set_other (by decide), get_set_other (by decide)]; exact hdr.ms
    · rw [get_set_other (by decide), get_set_other (by decide)]; exact hdr.prev
    · rw [get_set_other (by decide), get_set_other (by decide)]; exact hdr.size
    · rw [get_set_other (by decide)]; exact get_set_half rfl (by decide)
    · exact get_set_half rfl (by decide)
  · have h64 : 64 ≤ front := Nat.le_of_dvd (Nat.pos_of_ne_zero h0) hf
    have hfar : ∀ f, mallocElem.get f (padElem s.mem c.pos (c.pos + front) n front) c.pos =
        mallocElem.get f (mallocElem.set .pad
          (mallocElem.set .state s.mem c.pos ElemState.busy.val) c.pos front) c.pos := by
      intro f
      simp only [padElem, if_pos (Nat.pos_of_ne_zero h0)]
      rw [get_set_apart (by omega), get_set_apart (by omega), get_set_apart (by omega)]
    refine ⟨?_, ?_, ?_, ?_, ?_, ?_, fun _ => ⟨?_, ?_⟩⟩
    · rw [hfar, get_set_other (by decide), get_set_other (by decide)]; exact hdr.heap
    · rw [hfar, get_set_other (by decide), get_set_other (by decide)]; exact hdr.ms
    · rw [hfar, get_set_other (by decide), get_set_other (by decide)]; exact hdr.prev
    · rw [hfar, get_set_other (by decide), get_set_other (by decide)]; exact hdr.size
    · rw [hfar, get_set_other (by decide)]; exact get_set_half rfl (by decide)
    · rw [hfar]; exact get_set_half rfl (by omega)
    · simp only [padElem, if_pos (Nat.pos_of_ne_zero h0)]
      rw [get_set_other (by decide)]; exact get_set_half rfl (by decide)
    · simp only [padElem, if_pos (Nat.pos_of_ne_zero h0)]
      rw [get_set_other (by decide), get_set_other (by decide)]; exact get_set_half rfl (by omega)

/-- The element in front stays free: split, mark the second part busy, list the first. -/
def carveElem (s : HeapState) (elem front : Nat) : HeapState :=
  mallocElemFreeListInsert (s.setMem (mallocElem.set .state (splitElem s.mem elem (elem + front))
    (elem + front) ElemState.busy.val)) elem

theorem carveElem_rep {k : Nat} (h : HeapRep s (c.plug [⟨front + k, .detached⟩]))
    (hf : (Elem.mk front .detached).OK) (hk : (Elem.mk k .detached).OK) :
    HeapRep (carveElem s c.pos front) (c.plug [⟨front, .free⟩, ⟨k, .busy 0⟩]) := by
  have hfl := hf.le
  have hkl := hk.le
  have htop := h.top
  simp only [total_cons, total_nil] at hfl hkl htop
  have hsplit := h.split (by decide) hf hk
  have hpad : mallocElem.get .pad (splitElem s.mem c.pos (c.pos + front)) (c.pos + front) = 0 := by
    have hheap : c.heap < 2 ^ 64 := h.single_hdr.heap ▸ get_lt_word rfl
    have hms : c.ms < 2 ^ 64 := h.single_hdr.ms ▸ get_lt_word rfl
    rw [h.splitElem_eq (by omega), get_set_apart (by omega), get_set_apart (by omega),
      get_set_other (by decide)]
    exact (get_init hheap hms (show k < 2 ^ 64 by omega)).2.2.2.2.2
  rw [← c.plug_afterElem] at hsplit
  have hdr := hsplit.single_hdr
  simp only [Focus.pos_afterElem, Focus.heap_afterElem, Focus.ms_afterElem, Focus.prev_afterElem,
    HeapState.setMem_mem] at hdr
  have hok : (Elem.mk k (.busy 0)).OK :=
    ⟨hk.1, hk.2.1, Nat.dvd_zero 64, by simpa using hkl, by decide⟩
  let m' := mallocElem.set .state (splitElem s.mem c.pos (c.pos + front)) (c.pos + front)
    ElemState.busy.val
  have hdr' : HdrRep m' c.heap c.ms c.pos (c.pos + front) ⟨k, .busy 0⟩ :=
    ⟨(get_set_other (by decide) _ _ _).trans hdr.heap,
      (get_set_other (by decide) _ _ _).trans hdr.ms,
      (get_set_other (by decide) _ _ _).trans hdr.prev,
      (get_set_other (by decide) _ _ _).trans hdr.size,
      get_set_half rfl (by decide), (get_set_other (by decide) _ _ _).trans hpad,
      fun hne => absurd rfl hne⟩
  have hbusy : HeapRep (s.setMem m') ((c.afterElem ⟨front, .detached⟩).plug [⟨k, .busy 0⟩]) :=
    hsplit.setBusy hok (fun x hx => set_apart (by simp only [Focus.pos_afterElem] at hx; omega))
      (by simpa using hdr')
  rw [c.plug_afterElem, show ([⟨front, .detached⟩, ⟨k, .busy 0⟩] : List Elem) =
    [⟨front, .detached⟩] ++ [⟨k, .busy 0⟩] from rfl, ← c.plug_beforeElems] at hbusy
  have hins := hbusy.insert (by decide)
  rw [c.plug_beforeElems] at hins
  exact hins

theorem carveElem_keep {k : Nat} (h : HeapRep s (c.plug [⟨front + k, .detached⟩])) (hk : 0 < k)
    {x : Nat} (h₁ : x < c.pos ∨ c.pos + 64 ≤ x)
    (h₂ : x < c.pos + front ∨ c.pos + front + 64 ≤ x)
    (h₃ : x < c.pos + front + k + 8 ∨ c.pos + front + k + 16 ≤ x) :
    (carveElem s c.pos front).mem x = s.mem x :=
  (insert_keep (by omega)).trans
    ((set_apart h₂).trans (h.splitElem_keep hk (by omega) h₂ h₃))

theorem sameCounts_carveElem (s : HeapState) (e front : Nat) : SameCounts s (carveElem s e front) :=
  (sameCounts_setMem s _).trans (sameCounts_insert _ _)

end

/-! ## `malloc_elem_alloc` -/

section

variable {s : HeapState} {c : Focus} {n front size align bound : Nat}

/-- The padding branch of the code, its header reads resolved. -/
theorem padElem_eq {m : Mem} {elem kept : Nat} (hsize : mallocElem.get .size m elem = kept)
    (hk : kept < 2 ^ 64) (hfk : front ≤ kept) (hlt : front < 128) (hf : 64 ∣ front) :
    (let m := mallocElem.set .state m elem ElemState.busy.val
     let m := mallocElem.set .pad m elem front
     if mallocElem.get .pad m elem > 0 then
       let m := mallocElem.set .pad m (elem + front) (mallocElem.get .pad m elem)
       let m := mallocElem.set .state m (elem + front) ElemState.pad.val
       mallocElem.set .size m (elem + front)
         (Word.sub 64 (mallocElem.get .size m elem) (mallocElem.get .pad m elem))
     else m) = padElem m elem (elem + front) kept front := by
  have hpad : ∀ m : Mem, mallocElem.get .pad (mallocElem.set .pad m elem front) elem = front :=
    fun _ => get_set_half rfl (by omega)
  simp only [hpad, padElem]
  rcases Nat.eq_zero_or_pos front with h0 | hpos
  · rw [h0, if_neg (Nat.lt_irrefl 0), if_neg (Nat.lt_irrefl 0)]
  · have h64 : 64 ≤ front := Nat.le_of_dvd hpos hf
    rw [if_pos hpos, if_pos hpos, get_set_apart (f := .size) (by omega),
      get_set_apart (f := .size) (by omega), get_set_other (f := .size) (by decide),
      get_set_other (f := .size) (by decide), hsize, get_set_apart (by omega),
      get_set_apart (by omega), hpad, Word.sub_eq hfk hk]

/-- The state `malloc_elem_alloc` leaves, by its parts. -/
theorem mallocElemAlloc_eq (h : HeapRep s (c.plug [⟨n, .free⟩]))
    (hp : elemStartPt c.pos n size align bound = c.pos + front) (hle : front + size + 64 ≤ n)
    (hf : 64 ∣ front) (hs : 64 ∣ size) :
    mallocElemAlloc s c.pos size align bound =
      (let s := giveBack (elemFreeListRemove s c.pos) c.pos n front size
       if front < 128 then
         s.setMem (padElem s.mem c.pos (c.pos + front) (keptSize n front size) front)
       else carveElem s c.pos front, c.pos + front) := by
  have htop := h.top
  have hsz : s.elem .size c.pos = n := h.single_hdr.size
  have hkept : mallocElem.get .size (giveBack (elemFreeListRemove s c.pos) c.pos n front size).mem
      c.pos = keptSize n front size := (giveBack_rep h.remove hle hf hs).single_hdr.size
  have hkle := le_keptSize hle
  simp only [total_cons, total_nil] at htop
  have hold : Word.sub 64 (c.pos + front) c.pos = front := by
    rw [Word.sub_eq (by omega) (by omega)]; omega
  have htr : Word.sub 64 (Word.sub 64 (Word.sub 64 n front) size) 64 = trailer n front size := by
    rw [Word.sub_eq (a := n) (by omega) (by omega), Word.sub_eq (a := n - front) (by omega) (by omega),
      Word.sub_eq (by omega) (by omega)]
    rfl
  have hnew : 128 < trailer n front size →
      rtePtrAdd (c.pos + front) (Word.add 64 size 64) = c.pos + keptSize n front size := by
    intro ht
    rw [Word.add_eq (by omega), rtePtrAdd_eq (by omega), keptSize, if_pos ht]
    omega
  have hgive : (if trailer n front size > 64 + 0 + 64 then
        mallocElemFreeListInsert ((elemFreeListRemove s c.pos).setMem
          (splitElem (elemFreeListRemove s c.pos).mem c.pos
            (rtePtrAdd (c.pos + front) (Word.add 64 size 64))))
          (rtePtrAdd (c.pos + front) (Word.add 64 size 64))
      else elemFreeListRemove s c.pos) = giveBack (elemFreeListRemove s c.pos) c.pos n front size := by
    unfold giveBack
    by_cases ht : 128 < trailer n front size
    · rw [if_pos ht, if_pos (by omega), hnew ht]
    · rw [if_neg ht, if_neg (by omega)]
  simp only [mallocElemAlloc, hsz, hp, mallocElemOverhead, mallocElemHeaderLen, mallocElemTrailerLen,
    minDataSize, rteCacheLineSize, hold, Nat.add_zero, htr] at hgive ⊢
  rw [hgive]
  by_cases hlt : front < 128
  · rw [if_pos hlt, if_pos hlt]
    exact congrArg (fun m => ((giveBack (elemFreeListRemove s c.pos) c.pos n front size).setMem m,
      c.pos + front)) (padElem_eq hkept (by omega) (by omega) hlt hf)
  · rw [if_neg hlt, if_neg hlt, carveElem]

/-- **`malloc_elem_alloc` on arenas.** -/
theorem HeapRep.alloc (h : HeapRep s (c.plug [⟨n, .free⟩]))
    (hp : elemStartPt c.pos n size align bound = c.pos + front) (hle : front + size + 64 ≤ n)
    (hf : 64 ∣ front) (hs : 64 ∣ size) :
    HeapRep (mallocElemAlloc s c.pos size align bound).1 (c.plug (allocElems n front size)) ∧
      (mallocElemAlloc s c.pos size align bound).2 = c.pos + front ∧
      SameCounts s (mallocElemAlloc s c.pos size align bound).1 := by
  have hn := h.remove.gap_ok _ List.mem_cons_self
  have hkle := le_keptSize hle
  have hkd := keptSize_dvd hn.dvd hf hs
  have hgive := giveBack_rep h.remove hle hf hs
  have hcounts := (sameCounts_remove s c.pos).trans
    (sameCounts_giveBack (elemFreeListRemove s c.pos) c.pos n front size)
  rw [mallocElemAlloc_eq h hp hle hf hs]
  refine ⟨?_, rfl, ?_⟩
  · unfold allocElems
    rw [← c.plug_beforeElems]
    by_cases hlt : front < 128
    · rw [if_pos hlt, if_pos hlt]
      exact padElem_rep hgive hf hlt (by omega)
    · rw [if_neg hlt, if_neg hlt]
      have hsum : front + (keptSize n front size - front) = keptSize n front size := by omega
      refine carveElem_rep (c := c.beforeElems (backElems n front size)) ?_
        ⟨hf, by simp only; omega, trivial⟩
        ⟨(Nat.dvd_add_right hf).mp (by rw [hsum]; exact hkd), by simp only; omega, trivial⟩
      rw [hsum]
      exact hgive
  · simp only
    split_ifs
    · exact hcounts.trans (sameCounts_setMem _ _)
    · exact hcounts.trans (sameCounts_carveElem _ _ _)

/-- What `malloc_elem_alloc` writes: the headers of the elements it makes, and one `prev` field. -/
theorem HeapRep.alloc_keep (h : HeapRep s (c.plug [⟨n, .free⟩]))
    (hp : elemStartPt c.pos n size align bound = c.pos + front) (hle : front + size + 64 ≤ n)
    (hf : 64 ∣ front) (hs : 64 ∣ size) {x : Nat} (h₁ : x < c.pos ∨ c.pos + 64 ≤ x)
    (h₂ : x < c.pos + front ∨ c.pos + front + 64 ≤ x)
    (h₃ : 128 < trailer n front size →
      x < c.pos + front + size + 64 ∨ c.pos + front + size + 128 ≤ x)
    (h₄ : x < c.pos + n + 8 ∨ c.pos + n + 16 ≤ x) :
    (mallocElemAlloc s c.pos size align bound).1.mem x = s.mem x := by
  have hgive := giveBack_rep h.remove hle hf hs
  have hkeep : (giveBack (elemFreeListRemove s c.pos) c.pos n front size).mem x = s.mem x :=
    giveBack_keep h.remove hle h₁ h₃ h₄
  have hkle := le_keptSize hle
  rw [mallocElemAlloc_eq h hp hle hf hs]
  simp only
  split_ifs with hlt
  · exact (padElem_keep h₁ h₂).trans hkeep
  · have hsum : front + (keptSize n front size - front) = keptSize n front size := by omega
    refine (carveElem_keep (c := c.beforeElems (backElems n front size))
      (k := keptSize n front size - front) (by rw [hsum]; exact hgive) (by omega) h₁ h₂ ?_).trans hkeep
    simp only [Focus.pos_beforeElems]
    by_cases ht : 128 < trailer n front size
    · have := h₃ ht
      rw [keptSize, if_pos ht] at *
      omega
    · rw [keptSize, if_neg ht] at *
      omega

end

end RteDemo
