import RteDemo.Malloc.HeapRep

/-!
# The allocator's primitives as steps on arenas

Taking an element off its free list, putting one on, splitting, joining, marking busy and
clearing: each is one rewrite of a gap.
-/

namespace RteDemo

open Bytes Tiling

/-! ## Header fields after a write -/

theorem get_set_apart {f g : ElemField} {m : Mem} {a b v : Nat} (h : a + 64 ≤ b ∨ b + 64 ≤ a) :
    mallocElem.get f (mallocElem.set g m b v) a = mallocElem.get f m a :=
  mallocElem.get_set_far h

theorem get_set_other {f g : ElemField} (h : f ≠ g) (m : Mem) (a v : Nat) :
    mallocElem.get f (mallocElem.set g m a v) a = mallocElem.get f m a :=
  mallocElem.get_set_ne h m a v

/-- An eight-byte field holds what was written to it. -/
theorem get_set_word {f : ElemField} {m : Mem} {a v : Nat} (hf : mallocElem.width f = 8)
    (h : v < 2 ^ 64) : mallocElem.get f (mallocElem.set f m a v) a = v := by
  rw [mallocElem.get_set_self, hf]
  exact Nat.mod_eq_of_lt h

/-- A four-byte field holds what was written to it. -/
theorem get_set_half {f : ElemField} {m : Mem} {a v : Nat} (hf : mallocElem.width f = 4)
    (h : v < 2 ^ 32) : mallocElem.get f (mallocElem.set f m a v) a = v := by
  rw [mallocElem.get_set_self, hf]
  exact Nat.mod_eq_of_lt h

theorem get_lt_word {f : ElemField} {m : Mem} {a : Nat} (hf : mallocElem.width f = 8) :
    mallocElem.get f m a < 2 ^ 64 := by
  have h := mallocElem.get_lt f m a
  rwa [hf] at h

theorem set_apart {f : ElemField} {m : Mem} {a v x : Nat} (h : x < a ∨ a + 64 ≤ x) :
    mallocElem.set f m a v x = m x :=
  mallocElem.set_out_record h

theorem get_init_apart {f : ElemField} {m : Mem} {a b heap ms size : Nat}
    (h : a + 64 ≤ b ∨ b + 64 ≤ a) :
    mallocElem.get f (mallocElemInit m b heap ms size) a = mallocElem.get f m a := by
  simp only [mallocElemInit, get_set_apart h]

theorem init_apart {m : Mem} {a heap ms size x : Nat} (h : x < a ∨ a + 64 ≤ x) :
    mallocElemInit m a heap ms size x = m x := by
  simp only [mallocElemInit, set_apart h]

/-- The header written by `malloc_elem_init`. -/
theorem get_init {m : Mem} {a heap ms size : Nat} (hh : heap < 2 ^ 64) (hm : ms < 2 ^ 64)
    (hs : size < 2 ^ 64) :
    mallocElem.get .heap (mallocElemInit m a heap ms size) a = heap ∧
      mallocElem.get .ms (mallocElemInit m a heap ms size) a = ms ∧
      mallocElem.get .prev (mallocElemInit m a heap ms size) a = 0 ∧
      mallocElem.get .size (mallocElemInit m a heap ms size) a = size ∧
      mallocElem.get .state (mallocElemInit m a heap ms size) a = ElemState.free.val ∧
      mallocElem.get .pad (mallocElemInit m a heap ms size) a = 0 := by
  refine ⟨?_, ?_, ?_, ?_, ?_, ?_⟩ <;>
    simp (disch := first | decide | omega) only [mallocElemInit, get_set_other, get_set_word, get_set_half,
      ElemState.val]

/-! ## Rewriting one gap -/

/-- What the header behind a gap says about its predecessor. -/
theorem Tail.get_prev {m : Mem} {heap ms prev a : Nat} {L : List Elem}
    (h : Tail m heap ms prev a L) : mallocElem.get .prev m a = prev := by
  cases L with
  | nil => exact h.2.prev
  | cons e L => exact h.1.1.prev

/-- A rewrite that stays inside the gap. -/
theorem Focus.Rewrites.inside {s : HeapState} {c : Focus} {D D' : List Elem} {m' : Mem}
    (h : HeapRep s (c.plug D)) (hsize : total Elem.size D' = total Elem.size D)
    (hok : ∀ e ∈ D', e.OK)
    (hout : ∀ x, x < c.pos ∨ c.pos + total Elem.size D ≤ x → m' x = s.mem x)
    (hlast : lastStart Elem.size c.prev c.pos D' = lastStart Elem.size c.prev c.pos D)
    (hchain : Chain m' c.heap c.ms c.prev c.pos D') : c.Rewrites D D' s.mem m' where
  size := hsize
  ok := hok
  below x hx := hout x (.inl hx)
  behind x hx _ := hout x (.inr hx)
  above x hx := hout x (.inr (by omega))
  next := by
    have hag : Agree s.mem m' (c.pos + total Elem.size D) (c.pos + total Elem.size D + 64) :=
      fun x hx _ => hout x (.inr hx)
    rw [hlast, ← h.right_tail.get_prev]
    exact mallocElem.get_agree hag (by change _ ≤ _ + 8; omega) (by change _ + 16 ≤ _; omega)
  chain := hchain

namespace HeapRep

variable {s : HeapState} {c : Focus} {D D' : List Elem}

/-- A rewrite of the memory alone, among elements that are on no list. -/
theorem rewriteMem {m' : Mem} (h : HeapRep s (c.plug D)) (hw : c.Rewrites D D' s.mem m')
    (hD : ∀ e ∈ D, e.use ≠ .free) (hD' : ∀ e ∈ D', e.use ≠ .free) :
    HeapRep (s.setMem m') (c.plug D') := by
  refine h.rewrite hw fun heap idx => ?_
  have hp := (h.listed heap idx).trans (c.freeAt_plug heap idx D)
  rw [freeAddrs_not_free hD] at hp
  rw [freeAddrs_not_free hD']
  exact hp

/-- The header of the only element in the gap. -/
theorem single_hdr {e : Elem} (h : HeapRep s (c.plug [e])) :
    HdrRep s.mem c.heap c.ms c.prev c.pos e := h.gap_chain.1

theorem remove {n : Nat} (h : HeapRep s (c.plug [⟨n, .free⟩])) :
    HeapRep (elemFreeListRemove s c.pos) (c.plug [⟨n, .detached⟩]) := by
  have hdr := h.single_hdr
  refine h.rewrite (.inside h rfl (fun e he => ?_) (fun _ _ => rfl) rfl ⟨⟨hdr.heap, hdr.ms, hdr.prev,
    hdr.size, hdr.use⟩, trivial⟩) fun heap idx => ?_
  · have hok := h.gap_ok _ List.mem_cons_self
    rw [List.mem_singleton.mp he]
    exact ⟨hok.1, hok.2.1, trivial⟩
  · have hp := (h.listed heap idx).trans (c.freeAt_plug heap idx _)
    have hnot := h.pos_not_mem_rest (List.cons_ne_nil _ _) heap idx
    rw [freeAddrs_not_free (L := [⟨n, .detached⟩]) (by simp), ite_self, List.nil_append]
    have hheap : s.elem .heap c.pos = c.heap := hdr.heap
    by_cases hh : c.heap = heap
    · subst hh
      simp only [elemFreeListRemove, HeapState.modifyHeap, hheap, Function.update_self]
      rw [if_pos rfl, freeAddrs_single_free] at hp
      have he := hp.erase c.pos
      split_ifs at he with hi
      · simpa using he
      · rwa [List.nil_append, List.erase_of_not_mem hnot] at he
    · simp only [elemFreeListRemove, HeapState.modifyHeap, hheap,
        Function.update_of_ne (Ne.symm hh)]
      rwa [if_neg hh, List.nil_append] at hp

theorem insert {n : Nat} {u : Use} (h : HeapRep s (c.plug [⟨n, u⟩])) (hu : u ≠ .free) :
    HeapRep (mallocElemFreeListInsert s c.pos) (c.plug [⟨n, .free⟩]) := by
  have hdr := h.single_hdr
  have hok := h.gap_ok _ List.mem_cons_self
  have hn : 64 ≤ n := hok.le
  refine h.rewrite (.inside h rfl (fun e he => ?_) (fun x hx => ?_) rfl ⟨⟨?_, ?_, ?_, ?_, ?_⟩,
    trivial⟩) fun heap idx => ?_
  · rw [List.mem_singleton.mp he]
    exact ⟨hok.1, hok.2.1, trivial⟩
  · simp only [total_cons, total_nil] at hx
    exact set_apart (by omega)
  · exact (get_set_other (by decide) _ _ _).trans hdr.heap
  · exact (get_set_other (by decide) _ _ _).trans hdr.ms
  · exact (get_set_other (by decide) _ _ _).trans hdr.prev
  · exact (get_set_other (by decide) _ _ _).trans hdr.size
  · exact get_set_half rfl (by decide)
  · have hp := (h.listed heap idx).trans (c.freeAt_plug heap idx _)
    rw [freeAddrs_not_free (L := [⟨n, u⟩]) (by simpa using hu), ite_self, List.nil_append] at hp
    have hheap : mallocElem.get .heap (mallocElem.set .state s.mem c.pos ElemState.free.val) c.pos =
        c.heap := (get_set_other (by decide) _ _ _).trans hdr.heap
    have hidx : Word.sub 64 (mallocElem.get .size s.mem c.pos) 64 = n - 64 := by
      rw [hdr.size]
      have htop := h.top
      simp only [total_cons, total_nil] at htop
      exact Word.sub_eq hn (by simp only; omega)
    simp only [mallocElemFreeListInsert, HeapState.modifyHeap, HeapState.elem,
      HeapState.setMem_mem, hheap, mallocElemHeaderLen, hidx]
    by_cases hh : c.heap = heap
    · subst hh
      rw [Function.update_self, if_pos rfl, freeAddrs_single_free]
      by_cases hi : mallocElemFreeListIndex (n - 64) = idx
      · subst hi
        simpa using hp.cons c.pos
      · simpa [Function.update_of_ne (Ne.symm hi), hi] using hp
    · rw [Function.update_of_ne (Ne.symm hh), if_neg hh]
      exact hp

/-! ## Splitting and joining -/

theorem splitElem_eq {n k : Nat} {u : Use} (h : HeapRep s (c.plug [⟨n + k, u⟩])) (hk : 0 < k) :
    splitElem s.mem c.pos (c.pos + n) =
      mallocElem.set .size (mallocElem.set .prev (mallocElem.set .prev
        (mallocElemInit s.mem (c.pos + n) c.heap c.ms k) (c.pos + n) c.pos)
        (c.pos + n + k) (c.pos + n)) c.pos n := by
  have hdr := h.single_hdr
  have htop := h.top
  simp only [total_cons, total_nil] at htop
  have hnext : rtePtrAdd c.pos (n + k) = c.pos + n + k := by
    rw [rtePtrAdd_eq (by omega), Nat.add_assoc]
  have hold : Word.sub 64 (c.pos + n) c.pos = n := by
    rw [Word.sub_eq (by omega) (by omega)]; omega
  have hnew : Word.sub 64 (n + k) n = k := by
    rw [Word.sub_eq (by omega) (by omega)]; omega
  simp only [splitElem, hdr.size, hdr.heap, hdr.ms, hnext, hold, hnew]

/-- Bytes outside the two headers and the `prev` field behind them stay. -/
theorem splitElem_keep {n k : Nat} {u : Use} (h : HeapRep s (c.plug [⟨n + k, u⟩])) (hk : 0 < k)
    {x : Nat} (h₁ : x < c.pos + 48 ∨ c.pos + 56 ≤ x) (h₂ : x < c.pos + n ∨ c.pos + n + 64 ≤ x)
    (h₃ : x < c.pos + n + k + 8 ∨ c.pos + n + k + 16 ≤ x) :
    splitElem s.mem c.pos (c.pos + n) x = s.mem x := by
  rw [h.splitElem_eq hk, mallocElem.set_out (by change x < _ + 48 ∨ _ + 48 + 8 ≤ x; omega),
    mallocElem.set_out (by change x < _ + 8 ∨ _ + 8 + 8 ≤ x; omega), set_apart h₂, init_apart h₂]

theorem split {n k : Nat} {u : Use} (h : HeapRep s (c.plug [⟨n + k, u⟩])) (hu : u ≠ .free)
    (hn : (Elem.mk n u).OK) (hk : (Elem.mk k .detached).OK) :
    HeapRep (s.setMem (splitElem s.mem c.pos (c.pos + n)))
      (c.plug [⟨n, u⟩, ⟨k, .detached⟩]) := by
  have hdr := h.single_hdr
  have htop := h.top
  have hn64 := hn.le
  have hk64 := hk.le
  simp only [total_cons, total_nil] at htop hn64 hk64
  have hsplit := h.splitElem_eq (show 0 < k by omega)
  have hkeep := fun x => h.splitElem_keep (x := x) (show 0 < k by omega)
  have hheap : c.heap < 2 ^ 64 := hdr.heap ▸ get_lt_word rfl
  have hms : c.ms < 2 ^ 64 := hdr.ms ▸ get_lt_word rfl
  obtain ⟨ih, im, -, is, ist, -⟩ := get_init (m := s.mem) (a := c.pos + n) hheap hms
    (show k < 2 ^ 64 by omega)
  have hnewElem : ∀ f, mallocElem.get f (splitElem s.mem c.pos (c.pos + n)) (c.pos + n) =
      mallocElem.get f (mallocElem.set .prev (mallocElemInit s.mem (c.pos + n) c.heap c.ms k)
        (c.pos + n) c.pos) (c.pos + n) := by
    intro f
    rw [hsplit, get_set_apart (by omega), get_set_apart (by omega)]
  refine h.rewriteMem ⟨?_, ?_, ?_, ?_, ?_, ?_, ?_⟩ (by simpa using hu) (by simpa using hu)
  · simp
  · simpa using ⟨hn, hk⟩
  · exact fun x hx => hkeep x (by omega) (by omega) (by omega)
  · intro x hx hx'
    simp only [total_cons, total_nil] at hx hx'
    exact hkeep x (by omega) (by omega) (by omega)
  · intro x hx
    simp only [total_cons, total_nil] at hx
    exact hkeep x (by omega) (by omega) (by omega)
  · simp only [total_cons, total_nil, Nat.add_zero, ← Nat.add_assoc, lastStart_cons, lastStart_nil]
    rw [hsplit, get_set_apart (by omega), get_set_word rfl (by omega)]
  · refine ⟨?_, ⟨?_, ?_, ?_, ?_, ?_⟩, trivial⟩
    · refine HdrRep.resize hn hdr (fun x hx hx' => hkeep x (by omega) (by omega) (by omega))
        (fun x hx hx' => hkeep x (by omega) (by omega) (by omega)) ?_
      rw [hsplit, get_set_word rfl (by omega)]
    · exact (hnewElem _).trans ((get_set_other (by decide) _ _ _).trans ih)
    · exact (hnewElem _).trans ((get_set_other (by decide) _ _ _).trans im)
    · exact (hnewElem _).trans (get_set_word rfl (by omega))
    · exact (hnewElem _).trans ((get_set_other (by decide) _ _ _).trans is)
    · exact (hnewElem _).trans ((get_set_other (by decide) _ _ _).trans ist)

theorem joinElem_eq {n k : Nat} {u v : Use} (h : HeapRep s (c.plug [⟨n, u⟩, ⟨k, v⟩])) :
    joinElem s.mem c.pos (c.pos + n) =
      mallocElem.set .prev (mallocElem.set .size s.mem c.pos (n + k)) (c.pos + n + k) c.pos := by
  obtain ⟨hdr, hdr', -⟩ := h.gap_chain
  have htop := h.top
  simp only [total_cons, total_nil] at htop
  simp only [joinElem, hdr.size, hdr'.size]
  rw [rtePtrAdd_eq (by omega), Word.add_eq (by omega)]

/-- Bytes outside the size of the first element and the `prev` field behind the second stay. -/
theorem joinElem_keep {n k : Nat} {u v : Use} (h : HeapRep s (c.plug [⟨n, u⟩, ⟨k, v⟩]))
    {x : Nat} (h₁ : x < c.pos + 48 ∨ c.pos + 56 ≤ x)
    (h₂ : x < c.pos + n + k + 8 ∨ c.pos + n + k + 16 ≤ x) :
    joinElem s.mem c.pos (c.pos + n) x = s.mem x := by
  rw [h.joinElem_eq, mallocElem.set_out (by change x < _ + 8 ∨ _ + 8 + 8 ≤ x; omega),
    mallocElem.set_out (by change x < _ + 48 ∨ _ + 48 + 8 ≤ x; omega)]

theorem join {n k : Nat} {u v : Use} (h : HeapRep s (c.plug [⟨n, u⟩, ⟨k, v⟩])) (hu : u ≠ .free)
    (hv : v ≠ .free) :
    HeapRep (s.setMem (joinElem s.mem c.pos (c.pos + n))) (c.plug [⟨n + k, u⟩]) := by
  obtain ⟨hdr, hdr', -⟩ := h.gap_chain
  have htop := h.top
  have hn := h.gap_ok ⟨n, u⟩ (by simp)
  have hk := h.gap_ok ⟨k, v⟩ (by simp)
  have hn64 := hn.le
  have hk64 := hk.le
  simp only [total_cons, total_nil] at htop hn64 hk64
  have hjoin := h.joinElem_eq
  have hkeep := fun x => h.joinElem_keep (x := x)
  have hok : (Elem.mk (n + k) u).OK := by
    refine ⟨Nat.dvd_add hn.dvd hk.dvd, by simp only; omega, ?_⟩
    cases u with
    | busy pad => exact ⟨hn.2.2.1, by have := hn.2.2.2.1; simp only at this ⊢; omega, hn.2.2.2.2⟩
    | _ => trivial
  refine h.rewriteMem ⟨?_, ?_, ?_, ?_, ?_, ?_, ?_⟩ (by simpa using ⟨hu, hv⟩) (by simpa using hu)
  · simp
  · simpa using hok
  · exact fun x hx => hkeep x (by omega) (by omega)
  · intro x hx hx'
    simp only [total_cons, total_nil] at hx hx'
    exact hkeep x (by omega) (by omega)
  · intro x hx
    simp only [total_cons, total_nil] at hx
    exact hkeep x (by omega) (by omega)
  · simp only [total_cons, total_nil, Nat.add_zero, ← Nat.add_assoc, lastStart_cons, lastStart_nil]
    rw [hjoin, get_set_word rfl (by omega)]
  · refine ⟨HdrRep.resize hok hdr (fun x hx hx' => hkeep x (by omega) (by omega))
      (fun x hx hx' => hkeep x (by omega) (by omega)) ?_, trivial⟩
    rw [hjoin, get_set_apart (by omega), get_set_word rfl (by omega)]

/-! ## Marking and clearing -/

/-- A detached element becomes busy. -/
theorem setBusy {n : Nat} {m' : Mem} (h : HeapRep s (c.plug [⟨n, .detached⟩])) {pad : Nat}
    (hok : (Elem.mk n (.busy pad)).OK)
    (hout : ∀ x, x < c.pos ∨ c.pos + n ≤ x → m' x = s.mem x)
    (hdr : HdrRep m' c.heap c.ms c.prev c.pos ⟨n, .busy pad⟩) :
    HeapRep (s.setMem m') (c.plug [⟨n, .busy pad⟩]) :=
  h.rewriteMem (.inside h rfl (by simpa using hok) (by simpa using hout) rfl ⟨hdr, trivial⟩)
    (by simp) (by simp)

/-- Bytes inside a free element change. -/
theorem clear {n : Nat} {m' : Mem} (h : HeapRep s (c.plug [⟨n, .free⟩]))
    (hout : ∀ x, x < c.pos + 64 ∨ c.pos + n ≤ x → m' x = s.mem x) :
    HeapRep (s.setMem m') (c.plug [⟨n, .free⟩]) := by
  have hok := h.gap_ok _ List.mem_cons_self
  have hn : 64 ≤ n := hok.le
  have hdr := h.single_hdr
  have hag : Agree s.mem m' c.pos (c.pos + 64) := fun x _ hx => hout x (.inl hx)
  refine h.rewrite (.inside h rfl (by simpa using hok) (fun x hx => hout x ?_) rfl ⟨⟨?_, ?_, ?_, ?_,
    ?_⟩, trivial⟩) fun heap idx => (h.listed heap idx).trans (c.freeAt_plug heap idx _)
  · simp only [total_cons, total_nil] at hx
    omega
  · exact (mallocElem.get_congr hag).trans hdr.heap
  · exact (mallocElem.get_congr hag).trans hdr.ms
  · exact (mallocElem.get_congr hag).trans hdr.prev
  · exact (mallocElem.get_congr hag).trans hdr.size
  · exact (mallocElem.get_congr hag).trans hdr.use

end HeapRep

end RteDemo
