import RteDemo.Malloc.Edit

/-!
# `rte_eal_malloc_heap_init`

Every memseg becomes an arena with one free element, closed by an end marker.
-/

namespace RteDemo

open Bytes Tiling

/-- Add to the total size of one heap. -/
def HeapState.growTotal (s : HeapState) (heap n : Nat) : HeapState :=
  s.modifyHeap heap fun h => { h with totalSize := Word.add 64 h.totalSize n }

theorem HeapState.allocCount_growTotal (s : HeapState) (heap n i : Nat) :
    ((s.growTotal heap n).mallocHeaps i).allocCount = (s.mallocHeaps i).allocCount := by
  unfold growTotal
  by_cases hi : i = heap
  · rw [hi, modifyHeap_self]
  · rw [modifyHeap_ne s hi]

theorem HeapState.totalSize_growTotal (s : HeapState) (heap n i : Nat) :
    ((s.growTotal heap n).mallocHeaps i).totalSize =
      if i = heap then Word.add 64 (s.mallocHeaps i).totalSize n
      else (s.mallocHeaps i).totalSize := by
  unfold growTotal
  split_ifs with hi
  · rw [hi, modifyHeap_self]
  · rw [modifyHeap_ne s hi]

/-- What the EAL promises about the memseg table: at most `RTE_MAX_MEMSEG` disjoint, cache-line
aligned areas of the address space, each long enough for an element and an end marker. -/
structure MemsegsOK (segs : List RteMemseg) : Prop where
  count : segs.length ≤ rteMaxMemseg
  pos : ∀ seg ∈ segs, 0 < seg.addr
  dvd : ∀ seg ∈ segs, 64 ∣ seg.addr
  long : ∀ seg ∈ segs, 128 ≤ seg.len
  top : ∀ seg ∈ segs, seg.addr + seg.len ≤ 2 ^ 64
  socket : ∀ seg ∈ segs, seg.socketId < rteMaxNumaNodes
  disjoint : segs.Pairwise fun a b => a.addr + a.len ≤ b.addr ∨ b.addr + b.len ≤ a.addr

/-- The bytes of a memseg in front of the end marker. -/
def RteMemseg.elemSize (seg : RteMemseg) : Nat := (seg.len - 64) / 64 * 64

/-- The memseg at index `i` of the table before anything is allocated. -/
def segArena (i : Nat) (seg : RteMemseg) : Arena :=
  ⟨seg.socketId, i, seg.addr, [⟨seg.elemSize, .free⟩]⟩

def segArenas (segs : List RteMemseg) : List Arena := segs.mapIdx segArena

theorem segArenas_concat (segs : List RteMemseg) (seg : RteMemseg) :
    segArenas (segs ++ [seg]) = segArenas segs ++ [segArena segs.length seg] := by
  simp [segArenas, List.mapIdx_append]

theorem mem_segArenas {segs : List RteMemseg} {ar : Arena} :
    ar ∈ segArenas segs ↔ ∃ i, ∃ h : i < segs.length, ar = segArena i segs[i] := by
  simp only [segArenas, List.mem_mapIdx, eq_comm]

theorem RteMemseg.elemSize_bounds {seg : RteMemseg} (h : 128 ≤ seg.len) :
    64 ≤ seg.elemSize ∧ seg.elemSize + 64 ≤ seg.len ∧ 64 ∣ seg.elemSize := by
  unfold elemSize
  omega

section

variable {s : HeapState} {ars : List Arena} {seg : RteMemseg} {i : Nat}

/-- The address of the end marker, as the code computes it. -/
theorem endElem_eq (hd : 64 ∣ seg.addr) (hlen : 128 ≤ seg.len) (htop : seg.addr + seg.len ≤ 2 ^ 64)
    (hpos : 0 < seg.addr) :
    rteAlignFloor (rtePtrAdd seg.addr (Word.sub 64 seg.len 64)) 63 = seg.addr + seg.elemSize := by
  rw [Word.sub_eq (by omega) (by omega), rtePtrAdd_eq (by omega), rteAlignFloor_cacheLine (by omega)]
  unfold RteMemseg.elemSize
  omega

/-- The memory after the two headers of a memseg are written. -/
def memsegMem (m : Mem) (heap ms base size : Nat) : Mem :=
  mallocElemMkend (mallocElemInit m base heap ms size) (base + size) base

/-- Only the two headers are written. -/
theorem memsegMem_keep {m : Mem} {heap ms base size x : Nat} (h₁ : x < base ∨ base + 64 ≤ x)
    (h₂ : x < base + size ∨ base + size + 64 ≤ x) : memsegMem m heap ms base size x = m x := by
  simp only [memsegMem, mallocElemMkend]
  rw [set_apart h₂, set_apart h₂, init_apart h₂, init_apart h₁]

/-- The two headers describe one element, not listed yet, and the end marker. -/
theorem memsegMem_tail {m : Mem} {heap ms base size : Nat} (hh : heap < 2 ^ 64) (hm : ms < 2 ^ 64)
    (hs : 64 ≤ size) (htop : base + size < 2 ^ 64) :
    Tail (memsegMem m heap ms base size) heap ms 0 base [⟨size, .detached⟩] := by
  obtain ⟨h1, h2, h3, h4, h5, -⟩ := get_init (m := m) (a := base) hh hm (show size < 2 ^ 64 by omega)
  have hfar : ∀ f, mallocElem.get f (memsegMem m heap ms base size) base =
      mallocElem.get f (mallocElemInit m base heap ms size) base := by
    intro f
    simp only [memsegMem, mallocElemMkend]
    rw [get_set_apart (by omega), get_set_apart (by omega), get_init_apart (by omega)]
  obtain ⟨-, -, -, e4, -, -⟩ := get_init (m := mallocElemInit m base heap ms size) (a := base + size)
    (h1.symm ▸ hh) (h2.symm ▸ hm) (show 0 < 2 ^ 64 by decide)
  refine ⟨⟨⟨(hfar _).trans h1, (hfar _).trans h2, (hfar _).trans h3, (hfar _).trans h4,
    (hfar _).trans h5⟩, trivial⟩, ?_, ?_, ?_⟩
  · simp only [total_cons, total_nil, lastStart_cons, lastStart_nil, Nat.add_zero, memsegMem,
      mallocElemMkend]
    rw [get_set_other (by decide), get_set_word rfl (by omega)]
  · simp only [total_cons, total_nil, Nat.add_zero, memsegMem, mallocElemMkend]
    rw [get_set_other (by decide), get_set_other (by decide)]
    exact e4
  · simp only [total_cons, total_nil, Nat.add_zero, memsegMem, mallocElemMkend]
    exact get_set_half rfl (by decide)

/-- A new arena beside the others. -/
theorem HeapRep.extend {heap ms base size : Nat} (h : HeapRep s ars)
    (hwf : (Frame.mk heap ms base (base + size)).WF) (hsize : (Elem.mk size .detached).OK)
    (hap : ∀ ar ∈ ars, ar.frame.Apart ⟨heap, ms, base, base + size⟩) (hh : heap < 2 ^ 64)
    (hm : ms < 2 ^ 64) :
    HeapRep (s.setMem (memsegMem s.mem heap ms base size))
      (ars ++ [⟨heap, ms, base, [⟨size, .detached⟩]⟩]) := by
  have h64 : 64 ≤ size := hsize.le
  have htop := hwf.top
  have hframe : (Arena.mk heap ms base [⟨size, .detached⟩]).frame = ⟨heap, ms, base, base + size⟩ := by
    simp [Arena.frame, Arena.stop]
  simp only at htop
  refine ⟨fun ar har => ?_, ?_, fun ar har => ?_, fun ar har => ?_, fun i idx => ?_⟩
  · rcases List.mem_append.mp har with har | har
    · exact h.wf ar har
    · rw [List.mem_singleton.mp har, hframe]
      exact hwf
  · rw [List.map_append, List.pairwise_append]
    refine ⟨h.apart, by simp, fun f hf g hg => ?_⟩
    obtain ⟨ar, har, rfl⟩ := List.mem_map.mp hf
    rw [List.map_singleton, List.mem_singleton] at hg
    rw [hg, hframe]
    exact hap ar har
  · rcases List.mem_append.mp har with har | har
    · exact h.ok ar har
    · rw [List.mem_singleton.mp har]
      simpa using hsize
  · rcases List.mem_append.mp har with har | har
    · have hapart := hap ar har
      have hb : ar.base ≤ ar.stop := by unfold Arena.stop; omega
      simp only [Frame.Apart, Arena.frame] at hapart
      have hag : Agree s.mem (memsegMem s.mem heap ms base size) ar.base (ar.stop + 64) :=
        fun x hx hx' => memsegMem_keep (by omega) (by omega)
      obtain ⟨hc, he⟩ := h.rep ar har
      exact ⟨hc.congr (h.ok ar har) (hag.mono (Nat.le_refl _) (Nat.le_add_right _ _)),
        he.agree (hag.mono hb (Nat.le_refl _))⟩
    · rw [List.mem_singleton.mp har]
      exact memsegMem_tail hh hm h64 (by omega)
  · have hfree : freeAt i idx (ars ++ [⟨heap, ms, base, [⟨size, .detached⟩]⟩]) = freeAt i idx ars := by
      simp [freeAt, freeAddrs]
    rw [hfree]
    exact h.listed i idx

/-- The code with its addresses resolved. -/
theorem mallocHeapAddMemseg_eq (hseg : s.memseg.getD i default = seg) (hpos : 0 < seg.addr)
    (hd : 64 ∣ seg.addr) (hlen : 128 ≤ seg.len) (htop : seg.addr + seg.len ≤ 2 ^ 64) (heap : Nat) :
    mallocHeapAddMemseg s heap i =
      (mallocElemFreeListInsert (s.setMem (memsegMem s.mem heap i seg.addr seg.elemSize))
        seg.addr).growTotal heap seg.elemSize := by
  obtain ⟨hs1, hs2, hs3⟩ := RteMemseg.elemSize_bounds hlen
  have hend := endElem_eq hd hlen htop hpos
  have hsub : Word.sub 64 (seg.addr + seg.elemSize) seg.addr = seg.elemSize := by
    rw [Word.sub_eq (by omega) (by omega)]
    omega
  simp only [mallocHeapAddMemseg, hseg, mallocElemOverhead, mallocElemHeaderLen,
    mallocElemTrailerLen, rteCacheLineSize, Nat.add_zero, Nat.reduceSub, hend, hsub]
  rfl

/-- `malloc_heap_add_memseg` adds one arena. -/
theorem HeapRep.addMemseg (h : HeapRep s ars) (hseg : s.memseg.getD i default = seg)
    (hi : i < 2 ^ 64) (hsocket : seg.socketId < 2 ^ 64) (hpos : 0 < seg.addr) (hd : 64 ∣ seg.addr)
    (hlen : 128 ≤ seg.len) (htop : seg.addr + seg.len ≤ 2 ^ 64)
    (hap : ∀ ar ∈ ars, ar.frame.Apart ⟨seg.socketId, i, seg.addr, seg.addr + seg.elemSize⟩) :
    HeapRep (mallocHeapAddMemseg s seg.socketId i) (ars ++ [segArena i seg]) := by
  obtain ⟨hs1, hs2, hs3⟩ := RteMemseg.elemSize_bounds hlen
  have hwf : (Frame.mk seg.socketId i seg.addr (seg.addr + seg.elemSize)).WF :=
    ⟨hpos, hd, by simp only; omega⟩
  have hext := h.extend hwf ⟨hs3, hs1, trivial⟩ hap hsocket hi
  let c : Focus := ⟨ars, seg.socketId, i, seg.addr, [], [], []⟩
  have hins := (show HeapRep _ (c.plug [⟨seg.elemSize, .detached⟩]) from hext).insert (by simp)
  rw [mallocHeapAddMemseg_eq hseg hpos hd hlen htop]
  exact hins.modifyHeap seg.socketId fun _ => rfl

end

/-! ## The whole table -/

/-- The state after the first `k` memsegs were added. -/
structure Added (segs : List RteMemseg) (m : Mem) (k : Nat) (s : HeapState) : Prop where
  memseg : s.memseg = segs
  rep : HeapRep s (segArenas (segs.take k))
  allocCount : ∀ heap, (s.mallocHeaps heap).allocCount = 0
  totalSize : ∀ heap, (s.mallocHeaps heap).totalSize =
    tally heap Elem.size (segArenas (segs.take k)) % 2 ^ 64
  keep : ∀ x, (∀ seg ∈ segs.take k, (x < seg.addr ∨ seg.addr + 64 ≤ x) ∧
    (x < seg.addr + seg.elemSize ∨ seg.addr + seg.elemSize + 64 ≤ x)) → s.mem x = m x

theorem MemsegsOK.apart {segs : List RteMemseg} (h : MemsegsOK segs) {k : Nat} (hk : k < segs.length) :
    ∀ ar ∈ segArenas (segs.take k),
      ar.frame.Apart ⟨segs[k].socketId, k, segs[k].addr, segs[k].addr + segs[k].elemSize⟩ := by
  intro ar har
  obtain ⟨j, hj, rfl⟩ := mem_segArenas.mp har
  rw [List.length_take] at hj
  have hlt : j < k := by omega
  have hdis := List.pairwise_iff_getElem.mp h.disjoint j k (by omega) hk hlt
  have hj' := RteMemseg.elemSize_bounds (h.long segs[j] (List.getElem_mem _))
  have hk' := RteMemseg.elemSize_bounds (h.long segs[k] (List.getElem_mem _))
  simp only [Frame.Apart, Arena.frame, Arena.stop, segArena, List.getElem_take, total_cons, total_nil]
  omega

theorem Added.next {segs : List RteMemseg} {m : Mem} {k : Nat} {s : HeapState} (hok : MemsegsOK segs)
    (h : Added segs m k s) (hk : k < segs.length) :
    Added segs m (k + 1) (mallocHeapAddMemseg s segs[k].socketId k) := by
  have hmem : segs[k] ∈ segs := List.getElem_mem hk
  have hlen := hok.count
  have hsock := hok.socket _ hmem
  simp only [rteMaxMemseg, rteMaxNumaNodes] at hlen hsock
  have hseg : s.memseg.getD k default = segs[k] := by
    rw [h.memseg, List.getD_eq_getElem _ _ hk]
  have hpos := hok.pos _ hmem
  have hd := hok.dvd _ hmem
  have hlong := hok.long _ hmem
  have htop := hok.top _ hmem
  have htake : segs.take (k + 1) = segs.take k ++ [segs[k]] := List.take_succ_eq_append_getElem hk
  have hlk : (segs.take k).length = k := List.length_take_of_le hk.le
  have hcounts := (sameCounts_setMem s (memsegMem s.mem segs[k].socketId k segs[k].addr
    segs[k].elemSize)).trans (sameCounts_insert _ segs[k].addr)
  have hkeep : ∀ x, (x < segs[k].addr ∨ segs[k].addr + 64 ≤ x) → (x < segs[k].addr + segs[k].elemSize ∨
      segs[k].addr + segs[k].elemSize + 64 ≤ x) → (mallocElemFreeListInsert
        (s.setMem (memsegMem s.mem segs[k].socketId k segs[k].addr segs[k].elemSize))
        segs[k].addr).mem x = s.mem x := fun x h₁ h₂ =>
    (insert_keep (by omega)).trans (memsegMem_keep h₁ h₂)
  have hrep := h.rep.addMemseg hseg (by omega) (by omega) hpos hd hlong htop (hok.apart hk)
  rw [mallocHeapAddMemseg_eq hseg hpos hd hlong htop segs[k].socketId] at hrep ⊢
  generalize mallocElemFreeListInsert (s.setMem (memsegMem s.mem segs[k].socketId k segs[k].addr
    segs[k].elemSize)) segs[k].addr = s₁ at hcounts hkeep hrep ⊢
  refine ⟨hcounts.memseg.trans h.memseg, ?_, fun heap => ?_, fun heap => ?_, fun x hx => ?_⟩
  · rw [htake, segArenas_concat, hlk]
    exact hrep
  · rw [HeapState.allocCount_growTotal, hcounts.allocCount, h.allocCount]
  · rw [HeapState.totalSize_growTotal, hcounts.totalSize, h.totalSize, htake, segArenas_concat, hlk,
      tally_append]
    by_cases hh : heap = segs[k].socketId
    · simp [hh, Word.add, tally, segArena]
    · simp [hh, Ne.symm hh, tally, segArena]
  · rw [htake] at hx
    obtain ⟨h₁, h₂⟩ := hx segs[k] (List.mem_append_right _ List.mem_cons_self)
    exact (hkeep x h₁ h₂).trans (h.keep x fun seg hseg => hx seg (List.mem_append_left _ hseg))

theorem Added.loop {segs : List RteMemseg} {m : Mem} (hok : MemsegsOK segs) :
    ∀ {n k : Nat} {s : HeapState}, segs.length ≤ k + n → k ≤ segs.length → Added segs m k s →
      Added segs m segs.length (rteEalMallocHeapInitLoop s k n)
  | 0, k, s, hlen, hk, h => by
    rw [show segs.length = k by omega]
    exact h
  | n + 1, k, s, hlen, hk, h => by
    rcases Nat.lt_or_ge k segs.length with hlt | hge
    · have hlong := hok.long _ (List.getElem_mem hlt)
      have hseg : s.memseg.getD k default = segs[k] := by
        rw [h.memseg, List.getD_eq_getElem _ _ hlt]
      rw [rteEalMallocHeapInitLoop, hseg, if_pos (by omega)]
      exact Added.loop hok (by omega) hlt (h.next hok hlt)
    · have hseg : (s.memseg.getD k default).len = 0 := by
        rw [h.memseg, List.getD_eq_default _ _ hge]
        rfl
      rw [rteEalMallocHeapInitLoop, if_neg (by omega), show segs.length = k by omega]
      exact h

/-- **`rte_eal_malloc_heap_init`** from zeroed heaps adds every memseg of the table. -/
theorem rteEalMallocHeapInit_added {segs : List RteMemseg} (hok : MemsegsOK segs) (m : Mem) :
    Added segs m segs.length (rteEalMallocHeapInit (HeapState.boot segs m)) := by
  refine Added.loop hok hok.count (Nat.zero_le _) ⟨rfl, ⟨?_, ?_, ?_, ?_, ?_⟩, fun _ => rfl, fun _ => rfl,
    fun _ _ => rfl⟩
  · simp [segArenas]
  · simp [segArenas]
  · simp [segArenas]
  · simp [segArenas]
  · intro heap idx
    simp [segArenas, freeAt, HeapState.boot]

end RteDemo
