import RteDemo.Malloc.Elem
import Mathlib.Logic.Function.Basic

/-!
# `malloc_heap.c` and the stateful half of `malloc_elem.c`

A heap keeps its free elements on size-bucketed lists (`LIST_HEAD`, `LIST_INSERT_HEAD` and
`LIST_REMOVE` of `sys/queue.h`), here lists of element addresses. One `HeapState` holds what the
functions touch: the memseg table, the memory and the heaps of all sockets.
-/

namespace RteDemo

open Bytes

/-- `struct malloc_heap`. `allocCount` is an `unsigned`, `totalSize` a `size_t`. -/
structure MallocHeap where
  freeHead : Nat → List Nat
  allocCount : Nat
  totalSize : Nat

/-- What the allocator reads of a `struct rte_memseg`. -/
structure RteMemseg where
  addr : Nat
  len : Nat
  hugepageSz : Nat
  socketId : Nat
  deriving DecidableEq, Inhabited

structure HeapState where
  memseg : List RteMemseg
  mem : Mem
  mallocHeaps : Nat → MallocHeap

namespace HeapState

def modifyHeap (s : HeapState) (heap : Nat) (f : MallocHeap → MallocHeap) : HeapState :=
  { s with mallocHeaps := Function.update s.mallocHeaps heap (f (s.mallocHeaps heap)) }

def setMem (s : HeapState) (m : Mem) : HeapState := { s with mem := m }

/-- The header field `f` of the element at `elem`. -/
def elem (s : HeapState) (f : ElemField) (elem : Nat) : Nat := mallocElem.get f s.mem elem

@[simp] theorem modifyHeap_mem (s : HeapState) (h : Nat) (f : MallocHeap → MallocHeap) :
    (s.modifyHeap h f).mem = s.mem := rfl
@[simp] theorem modifyHeap_memseg (s : HeapState) (h : Nat) (f : MallocHeap → MallocHeap) :
    (s.modifyHeap h f).memseg = s.memseg := rfl
@[simp] theorem modifyHeap_self (s : HeapState) (h : Nat) (f : MallocHeap → MallocHeap) :
    (s.modifyHeap h f).mallocHeaps h = f (s.mallocHeaps h) := Function.update_self ..
theorem modifyHeap_ne (s : HeapState) {h i : Nat} (hi : i ≠ h) (f : MallocHeap → MallocHeap) :
    (s.modifyHeap h f).mallocHeaps i = s.mallocHeaps i := Function.update_of_ne hi ..
@[simp] theorem setMem_mem (s : HeapState) (m : Mem) : (s.setMem m).mem = m := rfl
@[simp] theorem setMem_memseg (s : HeapState) (m : Mem) : (s.setMem m).memseg = s.memseg := rfl
@[simp] theorem setMem_mallocHeaps (s : HeapState) (m : Mem) :
    (s.setMem m).mallocHeaps = s.mallocHeaps := rfl

end HeapState

/-! ## Free lists -/

/-- `malloc_elem_free_list_insert` -/
def mallocElemFreeListInsert (s : HeapState) (elem : Nat) : HeapState :=
  let idx := mallocElemFreeListIndex (Word.sub 64 (s.elem .size elem) mallocElemHeaderLen)
  let s := s.setMem (mallocElem.set .state s.mem elem ElemState.free.val)
  s.modifyHeap (s.elem .heap elem) fun h =>
    { h with freeHead := Function.update h.freeHead idx (elem :: h.freeHead idx) }

/-- `elem_free_list_remove`. An element is on one list of its heap at most. -/
def elemFreeListRemove (s : HeapState) (elem : Nat) : HeapState :=
  s.modifyHeap (s.elem .heap elem) fun h =>
    { h with freeHead := fun idx => (h.freeHead idx).erase elem }

/-! ## Elements -/

/-- `malloc_elem_alloc` -/
def mallocElemAlloc (s : HeapState) (elem size align bound : Nat) : HeapState × Nat :=
  let newElem := elemStartPt elem (s.elem .size elem) size align bound
  let oldElemSize := Word.sub 64 newElem elem
  let trailerSize := Word.sub 64 (Word.sub 64 (Word.sub 64 (s.elem .size elem) oldElemSize) size)
    mallocElemOverhead
  let s := elemFreeListRemove s elem
  let s :=
    if trailerSize > mallocElemOverhead + minDataSize then
      -- too much free space after the block
      let newFreeElem := rtePtrAdd newElem (Word.add 64 size mallocElemOverhead)
      mallocElemFreeListInsert (s.setMem (splitElem s.mem elem newFreeElem)) newFreeElem
    else s
  if oldElemSize < mallocElemOverhead + minDataSize then
    -- no split: pad the element, with a dummy header that points back to the real one
    let m := mallocElem.set .state s.mem elem ElemState.busy.val
    let m := mallocElem.set .pad m elem oldElemSize
    let m :=
      if mallocElem.get .pad m elem > 0 then
        let m := mallocElem.set .pad m newElem (mallocElem.get .pad m elem)
        let m := mallocElem.set .state m newElem ElemState.pad.val
        mallocElem.set .size m newElem
          (Word.sub 64 (mallocElem.get .size m elem) (mallocElem.get .pad m elem))
      else m
    (s.setMem m, newElem)
  else
    -- the front of the element stays free, on the list of its new size
    let m := splitElem s.mem elem newElem
    let m := mallocElem.set .state m newElem ElemState.busy.val
    (mallocElemFreeListInsert (s.setMem m) elem, newElem)

/-- `malloc_elem_free`, returning `0` or `-1`. -/
def mallocElemFree (s : HeapState) (elem : Nat) : HeapState × Int :=
  if elem = 0 ∨ s.elem .state elem ≠ ElemState.busy.val then (s, -1)
  else
    let sz := Word.sub 64 (Word.sub 64 (s.elem .size elem) mallocElemHeaderLen) mallocElemTrailerLen
    let ptr := rtePtrAdd elem mallocElemHeaderLen
    let next := rtePtrAdd elem (s.elem .size elem)
    let (s, sz) :=
      if s.elem .state next = ElemState.free.val then
        let s := elemFreeListRemove s next
        (s.setMem (joinElem s.mem elem next), Word.add 64 sz mallocElemOverhead)
      else (s, sz)
    let prev := s.elem .prev elem
    let (s, sz, ptr, elem) :=
      if prev ≠ 0 ∧ s.elem .state prev = ElemState.free.val then
        let s := elemFreeListRemove s prev
        (s.setMem (joinElem s.mem prev elem), Word.add 64 sz mallocElemOverhead,
          rtePtrSub ptr mallocElemOverhead, prev)
      else (s, sz, ptr, elem)
    let s := mallocElemFreeListInsert s elem
    let s := s.modifyHeap (s.elem .heap elem) fun h =>
      { h with allocCount := Word.sub 32 h.allocCount 1 }
    (s.setMem (fill s.mem ptr sz 0), 0)

/-- `malloc_elem_resize`, returning `0` or `-1`. -/
def mallocElemResize (s : HeapState) (elem size : Nat) : HeapState × Int :=
  let newSize := Word.add 64 (Word.add 64 size (s.elem .pad elem)) mallocElemOverhead
  if s.elem .size elem ≥ newSize then (s, 0)
  else
    let next := rtePtrAdd elem (s.elem .size elem)
    if s.elem .state next ≠ ElemState.free.val then (s, -1)
    else if Word.add 64 (s.elem .size elem) (s.elem .size next) < newSize then (s, -1)
    else
      let s := elemFreeListRemove s next
      let s := s.setMem (joinElem s.mem elem next)
      if Word.sub 64 (s.elem .size elem) newSize ≥ minDataSize + mallocElemOverhead then
        -- a big block together: cut it down
        let splitPt := rtePtrAdd elem newSize
        let splitPt := rteAlignFloor (rtePtrAdd splitPt (rteCacheLineSize - 1)) (rteCacheLineSize - 1)
        (mallocElemFreeListInsert (s.setMem (splitElem s.mem elem splitPt)) splitPt, 0)
      else (s, 0)

/-! ## Page-size hints -/

/-- `RTE_MEMZONE_SIZE_HINT_ONLY` -/
@[simp] def rteMemzoneSizeHintOnly : Nat := 0x4

/-- The `RTE_MEMZONE_*` flag of a page size: the `switch` of `check_hugepage_sz`. -/
def hugepageFlag (hugepageSz : Nat) : Nat :=
  if hugepageSz = 2 ^ 18 then 0x00010000
  else if hugepageSz = 2 ^ 21 then 0x00000001
  else if hugepageSz = 2 ^ 24 then 0x00000100
  else if hugepageSz = 2 ^ 28 then 0x00020000
  else if hugepageSz = 2 ^ 29 then 0x00040000
  else if hugepageSz = 2 ^ 30 then 0x00000002
  else if hugepageSz = 2 ^ 32 then 0x00080000
  else if hugepageSz = 2 ^ 34 then 0x00000200
  else 0

/-- `check_hugepage_sz` -/
def checkHugepageSz (flags hugepageSz : Nat) : Nat :=
  if flags &&& Word.not 32 rteMemzoneSizeHintOnly = 0 then 1
  else hugepageFlag hugepageSz &&& flags

/-! ## Heaps -/

/-- `malloc_heap_add_memseg` for the memseg at index `ms` of the table. -/
def mallocHeapAddMemseg (s : HeapState) (heap ms : Nat) : HeapState :=
  let seg := s.memseg.getD ms default
  let startElem := seg.addr
  let endElem := rteAlignFloor (rtePtrAdd seg.addr (Word.sub 64 seg.len mallocElemOverhead))
    (rteCacheLineSize - 1)
  let elemSize := Word.sub 64 endElem startElem
  let m := mallocElemInit s.mem startElem heap ms elemSize
  let s := s.setMem (mallocElemMkend m endElem startElem)
  let s := mallocElemFreeListInsert s startElem
  s.modifyHeap heap fun h => { h with totalSize := Word.add 64 h.totalSize elemSize }

/-- The elements `find_suitable_element` visits for a request of `size` bytes, in order. -/
def MallocHeap.candidates (h : MallocHeap) (size : Nat) : List Nat :=
  let idx := mallocElemFreeListIndex size
  (List.range' idx (rteHeapNumFreelists - idx)).flatMap h.freeHead

/-- The search loop of `find_suitable_element`; `altElem` is the first element that can hold the
request on pages that were not asked for. -/
def findSuitableElementLoop (s : HeapState) (size flags align bound : Nat) :
    List Nat → Nat → Nat
  | [], altElem => if altElem ≠ 0 ∧ flags &&& rteMemzoneSizeHintOnly ≠ 0 then altElem else 0
  | elem :: rest, altElem =>
    if mallocElemCanHold s.mem elem size align bound then
      if checkHugepageSz flags (s.memseg.getD (s.elem .ms elem) default).hugepageSz ≠ 0 then elem
      else findSuitableElementLoop s size flags align bound rest
        (if altElem = 0 then elem else altElem)
    else findSuitableElementLoop s size flags align bound rest altElem

/-- `find_suitable_element` -/
def findSuitableElement (s : HeapState) (heap size flags align bound : Nat) : Nat :=
  findSuitableElementLoop s size flags align bound ((s.mallocHeaps heap).candidates size) 0

/-- `malloc_heap_alloc`, returning the data pointer or `NULL`. -/
def mallocHeapAlloc (s : HeapState) (heap size flags align bound : Nat) : HeapState × Nat :=
  let size := rteCacheLineRoundup 64 size
  let align := rteCacheLineRoundup 64 align
  let elem := findSuitableElement s heap size flags align bound
  if elem ≠ 0 then
    let r := mallocElemAlloc s elem size align bound
    let s := r.1.modifyHeap heap fun h => { h with allocCount := Word.add 32 h.allocCount 1 }
    (s, if r.2 = 0 then 0 else rtePtrAdd r.2 mallocElemHeaderLen)
  else (s, 0)

/-- `struct rte_malloc_socket_stats` -/
structure RteMallocSocketStats where
  heapTotalszBytes : Nat
  heapFreeszBytes : Nat
  greatestFreeSize : Nat
  freeCount : Nat
  allocCount : Nat
  heapAllocszBytes : Nat
  deriving DecidableEq

/-- The body of the loop of `malloc_heap_get_stats`. -/
def countFreeElem (s : HeapState) (st : RteMallocSocketStats) (elem : Nat) : RteMallocSocketStats :=
  { st with
    freeCount := Word.add 32 st.freeCount 1
    heapFreeszBytes := Word.add 64 st.heapFreeszBytes (s.elem .size elem)
    greatestFreeSize := if s.elem .size elem > st.greatestFreeSize then s.elem .size elem
      else st.greatestFreeSize }

/-- `malloc_heap_get_stats` -/
def mallocHeapGetStats (s : HeapState) (heap : Nat) : RteMallocSocketStats :=
  let h := s.mallocHeaps heap
  let elems := (List.range rteHeapNumFreelists).flatMap h.freeHead
  let st := elems.foldl (countFreeElem s) ⟨0, 0, 0, 0, 0, 0⟩
  { st with
    heapTotalszBytes := h.totalSize
    heapAllocszBytes := Word.sub 64 h.totalSize st.heapFreeszBytes
    allocCount := h.allocCount }

/-- The loop of `rte_eal_malloc_heap_init` from table index `ms`, with `n` entries left. -/
def rteEalMallocHeapInitLoop (s : HeapState) (ms : Nat) : Nat → HeapState
  | 0 => s
  | n + 1 =>
    let seg := s.memseg.getD ms default
    if seg.len > 0 then
      rteEalMallocHeapInitLoop (mallocHeapAddMemseg s seg.socketId ms) (ms + 1) n
    else s

/-- `rte_eal_malloc_heap_init` -/
def rteEalMallocHeapInit (s : HeapState) : HeapState := rteEalMallocHeapInitLoop s 0 rteMaxMemseg

/-- The shared configuration before the heaps are initialised: zero-filled heaps. -/
def HeapState.boot (memseg : List RteMemseg) (mem : Mem) : HeapState where
  memseg := memseg
  mem := mem
  mallocHeaps := fun _ => ⟨fun _ => [], 0, 0⟩

end RteDemo
