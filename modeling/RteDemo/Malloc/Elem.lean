import RteDemo.Common
import RteDemo.Lib.Bytes

/-!
# `malloc_elem.c`: elements in memory

Every element starts with a `struct malloc_elem` header, one cache line long. A pointer to a
heap is the heap's index in `malloc_heaps`, a pointer to a memseg its index in `memseg`.
-/

namespace RteDemo

open Bytes

/-- `enum elem_state` -/
inductive ElemState
  | free
  | busy
  /-- The element is a padding-only header. -/
  | pad
  deriving DecidableEq

/-- The value of the enumeration constant. -/
def ElemState.val : ElemState → Nat
  | free => 0
  | busy => 1
  | pad => 2

/-- The fields of `struct malloc_elem`. -/
inductive ElemField
  | heap
  | prev
  | freeList
  | ms
  | state
  | pad
  | size
  deriving DecidableEq

/-- `struct malloc_elem`, aligned to a cache line. -/
def mallocElem : Layout ElemField where
  size := 64
  off
    | .heap => 0
    | .prev => 8
    | .freeList => 16
    | .ms => 32
    | .state => 40
    | .pad => 44
    | .size => 48
  width
    | .heap => 8
    | .prev => 8
    | .freeList => 16
    | .ms => 8
    | .state => 4
    | .pad => 4
    | .size => 8
  inside f := by cases f <;> decide
  apart f g h := by cases f <;> cases g <;> first | decide | exact absurd rfl h

/-- `MALLOC_ELEM_HEADER_LEN` -/
@[simp] def mallocElemHeaderLen : Nat := 64
/-- `MALLOC_ELEM_TRAILER_LEN` -/
@[simp] def mallocElemTrailerLen : Nat := 0
/-- `MALLOC_ELEM_OVERHEAD` -/
@[simp] def mallocElemOverhead : Nat := mallocElemHeaderLen + mallocElemTrailerLen
/-- `MIN_DATA_SIZE` -/
@[simp] def minDataSize : Nat := rteCacheLineSize

/-- `malloc_elem_init` -/
def mallocElemInit (m : Mem) (elem heap ms size : Nat) : Mem :=
  let m := mallocElem.set .heap m elem heap
  let m := mallocElem.set .ms m elem ms
  let m := mallocElem.set .prev m elem 0
  let m := mallocElem.set .freeList m elem 0
  let m := mallocElem.set .state m elem ElemState.free.val
  let m := mallocElem.set .size m elem size
  mallocElem.set .pad m elem 0

/-- `malloc_elem_mkend`: the end-of-memseg marker, busy so that it is never merged. -/
def mallocElemMkend (m : Mem) (elem prev : Nat) : Mem :=
  let m := mallocElemInit m elem (mallocElem.get .heap m prev) (mallocElem.get .ms m prev) 0
  let m := mallocElem.set .prev m elem prev
  mallocElem.set .state m elem ElemState.busy.val

/-- `elem_start_pt`: where the header of a block of `size` bytes would go in the element at
`elem` of `elemSize` bytes, or `NULL`. The parameter `align` is an `unsigned`. -/
def elemStartPt (elem elemSize size align bound : Nat) : Nat :=
  let bmask := Word.not 64 (Word.sub 64 bound 1)
  let endPt := Word.sub 64 (Word.add 64 elem elemSize) mallocElemTrailerLen
  let newDataStart := rteAlignFloor (Word.sub 64 endPt size) (Word.sub 32 align 1)
  -- the header goes just below the data; below the element it does not fit
  let place (newDataStart : Nat) : Nat :=
    let newElemStart := Word.sub 64 newDataStart mallocElemHeaderLen
    if newElemStart < elem then 0 else newElemStart
  if newDataStart &&& bmask ≠ Word.sub 64 endPt 1 &&& bmask then
    let endPt := rteAlignFloor endPt (Word.sub 64 bound 1)
    let newDataStart := rteAlignFloor (Word.sub 64 endPt size) (Word.sub 32 align 1)
    let endPt := Word.add 64 newDataStart size
    if Word.sub 64 endPt 1 &&& bmask ≠ newDataStart &&& bmask then 0
    else place newDataStart
  else place newDataStart

/-- `malloc_elem_can_hold` -/
def mallocElemCanHold (m : Mem) (elem size align bound : Nat) : Bool :=
  elemStartPt elem (mallocElem.get .size m elem) size align bound != 0

/-- `split_elem` -/
def splitElem (m : Mem) (elem splitPt : Nat) : Mem :=
  let elemSize := mallocElem.get .size m elem
  let nextElem := rtePtrAdd elem elemSize
  let oldElemSize := Word.sub 64 splitPt elem
  let newElemSize := Word.sub 64 elemSize oldElemSize
  let m := mallocElemInit m splitPt (mallocElem.get .heap m elem) (mallocElem.get .ms m elem)
    newElemSize
  let m := mallocElem.set .prev m splitPt elem
  let m := mallocElem.set .prev m nextElem splitPt
  mallocElem.set .size m elem oldElemSize

/-- `join_elem` -/
def joinElem (m : Mem) (elem1 elem2 : Nat) : Mem :=
  let next := rtePtrAdd elem2 (mallocElem.get .size m elem2)
  let m := mallocElem.set .size m elem1
    (Word.add 64 (mallocElem.get .size m elem1) (mallocElem.get .size m elem2))
  mallocElem.set .prev m next elem1

/-- `__builtin_clzl` -/
def builtinClzl (x : Nat) : Nat := 63 - Nat.log2 x

/-- `RTE_HEAP_NUM_FREELISTS` -/
@[simp] def rteHeapNumFreelists : Nat := 13

/-- `malloc_elem_free_list_index` -/
def mallocElemFreeListIndex (size : Nat) : Nat :=
  if size ≤ 2 ^ 8 then 0
  else
    -- the next power of two that is at least `size`
    let log2 := 64 - builtinClzl (size - 1)
    let index := (log2 - 8 + 2 - 1) / 2
    if index ≤ rteHeapNumFreelists - 1 then index else rteHeapNumFreelists - 1

/-- `malloc_elem_from_data` -/
def mallocElemFromData (m : Mem) (data : Nat) : Nat :=
  if data = 0 then 0
  else
    let elem := rtePtrSub data mallocElemHeaderLen
    if elem = 0 then 0
    else if mallocElem.get .state m elem ≠ ElemState.pad.val then elem
    else rtePtrSub elem (mallocElem.get .pad m elem)

end RteDemo
