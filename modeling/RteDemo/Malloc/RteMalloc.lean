import RteDemo.Malloc.Heap

/-!
# `rte_malloc.c`: the public allocator

`HeapState` is the shared configuration; what differs between calling threads is in `EalEnv`. The
`type` argument of the C functions is unused there and left out.
-/

namespace RteDemo

open Bytes

/-- What the calling thread reads of the environment. -/
structure EalEnv where
  /-- `rte_eal_has_hugepages()` -/
  hasHugepages : Bool
  /-- `rte_socket_id()`, an `unsigned` -/
  socketId : Nat

/-- `SOCKET_ID_ANY` -/
@[simp] def socketIdAny : Int := -1

/-- `malloc_get_numa_socket` -/
def mallocGetNumaSocket (env : EalEnv) : Nat := if env.socketId = 2 ^ 32 - 1 then 0 else env.socketId

/-- The loops that try one heap after the other until an allocation succeeds. -/
def tryHeaps (s : HeapState) (size flags align bound : Nat) : List Nat → HeapState × Nat
  | [] => (s, 0)
  | i :: rest =>
    let r := mallocHeapAlloc s i size flags align bound
    if r.2 ≠ 0 then r else tryHeaps r.1 size flags align bound rest

/-- The heaps other than `socket`. -/
def otherHeaps (socket : Nat) : List Nat := (List.range rteMaxNumaNodes).filter (· ≠ socket)

/-- `rte_malloc_socket`, for a socket that is `SOCKET_ID_ANY` or not negative. -/
def rteMallocSocket (env : EalEnv) (s : HeapState) (size align : Nat) (socketArg : Int) :
    HeapState × Nat :=
  if size = 0 ∨ (align ≠ 0 ∧ rteIsPowerOf2 align = false) then (s, 0)
  else
    let socketArg := if env.hasHugepages then socketArg else socketIdAny
    let socket := if socketArg = socketIdAny then mallocGetNumaSocket env else socketArg.toNat
    if socket ≥ rteMaxNumaNodes then (s, 0)
    else
      let align := if align = 0 then 1 else align
      let r := mallocHeapAlloc s socket size 0 align 0
      if r.2 ≠ 0 ∨ socketArg ≠ socketIdAny then r
      else tryHeaps r.1 size 0 align 0 (otherHeaps socket)

/-- `rte_malloc` -/
def rteMalloc (env : EalEnv) (s : HeapState) (size align : Nat) : HeapState × Nat :=
  rteMallocSocket env s size align socketIdAny

/-- `rte_zmalloc_socket` -/
def rteZmallocSocket (env : EalEnv) (s : HeapState) (size align : Nat) (socket : Int) :
    HeapState × Nat := rteMallocSocket env s size align socket

/-- `rte_zmalloc` -/
def rteZmalloc (env : EalEnv) (s : HeapState) (size align : Nat) : HeapState × Nat :=
  rteZmallocSocket env s size align socketIdAny

/-- `rte_calloc_socket` -/
def rteCallocSocket (env : EalEnv) (s : HeapState) (num size align : Nat) (socket : Int) :
    HeapState × Nat := rteZmallocSocket env s (Word.mul 64 num size) align socket

/-- `rte_calloc` -/
def rteCalloc (env : EalEnv) (s : HeapState) (num size align : Nat) : HeapState × Nat :=
  rteZmalloc env s (Word.mul 64 num size) align

/-- `rte_free`; `none` is the panic on an invalid block. -/
def rteFree (s : HeapState) (addr : Nat) : Option HeapState :=
  if addr = 0 then some s
  else
    let r := mallocElemFree s (mallocElemFromData s.mem addr)
    if r.2 < 0 then none else some r.1

/-- `RTE_PTR_ALIGN(ptr, align)` for an `unsigned` alignment. -/
def rtePtrAlign (ptr align : Nat) : Nat :=
  rteAlignFloor (rtePtrAdd ptr (Word.sub 32 align 1)) (Word.sub 32 align 1)

/-- The end of `rte_realloc`: the block moves to `newPtr`. -/
def reallocMove (s : HeapState) (ptr newPtr elem size : Nat) : Option (HeapState × Nat) :=
  -- `old_size` is an `unsigned`
  let oldSize := Word.sub 64 (s.elem .size elem) mallocElemOverhead % 2 ^ 32
  let s := s.setMem (copy s.mem newPtr ptr (if oldSize < size then oldSize else size))
  (rteFree s ptr).map fun s => (s, newPtr)

/-- `rte_realloc`; `none` is a panic. -/
def rteRealloc (env : EalEnv) (s : HeapState) (ptr size align : Nat) : Option (HeapState × Nat) :=
  if ptr = 0 then some (rteMalloc env s size align)
  else
    let elem := mallocElemFromData s.mem ptr
    if elem = 0 then none
    else
      let size := rteCacheLineRoundup 64 size
      let align := rteCacheLineRoundup 32 align
      let r := mallocElemResize s elem size
      -- the resize is only tried when the alignment matches
      if rtePtrAlign ptr align = ptr ∧ r.2 = 0 then some (r.1, ptr)
      else
        let s := if rtePtrAlign ptr align = ptr then r.1 else s
        let r := rteMalloc env s size align
        if r.2 = 0 then some (r.1, 0) else reallocMove r.1 ptr r.2 elem size

/-- `malloc_elem_cookies_ok` without debugging. -/
def mallocElemCookiesOk (elem : Nat) : Bool := elem != 0

/-- `rte_malloc_validate`: the usable size, or `none` for `-1`. -/
def rteMallocValidate (s : HeapState) (ptr : Nat) : Option Nat :=
  let elem := mallocElemFromData s.mem ptr
  if mallocElemCookiesOk elem then
    some (Word.sub 64 (Word.sub 64 (s.elem .size elem) (s.elem .pad elem)) mallocElemOverhead)
  else none

end RteDemo
