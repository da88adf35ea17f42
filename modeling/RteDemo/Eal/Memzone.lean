import RteDemo.Eal.Tailqs
import RteDemo.Lib.Reach
import RteDemo.Malloc.RteMalloc

/-!
# Memory zones

`eal_common_memzone.c`: named blocks of the heaps in one table of descriptors. A descriptor is free
when its `addr` is `NULL`; a reservation takes the first free one, so after a free the table has holes.

The names of the reserved zones are different (`TableOK`), so a lookup by name is exact and finds what
`rte_memzone_walk` passes to its callback. `rte_memzone_dump` stops at the first hole
(`views_agree`).
-/

namespace EalMemzone

open RteDemo EalTailqs

/-- `RTE_MAX_MEMZONE` -/
def rteMaxMemzone : Nat := 2560
/-- `RTE_MEMZONE_NAMESIZE` -/
@[simp] def rteMemzoneNamesize : Nat := 32

/-- `struct rte_memzone` -/
structure RteMemzone where
  name : CString
  iova : Nat
  addr : Nat
  len : Nat
  hugepageSz : Nat
  socketId : Nat
  flags : Nat
  memsegId : Nat

/-- A zero-filled descriptor. -/
def RteMemzone.zero : RteMemzone := ⟨CString.empty, 0, 0, 0, 0, 0, 0, 0⟩

abbrev MemzoneTable := Nat → RteMemzone

/-- The parts of `struct rte_mem_config` that hold the zones; `memsegIova` is the `iova` of each
memseg. -/
structure MemConfig where
  heap : HeapState
  memsegIova : Nat → Nat
  memzone : MemzoneTable
  memzoneCnt : Nat

/-- The values of `rte_errno` that a reservation sets. -/
inductive MemzoneErrno
  | enospc
  | enametoolong
  | eexist
  | einval
  | enomem
  deriving DecidableEq

/-! ## The table -/

/-- `memzone_lookup_thread_unsafe`, the index of the zone. -/
def memzoneLookupThreadUnsafe (memzone : MemzoneTable) (name : CString) : Option Nat :=
  (List.range rteMaxMemzone).find? fun i =>
    (memzone i).addr != 0 && strncmpEqual name.bytes (memzone i).name.bytes rteMemzoneNamesize

/-- `get_next_free_memzone` -/
def getNextFreeMemzone (memzone : MemzoneTable) : Option Nat :=
  (List.range rteMaxMemzone).find? fun i => (memzone i).addr == 0

/-- `rte_memzone_lookup` -/
def rteMemzoneLookup (memzone : MemzoneTable) (name : CString) : Option Nat :=
  memzoneLookupThreadUnsafe memzone name

/-- The zones that `rte_memzone_dump` prints, by their index. -/
def rteMemzoneDump (memzone : MemzoneTable) : List Nat :=
  (List.range rteMaxMemzone).takeWhile fun i => (memzone i).addr != 0

/-- The zones that `rte_memzone_walk` passes to its callback. -/
def rteMemzoneWalk (memzone : MemzoneTable) : List Nat :=
  (List.range rteMaxMemzone).filter fun i => (memzone i).addr != 0

/-! ## Reserving and freeing -/

/-- The body of the loop of `find_heap_max_free_elem`: the length so far and `*s`. -/
def maxFreeElemBody (heap : HeapState) (socket : Int) (acc : Nat × Int) (i : Nat) : Nat × Int :=
  if socket ≠ socketIdAny ∧ socket ≠ (i : Int) then acc
  else
    let stats := mallocHeapGetStats heap i
    if stats.greatestFreeSize > acc.1 then (stats.greatestFreeSize, i) else acc

/-- `find_heap_max_free_elem`, with the socket it leaves in `*s`. -/
def findHeapMaxFreeElem (heap : HeapState) (s : Int) (align : Nat) : Nat × Int :=
  let r := (List.range rteMaxNumaNodes).foldl (maxFreeElemBody heap s) (0, s)
  if r.1 < Word.add 64 mallocElemOverhead align then (0, r.2)
  else (Word.sub 64 (Word.sub 64 r.1 mallocElemOverhead) align, r.2)

/-- What the calling thread reads of the environment, and `rte_eal_iova_mode() == RTE_IOVA_VA`. -/
structure MemzoneEnv extends EalEnv where
  iovaVa : Bool

/-- `RTE_BAD_IOVA` -/
def rteBadIova : Nat := 2 ^ 64 - 1

/-- `rte_malloc_virt2iova` -/
def rteMallocVirt2iova (env : MemzoneEnv) (cfg : MemConfig) (addr : Nat) : Nat :=
  let elem := mallocElemFromData cfg.heap.mem addr
  if elem = 0 then rteBadIova
  else
    let ms := cfg.heap.elem .ms elem
    if cfg.memsegIova ms = rteBadIova then rteBadIova
    else if env.iovaVa then addr
    else Word.add 64 (cfg.memsegIova ms) (Word.sub 64 addr (cfg.heap.memseg.getD ms default).addr)

/-- The search over the heaps for a zone. -/
def memzoneAlloc (env : MemzoneEnv) (heap : HeapState) (requestedLen : Nat) (socketId : Int)
    (flags align bound : Nat) : HeapState × Nat :=
  let socket := if socketId = socketIdAny then mallocGetNumaSocket env.toEalEnv else socketId.toNat
  let r := mallocHeapAlloc heap socket requestedLen flags align bound
  if r.2 = 0 ∧ socketId = socketIdAny then
    tryHeaps r.1 requestedLen flags align bound (otherHeaps socket)
  else r

/-- The descriptor of the zone `name` in the block at `mzAddr`. -/
def memzoneOf (env : MemzoneEnv) (cfg : MemConfig) (name : CString) (mzAddr requestedLen : Nat) :
    RteMemzone :=
  let elem := mallocElemFromData cfg.heap.mem mzAddr
  let ms := cfg.heap.elem .ms elem
  let seg := cfg.heap.memseg.getD ms default
  { name := name.trunc (rteMemzoneNamesize - 1)
    iova := rteMallocVirt2iova env cfg mzAddr
    addr := mzAddr
    len := if requestedLen = 0 then Word.sub 64 (cfg.heap.elem .size elem) mallocElemOverhead
      else requestedLen
    hugepageSz := seg.hugepageSz
    socketId := seg.socketId
    flags := 0
    memsegId := ms }

/-- The end of the reservation: a descriptor is filled for the block at `mzAddr`. -/
def memzoneFill (env : MemzoneEnv) (cfg : MemConfig) (name : CString) (mzAddr requestedLen : Nat) :
    MemConfig × Except MemzoneErrno Nat :=
  match getNextFreeMemzone cfg.memzone with
  | none =>
    ({ cfg with heap := (mallocElemFree cfg.heap (mallocElemFromData cfg.heap.mem mzAddr)).1 },
      .error .enospc)
  | some mz =>
    ({ cfg with
        memzone := Function.update cfg.memzone mz (memzoneOf env cfg name mzAddr requestedLen)
        memzoneCnt := Word.add 32 cfg.memzoneCnt 1 }, .ok mz)

/-- The length to ask for and the socket to ask: `len == 0` is a request for `bound` bytes, or for as
much as there is. -/
def memzoneRequest (heap : HeapState) (len : Nat) (socketId : Int) (align bound : Nat) : Nat × Int :=
  if len = 0 then
    if bound ≠ 0 then (bound, socketId) else findHeapMaxFreeElem heap socketId align
  else (max rteCacheLineSize len, socketId)

def MemConfig.setHeap (cfg : MemConfig) (heap : HeapState) : MemConfig := { cfg with heap := heap }

@[simp] theorem MemConfig.setHeap_heap (cfg : MemConfig) (heap : HeapState) : (cfg.setHeap heap).heap = heap := rfl
@[simp] theorem MemConfig.setHeap_memzone (cfg : MemConfig) (heap : HeapState) :
    (cfg.setHeap heap).memzone = cfg.memzone := rfl
@[simp] theorem MemConfig.setHeap_memzoneCnt (cfg : MemConfig) (heap : HeapState) :
    (cfg.setHeap heap).memzoneCnt = cfg.memzoneCnt := rfl

/-- What is done with the block that the heaps gave, if any. -/
def memzoneTake (env : MemzoneEnv) (cfg : MemConfig) (name : CString) (requestedLen : Nat)
    (a : HeapState × Nat) : MemConfig × Except MemzoneErrno Nat :=
  if a.2 = 0 then (cfg.setHeap a.1, .error .enomem)
  else memzoneFill env (cfg.setHeap a.1) name a.2 requestedLen

/-- The reservation of the length and on the socket `r`. -/
def memzoneReserveRequest (env : MemzoneEnv) (cfg : MemConfig) (name : CString) (len flags align bound : Nat)
    (r : Nat × Int) : MemConfig × Except MemzoneErrno Nat :=
  if len = 0 ∧ bound = 0 ∧ r.1 = 0 then (cfg, .error .enomem)
  else memzoneTake env cfg name r.1 (memzoneAlloc env cfg.heap r.1 r.2 flags align bound)

/-- The reservation from the choice of the length on. -/
def memzoneReserveChecked (env : MemzoneEnv) (cfg : MemConfig) (name : CString) (len : Nat)
    (socketId : Int) (flags align bound : Nat) : MemConfig × Except MemzoneErrno Nat :=
  memzoneReserveRequest env cfg name len flags align bound
    (memzoneRequest cfg.heap len (if env.hasHugepages then socketId else socketIdAny) align bound)

/-- `memzone_reserve_aligned_thread_unsafe`: the index of the zone, or `rte_errno`. -/
def memzoneReserveAlignedThreadUnsafe (env : MemzoneEnv) (cfg : MemConfig) (name : CString) (len : Nat)
    (socketId : Int) (flags align bound : Nat) : MemConfig × Except MemzoneErrno Nat :=
  if cfg.memzoneCnt ≥ rteMaxMemzone then (cfg, .error .enospc)
  else if name.length > rteMemzoneNamesize - 1 then (cfg, .error .enametoolong)
  else if memzoneLookupThreadUnsafe cfg.memzone name ≠ none then (cfg, .error .eexist)
  else if align ≠ 0 ∧ rteIsPowerOf2 align = false then (cfg, .error .einval)
  else
    let align := if align < rteCacheLineSize then rteCacheLineSize else align
    if len > 2 ^ 64 - 1 - (rteCacheLineSize - 1) then (cfg, .error .einval)
    else
      let len := rteAlignFloor (Word.add 64 len (rteCacheLineSize - 1)) (rteCacheLineSize - 1)
      let requestedLen := max rteCacheLineSize len
      if bound ≠ 0 ∧ (requestedLen > bound ∨ rteIsPowerOf2 bound = false) then (cfg, .error .einval)
      else if socketId ≠ socketIdAny ∧ (socketId ≥ rteMaxNumaNodes ∨ socketId < 0) then
        (cfg, .error .einval)
      else memzoneReserveChecked env cfg name len socketId flags align bound

/-- `rte_memzone_reserve_bounded` -/
def rteMemzoneReserveBounded (env : MemzoneEnv) (cfg : MemConfig) (name : CString) (len : Nat)
    (socketId : Int) (flags align bound : Nat) : MemConfig × Except MemzoneErrno Nat :=
  memzoneReserveAlignedThreadUnsafe env cfg name len socketId flags align bound

/-- `rte_memzone_reserve_aligned` -/
def rteMemzoneReserveAligned (env : MemzoneEnv) (cfg : MemConfig) (name : CString) (len : Nat)
    (socketId : Int) (flags align : Nat) : MemConfig × Except MemzoneErrno Nat :=
  memzoneReserveAlignedThreadUnsafe env cfg name len socketId flags align 0

/-- `rte_memzone_reserve` -/
def rteMemzoneReserve (env : MemzoneEnv) (cfg : MemConfig) (name : CString) (len : Nat)
    (socketId : Int) (flags : Nat) : MemConfig × Except MemzoneErrno Nat :=
  memzoneReserveAlignedThreadUnsafe env cfg name len socketId flags rteCacheLineSize 0

/-- `rte_memzone_free` for a descriptor of the table: `0` or `-EINVAL`; `none` is a panic. -/
def rteMemzoneFree (cfg : MemConfig) (mz : Option Nat) : Option (MemConfig × Int) :=
  match mz with
  | none => some (cfg, -22)
  | some idx =>
    let addr := (cfg.memzone idx).addr
    if addr = 0 then (rteFree cfg.heap addr).map fun heap => ({ cfg with heap := heap }, -22)
    else if cfg.memzoneCnt = 0 then none
    else
      (rteFree cfg.heap addr).map fun heap =>
        ({ cfg with
            heap := heap
            memzone := Function.update cfg.memzone idx RteMemzone.zero
            memzoneCnt := Word.sub 32 cfg.memzoneCnt 1 }, 0)

/-- `rte_eal_memzone_init` in the primary process, which has zero-filled the configuration. -/
def rteEalMemzoneInit (memsegIova : Nat → Nat) (heap : HeapState) : MemConfig where
  heap := rteEalMallocHeapInit heap
  memsegIova := memsegIova
  memzone := fun _ => RteMemzone.zero
  memzoneCnt := 0

/-! ## Names in the table -/

/-- The descriptor is in use. -/
def Reserved (memzone : MemzoneTable) (i : Nat) : Prop := i < rteMaxMemzone ∧ (memzone i).addr ≠ 0

/-- The names of the reserved zones are whole, and all different. -/
structure TableOK (memzone : MemzoneTable) : Prop where
  len : ∀ i, Reserved memzone i → (memzone i).name.length < rteMemzoneNamesize
  distinct : ∀ i j, Reserved memzone i → Reserved memzone j → (memzone i).name = (memzone j).name → i = j

theorem tableOK_zero : TableOK fun _ => RteMemzone.zero where
  len _ h := absurd rfl h.2
  distinct _ _ h := absurd rfl h.2

theorem getNextFreeMemzone_some {memzone : MemzoneTable} {i : Nat} (h : getNextFreeMemzone memzone = some i) :
    i < rteMaxMemzone ∧ (memzone i).addr = 0 := by
  have hmem := List.mem_of_find?_eq_some h
  have hfree := List.find?_some h
  exact ⟨List.mem_range.mp hmem, beq_iff_eq.mp hfree⟩

section

variable {memzone : MemzoneTable}

theorem mem_rteMemzoneWalk {i : Nat} : i ∈ rteMemzoneWalk memzone ↔ Reserved memzone i := by
  rw [rteMemzoneWalk, List.mem_filter, List.mem_range, bne_iff_ne, Reserved]

theorem memzoneLookup_none {name : CString} (hname : name.length < rteMemzoneNamesize)
    (hok : TableOK memzone) (h : memzoneLookupThreadUnsafe memzone name = none) {i : Nat}
    (hi : Reserved memzone i) : (memzone i).name ≠ name := by
  intro heq
  have hnot := List.find?_eq_none.mp h i (List.mem_range.mpr hi.1)
  apply hnot
  rw [Bool.and_eq_true, bne_iff_ne]
  exact ⟨hi.2, (strncmpEqual_iff_eq hname.le (hok.len i hi).le).mpr heq.symm⟩

/-- The lookup is exact. A longer name differs from all that are stored. -/
theorem memzoneLookup_eq_some (hok : TableOK memzone) {name : CString} {i : Nat} :
    memzoneLookupThreadUnsafe memzone name = some i ↔ Reserved memzone i ∧ (memzone i).name = name := by
  have hmatch : ∀ j, Reserved memzone j →
      (strncmpEqual name.bytes (memzone j).name.bytes rteMemzoneNamesize = true ↔
        (memzone j).name = name) := by
    intro j hj
    rw [strncmpEqual_iff_of_lt (hok.len j hj), eq_comm]
  constructor
  · intro h
    have hmem := List.mem_of_find?_eq_some h
    have hfound := List.find?_some h
    rw [Bool.and_eq_true, bne_iff_ne] at hfound
    have hi : Reserved memzone i := ⟨List.mem_range.mp hmem, hfound.1⟩
    exact ⟨hi, (hmatch i hi).mp hfound.2⟩
  · rintro ⟨hi, hname⟩
    cases hfind : memzoneLookupThreadUnsafe memzone name with
    | none =>
      have hlen := hok.len i hi
      rw [hname] at hlen
      exact absurd hname (memzoneLookup_none hlen hok hfind hi)
    | some j =>
      have hmem := List.mem_of_find?_eq_some hfind
      have hfound := List.find?_some hfind
      rw [Bool.and_eq_true, bne_iff_ne] at hfound
      have hj : Reserved memzone j := ⟨List.mem_range.mp hmem, hfound.1⟩
      have hnamej := (hmatch j hj).mp hfound.2
      rw [hok.distinct j i hj hi (hnamej.trans hname.symm)]

end

/-! ## What a call does to the table -/

/-- The name is one that a reservation takes. -/
def NameFree (memzone : MemzoneTable) (name : CString) : Prop :=
  name.length < rteMemzoneNamesize ∧ memzoneLookupThreadUnsafe memzone name = none

/-- A reservation that succeeded has filled the first free descriptor. -/
structure Filled (cfg cfg' : MemConfig) (name : CString) (mz : Nat) (zone : RteMemzone) : Prop where
  free : getNextFreeMemzone cfg.memzone = some mz
  named : zone.name = name
  addr : zone.addr ≠ 0
  table : cfg'.memzone = Function.update cfg.memzone mz zone
  cnt : cfg'.memzoneCnt = Word.add 32 cfg.memzoneCnt 1

section

variable {env : MemzoneEnv} {cfg : MemConfig} {name : CString} {len flags align bound : Nat}
  {socketId : Int} {res : MemConfig × Except MemzoneErrno Nat}

theorem memzoneFill_cases {mzAddr requestedLen : Nat} (hname : name.length < rteMemzoneNamesize)
    (haddr : mzAddr ≠ 0) (h : memzoneFill env cfg name mzAddr requestedLen = res) :
    (∃ e, res.2 = .error e ∧ res.1.memzone = cfg.memzone) ∨
      ∃ mz zone, res.2 = .ok mz ∧ Filled cfg res.1 name mz zone := by
  subst h
  unfold memzoneFill
  cases hfree : getNextFreeMemzone cfg.memzone with
  | none => exact .inl ⟨.enospc, rfl, rfl⟩
  | some mz =>
    refine .inr ⟨mz, memzoneOf env cfg name mzAddr requestedLen, rfl, ?_⟩
    exact {
      free := hfree
      named := CString.trunc_eq (by simp only [rteMemzoneNamesize] at hname ⊢; omega)
      addr := haddr
      table := rfl
      cnt := rfl }

theorem memzoneTake_cases {requestedLen : Nat} {a : HeapState × Nat}
    (hname : name.length < rteMemzoneNamesize) (h : memzoneTake env cfg name requestedLen a = res) :
    (∃ e, res.2 = .error e ∧ res.1.memzone = cfg.memzone) ∨
      ∃ mz zone, res.2 = .ok mz ∧ Filled cfg res.1 name mz zone := by
  unfold memzoneTake at h
  split at h
  · subst h
    exact .inl ⟨.enomem, rfl, rfl⟩
  · rename_i haddr
    rcases memzoneFill_cases hname haddr h with ⟨e, hres, htable⟩ | ⟨mz, zone, hres, hfilled⟩
    · exact .inl ⟨e, hres, htable⟩
    · exact .inr ⟨mz, zone, hres, hfilled.free, hfilled.named, hfilled.addr, hfilled.table, hfilled.cnt⟩

theorem memzoneReserveRequest_cases {r : Nat × Int} (hname : name.length < rteMemzoneNamesize)
    (h : memzoneReserveRequest env cfg name len flags align bound r = res) :
    (∃ e, res.2 = .error e ∧ res.1.memzone = cfg.memzone) ∨
      ∃ mz zone, res.2 = .ok mz ∧ Filled cfg res.1 name mz zone := by
  unfold memzoneReserveRequest at h
  split at h
  · subst h
    exact .inl ⟨.enomem, rfl, rfl⟩
  · exact memzoneTake_cases hname h

/-- A reservation leaves the table as it is, or fills one descriptor under a new name. -/
theorem memzoneReserve_cases
    (h : memzoneReserveAlignedThreadUnsafe env cfg name len socketId flags align bound = res) :
    (∃ e, res.2 = .error e ∧ res.1.memzone = cfg.memzone) ∨
      NameFree cfg.memzone name ∧ ∃ mz zone, res.2 = .ok mz ∧ Filled cfg res.1 name mz zone := by
  subst h
  unfold memzoneReserveAlignedThreadUnsafe
  dsimp only
  split
  · exact .inl ⟨.enospc, rfl, rfl⟩
  · split
    · exact .inl ⟨.enametoolong, rfl, rfl⟩
    · rename_i hlen
      have hname : name.length < rteMemzoneNamesize := by
        simp only [rteMemzoneNamesize] at hlen ⊢
        omega
      split
      · exact .inl ⟨.eexist, rfl, rfl⟩
      · rename_i hnew
        have hfree : NameFree cfg.memzone name := ⟨hname, not_not.mp hnew⟩
        split
        · exact .inl ⟨.einval, rfl, rfl⟩
        · split
          · exact .inl ⟨.einval, rfl, rfl⟩
          · split
            · exact .inl ⟨.einval, rfl, rfl⟩
            · split
              · exact .inl ⟨.einval, rfl, rfl⟩
              · exact (memzoneReserveRequest_cases hname rfl).imp_right fun h => ⟨hfree, h⟩

/-- A free leaves the table as it is, or clears one descriptor. -/
theorem rteMemzoneFree_cases {cfg' : MemConfig} {mz : Option Nat} {ret : Int}
    (h : rteMemzoneFree cfg mz = some (cfg', ret)) :
    (ret = -22 ∧ cfg'.memzone = cfg.memzone) ∨
      ∃ idx, mz = some idx ∧ (cfg.memzone idx).addr ≠ 0 ∧ ret = 0 ∧
        cfg'.memzone = Function.update cfg.memzone idx RteMemzone.zero := by
  unfold rteMemzoneFree at h
  cases mz with
  | none =>
    cases h
    exact .inl ⟨rfl, rfl⟩
  | some idx =>
    dsimp only at h
    split at h
    · obtain ⟨heap, -, hres⟩ := Option.map_eq_some_iff.mp h
      cases hres
      exact .inl ⟨rfl, rfl⟩
    · rename_i haddr
      split at h
      · cases h
      · obtain ⟨heap, -, hres⟩ := Option.map_eq_some_iff.mp h
        cases hres
        exact .inr ⟨idx, rfl, haddr, rfl, rfl⟩

end

section

variable {memzone : MemzoneTable}

theorem Reserved.update_zero {idx i : Nat}
    (h : Reserved (Function.update memzone idx RteMemzone.zero) i) : i ≠ idx ∧ Reserved memzone i := by
  have hne : i ≠ idx := by
    rintro rfl
    exact h.2 (by rw [Function.update_self]; rfl)
  exact ⟨hne, h.1, by simpa [Function.update_of_ne hne] using h.2⟩

theorem TableOK.clear (hok : TableOK memzone) (idx : Nat) :
    TableOK (Function.update memzone idx RteMemzone.zero) where
  len i hi := by
    obtain ⟨hne, hold⟩ := hi.update_zero
    rw [Function.update_of_ne hne]
    exact hok.len i hold
  distinct i j hi hj heq := by
    obtain ⟨hni, holdi⟩ := hi.update_zero
    obtain ⟨hnj, holdj⟩ := hj.update_zero
    rw [Function.update_of_ne hni, Function.update_of_ne hnj] at heq
    exact hok.distinct i j holdi holdj heq

theorem Reserved.update {mz i : Nat} {zone : RteMemzone} (hne : i ≠ mz) :
    Reserved (Function.update memzone mz zone) i ↔ Reserved memzone i := by
  rw [Reserved, Function.update_of_ne hne, Reserved]

theorem TableOK.fill (hok : TableOK memzone) {mz : Nat} {zone : RteMemzone}
    (hfree : NameFree memzone zone.name) : TableOK (Function.update memzone mz zone) where
  len i hi := by
    by_cases heq : i = mz
    · subst heq
      rw [Function.update_self]
      exact hfree.1
    · rw [Function.update_of_ne heq]
      exact hok.len i ((Reserved.update heq).mp hi)
  distinct i j hi hj heq := by
    have hother : ∀ k, k ≠ mz → Reserved (Function.update memzone mz zone) k →
        (memzone k).name ≠ zone.name := fun k hk hres =>
      memzoneLookup_none hfree.1 hok hfree.2 ((Reserved.update hk).mp hres)
    by_cases hmi : i = mz <;> by_cases hmj : j = mz
    · rw [hmi, hmj]
    · rw [hmi, Function.update_self, Function.update_of_ne hmj] at heq
      exact absurd heq.symm (hother j hmj hj)
    · rw [hmj, Function.update_self, Function.update_of_ne hmi] at heq
      exact absurd heq (hother i hmi hi)
    · rw [Function.update_of_ne hmi, Function.update_of_ne hmj] at heq
      exact hok.distinct i j ((Reserved.update hmi).mp hi) ((Reserved.update hmj).mp hj) heq

end

theorem Filled.tableOK {cfg cfg' : MemConfig} {name : CString} {mz : Nat} {zone : RteMemzone}
    (h : Filled cfg cfg' name mz zone) (hok : TableOK cfg.memzone) (hname : NameFree cfg.memzone name) :
    TableOK cfg'.memzone := by
  rw [h.table]
  exact hok.fill (h.named ▸ hname)

end EalMemzone
