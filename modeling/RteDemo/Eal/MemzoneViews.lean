import RteDemo.Eal.Memzone
import RteDemo.Malloc.Move
import Mathlib.Data.List.TakeWhile

/-!
# The zones that are shown

Dump, walk and lookup over all runs of reservations and frees. A dump stops at the first descriptor
that is not in use: it shows all zones as long as those in use come first, which is so when only the
last one is ever freed (`views_agree`).
-/

namespace EalMemzone

open RteDemo EalTailqs

/-- A call of `rte_memzone_reserve_*` or `rte_memzone_free`. -/
inductive MemzoneStep (cfg cfg' : MemConfig) : Prop
  | reserve (env : MemzoneEnv) (name : CString) (len : Nat) (socketId : Int) (flags align bound : Nat)
      (code : cfg' = (memzoneReserveAlignedThreadUnsafe env cfg name len socketId flags align bound).1)
  | free (mz : Option Nat) (ret : Int) (inTable : ∀ idx ∈ mz, idx < rteMaxMemzone)
      (code : rteMemzoneFree cfg mz = some (cfg', ret))

/-- No reserved zone comes after the one that is freed. -/
inductive LastFreed (cfg cfg' : MemConfig) : Prop
  | reserve (env : MemzoneEnv) (name : CString) (len : Nat) (socketId : Int) (flags align bound : Nat)
      (code : cfg' = (memzoneReserveAlignedThreadUnsafe env cfg name len socketId flags align bound).1)
  | free (mz : Option Nat) (ret : Int) (inTable : ∀ idx ∈ mz, idx < rteMaxMemzone)
      (last : ∀ idx ∈ mz, ∀ i, Reserved cfg.memzone i → i ≤ idx)
      (code : rteMemzoneFree cfg mz = some (cfg', ret))

def MemzoneInit (cfg : MemConfig) : Prop := ∃ memsegIova heap, cfg = rteEalMemzoneInit memsegIova heap

/-- Dump, walk and lookup show the same zones. -/
structure Views (memzone : MemzoneTable) : Prop where
  dump : ∀ i, i ∈ rteMemzoneDump memzone ↔ i ∈ rteMemzoneWalk memzone
  lookup : ∀ i, i ∈ rteMemzoneWalk memzone ↔ ∃ name, rteMemzoneLookup memzone name = some i

/-- The zones in use come first. -/
def NoHole (memzone : MemzoneTable) : Prop := ∀ i j, Reserved memzone j → i < j → Reserved memzone i

section

variable {memzone : MemzoneTable}

theorem mem_takeWhile_range {p : Nat → Bool} {n i : Nat} :
    i ∈ (List.range n).takeWhile p ↔ i < n ∧ ∀ j ≤ i, p j = true := by
  induction n with
  | zero => simp
  | succ n ih =>
    rw [List.range_succ]
    by_cases hall : ∀ j ∈ List.range n, p j = true
    · rw [List.takeWhile_append_of_pos hall]
      have hbelow : ∀ j < n, p j = true := fun j hj => hall j (List.mem_range.mpr hj)
      cases hn : p n with
      | true =>
        rw [List.takeWhile_cons_of_pos hn, List.takeWhile_nil, ← List.range_succ, List.mem_range]
        refine ⟨fun hi => ⟨hi, fun j hj => ?_⟩, And.left⟩
        rcases Nat.lt_or_eq_of_le (show j ≤ n by omega) with hlt | rfl
        · exact hbelow j hlt
        · exact hn
      | false =>
        rw [List.takeWhile_cons_of_neg (by simp [hn]), List.append_nil, List.mem_range]
        constructor
        · exact fun hi => ⟨by omega, fun j hj => hbelow j (by omega)⟩
        · rintro ⟨hi, hp⟩
          by_contra hlt
          have hpn := hp n (by omega)
          rw [hn] at hpn
          exact absurd hpn (by decide)
    · push Not at hall
      obtain ⟨j, hj, hpj⟩ := hall
      have hlt := List.mem_range.mp hj
      have hcut : (List.range n ++ [n]).takeWhile p = (List.range n).takeWhile p := by
        rw [List.takeWhile_append, if_neg]
        intro hlen
        have heq := (List.takeWhile_prefix p).eq_of_length hlen
        exact hpj (List.takeWhile_eq_self_iff.mp heq j hj)
      rw [hcut, ih]
      refine ⟨fun h => ⟨by omega, h.2⟩, fun h => ⟨?_, h.2⟩⟩
      by_contra hge
      exact hpj (h.2 j (by omega))

/-- A dump shows the zones with no gap before them. -/
theorem mem_rteMemzoneDump {i : Nat} :
    i ∈ rteMemzoneDump memzone ↔ i < rteMaxMemzone ∧ ∀ j ≤ i, (memzone j).addr ≠ 0 := by
  rw [rteMemzoneDump, mem_takeWhile_range]
  simp only [bne_iff_ne]

/-- The walk and the lookups agree on every table of different names. -/
theorem mem_walk_iff_lookup (hok : TableOK memzone) (i : Nat) :
    i ∈ rteMemzoneWalk memzone ↔ ∃ name, rteMemzoneLookup memzone name = some i := by
  rw [mem_rteMemzoneWalk]
  constructor
  · exact fun hi => ⟨(memzone i).name, (memzoneLookup_eq_some hok).mpr ⟨hi, rfl⟩⟩
  · rintro ⟨name, hname⟩
    exact ((memzoneLookup_eq_some hok).mp hname).1

theorem views_iff (hok : TableOK memzone) : Views memzone ↔ NoHole memzone := by
  constructor
  · intro h i j hj hij
    have hdump := mem_rteMemzoneDump.mp ((h.dump j).mpr (mem_rteMemzoneWalk.mpr hj))
    exact ⟨by omega, hdump.2 i hij.le⟩
  · refine fun h => ⟨fun i => ?_, mem_walk_iff_lookup hok⟩
    rw [mem_rteMemzoneDump, mem_rteMemzoneWalk]
    constructor
    · exact fun ⟨hlt, hall⟩ => ⟨hlt, hall i (le_refl i)⟩
    · intro hi
      refine ⟨hi.1, fun j hj => ?_⟩
      rcases Nat.lt_or_eq_of_le hj with hlt | rfl
      · exact (h j i hi hlt).2
      · exact hi.2

/-- The first free descriptor is no hole. -/
theorem NoHole.fill (h : NoHole memzone) {mz : Nat} {zone : RteMemzone}
    (hfree : getNextFreeMemzone memzone = some mz) (haddr : zone.addr ≠ 0) :
    NoHole (Function.update memzone mz zone) := by
  obtain ⟨hlt, -⟩ := getNextFreeMemzone_some hfree
  have hfirst : ∀ i < mz, Reserved memzone i := by
    intro i hi
    obtain ⟨-, -, hbefore⟩ := List.find?_range_eq_some.mp hfree
    have hused := hbefore i hi
    exact ⟨by omega, by simpa using hused⟩
  have hmz : Reserved (Function.update memzone mz zone) mz := ⟨hlt, by rwa [Function.update_self]⟩
  intro i j hj hij
  by_cases him : i = mz
  · exact him ▸ hmz
  · rw [Reserved.update him]
    by_cases hjm : j = mz
    · exact hfirst i (by omega)
    · exact h i j ((Reserved.update hjm).mp hj) hij

/-- The last zone leaves no hole. -/
theorem NoHole.clear (h : NoHole memzone) {idx : Nat} (hlast : ∀ i, Reserved memzone i → i ≤ idx) :
    NoHole (Function.update memzone idx RteMemzone.zero) := by
  intro i j hj hij
  obtain ⟨hne, hold⟩ := hj.update_zero
  have hle := hlast j hold
  rw [Reserved.update (by omega)]
  exact h i j hold hij

end

section

variable {cfg cfg' : MemConfig}

theorem MemzoneStep.tableOK (h : MemzoneStep cfg cfg') (hok : TableOK cfg.memzone) : TableOK cfg'.memzone := by
  cases h with
  | reserve env name len socketId flags align bound code =>
    subst code
    rcases memzoneReserve_cases (Eq.refl (memzoneReserveAlignedThreadUnsafe env cfg name len socketId flags
      align bound)) with ⟨-, -, hsame⟩ | ⟨hname, mz, zone, -, hfilled⟩
    · rwa [hsame]
    · exact hfilled.tableOK hok hname
  | free mz ret _ code =>
    rcases rteMemzoneFree_cases code with ⟨-, hsame⟩ | ⟨idx, -, -, -, hclear⟩
    · rwa [hsame]
    · rw [hclear]
      exact hok.clear idx

theorem LastFreed.step (h : LastFreed cfg cfg') : MemzoneStep cfg cfg' := by
  cases h with
  | reserve env name len socketId flags align bound code =>
    exact .reserve env name len socketId flags align bound code
  | free mz ret inTable last code => exact .free mz ret inTable code

theorem LastFreed.noHole (h : LastFreed cfg cfg') (hok : NoHole cfg.memzone) : NoHole cfg'.memzone := by
  cases h with
  | reserve env name len socketId flags align bound code =>
    subst code
    rcases memzoneReserve_cases (Eq.refl (memzoneReserveAlignedThreadUnsafe env cfg name len socketId flags
      align bound)) with ⟨-, -, hsame⟩ | ⟨-, mz, zone, -, hfilled⟩
    · rwa [hsame]
    · rw [hfilled.table]
      exact hok.fill hfilled.free hfilled.addr
  | free mz ret _ last code =>
    rcases rteMemzoneFree_cases code with ⟨-, hsame⟩ | ⟨idx, hmz, -, -, hclear⟩
    · rwa [hsame]
    · rw [hclear]
      exact hok.clear (last idx hmz)

theorem tableOK_of_reach (h : Reach MemzoneInit MemzoneStep cfg) : TableOK cfg.memzone := by
  refine h.invariant (I := fun cfg => TableOK cfg.memzone) ?_ fun _ _ hok hstep => hstep.tableOK hok
  rintro _ ⟨memsegIova, heap, rfl⟩
  exact tableOK_zero

theorem noHole_of_reach (h : Reach MemzoneInit LastFreed cfg) : NoHole cfg.memzone := by
  refine h.invariant (I := fun cfg => NoHole cfg.memzone) ?_ fun _ _ hok hstep => hstep.noHole hok
  rintro _ ⟨memsegIova, heap, rfl⟩ i j hj
  exact absurd rfl hj.2

/-- **Dump, walk and lookup** show the same zones in the states of any run that have no hole, so in
every run in which only the last zone is freed. -/
theorem views_agree (h : Reach MemzoneInit MemzoneStep cfg) :
    (Views cfg.memzone ↔ NoHole cfg.memzone) ∧ (Reach MemzoneInit LastFreed cfg → Views cfg.memzone) := by
  have hviews := views_iff (tableOK_of_reach h)
  exact ⟨hviews, fun hlast => hviews.mpr (noHole_of_reach hlast)⟩

end

/-! ## Two zones of which the first is freed -/

section

variable {env : MemzoneEnv} {cfg : MemConfig} {name : CString} {len k align : Nat} {a : HeapState × Nat}

theorem getNextFreeMemzone_eq {memzone : MemzoneTable} {mz : Nat} (hlt : mz < rteMaxMemzone)
    (hfree : (memzone mz).addr = 0) (hbefore : ∀ i < mz, (memzone i).addr ≠ 0) :
    getNextFreeMemzone memzone = some mz := by
  refine List.find?_range_eq_some.mpr ⟨beq_iff_eq.mpr hfree, List.mem_range.mpr hlt, fun i hi => ?_⟩
  simpa using hbefore i hi

theorem memzoneFill_ok {mz mzAddr : Nat} (hfree : getNextFreeMemzone cfg.memzone = some mz) :
    memzoneFill env cfg name mzAddr len =
      ({ cfg with
          memzone := Function.update cfg.memzone mz (memzoneOf env cfg name mzAddr len)
          memzoneCnt := Word.add 32 cfg.memzoneCnt 1 }, .ok mz) := by
  unfold memzoneFill
  split
  · rename_i hnone
    rw [hfree] at hnone
    exact absurd hnone (Option.some_ne_none mz)
  · rename_i mz' hsome
    obtain rfl := Option.some.inj (hfree.symm.trans hsome)
    exact Eq.refl _

/-- A reservation on one socket that passes the checks. -/
theorem memzoneReserve_code (hcnt : cfg.memzoneCnt < rteMaxMemzone) (hname : NameFree cfg.memzone name)
    (hpow : rteIsPowerOf2 align = true) (halign : 64 ≤ align) (hlen : 64 ≤ len) (hd : 64 ∣ len)
    (htop : len + 63 < 2 ^ 64) (hk : k < rteMaxNumaNodes) (hhuge : env.hasHugepages = true)
    (ha : mallocHeapAlloc cfg.heap k len 0 align 0 = a) :
    memzoneReserveAlignedThreadUnsafe env cfg name len k 0 align 0 = memzoneTake env cfg name len a := by
  have hround : rteAlignFloor (Word.add 64 len (rteCacheLineSize - 1)) (rteCacheLineSize - 1) = len := by
    obtain ⟨q, rfl⟩ := hd
    rw [rteCacheLineSize, Word.add_eq (by omega), rteAlignFloor_cacheLine (by omega)]
    omega
  have hany : (k : Int) ≠ socketIdAny := by simp only [socketIdAny]; omega
  have hsocket : ¬((k : Int) ≠ socketIdAny ∧ ((k : Int) ≥ rteMaxNumaNodes ∨ (k : Int) < 0)) := by omega
  have hreq : memzoneRequest cfg.heap len (if env.hasHugepages then (k : Int) else socketIdAny) align 0 =
      (len, (k : Int)) := by
    rw [memzoneRequest, if_neg (show ¬len = 0 by omega), if_pos hhuge, rteCacheLineSize, Nat.max_eq_right hlen]
  have halloc : memzoneAlloc env cfg.heap len k 0 align 0 = a := by
    rw [memzoneAlloc]
    simp only [if_neg hany, Int.toNat_natCast, ha]
    exact if_neg fun h => hany h.2
  rw [memzoneReserveAlignedThreadUnsafe, if_neg (Nat.not_le.mpr hcnt),
    if_neg (show ¬name.length > rteMemzoneNamesize - 1 by have := hname.1; simp only [rteMemzoneNamesize] at *; omega),
    if_neg (not_not.mpr hname.2), if_neg (show ¬(align ≠ 0 ∧ rteIsPowerOf2 align = false) by simp [hpow])]
  simp only [if_neg (show ¬align < rteCacheLineSize by rw [rteCacheLineSize]; omega), hround]
  rw [if_neg (show ¬len > 2 ^ 64 - 1 - (rteCacheLineSize - 1) by rw [rteCacheLineSize]; omega),
    if_neg (by simp), if_neg hsocket, memzoneReserveChecked, hreq,
    memzoneReserveRequest,
    if_neg (show ¬(len = 0 ∧ (0 : Nat) = 0 ∧ len = 0) by omega)]
  dsimp only
  rw [halloc]

/-- A reservation on one socket that succeeds. -/
theorem memzoneReserve_ok {mz : Nat} (hcnt : cfg.memzoneCnt < rteMaxMemzone) (hname : NameFree cfg.memzone name)
    (hfree : getNextFreeMemzone cfg.memzone = some mz) (hpow : rteIsPowerOf2 align = true) (halign : 64 ≤ align)
    (hlen : 64 ≤ len) (hd : 64 ∣ len) (htop : len + 63 < 2 ^ 64) (hk : k < rteMaxNumaNodes)
    (hhuge : env.hasHugepages = true) (ha : mallocHeapAlloc cfg.heap k len 0 align 0 = a) (hne : a.2 ≠ 0) :
    memzoneReserveAlignedThreadUnsafe env cfg name len k 0 align 0 =
      ({ cfg.setHeap a.1 with
          memzone := Function.update cfg.memzone mz (memzoneOf env (cfg.setHeap a.1) name a.2 len)
          memzoneCnt := Word.add 32 cfg.memzoneCnt 1 }, .ok mz) := by
  rw [memzoneReserve_code hcnt hname hpow halign hlen hd htop hk hhuge ha, memzoneTake, if_neg hne]
  exact @memzoneFill_ok env (cfg.setHeap a.1) name len mz a.2 hfree

end

section

variable {r : RunState}

/-- The first zone takes all of socket 0. -/
theorem node_alloc_zero (h : Inv nodeSegs r (nodeArenas [⟨2 ^ 21 - 64, .free⟩])) (hlive : r.live = []) :
    ∃ s, mallocHeapAlloc r.heap 0 (2 ^ 21 - 192) 0 (2 ^ 7) 0 = (s, nodeBlock.ptr) ∧
      Inv nodeSegs ⟨s, [nodeBlock]⟩ (nodeArenas [⟨2 ^ 21 - 64, .busy 64⟩]) := by
  obtain ⟨-, hinv, hblock⟩ := nodeAlloc_inv h hlive
  rw [nodeAlloc, MallocOp.run_alloc] at hinv hblock
  generalize mallocHeapAlloc r.heap 0 (2 ^ 21 - 192) 0 (2 ^ 7) 0 = a at *
  unfold MallocOp.allocated at hinv hblock
  simp only [hlive] at hinv hblock
  split at hblock
  · exact absurd hblock (by simp)
  · rename_i hne
    rw [if_neg hne] at hinv
    rw [hblock] at hinv
    have hptr : a.2 = nodeBlock.ptr := congrArg Block.ptr (List.cons.inj hblock).1
    exact ⟨a.1, by rw [← hptr], hinv⟩

/-- The second zone comes from socket 1. -/
theorem node_alloc_one (h : Inv nodeSegs r (nodeArenas [⟨2 ^ 21 - 64, .busy 64⟩]))
    (hlive : nodeBlock ∈ r.live) :
    ∃ s b live ars, mallocHeapAlloc r.heap 1 64 0 (2 ^ 6) 0 = (s, b.ptr) ∧ b.ptr ≠ 0 ∧
      Inv nodeSegs ⟨s, live⟩ ars ∧ nodeBlock ∈ live ∧ b ∈ live := by
  have hround : rteCacheLineRoundup 64 64 = 64 := by decide
  have halign : rteCacheLineRoundup 64 (2 ^ 6) = 2 ^ 6 := by decide
  have hexact : SearchExact r.heap 64 0 (2 ^ 6) 0 ((r.heap.mallocHeaps 1).candidates 64) :=
    node_allExact h (by decide) [1] 1 List.mem_cons_self
  have hcan : CanServe r.heap 1 64 (2 ^ max 6 6) 0 := by
    obtain ⟨idx, e, he, d, hfit⟩ := node_canServe h
    exact ⟨idx, e, he, d, hfit.header, by have := hfit.stop; omega, hfit.aligned, noCross_zero _ _⟩
  have hserved := (h.rep.served_iff (by decide) (.inl rfl) (by decide) (by decide) hround (.inl rfl)
    (.inr (pageOK_zero _)) hexact).mpr hcan
  have hwrap : (MallocOp.alloc 1 64 0 (2 ^ 6) 0).NoWrap r := by
    simp only [MallocOp.NoWrap, hround, halign]
    exact ⟨by decide, hexact⟩
  obtain ⟨ars, -, hinv⟩ := h.step (MallocOp.valid_alloc r 1 64 0 6 (by decide)) hwrap
  rw [MallocOp.run_alloc] at hinv
  generalize mallocHeapAlloc r.heap 1 64 0 (2 ^ 6) 0 = a at *
  rw [MallocOp.allocated, if_neg hserved] at hinv
  exact ⟨a.1, _, _, ars, rfl, hserved, hinv, List.mem_cons_of_mem _ hlive, List.mem_cons_self⟩

end

/-- A thread on socket 0, with hugepages. -/
def zoneEnv : MemzoneEnv := ⟨⟨true, 0⟩, false⟩

/-- The names `"a"` and `"b"`. -/
def zoneA : CString := ⟨[97], by decide⟩
def zoneB : CString := ⟨[98], by decide⟩

theorem memzoneOf_name (env : MemzoneEnv) (cfg : MemConfig) (addr len : Nat) {name : CString}
    (hname : name.length < rteMemzoneNamesize) : (memzoneOf env cfg name addr len).name = name :=
  CString.trunc_eq (by simp only [rteMemzoneNamesize] at hname ⊢; omega)

/-- No zone in use has the name. -/
theorem nameFree_of_ne {memzone : MemzoneTable} {name : CString} (hok : TableOK memzone)
    (hlen : name.length < rteMemzoneNamesize) (hne : ∀ i, Reserved memzone i → (memzone i).name ≠ name) :
    NameFree memzone name := by
  refine ⟨hlen, ?_⟩
  cases hfind : memzoneLookupThreadUnsafe memzone name with
  | none => rfl
  | some i =>
    obtain ⟨hi, hname⟩ := (memzoneLookup_eq_some hok).mp hfind
    exact absurd hname (hne i hi)

/-- The step of a reservation on one socket that succeeds. -/
theorem memzoneReserve_step (env : MemzoneEnv) {cfg : MemConfig} {name : CString} {len k align mz ptr : Nat}
    {s : HeapState} (hcnt : cfg.memzoneCnt < rteMaxMemzone) (hname : NameFree cfg.memzone name)
    (hfree : getNextFreeMemzone cfg.memzone = some mz) (hpow : rteIsPowerOf2 align = true) (halign : 64 ≤ align)
    (hlen : 64 ≤ len) (hd : 64 ∣ len) (htop : len + 63 < 2 ^ 64) (hk : k < rteMaxNumaNodes)
    (hhuge : env.hasHugepages = true) (ha : mallocHeapAlloc cfg.heap k len 0 align 0 = (s, ptr))
    (hne : ptr ≠ 0) :
    ∃ cfg' zone, LastFreed cfg cfg' ∧ cfg'.heap = s ∧ cfg'.memzoneCnt = Word.add 32 cfg.memzoneCnt 1 ∧
      cfg'.memzone = Function.update cfg.memzone mz zone ∧ zone.addr = ptr ∧ zone.name = name := by
  have hres := memzoneReserve_ok hcnt hname hfree hpow halign hlen hd htop hk hhuge ha hne
  exact ⟨_, memzoneOf env (cfg.setHeap s) name ptr len,
    .reserve env name len k 0 align 0 (congrArg Prod.fst hres).symm, rfl, rfl, rfl, rfl,
    memzoneOf_name _ _ _ _ hname.1⟩

/-- The zones `"a"` and `"b"`, either of which can be freed. -/
theorem two_zones {r : RunState} (h : Inv nodeSegs r (nodeArenas [⟨2 ^ 21 - 64, .free⟩])) (hlive : r.live = [])
    {cfg : MemConfig} (hheap : cfg.heap = r.heap) (hzero : cfg.memzone = fun _ => RteMemzone.zero)
    (hcnt : cfg.memzoneCnt = 0) :
    ∃ cfg₁ cfg₂, LastFreed cfg cfg₁ ∧ LastFreed cfg₁ cfg₂ ∧ (∀ i, Reserved cfg₂.memzone i ↔ i < 2) ∧
      ∀ idx < 2, ∃ s, rteMemzoneFree cfg₂ (some idx) = some ({ cfg₂ with
        heap := s
        memzone := Function.update cfg₂.memzone idx RteMemzone.zero
        memzoneCnt := Word.sub 32 cfg₂.memzoneCnt 1 }, 0) := by
  obtain ⟨s₁, halloc, h₁⟩ := node_alloc_zero h hlive
  obtain ⟨s₂, b, live, ars, halloc', hptr, h₂, hblock, hblock'⟩ := node_alloc_one h₁ List.mem_cons_self
  simp only at halloc'
  -- the zone "a"
  have hok : TableOK cfg.memzone := hzero ▸ tableOK_zero
  have hunused : ∀ i, ¬Reserved cfg.memzone i := by
    rw [hzero]
    exact fun i hi => absurd rfl hi.2
  have hname : NameFree cfg.memzone zoneA := nameFree_of_ne hok (by decide) fun i hi => absurd hi (hunused i)
  have hnext : getNextFreeMemzone cfg.memzone = some 0 := by
    rw [hzero]
    exact getNextFreeMemzone_eq (by decide) rfl fun i hi => absurd hi (Nat.not_lt_zero i)
  obtain ⟨cfg₁, za, hstep₁, hheap₁, hcnt₁, htable₁, haddr₁, hname₁⟩ :=
    memzoneReserve_step zoneEnv (k := 0) (by rw [hcnt]; decide) hname hnext (by decide) (by decide)
      (by decide) (by decide) (by decide) (by decide) rfl (hheap ▸ halloc) (by decide)
  have hok₁ := hstep₁.step.tableOK hok
  -- the zone "b"
  have hother : ∀ i, Reserved cfg₁.memzone i → i = 0 := by
    intro i hi
    by_contra hne
    rw [htable₁, Reserved.update hne] at hi
    exact hunused i hi
  have hname' : NameFree cfg₁.memzone zoneB := by
    refine nameFree_of_ne hok₁ (by decide) fun i hi => ?_
    rw [hother i hi, htable₁, Function.update_self, hname₁]
    decide
  have hnext' : getNextFreeMemzone cfg₁.memzone = some 1 := by
    refine getNextFreeMemzone_eq (by decide) ?_ fun i hi => ?_
    · rw [htable₁, hzero, Function.update_of_ne (by decide)]
      rfl
    · rw [Nat.lt_one_iff.mp hi, htable₁, Function.update_self, haddr₁]
      decide
  obtain ⟨cfg₂, zb, hstep₂, hheap₂, hcnt₂, htable₂, haddr₂, hname₂⟩ :=
    memzoneReserve_step zoneEnv (k := 1) (by rw [hcnt₁, hcnt]; decide) hname' hnext' (by decide)
      (by decide) (by decide) (by decide) (by decide) (by decide) rfl (hheap₁ ▸ halloc') hptr
  have hzone₀ : (cfg₂.memzone 0).addr = nodeBlock.ptr := by
    rw [htable₂, Function.update_of_ne (by decide), htable₁, Function.update_self, haddr₁]
  have hzone₁ : (cfg₂.memzone 1).addr = b.ptr := by rw [htable₂, Function.update_self, haddr₂]
  refine ⟨cfg₁, cfg₂, hstep₁, hstep₂, fun i => ⟨fun hi => ?_, fun hi => ?_⟩, fun idx hidx => ?_⟩
  · by_contra hge
    rw [htable₂, Reserved.update (by omega)] at hi
    have h0 := hother i hi
    omega
  · obtain rfl | rfl : i = 0 ∨ i = 1 := by omega
    · exact ⟨by decide, by rw [hzone₀]; decide⟩
    · exact ⟨by decide, by rw [hzone₁]; exact hptr⟩
  · -- the block of either zone is live
    obtain ⟨blk, haddr, hmem, hne⟩ : ∃ blk, (cfg₂.memzone idx).addr = blk.ptr ∧ blk ∈ live ∧ blk.ptr ≠ 0 := by
      obtain rfl | rfl : idx = 0 ∨ idx = 1 := by omega
      · exact ⟨nodeBlock, hzone₀, hblock, by decide⟩
      · exact ⟨b, hzone₁, hblock', hptr⟩
    have hfree := h₂.rteFree_live hmem
    simp only at hfree
    have hcnt' : ¬cfg₂.memzoneCnt = 0 := by
      rw [hcnt₂, hcnt₁, hcnt]
      decide
    refine ⟨((MallocOp.free blk).run ⟨s₂, live⟩).heap, ?_⟩
    unfold rteMemzoneFree
    simp only [haddr, if_neg hne, if_neg hcnt', hheap₂, hfree, Option.map_some]

theorem rteEalMemzoneInit_heap (memsegIova : Nat → Nat) (heap : HeapState) :
    (rteEalMemzoneInit memsegIova heap).heap = rteEalMallocHeapInit heap := rfl

theorem exists_two_zones : ∃ cfg, Reach MemzoneInit LastFreed cfg ∧ (∀ i, Reserved cfg.memzone i ↔ i < 2) ∧
    ∀ idx < 2, ∃ s, rteMemzoneFree cfg (some idx) = some ({ cfg with
      heap := s
      memzone := Function.update cfg.memzone idx RteMemzone.zero
      memzoneCnt := Word.sub 32 cfg.memzoneCnt 1 }, 0) := by
  have hheap : (rteEalMemzoneInit (fun _ => 0) (HeapState.boot nodeSegs fun _ => 0)).heap =
      nodeStart.heap := by
    rw [rteEalMemzoneInit_heap, nodeStart]
  obtain ⟨cfg₁, cfg₂, hstep₁, hstep₂, hres, hfree⟩ := two_zones nodeStart_inv (by rw [nodeStart]) hheap
    (by rw [rteEalMemzoneInit]) (by rw [rteEalMemzoneInit])
  exact ⟨cfg₂, .next (.next (.start ⟨_, _, rfl⟩) hstep₁) hstep₂, hres, hfree⟩

/-- Two zones are reserved and the second is freed. -/
theorem views_agree_lastFreed : ∃ cfg, Reach MemzoneInit LastFreed cfg ∧
    (∀ i, Reserved cfg.memzone i ↔ i = 0) ∧ Views cfg.memzone := by
  obtain ⟨cfg, hreach, hres, hfree⟩ := exists_two_zones
  obtain ⟨s, hcode⟩ := hfree 1 (by decide)
  have hlast := hreach.next (.free (some 1) 0
    (fun idx hidx => by rw [← Option.some.inj hidx]; decide)
    (fun idx hidx i hi => by
      rw [← Option.some.inj hidx]
      exact Nat.le_of_lt_succ ((hres i).mp hi)) hcode)
  refine ⟨_, hlast, fun i => ?_, (views_agree (hlast.mono (fun _ hs => hs) fun _ _ hs => hs.step)).2 hlast⟩
  by_cases hi : i = 1
  · subst hi
    exact iff_of_false (fun hr => hr.update_zero.1 rfl) (by decide)
  · rw [Reserved.update hi, hres i]
    omega

/-- When the first is freed, the dump shows nothing where a walk and lookups show a zone. -/
theorem not_views_agree : ∃ cfg, Reach MemzoneInit MemzoneStep cfg ∧ ¬Views cfg.memzone := by
  obtain ⟨cfg, hreach, hres, hfree⟩ := exists_two_zones
  obtain ⟨s, hcode⟩ := hfree 0 (by decide)
  have hfreed := (hreach.mono (fun _ hs => hs) fun _ _ hs => hs.step).next
    (MemzoneStep.free (some 0) 0 (fun idx hidx => by rw [← Option.some.inj hidx]; decide) hcode)
  refine ⟨_, hfreed, fun h => ?_⟩
  have hhole := (views_iff (tableOK_of_reach hfreed)).mp h
  have hone : Reserved (Function.update cfg.memzone 0 RteMemzone.zero) 1 :=
    (Reserved.update (by decide)).mpr ((hres 1).mpr (by decide))
  exact (hhole 0 1 hone (by decide)).update_zero.1 rfl

end EalMemzone
