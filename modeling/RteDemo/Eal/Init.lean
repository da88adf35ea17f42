import RteDemo.Eal.HugepageLocks
import RteDemo.Eal.Lcore

/-!
# `rte_eal_init` up to the sizing of memory

`calc_num_pages_per_socket` divides by `rte_lcore_count()` and counts the lcores of every socket. Both
come from `rte_eal_cpu_init`, which leaves them in agreement (`rteEalCpuInit_count`), but no step of
`rte_eal_init` calls it. The steps up to the call that sizes the memory leave the lcores as the static
configuration has them: a count of zero, and every role `ROLE_RTE`, the first of the enumeration.

The processor, the file system and the mapping of the pages are inputs (`Machine`).
-/

namespace EalInit

open RteDemo EalMemory EalLcore

/-! ## CPU detection -/

/-- `lcore_config[].socket_id` -/
abbrev LcoreSockets := Nat → Socket

/-- The body of the loop of `rte_eal_cpu_init`, with `count`; `none` is the result `-1`. -/
def cpuInitBody (detected : Nat → Bool) (cpuSocketId : Nat → Nat) (lcoreId : Nat)
    (s : RteConfig × LcoreSockets × Nat) : Option (RteConfig × LcoreSockets × Nat) :=
  let (cfg, sockets, count) := s
  if detected lcoreId = false then
    some ({ cfg with lcoreRole := Function.update cfg.lcoreRole lcoreId .off }, sockets, count)
  else if h : cpuSocketId lcoreId < rteMaxNumaNodes then
    some ({ cfg with lcoreRole := Function.update cfg.lcoreRole lcoreId .rte },
      Function.update sockets lcoreId ⟨cpuSocketId lcoreId, h⟩, count + 1)
  else none

/-- The loop of `rte_eal_cpu_init` over these lcores. -/
def cpuInitLoop (detected : Nat → Bool) (cpuSocketId : Nat → Nat) :
    List Nat → RteConfig × LcoreSockets × Nat → Option (RteConfig × LcoreSockets × Nat)
  | [], s => some s
  | lcoreId :: rest, s => do
    let s ← cpuInitBody detected cpuSocketId lcoreId s
    cpuInitLoop detected cpuSocketId rest s

/-- `rte_eal_cpu_init` -/
def rteEalCpuInit (detected : Nat → Bool) (cpuSocketId : Nat → Nat) (cfg : RteConfig)
    (sockets : LcoreSockets) : Option (RteConfig × LcoreSockets) := do
  let (cfg, sockets, count) ← cpuInitLoop detected cpuSocketId (List.range rteMaxLcore) (cfg, sockets, 0)
  some ({ cfg with lcoreCount := count }, sockets)

/-- What `calc_num_pages_per_socket` reads of the lcores. -/
def lcoreView (cfg : RteConfig) (sockets : LcoreSockets) : LcoreConfig where
  isEnabled := rteLcoreIsEnabled cfg
  socketId := sockets
  lcoreCount := cfg.lcoreCount

/-! ## Initialization -/

/-- `enum rte_proc_type_t` -/
inductive RteProcType
  | auto
  | primary
  | secondary
  | invalid
  deriving DecidableEq, Repr

/-- `struct internal_config`, but for the hugepage slots. -/
structure Internal where
  memory : Nat
  noHugetlbfs : Bool
  processType : RteProcType
  forceSockets : Nat
  socketMem : Socket → Nat

/-- The static variables that the steps read and write. -/
structure EalState where
  runOnce : Bool
  processType : RteProcType
  config : RteConfig
  sockets : LcoreSockets
  internal : Internal
  locks : LockState

/-- What the steps ask the machine for. -/
structure Machine where
  /-- `rte_cpu_is_supported` -/
  cpuSupported : Bool
  /-- The shared configuration can be mapped, or attached to; it panics else. -/
  configMapped : Bool
  sys : HugepageSys
  openDir : List Int → String → Int
  qsort : SlotSort
  dirents : List String
  /-- `rte_eal_log_init` succeeds. -/
  logInit : Bool
  /-- The mapping of all hugepages: the sizes with their pages on socket 0, and then on the sockets where
  the pages are; `none` if it fails. -/
  mapPages : List HugepageInfo → Option (List HugepageInfo × List HugepageInfo)

/-- The arguments of `calc_num_pages_per_socket`, and what it reads besides. -/
structure SizingCall where
  cfg : InternalConfig
  lc : LcoreConfig
  memory : Socket → Nat

/-- The static initial state; `internal_config` is the application's. -/
def staticState (internal : Internal) : EalState where
  runOnce := false
  processType := .primary
  config := ⟨0, 0, fun _ => .rte⟩
  sockets := fun _ => socketZero
  internal := internal
  locks := startLocks

/-- `rte_config_init`; `none` is a panic. -/
def rteConfigInit (m : Machine) (st : EalState) : Option EalState :=
  let st := { st with processType := st.internal.processType }
  match st.processType with
  | .primary => if m.configMapped = true then some st else none
  | .secondary => if m.configMapped = true then some st else none
  | .auto => none
  | .invalid => none

/-- The part of `hugepage_info` in use -/
def usedInfos (locks : LockState) : List HugepageInfo :=
  (locks.slots.take locks.numSizes).map HugepageSlot.info

/-- `eal_get_hugepage_mem_size` -/
def ealGetHugepageMemSize (infos : List HugepageInfo) : Nat :=
  infos.foldl (fun size hpi =>
    if hpi.hugedir.isSome = true then (List.finRange _).foldl (fun size socket => addPages socket size hpi) size
    else size) 0

/-- `rte_eal_hugepage_init` up to the call of `calc_num_pages_per_socket`; `none` if it does not come to
it. -/
def rteEalHugepageInit (m : Machine) (st : EalState) : Option SizingCall :=
  if st.internal.noHugetlbfs = true then none
  else
    match m.mapPages (usedInfos st.locks) with
    | none => none
    | some (mapped, bySocket) =>
      let memory := if st.internal.memory = 0 ∧ st.internal.forceSockets = 0 then ealGetHugepageMemSize mapped
        else st.internal.memory
      some ⟨⟨memory, st.internal.forceSockets, bySocket⟩, lcoreView st.config st.sockets, st.internal.socketMem⟩

/-- `rte_eal_memory_init` up to that call. -/
def rteEalMemoryInit (m : Machine) (st : EalState) : Option SizingCall :=
  -- a secondary process attaches to what the primary has sized
  if st.processType = .primary then rteEalHugepageInit m st else none

/-- `MEMSIZE_IF_NO_HUGE_PAGE` -/
def memsizeIfNoHugePage : Nat := 64 * 1024 * 1024

/-- The hugepages of a process that uses them and is not a secondary one. -/
def findHugepages (m : Machine) (st : EalState) : Option EalState :=
  if st.internal.noHugetlbfs = false ∧ st.internal.processType ≠ .secondary then
    (ealHugepageInfoInitLocks m.sys m.openDir m.qsort m.dirents).map fun locks => { st with locks := locks }
  else some st

/-- `internal_config.memory` when nothing is asked for and there are no hugepages. -/
def defaultMemory (st : EalState) : EalState :=
  if st.internal.memory = 0 ∧ st.internal.forceSockets = 0 ∧ st.internal.noHugetlbfs = true then
    { st with internal := { st.internal with memory := memsizeIfNoHugePage } }
  else st

/-- The log and the memory -/
def startMemory (m : Machine) (st : EalState) : Option SizingCall :=
  if m.logInit = false then none else rteEalMemoryInit m (defaultMemory st)

/-- `rte_eal_init` up to that call. -/
def rteEalInit (m : Machine) (st : EalState) : Option SizingCall :=
  if m.cpuSupported = false then none
  else if st.runOnce = true then none
  else do
    let st ← rteConfigInit m { st with runOnce := true }
    let st ← findHugepages m st
    startMemory m st

/-! ## What the sizing needs -/

/-- The lcores are counted, so the split divides by no zero and shares out no more than there is. -/
structure SizingReady (call : SizingCall) : Prop where
  count_pos : 1 ≤ call.lc.lcoreCount
  count_eq : call.lc.lcoreCount = (lcoreForeach call.lc).length
  divisor : call.cfg.memory ≠ 0 → call.lc.lcoreCount ≠ 0
  shared : (shares call.cfg call.lc call.memory).borrowed = false

/-- The initialization ends before the memory is sized. -/
def EndsBefore (m : Machine) (internal : Internal) : Prop :=
  m.cpuSupported = false ∨ m.configMapped = false ∨ internal.noHugetlbfs = true ∨ m.logInit = false ∨
    match ealHugepageInfoInitLocks m.sys m.openDir m.qsort m.dirents with
    | none => True
    | some locks => m.mapPages (usedInfos locks) = none

/-! ## What CPU detection would leave -/

/-- The loop sets the roles of the lcores it goes over and counts those that are detected. -/
theorem cpuInitLoop_spec {detected : Nat → Bool} {cpuSocketId : Nat → Nat} : ∀ {l : List Nat}
    {s s' : RteConfig × LcoreSockets × Nat}, l.Nodup → cpuInitLoop detected cpuSocketId l s = some s' →
      (∀ i ∈ l, s'.1.lcoreRole i = if detected i = true then .rte else .off) ∧
        (∀ i, i ∉ l → s'.1.lcoreRole i = s.1.lcoreRole i) ∧ s'.2.2 = s.2.2 + l.countP detected
  | [], s, s', _, h => by
    cases h
    exact ⟨fun i hi => absurd hi List.not_mem_nil, fun _ _ => rfl, rfl⟩
  | lcoreId :: rest, ⟨cfg, sockets, count⟩, s', hnd, h => by
    obtain ⟨hfresh, hnd⟩ := List.nodup_cons.mp hnd
    obtain ⟨⟨cfg1, sockets1, count1⟩, hbody, hrest⟩ := Option.bind_eq_some_iff.mp h
    obtain ⟨hin, hout, hcount⟩ := cpuInitLoop_spec hnd hrest
    have hone : cfg1.lcoreRole = Function.update cfg.lcoreRole lcoreId
          (if detected lcoreId = true then .rte else .off) ∧
        count1 = count + if detected lcoreId = true then 1 else 0 := by
      simp only [cpuInitBody] at hbody
      split_ifs at hbody with hdet hsocket
      · cases hbody
        simp [hdet]
      · cases hbody
        simp [hdet]
    obtain ⟨hrole, hcount1⟩ := hone
    refine ⟨fun i hi => ?_, fun i hi => ?_, ?_⟩
    · rcases List.mem_cons.mp hi with rfl | hi
      · rw [hout i hfresh]
        simp only [hrole, Function.update_self]
      · exact hin i hi
    · rw [List.mem_cons, not_or] at hi
      rw [hout i hi.2]
      simp only [hrole, Function.update_of_ne hi.1]
    · rw [hcount, List.countP_cons, hcount1]
      simp only
      omega

/-- After CPU detection the count is the number of lcores that `RTE_LCORE_FOREACH` goes through. -/
theorem rteEalCpuInit_count {detected : Nat → Bool} {cpuSocketId : Nat → Nat} {cfg cfg' : RteConfig}
    {sockets sockets' : LcoreSockets} (h : rteEalCpuInit detected cpuSocketId cfg sockets = some (cfg', sockets')) :
    cfg'.lcoreCount = (lcoreForeach (lcoreView cfg' sockets')).length := by
  obtain ⟨⟨cfg1, sockets1, count⟩, hloop, hend⟩ := Option.bind_eq_some_iff.mp h
  obtain ⟨hin, -, hcount⟩ := cpuInitLoop_spec List.nodup_range hloop
  cases hend
  rw [lcoreForeach, ← List.countP_eq_length_filter]
  simp only at hcount
  rw [hcount, Nat.zero_add]
  refine List.countP_congr fun i hi => ?_
  have hlt := List.mem_range.mp hi
  have hrole := hin i hi
  simp only at hrole
  simp only [lcoreView, rteLcoreIsEnabled, if_neg (Nat.not_le.mpr hlt), hrole]
  cases detected i <;> decide

section

variable {m : Machine} {internal : Internal}

/-- What a step that changes neither the lcores nor the settings leaves. -/
def SameLcores (st st' : EalState) : Prop := st'.config = st.config ∧ st'.sockets = st.sockets

theorem rteConfigInit_spec {st st' : EalState} (h : rteConfigInit m st = some st') :
    m.configMapped = true ∧ SameLcores st st' ∧ st'.internal = st.internal := by
  simp only [rteConfigInit] at h
  split at h
  · split_ifs at h with hmapped
    cases h
    exact ⟨hmapped, ⟨rfl, rfl⟩, rfl⟩
  · split_ifs at h with hmapped
    cases h
    exact ⟨hmapped, ⟨rfl, rfl⟩, rfl⟩
  · cases h
  · cases h

theorem findHugepages_spec {st st' : EalState} (h : findHugepages m st = some st') :
    SameLcores st st' ∧ st'.internal = st.internal ∧
      (st.internal.noHugetlbfs = false → st.internal.processType = .primary →
        ealHugepageInfoInitLocks m.sys m.openDir m.qsort m.dirents = some st'.locks) := by
  rw [findHugepages] at h
  split_ifs at h with huse
  · obtain ⟨locks, hlocks, rfl⟩ := Option.map_eq_some_iff.mp h
    exact ⟨⟨rfl, rfl⟩, rfl, fun _ _ => hlocks⟩
  · cases h
    refine ⟨⟨rfl, rfl⟩, rfl, fun hhuge hprim => absurd ⟨hhuge, ?_⟩ huse⟩
    rw [hprim]
    exact RteProcType.noConfusion

theorem defaultMemory_spec (st : EalState) : SameLcores st (defaultMemory st) ∧
    (defaultMemory st).internal.noHugetlbfs = st.internal.noHugetlbfs ∧
      (defaultMemory st).locks = st.locks := by
  rw [defaultMemory]
  split_ifs
  · exact ⟨⟨rfl, rfl⟩, rfl, rfl⟩
  · exact ⟨⟨rfl, rfl⟩, rfl, rfl⟩

theorem rteEalMemoryInit_spec {st : EalState} {call : SizingCall} (h : rteEalMemoryInit m st = some call) :
    call.lc = lcoreView st.config st.sockets ∧ st.internal.noHugetlbfs = false ∧
      m.mapPages (usedInfos st.locks) ≠ none := by
  rw [rteEalMemoryInit] at h
  split_ifs at h
  rw [rteEalHugepageInit] at h
  cases hhuge : st.internal.noHugetlbfs with
  | true =>
    rw [if_pos hhuge] at h
    cases h
  | false =>
    rw [if_neg (by rw [hhuge]; decide)] at h
    cases hmap : m.mapPages (usedInfos st.locks) with
    | none =>
      rw [hmap] at h
      cases h
    | some mapped =>
      rw [hmap] at h
      cases h
      exact ⟨rfl, rfl, nofun⟩

/-- The sizing finds the lcores of the initial state, and all steps before it have succeeded. -/
theorem rteEalInit_spec (hprim : internal.processType = .primary) {call : SizingCall}
    (h : rteEalInit m (staticState internal) = some call) :
    call.lc = lcoreView (staticState internal).config (staticState internal).sockets ∧
      ¬EndsBefore m internal := by
  rw [rteEalInit] at h
  split_ifs at h with hcpu hrun
  obtain ⟨st, hconfig, h⟩ := Option.bind_eq_some_iff.mp h
  obtain ⟨st', hfind, h⟩ := Option.bind_eq_some_iff.mp h
  rw [startMemory] at h
  split_ifs at h with hlog
  obtain ⟨hmapped, ⟨hcfg, hsockets⟩, hinternal⟩ := rteConfigInit_spec hconfig
  obtain ⟨⟨hcfg', hsockets'⟩, hinternal', hlocks⟩ := findHugepages_spec hfind
  obtain ⟨⟨hcfg'', hsockets''⟩, hhuge, hsame⟩ := defaultMemory_spec st'
  obtain ⟨hview, hno, hmap⟩ := rteEalMemoryInit_spec h
  rw [hhuge, hinternal', hinternal] at hno
  have hfound := hlocks (by rw [hinternal]; exact hno) (by rw [hinternal]; exact hprim)
  constructor
  · rw [hview, hcfg'', hcfg', hcfg, hsockets'', hsockets', hsockets]
  · rintro (hc | hc | hc | hc | hc)
    · exact hcpu hc
    · rw [hmapped] at hc
      exact absurd hc (by decide)
    · have hc' : (staticState internal).internal.noHugetlbfs = true := hc
      rw [hno] at hc'
      exact absurd hc' (by decide)
    · exact hlog hc
    · rw [hfound] at hc
      rw [hsame] at hmap
      exact hmap hc

/-- Nothing else keeps the run from the sizing. -/
theorem rteEalInit_of_not_endsBefore (hprim : internal.processType = .primary)
    (h : ¬EndsBefore m internal) : ∃ call, rteEalInit m (staticState internal) = some call := by
  simp only [EndsBefore, not_or, Bool.not_eq_false, Bool.not_eq_true] at h
  obtain ⟨hcpu, hmapped, hhuge, hlog, hpages⟩ := h
  cases hinit : ealHugepageInfoInitLocks m.sys m.openDir m.qsort m.dirents with
  | none =>
    rw [hinit] at hpages
    exact absurd trivial hpages
  | some locks =>
    rw [hinit] at hpages
    cases hmap : m.mapPages (usedInfos locks) with
    | none => exact absurd hmap hpages
    | some mapped =>
      refine Option.isSome_iff_exists.mp ?_
      simp [rteEalInit, rteConfigInit, findHugepages, startMemory, defaultMemory, rteEalMemoryInit,
        rteEalHugepageInit, staticState, hcpu, hprim, hmapped, hhuge, hlog, hinit, hmap]

/-- Statically no lcore is counted. -/
theorem static_not_ready {call : SizingCall}
    (h : call.lc = lcoreView (staticState internal).config (staticState internal).sockets) :
    ¬SizingReady call := by
  intro hready
  have hpos := hready.count_pos
  have hzero : (lcoreView (staticState internal).config (staticState internal).sockets).lcoreCount = 0 := rfl
  rw [h, hzero] at hpos
  exact absurd hpos (by decide)

/-- **Initialization** gives the sizing of memory the lcores that it needs exactly when it does not come to
the sizing. -/
theorem sizing_ready_iff (hprim : internal.processType = .primary) :
    (∀ call, rteEalInit m (staticState internal) = some call → SizingReady call) ↔
      EndsBefore m internal := by
  constructor
  · intro hall
    by_contra hnot
    obtain ⟨call, hcall⟩ := rteEalInit_of_not_endsBefore hprim hnot
    exact static_not_ready (rteEalInit_spec hprim hcall).1 (hall call hcall)
  · intro hends call hcall
    exact absurd hends (rteEalInit_spec hprim hcall).2

end

/-- A machine whose log cannot be opened. -/
def noLog : Machine := ⟨true, true, threeMounts, nextDescriptor, insertSlots, ["hugepages-2048kB"], false,
  fun infos => some (infos, infos)⟩

/-- An application that asks for 64 MB. -/
def askFor64 : Internal := ⟨2 ^ 26, false, .primary, 0, fun _ => 0⟩

theorem sizing_ready_iff_noLog :
    (∀ call, rteEalInit noLog (staticState askFor64) = some call → SizingReady call) ↔
      EndsBefore noLog askFor64 :=
  sizing_ready_iff rfl

/-- The same machine with a log, which maps eight pages of 2 MB. -/
def withLog : Machine := { noLog with logInit := true }

/-- The memory is sized with no lcore counted and 128 of them enabled. -/
theorem not_sizing_ready : ∃ call, rteEalInit withLog (staticState askFor64) = some call ∧
    call.cfg.memory = 2 ^ 26 ∧ call.lc.lcoreCount = 0 ∧ (lcoreForeach call.lc).length = 128 ∧
      ¬SizingReady call := by
  have hrun : (rteEalInit withLog (staticState askFor64)).map (fun call =>
      (call.cfg.memory, call.lc.lcoreCount, (lcoreForeach call.lc).length)) = some (2 ^ 26, 0, 128) := by
    decide +kernel
  obtain ⟨call, hcall, hvals⟩ := Option.map_eq_some_iff.mp hrun
  simp only [Prod.mk.injEq] at hvals
  obtain ⟨hmem, hcount, hlen⟩ := hvals
  refine ⟨call, hcall, hmem, hcount, hlen, fun hready => ?_⟩
  have hpos := hready.count_pos
  rw [hcount] at hpos
  exact absurd hpos (by decide)

end EalInit
