import RteDemo.Eal.MemzoneViews

/-!
# Lookups by name

Rings and pools are found by the name in their struct, in a list; a memzone under the same name with a
prefix keeps two of them from having the same one. A lookup compares as many characters as the macro
for the length of a name says, which for rings is one more than the longest name. For pools it is less:
`rte_mempool_create_empty` takes names of up to 28 characters, and 26 are compared (`lookup_exact`).
-/

namespace EalNames

open RteDemo EalTailqs EalMemzone

/-! ## The registries -/

/-- `RTE_RING_MZ_PREFIX`, `"RG_"` -/
def rteRingMzPrefix : CString := ⟨[82, 71, 95], by decide⟩
/-- `RTE_MEMPOOL_MZ_PREFIX`, `"MP_"` -/
def rteMempoolMzPrefix : CString := ⟨[77, 80, 95], by decide⟩
/-- `RTE_RING_NAMESIZE` -/
def rteRingNamesize : Nat := rteMemzoneNamesize - (rteRingMzPrefix.length + 1) + 1
/-- `RTE_MEMPOOL_NAMESIZE` -/
def rteMempoolNamesize : Nat := rteRingNamesize - (rteMempoolMzPrefix.length + 1) + 1

/-- The concatenation that `snprintf` writes for `"%s%s"`. -/
def append (s t : CString) : CString := ⟨s.bytes ++ t.bytes, fun h =>
  (List.mem_append.mp h).elim s.noNul t.noNul⟩

/-- An entry of the list of rings or of pools: the `name` of the struct, and its zone. The name that it
was created under is not stored. -/
structure Entry where
  name : CString
  memzone : Nat
  createdAs : CString

/-- The zones and the two lists. -/
structure Registry where
  memzone : MemzoneTable
  ringList : List Entry
  mempoolList : List Entry

/-- `rte_ring_lookup` -/
def rteRingLookup (s : Registry) (name : CString) : Option Entry :=
  s.ringList.find? fun r => strncmpEqual name.bytes r.name.bytes rteRingNamesize

/-- `rte_mempool_lookup` -/
def rteMempoolLookup (s : Registry) (name : CString) : Option Entry :=
  s.mempoolList.find? fun mp => strncmpEqual name.bytes mp.name.bytes rteMempoolNamesize

/-! ## Creating and freeing -/

/-- A reservation under `name` succeeds, whatever it asks for and the heaps are. -/
def Reserves (memzone memzone' : MemzoneTable) (name : CString) (mz : Nat) : Prop :=
  ∃ env cfg cfg' len socketId flags align bound, cfg.memzone = memzone ∧ cfg'.memzone = memzone' ∧
    memzoneReserveAlignedThreadUnsafe env cfg name len socketId flags align bound = (cfg', .ok mz)

/-- A free of the zone succeeds. -/
def Frees (memzone memzone' : MemzoneTable) (mz : Nat) : Prop :=
  ∃ cfg cfg', cfg.memzone = memzone ∧ cfg'.memzone = memzone' ∧ rteMemzoneFree cfg (some mz) = some (cfg', 0)

/-- The name that `snprintf` leaves in the `name` of `struct rte_ring` and `struct rte_mempool`. -/
def storedName (name : CString) : CString := name.trunc (rteMemzoneNamesize - 1)

/-- The entry whose struct lies in the zone leaves the list. -/
def unlink (l : List Entry) (mz : Nat) : List Entry := l.eraseP fun e => e.memzone == mz

/-- Calls that succeed. -/
inductive NameStep (s : Registry) : Registry → Prop
  /-- `rte_memzone_reserve_*` -/
  | reserve {memzone' : MemzoneTable} {name : CString} {mz : Nat} (code : Reserves s.memzone memzone' name mz) :
      NameStep s { s with memzone := memzone' }
  /-- `rte_memzone_free` of a zone that is not that of a ring or a pool. -/
  | free {memzone' : MemzoneTable} {mz : Nat} (ring : ∀ r ∈ s.ringList, r.memzone ≠ mz)
      (mempool : ∀ mp ∈ s.mempoolList, mp.memzone ≠ mz) (code : Frees s.memzone memzone' mz) :
      NameStep s { s with memzone := memzone' }
  /-- `rte_ring_create` -/
  | ringCreate {memzone' : MemzoneTable} {name : CString} {mz : Nat}
      (fits : ¬(append rteRingMzPrefix name).length ≥ rteMemzoneNamesize)
      (code : Reserves s.memzone memzone' (append rteRingMzPrefix name) mz) :
      NameStep s { s with memzone := memzone', ringList := s.ringList ++ [⟨storedName name, mz, name⟩] }
  /-- `rte_ring_free` -/
  | ringFree {memzone' : MemzoneTable} {r : Entry} (mem : r ∈ s.ringList)
      (code : Frees s.memzone memzone' r.memzone) :
      NameStep s { s with memzone := memzone', ringList := unlink s.ringList r.memzone }
  /-- `rte_mempool_create_empty` -/
  | mempoolCreateEmpty {memzone' : MemzoneTable} {name : CString} {mz : Nat}
      (fits : ¬(append rteMempoolMzPrefix name).length ≥ rteMemzoneNamesize)
      (code : Reserves s.memzone memzone' (append rteMempoolMzPrefix name) mz) :
      NameStep s { s with memzone := memzone', mempoolList := s.mempoolList ++ [⟨storedName name, mz, name⟩] }
  /-- `rte_mempool_free`, the pool itself. -/
  | mempoolFree {memzone' : MemzoneTable} {mp : Entry} (mem : mp ∈ s.mempoolList)
      (code : Frees s.memzone memzone' mp.memzone) :
      NameStep s { s with memzone := memzone', mempoolList := unlink s.mempoolList mp.memzone }

/-- Nothing has been created. -/
def NameInit (s : Registry) : Prop := s = ⟨fun _ => RteMemzone.zero, [], []⟩

/-- A lookup finds the object that was created under the name, and nothing else. -/
structure LookupExact (s : Registry) : Prop where
  ring : ∀ name r, rteRingLookup s name = some r ↔ r ∈ s.ringList ∧ r.createdAs = name
  mempool : ∀ name mp, rteMempoolLookup s name = some mp ↔ mp ∈ s.mempoolList ∧ mp.createdAs = name
  memzone : ∀ name i, rteMemzoneLookup s.memzone name = some i ↔
    Reserved s.memzone i ∧ (s.memzone i).name = name

/-! ## Lists of entries -/

/-- The zones of the entries are reserved under their names, which the structs hold in full. -/
structure Listed (memzone : MemzoneTable) (pre : CString) (l : List Entry) : Prop where
  zone : ∀ e ∈ l, Reserved memzone e.memzone ∧ (memzone e.memzone).name = append pre e.createdAs
  name : ∀ e ∈ l, e.name = e.createdAs
  apart : l.Pairwise fun e f => e.memzone ≠ f.memzone

theorem append_inj {pre s t : CString} (h : append pre s = append pre t) : s = t :=
  CString.ext (List.append_cancel_left (congrArg CString.bytes h))

theorem length_append (s t : CString) : (append s t).length = s.length + t.length := List.length_append

section

variable {memzone memzone' : MemzoneTable} {pre name : CString} {l : List Entry} {mz : Nat}

/-- What a reservation does to the table. -/
theorem Reserves.filled (h : Reserves memzone memzone' name mz) : NameFree memzone name ∧
    getNextFreeMemzone memzone = some mz ∧
      ∃ zone, memzone' = Function.update memzone mz zone ∧ zone.name = name ∧ zone.addr ≠ 0 := by
  obtain ⟨env, cfg, cfg', len, socketId, flags, align, bound, rfl, rfl, hcode⟩ := h
  rcases memzoneReserve_cases hcode with ⟨e, herr, -⟩ | ⟨hfree, mz', zone, hok, hfilled⟩
  · cases herr
  · obtain rfl := Except.ok.inj hok
    exact ⟨hfree, hfilled.free, zone, hfilled.table, hfilled.named, hfilled.addr⟩

theorem Frees.cleared (h : Frees memzone memzone' mz) :
    memzone' = Function.update memzone mz RteMemzone.zero := by
  obtain ⟨cfg, cfg', rfl, rfl, hcode⟩ := h
  rcases rteMemzoneFree_cases hcode with ⟨hret, -⟩ | ⟨idx, hidx, -, -, htable⟩
  · exact absurd hret (by decide)
  · rw [htable, Option.some.inj hidx]

namespace Listed

theorem nil (memzone : MemzoneTable) (pre : CString) : Listed memzone pre [] where
  zone _ he := absurd he List.not_mem_nil
  name _ he := absurd he List.not_mem_nil
  apart := List.Pairwise.nil

/-- A zone that is not in use is not that of an entry. -/
theorem reserve (h : Listed memzone pre l) (hr : Reserves memzone memzone' name mz) : Listed memzone' pre l where
  zone e he := by
    obtain ⟨-, hfree, zone, rfl, -, -⟩ := hr.filled
    obtain ⟨hres, hname⟩ := h.zone e he
    have hne : e.memzone ≠ mz := fun heq => hres.2 (heq ▸ (getNextFreeMemzone_some hfree).2)
    rw [Reserved.update hne, Function.update_of_ne hne]
    exact ⟨hres, hname⟩
  name := h.name
  apart := h.apart

theorem free (h : Listed memzone pre l) (hf : Frees memzone memzone' mz) (hne : ∀ e ∈ l, e.memzone ≠ mz) :
    Listed memzone' pre l where
  zone e he := by
    rw [hf.cleared, Reserved.update (hne e he), Function.update_of_ne (hne e he)]
    exact h.zone e he
  name := h.name
  apart := h.apart

/-- A new entry comes last. -/
theorem create (h : Listed memzone pre l) (hfits : ¬(append pre name).length ≥ rteMemzoneNamesize)
    (hr : Reserves memzone memzone' (append pre name) mz) :
    Listed memzone' pre (l ++ [⟨storedName name, mz, name⟩]) := by
  have hold := h.reserve hr
  obtain ⟨-, hfree, zone, rfl, hname, haddr⟩ := hr.filled
  obtain ⟨hlt, hzero⟩ := getNextFreeMemzone_some hfree
  have hstored : storedName name = name := by
    rw [length_append] at hfits
    simp only [rteMemzoneNamesize] at hfits
    exact CString.trunc_eq (by simp only [rteMemzoneNamesize]; omega)
  have hself := Function.update_self mz zone memzone
  constructor
  · intro e he
    rcases List.mem_append.mp he with he | he
    · exact hold.zone e he
    · rw [List.mem_singleton.mp he]
      exact ⟨⟨hlt, by rwa [hself]⟩, by rw [hself, hname]⟩
  · intro e he
    rcases List.mem_append.mp he with he | he
    · exact h.name e he
    · rw [List.mem_singleton.mp he]
      exact hstored
  · refine List.pairwise_append.mpr ⟨h.apart, List.pairwise_singleton _ _, fun e he f hf => ?_⟩
    rw [List.mem_singleton.mp hf]
    exact fun heq => (h.zone e he).1.2 (heq ▸ hzero)

theorem mem_unlink (h : l.Pairwise fun e f => e.memzone ≠ f.memzone) {e : Entry} (he : e ∈ unlink l mz) :
    e ∈ l ∧ e.memzone ≠ mz := by
  induction l with
  | nil => exact absurd he List.not_mem_nil
  | cons f l ih =>
    rw [List.pairwise_cons] at h
    rw [unlink] at he
    by_cases hf : f.memzone = mz
    · rw [List.eraseP_cons_of_pos (by simpa using hf)] at he
      exact ⟨List.mem_cons_of_mem _ he, fun heq => h.1 e he (hf.trans heq.symm)⟩
    · rw [List.eraseP_cons_of_neg (by simpa using hf)] at he
      rcases List.mem_cons.mp he with rfl | he
      · exact ⟨List.mem_cons_self, hf⟩
      · obtain ⟨hmem, hne⟩ := ih h.2 he
        exact ⟨List.mem_cons_of_mem _ hmem, hne⟩

theorem remove (h : Listed memzone pre l) (hf : Frees memzone memzone' mz) :
    Listed memzone' pre (unlink l mz) := by
  have hrest : Listed memzone pre (unlink l mz) := {
    zone := fun e he => h.zone e (mem_unlink h.apart he).1
    name := fun e he => h.name e (mem_unlink h.apart he).1
    apart := h.apart.sublist List.eraseP_sublist }
  exact hrest.free hf fun e he => (mem_unlink h.apart he).2

/-- The entries have different names. -/
theorem unique (h : Listed memzone pre l) (hok : TableOK memzone) {e f : Entry} (he : e ∈ l) (hf : f ∈ l)
    (heq : e.createdAs = f.createdAs) : e = f := by
  obtain ⟨hre, hne⟩ := h.zone e he
  obtain ⟨hrf, hnf⟩ := h.zone f hf
  have hzone : e.memzone = f.memzone := hok.distinct _ _ hre hrf (by rw [hne, hnf, heq])
  by_contra hdiff
  have hsymm : Std.Symm fun e f : Entry => e.memzone ≠ f.memzone := ⟨fun _ _ => Ne.symm⟩
  exact h.apart.forall he hf hdiff hzone

theorem length_lt (h : Listed memzone pre l) (hok : TableOK memzone) {e : Entry} (he : e ∈ l) :
    pre.length + e.createdAs.length < rteMemzoneNamesize := by
  obtain ⟨hres, hname⟩ := h.zone e he
  have hlen := hok.len _ hres
  rwa [hname, length_append] at hlen

/-- A lookup that compares more characters than the names have is exact. -/
theorem find_exact (h : Listed memzone pre l) (hok : TableOK memzone) {n : Nat}
    (hn : ∀ e ∈ l, e.createdAs.length < n) (name : CString) (e : Entry) :
    l.find? (fun e => strncmpEqual name.bytes e.name.bytes n) = some e ↔ e ∈ l ∧ e.createdAs = name := by
  have hmatch : ∀ f ∈ l, strncmpEqual name.bytes f.name.bytes n = true ↔ f.createdAs = name := by
    intro f hf
    rw [h.name f hf, strncmpEqual_iff_of_lt (hn f hf), eq_comm]
  constructor
  · intro hfind
    have he := List.mem_of_find?_eq_some hfind
    have hfound := List.find?_some (p := fun e : Entry => strncmpEqual name.bytes e.name.bytes n) hfind
    exact ⟨he, (hmatch e he).mp hfound⟩
  · rintro ⟨he, hname⟩
    cases hfind : l.find? (fun e => strncmpEqual name.bytes e.name.bytes n) with
    | none =>
      have hnot := List.find?_eq_none.mp hfind e he
      exact absurd ((hmatch e he).mpr hname) hnot
    | some f =>
      have hf := List.mem_of_find?_eq_some hfind
      have hfound := List.find?_some (p := fun e : Entry => strncmpEqual name.bytes e.name.bytes n) hfind
      rw [h.unique hok hf he (((hmatch f hf).mp hfound).trans hname.symm)]

end Listed

end

/-! ## Runs -/

/-- What all runs keep. -/
structure RegistryOK (s : Registry) : Prop where
  table : TableOK s.memzone
  rings : Listed s.memzone rteRingMzPrefix s.ringList
  mempools : Listed s.memzone rteMempoolMzPrefix s.mempoolList

/-- The zones of rings and of pools have different names. -/
theorem append_prefix_ne (s t : CString) : append rteRingMzPrefix s ≠ append rteMempoolMzPrefix t := by
  intro h
  have hbytes : ([82, 71, 95] : List UInt8) ++ s.bytes = [77, 80, 95] ++ t.bytes := congrArg CString.bytes h
  exact absurd (List.cons.inj hbytes).1 (by decide)

theorem Reserves.tableOK {memzone memzone' : MemzoneTable} {name : CString} {mz : Nat}
    (h : Reserves memzone memzone' name mz) (hok : TableOK memzone) : TableOK memzone' := by
  obtain ⟨hfree, -, zone, rfl, hname, -⟩ := h.filled
  exact hok.fill (hname ▸ hfree)

theorem Frees.tableOK {memzone memzone' : MemzoneTable} {mz : Nat} (h : Frees memzone memzone' mz)
    (hok : TableOK memzone) : TableOK memzone' := by
  rw [h.cleared]
  exact hok.clear mz

variable {s s' : Registry}

/-- A ring and a pool do not share a zone. -/
theorem RegistryOK.apart (h : RegistryOK s) {r mp : Entry} (hr : r ∈ s.ringList) (hmp : mp ∈ s.mempoolList) :
    r.memzone ≠ mp.memzone := by
  intro heq
  have hname := (h.rings.zone r hr).2
  rw [heq, (h.mempools.zone mp hmp).2] at hname
  exact append_prefix_ne _ _ hname.symm

theorem RegistryOK.step (h : RegistryOK s) (hs : NameStep s s') : RegistryOK s' := by
  cases hs with
  | reserve code => exact ⟨code.tableOK h.table, h.rings.reserve code, h.mempools.reserve code⟩
  | free ring mempool code => exact ⟨code.tableOK h.table, h.rings.free code ring, h.mempools.free code mempool⟩
  | ringCreate fits code =>
    exact ⟨code.tableOK h.table, h.rings.create fits code, h.mempools.reserve code⟩
  | ringFree mem code =>
    exact ⟨code.tableOK h.table, h.rings.remove code,
      h.mempools.free code fun mp hmp => (h.apart mem hmp).symm⟩
  | mempoolCreateEmpty fits code =>
    exact ⟨code.tableOK h.table, h.rings.reserve code, h.mempools.create fits code⟩
  | mempoolFree mem code =>
    exact ⟨code.tableOK h.table, h.rings.free code fun r hr => h.apart hr mem, h.mempools.remove code⟩

theorem registryOK_of_reach (h : Reach NameInit NameStep s) : RegistryOK s := by
  refine h.invariant ?_ fun _ _ hok hstep => hok.step hstep
  rintro _ rfl
  exact ⟨tableOK_zero, .nil _ _, .nil _ _⟩

/-- Pools with names that a lookup compares whole. -/
def ShortPools (s : Registry) : Prop := ∀ mp ∈ s.mempoolList, mp.createdAs.length < rteMempoolNamesize

/-- The name of a pool with other characters behind those that are compared. -/
def beyond (name : CString) : CString := append (name.trunc rteMempoolNamesize) ⟨[1, 1, 1], by decide⟩

theorem RegistryOK.lookupExact_iff (h : RegistryOK s) : LookupExact s ↔ ShortPools s := by
  constructor
  · intro hexact mp hmp
    by_contra hlong
    obtain ⟨hn, hlen⟩ : rteMempoolNamesize = 26 ∧ rteMempoolMzPrefix.length = 3 := by decide
    -- the lookup of a name that is too long finds something
    have htake : ((beyond mp.createdAs).bytes).take 26 = mp.name.bytes.take 26 := by
      have hle : (mp.createdAs.trunc 26).bytes.length = 26 := by
        rw [CString.trunc, List.length_take]
        change min 26 mp.createdAs.length = 26
        omega
      rw [h.mempools.name mp hmp, beyond, hn, append, List.take_append_of_le_length hle.ge,
        List.take_of_length_le hle.le]
      rfl
    cases hfind : rteMempoolLookup s (beyond mp.createdAs) with
    | none =>
      refine List.find?_eq_none.mp hfind mp hmp ?_
      rw [hn, strncmpEqual_iff]
      exact htake
    | some f =>
      obtain ⟨hf, hname⟩ := (hexact.mempool _ _).mp hfind
      have hshort := h.mempools.length_lt h.table hf
      rw [hname, beyond, length_append, hn] at hshort
      have htrunc : (mp.createdAs.trunc 26).length = 26 := by
        rw [CString.length, CString.trunc, List.length_take]
        change min 26 mp.createdAs.length = 26
        omega
      have hthree : (CString.mk [1, 1, 1] (by decide)).length = 3 := rfl
      simp only [rteMemzoneNamesize] at hshort
      omega
  · intro hshort
    refine ⟨fun name r => ?_, fun name mp => h.mempools.find_exact h.table hshort name mp, fun name i =>
      memzoneLookup_eq_some h.table⟩
    refine h.rings.find_exact h.table (fun e he => ?_) name r
    obtain ⟨hn, hlen⟩ : rteRingNamesize = 29 ∧ rteRingMzPrefix.length = 3 := by decide
    have hlt := h.rings.length_lt h.table he
    simp only [rteMemzoneNamesize] at hlt
    omega

/-- **Lookup by name** is exact for rings and zones, and for pools as long as no pool has a name of more
characters than a lookup compares. -/
theorem lookup_exact (h : Reach NameInit NameStep s) : LookupExact s ↔ ShortPools s :=
  (registryOK_of_reach h).lookupExact_iff

/-! ## One pool -/

/-- A reservation that the table allows succeeds on some heap. -/
theorem exists_reserves {memzone : MemzoneTable} {name : CString} {mz : Nat} (hname : NameFree memzone name)
    (hnext : getNextFreeMemzone memzone = some mz) : ∃ memzone', Reserves memzone memzone' name mz := by
  obtain ⟨s, halloc, -⟩ := node_alloc_zero nodeStart_inv (by rw [nodeStart])
  obtain ⟨cfg, hheap, rfl, hcnt⟩ : ∃ cfg : MemConfig, cfg.heap = nodeStart.heap ∧
      cfg.memzone = memzone ∧ cfg.memzoneCnt = 0 := ⟨⟨_, fun _ => 0, _, _⟩, rfl, rfl, rfl⟩
  have hres := @memzoneReserve_ok zoneEnv cfg name (2 ^ 21 - 192) 0 (2 ^ 7) _ mz (by rw [hcnt]; decide) hname
    hnext (by decide) (by decide) (by decide) (by decide) (by decide) (by decide) rfl (hheap ▸ halloc)
    (show nodeBlock.ptr ≠ 0 by decide)
  exact ⟨_, zoneEnv, cfg, _, _, _, _, _, _, rfl, rfl, hres⟩

/-- A pool of any name of up to 28 characters can be created. -/
theorem exists_pool {name : CString} (hlen : name.length ≤ 28) :
    ∃ s, Reach NameInit NameStep s ∧ s.mempoolList = [⟨storedName name, 0, name⟩] := by
  have hfits : (append rteMempoolMzPrefix name).length < rteMemzoneNamesize := by
    rw [length_append]
    change 3 + name.length < 32
    omega
  have hnext : getNextFreeMemzone (fun _ => RteMemzone.zero) = some 0 :=
    getNextFreeMemzone_eq (by decide) rfl fun i hi => absurd hi (Nat.not_lt_zero i)
  obtain ⟨memzone', hres⟩ := exists_reserves
    (nameFree_of_ne tableOK_zero hfits fun i hi => absurd rfl hi.2) hnext
  exact ⟨_, .next (.start rfl) (.mempoolCreateEmpty (Nat.not_le.mpr hfits) hres), rfl⟩

theorem lookup_exact_a : ∃ s, Reach NameInit NameStep s ∧ s.mempoolList.length = 1 ∧ LookupExact s := by
  obtain ⟨s, hreach, hlist⟩ := exists_pool (show zoneA.length ≤ 28 by decide)
  refine ⟨s, hreach, by rw [hlist]; rfl, (lookup_exact hreach).mpr fun mp hmp => ?_⟩
  rw [hlist] at hmp
  rw [List.mem_singleton.mp hmp]
  decide

/-- Twenty-six times `"a"`. -/
def longName : CString := ⟨List.replicate 26 97, by decide⟩

/-- The pool of the long name is found under a longer one. -/
theorem not_lookup_exact : ∃ s, Reach NameInit NameStep s ∧ s.mempoolList.length = 1 ∧
    (rteMempoolLookup s (beyond longName)).isSome ∧ ¬LookupExact s := by
  obtain ⟨s, hreach, hlist⟩ := exists_pool (show longName.length ≤ 28 by decide)
  refine ⟨s, hreach, by rw [hlist]; rfl, ?_, fun h => ?_⟩
  · rw [rteMempoolLookup, hlist]
    decide
  · have hshort := (registryOK_of_reach hreach).lookupExact_iff.mp h ⟨storedName longName, 0, longName⟩
      (hlist ▸ List.mem_cons_self)
    exact absurd hshort (by decide)

end EalNames
