import RteDemo.Lib.Holders
import RteDemo.Lib.Reach

/-!
# The ring list and the memory of its rings

Any number of threads run `rte_ring_create`, `rte_ring_free`, `rte_ring_lookup` and
`rte_ring_list_dump`. The steps are the acquisitions and releases of `qlock` (the tailq lock) and
`mlock`, the reservation and the zeroing of a memzone descriptor, `rte_free` of the zone's block, and
the changes of the list. A ring is the address of its zone; a list entry is the `data` of its
`rte_tailq_entry`.

`rte_ring_free` zeroes the descriptor and gives the block back before it takes `qlock` and unlinks
the entry. As long as no listed ring loses its descriptor this way every entry names a reserved zone
(`listed_of_unlisted_free`); one `rte_ring_free` is enough to break this (`not_listed`).
-/

namespace RingList

def rteMaxMemzone : Nat := 2560

/-- The functions that go through the list. -/
inductive Traversal
  | lookup
  | listDump
  deriving DecidableEq, Repr

/-- Where a thread is; `r` is its ring and `mz` the index of the ring's memzone descriptor. -/
inductive Pc
  | idle
  /-- `rte_ring_create`, about to allocate the tailq entry. -/
  | createTe
  | createQlock
  | createMlock
  /-- At `memzone_reserve_aligned_thread_unsafe`. -/
  | createReserve
  | createMunlock (mz r : Nat)
  | createMunlockFail
  /-- At `rte_ring_init` and `TAILQ_INSERT_TAIL`. -/
  | createInsert (mz r : Nat)
  | createQunlock (mz r : Nat)
  | createFail
  /-- `rte_ring_free`, in `rte_memzone_free`. -/
  | freeMlock (mz r : Nat)
  | freeClear (mz r : Nat)
  | freeMunlock (addr : Option Nat) (r : Nat)
  /-- At `rte_free(addr)`. -/
  | freeHeap (addr : Option Nat) (r : Nat)
  | freeQlock (r : Nat)
  /-- Looking for the tailq entry and removing it. -/
  | freeUnlink (r : Nat)
  | freeQunlock (r : Nat)
  | traverseLock (f : Traversal)
  /-- Between the read lock and the read unlock. -/
  | traverse (f : Traversal)
  deriving DecidableEq, Repr

/-- The shared state and the threads. -/
structure State (T : Type*) where
  qlock : Holders T
  mlock : Holders T
  /-- `mcfg->memzone[i].addr`. -/
  zone : Nat → Option Nat
  /-- The blocks behind zones that the heap has handed out. -/
  heap : List Nat
  /-- `r->memzone`. -/
  memzone : Nat → Nat
  list : List Nat
  /-- The rings that `rte_ring_create` returned and nobody has passed to `rte_ring_free` yet. -/
  owned : List Nat
  pc : T → Pc

variable {T : Type*}

def Init (s : State T) : Prop :=
  (∀ t, s.qlock t = .free) ∧ (∀ t, s.mlock t = .free) ∧ (∀ i, s.zone i = none) ∧ s.heap = [] ∧
    s.list = [] ∧ s.owned = [] ∧ ∀ t, s.pc t = .idle

section Steps

variable [DecidableEq T]

def State.goto (s : State T) (t : T) (pc : Pc) : State T :=
  { s with pc := Function.update s.pc t pc }

def State.setQlock (s : State T) (t : T) (m : Mode) : State T :=
  { s with qlock := Function.update s.qlock t m }

def State.setMlock (s : State T) (t : T) (m : Mode) : State T :=
  { s with mlock := Function.update s.mlock t m }

/-- `malloc_heap_alloc` and the filling of a free descriptor. -/
def State.reserve (s : State T) (mz r : Nat) : State T :=
  { s with zone := Function.update s.zone mz (some r), heap := r :: s.heap }

/-- The `memset` of a descriptor. -/
def State.clear (s : State T) (mz : Nat) : State T :=
  { s with zone := Function.update s.zone mz none }

/-- `r->memzone = mz` and `TAILQ_INSERT_TAIL`. -/
def State.insert (s : State T) (mz r : Nat) : State T :=
  { s with memzone := Function.update s.memzone r mz, list := s.list ++ [r] }

/-- The steps of thread `t`. -/
inductive Step (t : T) : State T → State T → Prop
  | callCreate {s} : s.pc t = .idle → Step t s (s.goto t .createTe)
  | createTe {s} : s.pc t = .createTe → Step t s (s.goto t .createQlock)
  | createTeFail {s} : s.pc t = .createTe → Step t s (s.goto t .idle)
  | createQlock {s} : s.pc t = .createQlock → s.qlock.CanWrite →
      Step t s ((s.setQlock t .write).goto t .createMlock)
  | createMlock {s} : s.pc t = .createMlock → s.mlock.CanWrite →
      Step t s ((s.setMlock t .write).goto t .createReserve)
  | createReserve {s} (mz r : Nat) : s.pc t = .createReserve → mz < rteMaxMemzone →
      s.zone mz = none → r ∉ s.heap → Step t s ((s.reserve mz r).goto t (.createMunlock mz r))
  | createReserveFail {s} : s.pc t = .createReserve → Step t s (s.goto t .createMunlockFail)
  | createMunlock {s mz r} : s.pc t = .createMunlock mz r →
      Step t s ((s.setMlock t .free).goto t (.createInsert mz r))
  | createMunlockFail {s} : s.pc t = .createMunlockFail →
      Step t s ((s.setMlock t .free).goto t .createFail)
  | createInsert {s mz r} : s.pc t = .createInsert mz r →
      Step t s ((s.insert mz r).goto t (.createQunlock mz r))
  | createQunlock {s mz r} : s.pc t = .createQunlock mz r →
      Step t s ({ s.setQlock t .free with owned := r :: s.owned }.goto t .idle)
  | createFail {s} : s.pc t = .createFail → Step t s ((s.setQlock t .free).goto t .idle)
  | callFree {s} (r : Nat) : s.pc t = .idle → r ∈ s.owned →
      Step t s ({ s with owned := s.owned.erase r }.goto t (.freeMlock (s.memzone r) r))
  | freeMlock {s mz r} : s.pc t = .freeMlock mz r → s.mlock.CanWrite →
      Step t s ((s.setMlock t .write).goto t (.freeClear mz r))
  | freeClear {s mz r addr} : s.pc t = .freeClear mz r → s.zone mz = some addr →
      Step t s ((s.clear mz).goto t (.freeMunlock (some addr) r))
  | freeClearNone {s mz r} : s.pc t = .freeClear mz r → s.zone mz = none →
      Step t s (s.goto t (.freeMunlock none r))
  | freeMunlock {s addr r} : s.pc t = .freeMunlock addr r →
      Step t s ((s.setMlock t .free).goto t (.freeHeap addr r))
  | freeHeap {s addr r} : s.pc t = .freeHeap (some addr) r →
      Step t s ({ s with heap := s.heap.erase addr }.goto t (.freeQlock r))
  | freeHeapNone {s r} : s.pc t = .freeHeap none r →
      -- rte_memzone_free has failed, and rte_ring_free returns
      Step t s (s.goto t .idle)
  | freeQlock {s r} : s.pc t = .freeQlock r → s.qlock.CanWrite →
      Step t s ((s.setQlock t .write).goto t (.freeUnlink r))
  | freeUnlink {s r} : s.pc t = .freeUnlink r →
      Step t s ({ s with list := s.list.erase r }.goto t (.freeQunlock r))
  | freeQunlock {s r} : s.pc t = .freeQunlock r →
      Step t s ((s.setQlock t .free).goto t .idle)
  | callTraverse {s} (f : Traversal) : s.pc t = .idle → Step t s (s.goto t (.traverseLock f))
  | traverseLock {s f} : s.pc t = .traverseLock f → s.qlock.CanRead →
      Step t s ((s.setQlock t .read).goto t (.traverse f))
  | traverseUnlock {s f} : s.pc t = .traverse f →
      Step t s ((s.setQlock t .free).goto t .idle)

end Steps

/-- Every entry of the list names a ring whose memzone is reserved. -/
def State.Listed (s : State T) : Prop := ∀ r ∈ s.list, ∃ mz, s.zone mz = some r

/-- What a lookup or a dump relies on: with no writer, and inside any traversal, every entry names a
ring whose memzone is reserved. -/
def State.Safe (s : State T) : Prop :=
  ((∀ t, s.qlock t ≠ .write) → s.Listed) ∧ ∀ t f, s.pc t = .traverse f → s.Listed

/-! ## Who is responsible for a zone -/

/-- The zone that a thread has reserved and not handed to a caller yet, or has been given to free and
not zeroed yet. -/
def Pc.reserved : Pc → Option (Nat × Nat)
  | .createMunlock mz r | .createInsert mz r | .createQunlock mz r | .freeMlock mz r
  | .freeClear mz r => some (mz, r)
  | _ => none

/-- The ring that a thread has put on the list and not handed to its caller yet. -/
def Pc.inserted : Pc → Option (Nat × Nat)
  | .createQunlock mz r => some (mz, r)
  | _ => none

/-- The block whose zone a thread has zeroed and which it is about to give back. -/
def Pc.cleared : Pc → Option Nat
  | .freeMunlock addr _ | .freeHeap addr _ => addr
  | _ => none

/-- The block a thread is responsible for. -/
def Pc.block (pc : Pc) : Option Nat := pc.reserved.elim pc.cleared fun x => some x.2

theorem Pc.reserved_of_inserted {pc : Pc} {x : Nat × Nat} (h : pc.inserted = some x) :
    pc.reserved = some x := by
  cases pc with
  | createQunlock mz r => exact h
  | _ => exact absurd h nofun

theorem Pc.block_of_reserved {pc : Pc} {mz r : Nat} (h : pc.reserved = some (mz, r)) :
    pc.block = some r := by
  rw [Pc.block, h]
  rfl

/-- The invariant: every block has one owner, a caller that holds the ring or a thread that creates
or frees it, and the zone of a ring that is held is reserved. -/
structure Inv (s : State T) : Prop where
  one : ∀ t u r, (s.pc t).block = some r → (s.pc u).block = some r → t = u
  notOwned : ∀ t r, (s.pc t).block = some r → r ∉ s.owned
  nodup : s.owned.Nodup
  heapBlock : ∀ t r, (s.pc t).block = some r → r ∈ s.heap
  heapOwned : ∀ r ∈ s.owned, r ∈ s.heap
  zoneOwned : ∀ r ∈ s.owned, s.zone (s.memzone r) = some r
  zoneReserved : ∀ t mz r, (s.pc t).reserved = some (mz, r) → s.zone mz = some r
  inserted : ∀ t mz r, (s.pc t).inserted = some (mz, r) → s.memzone r = mz

theorem inv_init {s : State T} (h : Init s) : Inv s := by
  obtain ⟨-, -, -, -, -, howned, hpc⟩ := h
  have hblock : ∀ t r, (s.pc t).block ≠ some r := fun t r => by rw [hpc]; exact nofun
  have hreserved : ∀ t x, (s.pc t).reserved ≠ some x := fun t x => by rw [hpc]; exact nofun
  have hnone : ∀ r, r ∉ s.owned := fun r => by rw [howned]; exact List.not_mem_nil
  exact {
    one := fun t _ r ht => absurd ht (hblock t r)
    notOwned := fun _ r _ => hnone r
    nodup := by rw [howned]; exact List.nodup_nil
    heapBlock := fun t r ht => absurd ht (hblock t r)
    heapOwned := fun r hr => absurd hr (hnone r)
    zoneOwned := fun r hr => absurd hr (hnone r)
    zoneReserved := fun t mz r ht => absurd ht (hreserved t (mz, r))
    inserted := fun t mz r ht => absurd (Pc.reserved_of_inserted ht) (hreserved t (mz, r)) }

section Runs

variable [DecidableEq T] {s s' s₁ : State T} {t : T} {pc pc' : Pc} {mz r : Nat}

theorem goto_pc (s : State T) (t u : T) (pc : Pc) :
    (s.goto t pc).pc u = if u = t then pc else s.pc u := Function.update_apply ..

/-- A step of `t` that leaves zones, heap and ring handles alone, and after which `t` is responsible
for the same zone as before or for none. -/
theorem Inv.goto (hi : Inv s) (ht : s.pc t = pc)
    (hb : ∀ r, pc'.block = some r → pc.block = some r)
    (hr : ∀ x, pc'.reserved = some x → pc.reserved = some x)
    (hq : ∀ x, pc'.inserted = some x → pc.inserted = some x)
    (hp : s₁.pc = s.pc := by rfl) (hz : s₁.zone = s.zone := by rfl)
    (hh : s₁.heap = s.heap := by rfl) (hm : s₁.memzone = s.memzone := by rfl)
    (ho : s₁.owned = s.owned := by rfl) : Inv (s₁.goto t pc') := by
  have hblock : ∀ u r, ((s₁.goto t pc').pc u).block = some r → (s.pc u).block = some r := by
    intro u r hu
    rw [goto_pc] at hu
    split at hu
    · rename_i hut
      rw [hut, ht]
      exact hb r hu
    · rwa [hp] at hu
  have hreserved : ∀ u x, ((s₁.goto t pc').pc u).reserved = some x →
      (s.pc u).reserved = some x := by
    intro u x hu
    rw [goto_pc] at hu
    split at hu
    · rename_i hut
      rw [hut, ht]
      exact hr x hu
    · rwa [hp] at hu
  have hinserted : ∀ u x, ((s₁.goto t pc').pc u).inserted = some x →
      (s.pc u).inserted = some x := by
    intro u x hu
    rw [goto_pc] at hu
    split at hu
    · rename_i hut
      rw [hut, ht]
      exact hq x hu
    · rwa [hp] at hu
  refine ⟨fun u v r hu hv => hi.one u v r (hblock u r hu) (hblock v r hv), ?_, ?_, ?_, ?_, ?_, ?_,
    ?_⟩
  · intro u r hu
    change r ∉ s₁.owned
    rw [ho]
    exact hi.notOwned u r (hblock u r hu)
  · change s₁.owned.Nodup
    rw [ho]
    exact hi.nodup
  · intro u r hu
    change r ∈ s₁.heap
    rw [hh]
    exact hi.heapBlock u r (hblock u r hu)
  · change ∀ r ∈ s₁.owned, r ∈ s₁.heap
    rw [ho, hh]
    exact hi.heapOwned
  · change ∀ r ∈ s₁.owned, s₁.zone (s₁.memzone r) = some r
    rw [ho, hz, hm]
    exact hi.zoneOwned
  · intro u mz r hu
    change s₁.zone mz = some r
    rw [hz]
    exact hi.zoneReserved u mz r (hreserved u _ hu)
  · intro u mz r hu
    change s₁.memzone r = mz
    rw [hm]
    exact hi.inserted u mz r (hinserted u _ hu)

/-- What the threads other than `t` are responsible for after a step of `t`. -/
theorem goto_ne {u : T} (hut : u ≠ t) : (s.goto t pc').pc u = s.pc u := by
  rw [goto_pc, if_neg hut]

theorem goto_self : (s.goto t pc').pc t = pc' := by rw [goto_pc, if_pos rfl]

/-- The block of `t` changes to one that nobody else has. -/
theorem one_goto (hi : Inv s) (hb : ∀ u r, u ≠ t → pc'.block = some r → (s.pc u).block ≠ some r)
    (hp : s₁.pc = s.pc := by rfl) : ∀ u v r, ((s₁.goto t pc').pc u).block = some r →
      ((s₁.goto t pc').pc v).block = some r → u = v := by
  intro u v r hu hv
  by_cases hut : u = t
  · by_cases hvt : v = t
    · rw [hut, hvt]
    · rw [hut, goto_self] at hu
      rw [goto_ne hvt, hp] at hv
      exact absurd hv (hb v r hvt hu)
  · rw [goto_ne hut, hp] at hu
    by_cases hvt : v = t
    · rw [hvt, goto_self] at hv
      exact absurd hu (hb u r hut hv)
    · rw [goto_ne hvt, hp] at hv
      exact hi.one u v r hu hv

/-- `t` goes on to a point other than the release after an insertion. -/
theorem inserted_goto (hi : Inv s) (hq : pc'.inserted = none) (hp : s₁.pc = s.pc := by rfl)
    (hm : s₁.memzone = s.memzone := by rfl) : ∀ u mz r,
      ((s₁.goto t pc').pc u).inserted = some (mz, r) → s₁.memzone r = mz := by
  intro u mz r hu
  by_cases hut : u = t
  · rw [hut, goto_self, hq] at hu
    cases hu
  · rw [goto_ne hut, hp] at hu
    rw [hm]
    exact hi.inserted u mz r hu

/-- The reservation of a zone at a new block. -/
theorem Inv.reserve (hi : Inv s) (hz : s.zone mz = none) (hr : r ∉ s.heap) :
    Inv ((s.reserve mz r).goto t (.createMunlock mz r)) where
  one := one_goto hi fun u r' _ h hu => by
    cases h
    exact hr (hi.heapBlock u _ hu)
  notOwned u r' hu := by
    by_cases hut : u = t
    · rw [hut, goto_self] at hu
      cases hu
      exact fun h => hr (hi.heapOwned _ h)
    · rw [goto_ne hut] at hu
      exact hi.notOwned u r' hu
  nodup := hi.nodup
  heapBlock u r' hu := by
    by_cases hut : u = t
    · rw [hut, goto_self] at hu
      cases hu
      exact List.mem_cons_self ..
    · rw [goto_ne hut] at hu
      exact List.mem_cons_of_mem _ (hi.heapBlock u r' hu)
  heapOwned r' h := List.mem_cons_of_mem _ (hi.heapOwned r' h)
  zoneOwned r' h := by
    have hne : s.memzone r' ≠ mz := fun he => by
      have := hi.zoneOwned r' h
      rw [he, hz] at this
      cases this
    exact (Function.update_of_ne hne ..).trans (hi.zoneOwned r' h)
  zoneReserved u mz' r' hu := by
    by_cases hut : u = t
    · rw [hut, goto_self] at hu
      cases hu
      exact Function.update_self ..
    · rw [goto_ne hut] at hu
      have hz' := hi.zoneReserved u mz' r' hu
      have hne : mz' ≠ mz := fun he => by
        rw [he, hz] at hz'
        cases hz'
      exact (Function.update_of_ne hne ..).trans hz'
  inserted := inserted_goto hi rfl

/-- `r->memzone` is written for a ring nobody holds yet. -/
theorem Inv.insert (hi : Inv s) (ht : s.pc t = .createInsert mz r) :
    Inv ((s.insert mz r).goto t (.createQunlock mz r)) := by
  have hres : (s.pc t).reserved = some (mz, r) := by rw [ht]; rfl
  have hblock := Pc.block_of_reserved hres
  have hreserved : ∀ u x, (((s.insert mz r).goto t (.createQunlock mz r)).pc u).reserved = some x →
      (s.pc u).reserved = some x := by
    intro u x hu
    by_cases hut : u = t
    · rw [hut, goto_self] at hu
      rw [hut, ht]
      exact hu
    · rwa [goto_ne hut] at hu
  have hblock' : ∀ u r', (((s.insert mz r).goto t (.createQunlock mz r)).pc u).block = some r' →
      (s.pc u).block = some r' := by
    intro u r' hu
    by_cases hut : u = t
    · rw [hut, goto_self] at hu
      rw [hut, ht]
      exact hu
    · rwa [goto_ne hut] at hu
  refine ⟨fun u v r' hu hv => hi.one u v r' (hblock' u r' hu) (hblock' v r' hv),
    fun u r' hu => hi.notOwned u r' (hblock' u r' hu), hi.nodup,
    fun u r' hu => hi.heapBlock u r' (hblock' u r' hu), hi.heapOwned, ?_,
    fun u mz' r' hu => hi.zoneReserved u mz' r' (hreserved u _ hu), ?_⟩
  · intro r' h
    have hne : r' ≠ r := fun he => hi.notOwned t r hblock (he ▸ h)
    change s.zone (Function.update s.memzone r mz r') = some r'
    rw [Function.update_of_ne hne]
    exact hi.zoneOwned r' h
  · intro u mz' r' hu
    change Function.update s.memzone r mz r' = mz'
    by_cases hut : u = t
    · rw [hut, goto_self] at hu
      cases hu
      exact Function.update_self ..
    · rw [goto_ne hut] at hu
      have hne : r' ≠ r := fun he => hut (hi.one u t r
        (he ▸ Pc.block_of_reserved (Pc.reserved_of_inserted hu)) hblock)
      rw [Function.update_of_ne hne]
      exact hi.inserted u mz' r' hu

/-- The new ring is handed to its caller. -/
theorem Inv.publish (hi : Inv s) (ht : s.pc t = .createQunlock mz r) :
    Inv ({ s.setQlock t .free with owned := r :: s.owned }.goto t .idle) := by
  have hres : (s.pc t).reserved = some (mz, r) := by rw [ht]; rfl
  have hm : s.memzone r = mz := hi.inserted t mz r (by rw [ht]; rfl)
  have hblock := Pc.block_of_reserved hres
  have hother : ∀ u r', (({ s.setQlock t .free with owned := r :: s.owned }.goto t .idle).pc u).block
      = some r' → u ≠ t ∧ (s.pc u).block = some r' := by
    intro u r' hu
    by_cases hut : u = t
    · rw [hut, goto_self] at hu
      cases hu
    · rw [goto_ne hut] at hu
      exact ⟨hut, hu⟩
  refine ⟨one_goto hi (fun _ _ _ => nofun), ?_, ?_, ?_, ?_, ?_, ?_, inserted_goto hi rfl⟩
  · intro u r' hu hmem
    obtain ⟨hut, hu'⟩ := hother u r' hu
    rcases List.mem_cons.mp hmem with heq | hmem
    · exact hut (hi.one u t r (heq ▸ hu') hblock)
    · exact hi.notOwned u r' hu' hmem
  · exact List.nodup_cons.mpr ⟨hi.notOwned t r hblock, hi.nodup⟩
  · intro u r' hu
    exact hi.heapBlock u r' (hother u r' hu).2
  · intro r' hr'
    rcases List.mem_cons.mp hr' with rfl | hr'
    · exact hi.heapBlock t _ hblock
    · exact hi.heapOwned r' hr'
  · intro r' hr'
    rcases List.mem_cons.mp hr' with rfl | hr'
    · change s.zone (s.memzone r') = some r'
      rw [hm]
      exact hi.zoneReserved t mz _ hres
    · exact hi.zoneOwned r' hr'
  · intro u mz' r' hu
    by_cases hut : u = t
    · rw [hut, goto_self] at hu
      cases hu
    · rw [goto_ne hut] at hu
      exact hi.zoneReserved u mz' r' hu

/-- The caller passes its ring to `rte_ring_free`. -/
theorem Inv.take (hi : Inv s) (hr : r ∈ s.owned) :
    Inv ({ s with owned := s.owned.erase r }.goto t (.freeMlock (s.memzone r) r)) where
  one := one_goto hi fun u r' _ h hu => by
    cases h
    exact hi.notOwned u _ hu hr
  notOwned u r' hu hmem := by
    by_cases hut : u = t
    · rw [hut, goto_self] at hu
      cases hu
      exact (List.Nodup.not_mem_erase hi.nodup) hmem
    · rw [goto_ne hut] at hu
      exact hi.notOwned u r' hu (List.mem_of_mem_erase hmem)
  nodup := hi.nodup.erase r
  heapBlock u r' hu := by
    by_cases hut : u = t
    · rw [hut, goto_self] at hu
      cases hu
      exact hi.heapOwned _ hr
    · rw [goto_ne hut] at hu
      exact hi.heapBlock u r' hu
  heapOwned r' h := hi.heapOwned r' (List.mem_of_mem_erase h)
  zoneOwned r' h := hi.zoneOwned r' (List.mem_of_mem_erase h)
  zoneReserved u mz' r' hu := by
    by_cases hut : u = t
    · rw [hut, goto_self] at hu
      cases hu
      exact hi.zoneOwned _ hr
    · rw [goto_ne hut] at hu
      exact hi.zoneReserved u mz' r' hu
  inserted := inserted_goto hi rfl

/-- The zeroing of the descriptor. -/
theorem Inv.clear (hi : Inv s) (ht : s.pc t = .freeClear mz r) :
    Inv ((s.clear mz).goto t (.freeMunlock (some r) r)) := by
  have hres : (s.pc t).reserved = some (mz, r) := by rw [ht]; rfl
  have hblock := Pc.block_of_reserved hres
  have hzone := hi.zoneReserved t mz r hres
  have hne : ∀ mz' r', r' ≠ r → s.zone mz' = some r' → mz' ≠ mz := by
    rintro mz' r' hr' hz rfl
    rw [hzone] at hz
    exact hr' (Option.some.inj hz).symm
  have hblock' : ∀ u r', (((s.clear mz).goto t (.freeMunlock (some r) r)).pc u).block = some r' →
      (s.pc u).block = some r' := by
    intro u r' hu
    by_cases hut : u = t
    · rw [hut, goto_self] at hu
      cases hu
      rw [hut]
      exact hblock
    · rwa [goto_ne hut] at hu
  refine ⟨one_goto hi fun u r' hut h hu => ?_, fun u r' hu => hi.notOwned u r' (hblock' u r' hu),
    hi.nodup, fun u r' hu => hi.heapBlock u r' (hblock' u r' hu), hi.heapOwned, ?_, ?_,
    inserted_goto hi rfl⟩
  · cases h
    exact hut (hi.one u t _ hu hblock)
  · intro r' hr'
    have hr'r : r' ≠ r := fun he => hi.notOwned t r hblock (he ▸ hr')
    have hz := hi.zoneOwned r' hr'
    exact (Function.update_of_ne (hne _ r' hr'r hz) ..).trans hz
  · intro u mz' r' hu
    by_cases hut : u = t
    · rw [hut, goto_self] at hu
      cases hu
    · rw [goto_ne hut] at hu
      have hr'r : r' ≠ r := fun he =>
        hut (hi.one u t r (he ▸ Pc.block_of_reserved hu) hblock)
      have hz := hi.zoneReserved u mz' r' hu
      exact (Function.update_of_ne (hne _ r' hr'r hz) ..).trans hz

/-- The block of a zeroed zone goes back to the heap. -/
theorem Inv.release (hi : Inv s) {addr : Nat} (ht : s.pc t = .freeHeap (some addr) r) :
    Inv ({ s with heap := s.heap.erase addr }.goto t (.freeQlock r)) := by
  have hblock : (s.pc t).block = some addr := by rw [ht]; rfl
  have hother : ∀ u r', (({ s with heap := s.heap.erase addr }.goto t (.freeQlock r)).pc u).block
      = some r' → u ≠ t ∧ (s.pc u).block = some r' := by
    intro u r' hu
    by_cases hut : u = t
    · rw [hut, goto_self] at hu
      cases hu
    · rw [goto_ne hut] at hu
      exact ⟨hut, hu⟩
  refine ⟨one_goto hi (fun _ _ _ => nofun), fun u r' hu => hi.notOwned u r' (hother u r' hu).2,
    hi.nodup, ?_, ?_, hi.zoneOwned, ?_, inserted_goto hi rfl⟩
  · intro u r' hu
    obtain ⟨hut, hu⟩ := hother u r' hu
    have hne : r' ≠ addr := fun he => hut (hi.one u t addr (he ▸ hu) hblock)
    exact (List.mem_erase_of_ne hne).mpr (hi.heapBlock u r' hu)
  · intro r' hr'
    have hne : r' ≠ addr := fun he => hi.notOwned t addr hblock (he ▸ hr')
    exact (List.mem_erase_of_ne hne).mpr (hi.heapOwned r' hr')
  · intro u mz' r' hu
    by_cases hut : u = t
    · rw [hut, goto_self] at hu
      cases hu
    · rw [goto_ne hut] at hu
      exact hi.zoneReserved u mz' r' hu

/-- Nothing of the invariant's business changes. -/
theorem Inv.idle_step (hi : Inv s) (ht : s.pc t = pc) (hb : pc'.block = none)
    (hr : pc'.reserved = none) (hq : pc'.inserted = none)
    (hp : s₁.pc = s.pc := by rfl) (hz : s₁.zone = s.zone := by rfl)
    (hh : s₁.heap = s.heap := by rfl) (hm : s₁.memzone = s.memzone := by rfl)
    (ho : s₁.owned = s.owned := by rfl) : Inv (s₁.goto t pc') :=
  hi.goto ht (fun _ h => absurd (hb.symm.trans h) nofun) (fun _ h => absurd (hr.symm.trans h) nofun)
    (fun _ h => absurd (hq.symm.trans h) nofun) hp hz hh hm ho

theorem Inv.step (hi : Inv s) (h : Step t s s') : Inv s' := by
  cases h with
  | callCreate ht => exact hi.idle_step ht rfl rfl rfl
  | createTe ht => exact hi.idle_step ht rfl rfl rfl
  | createTeFail ht => exact hi.idle_step ht rfl rfl rfl
  | createQlock ht _ => exact hi.idle_step ht rfl rfl rfl
  | createMlock ht _ => exact hi.idle_step ht rfl rfl rfl
  | createReserve mz r ht _ hz hr => exact hi.reserve hz hr
  | createReserveFail ht => exact hi.idle_step ht rfl rfl rfl
  | createMunlock ht => exact hi.goto ht (fun _ => id) (fun _ => id) fun _ => id
  | createMunlockFail ht => exact hi.idle_step ht rfl rfl rfl
  | createInsert ht => exact hi.insert ht
  | createQunlock ht => exact hi.publish ht
  | createFail ht => exact hi.idle_step ht rfl rfl rfl
  | callFree r ht hr => exact hi.take hr
  | freeMlock ht _ => exact hi.goto ht (fun _ => id) (fun _ => id) fun _ => id
  | @freeClear mz r addr ht hz =>
    have hres := hi.zoneReserved t mz r (by rw [ht]; rfl)
    obtain rfl : r = addr := Option.some.inj (hres.symm.trans hz)
    exact hi.clear ht
  | freeClearNone ht _ => exact hi.idle_step ht rfl rfl rfl
  | freeMunlock ht => exact hi.goto ht (fun _ => id) (fun _ => nofun) fun _ => nofun
  | freeHeap ht => exact hi.release ht
  | freeHeapNone ht => exact hi.idle_step ht rfl rfl rfl
  | freeQlock ht _ => exact hi.idle_step ht rfl rfl rfl
  | freeUnlink ht => exact hi.idle_step ht rfl rfl rfl
  | freeQunlock ht => exact hi.idle_step ht rfl rfl rfl
  | callTraverse f ht => exact hi.idle_step ht rfl rfl rfl
  | traverseLock ht _ => exact hi.idle_step ht rfl rfl rfl
  | traverseUnlock ht => exact hi.idle_step ht rfl rfl rfl

/-! ## The list -/

/-- The condition on a step of `t`: `rte_ring_free` does not zero the descriptor of a ring that is
still on the list. -/
def Unlisted (t : T) (s : State T) : Prop :=
  ∀ mz r addr, s.pc t = .freeClear mz r → s.zone mz = some addr → addr ∉ s.list

/-- A step of a thread under the condition. -/
def UnlistedStep (s s' : State T) : Prop := ∃ t, Unlisted t s ∧ Step t s s'

/-- A step of any thread. -/
def AnyStep (s s' : State T) : Prop := ∃ t, Step t s s'

omit [DecidableEq T] in
theorem listed_of_eq (hl : s.Listed) (hlist : s'.list = s.list) (hzone : s'.zone = s.zone) :
    s'.Listed := by
  intro r hr
  rw [hlist] at hr
  rw [hzone]
  exact hl r hr

/-- **One step.** Only the zeroing of a descriptor takes a reservation away. -/
theorem listed_step (hi : Inv s) (hl : s.Listed) (hc : Unlisted t s) (h : Step t s s') :
    s'.Listed := by
  cases h with
  | createReserve mz r ht _ hz hr =>
    intro r' hr'
    obtain ⟨mz', hmz'⟩ := hl r' hr'
    have hne : mz' ≠ mz := fun he => by
      rw [he, hz] at hmz'
      cases hmz'
    exact ⟨mz', (Function.update_of_ne hne ..).trans hmz'⟩
  | @createInsert mz r ht =>
    intro r' hr'
    rcases List.mem_append.mp hr' with hr' | hr'
    · exact hl r' hr'
    · rw [List.mem_singleton.mp hr']
      exact ⟨mz, hi.zoneReserved t mz r (by rw [ht]; rfl)⟩
  | @freeClear mz r addr ht hz =>
    intro r' hr'
    obtain ⟨mz', hmz'⟩ := hl r' hr'
    have hne : mz' ≠ mz := fun he => by
      rw [he, hz] at hmz'
      exact hc mz r addr ht hz (Option.some.inj hmz' ▸ hr')
    exact ⟨mz', (Function.update_of_ne hne ..).trans hmz'⟩
  | freeUnlink _ => exact fun r' hr' => hl r' (List.mem_of_mem_erase hr')
  | callCreate _ => exact listed_of_eq hl rfl rfl
  | createTe _ => exact listed_of_eq hl rfl rfl
  | createTeFail _ => exact listed_of_eq hl rfl rfl
  | createQlock _ _ => exact listed_of_eq hl rfl rfl
  | createMlock _ _ => exact listed_of_eq hl rfl rfl
  | createReserveFail _ => exact listed_of_eq hl rfl rfl
  | createMunlock _ => exact listed_of_eq hl rfl rfl
  | createMunlockFail _ => exact listed_of_eq hl rfl rfl
  | createQunlock _ => exact listed_of_eq hl rfl rfl
  | createFail _ => exact listed_of_eq hl rfl rfl
  | callFree r _ _ => exact listed_of_eq hl rfl rfl
  | freeMlock _ _ => exact listed_of_eq hl rfl rfl
  | freeClearNone _ _ => exact listed_of_eq hl rfl rfl
  | freeMunlock _ => exact listed_of_eq hl rfl rfl
  | freeHeap _ => exact listed_of_eq hl rfl rfl
  | freeHeapNone _ => exact listed_of_eq hl rfl rfl
  | freeQlock _ _ => exact listed_of_eq hl rfl rfl
  | freeQunlock _ => exact listed_of_eq hl rfl rfl
  | callTraverse f _ => exact listed_of_eq hl rfl rfl
  | traverseLock _ _ => exact listed_of_eq hl rfl rfl
  | traverseUnlock _ => exact listed_of_eq hl rfl rfl

theorem inv_reach (h : Reach Init AnyStep s) : Inv s :=
  h.invariant (fun _ hs => inv_init hs) fun _ _ hi ⟨_, hs⟩ => hi.step hs

/-- **The list under the condition.** In every run in which `rte_ring_free` never zeroes the
descriptor of a listed ring, every entry names a ring whose memzone is reserved. -/
theorem listed_of_unlisted_free (h : Reach Init UnlistedStep s) : s.Safe := by
  have hl : s.Listed := by
    refine h.invariant_with (J := Inv) (I := State.Listed) (fun x hx => ?_) (fun x hx => ?_)
      fun x y hi _ hl ⟨t, hc, hs⟩ => listed_step hi hl hc hs
    · exact inv_reach (hx.mono (fun _ => id) fun _ _ ⟨t, _, hs⟩ => ⟨t, hs⟩)
    · intro r hr
      rw [hx.2.2.2.2.1] at hr
      cases hr
  exact ⟨fun _ => hl, fun _ _ _ => hl⟩

/-! ## One `rte_ring_free` -/

/-- Two threads that have called nothing yet. -/
def quiet : State (Fin 2) :=
  ⟨fun _ => .free, fun _ => .free, fun _ => none, [], fun _ => 0, [], [], fun _ => .idle⟩

theorem quiet_init : Init quiet :=
  ⟨fun _ => rfl, fun _ => rfl, fun _ => rfl, rfl, rfl, rfl, fun _ => rfl⟩

theorem listed_one_ring : ∃ s : State (Fin 2), s.list = [64] ∧ s.Safe := by
  have hno : ∀ (s : State (Fin 2)), (∀ mz r, s.pc 0 ≠ .freeClear mz r) → Unlisted 0 s :=
    fun s hs mz r addr h => absurd h (hs mz r)
  have h0 : Reach Init UnlistedStep quiet := .start quiet_init
  have h1 := h0.next ⟨0, hno _ (fun _ _ => nofun), .callCreate rfl⟩
  have h2 := h1.next ⟨0, hno _ (fun _ _ => nofun), .createTe rfl⟩
  have h3 := h2.next ⟨0, hno _ (fun _ _ => nofun), .createQlock rfl fun _ => rfl⟩
  have h4 := h3.next ⟨0, hno _ (fun _ _ => nofun), .createMlock rfl fun _ => rfl⟩
  have h5 := h4.next ⟨0, hno _ (fun _ _ => nofun),
    .createReserve 0 64 rfl (by decide) rfl List.not_mem_nil⟩
  have h6 := h5.next ⟨0, hno _ (fun _ _ => nofun), .createMunlock rfl⟩
  have h7 := h6.next ⟨0, hno _ (fun _ _ => nofun), .createInsert rfl⟩
  have h8 := h7.next ⟨0, hno _ (fun _ _ => nofun), .createQunlock rfl⟩
  exact ⟨_, rfl, listed_of_unlisted_free h8⟩

/-- **A dump of a ring that is gone.** One thread creates a ring and frees it; the descriptor is
zeroed, the entry still there, and nobody holds the tailq lock for writing. -/
theorem not_listed : ¬ ∀ (T : Type) [DecidableEq T] (s : State T), Reach Init AnyStep s →
    s.Safe := by
  intro hall
  have h0 : Reach Init AnyStep quiet := .start quiet_init
  have h1 := h0.next ⟨0, .callCreate rfl⟩
  have h2 := h1.next ⟨0, .createTe rfl⟩
  have h3 := h2.next ⟨0, .createQlock rfl fun _ => rfl⟩
  have h4 := h3.next ⟨0, .createMlock rfl fun _ => rfl⟩
  have h5 := h4.next ⟨0, .createReserve 0 64 rfl (by decide) rfl List.not_mem_nil⟩
  have h6 := h5.next ⟨0, .createMunlock rfl⟩
  have h7 := h6.next ⟨0, .createInsert rfl⟩
  have h8 := h7.next ⟨0, .createQunlock rfl⟩
  have h9 := h8.next ⟨0, .callFree 64 rfl (.head _)⟩
  have h10 := h9.next ⟨0, .freeMlock rfl fun | 0 => rfl | 1 => rfl⟩
  have h11 := h10.next ⟨0, .freeClear rfl rfl⟩
  have h12 := h11.next ⟨1, .callTraverse .listDump rfl⟩
  have h13 := h12.next ⟨1, .traverseLock rfl fun | 0 => nofun | 1 => nofun⟩
  obtain ⟨mz, hmz⟩ := (hall _ _ h13).2 1 .listDump rfl 64 (.head _)
  by_cases hz : mz = 0
  · subst hz
    cases hmz
  · change Function.update (Function.update (fun _ => none) 0 (some 64)) 0 none mz = some 64 at hmz
    rw [Function.update_of_ne hz, Function.update_of_ne hz] at hmz
    cases hmz

end Runs

end RingList
