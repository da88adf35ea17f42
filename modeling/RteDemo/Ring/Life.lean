import RteDemo.Eal.MemzoneRun
import RteDemo.Eal.Names
import RteDemo.Malloc.Calls
import RteDemo.Ring.Create

/-!
# The life of rings over the heaps and the zones

`rte_ring_create` takes a block for the list entry and a zone for the ring, `rte_ring_free` gives both back.
Here both run over the heaps and the table of zones themselves, between reservations and frees of other
zones and writes to blocks. Each listed ring owns its block and its zone (`RingInv`), creating a ring is all
or nothing, and freeing it takes back what was taken for it and nothing else (`rings_atomic`).

The list is that of the entries in order. Inserting and removing write the links of its neighbours, so that in
memory the entries are linked as in the list (`Linked`). The slots of a ring and its counters are in
`Ring.Create`; here what is written to a ring is a write to its zone's block.
-/

namespace RingLife

open RteDemo Bytes EalTailqs EalMemzone EalNames

/-! ## The code -/

/-- `struct rte_tailq_entry`, at address `te`. -/
structure TailqEntry where
  te : Nat
  data : Nat
  deriving DecidableEq

/-- The fields of `struct rte_tailq_entry`: `tqe_next` and `tqe_prev` of `next`, and `data`. -/
inductive EntryField
  | next
  | prev
  | data
  deriving DecidableEq

def tailqEntry : Layout EntryField where
  size := 24
  off
    | .next => 0
    | .prev => 8
    | .data => 16
  width _ := 8
  inside f := by cases f <;> decide
  apart f g h := by cases f <;> cases g <;> first | decide | exact absurd rfl h

/-- The zones with the heaps, the list of rings behind the head at `ringHead`, and the field `memzone` of the
ring at an address, `none` for `NULL`. -/
structure RingState where
  zone : ZoneState
  ringHead : Nat
  ringList : List TailqEntry
  ringMemzone : Nat → Option Nat

/-- `sizeof(struct rte_tailq_entry)` -/
def sizeofTailqEntry : Nat := tailqEntry.size

/-- The zones with the memory `m`. -/
def setMem (z : ZoneState) (m : Mem) : ZoneState := ⟨z.cfg.setHeap (z.cfg.heap.setMem m), z.live⟩

/-- Write field `f` of the entry at `te`. -/
def setEntry (z : ZoneState) (f : EntryField) (te v : Nat) : ZoneState :=
  setMem z (tailqEntry.set f z.cfg.heap.mem te v)

/-- What `tqh_last`, or the field `tqe_prev` of the next entry, holds behind the entries `l`: the address of the
last `tqe_next`, which is the first field, or of `tqh_first`. -/
def tailqLast (head : Nat) (l : List TailqEntry) : Nat :=
  match l.getLast? with
  | none => head
  | some e => e.te

/-- What `tqh_first`, or the field `tqe_next` of the previous entry, holds in front of the entries `l`: the
address of the first of them, or of what comes `next`. -/
def tailqFirst (l : List TailqEntry) (next : Nat) : Nat :=
  match l with
  | [] => next
  | e :: _ => e.te

/-- The pointer behind the entries `l` is set to `te`: `tqh_first`, which is not in the heaps, or the field
`tqe_next` of the last entry. -/
def setNext (z : ZoneState) (l : List TailqEntry) (te : Nat) : ZoneState :=
  match l.getLast? with
  | none => z
  | some e => setEntry z .next e.te te

/-- `TAILQ_INSERT_TAIL` of the entry at `te` -/
def tailqInsertTail (z : ZoneState) (head : Nat) (l : List TailqEntry) (te : Nat) : ZoneState :=
  let z := setEntry z .next te 0
  let z := setEntry z .prev te (tailqLast head l)
  setNext z l te

/-- `TAILQ_REMOVE` of the entry between the entries `l` and `l'` -/
def tailqRemove (z : ZoneState) (head : Nat) (l l' : List TailqEntry) : ZoneState :=
  let z :=
    match l' with
    | [] => z
    | e :: _ => setEntry z .prev e.te (tailqLast head l)
  setNext z l (tailqFirst l' 0)

/-- `__alignof__(struct rte_ring)` -/
def alignofRteRing : Nat := 128

/-- The zones after `rte_zmalloc` for the list entry returned `a`. -/
def withEntry (z : ZoneState) (a : HeapState × Nat) : ZoneState :=
  ⟨z.cfg.setHeap a.1, if a.2 = 0 then z.live else ⟨a.2, sizeofTailqEntry, 1, 0, false⟩ :: z.live⟩

/-- The zones after `rte_free` of the block at `te` left the heaps `heap`. -/
def withoutEntry (z : ZoneState) (te : Nat) (heap : HeapState) : ZoneState :=
  ⟨z.cfg.setHeap heap, z.live.filter fun b => b.ptr != te⟩

/-- The locked part of `rte_ring_create`, after the reservation that answered `res`; `none` is a panic. -/
def insertRing (s : RingState) (z : ZoneState) (te : Nat) (res : MemConfig × Except MemzoneErrno Nat) :
    Option (RingState × Option Nat) :=
  match res.2 with
  | .ok mz =>
    let r := (res.1.memzone mz).addr
    let z := setEntry ⟨res.1, ZoneOp.held z.live alignofRteRing 0 res⟩ .data te r
    let z := tailqInsertTail z s.ringHead s.ringList te
    some (⟨z, s.ringHead, s.ringList ++ [⟨te, r⟩], Function.update s.ringMemzone r (some mz)⟩, some r)
  | .error _ =>
    (rteFree res.1.heap te).map fun heap =>
      ({ s with zone := withoutEntry ⟨res.1, ZoneOp.held z.live alignofRteRing 0 res⟩ te heap }, none)

/-- `rte_ring_create`: the ring's address, or `none` for `NULL`. -/
def rteRingCreate (env : MemzoneEnv) (s : RingState) (name : CString) (count : Nat) (socketId : Int)
    (flags : Nat) : Option (RingState × Option Nat) :=
  let ringSize := Ring.rteRingGetMemsize (Ring.rounded count flags)
  if ringSize < 0 then some (s, none)
  else
    let mzName := append rteRingMzPrefix name
    if mzName.length ≥ rteMemzoneNamesize then some (s, none)
    else
      let a := rteZmalloc env.toEalEnv s.zone.cfg.heap sizeofTailqEntry 0
      let z := withEntry s.zone a
      if a.2 = 0 then some ({ s with zone := z }, none)
      else insertRing s z a.2 (rteMemzoneReserveAligned env z.cfg mzName ringSize.toNat socketId 0 alignofRteRing)

/-- `rte_ring_free`, from the search of the list on. -/
def removeRing (s : RingState) (r : Nat) (z : ZoneState) : Option RingState :=
  let l := s.ringList.takeWhile fun e => e.data != r
  match s.ringList.dropWhile fun e => e.data != r with
  | [] => some { s with zone := z }
  | e :: l' =>
    let z := tailqRemove z s.ringHead l l'
    (rteFree z.cfg.heap e.te).map fun heap =>
      { s with zone := withoutEntry z e.te heap, ringList := l ++ l' }

/-- `rte_ring_free`; `none` is a panic. -/
def rteRingFree (s : RingState) (r : Nat) : Option RingState :=
  if r = 0 then some s
  else
    match s.ringMemzone r with
    | none => some s
    | some mz =>
      (rteMemzoneFree s.zone.cfg (some mz)).bind fun res =>
        if res.2 ≠ 0 then some { s with zone := ⟨res.1, s.zone.live⟩ }
        else removeRing s r ⟨res.1, s.zone.live.filter fun b => b.ptr != (s.zone.cfg.memzone mz).addr⟩

/-! ## Runs -/

/-- A call, or a write to a block. -/
inductive RingCall
  | create (env : MemzoneEnv) (name : CString) (count : Nat) (socketId : Int) (flags : Nat)
  | free (r : Nat)
  /-- The use of another zone -/
  | zone (op : ZoneOp)
  /-- Afterwards the memory is `m`. -/
  | write (b : Block) (m : Bytes.Mem)

namespace RingCall

/-- Rings are freed that were created, zones of rings are freed with their rings, and writes stay inside a
block, which is not that of a list entry; in a ring they leave the field `memzone`, at offset 40, as it is. -/
def Valid (s : RingState) : RingCall → Prop
  | create .. => True
  | free r => r ∈ s.ringList.map TailqEntry.data
  | zone op => op.Valid ∧ ∀ idx, op = .free idx → (s.zone.cfg.memzone idx).addr ∉ s.ringList.map TailqEntry.data
  | write b m => (MallocOp.write b m).Valid s.zone.runState ∧ ∀ e ∈ s.ringList, b.ptr ≠ e.te ∧
    (b.ptr = e.data → ∀ x, e.data + 40 ≤ x → x < e.data + 48 → m x = s.zone.cfg.heap.mem x)

/-- Nothing wraps in the heaps. -/
def NoWrap (s : RingState) : RingCall → Prop
  | create env _ count socketId flags =>
    MallocExact env.toEalEnv s.zone.cfg.heap sizeofTailqEntry 0 socketIdAny ∧
      ZoneExact env (rteZmalloc env.toEalEnv s.zone.cfg.heap sizeofTailqEntry 0).1
        (Ring.rteRingGetMemsize (Ring.rounded count flags)).toNat socketId 0 alignofRteRing 0
  | zone op => op.NoWrap s.zone
  | _ => True

/-- The state after the call; `none` is a panic. -/
def run (s : RingState) : RingCall → Option RingState
  | create env name count socketId flags => (rteRingCreate env s name count socketId flags).map Prod.fst
  | free r => rteRingFree s r
  | zone op => (op.run s.zone).map fun z => { s with zone := z }
  | write _ m => some { s with zone := setMem s.zone m }

end RingCall

/-- A call that keeps the promises, in which nothing wraps. -/
def RingStep (s s' : RingState) : Prop := ∃ c : RingCall, c.Valid s ∧ c.NoWrap s ∧ c.run s = some s'

/-- No zones and no rings. -/
def RingInit (segs : List RteMemseg) (m : Bytes.Mem) (memsegIova : Nat → Nat) (s : RingState) : Prop :=
  ZoneInit segs m memsegIova s.zone ∧ s.ringHead < 2 ^ 64 ∧ s.ringList = []

/-! ## The list in memory -/

/-- The entries `l` in the memory: each holds its data and points to its neighbours, the first of them back to
`prev` and the last on to `next`. -/
def Linked (m : Mem) : Nat → List TailqEntry → Nat → Prop
  | _, [], _ => True
  | prev, e :: l, next =>
    tailqEntry.get .next m e.te = tailqFirst l next ∧ tailqEntry.get .prev m e.te = prev ∧
      tailqEntry.get .data m e.te = e.data ∧ Linked m e.te l next

theorem tailqLast_cons (prev : Nat) (e : TailqEntry) (l : List TailqEntry) :
    tailqLast prev (e :: l) = tailqLast e.te l := by
  cases l with
  | nil => rfl
  | cons e' l =>
    rw [tailqLast, tailqLast, List.getLast?_cons_cons, List.getLast?_eq_some_getLast (List.cons_ne_nil e' l)]

theorem tailqFirst_append (l l' : List TailqEntry) (next : Nat) :
    tailqFirst (l ++ l') next = tailqFirst l (tailqFirst l' next) := by
  cases l <;> rfl

theorem linked_append {m : Mem} {next : Nat} {l' : List TailqEntry} : ∀ (l : List TailqEntry) (prev : Nat),
    Linked m prev (l ++ l') next ↔ Linked m prev l (tailqFirst l' next) ∧ Linked m (tailqLast prev l) l' next
  | [], _ => iff_of_eq (true_and _).symm
  | e :: l, prev => by
    rw [List.cons_append, Linked, Linked, linked_append l, tailqFirst_append, tailqLast_cons]
    simp only [and_assoc]

/-- It is kept where the bytes of the entries are. -/
theorem Linked.congr {m m' : Mem} {next : Nat} : ∀ {l : List TailqEntry} {prev : Nat}, Linked m prev l next →
    (∀ e ∈ l, Agree m m' e.te (e.te + sizeofTailqEntry)) → Linked m' prev l next
  | [], _, _, _ => trivial
  | e :: l, _, ⟨hnext, hprev, hdata, h⟩, hl => by
    have he := hl e List.mem_cons_self
    refine ⟨?_, ?_, ?_, h.congr fun e' he' => hl e' (List.mem_cons_of_mem _ he')⟩
    · rw [Layout.get_congr _ he, hnext]
    · rw [Layout.get_congr _ he, hprev]
    · rw [Layout.get_congr _ he, hdata]

/-- A write to another entry. -/
theorem Linked.set {m : Mem} {next te v : Nat} {l : List TailqEntry} {prev : Nat} (h : Linked m prev l next)
    (hl : ∀ e ∈ l, e.te + sizeofTailqEntry ≤ te ∨ te + sizeofTailqEntry ≤ e.te) (f : EntryField) :
    Linked (tailqEntry.set f m te v) prev l next := by
  refine h.congr fun e he x hx hx' => Layout.set_out_record _ ?_
  have hap := hl e he
  rw [sizeofTailqEntry] at hap hx'
  omega

/-- No two of the entries overlap. -/
def EntriesApart (l : List TailqEntry) : Prop :=
  l.Pairwise fun e e' => e.te + sizeofTailqEntry ≤ e'.te ∨ e'.te + sizeofTailqEntry ≤ e.te

/-- The last entry points on to `te`. -/
theorem Linked.setNext {z : ZoneState} {l : List TailqEntry} {prev next te : Nat}
    (h : Linked z.cfg.heap.mem prev l next) (hap : EntriesApart l) (hte : te < 2 ^ 64) :
    Linked (setNext z l te).cfg.heap.mem prev l te := by
  rcases List.eq_nil_or_concat' l with rfl | ⟨l, e, rfl⟩
  · trivial
  · have hlast : (l ++ [e]).getLast? = some e := List.getLast?_concat
    rw [RingLife.setNext, hlast]
    obtain ⟨hl, -, hprev, hdata, -⟩ := (linked_append l prev).mp h
    refine (linked_append l prev).mpr ⟨?_, ?_, ?_, ?_, trivial⟩
    · exact hl.set (fun e' he' => (List.pairwise_append.mp hap).2.2 e' he' e List.mem_cons_self) .next
    · exact (Layout.get_set_self ..).trans (Nat.mod_eq_of_lt hte)
    · exact (Layout.get_set_ne _ (by decide) ..).trans hprev
    · exact (Layout.get_set_ne _ (by decide) ..).trans hdata

theorem setNext_keep {z : ZoneState} {l : List TailqEntry} {te x : Nat}
    (h : ∀ e ∈ l, x < e.te ∨ e.te + sizeofTailqEntry ≤ x) :
    (setNext z l te).cfg.heap.mem x = z.cfg.heap.mem x := by
  unfold setNext
  cases hlast : l.getLast? with
  | none => rfl
  | some e => exact Layout.set_out_record _ (h e (List.mem_of_getLast? hlast))

theorem Linked.setNext_other {z : ZoneState} {l l' : List TailqEntry} {te prev next : Nat}
    (h : Linked z.cfg.heap.mem prev l' next)
    (hap : ∀ e ∈ l, ∀ e' ∈ l', e.te + sizeofTailqEntry ≤ e'.te ∨ e'.te + sizeofTailqEntry ≤ e.te) :
    Linked (RingLife.setNext z l te).cfg.heap.mem prev l' next := by
  refine h.congr fun e' he' x hx hx' => setNext_keep fun e he => ?_
  have := hap e he e' he'
  omega

/-- **`TAILQ_INSERT_TAIL`** appends the entry to the list in memory. -/
theorem Linked.insertTail {z : ZoneState} {l : List TailqEntry} {head te r : Nat}
    (h : Linked z.cfg.heap.mem head l 0) (hdata : tailqEntry.get .data z.cfg.heap.mem te = r)
    (hap : EntriesApart (l ++ [⟨te, r⟩])) (hte : te < 2 ^ 64) (hlast : tailqLast head l < 2 ^ 64) :
    Linked (tailqInsertTail z head l te).cfg.heap.mem head (l ++ [⟨te, r⟩]) 0 := by
  obtain ⟨hl, -, hnew⟩ := List.pairwise_append.mp hap
  have hout : ∀ e ∈ l, e.te + sizeofTailqEntry ≤ te ∨ te + sizeofTailqEntry ≤ e.te := fun e he =>
    hnew e he _ List.mem_cons_self
  obtain ⟨z₂, hz₂⟩ : ∃ z₂, z₂ = setEntry (setEntry z .next te 0) .prev te (tailqLast head l) := ⟨_, rfl⟩
  have hmem : z₂.cfg.heap.mem =
      tailqEntry.set .prev (tailqEntry.set .next z.cfg.heap.mem te 0) te (tailqLast head l) := by
    rw [hz₂]
    rfl
  have h₂ : Linked z₂.cfg.heap.mem head l 0 := by
    rw [hmem]
    exact (h.set hout .next).set hout .prev
  have hentry : Linked z₂.cfg.heap.mem (tailqLast head l) [⟨te, r⟩] 0 := by
    rw [hmem]
    refine ⟨?_, ?_, ?_, trivial⟩
    · exact (Layout.get_set_ne _ (by decide) ..).trans (Layout.get_set_self ..)
    · exact (Layout.get_set_self ..).trans (Nat.mod_eq_of_lt hlast)
    · exact (Layout.get_set_ne _ (by decide) ..).trans ((Layout.get_set_ne _ (by decide) ..).trans hdata)
  rw [tailqInsertTail, ← hz₂]
  exact (linked_append l head).mpr ⟨h₂.setNext hl hte, hentry.setNext_other hnew⟩

/-- **`TAILQ_REMOVE`** takes the entry out of the list in memory. -/
theorem Linked.remove {z : ZoneState} {l l' : List TailqEntry} {e : TailqEntry} {head : Nat}
    (h : Linked z.cfg.heap.mem head (l ++ e :: l') 0) (hap : EntriesApart (l ++ e :: l'))
    (hlt : ∀ e' ∈ l', e'.te < 2 ^ 64) (hlast : tailqLast head l < 2 ^ 64) :
    Linked (tailqRemove z head l l').cfg.heap.mem head (l ++ l') 0 := by
  obtain ⟨hl, -, -, -, hl'⟩ := (linked_append l head).mp h
  obtain ⟨hapl, hapl', hout⟩ := List.pairwise_append.mp hap
  obtain ⟨-, hapl'⟩ := List.pairwise_cons.mp hapl'
  have hout : ∀ e₁ ∈ l, ∀ e₂ ∈ l', e₁.te + sizeofTailqEntry ≤ e₂.te ∨ e₂.te + sizeofTailqEntry ≤ e₁.te :=
    fun e₁ h₁ e₂ h₂ => hout e₁ h₁ e₂ (List.mem_cons_of_mem _ h₂)
  cases l' with
  | nil =>
    rw [List.append_nil]
    exact hl.setNext hapl (by decide)
  | cons e' l' =>
    obtain ⟨hnext, -, hdata, htail⟩ := hl'
    obtain ⟨hfirst, -⟩ := List.pairwise_cons.mp hapl'
    have hl₁ : Linked (setEntry z .prev e'.te (tailqLast head l)).cfg.heap.mem head l e.te :=
      hl.set (fun e₁ h₁ => hout e₁ h₁ e' List.mem_cons_self) .prev
    have hl₁' : Linked (setEntry z .prev e'.te (tailqLast head l)).cfg.heap.mem (tailqLast head l) (e' :: l') 0 := by
      refine ⟨?_, ?_, ?_, htail.set (fun e₁ h₁ => (hfirst e₁ h₁).symm) .prev⟩
      · exact (Layout.get_set_ne _ (by decide) ..).trans hnext
      · exact (Layout.get_set_self ..).trans (Nat.mod_eq_of_lt hlast)
      · exact (Layout.get_set_ne _ (by decide) ..).trans hdata
    exact (linked_append l head).mpr
      ⟨hl₁.setNext hapl (hlt e' List.mem_cons_self), hl₁'.setNext_other hout⟩

/-! ## The invariant -/

/-- The block of an entry. -/
def EntryBlock (z : ZoneState) (te : Nat) : Prop := ∃ b ∈ z.live, b.ptr = te ∧ b.size = sizeofTailqEntry

/-- The bytes of the blocks are as before. -/
def BlocksKept (live : List Block) (m m' : Mem) : Prop :=
  ∀ b ∈ live, ∀ x, b.ptr ≤ x → x < b.ptr + b.size → m' x = m x

/-- Each listed ring owns a live block for its entry and a zone, and the entries are the list in memory. -/
structure RingInv (segs : List RteMemseg) (s : RingState) : Prop where
  zones : ZoneInv segs s.zone
  head : s.ringHead < 2 ^ 64
  linked : Linked s.zone.cfg.heap.mem s.ringHead s.ringList 0
  entry : ∀ e ∈ s.ringList, EntryBlock s.zone e.te
  zone : ∀ e ∈ s.ringList, ∃ mz, s.ringMemzone e.data = some mz ∧ Reserved s.zone.cfg.memzone mz ∧
    (s.zone.cfg.memzone mz).addr = e.data
  apart : ∀ e ∈ s.ringList, ∀ i, Reserved s.zone.cfg.memzone i → (s.zone.cfg.memzone i).addr ≠ e.te
  entries : (s.ringList.map TailqEntry.te).Nodup
  rings : (s.ringList.map TailqEntry.data).Nodup

section

variable {segs : List RteMemseg} {z : ZoneState} {s : RingState}

theorem RingInv.init (hok : MemsegsOK segs) {m : Bytes.Mem} {memsegIova : Nat → Nat}
    (h : RingInit segs m memsegIova s) : RingInv segs s := by
  obtain ⟨hz, hhead, hl⟩ := h
  have hnil : ∀ e, e ∉ s.ringList := fun e he => List.not_mem_nil (hl ▸ he)
  exact {
    zones := ZoneInv.init hok hz
    head := hhead
    linked := by rw [hl]; trivial
    entry := fun e he => absurd he (hnil e)
    zone := fun e he => absurd he (hnil e)
    apart := fun e he => absurd he (hnil e)
    entries := by rw [hl]; exact List.nodup_nil
    rings := by rw [hl]; exact List.nodup_nil }

/-! ## Blocks that are not zones -/

/-- A block that is not a zone joins the live ones. -/
theorem withBlock_zoneInv (h : ZoneInv segs z) {heap : HeapState} {b : Block}
    (hinv : ∃ ars, RteDemo.Inv segs ⟨heap, b :: z.live⟩ ars) (hb : b.grown = false) :
    ZoneInv segs ⟨z.cfg.setHeap heap, b :: z.live⟩ where
  heap := hinv
  table := h.table
  count := h.count
  block i hi := by
    obtain ⟨b', hb', hblock⟩ := h.block i hi
    exact ⟨b', List.mem_cons_of_mem _ hb', hblock⟩
  own := h.own
  fixed b' hb' := (List.mem_cons.mp hb').elim (fun heq => heq ▸ hb) (h.fixed b')

/-- It is new. -/
theorem ptr_fresh {heap : HeapState} {b : Block} (hinv : ∃ ars, RteDemo.Inv segs ⟨heap, b :: z.live⟩ ars) :
    ∀ b' ∈ z.live, b.ptr ≠ b'.ptr := by
  obtain ⟨ars, hinv⟩ := hinv
  exact (List.pairwise_cons.mp hinv.distinct).1

/-- A block that is not a zone is freed. -/
theorem withoutEntry_zoneInv (h : ZoneInv segs z) {b : Block} (hb : b ∈ z.live)
    (hne : ∀ i, Reserved z.cfg.memzone i → (z.cfg.memzone i).addr ≠ b.ptr) :
    ∃ heap, rteFree z.cfg.heap b.ptr = some heap ∧ ZoneInv segs (withoutEntry z b.ptr heap) ∧
      ∀ b' ∈ z.live, b'.ptr ≠ b.ptr → ∀ x, b'.ptr ≤ x → x < b'.ptr + b'.size →
        heap.mem x = z.cfg.heap.mem x := by
  obtain ⟨ars, hinv⟩ := h.heap
  have hv : (MallocOp.free b).Valid z.runState := hb
  obtain ⟨ars', -, hinv'⟩ := hinv.step hv trivial
  have hquiet := hinv.undisturbed hv trivial
  have herase : z.live.erase b = z.live.filter fun b' => b'.ptr != b.ptr := by
    have hnodup : z.live.Nodup := hinv.nodup
    rw [hnodup.erase_eq_filter b]
    refine List.filter_congr fun b' hb' => ?_
    rw [Bool.eq_iff_iff, bne_iff_ne, bne_iff_ne]
    exact ⟨fun hne => hinv.ptr_ne hb hb' hne, fun hne heq => hne (congrArg Block.ptr heq)⟩
  refine ⟨((MallocOp.free b).run z.runState).heap, hinv.rteFree_live hb, ?_, fun b' hb' hne' x hx hx' => ?_⟩
  · refine ⟨⟨ars', ?_⟩, h.table, h.count, fun i hi => ?_, h.own, fun b' hb' =>
      h.fixed b' (List.mem_filter.mp hb').1⟩
    · rw [ZoneState.runState, withoutEntry, ← herase]
      exact hinv'
    · obtain ⟨b', hb', hptr, hsize⟩ := h.block i hi
      exact ⟨b', List.mem_filter.mpr ⟨hb', bne_iff_ne.mpr (hptr ▸ hne i hi)⟩, hptr, hsize⟩
  · obtain ⟨-, a, n, pad, hold⟩ := hinv.live b' hb'
    have husable := hinv.rep.usable hold
    have hsize := hold.size
    refine hquiet b' hb' (fun heq => hne' (heq ▸ rfl)) x hx ?_
    rw [husable]
    omega

/-- A write to a block. -/
theorem write_zoneInv (h : ZoneInv segs z) {b : Block} {m : Bytes.Mem}
    (hv : (MallocOp.write b m).Valid z.runState) : ZoneInv segs (setMem z m) := by
  obtain ⟨ars, hinv⟩ := h.heap
  obtain ⟨ars', -, hinv'⟩ := hinv.step hv trivial
  exact ⟨⟨ars', hinv'⟩, h.table, h.count, h.block, h.own, h.fixed⟩

/-! ## Bytes -/

theorem blocksKept_undisturbed {r : RunState} {ars : List Arena} (h : RteDemo.Inv segs r ars) {op : MallocOp}
    (hquiet : Undisturbed r op) (htouch : ∀ b ∈ r.live, ¬op.Touches b) :
    BlocksKept r.live r.heap.mem (op.run r).heap.mem := by
  intro b hb x hx hx'
  obtain ⟨-, a, n, pad, hold⟩ := h.live b hb
  have husable := h.rep.usable hold
  have hsize := hold.size
  refine hquiet b hb (htouch b hb) x hx ?_
  rw [husable]
  omega

/-- A search over heaps keeps the bytes of the blocks. -/
theorem tryHeaps_kept {r : RunState} {ars : List Arena} (h : RteDemo.Inv segs r ars) {req flags k bound : Nat}
    (hk : k < 32) (hb : BoundOK bound) (hround : req + 63 < 2 ^ 64) {l : List Nat}
    (hx : ∀ i ∈ l, SearchExact r.heap (rteCacheLineRoundup 64 req) flags (rteCacheLineRoundup 64 (2 ^ k)) bound
      ((r.heap.mallocHeaps i).candidates (rteCacheLineRoundup 64 req))) :
    BlocksKept r.live r.heap.mem (RteDemo.tryHeaps r.heap req flags (2 ^ k) bound l).1.mem := by
  have hfail : ∀ heap ∈ l, (mallocHeapAlloc r.heap heap req flags (2 ^ k) bound).2 = 0 →
      mallocHeapAlloc r.heap heap req flags (2 ^ k) bound = (r.heap, 0) := by
    intro heap hheap h0
    rcases heapTry_inv h hk hb hround (hx heap hheap) rfl with hnone | ⟨hne, -⟩
    · exact hnone
    · exact absurd h0 hne
  have hone := tryHeaps_run hfail
  generalize RteDemo.tryHeaps r.heap req flags (2 ^ k) bound l = res at hone ⊢
  rcases hone with rfl | ⟨heap, hheap, hrun⟩
  · exact fun _ _ _ _ _ => rfl
  · have hv : (MallocOp.alloc heap req flags (2 ^ k) bound).Valid r := ⟨⟨k, hk, rfl⟩, hb⟩
    have hn : (MallocOp.alloc heap req flags (2 ^ k) bound).NoWrap r := by
      rw [MallocOp.NoWrap]
      exact ⟨hround, hx heap hheap⟩
    have hkept := blocksKept_undisturbed h (h.undisturbed hv hn) fun _ _ => id
    rw [MallocOp.run_alloc, ← hrun, MallocOp.allocated] at hkept
    exact hkept

/-- A reservation keeps the bytes of the blocks. -/
theorem reserve_kept (h : ZoneInv segs z) {env : MemzoneEnv} {name : CString} {len flags align bound : Nat}
    {socketId : Int} (halign : align < 2 ^ 32) (hbound : bound < 2 ^ 32)
    (hx : ZoneExact env z.cfg.heap len socketId flags align bound)
    {res : MemConfig × Except MemzoneErrno Nat}
    (hres : rteMemzoneReserveBounded env z.cfg name len socketId flags align bound = res) :
    BlocksKept z.live z.cfg.heap.mem res.1.heap.mem := by
  rcases memzoneReserve_take hres with ⟨e, rfl⟩ | ⟨hcnt, -, hpow, hpowb, -, htake⟩
  · exact fun _ _ _ _ _ => rfl
  · obtain ⟨k, -, hk, hzone⟩ := zoneAlign_pow (hpow.imp_right (exists_pow_of_unsigned halign))
    have hb : BoundOK bound := by
      refine hpowb.imp_right fun hp => ?_
      obtain ⟨j, hj, hpow⟩ := exists_pow_of_unsigned hbound hp
      exact ⟨j, Nat.lt_of_lt_of_le hj (by decide), hpow⟩
    obtain ⟨hround, hsearch⟩ := hx
    rw [hzone] at hsearch htake
    obtain ⟨ars, hinv⟩ := h.heap
    have hkept := @tryHeaps_kept segs z.runState ars hinv _ flags k bound hk hb hround _ hsearch
    simp only [ZoneState.runState] at hkept
    have hfree : getNextFreeMemzone z.cfg.memzone ≠ none := getNextFree_of_used (h.count ▸ hcnt)
    obtain ⟨mz, hmz⟩ := Option.ne_none_iff_exists'.mp hfree
    generalize RteDemo.tryHeaps z.cfg.heap (zoneRequest env z.cfg.heap len socketId align bound).1 flags (2 ^ k) bound
      (zoneHeaps env (zoneRequest env z.cfg.heap len socketId align bound).2) = a at hkept htake
    have hnext : getNextFreeMemzone (z.cfg.setHeap a.1).memzone = some mz := hmz
    rw [htake, memzoneTake]
    split
    · exact hkept
    · rw [memzoneFill_ok hnext]
      exact hkept

/-- An entry is kept with its block. -/
theorem EntryBlock.agree {te : Nat} (h : EntryBlock z te) {m m' : Mem} (hk : BlocksKept z.live m m') :
    Agree m m' te (te + sizeofTailqEntry) := by
  obtain ⟨b, hb, rfl, hsize⟩ := h
  exact fun x hx hx' => hk b hb x hx (hsize ▸ hx')

theorem EntryBlock.lt (h : ZoneInv segs z) {te : Nat} (hte : EntryBlock z te) : te < 2 ^ 64 := by
  obtain ⟨b, hb, rfl, -⟩ := hte
  obtain ⟨ars, hinv⟩ := h.heap
  exact hinv.ptr_lt hb

theorem tailqLast_lt (h : ZoneInv segs z) {head : Nat} (hhead : head < 2 ^ 64) {l : List TailqEntry}
    (hl : ∀ e ∈ l, EntryBlock z e.te) : tailqLast head l < 2 ^ 64 := by
  unfold tailqLast
  cases hlast : l.getLast? with
  | none => exact hhead
  | some e => exact (hl e (List.mem_of_getLast? hlast)).lt h

/-- Entries in blocks of their own do not overlap. -/
theorem entriesApart (h : ZoneInv segs z) {l : List TailqEntry} (hl : ∀ e ∈ l, EntryBlock z e.te)
    (hnodup : (l.map TailqEntry.te).Nodup) : EntriesApart l := by
  refine (List.pairwise_map.mp hnodup).imp_of_mem fun {e e'} he he' hne => ?_
  obtain ⟨b, hb, hptr, hsize⟩ := hl e he
  obtain ⟨b', hb', hptr', hsize'⟩ := hl e' he'
  obtain ⟨ars, hinv⟩ := h.heap
  have hiso := hinv.blockIsolated hb fun hg => absurd (h.fixed b hb ▸ hg) Bool.false_ne_true
  have hap := hiso.others b' hb' fun heq => hne (by rw [← hptr, ← hptr', heq])
  rw [hptr, hptr', hsize, hsize'] at hap
  exact hap

/-! ## Links -/

/-- Only the links of the entries `tes` change. -/
structure Relinked (segs : List RteMemseg) (z z' : ZoneState) (tes : List Nat) : Prop where
  zones : ZoneInv segs z'
  memzone : z'.cfg.memzone = z.cfg.memzone
  memzoneCnt : z'.cfg.memzoneCnt = z.cfg.memzoneCnt
  live : z'.live = z.live
  keep : ∀ x, (∀ te ∈ tes, x < te ∨ te + 16 ≤ x) → z'.cfg.heap.mem x = z.cfg.heap.mem x

theorem Relinked.refl (h : ZoneInv segs z) (tes : List Nat) : Relinked segs z z tes :=
  ⟨h, rfl, rfl, rfl, fun _ _ => rfl⟩

theorem Relinked.trans {z' z'' : ZoneState} {tes : List Nat} (h : Relinked segs z z' tes)
    (h' : Relinked segs z' z'' tes) : Relinked segs z z'' tes :=
  ⟨h'.zones, h'.memzone.trans h.memzone, h'.memzoneCnt.trans h.memzoneCnt, h'.live.trans h.live,
    fun x hx => (h'.keep x hx).trans (h.keep x hx)⟩

/-- A field of an entry is written. -/
theorem setEntry_zoneInv (h : ZoneInv segs z) {te : Nat} (hte : EntryBlock z te) (f : EntryField) (v : Nat) :
    ZoneInv segs (setEntry z f te v) := by
  obtain ⟨b, hb, rfl, hsize⟩ := hte
  obtain ⟨ars, hinv⟩ := h.heap
  obtain ⟨-, a, n, pad, hold⟩ := hinv.live b hb
  have husable := hinv.rep.usable hold
  have hfit := hold.size
  refine write_zoneInv (b := b) h ⟨hb, fun x hx => Layout.set_out_record _ ?_⟩
  rw [sizeofTailqEntry] at hsize
  rw [husable] at hx
  omega

theorem setEntry_relinked (h : ZoneInv segs z) {tes : List Nat} {te : Nat} (hte : EntryBlock z te)
    (hmem : te ∈ tes) {f : EntryField} (hf : f ≠ .data) (v : Nat) : Relinked segs z (setEntry z f te v) tes where
  zones := setEntry_zoneInv h hte f v
  memzone := rfl
  memzoneCnt := rfl
  live := rfl
  keep x hx := by
    refine Layout.set_out _ ?_
    have hout := hx te hmem
    cases f with
    | next => simp only [tailqEntry]; omega
    | prev => simp only [tailqEntry]; omega
    | data => exact absurd rfl hf

theorem setNext_relinked (h : ZoneInv segs z) {tes : List Nat} {l : List TailqEntry}
    (hl : ∀ e ∈ l, EntryBlock z e.te ∧ e.te ∈ tes) (te : Nat) : Relinked segs z (setNext z l te) tes := by
  unfold setNext
  cases hlast : l.getLast? with
  | none => exact .refl h tes
  | some e =>
    obtain ⟨hblock, hmem⟩ := hl e (List.mem_of_getLast? hlast)
    exact setEntry_relinked h hblock hmem (by decide) te

theorem tailqInsertTail_relinked (h : ZoneInv segs z) {tes : List Nat} {l : List TailqEntry} {te : Nat}
    (hl : ∀ e ∈ l, EntryBlock z e.te ∧ e.te ∈ tes) (hte : EntryBlock z te) (hmem : te ∈ tes) (head : Nat) :
    Relinked segs z (tailqInsertTail z head l te) tes := by
  have hnext := setEntry_relinked h hte hmem (show EntryField.next ≠ .data by decide) 0
  have hte' : EntryBlock (setEntry z .next te 0) te := hte
  have hprev := setEntry_relinked hnext.zones hte' hmem (show EntryField.prev ≠ .data by decide) (tailqLast head l)
  exact (hnext.trans hprev).trans (setNext_relinked hprev.zones hl te)

theorem tailqRemove_relinked (h : ZoneInv segs z) {tes : List Nat} {l l' : List TailqEntry}
    (hl : ∀ e ∈ l ++ l', EntryBlock z e.te ∧ e.te ∈ tes) (head : Nat) :
    Relinked segs z (tailqRemove z head l l') tes := by
  cases l' with
  | nil => exact setNext_relinked h (fun e he => hl e (List.mem_append_left _ he)) _
  | cons e l' =>
    obtain ⟨hblock, hmem⟩ := hl e (List.mem_append_right _ List.mem_cons_self)
    have hprev := setEntry_relinked h hblock hmem (show EntryField.prev ≠ .data by decide) (tailqLast head l)
    exact hprev.trans (setNext_relinked hprev.zones (fun e he => hl e (List.mem_append_left _ he)) _)

/-- The block for the list entry: nothing changes, or there is one more live block. -/
theorem zmalloc_entry (h : ZoneInv segs z) {env : EalEnv}
    (hx : MallocExact env z.cfg.heap sizeofTailqEntry 0 socketIdAny) {a : HeapState × Nat}
    (ha : rteZmalloc env z.cfg.heap sizeofTailqEntry 0 = a) :
    a = (z.cfg.heap, 0) ∨ a.2 ≠ 0 ∧ BlocksKept z.live z.cfg.heap.mem a.1.mem ∧
      ∃ ars, RteDemo.Inv segs ⟨a.1, ⟨a.2, sizeofTailqEntry, 1, 0, false⟩ :: z.live⟩ ars := by
  subst ha
  obtain ⟨ars, hinv⟩ := h.heap
  rcases hinv.mallocSocket_run (show (0 : Nat) < 2 ^ 32 by decide) hx with hrefused | ⟨heap, k, hk, hal, hrun, hn⟩
  · exact .inl hrefused
  · simp only [MallocOp.NoWrap] at hn
    obtain ⟨hround, hsearch⟩ := hn
    have htry := heapTry_inv hinv hk (.inl rfl) hround hsearch hrun.symm
    have hkept := tryHeaps_kept hinv hk (.inl rfl) hround (l := [heap]) fun i hi => by
      rw [List.mem_singleton.mp hi]
      exact hsearch
    rw [tryHeaps_single, ← hrun] at hkept
    have hone : 2 ^ k = 1 := hal.symm
    rw [hone] at htry
    exact htry.imp_right fun hdone => ⟨hdone.1, hkept, hdone.2⟩

/-! ## Creating -/

/-- Nothing was taken. -/
structure Unchanged (s s' : RingState) : Prop where
  ringHead : s'.ringHead = s.ringHead
  ringList : s'.ringList = s.ringList
  ringMemzone : s'.ringMemzone = s.ringMemzone
  memzone : s'.zone.cfg.memzone = s.zone.cfg.memzone
  memzoneCnt : s'.zone.cfg.memzoneCnt = s.zone.cfg.memzoneCnt
  live : s'.zone.live = s.zone.live
  content : BlocksKept s.zone.live s.zone.cfg.heap.mem s'.zone.cfg.heap.mem

/-- A ring was created at `r`: one entry, one zone and two blocks more. Of the other blocks only the links of
the listed entries change. -/
structure CreatedRing (s s' : RingState) (name : CString) (r te mz : Nat) (zone : RteMemzone) : Prop where
  ringList : s'.ringList = s.ringList ++ [⟨te, r⟩]
  ringMemzone : s'.ringMemzone = Function.update s.ringMemzone r (some mz)
  unused : mz < rteMaxMemzone ∧ (s.zone.cfg.memzone mz).addr = 0
  memzone : s'.zone.cfg.memzone = Function.update s.zone.cfg.memzone mz zone
  addr : zone.addr = r
  named : zone.name = append rteRingMzPrefix name
  live : ∃ b b' : Block, s'.zone.live = b :: b' :: s.zone.live ∧ b.ptr = r ∧ b'.ptr = te ∧
    b'.size = sizeofTailqEntry
  content : ∀ b ∈ s.zone.live, ∀ x, b.ptr ≤ x → x < b.ptr + b.size →
    (∀ e ∈ s.ringList, x < e.te ∨ e.te + 16 ≤ x) → s'.zone.cfg.heap.mem x = s.zone.cfg.heap.mem x

theorem Unchanged.refl (s : RingState) : Unchanged s s :=
  ⟨rfl, rfl, rfl, rfl, rfl, rfl, fun _ _ _ _ _ => rfl⟩

/-- Every zone in use is at a live block. -/
theorem addr_live (h : ZoneInv segs z) {i : Nat} (hi : Reserved z.cfg.memzone i) :
    ∃ b ∈ z.live, b.ptr = (z.cfg.memzone i).addr := by
  obtain ⟨b, hb, hptr, -⟩ := h.block i hi
  exact ⟨b, hb, hptr⟩

/-- The ring that was inserted keeps the invariant. -/
theorem RingInv.insert (h : RingInv segs s) {s' : RingState} {name : CString} {r te mz : Nat} {zone : RteMemzone}
    (hc : CreatedRing s s' name r te mz zone) (hz : ZoneInv segs s'.zone) (hhead : s'.ringHead = s.ringHead)
    (hlinked : Linked s'.zone.cfg.heap.mem s'.ringHead s'.ringList 0) : RingInv segs s' := by
  obtain ⟨hlist, hfield, ⟨hlt, hunused⟩, htable, haddr, -, ⟨bz, bt, hlive, hbz, hbt, hsize⟩, -⟩ := hc
  -- both blocks are new
  obtain ⟨ars, hinv⟩ := hz.heap
  have hdistinct : (bz :: bt :: s.zone.live).Pairwise fun b b' => b.ptr ≠ b'.ptr := hlive ▸ hinv.distinct
  obtain ⟨hfz, hrest⟩ := List.pairwise_cons.mp hdistinct
  obtain ⟨hft, -⟩ := List.pairwise_cons.mp hrest
  have hr : ∀ b ∈ s.zone.live, r ≠ b.ptr := fun b hb => hbz ▸ hfz b (List.mem_cons_of_mem _ hb)
  have ht : ∀ b ∈ s.zone.live, te ≠ b.ptr := fun b hb => hbt ▸ hft b hb
  have hrt : r ≠ te := hbz ▸ hbt ▸ hfz bt List.mem_cons_self
  have hne : ∀ {i}, Reserved s.zone.cfg.memzone i → i ≠ mz := fun hi heq => hi.2 (heq ▸ hunused)
  have hold : ∀ {i}, i ≠ mz → (Reserved s'.zone.cfg.memzone i ↔ Reserved s.zone.cfg.memzone i) := by
    intro i hi
    rw [htable]
    exact Reserved.update hi
  have hsame : ∀ {i}, i ≠ mz → s'.zone.cfg.memzone i = s.zone.cfg.memzone i := by
    intro i hi
    rw [htable, Function.update_of_ne hi]
  have hself : (s'.zone.cfg.memzone mz).addr = r := by rw [htable, Function.update_self, haddr]
  have hr0 : r ≠ 0 := by
    have hmem : bz ∈ s'.zone.live := hlive ▸ List.mem_cons_self
    obtain ⟨-, a, n, pad, hold⟩ := hinv.live bz hmem
    rw [← hbz, hold.ptr]
    exact Nat.succ_ne_zero _
  have hteOld : ∀ e ∈ s.ringList, e.te ≠ te ∧ e.te ≠ r := by
    intro e he
    obtain ⟨b, hb, hptr, -⟩ := h.entry e he
    exact ⟨fun heq => ht b hb (hptr.trans heq).symm, fun heq => hr b hb (hptr.trans heq).symm⟩
  have hdataOld : ∀ e ∈ s.ringList, e.data ≠ r := by
    intro e he heq
    obtain ⟨i, -, hi, hdata⟩ := h.zone e he
    obtain ⟨b, hb, hptr⟩ := addr_live h.zones hi
    exact hr b hb (hptr.trans (hdata.trans heq)).symm
  have hmem : ∀ e, e ∈ s'.ringList → e ∈ s.ringList ∨ e = ⟨te, r⟩ := by
    intro e he
    rw [hlist, List.mem_append, List.mem_singleton] at he
    exact he
  refine ⟨hz, hhead ▸ h.head, hlinked, fun e he => ?_, fun e he => ?_, fun e he i hi => ?_, ?_, ?_⟩
  · rcases hmem e he with he | rfl
    · obtain ⟨b, hb, hptr, hsize⟩ := h.entry e he
      exact ⟨b, hlive ▸ List.mem_cons_of_mem _ (List.mem_cons_of_mem _ hb), hptr, hsize⟩
    · exact ⟨bt, hlive ▸ List.mem_cons_of_mem _ List.mem_cons_self, hbt, hsize⟩
  · rcases hmem e he with he | rfl
    · obtain ⟨i, hfieldi, hi, hdata⟩ := h.zone e he
      refine ⟨i, ?_, (hold (hne hi)).mpr hi, ?_⟩
      · rw [hfield, Function.update_of_ne (hdataOld e he), hfieldi]
      · rw [hsame (hne hi), hdata]
    · refine ⟨mz, ?_, ⟨hlt, ?_⟩, hself⟩
      · rw [hfield, Function.update_self]
      · rw [hself]
        exact hr0
  · by_cases him : i = mz
    · rw [him, hself]
      rcases hmem e he with he | rfl
      · exact Ne.symm (hteOld e he).2
      · exact hrt
    · have hi := (hold him).mp hi
      rw [hsame him]
      rcases hmem e he with he | rfl
      · exact h.apart e he i hi
      · obtain ⟨b, hb, hptr⟩ := addr_live h.zones hi
        exact fun heq => ht b hb (hptr.trans heq).symm
  · rw [hlist, List.map_append, List.map_singleton, List.nodup_append]
    refine ⟨h.entries, List.nodup_singleton _, fun a ha b hb heq => ?_⟩
    obtain ⟨e, he, rfl⟩ := List.mem_map.mp ha
    exact (hteOld e he).1 (heq.trans (List.mem_singleton.mp hb))
  · rw [hlist, List.map_append, List.map_singleton, List.nodup_append]
    refine ⟨h.rings, List.nodup_singleton _, fun a ha b hb heq => ?_⟩
    obtain ⟨e, he, rfl⟩ := List.mem_map.mp ha
    exact hdataOld e he (heq.trans (List.mem_singleton.mp hb))

/-- A state with the same list, table and blocks. -/
theorem RingInv.unchanged (h : RingInv segs s) {s' : RingState} (hu : Unchanged s s')
    (hz : ZoneInv segs s'.zone) : RingInv segs s' := by
  obtain ⟨hhead, hlist, hfield, htable, -, hlive, hcontent⟩ := hu
  refine ⟨hz, hhead ▸ h.head, ?_, ?_, ?_, ?_, ?_, ?_⟩
  · rw [hhead, hlist]
    exact h.linked.congr fun e he => (h.entry e he).agree hcontent
  · intro e he
    obtain ⟨b, hb, hptr, hsize⟩ := h.entry e (hlist ▸ he)
    exact ⟨b, hlive ▸ hb, hptr, hsize⟩
  · rw [hlist, hfield, htable]
    exact h.zone
  · rw [hlist, htable]
    exact h.apart
  · rw [hlist]
    exact h.entries
  · rw [hlist]
    exact h.rings

/-- The locked part of `rte_ring_create`, once the block `bt` for the entry is taken. -/
theorem RingInv.reserve (h : RingInv segs s) {env : MemzoneEnv} {name : CString} {len : Nat} {socketId : Int}
    {heap : HeapState} {bt : Block} (hzone : ZoneInv segs ⟨s.zone.cfg.setHeap heap, bt :: s.zone.live⟩)
    (hsize : bt.size = sizeofTailqEntry)
    (hkept : BlocksKept s.zone.live s.zone.cfg.heap.mem heap.mem)
    (hx : ZoneExact env heap len socketId 0 alignofRteRing 0) :
    ∃ s' ret, insertRing s ⟨s.zone.cfg.setHeap heap, bt :: s.zone.live⟩ bt.ptr
        (rteMemzoneReserveAligned env (s.zone.cfg.setHeap heap) (append rteRingMzPrefix name) len socketId 0
          alignofRteRing) = some (s', ret) ∧ RingInv segs s' ∧ (ret = none → Unchanged s s') ∧
      ∀ r, ret = some r → ∃ mz zone, CreatedRing s s' name r bt.ptr mz zone := by
  have hfresh := ptr_fresh hzone.heap
  obtain ⟨res, hres⟩ : ∃ res, rteMemzoneReserveAligned env (s.zone.cfg.setHeap heap)
    (append rteRingMzPrefix name) len socketId 0 alignofRteRing = res := ⟨_, rfl⟩
  obtain ⟨herror, hzone'⟩ := hzone.reserve (show alignofRteRing < 2 ^ 32 by decide)
    (show (0 : Nat) < 2 ^ 32 by decide) hx hres
  have hkept' := reserve_kept hzone (show alignofRteRing < 2 ^ 32 by decide) (show (0 : Nat) < 2 ^ 32 by decide)
    hx hres
  rw [hres]
  rcases memzoneReserve_cases hres with ⟨e, he, -⟩ | ⟨-, mz, zone, hok, hfilled⟩
  · -- no zone: the entry's block is freed
    have hcfg := herror e he
    have hheld : ZoneOp.held (bt :: s.zone.live) alignofRteRing 0 res = bt :: s.zone.live := by
      rw [ZoneOp.held, he]
    have hnot : ∀ i, Reserved s.zone.cfg.memzone i → (s.zone.cfg.memzone i).addr ≠ bt.ptr := by
      intro i hi heq
      obtain ⟨b, hb, hptr⟩ := addr_live h.zones hi
      exact hfresh b hb (hptr.trans heq).symm
    obtain ⟨heap', hfree, hz, hkeep⟩ := withoutEntry_zoneInv hzone List.mem_cons_self hnot
    have hlive : ((bt :: s.zone.live).filter fun b => b.ptr != bt.ptr) = s.zone.live := by
      rw [List.filter_cons_of_neg (by simp)]
      exact List.filter_eq_self.mpr fun b hb => bne_iff_ne.mpr (Ne.symm (hfresh b hb))
    have hrun : insertRing s ⟨s.zone.cfg.setHeap heap, bt :: s.zone.live⟩ bt.ptr res =
        some ({ s with zone := withoutEntry ⟨s.zone.cfg.setHeap heap, bt :: s.zone.live⟩ bt.ptr heap' },
          none) := by
      unfold insertRing
      rw [he]
      dsimp only
      rw [hheld, hcfg, hfree]
      rfl
    have hsame : Unchanged s
        { s with zone := withoutEntry ⟨s.zone.cfg.setHeap heap, bt :: s.zone.live⟩ bt.ptr heap' } :=
      ⟨rfl, rfl, rfl, rfl, rfl, hlive, fun b hb x hx hx' => (hkeep b (List.mem_cons_of_mem _ hb)
        (Ne.symm (hfresh b hb)) x hx hx').trans (hkept b hb x hx hx')⟩
    exact ⟨_, none, hrun, h.unchanged hsame hz, fun _ => hsame, fun r hr => absurd hr (by simp)⟩
  · have hself : res.1.memzone mz = zone := by rw [hfilled.table, Function.update_self]
    have hheld : ZoneOp.held (bt :: s.zone.live) alignofRteRing 0 res =
        ⟨zone.addr, zone.len, zoneAlign alignofRteRing, 0, false⟩ :: bt :: s.zone.live := by
      rw [ZoneOp.held, hok]
      dsimp only
      rw [hself]
    obtain ⟨z, hz⟩ : ∃ z : ZoneState, z = ⟨res.1, ZoneOp.held (bt :: s.zone.live) alignofRteRing 0 res⟩ :=
      ⟨_, rfl⟩
    have htable : z.cfg.memzone = Function.update s.zone.cfg.memzone mz zone := by
      rw [hz]
      exact hfilled.table
    have hlive : z.live = ⟨zone.addr, zone.len, zoneAlign alignofRteRing, 0, false⟩ :: bt :: s.zone.live := by
      rw [hz]
      exact hheld
    rw [← hz] at hzone'
    -- the entry is linked
    have hblock : EntryBlock z bt.ptr := ⟨bt, hlive ▸ List.mem_cons_of_mem _ List.mem_cons_self, rfl, hsize⟩
    have hentries : ∀ e ∈ s.ringList, EntryBlock z e.te ∧ e.te ∈ bt.ptr :: s.ringList.map TailqEntry.te := by
      intro e he
      obtain ⟨b, hb, hptr, hsize⟩ := h.entry e he
      exact ⟨⟨b, hlive ▸ List.mem_cons_of_mem _ (List.mem_cons_of_mem _ hb), hptr, hsize⟩,
        List.mem_cons_of_mem _ (List.mem_map_of_mem he)⟩
    have hdata := setEntry_zoneInv hzone' hblock .data zone.addr
    have hbytes : BlocksKept s.zone.live s.zone.cfg.heap.mem z.cfg.heap.mem := by
      intro b hb x hx hx'
      rw [hz]
      exact (hkept' b (List.mem_cons_of_mem _ hb) x hx hx').trans (hkept b hb x hx hx')
    have hte : ∀ e ∈ s.ringList, e.te ≠ bt.ptr := by
      intro e he heq
      obtain ⟨b, hb, hptr, -⟩ := h.entry e he
      exact hfresh b hb (heq.symm.trans hptr.symm)
    have hblocks : ∀ e ∈ s.ringList ++ [⟨bt.ptr, zone.addr⟩], EntryBlock z e.te := by
      intro e he
      rcases List.mem_append.mp he with he | he
      · exact (hentries e he).1
      · exact List.mem_singleton.mp he ▸ hblock
    have hapart : EntriesApart (s.ringList ++ [⟨bt.ptr, zone.addr⟩]) := by
      refine entriesApart hzone' hblocks ?_
      rw [List.map_append, List.map_singleton, List.nodup_append]
      refine ⟨h.entries, List.nodup_singleton _, fun a ha b hb heq => ?_⟩
      obtain ⟨e, he, rfl⟩ := List.mem_map.mp ha
      exact hte e he (heq.trans (List.mem_singleton.mp hb))
    have haddr : zone.addr < 2 ^ 64 := by
      have hmem : ⟨zone.addr, zone.len, zoneAlign alignofRteRing, 0, false⟩ ∈ z.live := hlive ▸ List.mem_cons_self
      obtain ⟨ars, hinv⟩ := hzone'.heap
      exact @RteDemo.Inv.ptr_lt _ _ _ hinv _ hmem
    have hlist : Linked (tailqInsertTail (setEntry z .data bt.ptr zone.addr) s.ringHead s.ringList
        bt.ptr).cfg.heap.mem s.ringHead (s.ringList ++ [⟨bt.ptr, zone.addr⟩]) 0 := by
      have hold : Linked z.cfg.heap.mem s.ringHead s.ringList 0 :=
        h.linked.congr fun e he => (h.entry e he).agree hbytes
      have hout := (List.pairwise_append.mp hapart).2.2
      refine Linked.insertTail (hold.set (fun e he => hout e he _ List.mem_cons_self) .data) ?_ hapart
        (hblock.lt hzone') (tailqLast_lt hzone' h.head fun e he => (hentries e he).1)
      exact (Layout.get_set_self ..).trans (Nat.mod_eq_of_lt haddr)
    have hlinked := tailqInsertTail_relinked (z := setEntry z .data bt.ptr zone.addr) hdata hentries hblock
      List.mem_cons_self s.ringHead
    obtain ⟨z', hz'⟩ : ∃ z', z' = tailqInsertTail (setEntry z .data bt.ptr zone.addr) s.ringHead s.ringList
      bt.ptr := ⟨_, rfl⟩
    rw [← hz'] at hlinked hlist
    have hcontent : ∀ b ∈ s.zone.live, ∀ x, b.ptr ≤ x → x < b.ptr + b.size →
        (∀ e ∈ s.ringList, x < e.te ∨ e.te + 16 ≤ x) → z'.cfg.heap.mem x = s.zone.cfg.heap.mem x := by
      intro b hb x hx hx' hout
      have hb' : b ∈ z.live := hlive ▸ List.mem_cons_of_mem _ (List.mem_cons_of_mem _ hb)
      have hbt : bt ∈ z.live := hlive ▸ List.mem_cons_of_mem _ List.mem_cons_self
      obtain ⟨ars, hinv⟩ := hzone'.heap
      have hiso := hinv.blockIsolated hb' fun hg => absurd (hzone'.fixed b hb' ▸ hg) Bool.false_ne_true
      have hap := hiso.others bt hbt fun heq => hfresh b hb (congrArg Block.ptr heq)
      have h24 : sizeofTailqEntry = 24 := rfl
      rw [hsize, h24] at hap
      have hlinks := hlinked.keep x fun te hte => by
        rcases List.mem_cons.mp hte with rfl | hte
        · omega
        · obtain ⟨e, he, rfl⟩ := List.mem_map.mp hte
          exact hout e he
      rw [hlinks]
      refine (Layout.set_out_record _ ?_).trans (hbytes b hb x hx hx')
      change x < bt.ptr ∨ bt.ptr + 24 ≤ x
      omega
    have hrun : insertRing s ⟨s.zone.cfg.setHeap heap, bt :: s.zone.live⟩ bt.ptr res =
        some (⟨z', s.ringHead, s.ringList ++ [⟨bt.ptr, zone.addr⟩],
          Function.update s.ringMemzone zone.addr (some mz)⟩, some zone.addr) := by
      unfold insertRing
      rw [hok]
      dsimp only
      rw [hself, ← hz, ← hz']
    have hnew : CreatedRing s ⟨z', s.ringHead, s.ringList ++ [⟨bt.ptr, zone.addr⟩],
        Function.update s.ringMemzone zone.addr (some mz)⟩ name zone.addr bt.ptr mz zone :=
      ⟨rfl, rfl, getNextFreeMemzone_some hfilled.free, hlinked.memzone.trans htable, rfl, hfilled.named,
        ⟨_, _, hlinked.live.trans hlive, rfl, rfl, hsize⟩, hcontent⟩
    refine ⟨_, some zone.addr, hrun, h.insert hnew hlinked.zones rfl hlist, fun hnone => absurd hnone (by simp),
      fun r hr => ?_⟩
    obtain rfl := Option.some.inj hr
    exact ⟨mz, zone, hnew⟩

/-- **`rte_ring_create`** takes everything or nothing. -/
theorem RingInv.create (h : RingInv segs s) {env : MemzoneEnv} {name : CString} {count flags : Nat}
    {socketId : Int} (hn : (RingCall.create env name count socketId flags).NoWrap s) :
    ∃ s' ret, rteRingCreate env s name count socketId flags = some (s', ret) ∧ RingInv segs s' ∧
      (ret = none → Unchanged s s') ∧
      ∀ r, ret = some r → ∃ te mz zone, CreatedRing s s' name r te mz zone := by
  obtain ⟨hexact, hx⟩ := hn
  have hrefused : ∃ s' ret, some (s, none) = some (s', ret) ∧ RingInv segs s' ∧
      (ret = none → Unchanged s s') ∧ ∀ r, ret = some r → ∃ te mz zone, CreatedRing s s' name r te mz zone :=
    ⟨s, none, rfl, h, fun _ => .refl s, fun r hr => absurd hr (by simp)⟩
  rw [rteRingCreate]
  dsimp only
  split
  · exact hrefused
  split
  · exact hrefused
  obtain ⟨a, ha⟩ : ∃ a, rteZmalloc env.toEalEnv s.zone.cfg.heap sizeofTailqEntry 0 = a := ⟨_, rfl⟩
  rw [ha] at hx ⊢
  rcases zmalloc_entry h.zones hexact ha with rfl | ⟨hne, hkept, hinv⟩
  · rw [if_pos rfl]
    exact hrefused
  · have hzone := withBlock_zoneInv h.zones hinv rfl
    have hentry : withEntry s.zone a =
        ⟨s.zone.cfg.setHeap a.1, ⟨a.2, sizeofTailqEntry, 1, 0, false⟩ :: s.zone.live⟩ := by
      rw [withEntry, if_neg hne]
    obtain ⟨s', ret, hrun, hdone⟩ := h.reserve hzone rfl hkept hx
    rw [if_neg hne, hentry]
    obtain ⟨hinv', hnone, hsome⟩ := hdone
    exact ⟨s', ret, hrun, hinv', hnone, fun r hr => ⟨_, hsome r hr⟩⟩

/-! ## Freeing -/

/-- The ring at `r` was freed: its entry, its zone and its two blocks are gone. Of the other
blocks only the links of the listed entries change. -/
structure FreedRing (s s' : RingState) (r : Nat) (e : TailqEntry) (mz : Nat) : Prop where
  mem : e ∈ s.ringList ∧ e.data = r
  owned : Reserved s.zone.cfg.memzone mz ∧ (s.zone.cfg.memzone mz).addr = r
  ringList : ∃ l l', s.ringList = l ++ e :: l' ∧ s'.ringList = l ++ l'
  memzone : s'.zone.cfg.memzone = Function.update s.zone.cfg.memzone mz RteMemzone.zero
  live : ∀ b, b ∈ s'.zone.live ↔ b ∈ s.zone.live ∧ b.ptr ≠ r ∧ b.ptr ≠ e.te
  content : ∀ b ∈ s'.zone.live, ∀ x, b.ptr ≤ x → x < b.ptr + b.size →
    (∀ e' ∈ s'.ringList, x < e'.te ∨ e'.te + 16 ≤ x) → s'.zone.cfg.heap.mem x = s.zone.cfg.heap.mem x
  lookup : ∀ name i, i ≠ mz → (rteMemzoneLookup s'.zone.cfg.memzone name = some i ↔
    rteMemzoneLookup s.zone.cfg.memzone name = some i)

/-- `rte_memzone_free` of a zone in use. -/
theorem zone_freed (h : ZoneInv segs z) {mz : Nat} (hmz : Reserved z.cfg.memzone mz) :
    ∃ cfg', rteMemzoneFree z.cfg (some mz) = some (cfg', 0) ∧
      cfg'.memzone = Function.update z.cfg.memzone mz RteMemzone.zero ∧
      (∀ b ∈ z.live, b.ptr ≠ (z.cfg.memzone mz).addr → ∀ x, b.ptr ≤ x → x < b.ptr + b.size →
        cfg'.heap.mem x = z.cfg.heap.mem x) ∧
      FreedZone z mz cfg' ∧ ZoneInv segs ⟨cfg', z.live.filter fun b => b.ptr != (z.cfg.memzone mz).addr⟩ := by
  obtain ⟨heap, hfree, -, hkeep⟩ := h.free_block hmz
  obtain ⟨cfg', ret, hcode, hfreed, hzone⟩ := h.free hmz.1
  have hclear := zonesUsed_clear hmz.1 hmz.2
  have hcount := h.count
  have hused := rteMemzoneFree_used hmz.2 (by omega) hfree
  obtain ⟨rfl, rfl⟩ := Prod.mk.inj (Option.some.inj (hcode.symm.trans hused))
  exact ⟨_, hcode, rfl, hkeep, hfreed, hzone⟩

/-- The loop of `rte_ring_free` stops at the entry of the ring. -/
theorem RingInv.find (h : RingInv segs s) {e : TailqEntry} (he : e ∈ s.ringList) :
    ∃ l l', s.ringList = l ++ e :: l' ∧ (s.ringList.takeWhile fun e' => e'.data != e.data) = l ∧
      (s.ringList.dropWhile fun e' => e'.data != e.data) = e :: l' := by
  obtain ⟨l, l', hlist⟩ := List.append_of_mem he
  have hl : ∀ e' ∈ l, (e'.data != e.data) = true := by
    intro e' he'
    have hrings := h.rings
    rw [hlist, List.map_append, List.nodup_append] at hrings
    exact bne_iff_ne.mpr (hrings.2.2 _ (List.mem_map_of_mem he') _ (List.mem_map_of_mem List.mem_cons_self))
  refine ⟨l, l', hlist, ?_, ?_⟩
  · rw [hlist, List.takeWhile_append_of_pos hl, List.takeWhile_cons_of_neg (by simp), List.append_nil]
  · rw [hlist, List.dropWhile_append_of_pos hl, List.dropWhile_cons_of_neg (by simp)]

/-- **`rte_ring_free`** of a listed ring. -/
theorem RingInv.free (h : RingInv segs s) {r : Nat} (hr : r ∈ s.ringList.map TailqEntry.data) :
    ∃ s' e mz, rteRingFree s r = some s' ∧ RingInv segs s' ∧ FreedRing s s' r e mz := by
  obtain ⟨e, he, rfl⟩ := List.mem_map.mp hr
  obtain ⟨mz, hfield, hmz, haddr⟩ := h.zone e he
  obtain ⟨bt, hbt, hptr, -⟩ := h.entry e he
  have hr0 : e.data ≠ 0 := haddr ▸ hmz.2
  have hte : e.te ≠ e.data := fun heq => h.apart e he mz hmz (haddr.trans heq.symm)
  -- the zone
  obtain ⟨cfg', hcode, htable, hkeep, hfreed, hzone⟩ := zone_freed h.zones hmz
  rw [haddr] at hkeep hzone
  have hold : ∀ {i}, Reserved cfg'.memzone i → i ≠ mz ∧ Reserved s.zone.cfg.memzone i := by
    intro i hi
    rw [htable] at hi
    exact Reserved.update_zero hi
  -- the entry is the one for the ring
  obtain ⟨l, l', hlist, htake, hdrop⟩ := h.find he
  have hrest : ∀ e', e' ∈ l ++ l' → e' ∈ s.ringList ∧ e'.te ≠ e.te ∧ e'.data ≠ e.data := by
    intro e' he'
    have hperm : (l ++ e :: l').Perm (e :: (l ++ l')) := List.perm_middle
    have htes := h.entries
    have hdatas := h.rings
    rw [hlist, (hperm.map _).nodup_iff, List.map_cons, List.nodup_cons] at htes hdatas
    exact ⟨hlist ▸ hperm.mem_iff.mpr (List.mem_cons_of_mem _ he'),
      fun heq => htes.1 (heq ▸ List.mem_map_of_mem he'), fun heq => hdatas.1 (heq ▸ List.mem_map_of_mem he')⟩
  have hsub : (l ++ l').Sublist s.ringList := hlist ▸ (List.Sublist.refl l).append (List.sublist_cons_self e l')
  -- its links
  obtain ⟨z₁, hz₁⟩ : ∃ z₁ : ZoneState, z₁ = ⟨cfg', s.zone.live.filter fun b => b.ptr != e.data⟩ := ⟨_, rfl⟩
  have hmem₁ : ∀ b, b ∈ z₁.live ↔ b ∈ s.zone.live ∧ b.ptr ≠ e.data := by
    intro b
    rw [hz₁, List.mem_filter, bne_iff_ne]
  have htable₁ : z₁.cfg.memzone = cfg'.memzone := by rw [hz₁]
  have hmem : z₁.cfg.heap.mem = cfg'.heap.mem := by rw [hz₁]
  rw [← hz₁] at hzone
  have hentries : ∀ e' ∈ l ++ l', EntryBlock z₁ e'.te ∧ e'.te ∈ (l ++ l').map TailqEntry.te := by
    intro e' he'
    obtain ⟨b, hb, hptr', hsize⟩ := h.entry e' (hrest e' he').1
    have hne : b.ptr ≠ e.data := fun heq =>
      h.apart e' (hrest e' he').1 mz hmz (haddr.trans (heq.symm.trans hptr'))
    exact ⟨⟨b, (hmem₁ b).mpr ⟨hb, hne⟩, hptr', hsize⟩, List.mem_map_of_mem he'⟩
  have hlist₁ : Linked z₁.cfg.heap.mem s.ringHead (l ++ e :: l') 0 := by
    rw [← hlist, hmem]
    refine h.linked.congr fun e' he' => ?_
    obtain ⟨b, hb, hptr', hsize⟩ := h.entry e' he'
    have hne : b.ptr ≠ e.data := fun heq => h.apart e' he' mz hmz (haddr.trans (heq.symm.trans hptr'))
    rw [← hptr', ← hsize]
    exact fun x hx hx' => hkeep b hb hne x hx hx'
  have hapart : EntriesApart (l ++ e :: l') := by
    rw [← hlist]
    exact entriesApart h.zones h.entry h.entries
  have hlist₂ := hlist₁.remove hapart (fun e' he' => (hentries e' (List.mem_append_right _ he')).1.lt hzone)
    (tailqLast_lt hzone h.head fun e' he' => (hentries e' (List.mem_append_left _ he')).1)
  have hlinked := tailqRemove_relinked hzone hentries s.ringHead
  obtain ⟨z₂, hz₂⟩ : ∃ z₂, z₂ = tailqRemove z₁ s.ringHead l l' := ⟨_, rfl⟩
  rw [← hz₂] at hlinked hlist₂
  have htable₂ : z₂.cfg.memzone = cfg'.memzone := hlinked.memzone.trans htable₁
  -- its block
  have hbt' : bt ∈ z₂.live := hlinked.live ▸ (hmem₁ bt).mpr ⟨hbt, hptr ▸ hte⟩
  obtain ⟨heap, hfree, hzone', hkeep'⟩ := withoutEntry_zoneInv hlinked.zones hbt' fun i hi => by
    rw [htable₂] at hi ⊢
    obtain ⟨hi, hres⟩ := hold hi
    rw [hfreed.others i hi, hptr]
    exact h.apart e he i hres
  rw [hptr] at hfree hzone' hkeep'
  have hrun : rteRingFree s e.data = some { s with
      zone := withoutEntry z₂ e.te heap
      ringList := l ++ l' } := by
    rw [rteRingFree, if_neg hr0, hfield]
    dsimp only
    rw [hcode, Option.bind_some, if_neg (not_not.mpr rfl), haddr, ← hz₁, removeRing]
    simp only [htake, hdrop]
    rw [← hz₂, hfree]
    rfl
  have hlive : ∀ b, b ∈ (withoutEntry z₂ e.te heap).live ↔
      b ∈ s.zone.live ∧ b.ptr ≠ e.data ∧ b.ptr ≠ e.te := by
    intro b
    rw [withoutEntry, List.mem_filter, hlinked.live, hmem₁, bne_iff_ne, and_assoc]
  have htable' : (withoutEntry z₂ e.te heap).cfg.memzone = cfg'.memzone := htable₂
  refine ⟨_, e, mz, hrun, ⟨hzone', h.head, hlist₂.congr fun e' he' => ?_, fun e' he' => ?_, fun e' he' => ?_,
    fun e' he' i hi => ?_, ?_, ?_⟩,
    ⟨⟨he, rfl⟩, ⟨hmz, haddr⟩, ⟨l, l', hlist, rfl⟩, htable'.trans htable, hlive,
      fun b hb x hx hx' hout => ?_, ?_⟩⟩
  · obtain ⟨-, hte', -⟩ := hrest e' he'
    obtain ⟨⟨b, hb, hptr', hsize⟩, -⟩ := hentries e' he'
    rw [← hptr', ← hsize]
    exact fun x hx hx' => hkeep' b (hlinked.live ▸ hb) (hptr' ▸ hte') x hx hx'
  · obtain ⟨he', hte', -⟩ := hrest e' he'
    obtain ⟨b, hb, hptr', hsize⟩ := h.entry e' he'
    have hne : e'.te ≠ e.data := fun heq => h.apart e' he' mz hmz (haddr.trans heq.symm)
    exact ⟨b, (hlive b).mpr ⟨hb, hptr' ▸ hne, hptr' ▸ hte'⟩, hptr', hsize⟩
  · obtain ⟨he', -, hdata⟩ := hrest e' he'
    obtain ⟨i, hfieldi, hi, haddri⟩ := h.zone e' he'
    have him : i ≠ mz := by
      rintro rfl
      exact hdata (haddri.symm.trans haddr)
    have hsame : (withoutEntry z₂ e.te heap).cfg.memzone i = s.zone.cfg.memzone i :=
      (congrFun htable' i).trans (hfreed.others i him)
    refine ⟨i, hfieldi, ⟨hi.1, ?_⟩, ?_⟩
    · exact hsame ▸ hi.2
    · exact (congrArg RteMemzone.addr hsame).trans haddri
  · have hi' : Reserved cfg'.memzone i := htable' ▸ hi
    obtain ⟨him, hres⟩ := hold hi'
    have hsame : (withoutEntry z₂ e.te heap).cfg.memzone i = s.zone.cfg.memzone i :=
      (congrFun htable' i).trans (hfreed.others i him)
    exact fun heq => h.apart e' (hrest e' he').1 i hres ((congrArg RteMemzone.addr hsame).symm.trans heq)
  · exact h.entries.sublist (hsub.map _)
  · exact h.rings.sublist (hsub.map _)
  · obtain ⟨hb, hbr, hbte⟩ := (hlive b).mp hb
    have hb₂ : b ∈ z₂.live := hlinked.live ▸ (hmem₁ b).mpr ⟨hb, hbr⟩
    have hlinks : z₂.cfg.heap.mem x = z₁.cfg.heap.mem x := hlinked.keep x fun te hte => by
      obtain ⟨e', he', rfl⟩ := List.mem_map.mp hte
      exact hout e' he'
    exact (hkeep' b hb₂ hbte x hx hx').trans (hlinks.trans ((congrFun hmem x).trans (hkeep b hb hbr x hx hx')))
  · rw [htable']
    exact hfreed.lookup

/-! ## Other zones and writes -/

/-- The zones change, and no ring loses its own. -/
theorem RingInv.others (h : RingInv segs s) {z' : ZoneState} (hz : ZoneInv segs z')
    (hlive : ∀ e ∈ s.ringList, ∀ b ∈ s.zone.live, b.ptr = e.te → b ∈ z'.live)
    (hkept : ∀ e ∈ s.ringList, ∀ i, Reserved s.zone.cfg.memzone i → (s.zone.cfg.memzone i).addr = e.data →
      z'.cfg.memzone i = s.zone.cfg.memzone i)
    (hapart : ∀ e ∈ s.ringList, ∀ i, Reserved z'.cfg.memzone i → (z'.cfg.memzone i).addr ≠ e.te)
    (hbytes : ∀ e ∈ s.ringList, Agree s.zone.cfg.heap.mem z'.cfg.heap.mem e.te (e.te + sizeofTailqEntry)) :
    RingInv segs { s with zone := z' } := by
  refine ⟨hz, h.head, h.linked.congr hbytes, fun e he => ?_, fun e he => ?_, hapart, h.entries, h.rings⟩
  · obtain ⟨b, hb, hptr, hsize⟩ := h.entry e he
    exact ⟨b, hlive e he b hb hptr, hptr, hsize⟩
  · obtain ⟨i, hfield, hi, haddr⟩ := h.zone e he
    have hsame := hkept e he i hi haddr
    exact ⟨i, hfield, ⟨hi.1, hsame ▸ hi.2⟩, hsame ▸ haddr⟩

theorem RingInv.zoneOp (h : RingInv segs s) {op : ZoneOp} (hv : (RingCall.zone op).Valid s)
    (hn : op.NoWrap s.zone) :
    ∃ z', op.run s.zone = some z' ∧ RingInv segs { s with zone := z' } := by
  cases op with
  | reserve env name len socketId flags align bound =>
    obtain ⟨halign, hbound⟩ := hv.1
    obtain ⟨res, hres⟩ : ∃ res, rteMemzoneReserveBounded env s.zone.cfg name len socketId flags align bound =
      res := ⟨_, rfl⟩
    obtain ⟨herror, hzone⟩ := h.zones.reserve halign hbound hn hres
    refine ⟨⟨res.1, ZoneOp.held s.zone.live align bound res⟩, by rw [ZoneOp.run, hres], ?_⟩
    rcases memzoneReserve_cases hres with ⟨e, he, -⟩ | ⟨-, mz, zone, hok, hfilled⟩
    · have hheld : ZoneOp.held s.zone.live align bound res = s.zone.live := by rw [ZoneOp.held, he]
      rw [hheld, herror e he] at hzone ⊢
      exact h.unchanged (.refl s) hzone
    · have hself : res.1.memzone mz = zone := by rw [hfilled.table, Function.update_self]
      have hother : ∀ i, i ≠ mz → res.1.memzone i = s.zone.cfg.memzone i := by
        intro i hi
        rw [hfilled.table, Function.update_of_ne hi]
      have hheld : ZoneOp.held s.zone.live align bound res =
          ⟨zone.addr, zone.len, zoneAlign align, bound, false⟩ :: s.zone.live := by
        rw [ZoneOp.held, hok]
        dsimp only
        rw [hself]
      rw [hheld] at hzone ⊢
      have hfresh := ptr_fresh hzone.heap
      have hunused := (getNextFreeMemzone_some hfilled.free).2
      refine h.others hzone (fun e _ b hb _ => List.mem_cons_of_mem _ hb) (fun e _ i hi _ => ?_)
        (fun e he i hi heq => ?_) fun e he => (h.entry e he).agree (reserve_kept h.zones halign hbound hn hres)
      · exact hother i fun him => hi.2 (him ▸ hunused)
      · by_cases him : i = mz
        · obtain ⟨b, hb, hptr, -⟩ := h.entry e he
          rw [him] at heq
          exact hfresh b hb ((congrArg RteMemzone.addr hself).symm.trans (heq.trans hptr.symm))
        · have hsame := hother i him
          exact h.apart e he i ⟨hi.1, hsame ▸ hi.2⟩ ((congrArg RteMemzone.addr hsame).symm.trans heq)
  | free idx =>
    obtain ⟨hlt, hnot⟩ := hv
    have hnot := hnot idx rfl
    obtain ⟨cfg', ret, hcode, hfreed, hzone⟩ := h.zones.free hlt
    refine ⟨⟨cfg', s.zone.live.filter fun b => b.ptr != (s.zone.cfg.memzone idx).addr⟩, ?_, ?_⟩
    · rw [ZoneOp.run, hcode]
      rfl
    · have hmem : ∀ e ∈ s.ringList, e.data ∈ s.ringList.map TailqEntry.data := fun e he =>
        List.mem_map_of_mem he
      refine h.others hzone (fun e he b hb hptr => ?_) (fun e he i hi haddr => ?_) (fun e he i hi heq => ?_)
        fun e he => ?_
      · refine List.mem_filter.mpr ⟨hb, bne_iff_ne.mpr fun heq => ?_⟩
        by_cases h0 : (s.zone.cfg.memzone idx).addr = 0
        · obtain ⟨ars, hinv⟩ := h.zones.heap
          obtain ⟨-, a, n, pad, hold⟩ := hinv.live b hb
          exact Nat.succ_ne_zero _ (hold.ptr.symm.trans (heq.trans h0))
        · exact h.apart e he idx ⟨hlt, h0⟩ (heq.symm.trans hptr)
      · exact hfreed.others i fun hii => hnot (hii ▸ haddr ▸ hmem e he)
      · by_cases hii : i = idx
        · -- the descriptor is not in use any more
          rw [hii] at hi
          by_cases h0 : (s.zone.cfg.memzone idx).addr = 0
          · have hunused := rteMemzoneFree_unused h0
            obtain ⟨rfl, -⟩ := Prod.mk.inj (Option.some.inj (hcode.symm.trans hunused))
            exact hi.2 h0
          · obtain ⟨cfg'', hcode', htable, -⟩ := zone_freed h.zones ⟨hlt, h0⟩
            obtain ⟨rfl, -⟩ := Prod.mk.inj (Option.some.inj (hcode.symm.trans hcode'))
            rw [htable] at hi
            exact (Reserved.update_zero hi).1 rfl
        · have hsame := hfreed.others i hii
          exact h.apart e he i ⟨hi.1, hsame ▸ hi.2⟩ ((congrArg RteMemzone.addr hsame).symm.trans heq)
      · by_cases h0 : (s.zone.cfg.memzone idx).addr = 0
        · obtain ⟨rfl, -⟩ := Prod.mk.inj (Option.some.inj (hcode.symm.trans (rteMemzoneFree_unused h0)))
          exact .refl _ _ _
        · obtain ⟨cfg'', hcode', -, hkeep, -⟩ := zone_freed h.zones ⟨hlt, h0⟩
          obtain ⟨rfl, -⟩ := Prod.mk.inj (Option.some.inj (hcode.symm.trans hcode'))
          obtain ⟨b, hb, hptr, hsize⟩ := h.entry e he
          rw [← hptr, ← hsize]
          exact hkeep b hb fun heq => h.apart e he idx ⟨hlt, h0⟩ (heq.symm.trans hptr)

/-- A write to a block that is not that of an entry. -/
theorem RingInv.write (h : RingInv segs s) {b : Block} {m : Mem} (hv : (RingCall.write b m).Valid s) :
    RingInv segs { s with zone := setMem s.zone m } := by
  obtain ⟨hv, hother⟩ := hv
  refine h.others (write_zoneInv h.zones hv) (fun _ _ _ hb _ => hb) (fun _ _ _ _ _ => rfl) h.apart fun e he => ?_
  obtain ⟨b', hb', hptr, hsize⟩ := h.entry e he
  obtain ⟨ars, hinv⟩ := h.zones.heap
  obtain ⟨-, a, n, pad, hold⟩ := hinv.live b' hb'
  have husable := hinv.rep.usable hold
  have hfit := hold.size
  have hne : ¬MallocOp.Touches b' (.write b m) := fun heq => (hother e he).1 (heq ▸ hptr)
  rw [← hptr, ← hsize]
  intro x hx hx'
  refine hinv.undisturbed hv trivial b' hb' hne x hx ?_
  rw [husable]
  omega

/-! ## Every run -/

/-- What holds of the rings between calls: each has a block for its entry and a zone, which are its own. -/
structure RingsOK (segs : List RteMemseg) (s : RingState) : Prop where
  zones : ZonesOK segs s.zone
  /-- The links and the data in the entries' blocks are those of the list. -/
  linked : Linked s.zone.cfg.heap.mem s.ringHead s.ringList 0
  entry : ∀ e ∈ s.ringList, ∃ b ∈ s.zone.live, BlockIsolated segs s.zone.runState b ∧ b.ptr = e.te
  zone : ∀ e ∈ s.ringList, ∃ mz, s.ringMemzone e.data = some mz ∧ Reserved s.zone.cfg.memzone mz ∧
    (s.zone.cfg.memzone mz).addr = e.data
  apart : ∀ e ∈ s.ringList, ∀ i, Reserved s.zone.cfg.memzone i → (s.zone.cfg.memzone i).addr ≠ e.te
  distinct : (s.ringList.map TailqEntry.te).Nodup ∧ (s.ringList.map TailqEntry.data).Nodup

/-- Creating a ring adds all of it or nothing, freeing one takes back exactly that; neither panics. -/
def RingCall.Atomic (s : RingState) : RingCall → Prop
  | create env name count socketId flags =>
    ∃ s' ret, rteRingCreate env s name count socketId flags = some (s', ret) ∧
      (ret = none → Unchanged s s') ∧ ∀ r, ret = some r → ∃ te mz zone, CreatedRing s s' name r te mz zone
  | free r => ∃ s' e mz, rteRingFree s r = some s' ∧ FreedRing s s' r e mz
  | zone op => op.Atomic s.zone
  | write .. => True

theorem RingInv.ringsOK (h : RingInv segs s) : RingsOK segs s := by
  refine ⟨h.zones.zonesOK, h.linked, fun e he => ?_, h.zone, h.apart, h.entries, h.rings⟩
  obtain ⟨ars, hinv⟩ := h.zones.heap
  obtain ⟨b, hb, hptr, -⟩ := h.entry e he
  refine ⟨b, hb, hinv.blockIsolated hb fun hg => ?_, hptr⟩
  rw [h.zones.fixed b hb] at hg
  exact absurd hg Bool.false_ne_true

theorem RingInv.step (h : RingInv segs s) {c : RingCall} (hv : c.Valid s) (hn : c.NoWrap s) :
    c.Atomic s ∧ ∃ s', c.run s = some s' ∧ RingInv segs s' := by
  cases c with
  | create env name count socketId flags =>
    obtain ⟨s', ret, hrun, hinv, hnone, hsome⟩ := h.create hn
    exact ⟨⟨s', ret, hrun, hnone, hsome⟩, s', by rw [RingCall.run, hrun, Option.map_some], hinv⟩
  | free r =>
    obtain ⟨s', e, mz, hrun, hinv, hfreed⟩ := h.free hv
    exact ⟨⟨s', e, mz, hrun, hfreed⟩, s', hrun, hinv⟩
  | zone op =>
    obtain ⟨z', hrun, hinv⟩ := h.zoneOp hv hn
    exact ⟨h.zones.atomic hv.1 hn, _, by rw [RingCall.run, hrun, Option.map_some], hinv⟩
  | write b m =>
    exact ⟨trivial, _, rfl, h.write hv⟩

end

/-- **Rings over the heaps and the zones.** In every run in which nothing wraps each listed ring has its own
block and zone, creating a ring adds all of it or nothing, and freeing one takes back exactly that. -/
theorem rings_atomic {segs : List RteMemseg} (hok : MemsegsOK segs) {m : Bytes.Mem} {memsegIova : Nat → Nat}
    {s : RingState} (h : Reach (RingInit segs m memsegIova) RingStep s) :
    RingsOK segs s ∧ ∀ c : RingCall, c.Valid s → c.NoWrap s → c.Atomic s ∧ ∃ s', c.run s = some s' := by
  have hinv : RingInv segs s := by
    refine h.invariant (fun _ hinit => RingInv.init hok hinit) fun s s' hinv hstep => ?_
    obtain ⟨c, hv, hn, hrun⟩ := hstep
    obtain ⟨-, s'', hrun', hinv'⟩ := hinv.step hv hn
    obtain rfl := Option.some.inj (hrun.symm.trans hrun')
    exact hinv'
  refine ⟨hinv.ringsOK, fun c hv hn => ?_⟩
  obtain ⟨hatomic, s', hrun, -⟩ := hinv.step hv hn
  exact ⟨hatomic, s', hrun⟩

/-! ## One memseg -/

/-- A long free element can serve a small request. -/
theorem canServe_of_free {r : RunState} {ars : List Arena} (h : RteDemo.Inv oneSeg r ars) {p n size k : Nat}
    (hm : (p, ⟨n, .free⟩) ∈ placed ars) (hle : 2 ^ k + size + 64 ≤ n) : CanServe r.heap 0 size (2 ^ k) 0 := by
  obtain ⟨ar, har, hin⟩ := mem_placed.mp hm
  have hheap : ar.heap = 0 := by
    have hframe : ar.frame ∈ (segArenas oneSeg).map Arena.frame := h.frames ▸ List.mem_map_of_mem har
    obtain ⟨ar', har', heq⟩ := List.mem_map.mp hframe
    obtain rfl : ar' = segArena 0 ⟨2 ^ 30, 2 ^ 30, 2 ^ 21, 0⟩ := List.mem_singleton.mp har'
    exact (congrArg Frame.heap heq).symm
  have hsize : r.heap.elem .size p = n := h.rep.elem_size hm
  have hpos : 0 < 2 ^ k := Nat.two_pow_pos k
  have hdiv := Nat.div_mul_le_self (p + 64 + 2 ^ k - 1) (2 ^ k)
  have hmod := Nat.lt_div_mul_add (a := p + 64 + 2 ^ k - 1) hpos
  refine ⟨_, p, h.rep.mem_freeHead.mpr ⟨ar, har, hheap, n, hin, rfl⟩, (p + 64 + 2 ^ k - 1) / 2 ^ k * 2 ^ k, ?_⟩
  rw [hsize]
  refine ⟨?_, ?_, Nat.dvd_mul_left _ _, noCross_zero _ _⟩
  · rw [mallocElemHeaderLen]
    omega
  · omega

/-- What is left of the memseg after a small block was taken. -/
theorem exists_free_allocElems {n front : Nat} (hle : front + 64 + 64 ≤ n) (hn : 2 ^ 29 ≤ n) (p : Nat) :
    ∃ q m, (q, ⟨m, .free⟩) ∈ Tiling.place RteDemo.Elem.size p (allocElems n front 64) ∧ 2 ^ 20 ≤ m := by
  have hplace : ∀ {e : RteDemo.Elem}, e ∈ allocElems n front 64 →
      ∃ q, (q, e) ∈ Tiling.place RteDemo.Elem.size p (allocElems n front 64) := by
    intro e he
    obtain ⟨A, B, hAB⟩ := List.append_of_mem he
    exact ⟨_, (Tiling.mem_place RteDemo.Elem.size).mpr ⟨A, B, hAB, rfl⟩⟩
  by_cases hfront : 2 ^ 28 ≤ front
  · obtain ⟨q, hq⟩ := @hplace ⟨front, .free⟩ (by
      rw [allocElems, if_neg (by omega)]
      exact List.mem_append_left _ List.mem_cons_self)
    exact ⟨q, front, hq, by omega⟩
  · obtain ⟨q, hq⟩ := @hplace ⟨trailer n front 64, .free⟩ (by
      rw [allocElems, backElems, if_pos (show 128 < trailer n front 64 by rw [trailer]; omega)]
      exact List.mem_append_right _ List.mem_cons_self)
    exact ⟨q, _, hq, by rw [trailer]; omega⟩

theorem entry_exact {r : RunState} {ars : List Arena} (h : RteDemo.Inv oneSeg r ars) :
    MallocExact zoneEnv.toEalEnv r.heap sizeofTailqEntry 0 socketIdAny := by
  have hround : rteCacheLineRoundup 64 sizeofTailqEntry = 64 := by decide
  have halign : effAlign 0 = 2 ^ 6 := by decide
  refine ⟨by decide, fun _ heap _ => ?_⟩
  rw [hround, halign]
  exact oneSeg_searchExact h (by decide) (by decide) (by decide)

/-- The entry gets its block, and a free element is left. -/
theorem entry_served {r : RunState} {ars : List Arena} (h : RteDemo.Inv oneSeg r ars) {p n : Nat}
    (hm : (p, ⟨n, .free⟩) ∈ placed ars) (hlong : ∀ q m, (q, ⟨m, .free⟩) ∈ placed ars → 2 ^ 29 ≤ m)
    {a : HeapState × Nat} (ha : rteZmalloc zoneEnv.toEalEnv r.heap sizeofTailqEntry 0 = a) :
    a.2 ≠ 0 ∧ ∃ live ars' q m, RteDemo.Inv oneSeg ⟨a.1, live⟩ ars' ∧ (q, ⟨m, .free⟩) ∈ placed ars' ∧ 2 ^ 20 ≤ m := by
  have hround : rteCacheLineRoundup 64 sizeofTailqEntry = 64 := by decide
  have halign : effAlign 0 = 2 ^ 6 := by decide
  have hexact := (entry_exact h).2 (.inl rfl)
  have hserved : Served r.heap ars (rteCacheLineRoundup 64 sizeofTailqEntry) (effAlign 0)
      (mallocOrder zoneEnv.toEalEnv socketIdAny) a := by
    rw [← ha, rteZmalloc, rteZmallocSocket]
    have hpos : 0 < sizeofTailqEntry := by decide
    have hroom : sizeofTailqEntry + 63 < 2 ^ 64 := by decide
    refine h.rep.mallocSocket_served (.inl rfl) hpos hroom rfl (fun heap hheap => ?_) hexact
    rw [← Option.some.inj hheap]
    decide
  rw [hround, halign] at hserved
  have hn := hlong p n hm
  have hne := hserved.ne_zero (show 0 ∈ _ by decide) (canServe_of_free h hm (by omega))
  obtain ⟨heap, c, n, front, -, hars, halloc⟩ := hserved.first hne
  subst hars
  have hlong' := hlong c.pos n (c.mem_placed_plug.mpr (.inl (by simp [Tiling.place])))
  have hinv := h.allocated halloc (Nat.le_refl _) (@Fits.placed _ _ _ _ 6 _ _ halloc.fits (Nat.le_refl _))
  obtain ⟨q, m, hq, hm⟩ := exists_free_allocElems halloc.le hlong' c.pos
  exact ⟨hne, _, _, q, m, hinv, c.mem_placed_plug.mpr (.inl hq), hm⟩

/-- The zone of a ring of four slots is found. -/
theorem ringZone_served {heap : HeapState} {live : List Block} {ars : List Arena}
    (h : RteDemo.Inv oneSeg ⟨heap, live⟩ ars) {q m : Nat} (hm : (q, ⟨m, .free⟩) ∈ placed ars) (hle : 2 ^ 20 ≤ m) :
    (mallocHeapAlloc heap 0 448 0 128 0).2 ≠ 0 := by
  have halign : effAlign 128 = 2 ^ 7 := by decide
  have hserved := @HeapRep.heap_served _ _ _ _ 128 h.rep (.inr ⟨7, by decide, rfl⟩) (show 0 < 448 by decide) (by decide)
    (show rteCacheLineRoundup 64 448 = 448 by decide) 0 fun i _ => by
      rw [halign]
      exact oneSeg_searchExact h (by decide) (by decide) (by decide)
  rw [halign, if_neg (by decide)] at hserved
  exact hserved.ne_zero List.mem_cons_self (canServe_of_free h hm (by omega))

/-- A ring of four slots. -/
theorem create_noWrap {s : RingState} (h : RingInv oneSeg s) :
    (RingCall.create zoneEnv zoneA 4 0 0).NoWrap s := by
  have hexact : MallocExact zoneEnv.toEalEnv s.zone.cfg.heap sizeofTailqEntry 0 socketIdAny := by
    obtain ⟨ars, hinv⟩ := h.zones.heap
    exact entry_exact hinv
  have hinv : ∃ live ars, RteDemo.Inv oneSeg
      ⟨(rteZmalloc zoneEnv.toEalEnv s.zone.cfg.heap sizeofTailqEntry 0).1, live⟩ ars := by
    obtain ⟨a, ha⟩ : ∃ a, rteZmalloc zoneEnv.toEalEnv s.zone.cfg.heap sizeofTailqEntry 0 = a := ⟨_, rfl⟩
    rw [ha]
    rcases zmalloc_entry h.zones hexact ha with rfl | ⟨-, -, hinv⟩
    · exact ⟨_, h.zones.heap⟩
    · exact ⟨_, hinv⟩
  refine ⟨hexact, ?_⟩
  obtain ⟨live, ars, hinv⟩ := hinv
  generalize (rteZmalloc zoneEnv.toEalEnv s.zone.cfg.heap sizeofTailqEntry 0).1 = heap at hinv
  have hlen : (Ring.rteRingGetMemsize (Ring.rounded 4 0)).toNat = 448 := by decide
  have hreq : zoneRequest zoneEnv heap 448 0 alignofRteRing 0 = (448, 0) := by
    have hround : rteAlignFloor (Word.add 64 448 (rteCacheLineSize - 1)) (rteCacheLineSize - 1) = 448 := by decide
    rw [zoneRequest, hround, memzoneRequest, if_neg (by decide)]
    exact Prod.ext (by decide) rfl
  rw [hlen, ZoneExact, hreq, show zoneAlign alignofRteRing = 2 ^ 7 by decide]
  refine ⟨by decide, fun i _ => ?_⟩
  rw [show rteCacheLineRoundup 64 448 = 448 by decide, show rteCacheLineRoundup 64 (2 ^ 7) = 2 ^ 7 by decide]
  exact oneSeg_searchExact hinv (by decide) (by decide) (by decide)

/-- With an empty table and a long free element a ring of four slots is created. -/
theorem exists_ring {s : RingState} (h : RingInv oneSeg s) {ars : List Arena}
    (hheap : RteDemo.Inv oneSeg s.zone.runState ars) {p n : Nat} (hm : (p, ⟨n, .free⟩) ∈ placed ars)
    (hlong : ∀ q m, (q, ⟨m, .free⟩) ∈ placed ars → 2 ^ 29 ≤ m)
    (htable : s.zone.cfg.memzone = fun _ => RteMemzone.zero) (hcnt : s.zone.cfg.memzoneCnt = 0) :
    ∃ s' r, rteRingCreate zoneEnv s zoneA 4 0 0 = some (s', some r) := by
  obtain ⟨a, ha⟩ : ∃ a, rteZmalloc zoneEnv.toEalEnv s.zone.cfg.heap sizeofTailqEntry 0 = a := ⟨_, rfl⟩
  obtain ⟨hne, live, ars', q, m, hinv, hq, hle⟩ := entry_served hheap hm hlong ha
  have hzone := ringZone_served hinv hq hle
  have hname : NameFree s.zone.cfg.memzone (append rteRingMzPrefix zoneA) := by
    refine nameFree_of_ne h.zones.table (by decide) fun i hi => ?_
    rw [htable] at hi
    exact absurd rfl hi.2
  have hnext : getNextFreeMemzone s.zone.cfg.memzone = some 0 := by
    rw [htable]
    exact getNextFreeMemzone_eq (by decide) rfl fun i hi => absurd hi (Nat.not_lt_zero i)
  have hmemsize : Ring.rteRingGetMemsize (Ring.rounded 4 0) = 448 := by decide
  have hentry : withEntry s.zone a =
      ⟨s.zone.cfg.setHeap a.1, ⟨a.2, sizeofTailqEntry, 1, 0, false⟩ :: s.zone.live⟩ := by
    rw [withEntry, if_neg hne]
  rw [rteRingCreate, hmemsize]
  dsimp only
  rw [if_neg (by decide), if_neg (by decide), ha, if_neg hne, hentry, rteMemzoneReserveAligned]
  obtain ⟨cfg, hcfg⟩ : ∃ cfg, s.zone.cfg.setHeap a.1 = cfg := ⟨_, rfl⟩
  have hheap' : cfg.heap = a.1 := by
    rw [← hcfg]
    exact Eq.refl _
  have htable' : cfg.memzone = s.zone.cfg.memzone := by
    rw [← hcfg]
    exact Eq.refl _
  have hcnt' : cfg.memzoneCnt = 0 := by
    rw [← hcfg]
    exact hcnt
  rw [← hheap'] at hzone
  rw [← htable'] at hname hnext
  obtain ⟨cfg', hcode⟩ : ∃ cfg', memzoneReserveAlignedThreadUnsafe zoneEnv cfg (append rteRingMzPrefix zoneA) 448
      ((0 : Nat) : Int) 0 128 0 = (cfg', .ok 0) :=
    ⟨_, memzoneReserve_ok (by rw [hcnt']; decide) hname hnext (by decide) (by decide) (by decide) (by decide)
      (by decide) (by decide) (by rw [zoneEnv]) (Eq.refl _) hzone⟩
  rw [hcfg, show (448 : Int).toNat = 448 by decide, show alignofRteRing = 128 by decide, ← Int.natCast_zero, hcode,
    insertRing]
  exact ⟨_, _, Eq.refl _⟩

def ringStart : RingState := ⟨zoneStart, 0, [], fun _ => none⟩

/-- A ring is created and freed. -/
theorem rings_atomic_oneSeg : ∃ s r, rteRingCreate zoneEnv ringStart zoneA 4 0 0 = some (s, some r) ∧
    RingsOK oneSeg s ∧ (RingCall.create zoneEnv zoneA 4 0 0).Atomic s ∧ (RingCall.free r).Atomic s := by
  have hinit : RingInit oneSeg (fun _ => 0) (fun _ => 0) ringStart :=
    ⟨zoneStart_init, by decide, rfl⟩
  have hinv := RingInv.init oneSeg_ok hinit
  have hrun : RteDemo.Inv oneSeg ringStart.zone.runState (oneArena [⟨2 ^ 30 - 64, .free⟩]) := by
    have hstart : ringStart.zone.runState = oneSegStart := by
      rw [ringStart, ZoneState.runState, zoneStart_heap, oneSegStart, zoneStart]
    rw [hstart]
    exact oneSegStart_inv
  have hplaced : ∀ p e, (p, e) ∈ placed (oneArena [⟨2 ^ 30 - 64, .free⟩]) ↔
      (p, e) = (2 ^ 30, ⟨2 ^ 30 - 64, .free⟩) := by
    intro p e
    simp [placed, oneArena, Tiling.place]
  have htable : ringStart.zone.cfg.memzone = fun _ => RteMemzone.zero := by
    rw [ringStart, zoneStart, rteEalMemzoneInit]
  have hcnt : ringStart.zone.cfg.memzoneCnt = 0 := by rw [ringStart, zoneStart, rteEalMemzoneInit]
  have hreach : Reach (RingInit oneSeg (fun _ => 0) fun _ => 0) RingStep ringStart := .start hinit
  generalize ringStart = s₀ at *
  obtain ⟨s, r, hcode⟩ := exists_ring hinv hrun ((hplaced _ _).mpr rfl) (fun q m hq => by
    obtain ⟨-, hm⟩ := Prod.mk.inj ((hplaced _ _).mp hq)
    rw [(Elem.mk.inj hm).1]
    decide) htable hcnt
  have hnoWrap := create_noWrap hinv
  obtain ⟨s', ret, hcode', hinv', -, hsome⟩ := hinv.create hnoWrap
  obtain ⟨rfl, rfl⟩ := Prod.mk.inj (Option.some.inj (hcode'.symm.trans hcode))
  obtain ⟨te, mz, zone, hcreated⟩ := hsome r rfl
  obtain ⟨hok, hcall⟩ := rings_atomic oneSeg_ok (hreach.next
    ⟨.create zoneEnv zoneA 4 0 0, trivial, hnoWrap, by rw [RingCall.run, hcode', Option.map_some]⟩)
  refine ⟨s', r, hcode', hok, (hcall (.create zoneEnv zoneA 4 0 0) trivial (create_noWrap hinv')).1,
    (hcall (.free r) ?_ trivial).1⟩
  rw [RingCall.Valid, hcreated.ringList, List.map_append]
  exact List.mem_append_right _ List.mem_cons_self

end RingLife
