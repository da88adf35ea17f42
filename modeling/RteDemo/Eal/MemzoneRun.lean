import RteDemo.Eal.MemzoneTake
import RteDemo.Malloc.Isolation
import RteDemo.Malloc.Realloc

/-!
# Zones over whole runs

Reservations and frees over the heaps: each descriptor in use holds a live block of its own
(`ZoneInv`). In every run in which nothing wraps the table counts its zones, their ranges are apart and
placed as requested, a refused reservation changes nothing, and a free changes nothing of the other
zones (`zones_ok`).
-/

namespace EalMemzone

open RteDemo EalTailqs

/-! ## Counting the descriptors in use -/

theorem countP_set {p q : Nat → Bool} {a : Nat} (hp : p a = false) (hq : q a = true)
    (hsame : ∀ i, i ≠ a → q i = p i) {l : List Nat} (hn : l.Nodup) (ha : a ∈ l) :
    l.countP q = l.countP p + 1 := by
  induction l with
  | nil => exact absurd ha List.not_mem_nil
  | cons x l ih =>
    obtain ⟨hx, hn⟩ := List.nodup_cons.mp hn
    rcases List.mem_cons.mp ha with rfl | ha
    · have hrest : l.countP q = l.countP p := List.countP_congr fun i hi => by
        rw [hsame i fun heq => hx (heq ▸ hi)]
      rw [List.countP_cons_of_pos hq, List.countP_cons_of_neg (by rw [hp]; decide), hrest]
    · have hxa : x ≠ a := fun heq => hx (heq ▸ ha)
      have ih := ih hn ha
      rw [List.countP_cons, List.countP_cons, hsame x hxa, ih]
      omega

/-- The number of descriptors in use. -/
def zonesUsed (memzone : MemzoneTable) : Nat :=
  (List.range rteMaxMemzone).countP fun i => (memzone i).addr != 0

section

variable {memzone : MemzoneTable} {mz : Nat} {zone : RteMemzone}

theorem zonesUsed_le (memzone : MemzoneTable) : zonesUsed memzone ≤ rteMaxMemzone :=
  List.countP_le_length.trans_eq List.length_range

theorem zonesUsed_fill (hlt : mz < rteMaxMemzone) (hfree : (memzone mz).addr = 0) (haddr : zone.addr ≠ 0) :
    zonesUsed (Function.update memzone mz zone) = zonesUsed memzone + 1 := by
  refine countP_set (a := mz) ?_ ?_ (fun i hi => ?_) List.nodup_range (List.mem_range.mpr hlt)
  · rw [hfree]
    decide
  · rw [Function.update_self]
    exact bne_iff_ne.mpr haddr
  · rw [Function.update_of_ne hi]

theorem zonesUsed_clear (hlt : mz < rteMaxMemzone) (hused : (memzone mz).addr ≠ 0) :
    zonesUsed (Function.update memzone mz RteMemzone.zero) + 1 = zonesUsed memzone := by
  refine (countP_set (a := mz) ?_ ?_ (fun i hi => ?_) List.nodup_range (List.mem_range.mpr hlt)).symm
  · rw [Function.update_self]
    decide
  · exact bne_iff_ne.mpr hused
  · rw [Function.update_of_ne hi]

/-- With fewer zones than descriptors there is a free one. -/
theorem getNextFree_of_used (h : zonesUsed memzone < rteMaxMemzone) : getNextFreeMemzone memzone ≠ none := by
  intro hnone
  have hall := List.find?_eq_none.mp hnone
  have hcount : zonesUsed memzone = (List.range rteMaxMemzone).length :=
    List.countP_eq_length.mpr fun i hi => by simpa using hall i hi
  rw [List.length_range] at hcount
  omega

end

/-! ## Runs -/

/-- The configuration and the blocks that the zones hold, each with the alignment and the bound that
were requested. -/
structure ZoneState where
  cfg : MemConfig
  live : List Block

/-- The heaps and their live blocks. -/
def ZoneState.runState (z : ZoneState) : RunState := ⟨z.cfg.heap, z.live⟩

/-- A call of `rte_memzone_reserve_bounded`, to which the other two come down, or of
`rte_memzone_free` for a descriptor of the table. -/
inductive ZoneOp
  | reserve (env : MemzoneEnv) (name : CString) (len : Nat) (socketId : Int) (flags align bound : Nat)
  | free (idx : Nat)

namespace ZoneOp

/-- Alignment and bound are `unsigned`, and the descriptor is one of the table. -/
def Valid : ZoneOp → Prop
  | reserve _ _ _ _ _ align bound => align < 2 ^ 32 ∧ bound < 2 ^ 32
  | free idx => idx < rteMaxMemzone

/-- Nothing wraps. -/
def NoWrap (z : ZoneState) : ZoneOp → Prop
  | reserve env _ len socketId flags align bound => ZoneExact env z.cfg.heap len socketId flags align bound
  | free _ => True

/-- The blocks after a reservation that answered `res`. -/
def held (live : List Block) (align bound : Nat) (res : MemConfig × Except MemzoneErrno Nat) : List Block :=
  match res.2 with
  | .ok mz => ⟨(res.1.memzone mz).addr, (res.1.memzone mz).len, zoneAlign align, bound, false⟩ :: live
  | .error _ => live

/-- The state after the call; `none` is a panic. -/
def run (z : ZoneState) : ZoneOp → Option ZoneState
  | reserve env name len socketId flags align bound =>
    let res := rteMemzoneReserveBounded env z.cfg name len socketId flags align bound
    some ⟨res.1, held z.live align bound res⟩
  | free idx =>
    (rteMemzoneFree z.cfg (some idx)).map fun res =>
      ⟨res.1, z.live.filter fun b => b.ptr != (z.cfg.memzone idx).addr⟩

end ZoneOp

def ZoneStep (z z' : ZoneState) : Prop := ∃ op : ZoneOp, op.Valid ∧ op.run z = some z'

/-- A call in which nothing wraps. -/
def ExactZoneStep (z z' : ZoneState) : Prop :=
  ∃ op : ZoneOp, op.Valid ∧ op.NoWrap z ∧ op.run z = some z'

/-- The state that `rte_eal_memzone_init` leaves. -/
def ZoneInit (segs : List RteMemseg) (m : Bytes.Mem) (memsegIova : Nat → Nat) (z : ZoneState) : Prop :=
  z = ⟨rteEalMemzoneInit memsegIova (HeapState.boot segs m), []⟩

/-! ## The invariant -/

/-- Each descriptor in use holds a live block of its own. -/
structure ZoneInv (segs : List RteMemseg) (z : ZoneState) : Prop where
  heap : ∃ ars, RteDemo.Inv segs z.runState ars
  table : TableOK z.cfg.memzone
  count : z.cfg.memzoneCnt = zonesUsed z.cfg.memzone
  block : ∀ i, Reserved z.cfg.memzone i →
    ∃ b ∈ z.live, b.ptr = (z.cfg.memzone i).addr ∧ b.size = (z.cfg.memzone i).len
  own : ∀ i j, Reserved z.cfg.memzone i → Reserved z.cfg.memzone j →
    (z.cfg.memzone i).addr = (z.cfg.memzone j).addr → i = j
  fixed : ∀ b ∈ z.live, b.grown = false

theorem ZoneInv.init {segs : List RteMemseg} (hok : MemsegsOK segs) {m : Bytes.Mem} {memsegIova : Nat → Nat}
    {z : ZoneState} (h : ZoneInit segs m memsegIova z) : ZoneInv segs z := by
  subst h
  have hnone : ∀ i, ¬Reserved (fun _ => RteMemzone.zero) i := fun i hi => hi.2 (Eq.refl 0)
  have hcount : zonesUsed (fun _ => RteMemzone.zero) = 0 := by
    refine List.countP_eq_zero.mpr fun i _ hused => ?_
    exact bne_iff_ne.mp hused (Eq.refl 0)
  exact {
    heap := ⟨_, RteDemo.Inv.init hok (Eq.refl _)⟩
    table := tableOK_zero
    count := hcount.symm
    block := fun i hi => absurd hi (hnone i)
    own := fun i _ hi => absurd hi (hnone i)
    fixed := fun b hb => absurd hb List.not_mem_nil }

/-! ## A reservation -/

section

variable {segs : List RteMemseg} {z : ZoneState} {align bound req : Nat}

/-- A descriptor is filled for the block that the heaps gave. -/
theorem ZoneInv.fill (h : ZoneInv segs z) (hcnt : z.cfg.memzoneCnt < rteMaxMemzone) {mz : Nat}
    (hfree : getNextFreeMemzone z.cfg.memzone = some mz) {zone : RteMemzone}
    (hname : NameFree z.cfg.memzone zone.name) (haddr : zone.addr ≠ 0) {heap : HeapState}
    (hinv : ∃ ars, RteDemo.Inv segs
      ⟨heap, ⟨zone.addr, zone.len, zoneAlign align, bound, false⟩ :: z.live⟩ ars) :
    ZoneInv segs ⟨{ z.cfg.setHeap heap with
        memzone := Function.update z.cfg.memzone mz zone
        memzoneCnt := Word.add 32 z.cfg.memzoneCnt 1 },
      ⟨zone.addr, zone.len, zoneAlign align, bound, false⟩ :: z.live⟩ := by
  obtain ⟨hlt, hzero⟩ := getNextFreeMemzone_some hfree
  have hfresh : ∀ b ∈ z.live, zone.addr ≠ b.ptr := by
    obtain ⟨ars, hinv⟩ := hinv
    exact (List.pairwise_cons.mp hinv.distinct).1
  have hold : ∀ i, i ≠ mz → Reserved (Function.update z.cfg.memzone mz zone) i →
      Reserved z.cfg.memzone i ∧ zone.addr ≠ (z.cfg.memzone i).addr := by
    intro i hi hres
    have hres' := (Reserved.update hi).mp hres
    obtain ⟨b, hb, hptr, -⟩ := h.block i hres'
    exact ⟨hres', hptr ▸ hfresh b hb⟩
  refine ⟨hinv, h.table.fill hname, ?_, fun i hi => ?_, fun i j hi hj heq => ?_, fun b hb => ?_⟩
  · have hmax : rteMaxMemzone < 2 ^ 32 := by decide
    have hfill := zonesUsed_fill hlt hzero haddr
    dsimp only
    rw [hfill, Word.add_eq (Nat.lt_of_le_of_lt hcnt hmax), h.count]
  · dsimp only at hi ⊢
    by_cases him : i = mz
    · subst him
      rw [Function.update_self]
      exact ⟨_, List.mem_cons_self, Eq.refl _, Eq.refl _⟩
    · rw [Function.update_of_ne him]
      obtain ⟨b, hb, hblock⟩ := h.block i (hold i him hi).1
      exact ⟨b, List.mem_cons_of_mem _ hb, hblock⟩
  · dsimp only at hi hj heq
    by_cases him : i = mz <;> by_cases hjm : j = mz
    · exact him.trans hjm.symm
    · rw [him, Function.update_self, Function.update_of_ne hjm] at heq
      exact absurd heq (hold j hjm hj).2
    · rw [hjm, Function.update_self, Function.update_of_ne him] at heq
      exact absurd heq.symm (hold i him hi).2
    · rw [Function.update_of_ne him, Function.update_of_ne hjm] at heq
      exact h.own i j (hold i him hi).1 (hold j hjm hj).1 heq
  · rcases List.mem_cons.mp hb with rfl | hb
    · exact Eq.refl _
    · exact h.fixed b hb

theorem ZoneInv.take (h : ZoneInv segs z) (env : MemzoneEnv) {name : CString}
    (hcnt : z.cfg.memzoneCnt < rteMaxMemzone) (hname : NameFree z.cfg.memzone name) (hpos : 0 < req)
    {a : HeapState × Nat} (ha : a = (z.cfg.heap, 0) ∨ a.2 ≠ 0 ∧
      ∃ ars, RteDemo.Inv segs ⟨a.1, ⟨a.2, req, zoneAlign align, bound, false⟩ :: z.live⟩ ars)
    {res : MemConfig × Except MemzoneErrno Nat} (hres : memzoneTake env z.cfg name req a = res) :
    (∀ e, res.2 = .error e → res.1 = z.cfg) ∧
      ZoneInv segs ⟨res.1, ZoneOp.held z.live align bound res⟩ := by
  subst hres
  rcases ha with rfl | ⟨hne, hinv⟩
  · have hnone : memzoneTake env z.cfg name req (z.cfg.heap, 0) = (z.cfg, .error .enomem) :=
      if_pos (Eq.refl 0)
    rw [hnone]
    exact ⟨fun _ _ => Eq.refl _, h⟩
  · obtain ⟨mz, hfree⟩ := Option.ne_none_iff_exists'.mp (getNextFree_of_used (h.count ▸ hcnt))
    have hfill := @memzoneFill_ok env (z.cfg.setHeap a.1) name req mz a.2 hfree
    rw [memzoneTake, if_neg hne, hfill]
    have hzname : (memzoneOf env (z.cfg.setHeap a.1) name a.2 req).name = name :=
      memzoneOf_name _ _ _ _ hname.1
    have hzlen : (memzoneOf env (z.cfg.setHeap a.1) name a.2 req).len = req := if_neg hpos.ne'
    have hzaddr : (memzoneOf env (z.cfg.setHeap a.1) name a.2 req).addr = a.2 := Eq.refl _
    generalize memzoneOf env (z.cfg.setHeap a.1) name a.2 req = zone at hzname hzlen hzaddr
    refine ⟨fun e he => ?_, ?_⟩
    · cases he
    have hheld : ZoneOp.held z.live align bound ({ z.cfg.setHeap a.1 with
        memzone := Function.update z.cfg.memzone mz zone
        memzoneCnt := Word.add 32 z.cfg.memzoneCnt 1 }, .ok mz) =
          ⟨zone.addr, zone.len, zoneAlign align, bound, false⟩ :: z.live := by
      rw [ZoneOp.held]
      dsimp only
      rw [Function.update_self]
    rw [← hzaddr, ← hzlen] at hinv
    have hdone := h.fill hcnt hfree (hzname.symm ▸ hname) (hzaddr ▸ hne) hinv
    rw [← hheld] at hdone
    exact hdone

/-- A power of two that an `unsigned` holds. -/
theorem exists_pow_of_unsigned {n : Nat} (hlt : n < 2 ^ 32) (h : rteIsPowerOf2 n = true) :
    ∃ k < 32, n = 2 ^ k := by
  obtain ⟨k, rfl⟩ := rteIsPowerOf2_iff.mp h
  exact ⟨k, (Nat.pow_lt_pow_iff_right (by decide)).mp hlt, Eq.refl _⟩

/-- **A reservation** in which nothing wraps. -/
theorem ZoneInv.reserve (h : ZoneInv segs z) {env : MemzoneEnv} {name : CString} {len flags : Nat}
    {socketId : Int} (halign : align < 2 ^ 32) (hbound : bound < 2 ^ 32)
    (hx : ZoneExact env z.cfg.heap len socketId flags align bound)
    {res : MemConfig × Except MemzoneErrno Nat}
    (hres : rteMemzoneReserveBounded env z.cfg name len socketId flags align bound = res) :
    (∀ e, res.2 = .error e → res.1 = z.cfg) ∧
      ZoneInv segs ⟨res.1, ZoneOp.held z.live align bound res⟩ := by
  rcases memzoneReserve_take hres with ⟨e, rfl⟩ | ⟨hcnt, hname, hpow, hpowb, hpos, htake⟩
  · exact ⟨fun _ _ => Eq.refl _, h⟩
  · obtain ⟨ars, hinv⟩ := h.heap
    obtain ⟨k, -, hk, hzone⟩ := zoneAlign_pow (hpow.imp_right (exists_pow_of_unsigned halign))
    have hb : BoundOK bound := by
      refine hpowb.imp_right fun hp => ?_
      obtain ⟨j, hj, hpow⟩ := exists_pow_of_unsigned hbound hp
      exact ⟨j, Nat.lt_of_lt_of_le hj (by decide), hpow⟩
    obtain ⟨hround, hsearch⟩ := hx
    rw [hzone] at hsearch htake
    have htry := @tryHeaps_inv segs z.runState ars hinv _ flags k bound hk hb hround _ hsearch
    rw [← hzone] at htry htake
    refine h.take env hcnt hname hpos ?_ htake.symm
    exact htry

/-! ## A free -/

/-- What a free of a descriptor leaves. -/
structure FreedZone (z : ZoneState) (idx : Nat) (cfg' : MemConfig) : Prop where
  others : ∀ i, i ≠ idx → cfg'.memzone i = z.cfg.memzone i
  content : ∀ i, i ≠ idx → Reserved z.cfg.memzone i → ∀ x, (z.cfg.memzone i).addr ≤ x →
    x < (z.cfg.memzone i).addr + (z.cfg.memzone i).len → cfg'.heap.mem x = z.cfg.heap.mem x
  lookup : ∀ name i, i ≠ idx →
    (rteMemzoneLookup cfg'.memzone name = some i ↔ rteMemzoneLookup z.cfg.memzone name = some i)

theorem rteMemzoneFree_unused {cfg : MemConfig} {idx : Nat} (h0 : (cfg.memzone idx).addr = 0) :
    rteMemzoneFree cfg (some idx) = some (cfg, -22) := by
  unfold rteMemzoneFree
  dsimp only
  rw [if_pos h0, rteFree, if_pos h0]
  exact Eq.refl _

theorem rteMemzoneFree_used {cfg : MemConfig} {idx : Nat} {heap : HeapState}
    (hne : (cfg.memzone idx).addr ≠ 0) (hcnt : cfg.memzoneCnt ≠ 0)
    (hfree : rteFree cfg.heap (cfg.memzone idx).addr = some heap) :
    rteMemzoneFree cfg (some idx) = some ({ cfg with
      heap := heap
      memzone := Function.update cfg.memzone idx RteMemzone.zero
      memzoneCnt := Word.sub 32 cfg.memzoneCnt 1 }, 0) := by
  unfold rteMemzoneFree
  dsimp only
  rw [if_neg hne, if_neg hcnt, hfree]
  exact Eq.refl _

/-- The live block of a zone, freed. -/
theorem ZoneInv.free_block (h : ZoneInv segs z) {idx : Nat} (hidx : Reserved z.cfg.memzone idx) :
    ∃ heap, rteFree z.cfg.heap (z.cfg.memzone idx).addr = some heap ∧
      (∃ ars, RteDemo.Inv segs
        ⟨heap, z.live.filter fun b => b.ptr != (z.cfg.memzone idx).addr⟩ ars) ∧
      ∀ b ∈ z.live, b.ptr ≠ (z.cfg.memzone idx).addr → ∀ x, b.ptr ≤ x → x < b.ptr + b.size →
        heap.mem x = z.cfg.heap.mem x := by
  obtain ⟨ars, hinv⟩ := h.heap
  obtain ⟨b, hb, hptr, -⟩ := h.block idx hidx
  have hv : (MallocOp.free b).Valid z.runState := hb
  have hn : (MallocOp.free b).NoWrap z.runState := trivial
  obtain ⟨ars', -, hinv'⟩ := hinv.step hv hn
  have hquiet := hinv.undisturbed hv hn
  have hfree := hinv.rteFree_live hb
  have herase : z.live.erase b = z.live.filter fun b => b.ptr != (z.cfg.memzone idx).addr := by
    have hnodup : z.live.Nodup := hinv.nodup
    rw [hnodup.erase_eq_filter b]
    refine List.filter_congr fun b' hb' => ?_
    rw [Bool.eq_iff_iff, bne_iff_ne, bne_iff_ne, ← hptr]
    constructor
    · intro hne
      exact hinv.ptr_ne hb hb' hne
    · intro hne heq
      exact hne (congrArg Block.ptr heq)
  refine ⟨((MallocOp.free b).run z.runState).heap, hptr ▸ hfree, ⟨ars', ?_⟩, fun b' hb' hne x hx hx' => ?_⟩
  · rw [← herase]
    exact hinv'
  · have htouch : ¬(MallocOp.free b).Touches b' := by
      intro heq
      exact hne (heq ▸ hptr)
    obtain ⟨-, a, n, pad, hold⟩ := hinv.live b' hb'
    have husable := hinv.rep.usable hold
    have hsize := hold.size
    refine hquiet b' hb' htouch x hx ?_
    rw [husable]
    omega

/-- **A free** of a descriptor of the table. -/
theorem ZoneInv.free (h : ZoneInv segs z) {idx : Nat} (hlt : idx < rteMaxMemzone) :
    ∃ cfg' ret, rteMemzoneFree z.cfg (some idx) = some (cfg', ret) ∧ FreedZone z idx cfg' ∧
      ZoneInv segs ⟨cfg', z.live.filter fun b => b.ptr != (z.cfg.memzone idx).addr⟩ := by
  by_cases h0 : (z.cfg.memzone idx).addr = 0
  · refine ⟨z.cfg, -22, rteMemzoneFree_unused h0, ⟨fun _ _ => Eq.refl _, fun _ _ _ _ _ _ => Eq.refl _,
      fun _ _ _ => Iff.rfl⟩, ?_⟩
    have hall : (z.live.filter fun b => b.ptr != (z.cfg.memzone idx).addr) = z.live := by
      refine List.filter_eq_self.mpr fun b hb => ?_
      obtain ⟨ars, hinv⟩ := h.heap
      obtain ⟨-, a, n, pad, hold⟩ := hinv.live b hb
      rw [h0, bne_iff_ne, hold.ptr]
      exact Nat.succ_ne_zero _
    rw [hall]
    exact h
  · have hidx : Reserved z.cfg.memzone idx := ⟨hlt, h0⟩
    obtain ⟨heap, hfree, hinv, hkeep⟩ := h.free_block hidx
    have hclear := zonesUsed_clear hlt h0
    have hused := zonesUsed_le z.cfg.memzone
    have hmax : rteMaxMemzone < 2 ^ 32 := by decide
    have hcount := h.count
    have hother : ∀ {i}, i ≠ idx → Reserved z.cfg.memzone i →
        (z.cfg.memzone i).addr ≠ (z.cfg.memzone idx).addr := fun hi hres heq => hi (h.own _ _ hres hidx heq)
    refine ⟨_, 0, rteMemzoneFree_used h0 (by omega) hfree, ⟨fun i hi => ?_, fun i hi hres => ?_,
      fun name i hi => ?_⟩, hinv, h.table.clear idx, ?_, fun i hi => ?_, fun i j hi hj heq => ?_,
      fun b hb => h.fixed b (List.mem_filter.mp hb).1⟩
    · exact Function.update_of_ne hi _ _
    · obtain ⟨b, hb, hptr, hsize⟩ := h.block i hres
      rw [← hptr, ← hsize]
      exact hkeep b hb (hptr ▸ hother hi hres)
    · unfold rteMemzoneLookup
      rw [memzoneLookup_eq_some (h.table.clear idx), memzoneLookup_eq_some h.table, Reserved.update hi,
        Function.update_of_ne hi]
    · dsimp only
      rw [Word.sub_eq (by omega) (by omega)]
      omega
    · obtain ⟨hne, hres⟩ := Reserved.update_zero hi
      dsimp only
      rw [Function.update_of_ne hne]
      obtain ⟨b, hb, hptr, hsize⟩ := h.block i hres
      refine ⟨b, List.mem_filter.mpr ⟨hb, ?_⟩, hptr, hsize⟩
      rw [bne_iff_ne, hptr]
      exact hother hne hres
    · obtain ⟨hni, hresi⟩ := Reserved.update_zero hi
      obtain ⟨hnj, hresj⟩ := Reserved.update_zero hj
      dsimp only at heq
      rw [Function.update_of_ne hni, Function.update_of_ne hnj] at heq
      exact h.own i j hresi hresj heq

end

/-! ## Every run -/

/-- What holds of the table and the heaps between calls. -/
structure ZonesOK (segs : List RteMemseg) (z : ZoneState) : Prop where
  count : z.cfg.memzoneCnt = zonesUsed z.cfg.memzone
  /-- A free descriptor is found as long as the count says that there is one. -/
  room : z.cfg.memzoneCnt ≤ rteMaxMemzone ∧
    (z.cfg.memzoneCnt < rteMaxMemzone → getNextFreeMemzone z.cfg.memzone ≠ none)
  names : TableOK z.cfg.memzone
  block : ∀ i, Reserved z.cfg.memzone i → ∃ b ∈ z.live, BlockIsolated segs z.runState b ∧
    b.ptr = (z.cfg.memzone i).addr ∧ b.size = (z.cfg.memzone i).len
  apart : ∀ i j, Reserved z.cfg.memzone i → Reserved z.cfg.memzone j → i ≠ j →
    (z.cfg.memzone i).addr + (z.cfg.memzone i).len ≤ (z.cfg.memzone j).addr ∨
      (z.cfg.memzone j).addr + (z.cfg.memzone j).len ≤ (z.cfg.memzone i).addr

/-- A reservation that fails changes nothing, one that succeeds fills one descriptor under its whole
name, and a free does not panic and leaves the other zones as they are. -/
def ZoneOp.Atomic (z : ZoneState) : ZoneOp → Prop
  | reserve env name len socketId flags align bound =>
    let res := rteMemzoneReserveBounded env z.cfg name len socketId flags align bound
    (∀ e, res.2 = .error e → res.1 = z.cfg) ∧
      ∀ mz, res.2 = .ok mz → (res.1.memzone mz).name = name ∧ (z.cfg.memzone mz).addr = 0 ∧
        ∀ i, i ≠ mz → res.1.memzone i = z.cfg.memzone i
  | free idx => ∃ cfg' ret, rteMemzoneFree z.cfg (some idx) = some (cfg', ret) ∧ FreedZone z idx cfg'

section

variable {segs : List RteMemseg} {z z' : ZoneState}

theorem ZoneInv.zonesOK (h : ZoneInv segs z) : ZonesOK segs z := by
  obtain ⟨ars, hinv⟩ := h.heap
  have hblock : ∀ i, Reserved z.cfg.memzone i → ∃ b ∈ z.live, BlockIsolated segs z.runState b ∧
      b.ptr = (z.cfg.memzone i).addr ∧ b.size = (z.cfg.memzone i).len := by
    intro i hi
    obtain ⟨b, hb, hptr, hsize⟩ := h.block i hi
    refine ⟨b, hb, hinv.blockIsolated hb fun hg => ?_, hptr, hsize⟩
    rw [h.fixed b hb] at hg
    exact absurd hg Bool.false_ne_true
  have hused := zonesUsed_le z.cfg.memzone
  refine ⟨h.count, ⟨h.count ▸ hused, fun hlt => getNextFree_of_used (h.count ▸ hlt)⟩, h.table, hblock,
    fun i j hi hj hij => ?_⟩
  obtain ⟨b, hb, hiso, hptr, hsize⟩ := hblock i hi
  obtain ⟨b', hb', -, hptr', hsize'⟩ := hblock j hj
  have hne : b' ≠ b := by
    rintro rfl
    exact hij (h.own i j hi hj (hptr.symm.trans hptr'))
  rw [← hptr, ← hptr', ← hsize, ← hsize']
  exact hiso.others b' hb' hne

theorem ZoneInv.atomic (h : ZoneInv segs z) {op : ZoneOp} (hv : op.Valid) (hn : op.NoWrap z) :
    op.Atomic z := by
  cases op with
  | reserve env name len socketId flags align bound =>
    refine ⟨(h.reserve hv.1 hv.2 hn (Eq.refl _)).1, fun mz hmz => ?_⟩
    rcases memzoneReserve_cases (Eq.refl (memzoneReserveAlignedThreadUnsafe env z.cfg name len socketId flags
      align bound)) with ⟨e, he, -⟩ | ⟨-, mz', zone, hok, hfilled⟩
    · have hcontra := hmz.symm.trans he
      cases hcontra
    · have hsame := hmz.symm.trans hok
      cases hsame
      have htable := hfilled.table
      refine ⟨?_, (getNextFreeMemzone_some hfilled.free).2, fun i hi => ?_⟩
      · refine Eq.trans ?_ hfilled.named
        exact congrArg RteMemzone.name ((congrFun htable mz).trans (Function.update_self ..))
      · exact (congrFun htable i).trans (Function.update_of_ne hi ..)
  | free idx =>
    obtain ⟨cfg', ret, hcode, hfreed, -⟩ := h.free hv
    exact ⟨cfg', ret, hcode, hfreed⟩

theorem ZoneInv.step (h : ZoneInv segs z) (hstep : ExactZoneStep z z') : ZoneInv segs z' := by
  obtain ⟨op, hv, hn, hrun⟩ := hstep
  cases op with
  | reserve env name len socketId flags align bound =>
    have hdone := (h.reserve hv.1 hv.2 hn
      (Eq.refl (rteMemzoneReserveBounded env z.cfg name len socketId flags align bound))).2
    exact Option.some.inj hrun ▸ hdone
  | free idx =>
    obtain ⟨cfg', ret, hcode, -, hinv⟩ := h.free hv
    rw [ZoneOp.run, hcode, Option.map_some] at hrun
    exact Option.some.inj hrun ▸ hinv

end

/-- **The zones in every run** in which nothing wraps. -/
theorem zones_ok {segs : List RteMemseg} (hok : MemsegsOK segs) {m : Bytes.Mem} {memsegIova : Nat → Nat}
    {z : ZoneState} (h : Reach (ZoneInit segs m memsegIova) ExactZoneStep z) :
    ZonesOK segs z ∧ ∀ op : ZoneOp, op.Valid → op.NoWrap z → op.Atomic z := by
  have hinv : ZoneInv segs z :=
    h.invariant (fun _ hinit => ZoneInv.init hok hinit) fun _ _ hinv hstep => hinv.step hstep
  exact ⟨hinv.zonesOK, fun op hv hn => hinv.atomic hv hn⟩

/-- One memseg and no zones. -/
def zoneStart : ZoneState := ⟨rteEalMemzoneInit (fun _ => 0) (HeapState.boot oneSeg fun _ => 0), []⟩

theorem zoneStart_init : ZoneInit oneSeg (fun _ => 0) (fun _ => 0) zoneStart := by
  rw [ZoneInit, zoneStart]

theorem zoneStart_heap : zoneStart.cfg.heap = oneSegStart.heap := by
  rw [zoneStart, rteEalMemzoneInit_heap, oneSegStart]

theorem zoneRequest_oneSeg (heap : HeapState) : zoneRequest zoneEnv heap 64 0 64 0 = (64, 0) := by
  have hlen : rteAlignFloor (Word.add 64 64 (rteCacheLineSize - 1)) (rteCacheLineSize - 1) = 64 := by decide
  rw [zoneRequest, hlen, memzoneRequest, if_neg (by decide)]
  exact Prod.ext (by decide) (Eq.refl _)

/-- In a gigabyte at `2 ^ 30` no search for a small request wraps. -/
theorem oneSeg_searchExact {r : RunState} {ars : List Arena} (h : RteDemo.Inv oneSeg r ars)
    {size flags k heap : Nat} (hk6 : 6 ≤ k) (hk : k < 32) (hle : 2 ^ k + size ≤ 2 ^ 30) :
    SearchExact r.heap size flags (2 ^ k) 0 ((r.heap.mallocHeaps heap).candidates size) := by
  refine SearchExact.of_all fun e he => ?_
  obtain ⟨ar, har, -, n, hn, -⟩ := h.rep.mem_candidates.mp he
  have hsize : r.heap.elem .size e = n := h.rep.elem_size (mem_placed.mpr ⟨ar, har, hn⟩)
  have hbase : ar.base = 2 ^ 30 := by
    have hframe : ar.frame ∈ (segArenas oneSeg).map Arena.frame := h.frames ▸ List.mem_map_of_mem har
    obtain ⟨ar', har', heq⟩ := List.mem_map.mp hframe
    obtain rfl : ar' = segArena 0 ⟨2 ^ 30, 2 ^ 30, 2 ^ 21, 0⟩ := List.mem_singleton.mp har'
    exact (congrArg Frame.base heq).symm
  have hbounds := Tiling.place_bounds Elem.size hn
  have htop : ar.stop + 64 ≤ 2 ^ 64 := (h.rep.wf ar har).top
  have hend : e + n < 2 ^ 64 := by
    have hstop : ar.base + Tiling.total Elem.size ar.elems = ar.stop := rfl
    dsimp only at hbounds
    omega
  rw [hsize]
  have h64 : 64 ≤ 2 ^ k := Nat.pow_le_pow_right (show 0 < 2 by decide) hk6
  refine startExact_of_room hk (.inl rfl) (by omega) hend ?_
  rw [endTop, Nat.div_zero, Nat.div_zero, if_pos rfl, mallocElemHeaderLen, Nat.max_eq_left h64]
  dsimp only at hbounds
  omega

/-- No search for a zone of a cache line wraps. -/
theorem ZoneInv.noWrap_small {z : ZoneState} (h : ZoneInv oneSeg z) (name : CString) :
    (ZoneOp.reserve zoneEnv name 64 0 0 64 0).NoWrap z := by
  obtain ⟨ars, h⟩ := h.heap
  rw [ZoneOp.NoWrap, ZoneExact, zoneRequest_oneSeg, show zoneAlign 64 = 2 ^ 6 by decide]
  refine ⟨by decide, fun i _ => ?_⟩
  rw [show rteCacheLineRoundup 64 64 = 64 by decide, show rteCacheLineRoundup 64 (2 ^ 6) = 2 ^ 6 by decide]
  exact oneSeg_searchExact h (by decide) (by decide) (by decide)

/-- A zone of a cache line is reserved in descriptor `mz`. -/
theorem reserve_small {z : ZoneState} (h : ZoneInv oneSeg z) {p mz : Nat} {name : CString}
    (hlive : (smallAlloc.run z.runState).live = smallBlock p :: z.live)
    (hcnt : z.cfg.memzoneCnt < rteMaxMemzone) (hname : NameFree z.cfg.memzone name)
    (hnext : getNextFreeMemzone z.cfg.memzone = some mz) :
    ∃ z' zone, ExactZoneStep z z' ∧ z'.runState = smallAlloc.run z.runState ∧
      z'.cfg.memzoneCnt = Word.add 32 z.cfg.memzoneCnt 1 ∧
      z'.cfg.memzone = Function.update z.cfg.memzone mz zone ∧ zone.name = name ∧ zone.addr = p := by
  obtain ⟨a, ha⟩ : ∃ a, mallocHeapAlloc z.cfg.heap 0 64 0 64 0 = a := ⟨_, Eq.refl _⟩
  have ha' : mallocHeapAlloc z.cfg.heap 0 64 0 (2 ^ 6) 0 = a := by
    rw [show 2 ^ 6 = 64 by decide]
    exact ha
  have hrun : smallAlloc.run z.runState = MallocOp.allocated z.runState 64 (2 ^ 6) 0 a := by
    rw [smallAlloc, MallocOp.run_alloc, ZoneState.runState, ha']
  rw [hrun] at hlive ⊢
  have hne : a.2 ≠ 0 := by
    intro h0
    rw [MallocOp.allocated, if_pos h0] at hlive
    exact List.cons_ne_self _ _ hlive.symm
  rw [MallocOp.allocated, if_neg hne] at hlive ⊢
  obtain rfl : a.2 = p := congrArg Block.ptr (List.cons.inj hlive).1
  obtain ⟨zone, hzone⟩ : ∃ zone, zone = memzoneOf zoneEnv (z.cfg.setHeap a.1) name a.2 64 := ⟨_, Eq.refl _⟩
  have haddr : zone.addr = a.2 := by rw [hzone, memzoneOf]
  have hlen : zone.len = 64 := by
    rw [hzone, memzoneOf]
    dsimp only
    rw [if_neg (show ¬64 = 0 by decide)]
  obtain ⟨cfg', hcfg⟩ : ∃ cfg' : MemConfig, cfg' =
    { z.cfg.setHeap a.1 with
      memzone := Function.update z.cfg.memzone mz zone
      memzoneCnt := Word.add 32 z.cfg.memzoneCnt 1 } := ⟨_, Eq.refl _⟩
  have hcode : memzoneReserveAlignedThreadUnsafe zoneEnv z.cfg name 64 (0 : Nat) 0 64 0 = (cfg', .ok mz) := by
    rw [hcfg, hzone]
    exact memzoneReserve_ok hcnt hname hnext (by decide) (by decide) (by decide) (by decide) (by decide)
      (by decide) (by rw [zoneEnv]) ha hne
  have hres : rteMemzoneReserveBounded zoneEnv z.cfg name 64 0 0 64 0 = (cfg', .ok mz) := hcode
  have htable : cfg'.memzone = Function.update z.cfg.memzone mz zone := by rw [hcfg]
  have hheap : cfg'.heap = a.1 := by
    rw [hcfg]
    exact Eq.refl _
  have hvalid : (ZoneOp.reserve zoneEnv name 64 0 0 64 0).Valid := by
    rw [ZoneOp.Valid]
    decide
  have hrun' : (ZoneOp.reserve zoneEnv name 64 0 0 64 0).run z = some ⟨cfg', smallBlock a.2 :: z.live⟩ := by
    rw [ZoneOp.run, hres, ZoneOp.held]
    dsimp only
    rw [htable, Function.update_self, haddr, hlen, show zoneAlign 64 = 2 ^ 6 by decide, smallBlock]
  have hstate : ZoneState.runState ⟨cfg', smallBlock a.2 :: z.live⟩ =
      ⟨a.1, ⟨a.2, 64, 2 ^ 6, 0, false⟩ :: z.runState.live⟩ := by
    rw [ZoneState.runState, hheap, smallBlock, ZoneState.runState]
  have hcount : cfg'.memzoneCnt = Word.add 32 z.cfg.memzoneCnt 1 := by rw [hcfg]
  have hnamed : zone.name = name := by
    rw [hzone]
    exact memzoneOf_name _ _ _ _ hname.1
  exact ⟨⟨cfg', smallBlock a.2 :: z.live⟩, zone, ⟨_, hvalid, h.noWrap_small name, hrun'⟩, hstate, hcount, htable,
    hnamed, haddr⟩

/-- Two zones are reserved and the first is freed; then its name is reserved again. -/
theorem zones_ok_oneSeg : ∃ z, Reach (ZoneInit oneSeg (fun _ => 0) fun _ => 0) ExactZoneStep z ∧
    (∀ i, Reserved z.cfg.memzone i ↔ i = 1) ∧ ZonesOK oneSeg z ∧
    ZoneOp.Atomic z (.reserve zoneEnv zoneA 64 0 0 64 0) := by
  have hinv : ∀ {z}, Reach (ZoneInit oneSeg (fun _ => 0) fun _ => 0) ExactZoneStep z → ZoneInv oneSeg z := fun h =>
    h.invariant (fun _ hinit => ZoneInv.init oneSeg_ok hinit) fun _ _ hinv hstep => hinv.step hstep
  have h₀ : Reach (ZoneInit oneSeg (fun _ => 0) fun _ => 0) ExactZoneStep zoneStart := .start zoneStart_init
  have hheap : RteDemo.Inv oneSeg zoneStart.runState (oneArena [⟨2 ^ 30 - 64, .free⟩]) := by
    have hstart : zoneStart.runState = oneSegStart := by
      rw [ZoneState.runState, zoneStart_heap, oneSegStart, zoneStart]
    rw [hstart]
    exact oneSegStart_inv
  have hlive : zoneStart.live = [] := by rw [zoneStart]
  have htable : zoneStart.cfg.memzone = fun _ => RteMemzone.zero := by rw [zoneStart, rteEalMemzoneInit]
  have hcnt : zoneStart.cfg.memzoneCnt = 0 := by rw [zoneStart, rteEalMemzoneInit]
  generalize zoneStart = z at h₀ hheap hlive htable hcnt
  -- the zone "a"
  obtain ⟨-, hlive₁, hheap₁⟩ := hheap.small_alloc (by simp) (by decide) (by decide) (by decide) (by decide) (by decide)
  have hunused : ∀ i, ¬Reserved z.cfg.memzone i := by
    rw [htable]
    exact fun i hi => absurd (Eq.refl 0) hi.2
  have hnext : getNextFreeMemzone z.cfg.memzone = some 0 := by
    rw [htable]
    exact getNextFreeMemzone_eq (by decide) (Eq.refl 0) fun i hi => absurd hi (Nat.not_lt_zero i)
  have hname : NameFree z.cfg.memzone zoneA :=
    nameFree_of_ne (hinv h₀).table (by decide) fun i hi => absurd hi (hunused i)
  obtain ⟨z₁, za, hstep₁, hrun₁, hcnt₁, htable₁, hname₁, haddr₁⟩ :=
    reserve_small (hinv h₀) hlive₁ (by rw [hcnt]; decide) hname hnext
  have h₁ := h₀.next hstep₁
  rw [← hrun₁] at hheap₁
  -- the zone "b"
  obtain ⟨-, hlive₂, -⟩ := hheap₁.small_alloc (by simp) (by decide) (by decide) (by decide) (by decide) (by decide)
  have hother : ∀ i, Reserved z₁.cfg.memzone i → i = 0 := by
    intro i hi
    by_contra hne
    rw [htable₁, Reserved.update hne] at hi
    exact hunused i hi
  have hname' : NameFree z₁.cfg.memzone zoneB := by
    refine nameFree_of_ne (hinv h₁).table (by decide) fun i hi => ?_
    rw [hother i hi, htable₁, Function.update_self, hname₁]
    decide
  have hnext' : getNextFreeMemzone z₁.cfg.memzone = some 1 := by
    refine getNextFreeMemzone_eq (by decide) ?_ fun i hi => ?_
    · rw [htable₁, htable, Function.update_of_ne (by decide)]
      exact Eq.refl 0
    · rw [Nat.lt_one_iff.mp hi, htable₁, Function.update_self, haddr₁]
      decide
  obtain ⟨z₂, zb, hstep₂, -, hcnt₂, htable₂, -, haddr₂⟩ :=
    reserve_small (hinv h₁) hlive₂ (by rw [hcnt₁, hcnt]; decide) hname' hnext'
  have h₂ := h₁.next hstep₂
  -- "a" is freed
  have hzero : z₂.cfg.memzone 0 = za := by
    rw [htable₂, Function.update_of_ne (by decide), htable₁, Function.update_self]
  have hres : Reserved z₂.cfg.memzone 0 := by
    refine ⟨by decide, ?_⟩
    rw [hzero, haddr₁]
    decide
  obtain ⟨heap, hfree, -, -⟩ := (hinv h₂).free_block hres
  have hcode := rteMemzoneFree_used hres.2 (by rw [hcnt₂, hcnt₁, hcnt]; decide) hfree
  have h₃ := h₂.next ⟨.free 0, hres.1, trivial, by rw [ZoneOp.run, hcode, Option.map_some]⟩
  obtain ⟨hok, hcall⟩ := zones_ok oneSeg_ok h₃
  refine ⟨_, h₃, fun i => ?_, hok, hcall _ (by rw [ZoneOp.Valid]; decide) ((hinv h₃).noWrap_small zoneA)⟩
  dsimp only
  by_cases hi₀ : i = 0
  · rw [hi₀]
    exact iff_of_false (fun hi => hi.update_zero.1 (Eq.refl 0)) (by decide)
  · rw [Reserved.update hi₀, htable₂]
    by_cases hi₁ : i = 1
    · rw [hi₁]
      refine iff_of_true ⟨by decide, ?_⟩ (Eq.refl 1)
      rw [Function.update_self, haddr₂]
      decide
    · rw [Reserved.update hi₁]
      exact iff_of_false (fun hi => hi₀ (hother i hi)) hi₁

/-- A zone aligned to `2 ^ 31` in a gigabyte at `2 ^ 30` is refused, and the heap is not what it was. -/
theorem not_zones_ok : Reach (ZoneInit oneSeg (fun _ => 0) fun _ => 0) ZoneStep zoneStart ∧
    (ZoneOp.reserve zoneEnv zoneA 64 0 0 (2 ^ 31) 0).Valid ∧
    ¬ZoneOp.Atomic zoneStart (.reserve zoneEnv zoneA 64 0 0 (2 ^ 31) 0) := by
  refine ⟨.start zoneStart_init, by rw [ZoneOp.Valid]; decide, fun h => ?_⟩
  obtain ⟨s', halloc, -, hsize⟩ := alloc_wrapped oneSegStart_inv.rep
  rw [← zoneStart_heap] at halloc
  have hname : NameFree zoneStart.cfg.memzone zoneA :=
    nameFree_of_ne tableOK_zero (by decide) fun i hi => absurd rfl hi.2
  have hcnt : zoneStart.cfg.memzoneCnt < rteMaxMemzone := by decide
  have hpow : rteIsPowerOf2 (2 ^ 31) = true := rteIsPowerOf2_iff.mpr ⟨31, Eq.refl _⟩
  have hcode : memzoneReserveAlignedThreadUnsafe zoneEnv zoneStart.cfg zoneA 64 (0 : Nat) 0 (2 ^ 31) 0 =
      memzoneTake zoneEnv zoneStart.cfg zoneA 64 (s', 0) :=
    memzoneReserve_code hcnt hname hpow (by decide) (by decide) (by decide) (by decide) (by decide)
      (by decide) halloc
  have hres : rteMemzoneReserveBounded zoneEnv zoneStart.cfg zoneA 64 0 0 (2 ^ 31) 0 =
      (zoneStart.cfg.setHeap s', .error .enomem) := hcode.trans (if_pos (Eq.refl 0))
  have hsame := h.1 .enomem (congrArg Prod.snd hres)
  rw [hres] at hsame
  have hheap : s' = oneSegStart.heap := (congrArg MemConfig.heap hsame).trans zoneStart_heap
  have hbefore : oneSegStart.heap.elem .size (2 ^ 30) = 2 ^ 30 - 64 := oneSegStart_inv.rep.single_hdr.size
  rw [hheap, hbefore] at hsize
  exact absurd hsize (by decide)

end EalMemzone
