import RteDemo.Lib.Parts
import RteDemo.Mempool.CacheBounds
import RteDemo.Ring.Create
import Mathlib.Tactic.Abel
import Mathlib.Tactic.IntervalCases

/-!
# Every object of a pool is in one place

A populated object is in the ring, in one slot of one lcore cache, or in the hands of one caller.
`rte_mempool_put_bulk` and `rte_mempool_get_bulk` move objects between these places, in any order of
the callers; a get that asks the ring a second time does so in a step of its own, the other callers
having gone on in between.

What keeps the enqueues of `__mempool_generic_put` from failing is a count: the ring has room for
every populated object. The ring is created with `rte_align32pow2(mp->size + 1)` slots; from
`mp->size = 2^31` on this is `0`, and such a ring loses what is put into it.
-/

namespace Mempool

open RteDemo Ring

variable {Obj : Type}

/-! ## Creating the ring -/

/-- `RTE_RING_NAMESIZE` -/
def rteRingNamesize : Nat := rteMemzoneNamesize - ("RG_".utf8ByteSize + 1) + 1

/-- The flags of `common_ring_alloc`: `RING_F_SP_ENQ` and `RING_F_SC_DEQ`. -/
def ringFlags (mp : RteMempool Obj) : Nat :=
  (if mp.spPut then 1 else 0) ||| (if mp.scGet then 2 else 0)

/-- `common_ring_alloc`, with the `struct rte_ring` in the memory `mem`. -/
def commonRingAlloc (env : Env) (mem : RteRing Obj) (name : String) (mp : RteMempool Obj) :
    Except Int (RteMempool Obj) :=
  let rgName := "MP_" ++ name
  if rgName.utf8ByteSize ≥ rteRingNamesize then .error (-enametoolong)
  else
    match rteRingCreate env mem rgName (rteAlign32pow2 (Word.add 32 mp.size 1)) (ringFlags mp) with
    | .error rteErrno => .error (-rteErrno)
    | .ok (r, _) => .ok { mp with poolData := r }

/-! ## A get in two steps -/

/-- How a get ends, or where it is when it goes to the ring a second time. -/
inductive Attempt (Obj : Type)
  | done (mp : RteMempool Obj) (cache : Option (RteMempoolCache Obj)) (objTable : Nat → Obj) (ret : Int)
  | ringDequeue

/-- `__mempool_generic_get` up to a refill of the cache that fails. -/
def mempoolGetAttempt (fuel : Nat) (mp : RteMempool Obj) (objTable : Nat → Obj) (n : Nat)
    (cache : Option (RteMempoolCache Obj)) : Option (Attempt Obj) :=
  let ringDequeue := (opsDequeueBulk fuel mp objTable n).map fun res =>
    .done res.1 cache res.2.1 res.2.2
  let fromCache (mp : RteMempool Obj) (cache : RteMempoolCache Obj) : Attempt Obj :=
    .done mp (some { cache with len := Word.sub 32 cache.len n })
      (fill cache.objs objTable 0 (Word.sub 32 cache.len 1) n) 0
  match cache with
  | some cache =>
    if n ≥ cache.size then ringDequeue
    else if cache.len < n then
      let req := Word.add 32 n (Word.sub 32 cache.size cache.len)
      (opsDequeueBulk fuel mp (tableFrom cache.objs cache.len) req).map fun res =>
        if res.2.2 < 0 then .ringDequeue
        else
          fromCache res.1
            { cache with
              objs := splice cache.objs cache.len res.2.1
              len := Word.add 32 cache.len req }
    else some (fromCache mp cache)
  | none => ringDequeue

/-- The get is its attempt, and then the second dequeue. -/
theorem mempoolGenericGet_eq (fuel : Nat) (mp : RteMempool Obj) (objTable : Nat → Obj) (n : Nat)
    (cache : Option (RteMempoolCache Obj)) :
    mempoolGenericGet fuel mp objTable n cache =
      (mempoolGetAttempt fuel mp objTable n cache).bind fun
        | .done mp cache objTable ret => some (mp, cache, objTable, ret)
        | .ringDequeue => (opsDequeueBulk fuel mp objTable n).map fun res => (res.1, cache, res.2) := by
  have hring : ∀ cache : Option (RteMempoolCache Obj),
      (opsDequeueBulk fuel mp objTable n).map (fun res => (res.1, cache, res.2)) =
        ((opsDequeueBulk fuel mp objTable n).map fun res =>
          Attempt.done res.1 cache res.2.1 res.2.2).bind fun
            | .done mp cache objTable ret => some (mp, cache, objTable, ret)
            | .ringDequeue =>
              (opsDequeueBulk fuel mp objTable n).map fun res => (res.1, cache, res.2) := by
    intro cache
    rw [Option.bind_map]
    cases opsDequeueBulk fuel mp objTable n <;> rfl
  cases cache with
  | none => exact hring none
  | some c =>
    rw [mempoolGenericGet, mempoolGetAttempt]
    simp only
    split_ifs with hn hlen
    · exact hring (some c)
    · rw [Option.bind_map]
      congr 1
      funext res
      simp only [Function.comp_apply]
      split_ifs <;> rfl
    · rfl

/-! ## What the places hold -/

/-- The first `n` entries of a table. -/
def tableObjs (t : Nat → Obj) (n : Nat) : Multiset Obj := (List.range n).map t

/-- The objects in the ring. -/
def ringObjs (r : RteRing Obj) : Multiset Obj :=
  tableObjs (fun i => r.slots (Word.add 32 r.cons.tail i &&& r.mask)) (rteRingCount r)

/-- The objects in a cache: those below `len`. -/
def cacheObjs : Option (RteMempoolCache Obj) → Multiset Obj
  | some cache => tableObjs cache.objs cache.len
  | none => 0

theorem card_tableObjs (t : Nat → Obj) (n : Nat) : (tableObjs t n).card = n := by
  simp [tableObjs]

theorem tableObjs_congr {t u : Nat → Obj} {n : Nat} (h : ∀ i < n, t i = u i) :
    tableObjs t n = tableObjs u n := by
  rw [tableObjs, List.map_congr_left fun i hi => h i (List.mem_range.mp hi)]
  rfl

theorem tableObjs_add (t : Nat → Obj) (m n : Nat) :
    tableObjs t (m + n) = tableObjs t m + tableObjs (tableFrom t m) n := by
  rw [tableObjs, List.range_add, List.map_append, List.map_map]
  rfl

theorem tableObjs_reverse (t : Nat → Obj) (n : Nat) :
    tableObjs (fun i => t (n - 1 - i)) n = tableObjs t n := by
  have hrev : (List.range n).map (fun i => t (n - 1 - i)) = ((List.range n).map t).reverse := by
    apply List.ext_getElem
    · simp
    · intro i hi hi'
      simp
  rw [tableObjs, hrev]
  exact Multiset.coe_reverse _

theorem ringObjs_eq {r : RteRing Obj} {cap : Nat} {q : BoundedQueue Obj cap} (h : Repr r q) :
    ringObjs r = q.items := by
  obtain ⟨k, hv⟩ := h.valid
  obtain ⟨base, hc, -, hslots⟩ := h.place
  have hlist : (List.range q.length).map (fun i => r.slots (Word.add 32 r.cons.tail i &&& r.mask)) =
      q.items := by
    apply List.ext_getElem
    · simp [BoundedQueue.length]
    · intro i hi hi'
      rw [List.getElem_map, List.getElem_range, ← hslots i hi', hc, Word.add, Nat.mod_add_mod,
        hv.slot, hv.size]
  rw [ringObjs, h.count, tableObjs, hlist]

/-! ## The ring operations -/

/-- The ring has room for `size` objects. -/
def RingOk (size : Nat) (r : RteRing Obj) : Prop :=
  ∃ cap, size ≤ cap ∧ ∃ q : BoundedQueue Obj cap, Repr r q

section

variable {size fuel n : Nat} {mp : RteMempool Obj} {r : RteRing Obj}

theorem RingOk.isQueue (h : RingOk size r) : IsQueue r := by
  obtain ⟨cap, -, q, hq⟩ := h
  exact ⟨cap, q, hq⟩

/-- An enqueue that does not go beyond `size` adds the objects; it returns an error if there are
none to add. -/
theorem opsEnqueueBulk_spec (h : RingOk size mp.poolData) (fuel : Nat) (t : Nat → Obj)
    (hn : (ringObjs mp.poolData).card + n ≤ size) : ∃ r',
      opsEnqueueBulk (fuel + 1) mp t n =
        some ({ mp with poolData := r' }, if n = 0 then -enobufs else 0) ∧
      RingOk size r' ∧ ringObjs r' = ringObjs mp.poolData + tableObjs t n := by
  obtain ⟨cap, hcap, q, hq⟩ := h
  obtain ⟨r', hcode, hr'⟩ := hq.enqueue fuel t n .fixed mp.spPut
  have hlen : (ringObjs mp.poolData).card = q.length := by
    rw [ringObjs_eq hq]
    rfl
  have hpush : q.pushed .fixed n = n := if_pos (by unfold BoundedQueue.room; omega)
  refine ⟨r', ?_, ⟨cap, hcap, _, hr'⟩, ?_⟩
  · rw [opsEnqueueBulk, hcode]
    change some (_, if q.pushed .fixed n = 0 then _ else _) = _
    rw [hpush]
  · rw [ringObjs_eq hr', ringObjs_eq hq]
    change ((q.items ++ (List.range (q.pushed .fixed n)).map t : List Obj) : Multiset Obj) = _
    rw [hpush]
    rfl

/-- A dequeue takes `n` objects, or changes nothing. -/
theorem opsDequeueBulk_spec (h : RingOk size mp.poolData) (fuel : Nat) (t : Nat → Obj) (hn : 1 ≤ n) :
    (∃ r' t', opsDequeueBulk (fuel + 1) mp t n = some ({ mp with poolData := r' }, t', 0) ∧
      RingOk size r' ∧ ringObjs mp.poolData = tableObjs t' n + ringObjs r') ∨
    opsDequeueBulk (fuel + 1) mp t n = some (mp, t, -enobufs) := by
  by_cases hlt : rteRingCount mp.poolData < n
  · exact .inr (opsDequeueBulk_of_lt h.isQueue fuel t hlt)
  obtain ⟨cap, hcap, q, hq⟩ := h
  obtain ⟨r', hcode, hr'⟩ := hq.dequeue fuel t n .fixed mp.scGet
  rw [hq.count] at hlt
  have hpop : q.popped .fixed n = n := if_pos (Nat.le_of_not_lt hlt)
  have hle : n ≤ q.items.length := Nat.le_of_not_lt hlt
  refine .inl ⟨r', q.taken .fixed n t, ?_, ⟨cap, hcap, _, hr'⟩, ?_⟩
  · rw [opsDequeueBulk, hcode]
    change some (_, _, if q.popped .fixed n = 0 then _ else _) = _
    rw [hpop, if_neg (Nat.ne_of_gt hn)]
    rfl
  · have htaken : (List.range n).map (q.taken .fixed n t) = q.items.take n := by
      apply List.ext_getElem
      · simp [hle]
      · intro i hi hi'
        have hin : i < n := by simpa using hi
        rw [List.getElem_map, List.getElem_range, BoundedQueue.taken, hpop, if_pos hin,
          List.getD_eq_getElem _ _ (hin.trans_le hle), List.getElem_take]
    have hrest : (q.pop RteRingQueueBehavior.fixed.amount n).items = q.items.drop n := congrArg q.items.drop hpop
    rw [ringObjs_eq hq, ringObjs_eq hr', tableObjs, htaken, hrest, Multiset.coe_add,
      List.take_append_drop]

end

/-! ## The caches -/

section

variable {size n : Nat} {cache : RteMempoolCache Obj}

/-- The objects put into a cache lie behind those that it holds. -/
theorem tableObjs_memcpyObjs (objs t : Nat → Obj) (len n : Nat) :
    tableObjs (memcpyObjs objs len t n) (len + n) = tableObjs objs len + tableObjs t n := by
  rw [tableObjs_add]
  refine congrArg₂ (· + ·) (tableObjs_congr fun i hi => ?_) (tableObjs_congr fun i hi => ?_)
  · rw [memcpyObjs, if_neg (by omega)]
  · rw [tableFrom, memcpyObjs, if_pos (by omega), Nat.add_sub_cancel_left]

theorem tableObjs_splice (objs t : Nat → Obj) (len n : Nat) :
    tableObjs (splice objs len t) (len + n) = tableObjs objs len + tableObjs t n := by
  rw [tableObjs_add]
  refine congrArg₂ (· + ·) (tableObjs_congr fun i hi => ?_) (tableObjs_congr fun i _ => ?_)
  · rw [splice, if_pos hi]
  · rw [tableFrom, splice, if_neg (by omega), Nat.add_sub_cancel_left]

/-- The loop takes the objects from `len` downwards. -/
theorem fill_apply (objs : Nat → Obj) : ∀ (n : Nat) (t : Nat → Obj) (index len : Nat),
    len < 2 ^ 32 → n ≤ len + 1 → ∀ j, fill objs t index len n j =
      if index ≤ j ∧ j < index + n then objs (len - (j - index)) else t j
  | 0, t, index, len, _, _, j => by rw [fill, if_neg (by omega)]
  | n + 1, t, index, len, hlen, hn, j => by
    rcases Nat.eq_zero_or_pos n with rfl | hpos
    · rw [fill, fill]
      by_cases hj : j = index
      · rw [hj, Function.update_self, if_pos (by omega), Nat.sub_self, Nat.sub_zero]
      · rw [Function.update_of_ne hj, if_neg (by omega)]
    · rw [fill, Word.sub_eq (by omega) hlen, fill_apply objs n _ _ _ (by omega) (by omega)]
      by_cases hj : j = index
      · rw [hj, if_neg (by omega), Function.update_self, if_pos (by omega), Nat.sub_self, Nat.sub_zero]
      · rw [Function.update_of_ne hj]
        by_cases hin : index + 1 ≤ j ∧ j < index + 1 + n
        · rw [if_pos hin, if_pos (by omega), show len - 1 - (j - (index + 1)) = len - (j - index) by omega]
        · rw [if_neg hin, if_neg (by omega)]

/-- The objects of a cache are those that stay in it and those that a get takes. -/
theorem tableObjs_fill (objs t : Nat → Obj) {len : Nat} (hlen : len < 2 ^ 32) (hn1 : 1 ≤ n)
    (hn : n ≤ len) :
    tableObjs objs len = tableObjs objs (len - n) + tableObjs (fill objs t 0 (len - 1) n) n := by
  have htaken : tableObjs (fill objs t 0 (len - 1) n) n =
      tableObjs (fun i => tableFrom objs (len - n) (n - 1 - i)) n := by
    refine tableObjs_congr fun i hi => ?_
    rw [fill_apply objs n t 0 (len - 1) (by omega) (by omega), if_pos (by omega), tableFrom,
      show len - 1 - (i - 0) = len - n + (n - 1 - i) by omega]
  rw [htaken, tableObjs_reverse, ← tableObjs_add, Nat.sub_add_cancel hn]

end

/-! ## Put and get -/

/-- What a put hands to the ring: a table and a number of objects. -/
def putEnqueue (objTable : Nat → Obj) (n : Nat) (cache : Option (RteMempoolCache Obj)) :
    Option ((Nat → Obj) × Nat) :=
  match cache with
  | some cache =>
    if n > rteMempoolCacheMaxSize then some (objTable, n)
    else
      let objs := memcpyObjs cache.objs cache.len objTable n
      let len := Word.add 32 cache.len n
      if len ≥ cache.flushthresh then some (tableFrom objs cache.size, Word.sub 32 len cache.size)
      else none
  | none => some (objTable, n)

/-- The cache after a put. -/
def putCache (cache : RteMempoolCache Obj) (objTable : Nat → Obj) (n : Nat) : RteMempoolCache Obj :=
  (putTrace cache objTable n).val.2

theorem putCache_eq (cache : RteMempoolCache Obj) (objTable : Nat → Obj) (n : Nat) :
    putCache cache objTable n =
      if n > rteMempoolCacheMaxSize then cache
      else if Word.add 32 cache.len n ≥ cache.flushthresh then
        { cache with objs := memcpyObjs cache.objs cache.len objTable n, len := cache.size }
      else
        { cache with
          objs := memcpyObjs cache.objs cache.len objTable n
          len := Word.add 32 cache.len n } := by
  rw [putCache, putTrace]
  split_ifs with hn hflush
  · rfl
  · simp only [Logged.val_bind, Logged.val_pure, writeObjs_val, if_pos hflush]
  · simp only [Logged.val_bind, Logged.val_pure, writeObjs_val, if_neg hflush]

/-- A put hands this to the ring, and ignores what comes back. -/
theorem mempoolGenericPut_eq (fuel : Nat) (mp : RteMempool Obj) (objTable : Nat → Obj) (n : Nat)
    (cache : Option (RteMempoolCache Obj)) :
    mempoolGenericPut fuel mp objTable n cache =
      (match putEnqueue objTable n cache with
        | some (t, k) => (opsEnqueueBulk fuel mp t k).map Prod.fst
        | none => some mp).map fun mp => (mp, cache.map fun c => putCache c objTable n) := by
  cases cache with
  | none =>
    rw [mempoolGenericPut, putEnqueue, Option.map_map]
    rfl
  | some c =>
    rw [mempoolGenericPut, putEnqueue, Option.map_some, putCache_eq]
    simp only
    split_ifs
    · rw [Option.map_map]
      rfl
    · rw [Option.map_map]
      rfl
    · rfl

section

variable {size cacheSize fuel n : Nat} {mp : RteMempool Obj} {cache : Option (RteMempoolCache Obj)}
  {objTable : Nat → Obj}

/-- What the ring is handed and what stays in the cache are the objects of the cache and those of the
call. -/
theorem putEnqueue_spec (hcs : cacheSize ≤ rteMempoolCacheMaxSize)
    (hb : ∀ c, cache = some c → Bounded cacheSize c) (objTable : Nat → Obj) (n : Nat) :
    ((putEnqueue objTable n cache).elim 0 fun e => tableObjs e.1 e.2) +
        cacheObjs (cache.map fun c => putCache c objTable n) =
      cacheObjs cache + tableObjs objTable n := by
  cases cache with
  | none => exact add_comm _ _
  | some c =>
    have hbc := hb c rfl
    obtain ⟨hle, hmax⟩ := flushthresh_bounds hcs
    have hlen := hbc.len
    have hflush := hbc.flushthresh
    have hsize := hbc.size
    rw [putEnqueue, Option.map_some, putCache_eq]
    simp only
    split_ifs with hn hfl
    · exact add_comm _ _
    · have hn' : n ≤ 512 := Nat.le_of_not_lt hn
      have hadd : Word.add 32 c.len n = c.len + n := Word.add_eq (by omega)
      rw [hadd] at hfl
      have hsub : Word.sub 32 (c.len + n) c.size = c.len + n - c.size :=
        Word.sub_eq (by omega) (by omega)
      -- the flush takes the objects above the size
      have hsplit := tableObjs_add (memcpyObjs c.objs c.len objTable n) c.size (c.len + n - c.size)
      rw [show c.size + (c.len + n - c.size) = c.len + n by omega, tableObjs_memcpyObjs] at hsplit
      rw [hadd, hsub, Option.elim_some, cacheObjs, cacheObjs, hsplit, add_comm]
    · have hn' : n ≤ 512 := Nat.le_of_not_lt hn
      have hadd : Word.add 32 c.len n = c.len + n := Word.add_eq (by omega)
      rw [Option.elim_none, zero_add, cacheObjs, cacheObjs, hadd, tableObjs_memcpyObjs]

/-- Only a cache of one object is flushed when nothing lies above its size. -/
theorem putEnqueue_pos (hcs : cacheSize ≤ rteMempoolCacheMaxSize) (h1 : cacheSize ≠ 1) (hn : 1 ≤ n)
    (hb : ∀ c, cache = some c → Bounded cacheSize c) {e : (Nat → Obj) × Nat}
    (he : putEnqueue objTable n cache = some e) : 1 ≤ e.2 := by
  cases cache with
  | none => exact Option.some.inj he ▸ hn
  | some c =>
    have hbc := hb c rfl
    have hlen := hbc.len
    have hflush := hbc.flushthresh
    have hsize := hbc.size
    have hmax : cacheSize ≤ 512 := hcs
    rw [putEnqueue] at he
    simp only at he
    split_ifs at he with hbig hfl
    · exact Option.some.inj he ▸ hn
    · have hn' : n ≤ 512 := Nat.le_of_not_lt hbig
      unfold calcCacheFlushthresh at hflush
      have hadd : Word.add 32 c.len n = c.len + n := Word.add_eq (by omega)
      rw [hadd] at he hfl
      rw [← Option.some.inj he]
      change 1 ≤ Word.sub 32 (c.len + n) c.size
      rw [Word.sub_eq (by omega) (by omega)]
      omega

/-- **Put.** The objects are in the ring or in the cache afterwards, and the enqueue succeeded. -/
theorem mempoolGenericPut_spec (h : RingOk size mp.poolData) (hcs : cacheSize ≤ rteMempoolCacheMaxSize)
    (hb : ∀ c, cache = some c → Bounded cacheSize c) (fuel : Nat) (objTable : Nat → Obj)
    (hroom : (ringObjs mp.poolData).card + ((cacheObjs cache).card + n) ≤ size) : ∃ r',
      mempoolGenericPut (fuel + 1) mp objTable n cache =
        some ({ mp with poolData := r' }, cache.map fun c => putCache c objTable n) ∧
      RingOk size r' ∧
      ringObjs r' + cacheObjs (cache.map fun c => putCache c objTable n) =
        ringObjs mp.poolData + cacheObjs cache + tableObjs objTable n ∧
      ∀ e, putEnqueue objTable n cache = some e → ∃ mp',
        opsEnqueueBulk (fuel + 1) mp e.1 e.2 = some (mp', if e.2 = 0 then -enobufs else 0) := by
  have hspec := putEnqueue_spec hcs hb objTable n
  rw [mempoolGenericPut_eq]
  cases he : putEnqueue objTable n cache with
  | none =>
    rw [he, Option.elim_none, zero_add] at hspec
    refine ⟨mp.poolData, rfl, h, ?_, fun e hsome => nomatch hsome⟩
    rw [hspec, add_assoc]
  | some e =>
    rw [he, Option.elim_some] at hspec
    have hcard := congrArg Multiset.card hspec
    rw [Multiset.card_add, Multiset.card_add, card_tableObjs, card_tableObjs] at hcard
    obtain ⟨r', hcode, hr', hobjs⟩ := opsEnqueueBulk_spec h fuel e.1 (show _ + e.2 ≤ size by omega)
    refine ⟨r', by simp only; rw [hcode]; rfl, hr', ?_, fun e' he' => ?_⟩
    · rw [hobjs, add_assoc, hspec, add_assoc]
    · rw [← Option.some.inj he']
      exact ⟨_, hcode⟩

/-- **Get**, as far as its first dequeue goes: the objects come from the ring and the cache, or
nothing has changed. -/
theorem mempoolGetAttempt_spec (h : RingOk size mp.poolData) (hcs : cacheSize ≤ rteMempoolCacheMaxSize)
    (hb : ∀ c, cache = some c → Bounded cacheSize c) (fuel : Nat) (objTable : Nat → Obj) (hn : 1 ≤ n) :
    (∃ r' f t', mempoolGetAttempt (fuel + 1) mp objTable n cache =
        some (.done { mp with poolData := r' } (cache.map f) t' 0) ∧
      RingOk size r' ∧ (∀ c, Bounded cacheSize c → Bounded cacheSize (f c)) ∧
      ringObjs mp.poolData + cacheObjs cache = ringObjs r' + cacheObjs (cache.map f) + tableObjs t' n) ∨
    mempoolGetAttempt (fuel + 1) mp objTable n cache = some (.done mp cache objTable (-enobufs)) ∨
    mempoolGetAttempt (fuel + 1) mp objTable n cache = some .ringDequeue := by
  cases cache with
  | none =>
    rw [mempoolGetAttempt]
    rcases opsDequeueBulk_spec h fuel objTable hn with ⟨r', t', hcode, hr', hobjs⟩ | hcode
    · refine .inl ⟨r', id, t', by rw [hcode]; rfl, hr', fun _ hc => hc, ?_⟩
      rw [hobjs, Option.map_none, cacheObjs, add_zero, add_zero, add_comm]
    · exact .inr (.inl (by rw [hcode]; rfl))
  | some c =>
    have hbc := hb c rfl
    obtain ⟨hle, hmax⟩ := flushthresh_bounds hcs
    have hlen := hbc.len
    have hflush := hbc.flushthresh
    have hsize := hbc.size
    rw [mempoolGetAttempt]
    simp only [Option.map_some]
    by_cases hns : n ≥ c.size
    · rw [if_pos hns]
      rcases opsDequeueBulk_spec h fuel objTable hn with ⟨r', t', hcode, hr', hobjs⟩ | hcode
      · refine .inl ⟨r', id, t', by rw [hcode]; rfl, hr', fun _ hc => hc, ?_⟩
        rw [hobjs, id]
        abel
      · exact .inr (.inl (by rw [hcode]; rfl))
    · rw [if_neg hns]
      by_cases hlt : c.len < n
      · obtain ⟨hreq, hfull⟩ := refill_eq hbc hcs (Nat.lt_of_not_le hns) hlt
        have hlast : Word.sub 32 (c.size + n) 1 = c.size + n - 1 := Word.sub_eq (by omega) (by omega)
        have hleft : Word.sub 32 (c.size + n) n = c.size + n - n := Word.sub_eq (by omega) (by omega)
        rw [if_pos hlt, hreq, hfull, hlast, hleft]
        rcases opsDequeueBulk_spec h fuel (tableFrom c.objs c.len)
          (show 1 ≤ n + (c.size - c.len) by omega) with ⟨r', t', hcode, hr', hobjs⟩ | hcode
        · -- the cache is filled, and the objects come from its top
          refine .inl ⟨r', fun _ => { c with objs := splice c.objs c.len t', len := c.size + n - n },
            fill (splice c.objs c.len t') objTable 0 (c.size + n - 1) n, by rw [hcode]; rfl, hr', fun _ _ => ?_, ?_⟩
          · exact ⟨hflush, hsize, show c.size + n - n ≤ c.flushthresh by omega⟩
          · have hsplice := tableObjs_splice c.objs t' c.len (n + (c.size - c.len))
            have hcount : c.len + (n + (c.size - c.len)) = c.size + n := by omega
            have htake := tableObjs_fill (splice c.objs c.len t') objTable
              (show c.size + n < 2 ^ 32 by omega) hn (Nat.le_add_left n c.size)
            rw [hcount, htake] at hsplice
            rw [hobjs, cacheObjs, cacheObjs, add_assoc _ _ (tableObjs (fill _ _ _ _ _) _), hsplice]
            abel
        · exact .inr (.inr (by rw [hcode]; rfl))
      · rw [if_neg hlt]
        have hleft : Word.sub 32 c.len n = c.len - n := Word.sub_eq (by omega) (by omega)
        refine .inl ⟨mp.poolData, fun _ => { c with len := c.len - n }, _, by rw [hleft], h, fun _ _ => ?_, ?_⟩
        · exact ⟨hflush, hsize, show c.len - n ≤ c.flushthresh by omega⟩
        · rw [Word.sub_eq (by omega) (by omega), cacheObjs, cacheObjs,
            tableObjs_fill c.objs objTable (by omega) hn (Nat.le_of_not_lt hlt), add_assoc]

end

/-! ## The pool and its callers -/

/-- Where an object can be. -/
inductive Place
  | ring
  | cache (lcoreId : Nat)
  | hands (caller : Nat)
  deriving DecidableEq

/-- A pool, the objects it was populated with, and its callers. A caller is an lcore, or, from
`RTE_MAX_LCORE` on, a thread that has no cache. -/
structure Pool (Obj : Type) where
  mp : RteMempool Obj
  populated : Multiset Obj
  /-- What each caller holds. -/
  hands : Nat → Multiset Obj
  /-- The callers whose get of so many objects is about to ask the ring a second time. -/
  again : Nat → Option Nat

def Pool.part (s : Pool Obj) : Place → Multiset Obj
  | .ring => ringObjs s.mp.poolData
  | .cache lcoreId => cacheObjs (rteMempoolDefaultCache s.mp lcoreId)
  | .hands caller => s.hands caller

/-- The hands after a get that returned `ret`. -/
def Pool.handOut (s : Pool Obj) (caller : Nat) (objTable : Nat → Obj) (n : Nat) (ret : Int) :
    Nat → Multiset Obj :=
  if ret = 0 then Function.update s.hands caller (s.hands caller + tableObjs objTable n) else s.hands

/-- A pool as `rte_mempool_create_empty` leaves it, with the ring that `rte_mempool_populate_phy` then
allocates. -/
structure Start (s : Pool Obj) : Prop where
  size_lt : s.mp.size < 2 ^ 32
  cacheSize_le : s.mp.cacheSize ≤ rteMempoolCacheMaxSize
  flushthresh_le : calcCacheFlushthresh s.mp.cacheSize ≤ s.mp.size
  caches : s.mp.cacheSize ≠ 0 → ∀ lcoreId, ∃ cache,
    s.mp.localCache lcoreId = mempoolCacheInit cache s.mp.cacheSize
  ring : ∃ env mem name mp, commonRingAlloc env mem name mp = .ok s.mp
  populated : s.populated = 0
  hands : s.hands = fun _ => 0
  again : s.again = fun _ => none

/-- What the pool and its callers can do. -/
inductive PoolStep (fuel : Nat) : Pool Obj → Pool Obj → Prop
  /-- `mempool_add_elem`, for which `rte_mempool_populate_phy` has compared the sizes. -/
  | add {s : Pool Obj} {obj : Obj} {mp' : RteMempool Obj} {ret : Int} :
      obj ∉ s.populated → s.populated.card < s.mp.size →
      opsEnqueueBulk fuel s.mp (fun _ => obj) 1 = some (mp', ret) →
      PoolStep fuel s { s with mp := mp', populated := s.populated + {obj} }
  /-- A caller puts objects that it holds, each once. -/
  | put {s : Pool Obj} {caller n : Nat} {objTable : Nat → Obj} {rest : Multiset Obj}
      {mp' : RteMempool Obj} :
      s.again caller = none → 1 ≤ n → s.hands caller = tableObjs objTable n + rest →
      rteMempoolPutBulk fuel s.mp caller objTable n = some mp' →
      PoolStep fuel s { s with mp := mp', hands := Function.update s.hands caller rest }
  | get {s : Pool Obj} {caller n : Nat} {objTable objTable' : Nat → Obj} {mp' : RteMempool Obj}
      {cache' : Option (RteMempoolCache Obj)} {ret : Int} :
      s.again caller = none → 1 ≤ n →
      mempoolGetAttempt fuel s.mp objTable n (rteMempoolDefaultCache s.mp caller) =
        some (.done mp' cache' objTable' ret) →
      PoolStep fuel s
        { s with mp := mp'.setCache caller cache', hands := s.handOut caller objTable' n ret }
  | refillFails {s : Pool Obj} {caller n : Nat} {objTable : Nat → Obj} :
      s.again caller = none → 1 ≤ n →
      mempoolGetAttempt fuel s.mp objTable n (rteMempoolDefaultCache s.mp caller) = some .ringDequeue →
      PoolStep fuel s { s with again := Function.update s.again caller (some n) }
  | ringDequeue {s : Pool Obj} {caller n : Nat} {objTable objTable' : Nat → Obj}
      {mp' : RteMempool Obj} {ret : Int} :
      s.again caller = some n → opsDequeueBulk fuel s.mp objTable n = some (mp', objTable', ret) →
      PoolStep fuel s
        { s with
          mp := mp'
          hands := s.handOut caller objTable' n ret
          again := Function.update s.again caller none }

/-- A get on `caller` can return `0` now, with `n` objects in `objTable'`. -/
def HandsOut (fuel : Nat) (s : Pool Obj) (caller : Nat) (objTable' : Nat → Obj) (n : Nat) : Prop :=
  (∃ objTable mp' cache', s.again caller = none ∧ 1 ≤ n ∧
    mempoolGetAttempt fuel s.mp objTable n (rteMempoolDefaultCache s.mp caller) =
      some (.done mp' cache' objTable' 0)) ∨
  ∃ objTable mp', s.again caller = some n ∧
    opsDequeueBulk fuel s.mp objTable n = some (mp', objTable', 0)

/-- Each populated object is in exactly one place, and there once; what a get hands out nobody holds;
and the enqueue of a put returns `0`. -/
structure Conserves (fuel : Nat) (s : Pool Obj) : Prop where
  one_place : ∀ obj ∈ s.populated, ∃! place, obj ∈ s.part place
  once : ∀ place, (s.part place).Nodup
  only : ∀ place, ∀ obj ∈ s.part place, obj ∈ s.populated
  get : ∀ caller objTable n, HandsOut fuel s caller objTable n →
    (tableObjs objTable n).Nodup ∧ ∀ caller', Disjoint (tableObjs objTable n) (s.hands caller')
  put : ∀ caller objTable n rest e, 1 ≤ n → s.hands caller = tableObjs objTable n + rest →
    putEnqueue objTable n (rteMempoolDefaultCache s.mp caller) = some e →
      ∃ mp', opsEnqueueBulk fuel s.mp e.1 e.2 = some (mp', 0)

/-! ## What every step keeps -/

structure PoolInv (s : Pool Obj) : Prop where
  cacheSize_le : s.mp.cacheSize ≤ rteMempoolCacheMaxSize
  ring : RingOk s.mp.size s.mp.poolData
  caches : ∀ lcoreId cache, rteMempoolDefaultCache s.mp lcoreId = some cache →
    Bounded s.mp.cacheSize cache
  populated_le : s.populated.card ≤ s.mp.size
  parts : Parts s.populated s.part
  again : ∀ caller n, s.again caller = some n → 1 ≤ n

/-- The default caches after that of `lcoreId` has been written back. -/
theorem defaultCache_setCache (mp : RteMempool Obj) (r' : RteRing Obj) (lcoreId : Nat)
    (f : RteMempoolCache Obj → RteMempoolCache Obj) (k : Nat) :
    rteMempoolDefaultCache
        (({ mp with poolData := r' } : RteMempool Obj).setCache lcoreId
          ((rteMempoolDefaultCache mp lcoreId).map f)) k =
      if k = lcoreId then (rteMempoolDefaultCache mp lcoreId).map f
      else rteMempoolDefaultCache mp k := by
  by_cases h0 : mp.cacheSize = 0
  · have hnone : ∀ l, rteMempoolDefaultCache mp l = none := fun l => if_pos h0
    rw [hnone lcoreId, hnone k, Option.map_none, ite_self]
    exact hnone k
  by_cases hl : lcoreId ≥ rteMaxLcore
  · have hnone : rteMempoolDefaultCache mp lcoreId = none := by
      rw [rteMempoolDefaultCache, if_neg h0, if_pos hl]
    rw [hnone, Option.map_none]
    split
    · rename_i hk
      exact hk ▸ hnone
    · rfl
  · have hsome : rteMempoolDefaultCache mp lcoreId = some (mp.localCache lcoreId) := by
      rw [rteMempoolDefaultCache, if_neg h0, if_neg hl]
    rw [hsome, Option.map_some, RteMempool.setCache, rteMempoolDefaultCache, rteMempoolDefaultCache,
      if_neg h0, if_neg h0]
    by_cases hk : k = lcoreId
    · rw [if_pos hk, hk, if_neg hl]
      exact congrArg some (Function.update_self ..)
    · rw [if_neg hk]
      exact congrArg (fun c => if k ≥ rteMaxLcore then none else some c) (Function.update_of_ne hk ..)

@[simp] theorem setCache_size (mp : RteMempool Obj) (l : Nat) (c : Option (RteMempoolCache Obj)) :
    (mp.setCache l c).size = mp.size := by cases c <;> rfl

@[simp] theorem setCache_cacheSize (mp : RteMempool Obj) (l : Nat) (c : Option (RteMempoolCache Obj)) :
    (mp.setCache l c).cacheSize = mp.cacheSize := by cases c <;> rfl

@[simp] theorem setCache_poolData (mp : RteMempool Obj) (l : Nat) (c : Option (RteMempoolCache Obj)) :
    (mp.setCache l c).poolData = mp.poolData := by cases c <;> rfl

variable {s : Pool Obj}

/-- A call of `caller` moves objects between the ring, the caller's cache and its hands. -/
theorem PoolInv.moved (h : PoolInv s) (caller : Nat) {r' : RteRing Obj}
    (f : RteMempoolCache Obj → RteMempoolCache Obj) (held : Multiset Obj) {again' : Nat → Option Nat}
    (hr' : RingOk s.mp.size r') (hf : ∀ c, Bounded s.mp.cacheSize c → Bounded s.mp.cacheSize (f c))
    (hsum : ringObjs r' + cacheObjs ((rteMempoolDefaultCache s.mp caller).map f) + held =
      ringObjs s.mp.poolData + cacheObjs (rteMempoolDefaultCache s.mp caller) + s.hands caller)
    (hagain : ∀ caller n, again' caller = some n → 1 ≤ n) :
    PoolInv
      { s with
        mp := ({ s.mp with poolData := r' } : RteMempool Obj).setCache caller
          ((rteMempoolDefaultCache s.mp caller).map f)
        hands := Function.update s.hands caller held
        again := again' } := by
  refine ⟨by simpa using h.cacheSize_le, by simpa using hr', fun lcoreId cache hc => ?_,
    by simpa using h.populated_le, ?_, hagain⟩
  · rw [setCache_cacheSize]
    rw [defaultCache_setCache] at hc
    split_ifs at hc with hl
    · obtain ⟨c, hc', rfl⟩ := Option.map_eq_some_iff.mp hc
      exact hf c (h.caches caller c hc')
    · exact h.caches lcoreId cache hc
  · refine h.parts.move {.ring, .cache caller, .hands caller} ?_ ?_
    · rw [Finset.sum_insert (by simp), Finset.sum_insert (by simp), Finset.sum_singleton,
        Finset.sum_insert (by simp), Finset.sum_insert (by simp), Finset.sum_singleton]
      simp only [Pool.part, defaultCache_setCache, setCache_poolData, if_true, Function.update_self]
      rw [← add_assoc, hsum, add_assoc]
    · intro place hplace
      simp only [Finset.mem_insert, Finset.mem_singleton, not_or] at hplace
      cases place with
      | ring => exact absurd rfl hplace.1
      | cache lcoreId =>
        have hl : lcoreId ≠ caller := fun heq => hplace.2.1 (heq ▸ rfl)
        simp only [Pool.part, defaultCache_setCache, if_neg hl]
      | hands caller' =>
        have hl : caller' ≠ caller := fun heq => hplace.2.2 (heq ▸ rfl)
        simp only [Pool.part, Function.update_of_ne hl]

/-- The ring has room for all that a caller and its cache hold. -/
theorem PoolInv.room (h : PoolInv s) (caller : Nat) :
    (ringObjs s.mp.poolData).card + ((cacheObjs (rteMempoolDefaultCache s.mp caller)).card +
      (s.hands caller).card) ≤ s.mp.size := by
  have hle := h.parts.card_le {.ring, .cache caller, .hands caller}
  rw [Finset.sum_insert (by simp), Finset.sum_insert (by simp), Finset.sum_singleton] at hle
  exact hle.trans h.populated_le

theorem PoolInv.put (h : PoolInv s) (fuel : Nat) {caller n : Nat} {objTable : Nat → Obj}
    {rest : Multiset Obj} (hheld : s.hands caller = tableObjs objTable n + rest) : ∃ mp',
      rteMempoolPutBulk (fuel + 1) s.mp caller objTable n = some mp' ∧
      PoolInv { s with mp := mp', hands := Function.update s.hands caller rest } ∧
      mp'.size = s.mp.size ∧ mp'.cacheSize = s.mp.cacheSize ∧
      ∀ e, putEnqueue objTable n (rteMempoolDefaultCache s.mp caller) = some e → ∃ mp'',
        opsEnqueueBulk (fuel + 1) s.mp e.1 e.2 = some (mp'', if e.2 = 0 then -enobufs else 0) := by
  have hroom := h.room caller
  rw [hheld, Multiset.card_add, card_tableObjs] at hroom
  obtain ⟨r', hcode, hr', hobjs, henq⟩ :=
    mempoolGenericPut_spec h.ring h.cacheSize_le (h.caches caller) fuel objTable
      (show _ + (_ + n) ≤ s.mp.size by omega)
  refine ⟨_, by rw [rteMempoolPutBulk, hcode]; rfl, ?_, by simp, by simp, henq⟩
  refine h.moved caller _ rest hr' (fun c hc => (hc.put h.cacheSize_le objTable n).1) ?_ h.again
  rw [hobjs, hheld, add_assoc]

theorem PoolInv.attempt (h : PoolInv s) (fuel caller : Nat) {n : Nat} (objTable : Nat → Obj)
    (hn : 1 ≤ n) :
    (∃ mp' cache' t', mempoolGetAttempt (fuel + 1) s.mp objTable n (rteMempoolDefaultCache s.mp caller) =
        some (.done mp' cache' t' 0) ∧
      PoolInv { s with mp := mp'.setCache caller cache', hands := s.handOut caller t' n 0 } ∧
      mp'.size = s.mp.size ∧ mp'.cacheSize = s.mp.cacheSize) ∨
    mempoolGetAttempt (fuel + 1) s.mp objTable n (rteMempoolDefaultCache s.mp caller) =
      some (.done s.mp (rteMempoolDefaultCache s.mp caller) objTable (-enobufs)) ∨
    mempoolGetAttempt (fuel + 1) s.mp objTable n (rteMempoolDefaultCache s.mp caller) =
      some .ringDequeue := by
  refine (mempoolGetAttempt_spec h.ring h.cacheSize_le (h.caches caller) fuel objTable hn).imp_left ?_
  rintro ⟨r', f, t', hcode, hr', hf, hobjs⟩
  refine ⟨_, _, t', hcode, ?_, rfl, rfl⟩
  rw [Pool.handOut, if_pos rfl]
  refine h.moved caller _ _ hr' hf ?_ h.again
  rw [hobjs]
  abel

theorem PoolInv.dequeue (h : PoolInv s) (fuel caller : Nat) {n : Nat} (objTable : Nat → Obj)
    (hn : 1 ≤ n) {again' : Nat → Option Nat} (hagain : ∀ caller n, again' caller = some n → 1 ≤ n) :
    (∃ mp' t', opsDequeueBulk (fuel + 1) s.mp objTable n = some (mp', t', 0) ∧
      PoolInv { s with mp := mp', hands := s.handOut caller t' n 0, again := again' } ∧
      mp'.size = s.mp.size ∧ mp'.cacheSize = s.mp.cacheSize) ∨
    opsDequeueBulk (fuel + 1) s.mp objTable n = some (s.mp, objTable, -enobufs) := by
  refine (opsDequeueBulk_spec h.ring fuel objTable hn).imp_left ?_
  rintro ⟨r', t', hcode, hr', hobjs⟩
  refine ⟨_, t', hcode, ?_, rfl, rfl⟩
  rw [Pool.handOut, if_pos rfl]
  have hmoved := h.moved caller id (s.hands caller + tableObjs t' n) hr' (fun c hc => hc)
    (by rw [Option.map_id_fun, id, hobjs]; abel) hagain
  have hsame := setCache_default ({ s.mp with poolData := r' } : RteMempool Obj) caller
  rw [Option.map_id_fun, id] at hmoved
  rw [show ({ s.mp with poolData := r' } : RteMempool Obj).setCache caller
    (rteMempoolDefaultCache s.mp caller) = { s.mp with poolData := r' } from hsame] at hmoved
  exact hmoved

theorem PoolInv.add (h : PoolInv s) (fuel : Nat) {obj : Obj} (hobj : obj ∉ s.populated)
    (hlt : s.populated.card < s.mp.size) : ∃ mp',
      opsEnqueueBulk (fuel + 1) s.mp (fun _ => obj) 1 = some (mp', 0) ∧
      PoolInv { s with mp := mp', populated := s.populated + {obj} } ∧
      mp'.size = s.mp.size ∧ mp'.cacheSize = s.mp.cacheSize := by
  have hle := h.parts.card_le {.ring}
  rw [Finset.sum_singleton] at hle
  obtain ⟨r', hcode, hr', hobjs⟩ := opsEnqueueBulk_spec h.ring fuel (fun _ => obj)
    (show (ringObjs s.mp.poolData).card + 1 ≤ s.mp.size from Nat.succ_le_of_lt (hle.trans_lt hlt))
  refine ⟨_, hcode, ⟨h.cacheSize_le, hr', h.caches, ?_, ?_, h.again⟩, rfl, rfl⟩
  · rw [Multiset.card_add, Multiset.card_singleton]
    exact hlt
  · refine h.parts.insert hobj (i := .ring) hobjs fun place hplace => ?_
    cases place with
    | ring => exact absurd rfl hplace
    | cache lcoreId => rfl
    | hands caller => rfl

theorem update_again {again : Nat → Option Nat} (h : ∀ caller n, again caller = some n → 1 ≤ n)
    (caller : Nat) (value : Option Nat) (hvalue : ∀ n, value = some n → 1 ≤ n) :
    ∀ c n, Function.update again caller value c = some n → 1 ≤ n := by
  intro c n hc
  by_cases hcaller : c = caller
  · rw [hcaller, Function.update_self] at hc
    exact hvalue n hc
  · rw [Function.update_of_ne hcaller] at hc
    exact h c n hc

/-- **One step** keeps the invariant, and the sizes. -/
theorem PoolInv.step {fuel : Nat} {s' : Pool Obj} (h : PoolInv s) (hs : PoolStep (fuel + 1) s s') :
    PoolInv s' ∧ s'.mp.cacheSize = s.mp.cacheSize ∧ s'.mp.size = s.mp.size := by
  cases hs with
  | add hobj hlt hcode =>
    obtain ⟨mp', hcode', hinv, hsz, hcs⟩ := h.add fuel hobj hlt
    obtain ⟨rfl, rfl⟩ := Prod.mk.inj (Option.some.inj (hcode.symm.trans hcode'))
    exact ⟨hinv, hcs, hsz⟩
  | put _ _ hheld hcode =>
    obtain ⟨mp', hcode', hinv, hsz, hcs, -⟩ := h.put fuel hheld
    obtain rfl := Option.some.inj (hcode.symm.trans hcode')
    exact ⟨hinv, hcs, hsz⟩
  | @get caller n objTable objTable' mp' cache' ret _ hn hcode =>
    rcases h.attempt fuel caller objTable hn with ⟨mp'', c, t, hcode', hinv, hsz, hcs⟩ | hcode' | hcode'
    · cases hcode.symm.trans hcode'
      exact ⟨hinv, by simpa using hcs, by simpa using hsz⟩
    · -- nothing was taken
      cases hcode.symm.trans hcode'
      rw [Pool.handOut, if_neg (by decide), setCache_default]
      exact ⟨h, rfl, rfl⟩
    · cases hcode.symm.trans hcode'
  | refillFails _ hn _ =>
    refine ⟨⟨h.cacheSize_le, h.ring, h.caches, h.populated_le, h.parts, ?_⟩, rfl, rfl⟩
    exact update_again h.again _ _ fun n heq => Option.some.inj heq ▸ hn
  | @ringDequeue caller n objTable objTable' mp' ret hagain hcode =>
    have hn := h.again caller n hagain
    have hag := update_again h.again caller none fun n heq => nomatch heq
    rcases h.dequeue fuel caller objTable hn hag with ⟨mp'', t, hcode', hinv, hsz, hcs⟩ | hcode'
    · cases hcode.symm.trans hcode'
      exact ⟨hinv, hcs, hsz⟩
    · cases hcode.symm.trans hcode'
      rw [Pool.handOut, if_neg (by decide)]
      exact ⟨⟨h.cacheSize_le, h.ring, h.caches, h.populated_le, h.parts, hag⟩, rfl, rfl⟩

/-! ## Runs -/

theorem exactSz_ringFlags (mp : RteMempool Obj) : exactSz (ringFlags mp) = false := by
  rw [ringFlags]
  cases mp.spPut <;> cases mp.scGet <;> rfl

/-- Below `2^31` objects the ring that is allocated has room for all of them. -/
theorem ringOk_of_alloc {env : Env} {mem : RteRing Obj} {name : String} {mp mp' : RteMempool Obj}
    (halloc : commonRingAlloc env mem name mp = .ok mp') (hsize : mp'.size < 2 ^ 31) :
    RingOk mp'.size mp'.poolData ∧ ringObjs mp'.poolData = 0 := by
  unfold commonRingAlloc at halloc
  simp only at halloc
  split at halloc
  · cases halloc
  split at halloc
  · cases halloc
  rename_i r bytes hcreate
  have hmp := Except.ok.inj halloc
  subst hmp
  have hsize' : mp.size < 2 ^ 31 := hsize
  obtain ⟨hmem, hname, rfl, -⟩ := rteRingCreate_ok hcreate
  have hinit := congrArg Prod.fst (rteRingInit_eq mem hname hmem)
  obtain ⟨-, hmask, -⟩ := getMemsize_nonneg hmem
  have hrounded : ∀ count, rounded count (ringFlags mp) = count := fun count => by
    rw [rounded, exactSz_ringFlags]
    rfl
  rw [hrounded] at hmask hinit
  rw [exactSz_ringFlags, if_neg Bool.false_ne_true] at hinit
  obtain ⟨k, hk, hpow, hle⟩ := rteAlign32pow2_eq (show 1 ≤ mp.size + 1 by omega) (by omega)
  rw [Word.add_eq (by omega), hpow, Word.sub_eq Nat.one_le_two_pow
    ((Nat.pow_le_pow_right (by decide) hk).trans_lt (by decide))] at hinit
  rw [Word.add_eq (by omega), hpow, hinit]
  have hv : Valid ({ mem with
      size := 2 ^ k
      mask := 2 ^ k - 1
      capacity := 2 ^ k - 1
      prod := ⟨0, 0⟩
      cons := ⟨0, 0⟩ } : RteRing Obj) k := ⟨hk, rfl, rfl, Nat.sub_lt (Nat.two_pow_pos k) Nat.one_pos⟩
  have hrepr := repr_start hv (show 0 < 2 ^ 32 by decide) rfl rfl
  exact ⟨⟨_, Nat.le_sub_one_of_lt hle, _, hrepr⟩, ringObjs_eq hrepr⟩

theorem Start.poolInv (h : Start s) (hsize : s.mp.size < 2 ^ 31) : PoolInv s := by
  obtain ⟨env, mem, name, mp, halloc⟩ := h.ring
  obtain ⟨hring, hempty⟩ := ringOk_of_alloc halloc hsize
  have hcache : ∀ lcoreId cache, rteMempoolDefaultCache s.mp lcoreId = some cache →
      ∃ raw, cache = mempoolCacheInit raw s.mp.cacheSize := by
    intro lcoreId cache hc
    unfold rteMempoolDefaultCache at hc
    split_ifs at hc with h0 hl
    obtain ⟨raw, hraw⟩ := h.caches h0 lcoreId
    exact ⟨raw, (Option.some.inj hc).symm.trans hraw⟩
  refine ⟨h.cacheSize_le, hring, fun lcoreId cache hc => ?_, by rw [h.populated]; exact Nat.zero_le _,
    ?_, fun caller n hn => by rw [h.again] at hn; cases hn⟩
  · obtain ⟨raw, rfl⟩ := hcache lcoreId cache hc
    exact Bounded.init raw _
  · have hpart : s.part = fun _ => 0 := by
      funext place
      cases place with
      | ring => exact hempty
      | cache lcoreId =>
        rw [Pool.part]
        cases hc : rteMempoolDefaultCache s.mp lcoreId with
        | none => rfl
        | some cache =>
          obtain ⟨raw, rfl⟩ := hcache lcoreId cache hc
          rfl
      | hands caller => rw [Pool.part, h.hands]
    rw [hpart, h.populated]
    exact Parts.start

/-- The objects that come into the hands of a caller were in nobody's. -/
theorem handedOut_new {caller n : Nat} {t : Nat → Obj} {mp' : RteMempool Obj}
    {again' : Nat → Option Nat}
    (h : PoolInv { s with mp := mp', hands := s.handOut caller t n 0, again := again' }) :
    (tableObjs t n).Nodup ∧ ∀ caller', Disjoint (tableObjs t n) (s.hands caller') := by
  have hself : s.handOut caller t n 0 caller = s.hands caller + tableObjs t n := by
    rw [Pool.handOut, if_pos rfl, Function.update_self]
  have hnodup := h.parts.nodup (.hands caller)
  simp only [Pool.part, hself] at hnodup
  obtain ⟨-, hnew, hdisj⟩ := Multiset.nodup_add.mp hnodup
  refine ⟨hnew, fun caller' => ?_⟩
  by_cases hc : caller' = caller
  · exact hc ▸ hdisj.symm
  · have hother := h.parts.disjoint (show Place.hands caller ≠ .hands caller' from
      fun heq => hc (Place.hands.inj heq).symm)
    have hsame : s.handOut caller t n 0 caller' = s.hands caller' := by
      rw [Pool.handOut, if_pos rfl, Function.update_of_ne hc]
    simp only [Pool.part, hself, hsame] at hother
    exact Multiset.disjoint_left.mpr fun {x} hx hx' =>
      Multiset.disjoint_left.mp hother (Multiset.mem_add.mpr (.inr hx)) hx'

theorem PoolInv.conserves (h : PoolInv s) (h1 : s.mp.cacheSize ≠ 1) (fuel : Nat) :
    Conserves (fuel + 1) s where
  one_place := fun obj hobj => h.parts.exists_unique hobj
  once := h.parts.nodup
  only := fun place obj hobj => h.parts.mem hobj
  get := by
    rintro caller t n (⟨objTable, mp', cache', -, hn, hcode⟩ | ⟨objTable, mp', hagain, hcode⟩)
    · rcases h.attempt fuel caller objTable hn with ⟨mp'', c, t', hcode', hinv, -⟩ | hcode' | hcode'
      · cases hcode.symm.trans hcode'
        exact handedOut_new hinv
      · exact absurd (hcode.symm.trans hcode') (by simp)
      · cases hcode.symm.trans hcode'
    · have hn := h.again caller n hagain
      rcases h.dequeue fuel caller objTable hn h.again with ⟨mp'', t', hcode', hinv, -⟩ | hcode'
      · cases hcode.symm.trans hcode'
        exact handedOut_new hinv
      · exact absurd (hcode.symm.trans hcode') (by simp)
  put := by
    intro caller objTable n rest e hn hheld he
    obtain ⟨-, -, -, -, -, henq⟩ := h.put fuel hheld
    obtain ⟨mp', hcode⟩ := henq e he
    have hpos := putEnqueue_pos h.cacheSize_le h1 hn (h.caches caller) he
    exact ⟨mp', by rw [hcode, if_neg (by omega)]⟩

theorem poolInv_of_reach {start : Pool Obj} (hstart : Start start) (hsize : start.mp.size < 2 ^ 31)
    {fuel : Nat} (h : Reach (· = start) (PoolStep (fuel + 1)) s) :
    PoolInv s ∧ s.mp.cacheSize = start.mp.cacheSize ∧ s.mp.size = start.mp.size := by
  refine Reach.invariant (I := fun s => PoolInv s ∧ s.mp.cacheSize = start.mp.cacheSize ∧
    s.mp.size = start.mp.size) ?_ ?_ h
  · rintro s rfl
    exact ⟨hstart.poolInv hsize, rfl, rfl⟩
  · rintro s s' ⟨hs, hcs, hsz⟩ hstep
    obtain ⟨hs', hcs', hsz'⟩ := hs.step hstep
    exact ⟨hs', hcs'.trans hcs, hsz'.trans hsz⟩

/-- **Conservation.** In every run of a pool of less than `2^31` objects whose caches are not of one
object, every populated object is in exactly one place. -/
theorem pool_conserves {start : Pool Obj} (hstart : Start start) (hsize : start.mp.size < 2 ^ 31)
    (hcache : start.mp.cacheSize ≠ 1) {fuel : Nat}
    (h : Reach (· = start) (PoolStep (fuel + 1)) s) : Conserves (fuel + 1) s := by
  obtain ⟨hinv, hcs, -⟩ := poolInv_of_reach hstart hsize h
  exact hinv.conserves (hcs ▸ hcache) fuel

/-- A pool for three objects with caches of two. -/
def few : Pool Nat := ⟨small, 0, fun _ => 0, fun _ => none⟩

theorem start_few : Start few where
  size_lt := by decide
  cacheSize_le := by decide
  flushthresh_le := by decide
  caches := created_small.caches
  ring := ⟨⟨true, none⟩, small.poolData, "p", small, rfl⟩
  populated := rfl
  hands := rfl
  again := rfl

/-- Caller 0 gets an object through its cache. -/
def fewGet (mp : RteMempool Nat) : Option (RteMempool Nat × (Nat → Nat) × Int) :=
  match mempoolGetAttempt 1 mp (fun _ => 0) 1 (rteMempoolDefaultCache mp 0) with
  | some (.done mp' cache' objTable ret) => some (mp'.setCache 0 cache', objTable, ret)
  | _ => none

theorem fewGet_step {s : Pool Nat} (hagain : s.again 0 = none) {d : RteMempool Nat × (Nat → Nat) × Int}
    (h : fewGet s.mp = some d) : PoolStep 1 s { s with mp := d.1, hands := s.handOut 0 d.2.1 1 d.2.2 } := by
  unfold fewGet at h
  split at h
  · rename_i hcode
    cases h
    exact .get hagain (Nat.le_refl 1) hcode
  · cases h

/-- The pool is populated, and caller 0 gets two objects and puts the second of them back. -/
def fewRun : Option (RteMempool Nat × (Nat → Nat) × Int × Int) := do
  let a ← opsEnqueueBulk 1 small (fun _ => 64) 1
  let b ← opsEnqueueBulk 1 a.1 (fun _ => 128) 1
  let c ← opsEnqueueBulk 1 b.1 (fun _ => 192) 1
  let d ← fewGet c.1
  let e ← fewGet d.1
  let mp ← rteMempoolPutBulk 1 e.1 0 e.2.1 1
  return (mp, d.2.1, d.2.2, e.2.2)

theorem fewRun_values : fewRun.map (fun r => (r.2.1 0, r.2.2.1, r.2.2.2, (r.1.localCache 0).len)) =
    some (192, 0, 0, 2) := by
  decide +kernel

theorem exists_fewRun : ∃ s, Reach (· = few) (PoolStep 1) s ∧ s.populated = 0 + {64} + {128} + {192} ∧
    s.hands 0 = {192} ∧ (s.mp.localCache 0).len = 2 := by
  obtain ⟨⟨mp, t, ret, ret'⟩, hrun, hvalues⟩ := Option.map_eq_some_iff.1 fewRun_values
  simp only [Prod.mk.injEq] at hvalues
  obtain ⟨hobj, rfl, rfl, hlen⟩ := hvalues
  unfold fewRun at hrun
  simp only [Option.bind_eq_bind, Option.bind_eq_some_iff] at hrun
  obtain ⟨a, ha, b, hb, c, hc, d, hd, e, he, mp', hput, hret⟩ := hrun
  have hsize : ∀ {s}, Reach (· = few) (PoolStep 1) s → s.mp.size = 3 := fun h =>
    (poolInv_of_reach start_few (by decide) h).2.2
  -- the pool is populated
  have h₁ : Reach (· = few) (PoolStep 1) { few with mp := a.1, populated := 0 + {64} } :=
    .next (.start rfl) (.add (Multiset.notMem_zero 64) (by decide) ha)
  have h₂ := h₁.next (.add (show 128 ∉ (0 + {64} : Multiset Nat) by decide)
    ((show (0 + {64} : Multiset Nat).card < 3 by decide).trans_eq (hsize h₁).symm) hb)
  have h₃ := h₂.next (.add (show 192 ∉ (0 + {64} + {128} : Multiset Nat) by decide)
    ((show (0 + {64} + {128} : Multiset Nat).card < 3 by decide).trans_eq (hsize h₂).symm) hc)
  -- two objects are got, and the second is put back
  have h₄ := h₃.next (fewGet_step rfl hd)
  have h₅ := h₄.next (fewGet_step rfl he)
  simp only [pure, Option.some.injEq, Prod.mk.injEq] at hret
  obtain ⟨rfl, rfl, hret, hret'⟩ := hret
  have hheld : (Pool.handOut { few with mp := d.1, hands := few.handOut 0 d.2.1 1 d.2.2 } 0 e.2.1 1 e.2.2) 0 =
      tableObjs e.2.1 1 + {192} := by
    rw [hret, hret', Pool.handOut, if_pos rfl, Function.update_self, add_comm, Pool.handOut, if_pos rfl]
    dsimp only
    rw [Function.update_self, ← hobj]
    rfl
  refine ⟨_, h₅.next (.put rfl (Nat.le_refl 1) hheld hput), rfl, ?_, hlen⟩
  dsimp only
  rw [Function.update_self]

/-- The pool is populated, and caller 0 has put one of its two objects back. -/
theorem pool_conserves_few : ∃ s, Reach (· = few) (PoolStep 1) s ∧ s.populated = 0 + {64} + {128} + {192} ∧
    s.hands 0 = {192} ∧ Conserves 1 s := by
  obtain ⟨s, hreach, hpop, hhands, -⟩ := exists_fewRun
  exact ⟨s, hreach, hpop, hhands, pool_conserves start_few (by decide) (by decide) hreach⟩

/-- A pool of `2^31` objects without caches, and its ring of no slots. -/
def hugeMempool (prod cons : Nat) (slots : Nat → Nat) : RteMempool Nat :=
  ⟨2 ^ 31, 0, false, false, ⟨0, 2 ^ 32 - 1, 2 ^ 32 - 1, ⟨prod, prod⟩, ⟨cons, cons⟩, slots⟩,
    fun _ => ⟨0, 0, 0, fun _ => 0⟩⟩

def huge : Pool Nat := ⟨hugeMempool 0 0 fun _ => 0, 0, fun _ => 0, fun _ => none⟩

theorem start_huge : Start huge where
  size_lt := by decide
  cacheSize_le := by decide
  flushthresh_le := by decide
  caches := fun h => absurd rfl h
  ring := ⟨⟨true, none⟩, huge.mp.poolData, "p", huge.mp, rfl⟩
  populated := rfl
  hands := rfl
  again := rfl

theorem hugeMempool_enqueue (prod : Nat) (hprod : prod < 2) (slots : Nat → Nat) (obj : Nat) :
    opsEnqueueBulk 1 (hugeMempool prod 0 slots) (fun _ => obj) 1 =
      some (hugeMempool (prod + 1) 0 (Function.update slots 0 obj), 0) := by
  interval_cases prod <;>
    simp [opsEnqueueBulk, doEnqueue, moveProdHead, hugeMempool, clip, enqueuePtrs, copy, updateTail, Word.add,
      Word.sub]

theorem hugeMempool_get (cons : Nat) (hcons : cons < 2) (slots : Nat → Nat) :
    mempoolGetAttempt 1 (hugeMempool 2 cons slots) (fun _ => 0) 1 none =
      some (.done (hugeMempool 2 (cons + 1) slots) none (Function.update (fun _ => 0) 0 (slots 0)) 0) := by
  interval_cases cons <;>
    simp [mempoolGetAttempt, opsDequeueBulk, doDequeue, moveConsHead, hugeMempool, clip, dequeuePtrs, copy,
      updateTail, Word.add, Word.sub]

/-- The slots after objects 1 and 2 were added: both went to slot 0. -/
def hugeSlots : Nat → Nat := Function.update (Function.update (fun _ => 0) 0 1) 0 2

/-- The pool with its two objects, after `cons` gets. -/
def hugePopulated (cons : Nat) (hands : Nat → Multiset Nat) : Pool Nat :=
  ⟨hugeMempool 2 cons hugeSlots, 0 + {1} + {2}, hands, fun _ => none⟩

theorem hugePopulated_get (caller cons : Nat) (hcons : cons < 2) (hands : Nat → Multiset Nat) :
    PoolStep 1 (hugePopulated cons hands)
      (hugePopulated (cons + 1) (Function.update hands caller (hands caller + {2}))) := by
  have hcode := hugeMempool_get cons hcons hugeSlots
  exact @PoolStep.get Nat 1 (hugePopulated cons hands) caller 1 _ _ _ none 0 rfl le_rfl hcode

theorem reach_huge : Reach (· = huge) (PoolStep 1) (hugePopulated 0 fun _ => 0) := by
  have hfirst : PoolStep 1 huge ⟨hugeMempool 1 0 (Function.update (fun _ => 0) 0 1), 0 + {1},
      fun _ => 0, fun _ => none⟩ :=
    .add (Multiset.notMem_zero 1) (by decide) (hugeMempool_enqueue 0 (by decide) (fun _ => 0) 1)
  refine .next (.next (.start rfl) hfirst) ?_
  exact .add (by decide) (by decide) (hugeMempool_enqueue 1 (by decide) _ 2)

/-- From `2^31` objects on a pool may hand out the same object twice. -/
theorem not_pool_conserves : ∃ start s : Pool Nat, Start start ∧ Reach (· = start) (PoolStep 1) s ∧
    2 ∈ s.hands 0 ∧ 2 ∈ s.hands 1 ∧ ¬Conserves 1 s := by
  have hreach := ((reach_huge.next (hugePopulated_get 0 0 (by decide) _)).next
    (hugePopulated_get 1 1 (by decide) _))
  refine ⟨huge, _, start_huge, hreach, by decide, by decide, fun h => ?_⟩
  obtain ⟨place, -, huniq⟩ := h.one_place 2 (by decide)
  have h0 := huniq (.hands 0) (show 2 ∈ Pool.part _ _ by decide)
  have h1 := huniq (.hands 1) (show 2 ∈ Pool.part _ _ by decide)
  exact absurd (h0.trans h1.symm) (by decide)

end Mempool
