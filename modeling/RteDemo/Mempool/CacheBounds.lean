import RteDemo.Mempool.Cache

/-!
# The bounds of a per-lcore cache

`__mempool_generic_put` and `__mempool_generic_get` once more, entry by entry (`putTrace`, `getTrace`):
every read and write of `cache->objs` and every unsigned subtraction whose result is used is logged as
it is made. Without the log they are the code (`mempoolGenericPut_trace`, `mempoolGenericGet_trace`).
The ring operations in between may have any outcome.

The fill stays at or below the flush threshold between calls (`Bounded`), and while a call runs the
three limits together keep every index inside the array.
-/

namespace Mempool

open RteDemo Ring

variable {Obj : Type}

/-! ## Logged accesses -/

/-- One access to `cache->objs`, or one unsigned subtraction. -/
inductive Access
  | write (index : Nat)
  /-- A read while the cache holds `fill` objects. -/
  | read (index fill : Nat)
  | sub (a b : Nat)
  deriving DecidableEq

/-- The size of `cache->objs` -/
def cacheObjsLen : Nat := rteMempoolCacheMaxSize * 3

def Access.Safe : Access → Prop
  | write index => index < cacheObjsLen
  | read index fill => index < cacheObjsLen ∧ index < fill
  | sub a b => b ≤ a

/-- A value with the accesses on the way to it. -/
structure Logged (β : Type) where
  val : β
  log : List Access

instance : Monad Logged where
  pure b := ⟨b, []⟩
  bind x f := ⟨(f x.val).val, x.log ++ (f x.val).log⟩

namespace Logged

variable {β γ : Type}

/-- All accesses are safe. -/
def Safe (x : Logged β) : Prop := ∀ a ∈ x.log, a.Safe

@[simp] theorem val_pure (b : β) : (pure b : Logged β).val = b := rfl

@[simp] theorem val_bind (x : Logged β) (f : β → Logged γ) : (x >>= f).val = (f x.val).val := rfl

theorem Safe.pure (b : β) : (Pure.pure b : Logged β).Safe := fun _ ha => absurd ha List.not_mem_nil

theorem Safe.bind {x : Logged β} {f : β → Logged γ} (hx : x.Safe) (hf : (f x.val).Safe) : (x >>= f).Safe :=
  fun a ha => (List.mem_append.mp ha).elim (hx a) (hf a)

end Logged

/-- `objs[index]`, while the cache holds `fill` objects. -/
def readObj (objs : Nat → Obj) (fill index : Nat) : Logged Obj := ⟨objs index, [.read index fill]⟩

/-- `objs[index] = obj` -/
def writeObj (objs : Nat → Obj) (index : Nat) (obj : Obj) : Logged (Nat → Obj) :=
  ⟨Function.update objs index obj, [.write index]⟩

/-- `a - b` -/
def subtract (a b : Nat) : Logged Nat := ⟨Word.sub 32 a b, [.sub a b]⟩

/-- `n` objects of `src` are written from `objs[off]` on. -/
def writeObjs (objs : Nat → Obj) (off : Nat) (src : Nat → Obj) : Nat → Logged (Nat → Obj)
  | 0 => pure objs
  | n + 1 => do
    let objs ← writeObjs objs off src n
    writeObj objs (off + n) (src n)

/-- `n` objects are read from `objs[off]` on, into a table. -/
def readObjs (objs : Nat → Obj) (fill off : Nat) (table : Nat → Obj) : Nat → Logged (Nat → Obj)
  | 0 => pure table
  | n + 1 => do
    let table ← readObjs objs fill off table n
    let obj ← readObj objs fill (off + n)
    pure (Function.update table n obj)

/-! ## The code -/

/-- `__mempool_generic_put` with a cache: what the ring is handed, and the cache. -/
def putTrace (cache : RteMempoolCache Obj) (objTable : Nat → Obj) (n : Nat) :
    Logged (Option ((Nat → Obj) × Nat) × RteMempoolCache Obj) :=
  if n > rteMempoolCacheMaxSize then pure (some (objTable, n), cache)
  else do
    let objs ← writeObjs cache.objs cache.len objTable n
    let len := Word.add 32 cache.len n
    if len ≥ cache.flushthresh then
      let k ← subtract len cache.size
      -- the ring reads what is above the size of the cache
      let table ← readObjs objs len cache.size objTable k
      pure (some (table, k), { cache with objs := objs, len := cache.size })
    else pure (none, { cache with objs := objs, len := len })

/-- The loop that takes `n` objects off, from `cache_objs[len]` downwards. The last decrement is not
used. -/
def fillTrace (cacheObjs : Nat → Obj) (fill : Nat) (objTable : Nat → Obj) (index len : Nat) :
    Nat → Logged (Nat → Obj)
  | 0 => pure objTable
  | 1 => do
    let obj ← readObj cacheObjs fill len
    pure (Function.update objTable index obj)
  | n + 2 => do
    let obj ← readObj cacheObjs fill len
    let len' ← subtract len 1
    fillTrace cacheObjs fill (Function.update objTable index obj) (index + 1) len' (n + 1)

section

variable {σ : Type} (dequeue : σ → (Nat → Obj) → Nat → Option (σ × (Nat → Obj) × Int))

/-- The response from the cache. -/
def respondTrace (s : σ) (cache : RteMempoolCache Obj) (objTable : Nat → Obj) (n : Nat) :
    Logged (Option (σ × RteMempoolCache Obj × (Nat → Obj) × Int)) := do
  let len ← subtract cache.len 1
  let objTable ← fillTrace cache.objs cache.len objTable 0 len n
  let rest ← subtract cache.len n
  pure (some (s, { cache with len := rest }, objTable, 0))

/-- `ring_dequeue:` -/
def ringDequeue (s : σ) (cache : RteMempoolCache Obj) (objTable : Nat → Obj) (n : Nat) :
    Option (σ × RteMempoolCache Obj × (Nat → Obj) × Int) :=
  (dequeue s objTable n).map fun res => (res.1, cache, res.2)

/-- The ring is asked for `req` objects, to fill the cache. -/
def refillTrace (s : σ) (cache : RteMempoolCache Obj) (objTable : Nat → Obj) (n req : Nat) :
    Logged (Option (σ × RteMempoolCache Obj × (Nat → Obj) × Int)) :=
  match dequeue s (tableFrom cache.objs cache.len) req with
  | none => pure none
  | some (s, table, ret) => do
    -- the ring may write to what it is handed in either case
    let objs ← writeObjs cache.objs cache.len table req
    if ret < 0 then pure (ringDequeue dequeue s { cache with objs := objs } objTable n)
    else respondTrace s { cache with objs := objs, len := Word.add 32 cache.len req } objTable n

/-- `__mempool_generic_get` with a cache, over any ring. -/
def getTrace (s : σ) (cache : RteMempoolCache Obj) (objTable : Nat → Obj) (n : Nat) :
    Logged (Option (σ × RteMempoolCache Obj × (Nat → Obj) × Int)) :=
  if n ≥ cache.size then pure (ringDequeue dequeue s cache objTable n)
  else if cache.len < n then do
    let room ← subtract cache.size cache.len
    refillTrace dequeue s cache objTable n (Word.add 32 n room)
  else respondTrace s cache objTable n

end

/-! ## Without the log it is the code -/

theorem writeObjs_val (objs : Nat → Obj) (off : Nat) (src : Nat → Obj) (n : Nat) :
    (writeObjs objs off src n).val = memcpyObjs objs off src n := by
  funext i
  induction n with
  | zero => rw [memcpyObjs, if_neg (by omega)]; rfl
  | succ n ih =>
    change Function.update (writeObjs objs off src n).val (off + n) (src n) i = _
    by_cases hi : i = off + n
    · subst hi
      rw [Function.update_self, memcpyObjs, if_pos (by omega), Nat.add_sub_cancel_left]
    · rw [Function.update_of_ne hi, ih, memcpyObjs, memcpyObjs]
      split_ifs <;> first | rfl | omega

theorem readObjs_val (objs : Nat → Obj) (fill off : Nat) (table : Nat → Obj) {n i : Nat} (hi : i < n) :
    (readObjs objs fill off table n).val i = objs (off + i) := by
  induction n with
  | zero => omega
  | succ n ih =>
    change Function.update (readObjs objs fill off table n).val n (objs (off + n)) i = _
    by_cases hin : i = n
    · rw [hin, Function.update_self]
    · rw [Function.update_of_ne hin, ih (by omega)]

theorem fillTrace_val (cacheObjs : Nat → Obj) (fill : Nat) : ∀ (n : Nat) (objTable : Nat → Obj) (index len : Nat),
    (fillTrace cacheObjs fill objTable index len n).val = Mempool.fill cacheObjs objTable index len n
  | 0, _, _, _ => rfl
  | 1, _, _, _ => rfl
  | n + 2, objTable, index, len => by
    rw [fillTrace, Logged.val_bind, Logged.val_bind, fillTrace_val cacheObjs fill (n + 1), Mempool.fill]
    rfl

/-- An enqueue reads `n` entries of its table. -/
theorem enqueuePtrs_congr {r : RteRing Obj} {k : Nat} (hv : Valid r k) (head : Nat) {t t' : Nat → Obj} {n : Nat}
    (hn : n < 2 ^ 31) (h : ∀ i < n, t i = t' i) : enqueuePtrs r head t n = enqueuePtrs r head t' n := by
  have hcopy : ∀ (dst : Nat → Obj) (s d k : Nat), s + k ≤ n → copy t dst s d k = copy t' dst s d k := by
    intro dst s d k hk
    funext x
    rw [copy_apply, copy_apply]
    split_ifs
    · exact h _ (by omega)
    · rfl
  have hpow := hv.pow_le
  have hpos := Nat.two_pow_pos k
  have hidx : head &&& r.mask ≤ r.mask := Nat.and_le_right
  rw [hv.mask] at hidx
  rw [enqueuePtrs, enqueuePtrs, hv.mask, hv.size, Word.add_eq (by omega)]
  simp only
  split_ifs with hfit
  · have hall := fun t : Nat → Obj => copy_unrolled t r.slots 0 (head &&& 2 ^ k - 1) (show n < 2 ^ 32 by omega)
    simp only [Nat.zero_add] at hall
    rw [hall, hall]
    exact hcopy _ _ _ _ (by omega)
  · rw [hcopy _ 0 _ _ (by omega), hcopy _ _ _ _ (by omega)]

section

variable {mp : RteMempool Obj}

theorem opsEnqueueBulk_congr (h : IsQueue mp.poolData) (fuel : Nat) {t t' : Nat → Obj} {n : Nat}
    (ht : ∀ i < n, t i = t' i) : opsEnqueueBulk (fuel + 1) mp t n = opsEnqueueBulk (fuel + 1) mp t' n := by
  obtain ⟨cap, q, hq⟩ := h
  have htail : mp.poolData.prod.tail = mp.poolData.prod.head := by
    obtain ⟨base, -, hp, -⟩ := hq.place
    rw [hp]
  have hcap := hq.cap_lt
  obtain ⟨k, hv⟩ := hq.valid
  have hle : clip .fixed n q.room ≤ n ∧ clip .fixed n q.room ≤ q.room := by
    rw [show clip .fixed n q.room = if n > q.room then 0 else n from rfl]
    split_ifs <;> omega
  have hroom : q.room ≤ cap := Nat.sub_le _ _
  rw [opsEnqueueBulk, opsEnqueueBulk, doEnqueue_eq fuel t n .fixed mp.spPut htail hq.freeEntries,
    doEnqueue_eq fuel t' n .fixed mp.spPut htail hq.freeEntries, RteRing.enqueued, RteRing.enqueued,
    enqueuePtrs_congr hv _ (by omega) fun i hi => ht i (by omega)]

/-- A dequeue writes to `n` entries of its table, and to none if it fails. -/
theorem opsDequeueBulk_table (h : IsQueue mp.poolData) (fuel : Nat) (t : Nat → Obj) (n : Nat) : ∃ mp' t' ret,
    opsDequeueBulk (fuel + 1) mp t n = some (mp', t', ret) ∧ (∀ i, n ≤ i → t' i = t i) ∧
      (ret < 0 → mp' = mp ∧ t' = t) := by
  obtain ⟨cap, q, hq⟩ := h
  have htail : mp.poolData.cons.tail = mp.poolData.cons.head := by
    obtain ⟨base, hc, -⟩ := hq.place
    rw [hc]
  rw [opsDequeueBulk, doDequeue_eq fuel t n .fixed mp.scGet htail hq.entries]
  by_cases h0 : clip .fixed n q.length = 0
  · rw [h0]
    exact ⟨mp, t, -enobufs, rfl, fun _ _ => rfl, fun _ => ⟨rfl, rfl⟩⟩
  · have hle : clip .fixed n q.length ≤ n := by
      rw [show clip .fixed n q.length = if n > q.length then 0 else n from rfl]
      split_ifs <;> omega
    have htaken : dequeuePtrs mp.poolData mp.poolData.cons.head t (clip .fixed n q.length) =
        q.taken .fixed n t := by
      rw [clip_eq]
      exact hq.taken t _ n
    refine ⟨{ mp with poolData := mp.poolData.dequeued (clip .fixed n q.length) },
      dequeuePtrs mp.poolData mp.poolData.cons.head t (clip .fixed n q.length), 0, ?_, fun i hi => ?_,
      fun hneg => absurd hneg (by decide)⟩
    · rw [if_neg h0, if_neg h0]
      simp only [Option.bind_eq_bind, Option.bind_some, if_neg h0]
    · rw [htaken, BoundedQueue.taken, if_neg]
      have hpop : q.popped .fixed n = clip .fixed n q.length := by rw [clip_eq]; rfl
      omega

/-- The put of the pool is `putTrace` without its log; what comes back from the ring is ignored. -/
theorem mempoolGenericPut_trace (h : IsQueue mp.poolData) (fuel : Nat) (cache : RteMempoolCache Obj)
    (objTable : Nat → Obj) (n : Nat) :
    mempoolGenericPut (fuel + 1) mp objTable n (some cache) =
      (match (putTrace cache objTable n).val.1 with
        | some (table, k) => (opsEnqueueBulk (fuel + 1) mp table k).map Prod.fst
        | none => some mp).map fun mp => (mp, some (putTrace cache objTable n).val.2) := by
  rw [mempoolGenericPut, putTrace]
  by_cases hn : n > rteMempoolCacheMaxSize
  · rw [if_pos hn, if_pos hn]
    simp only [Logged.val_pure, Option.map_map]
    rfl
  · rw [if_neg hn, if_neg hn]
    simp only [Logged.val_bind, writeObjs_val]
    by_cases hflush : Word.add 32 cache.len n ≥ cache.flushthresh
    · simp only [if_pos hflush, Logged.val_bind, Logged.val_pure, subtract]
      have hcongr := @opsEnqueueBulk_congr _ _ h fuel _
        (tableFrom (memcpyObjs cache.objs cache.len objTable n) cache.size)
        (Word.sub 32 (Word.add 32 cache.len n) cache.size) fun i hi =>
          readObjs_val (memcpyObjs cache.objs cache.len objTable n) (Word.add 32 cache.len n) cache.size objTable hi
      rw [hcongr, Option.map_map]
      rfl
    · simp only [if_neg hflush, Logged.val_pure, Option.map_some]

theorem respondTrace_val {σ : Type} (s : σ) (cache : RteMempoolCache Obj) (objTable : Nat → Obj) (n : Nat) :
    (respondTrace s cache objTable n).val = some (s, { cache with len := Word.sub 32 cache.len n },
      fill cache.objs objTable 0 (Word.sub 32 cache.len 1) n, 0) := by
  simp only [respondTrace, Logged.val_bind, Logged.val_pure, fillTrace_val, subtract]

theorem memcpyObjs_tableFrom (objs : Nat → Obj) (off n : Nat) :
    memcpyObjs objs off (tableFrom objs off) n = objs := by
  funext i
  rw [memcpyObjs, tableFrom]
  split_ifs with hi
  · rw [Nat.add_sub_cancel' hi.1]
  · rfl

/-- The get of the pool is `getTrace` over its ring, without the log. -/
theorem mempoolGenericGet_trace (h : IsQueue mp.poolData) (fuel : Nat) (cache : RteMempoolCache Obj)
    (objTable : Nat → Obj) (n : Nat) :
    mempoolGenericGet (fuel + 1) mp objTable n (some cache) =
      (getTrace (opsDequeueBulk (fuel + 1)) mp cache objTable n).val.map fun res =>
        (res.1, some res.2.1, res.2.2) := by
  rw [mempoolGenericGet, getTrace]
  simp only
  by_cases hn : n ≥ cache.size
  · rw [if_pos hn, if_pos hn]
    simp only [Logged.val_pure, ringDequeue, Option.map_map]
    rfl
  rw [if_neg hn, if_neg hn]
  by_cases hlen : cache.len < n
  · rw [if_pos hlen, if_pos hlen, Logged.val_bind, subtract]
    simp only
    obtain ⟨mp', t', ret, hcode, hrest, hfail⟩ := opsDequeueBulk_table h fuel (tableFrom cache.objs cache.len)
      (Word.add 32 n (Word.sub 32 cache.size cache.len))
    rw [refillTrace, hcode, Option.bind_some]
    simp only [Logged.val_bind, writeObjs_val]
    by_cases hret : ret < 0
    · obtain ⟨rfl, rfl⟩ := hfail hret
      rw [if_pos hret, if_pos hret, memcpyObjs_tableFrom]
      simp only [Logged.val_pure, ringDequeue, Option.map_map]
      rfl
    · have hsplice : splice cache.objs cache.len t' = memcpyObjs cache.objs cache.len t'
          (Word.add 32 n (Word.sub 32 cache.size cache.len)) := by
        funext i
        rw [splice, memcpyObjs]
        split_ifs with hlt hin hin
        · omega
        · rfl
        · rfl
        · rw [hrest _ (by omega), tableFrom, Nat.add_sub_cancel' (by omega)]
      rw [if_neg hret, if_neg hret, respondTrace_val, hsplice]
      rfl
  · rw [if_neg hlen, if_neg hlen, respondTrace_val]
    rfl

end

/-! ## Calls -/

/-- A put or a get of `n ≥ 1` objects, with its accesses and the cache after it; a get has none if a call of
the ring does not return. -/
inductive CacheCall (cache : RteMempoolCache Obj) : List Access → Option (RteMempoolCache Obj) → Prop
  | put {n : Nat} (objTable : Nat → Obj) : 1 ≤ n → n < 2 ^ 32 →
      CacheCall cache (putTrace cache objTable n).log (some (putTrace cache objTable n).val.2)
  | get {σ : Type} {n : Nat} (dequeue : σ → (Nat → Obj) → Nat → Option (σ × (Nat → Obj) × Int)) (s : σ)
      (objTable : Nat → Obj) : 1 ≤ n → n < 2 ^ 32 →
      CacheCall cache (getTrace dequeue s cache objTable n).log
        ((getTrace dequeue s cache objTable n).val.map fun res => res.2.1)

/-- The states of a cache of `size` objects. -/
def CacheRun (size : Nat) : RteMempoolCache Obj → Prop :=
  Reach (fun cache => ∃ raw, cache = mempoolCacheInit raw size)
    fun cache cache' => ∃ accesses, CacheCall cache accesses (some cache')

/-- What holds between calls. -/
structure Bounded (size : Nat) (cache : RteMempoolCache Obj) : Prop where
  flushthresh : cache.flushthresh = calcCacheFlushthresh size
  size : cache.size = size
  len : cache.len ≤ cache.flushthresh

theorem subtract_safe {a b : Nat} (h : b ≤ a) : (subtract a b).Safe := fun x hx => by
  rw [List.mem_singleton.mp hx]
  exact h

theorem readObj_safe (objs : Nat → Obj) {fill index : Nat} (hi : index < fill) (hfill : fill ≤ cacheObjsLen) :
    (readObj objs fill index).Safe := fun x hx => by
  rw [List.mem_singleton.mp hx]
  exact ⟨hi.trans_le hfill, hi⟩

theorem writeObjs_safe (objs src : Nat → Obj) {off n : Nat} (h : off + n ≤ cacheObjsLen) :
    (writeObjs objs off src n).Safe := by
  induction n with
  | zero => exact Logged.Safe.pure objs
  | succ n ih =>
    refine Logged.Safe.bind (ih (by omega)) fun x hx => ?_
    rw [List.mem_singleton.mp hx]
    exact Nat.lt_of_succ_le h

theorem readObjs_safe (objs table : Nat → Obj) {fill off n : Nat} (h : off + n ≤ fill)
    (hfill : fill ≤ cacheObjsLen) : (readObjs objs fill off table n).Safe := by
  induction n with
  | zero => exact Logged.Safe.pure table
  | succ n ih =>
    exact Logged.Safe.bind (ih (by omega)) (Logged.Safe.bind (readObj_safe objs (by omega) hfill)
      (Logged.Safe.pure _))

theorem fillTrace_safe (cacheObjs : Nat → Obj) {fill : Nat} (hfill : fill ≤ cacheObjsLen) :
    ∀ {n len : Nat} (objTable : Nat → Obj) (index : Nat), len < fill → n ≤ len + 1 →
      (fillTrace cacheObjs fill objTable index len n).Safe
  | 0, _, objTable, _, _, _ => Logged.Safe.pure objTable
  | 1, _, _, _, hlen, _ => Logged.Safe.bind (readObj_safe cacheObjs hlen hfill) (Logged.Safe.pure _)
  | n + 2, len, objTable, index, hlen, hn => by
    have hmax : cacheObjsLen = 1536 := rfl
    have hsub : Word.sub 32 len 1 = len - 1 := Word.sub_eq (by omega) (by omega)
    refine Logged.Safe.bind (readObj_safe cacheObjs hlen hfill) (Logged.Safe.bind (subtract_safe (by omega)) ?_)
    exact fillTrace_safe cacheObjs hfill _ _ (show Word.sub 32 len 1 < fill by omega)
      (show n + 1 ≤ Word.sub 32 len 1 + 1 by omega)

section

variable {size : Nat} {cache : RteMempoolCache Obj}

/-- The threshold lies between the size and one and a half times the greatest size. -/
theorem flushthresh_bounds (hsize : size ≤ rteMempoolCacheMaxSize) :
    size ≤ calcCacheFlushthresh size ∧ calcCacheFlushthresh size ≤ 768 := by
  have hmax : rteMempoolCacheMaxSize = 512 := rfl
  unfold calcCacheFlushthresh
  omega

theorem Bounded.init (raw : RteMempoolCache Obj) (size : Nat) : Bounded size (mempoolCacheInit raw size) :=
  ⟨rfl, rfl, Nat.zero_le _⟩

/-- **Put** keeps the bounds, and is safe. -/
theorem Bounded.put (h : Bounded size cache) (hsize : size ≤ rteMempoolCacheMaxSize) (objTable : Nat → Obj)
    (n : Nat) : Bounded size (putTrace cache objTable n).val.2 ∧ (putTrace cache objTable n).Safe := by
  obtain ⟨hle, hmax⟩ := flushthresh_bounds hsize
  have hcap : rteMempoolCacheMaxSize = 512 := rfl
  have hobjs : cacheObjsLen = 1536 := rfl
  have hlen := h.len
  have hs := h.size
  rw [h.flushthresh] at hlen
  rw [putTrace]
  by_cases hn : n > rteMempoolCacheMaxSize
  · rw [if_pos hn]
    exact ⟨h, Logged.Safe.pure _⟩
  rw [if_neg hn]
  have hadd : Word.add 32 cache.len n = cache.len + n := Word.add_eq (by omega)
  have hwrite := writeObjs_safe cache.objs objTable (show cache.len + n ≤ cacheObjsLen by omega)
  by_cases hflush : cache.len + n ≥ cache.flushthresh
  · have hge : cache.size ≤ cache.len + n := by
      rw [h.flushthresh] at hflush
      omega
    have hsub : Word.sub 32 (cache.len + n) cache.size = cache.len + n - cache.size := Word.sub_eq hge (by omega)
    simp only [hadd, if_pos hflush]
    refine ⟨⟨h.flushthresh, h.size, ?_⟩, Logged.Safe.bind hwrite (Logged.Safe.bind (subtract_safe hge)
      (Logged.Safe.bind (readObjs_safe _ _ ?_ ?_) (Logged.Safe.pure _)))⟩
    · exact show cache.size ≤ cache.flushthresh by rw [h.flushthresh, h.size]; exact hle
    · exact show cache.size + Word.sub 32 (cache.len + n) cache.size ≤ cache.len + n by omega
    · omega
  · simp only [hadd, if_neg hflush]
    exact ⟨⟨h.flushthresh, h.size, show cache.len + n ≤ cache.flushthresh by omega⟩,
      Logged.Safe.bind hwrite (Logged.Safe.pure _)⟩

/-- What a refill leads to. -/
theorem refill_eq (h : Bounded size cache) (hsize : size ≤ rteMempoolCacheMaxSize) {n : Nat}
    (hn : n < cache.size) (hlen : cache.len < n) :
    Word.add 32 n (Word.sub 32 cache.size cache.len) = n + (cache.size - cache.len) ∧
      Word.add 32 cache.len (n + (cache.size - cache.len)) = cache.size + n := by
  have hmax : rteMempoolCacheMaxSize = 512 := rfl
  have hs := h.size
  exact ⟨req_eq (by omega) hn hlen, by rw [Word.add_eq (by omega)]; omega⟩

theorem respondTrace_safe {σ : Type} (s : σ) (objTable : Nat → Obj) {n : Nat} (hn : 1 ≤ n) (hle : n ≤ cache.len)
    (hlen : cache.len ≤ cacheObjsLen) : (respondTrace s cache objTable n).Safe := by
  have hmax : cacheObjsLen = 1536 := rfl
  have hsub : Word.sub 32 cache.len 1 = cache.len - 1 := Word.sub_eq (by omega) (by omega)
  refine Logged.Safe.bind (subtract_safe (by omega)) (Logged.Safe.bind ?_
    (Logged.Safe.bind (subtract_safe hle) (Logged.Safe.pure _)))
  exact fillTrace_safe cache.objs hlen objTable 0 (show Word.sub 32 cache.len 1 < cache.len by omega)
    (show n ≤ Word.sub 32 cache.len 1 + 1 by omega)

theorem Bounded.ringDequeue (h : Bounded size cache) {σ : Type}
    (dequeue : σ → (Nat → Obj) → Nat → Option (σ × (Nat → Obj) × Int)) (s : σ) (objTable : Nat → Obj) (n : Nat) :
    ∀ res ∈ ringDequeue dequeue s cache objTable n, Bounded size res.2.1 := by
  intro res hres
  obtain ⟨res', -, rfl⟩ := Option.mem_map.mp hres
  exact h

/-- The response leaves `n` objects less. -/
theorem bounded_respond {σ : Type} (s : σ) (objTable : Nat → Obj) {n : Nat} (hn : n ≤ cache.len)
    (hlen : cache.len < 2 ^ 32) (hflush : cache.flushthresh = calcCacheFlushthresh size) (hsz : cache.size = size)
    (hrest : cache.len - n ≤ calcCacheFlushthresh size) :
    ∀ res ∈ (respondTrace s cache objTable n).val, Bounded size res.2.1 := by
  intro res hres
  rw [respondTrace_val, Option.mem_some_iff] at hres
  rw [← hres]
  refine ⟨hflush, hsz, ?_⟩
  simp only
  rw [Word.sub_eq hn hlen, hflush]
  exact hrest

/-- **Get** keeps the bounds, and is safe, whatever the ring answers. -/
theorem Bounded.get (h : Bounded size cache) (hsize : size ≤ rteMempoolCacheMaxSize) {σ : Type}
    (dequeue : σ → (Nat → Obj) → Nat → Option (σ × (Nat → Obj) × Int)) (s : σ) (objTable : Nat → Obj) {n : Nat}
    (hn1 : 1 ≤ n) :
    (∀ res ∈ (getTrace dequeue s cache objTable n).val, Bounded size res.2.1) ∧
      (getTrace dequeue s cache objTable n).Safe := by
  obtain ⟨hle, hmax⟩ := flushthresh_bounds hsize
  have hcap : rteMempoolCacheMaxSize = 512 := rfl
  have hobjs : cacheObjsLen = 1536 := rfl
  have hlen' := h.len
  have hs := h.size
  rw [h.flushthresh] at hlen'
  rw [getTrace]
  by_cases hn : n ≥ cache.size
  · rw [if_pos hn]
    exact ⟨h.ringDequeue dequeue s objTable n, Logged.Safe.pure _⟩
  rw [if_neg hn]
  by_cases hlen : cache.len < n
  · obtain ⟨hreq, hfull⟩ := refill_eq h hsize (by omega) hlen
    have hrefill : (∀ res ∈ (refillTrace dequeue s cache objTable n (n + (cache.size - cache.len))).val,
        Bounded size res.2.1) ∧ (refillTrace dequeue s cache objTable n (n + (cache.size - cache.len))).Safe := by
      rw [refillTrace]
      cases dequeue s (tableFrom cache.objs cache.len) (n + (cache.size - cache.len)) with
      | none => exact ⟨fun _ hres => absurd hres (Option.not_mem_none _), Logged.Safe.pure _⟩
      | some res =>
        obtain ⟨s', table, ret⟩ := res
        have hwrite := writeObjs_safe cache.objs table
          (show cache.len + (n + (cache.size - cache.len)) ≤ cacheObjsLen by omega)
        simp only [hfull]
        by_cases hret : ret < 0
        · simp only [if_pos hret]
          have hsame : Bounded size { cache with
              objs := (writeObjs cache.objs cache.len table (n + (cache.size - cache.len))).val } :=
            ⟨h.flushthresh, h.size, h.len⟩
          exact ⟨hsame.ringDequeue dequeue s' objTable n, Logged.Safe.bind hwrite (Logged.Safe.pure _)⟩
        · simp only [if_neg hret]
          exact ⟨bounded_respond s' objTable (Nat.le_add_left n _) (show cache.size + n < 2 ^ 32 by omega)
              h.flushthresh h.size (show cache.size + n - n ≤ calcCacheFlushthresh size by omega),
            Logged.Safe.bind hwrite (respondTrace_safe s' objTable hn1 (Nat.le_add_left n _)
              (show cache.size + n ≤ cacheObjsLen by omega))⟩
    rw [if_pos hlen]
    rw [← hreq] at hrefill
    exact ⟨hrefill.1, Logged.Safe.bind (subtract_safe (by omega)) hrefill.2⟩
  · rw [if_neg hlen]
    exact ⟨bounded_respond s objTable (by omega) (by omega) h.flushthresh hs (by omega),
      respondTrace_safe s objTable hn1 (by omega) (by omega)⟩

/-- **One call** keeps the bounds, and is safe. -/
theorem Bounded.call (h : Bounded size cache) (hsize : size ≤ rteMempoolCacheMaxSize)
    {accesses : List Access} {cache' : Option (RteMempoolCache Obj)} (hcall : CacheCall cache accesses cache') :
    (∀ c ∈ cache', Bounded size c) ∧ ∀ a ∈ accesses, a.Safe := by
  cases hcall with
  | @put n objTable _ _ =>
    obtain ⟨hb, hsafe⟩ := h.put hsize objTable n
    exact ⟨fun c hc => Option.mem_some_iff.mp hc ▸ hb, hsafe⟩
  | @get σ n dequeue s objTable hn _ =>
    obtain ⟨hb, hsafe⟩ := h.get hsize dequeue s objTable hn
    refine ⟨fun c hc => ?_, hsafe⟩
    obtain ⟨res, hres, rfl⟩ := Option.mem_map.mp hc
    exact hb res hres

theorem CacheRun.bounded (hsize : size ≤ rteMempoolCacheMaxSize) (h : CacheRun size cache) :
    Bounded size cache := by
  refine Reach.invariant (I := Bounded size) ?_ ?_ h
  · rintro cache ⟨raw, rfl⟩
    exact Bounded.init raw size
  · rintro cache cache' hb ⟨accesses, hcall⟩
    exact (hb.call hsize hcall).1 cache' rfl

end

/-! ## The audit -/

/-- `mempool_audit_cache`; `none` is the panic. -/
def mempoolAuditCache (mp : RteMempool Obj) : Option Unit :=
  if mp.cacheSize = 0 then some ()
  else if (List.range rteMaxLcore).any fun lcoreId =>
      (mp.localCache lcoreId).len > (mp.localCache lcoreId).flushthresh then none
  else some ()

theorem mempoolAuditCache_eq {mp : RteMempool Obj}
    (h : ∀ lcoreId, (mp.localCache lcoreId).len ≤ (mp.localCache lcoreId).flushthresh) :
    mempoolAuditCache mp = some () := by
  have hnone : ((List.range rteMaxLcore).any fun lcoreId =>
      (mp.localCache lcoreId).len > (mp.localCache lcoreId).flushthresh) = false := by
    refine List.any_eq_false.mpr fun lcoreId _ => ?_
    simpa using h lcoreId
  rw [mempoolAuditCache, hnone, if_neg Bool.false_ne_true, ite_self]

/-- **Per-core cache bounds.** In every run of puts and gets the audit does not panic and every call is
safe; and the calls of a pool over its own ring are these. -/
theorem cache_bounds {size : Nat} (hsize : size ≤ rteMempoolCacheMaxSize) :
    (∀ cache : RteMempoolCache Obj, CacheRun size cache → cache.len ≤ cache.flushthresh ∧
      ∀ accesses cache', CacheCall cache accesses cache' → ∀ a ∈ accesses, a.Safe) ∧
    (∀ mp : RteMempool Obj, (∀ lcoreId, CacheRun size (mp.localCache lcoreId)) →
      mempoolAuditCache mp = some ()) ∧
    ∀ (fuel : Nat) (mp : RteMempool Obj) (cache : RteMempoolCache Obj) (objTable : Nat → Obj) (n : Nat),
      IsQueue mp.poolData →
      mempoolGenericPut (fuel + 1) mp objTable n (some cache) =
        (match (putTrace cache objTable n).val.1 with
          | some (table, k) => (opsEnqueueBulk (fuel + 1) mp table k).map Prod.fst
          | none => some mp).map (fun mp => (mp, some (putTrace cache objTable n).val.2)) ∧
      mempoolGenericGet (fuel + 1) mp objTable n (some cache) =
        (getTrace (opsDequeueBulk (fuel + 1)) mp cache objTable n).val.map fun res =>
          (res.1, some res.2.1, res.2.2) := by
  have hlen : ∀ cache : RteMempoolCache Obj, CacheRun size cache → cache.len ≤ cache.flushthresh :=
    fun cache h => (h.bounded hsize).len
  refine ⟨fun cache h => ⟨hlen cache h, fun accesses cache' hcall => ?_⟩, fun mp h => ?_,
    fun fuel mp cache objTable n h =>
      ⟨mempoolGenericPut_trace h fuel cache objTable n, mempoolGenericGet_trace h fuel cache objTable n⟩⟩
  · exact ((h.bounded hsize).call hsize hcall).2
  · exact mempoolAuditCache_eq fun lcoreId => hlen _ (h lcoreId)

/-- A cache of two objects: a put of three flushes one of them, and a get takes the last of the others. -/
theorem cache_bounds_two :
    let cache := (putTrace (mempoolCacheInit ⟨0, 0, 0, fun _ => 0⟩ 2) (fun i => 7 + i) 3).val.2
    cache.len = 2 ∧ cache.len ≤ cache.flushthresh ∧
      (getTrace (fun s _ _ => some (s, fun _ => 0, -1)) () cache (fun _ => 0) 1).log =
        [.sub 2 1, .read 1 2, .sub 2 1] ∧
      ∀ a ∈ (getTrace (fun s _ _ => some (s, fun _ => 0, -1)) () cache (fun _ => 0) 1).log, a.Safe := by
  have hstart : CacheRun 2 (mempoolCacheInit (⟨0, 0, 0, fun _ => 0⟩ : RteMempoolCache Nat) 2) := .start ⟨_, rfl⟩
  have hput := hstart.next ⟨_, .put (n := 3) (fun i => 7 + i) (by decide) (by decide)⟩
  obtain ⟨hlen, hsafe⟩ := (cache_bounds (show 2 ≤ rteMempoolCacheMaxSize by decide)).1 _ hput
  exact ⟨rfl, hlen, rfl, hsafe _ _ (.get (fun s _ _ => some (s, fun _ => 0, -1)) () (fun _ => 0) (by decide)
    (by decide))⟩

end Mempool
