import RteDemo.Common
import RteDemo.Lib.Reach
import RteDemo.Ring.Fifo

/-!
# `rte_mempool`: the caches of the lcores over the common ring

`__mempool_generic_put` and `__mempool_generic_get` over the ring operations of
`rte_mempool_ring.c`. An lcore that has a default cache puts into it and gets from it; the cache is
flushed to the ring beyond its threshold and filled from the ring when it holds too little.

A get that fails changes nothing (`getBulk_of_error`), and the theorem
`get_fails_only_when_empty_iff` says in which states it fails although the cache and the ring
together hold enough.
-/

namespace Mempool

open RteDemo Ring

/-- `RTE_MEMPOOL_CACHE_MAX_SIZE` -/
@[simp] def rteMempoolCacheMaxSize : Nat := 512

/-- `RTE_MAX_LCORE` -/
@[simp] def rteMaxLcore : Nat := 128

/-- `ENOBUFS` -/
@[simp] def enobufs : Int := 105

/-- `struct rte_mempool_cache` -/
structure RteMempoolCache (Obj : Type) where
  size : Nat
  flushthresh : Nat
  len : Nat
  objs : Nat → Obj

/-- `struct rte_mempool`, over a ring. -/
structure RteMempool (Obj : Type) where
  size : Nat
  cacheSize : Nat
  /-- `MEMPOOL_F_SP_PUT` -/
  spPut : Bool
  /-- `MEMPOOL_F_SC_GET` -/
  scGet : Bool
  poolData : RteRing Obj
  localCache : Nat → RteMempoolCache Obj

variable {Obj : Type}

/-- `CALC_CACHE_FLUSHTHRESH`: one and a half times the size, rounded down. -/
def calcCacheFlushthresh (c : Nat) : Nat := c * 3 / 2

/-- `mempool_cache_init` -/
def mempoolCacheInit (cache : RteMempoolCache Obj) (size : Nat) : RteMempoolCache Obj :=
  { cache with size := size, flushthresh := calcCacheFlushthresh size, len := 0 }

/-! ## The ring operations -/

/-- `common_ring_mp_enqueue` and `common_ring_sp_enqueue` -/
def opsEnqueueBulk (fuel : Nat) (mp : RteMempool Obj) (objTable : Nat → Obj) (n : Nat) :
    Option (RteMempool Obj × Int) := do
  let (r, ret, _) ← doEnqueue fuel mp.poolData objTable n .fixed mp.spPut
  some ({ mp with poolData := r }, if ret = 0 then -enobufs else 0)

/-- `common_ring_mc_dequeue` and `common_ring_sc_dequeue` -/
def opsDequeueBulk (fuel : Nat) (mp : RteMempool Obj) (objTable : Nat → Obj) (n : Nat) :
    Option (RteMempool Obj × (Nat → Obj) × Int) := do
  let (r, objTable, ret, _) ← doDequeue fuel mp.poolData objTable n .fixed mp.scGet
  some ({ mp with poolData := r }, objTable, if ret = 0 then -enobufs else 0)

/-! ## Put and get -/

/-- The table that starts at entry `off` of `t`. -/
def tableFrom (t : Nat → Obj) (off : Nat) : Nat → Obj := fun i => t (off + i)

/-- `t` with its entries from `off` on replaced by those of `u`. -/
def splice (t : Nat → Obj) (off : Nat) (u : Nat → Obj) : Nat → Obj := fun i =>
  if i < off then t i else u (i - off)

/-- `rte_memcpy` of `n` objects to `&t[off]` -/
def memcpyObjs (t : Nat → Obj) (off : Nat) (src : Nat → Obj) (n : Nat) : Nat → Obj := fun i =>
  if off ≤ i ∧ i < off + n then src (i - off) else t i

/-- `__mempool_generic_put`, with the cache after it. -/
def mempoolGenericPut (fuel : Nat) (mp : RteMempool Obj) (objTable : Nat → Obj) (n : Nat)
    (cache : Option (RteMempoolCache Obj)) :
    Option (RteMempool Obj × Option (RteMempoolCache Obj)) :=
  match cache with
  | some cache =>
    if n > rteMempoolCacheMaxSize then
      (opsEnqueueBulk fuel mp objTable n).map fun res => (res.1, some cache)
    else
      let cache :=
        { cache with
          objs := memcpyObjs cache.objs cache.len objTable n
          len := Word.add 32 cache.len n }
      if cache.len ≥ cache.flushthresh then
        (opsEnqueueBulk fuel mp (tableFrom cache.objs cache.size)
          (Word.sub 32 cache.len cache.size)).map fun res =>
            (res.1, some { cache with len := cache.size })
      else some (mp, some cache)
  | none => (opsEnqueueBulk fuel mp objTable n).map fun res => (res.1, none)

/-- The loop that takes `n` objects off the cache, from `cache_objs[len]` downwards. -/
def fill (cacheObjs objTable : Nat → Obj) (index len : Nat) : Nat → (Nat → Obj)
  | 0 => objTable
  | n + 1 =>
    fill cacheObjs (Function.update objTable index (cacheObjs len)) (index + 1) (Word.sub 32 len 1) n

/-- `__mempool_generic_get`, with the cache after it. -/
def mempoolGenericGet (fuel : Nat) (mp : RteMempool Obj) (objTable : Nat → Obj) (n : Nat)
    (cache : Option (RteMempoolCache Obj)) :
    Option (RteMempool Obj × Option (RteMempoolCache Obj) × (Nat → Obj) × Int) :=
  let ringDequeue := (opsDequeueBulk fuel mp objTable n).map fun res => (res.1, cache, res.2)
  let fromCache (mp : RteMempool Obj) (cache : RteMempoolCache Obj) :=
    (mp, some { cache with len := Word.sub 32 cache.len n },
      fill cache.objs objTable 0 (Word.sub 32 cache.len 1) n, (0 : Int))
  match cache with
  | some cache =>
    if n ≥ cache.size then ringDequeue
    else if cache.len < n then
      let req := Word.add 32 n (Word.sub 32 cache.size cache.len)
      (opsDequeueBulk fuel mp (tableFrom cache.objs cache.len) req).bind fun res =>
        if res.2.2 < 0 then
          -- the ring cannot fill the cache as well: ask it for `n`
          ringDequeue
        else
          some (fromCache res.1
            { cache with
              objs := splice cache.objs cache.len res.2.1
              len := Word.add 32 cache.len req })
    else some (fromCache mp cache)
  | none => ringDequeue

/-- `rte_mempool_default_cache` -/
def rteMempoolDefaultCache (mp : RteMempool Obj) (lcoreId : Nat) : Option (RteMempoolCache Obj) :=
  if mp.cacheSize = 0 then none
  else if lcoreId ≥ rteMaxLcore then none
  else some (mp.localCache lcoreId)

/-- The pool after the default cache of an lcore has changed. -/
def RteMempool.setCache (mp : RteMempool Obj) (lcoreId : Nat) :
    Option (RteMempoolCache Obj) → RteMempool Obj
  | some cache => { mp with localCache := Function.update mp.localCache lcoreId cache }
  | none => mp

/-- `rte_mempool_put_bulk` on lcore `lcoreId`; a thread without a cache has another id. -/
def rteMempoolPutBulk (fuel : Nat) (mp : RteMempool Obj) (lcoreId : Nat) (objTable : Nat → Obj)
    (n : Nat) : Option (RteMempool Obj) :=
  (mempoolGenericPut fuel mp objTable n (rteMempoolDefaultCache mp lcoreId)).map fun res =>
    res.1.setCache lcoreId res.2

/-- `rte_mempool_get_bulk` on lcore `lcoreId`. -/
def rteMempoolGetBulk (fuel : Nat) (mp : RteMempool Obj) (lcoreId : Nat) (objTable : Nat → Obj)
    (n : Nat) : Option (RteMempool Obj × (Nat → Obj) × Int) :=
  (mempoolGenericGet fuel mp objTable n (rteMempoolDefaultCache mp lcoreId)).map fun res =>
    (res.1.setCache lcoreId res.2.1, res.2.2)

/-! ## Runs -/

/-- A pool as it is created, before it is populated: a ring whose four indices are zero, and caches
of an accepted size. The ring holds fewer than `2 ^ 31` objects: `rte_ring_create` refuses the ring of a
larger pool. -/
structure Created (mp : RteMempool Obj) : Prop where
  cacheSize_le : mp.cacheSize ≤ rteMempoolCacheMaxSize
  flushthresh_le : calcCacheFlushthresh mp.cacheSize ≤ mp.size
  ring : ∃ k, Valid mp.poolData k
  prod : mp.poolData.prod = ⟨0, 0⟩
  cons : mp.poolData.cons = ⟨0, 0⟩
  caches : mp.cacheSize ≠ 0 → ∀ lcore, ∃ cache,
    mp.localCache lcore = mempoolCacheInit cache mp.cacheSize

/-- A put or a get, on any lcore or on none. `mempool_add_elem` puts without a cache, and a get that
asks the ring a second time, other calls having come in between, is one without a cache. -/
inductive MempoolStep (fuel : Nat) : RteMempool Obj → RteMempool Obj → Prop
  | put {mp mp' : RteMempool Obj} {lcore n : Nat} {objTable : Nat → Obj} :
      rteMempoolPutBulk fuel mp lcore objTable n = some mp' → MempoolStep fuel mp mp'
  | get {mp mp' : RteMempool Obj} {lcore n : Nat} {objTable objTable' : Nat → Obj} {ret : Int} :
      1 ≤ n → rteMempoolGetBulk fuel mp lcore objTable n = some (mp', objTable', ret) →
        MempoolStep fuel mp mp'

/-! ## What every call keeps -/

/-- The ring stands for some queue. -/
def IsQueue (r : RteRing Obj) : Prop := ∃ cap, ∃ q : BoundedQueue Obj cap, Repr r q

structure Ok (mp : RteMempool Obj) : Prop where
  cacheSize_le : mp.cacheSize ≤ rteMempoolCacheMaxSize
  ring : IsQueue mp.poolData
  cache_size : mp.cacheSize ≠ 0 → ∀ lcore, (mp.localCache lcore).size = mp.cacheSize

theorem Created.ok {mp : RteMempool Obj} (h : Created mp) : Ok mp where
  cacheSize_le := h.cacheSize_le
  ring := by
    obtain ⟨k, hv⟩ := h.ring
    exact ⟨_, _, repr_start hv (by decide) h.prod h.cons⟩
  cache_size := fun h0 lcore => by
    obtain ⟨cache, hc⟩ := h.caches h0 lcore
    rw [hc]
    rfl

variable {mp : RteMempool Obj} {fuel n : Nat} {objTable : Nat → Obj}

/-- An enqueue changes the ring only. -/
theorem opsEnqueueBulk_ok (h : IsQueue mp.poolData) (fuel : Nat) (objTable : Nat → Obj) (n : Nat) :
    ∃ r' ret, opsEnqueueBulk (fuel + 1) mp objTable n = some ({ mp with poolData := r' }, ret) ∧
      IsQueue r' := by
  obtain ⟨cap, q, hq⟩ := h
  obtain ⟨r', hcode, hr'⟩ := hq.enqueue fuel objTable n .fixed mp.spPut
  refine ⟨r', if q.pushed .fixed n = 0 then -enobufs else 0, ?_, cap, _, hr'⟩
  rw [opsEnqueueBulk, hcode]
  rfl

/-- A dequeue of more than there is changes nothing. -/
theorem opsDequeueBulk_of_lt (h : IsQueue mp.poolData) (fuel : Nat) (objTable : Nat → Obj)
    (hn : rteRingCount mp.poolData < n) :
    opsDequeueBulk (fuel + 1) mp objTable n = some (mp, objTable, -enobufs) := by
  obtain ⟨cap, q, hq⟩ := h
  obtain ⟨base, hc, -, -⟩ := hq.place
  have hclip : clip .fixed n q.length = 0 := by
    rw [hq.count] at hn
    exact if_pos hn
  rw [opsDequeueBulk, doDequeue_eq fuel objTable n .fixed mp.scGet (by rw [hc]) hq.entries, hclip]
  rfl

/-- A dequeue of what there is succeeds. -/
theorem opsDequeueBulk_of_le (h : IsQueue mp.poolData) (fuel : Nat) (objTable : Nat → Obj)
    (hn : 1 ≤ n) (hle : n ≤ rteRingCount mp.poolData) : ∃ r' objTable',
      opsDequeueBulk (fuel + 1) mp objTable n =
        some ({ mp with poolData := r' }, objTable', 0) ∧ IsQueue r' := by
  obtain ⟨cap, q, hq⟩ := h
  obtain ⟨r', hcode, hr'⟩ := hq.dequeue fuel objTable n .fixed mp.scGet
  have hpop : q.popped .fixed n = n := by
    rw [hq.count] at hle
    exact if_pos hle
  refine ⟨r', q.taken .fixed n objTable, ?_, cap, _, hr'⟩
  rw [opsDequeueBulk, hcode]
  change some (_, _, if q.popped .fixed n = 0 then _ else _) = _
  rw [hpop, if_neg (by omega)]
  rfl

/-- What a call does to the pool apart from the cache it was given. -/
structure Keeps (mp mp' : RteMempool Obj) (cache cache' : Option (RteMempoolCache Obj)) : Prop where
  cacheSize : mp'.cacheSize = mp.cacheSize
  localCache : mp'.localCache = mp.localCache
  ring : IsQueue mp'.poolData
  size : cache'.map (·.size) = cache.map (·.size)

theorem keeps_ring {r' : RteRing Obj} (hr' : IsQueue r') (cache : Option (RteMempoolCache Obj)) :
    Keeps mp { mp with poolData := r' } cache cache := ⟨rfl, rfl, hr', rfl⟩

theorem mempoolGenericPut_keeps (h : IsQueue mp.poolData) (fuel : Nat) (objTable : Nat → Obj)
    (n : Nat) (cache : Option (RteMempoolCache Obj)) : ∃ mp' cache',
      mempoolGenericPut (fuel + 1) mp objTable n cache = some (mp', cache') ∧
        Keeps mp mp' cache cache' := by
  obtain ⟨r', ret, hcode, hr'⟩ := opsEnqueueBulk_ok h fuel objTable n
  cases cache with
  | none => exact ⟨_, _, by rw [mempoolGenericPut, hcode]; rfl, keeps_ring hr' none⟩
  | some cache =>
    rw [mempoolGenericPut]
    split
    · exact ⟨_, _, by rw [hcode]; rfl, keeps_ring hr' _⟩
    · simp only
      split
      · -- the cache is flushed
        obtain ⟨r'', ret', hcode', hr''⟩ := opsEnqueueBulk_ok h fuel
          (tableFrom (memcpyObjs cache.objs cache.len objTable n) cache.size)
          (Word.sub 32 (Word.add 32 cache.len n) cache.size)
        refine ⟨_, _, by rw [hcode']; rfl, ?_⟩
        exact ⟨rfl, rfl, hr'', rfl⟩
      · exact ⟨_, _, rfl, rfl, rfl, h, rfl⟩

/-- A get that must go to the ring finds less than `n` there. -/
def Short (mp : RteMempool Obj) (cache : Option (RteMempoolCache Obj)) (n : Nat) : Prop :=
  (∀ c, cache = some c → n ≥ c.size ∨ c.len < n) ∧ rteRingCount mp.poolData < n

/-- What the refill asks for. -/
theorem req_eq {c : RteMempoolCache Obj} (hsize : c.size ≤ rteMempoolCacheMaxSize)
    (hn : n < c.size) (hlen : c.len < n) :
    Word.add 32 n (Word.sub 32 c.size c.len) = n + (c.size - c.len) := by
  have hmax : rteMempoolCacheMaxSize = 512 := rfl
  rw [Word.sub_eq (by omega) (by omega), Word.add_eq (by omega)]

/-- A short get changes nothing. -/
theorem mempoolGenericGet_of_short (h : IsQueue mp.poolData) (fuel : Nat) (objTable : Nat → Obj)
    {cache : Option (RteMempoolCache Obj)}
    (hsize : ∀ c, cache = some c → c.size ≤ rteMempoolCacheMaxSize) (hshort : Short mp cache n) :
    mempoolGenericGet (fuel + 1) mp objTable n cache = some (mp, cache, objTable, -enobufs) := by
  have hring := opsDequeueBulk_of_lt h fuel objTable hshort.2
  cases cache with
  | none => rw [mempoolGenericGet, hring]; rfl
  | some c =>
    rw [mempoolGenericGet]
    simp only
    by_cases hn : n ≥ c.size
    · rw [if_pos hn, hring]
      rfl
    · have hlen : c.len < n := (hshort.1 c rfl).resolve_left hn
      rw [if_neg hn, if_pos hlen, req_eq (hsize c rfl) (by omega) hlen,
        opsDequeueBulk_of_lt h fuel _ (hshort.2.trans_le (Nat.le_add_right n _)), hring]
      rfl

/-- A get that is not short succeeds. -/
theorem mempoolGenericGet_of_not_short (h : IsQueue mp.poolData) (fuel : Nat)
    (objTable : Nat → Obj) (hn : 1 ≤ n) {cache : Option (RteMempoolCache Obj)}
    (hsize : ∀ c, cache = some c → c.size ≤ rteMempoolCacheMaxSize) (hshort : ¬Short mp cache n) :
    ∃ mp' cache' objTable',
      mempoolGenericGet (fuel + 1) mp objTable n cache = some (mp', cache', objTable', 0) ∧
        Keeps mp mp' cache cache' := by
  cases cache with
  | none =>
    have hle : n ≤ rteRingCount mp.poolData :=
      Nat.le_of_not_lt fun hlt => hshort ⟨fun _ hc => absurd hc (by simp), hlt⟩
    obtain ⟨r', objTable', hcode, hr'⟩ := opsDequeueBulk_of_le h fuel objTable hn hle
    exact ⟨_, _, _, by rw [mempoolGenericGet, hcode]; rfl, keeps_ring hr' none⟩
  | some c =>
    have hring : n ≥ c.size ∨ c.len < n → n ≤ rteRingCount mp.poolData := fun hc =>
      Nat.le_of_not_lt fun hlt => hshort ⟨fun c' hc' => Option.some.inj hc' ▸ hc, hlt⟩
    rw [mempoolGenericGet]
    simp only
    by_cases hns : n ≥ c.size
    · obtain ⟨r', objTable', hcode, hr'⟩ := opsDequeueBulk_of_le h fuel objTable hn (hring (.inl hns))
      exact ⟨_, _, _, by rw [if_pos hns, hcode]; rfl, keeps_ring hr' _⟩
    · by_cases hlen : c.len < n
      · rw [if_neg hns, if_pos hlen, req_eq (hsize c rfl) (by omega) hlen]
        by_cases hreq : n + (c.size - c.len) ≤ rteRingCount mp.poolData
        · -- the cache is filled, and the objects come from it
          obtain ⟨r', objs, hcode, hr'⟩ := opsDequeueBulk_of_le h fuel
            (tableFrom c.objs c.len) (by omega) hreq
          refine ⟨_, _, _, by rw [hcode]; rfl, ?_⟩
          exact ⟨rfl, rfl, hr', rfl⟩
        · obtain ⟨r', objTable', hcode, hr'⟩ :=
            opsDequeueBulk_of_le h fuel objTable hn (hring (.inr hlen))
          exact ⟨_, _, _, by
            rw [opsDequeueBulk_of_lt h fuel _ (Nat.lt_of_not_le hreq), hcode]; rfl,
            keeps_ring hr' _⟩
      · refine ⟨_, _, _, by rw [if_neg hns, if_neg hlen], ?_⟩
        exact ⟨rfl, rfl, h, rfl⟩

theorem mempoolGenericGet_keeps (h : IsQueue mp.poolData) (fuel : Nat) (objTable : Nat → Obj)
    (hn : 1 ≤ n) {cache : Option (RteMempoolCache Obj)}
    (hsize : ∀ c, cache = some c → c.size ≤ rteMempoolCacheMaxSize) : ∃ mp' cache' objTable' ret,
      mempoolGenericGet (fuel + 1) mp objTable n cache = some (mp', cache', objTable', ret) ∧
        Keeps mp mp' cache cache' := by
  by_cases hshort : Short mp cache n
  · exact ⟨_, _, _, _, mempoolGenericGet_of_short h fuel objTable hsize hshort, rfl, rfl, h, rfl⟩
  · obtain ⟨mp', cache', objTable', hcode, hk⟩ :=
      mempoolGenericGet_of_not_short h fuel objTable hn hsize hshort
    exact ⟨mp', cache', objTable', 0, hcode, hk⟩

/-! ## Reachable pools -/

theorem Ok.default_size (h : Ok mp) (lcore : Nat) :
    ∀ c, rteMempoolDefaultCache mp lcore = some c → c.size ≤ rteMempoolCacheMaxSize := by
  intro c hc
  unfold rteMempoolDefaultCache at hc
  split_ifs at hc with h0 hl
  rw [← Option.some.inj hc, h.cache_size h0]
  exact h.cacheSize_le

/-- Writing the cache of the lcore back keeps the pool in order. -/
theorem Keeps.ok {mp' : RteMempool Obj} {lcore : Nat} {cache' : Option (RteMempoolCache Obj)}
    (hk : Keeps mp mp' (rteMempoolDefaultCache mp lcore) cache') (h : Ok mp) :
    Ok (mp'.setCache lcore cache') := by
  cases cache' with
  | none =>
    exact ⟨hk.cacheSize.trans_le h.cacheSize_le, hk.ring, by
      rw [RteMempool.setCache, hk.cacheSize, hk.localCache]; exact h.cache_size⟩
  | some c =>
    refine ⟨hk.cacheSize.trans_le h.cacheSize_le, hk.ring, fun h0 l => ?_⟩
    have h0' : mp.cacheSize ≠ 0 := hk.cacheSize ▸ h0
    change ((Function.update mp'.localCache lcore c) l).size = mp'.cacheSize
    rw [hk.cacheSize, hk.localCache]
    rcases eq_or_ne l lcore with rfl | hl
    · have hsize := hk.size
      unfold rteMempoolDefaultCache at hsize
      rw [if_neg h0'] at hsize
      split_ifs at hsize with hl
      · cases hsize
      · have hlen : c.size = (mp.localCache l).size := Option.some.inj hsize
        rw [Function.update_self, hlen, h.cache_size h0']
    · rw [Function.update_of_ne hl, h.cache_size h0']

theorem Ok.step {mp' : RteMempool Obj} (h : Ok mp) (hs : MempoolStep (fuel + 1) mp mp') : Ok mp' := by
  cases hs with
  | @put lcore n objTable hput =>
    obtain ⟨mp₁, cache', hcode, hk⟩ :=
      mempoolGenericPut_keeps h.ring fuel objTable n (rteMempoolDefaultCache mp lcore)
    rw [rteMempoolPutBulk, hcode] at hput
    rw [← Option.some.inj hput]
    exact hk.ok h
  | @get lcore n objTable objTable' ret hn hget =>
    obtain ⟨mp₁, cache', table, ret', hcode, hk⟩ :=
      mempoolGenericGet_keeps h.ring fuel objTable hn (h.default_size lcore)
    rw [rteMempoolGetBulk, hcode] at hget
    have hmp : mp₁.setCache lcore cache' = mp' := congrArg Prod.fst (Option.some.inj hget)
    exact hmp ▸ hk.ok h

theorem ok_of_reach (h : Reach Created (MempoolStep (fuel + 1)) mp) : Ok mp :=
  h.invariant (fun _ hc => hc.ok) fun _ _ hok hs => hok.step hs

/-! ## When a get fails -/

theorem setCache_default (mp : RteMempool Obj) (lcore : Nat) :
    mp.setCache lcore (rteMempoolDefaultCache mp lcore) = mp := by
  unfold rteMempoolDefaultCache
  split_ifs
  · rfl
  · rfl
  · rw [RteMempool.setCache, Function.update_eq_self]

/-- A get returns an error in the short states, and leaves the ring, the caches and the table as they
are. -/
theorem getBulk_of_short (h : Ok mp) (fuel lcore : Nat) (objTable : Nat → Obj)
    (hshort : Short mp (rteMempoolDefaultCache mp lcore) n) :
    rteMempoolGetBulk (fuel + 1) mp lcore objTable n = some (mp, objTable, -enobufs) := by
  rw [rteMempoolGetBulk, mempoolGenericGet_of_short h.ring fuel objTable (h.default_size lcore) hshort,
    Option.map_some, setCache_default]

theorem getBulk_of_not_short (h : Ok mp) (fuel lcore : Nat) (objTable : Nat → Obj) (hn : 1 ≤ n)
    (hshort : ¬Short mp (rteMempoolDefaultCache mp lcore) n) : ∃ mp' objTable',
      rteMempoolGetBulk (fuel + 1) mp lcore objTable n = some (mp', objTable', 0) := by
  obtain ⟨mp', cache', objTable', hcode, -⟩ :=
    mempoolGenericGet_of_not_short h.ring fuel objTable hn (h.default_size lcore) hshort
  rw [rteMempoolGetBulk, hcode]
  exact ⟨_, _, rfl⟩

/-- A get of `n` objects on `lcore` returns; it returns an error only if the lcore's cache and the
ring together hold fewer than `n`, and then nothing has changed. -/
def GetFailsOnlyWhenEmpty (fuel : Nat) (mp : RteMempool Obj) (lcore : Nat)
    (cache : RteMempoolCache Obj) (objTable : Nat → Obj) (n : Nat) : Prop :=
  ∃ mp' objTable' ret,
    rteMempoolGetBulk fuel mp lcore objTable n = some (mp', objTable', ret) ∧
      (ret < 0 → cache.len + rteRingCount mp.poolData < n ∧ mp' = mp ∧ objTable' = objTable)

/-- The states that are short although the cache and the ring together hold `n` objects. -/
def SplitShort (mp : RteMempool Obj) (cache : RteMempoolCache Obj) (n : Nat) : Prop :=
  (n ≥ cache.size ∨ cache.len < n) ∧ rteRingCount mp.poolData < n ∧
    n ≤ cache.len + rteRingCount mp.poolData

theorem short_some_iff {cache : RteMempoolCache Obj} :
    Short mp (some cache) n ↔
      (n ≥ cache.size ∨ cache.len < n) ∧ rteRingCount mp.poolData < n :=
  ⟨fun h => ⟨h.1 cache rfl, h.2⟩, fun h => ⟨fun _ hc => Option.some.inj hc ▸ h.1, h.2⟩⟩

theorem not_getFailsOnlyWhenEmpty (h : Ok mp) {fuel lcore : Nat} {cache : RteMempoolCache Obj}
    (hcache : rteMempoolDefaultCache mp lcore = some cache) (hsplit : SplitShort mp cache n) :
    ¬GetFailsOnlyWhenEmpty (fuel + 1) mp lcore cache objTable n := by
  rintro ⟨mp', objTable', ret, hcode, herr⟩
  have hshort : Short mp (rteMempoolDefaultCache mp lcore) n := by
    rw [hcache]
    exact short_some_iff.2 ⟨hsplit.1, hsplit.2.1⟩
  rw [getBulk_of_short h fuel lcore objTable hshort] at hcode
  obtain ⟨-, -, rfl⟩ : mp = mp' ∧ objTable = objTable' ∧ -enobufs = ret := by
    simpa using hcode
  have hlt := (herr (by decide)).1
  exact absurd hsplit.2.2 (Nat.not_le_of_lt hlt)

/-- In every reachable state and for every lcore with a default cache, a get fails only when the
cache and the ring together hold too little, except where the objects are split between the two. -/
theorem get_fails_only_when_empty_iff (h : Reach Created (MempoolStep (fuel + 1)) mp) {lcore : Nat}
    {cache : RteMempoolCache Obj} (hcache : rteMempoolDefaultCache mp lcore = some cache)
    (objTable : Nat → Obj) (hn : 1 ≤ n) :
    GetFailsOnlyWhenEmpty (fuel + 1) mp lcore cache objTable n ↔ ¬SplitShort mp cache n := by
  have hok := ok_of_reach h
  refine ⟨fun hget hsplit => not_getFailsOnlyWhenEmpty hok hcache hsplit hget, fun hsplit => ?_⟩
  by_cases hshort : Short mp (rteMempoolDefaultCache mp lcore) n
  · refine ⟨mp, objTable, -enobufs, getBulk_of_short hok fuel lcore objTable hshort,
      fun _ => ⟨?_, rfl, rfl⟩⟩
    rw [hcache, short_some_iff] at hshort
    exact Nat.lt_of_not_le fun hle => hsplit ⟨hshort.1, hshort.2, hle⟩
  · obtain ⟨mp', objTable', hcode⟩ := getBulk_of_not_short hok fuel lcore objTable hn hshort
    exact ⟨mp', objTable', 0, hcode, fun hret => absurd hret (by decide)⟩

/-- A pool of three objects with caches of two. -/
def small : RteMempool Nat :=
  ⟨3, 2, false, false, ⟨4, 3, 3, ⟨0, 0⟩, ⟨0, 0⟩, fun _ => 0⟩, fun _ => ⟨2, 3, 0, fun _ => 0⟩⟩

theorem created_small : Created small where
  cacheSize_le := by decide
  flushthresh_le := by decide
  ring := ⟨2, by decide, rfl, rfl, by decide⟩
  prod := rfl
  cons := rfl
  caches := fun _ _ => ⟨⟨2, 3, 0, fun _ => 0⟩, rfl⟩

/-- The pool is populated, lcore 0 gets two objects and puts one of them back. -/
def splitRun : Option (RteMempool Nat) := do
  let mp ← rteMempoolPutBulk 1 small 128 (fun _ => 64) 1
  let mp ← rteMempoolPutBulk 1 mp 128 (fun _ => 128) 1
  let mp ← rteMempoolPutBulk 1 mp 128 (fun _ => 192) 1
  let res ← rteMempoolGetBulk 1 mp 0 (fun _ => 0) 2
  rteMempoolPutBulk 1 res.1 0 res.2.1 1

theorem reach_splitRun {mp : RteMempool Nat} (h : splitRun = some mp) :
    Reach Created (MempoolStep 1) mp := by
  unfold splitRun at h
  simp only [Option.bind_eq_bind, Option.bind_eq_some_iff] at h
  obtain ⟨mp₁, h₁, mp₂, h₂, mp₃, h₃, res, h₄, h₅⟩ := h
  have hget : MempoolStep 1 mp₃ res.1 := .get (by decide) h₄
  exact .next (.next (.next (.next (.next (.start created_small) (.put h₁)) (.put h₂)) (.put h₃))
    hget) (.put h₅)

theorem splitRun_counts : splitRun.map (fun mp =>
    (mp.cacheSize, (mp.localCache 0).size, (mp.localCache 0).len, rteRingCount mp.poolData)) =
      some (2, 2, 1, 1) := by
  decide +kernel

/-- One object is in the ring and one in the cache, and a get of two fails. -/
theorem get_fails_with_objects_left : ∃ (mp : RteMempool Nat) (cache : RteMempoolCache Nat),
    Reach Created (MempoolStep 1) mp ∧ rteMempoolDefaultCache mp 0 = some cache ∧
      ¬GetFailsOnlyWhenEmpty 1 mp 0 cache (fun _ => 0) 2 := by
  obtain ⟨mp, hmp, hcounts⟩ := Option.map_eq_some_iff.1 splitRun_counts
  simp only [Prod.mk.injEq] at hcounts
  obtain ⟨hcs, hsize, hlen, hcount⟩ := hcounts
  have hreach := reach_splitRun hmp
  have hcache : rteMempoolDefaultCache mp 0 = some (mp.localCache 0) := by
    rw [rteMempoolDefaultCache, if_neg (by omega), if_neg (by decide)]
  refine ⟨mp, _, hreach, hcache, not_getFailsOnlyWhenEmpty (ok_of_reach hreach) hcache ?_⟩
  refine ⟨.inl hsize.le, ?_, ?_⟩ <;> omega

/-- In the state of `splitRun` a get of one object succeeds. -/
theorem get_fails_only_when_empty_iff_small : ∃ (mp : RteMempool Nat) (cache : RteMempoolCache Nat),
    Reach Created (MempoolStep 1) mp ∧ rteMempoolDefaultCache mp 0 = some cache ∧ cache.len = 1 ∧
      GetFailsOnlyWhenEmpty 1 mp 0 cache (fun _ => 0) 1 := by
  obtain ⟨mp, hmp, hcounts⟩ := Option.map_eq_some_iff.1 splitRun_counts
  simp only [Prod.mk.injEq] at hcounts
  obtain ⟨hcs, hsize, hlen, hcount⟩ := hcounts
  have hreach := reach_splitRun hmp
  have hcache : rteMempoolDefaultCache mp 0 = some (mp.localCache 0) := by
    rw [rteMempoolDefaultCache, if_neg (by omega), if_neg (by decide)]
  refine ⟨mp, _, hreach, hcache, hlen,
    (get_fails_only_when_empty_iff hreach hcache (fun _ => 0) (Nat.le_refl 1)).mpr ?_⟩
  rintro ⟨-, hshort, -⟩
  omega

end Mempool
