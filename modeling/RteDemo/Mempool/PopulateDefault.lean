import RteDemo.Mempool.XmemSize
import RteDemo.Mempool.ZoneNames
import Mathlib.Data.Multiset.AddSub

/-!
# `rte_mempool_populate_default`

The pool is filled chunk by chunk. Each chunk is a memzone of the size still needed, or the largest there
is, with a chunk header from the heap; a call that fails gives everything back.

What the memzone table and the heap answer is arbitrary, and may depend on all that was asked before
(`Callees`). Everything that is taken or released is recorded (`Event`); what is still held is the
difference (`heldZones`, `heldHdrs`). The main result is `populateDefault_all_or_nothing`.
-/

namespace MempoolPopulate

open RteDemo Bytes Mempool EalTailqs MempoolZones

/-! ## The code -/

/-- A call to the memzone table, the heap or the handler, with the answer; `0` is `NULL`. -/
inductive Event
  | opsAlloc
  | reserve (mz : Nat)
  | zoneFree (mz : Nat)
  | zmalloc (hdr : Nat)
  | free (hdr : Nat)

/-- The answers of the callees, after the calls recorded so far, the latest first. -/
structure Callees where
  /-- `rte_mempool_ops_alloc` -/
  opsAlloc : List Event → Int
  /-- `rte_memzone_reserve_aligned` for a name, a length, flags and an alignment -/
  reserve : List Event → CString → Nat → Nat → Nat → Nat
  /-- `addr` and `len` of a `struct rte_memzone` -/
  zone : Nat → Nat × Nat
  rteErrno : List Event → Int
  /-- `rte_zmalloc` for a chunk header -/
  zmalloc : List Event → Nat
  /-- `rte_eal_has_hugepages` -/
  hasHugepages : Bool
  /-- `getpagesize` and `rte_bsf32` of it -/
  pageSize : Nat
  pageShift : Nat

/-- The address of `rte_mempool_memchunk_mz_free`. -/
def memchunkMzFree : Nat := 1

/-- `ENAMETOOLONG`, `EEXIST` -/
def enametoolong : Int := 36
def eexist : Int := 17

/-- `RTE_MEMZONE_1GB|RTE_MEMZONE_SIZE_HINT_ONLY` -/
def mzFlags : Nat := 0x00000002 ||| 0x00000004

/-- `RTE_MEMZONE_NAMESIZE` -/
def memzoneNamesize : Nat := 32

/-- `rte_mempool_populate_phy`, with its calls. -/
def populatePhy (c : Callees) (log : List Event) (mp : RteMempool) (mem : Mem)
    (vaddr len freeCb opaqueArg : Nat) : Int × RteMempool × Mem × List Event :=
  let create : Bool := decide (mp.flags &&& mempoolFPoolCreated = 0)
  let a := if create then c.opsAlloc log else 0
  let log := if create then .opsAlloc :: log else log
  if a ≠ 0 ∨ mp.populatedSize ≥ mp.size then
    let r := rteMempoolPopulatePhy ⟨a, 0⟩ mp mem vaddr len freeCb opaqueArg
    (r.1, r.2.1, r.2.2, log)
  else
    let hdr := c.zmalloc log
    let log := .zmalloc hdr :: log
    let r := rteMempoolPopulatePhy ⟨a, hdr⟩ mp mem vaddr len freeCb opaqueArg
    -- the header of a chunk without objects is not linked, and freed
    (r.1, r.2.1, r.2.2, if hdr ≠ 0 ∧ r.2.1.memList = mp.memList then .free hdr :: log else log)

/-- A round of the first loop of `rte_mempool_free_memchunks`. -/
def freeElem (mp : RteMempool) : RteMempool :=
  { mp with
    eltList := mp.eltList.tail
    populatedSize := Word.sub 32 mp.populatedSize 1
    enqueued := mp.enqueued.tail }

/-- A round of the second loop; the callbacks but `rte_mempool_memchunk_mz_free` are not recorded. -/
def freeChunk (r : RteMempool × List Event) (memhdr : RteMempoolMemhdr) : RteMempool × List Event :=
  let log := if memhdr.freeCb = memchunkMzFree then .zoneFree memhdr.opaqueArg :: r.2 else r.2
  ({ r.1 with memList := r.1.memList.tail, nbMemChunks := Word.sub 32 r.1.nbMemChunks 1 },
    .free memhdr.hdr :: log)

/-- `rte_mempool_free_memchunks` -/
def rteMempoolFreeMemchunks (mp : RteMempool) (log : List Event) : RteMempool × List Event :=
  let mp := freeElem^[mp.eltList.length] mp
  mp.memList.foldl freeChunk (mp, log)

/-- The end of `rte_mempool_populate_default` on an error. -/
def populateFail (ret : Int) (mp : RteMempool) (mem : Mem) (log : List Event) :
    Int × RteMempool × Mem × List Event :=
  let r := rteMempoolFreeMemchunks mp log
  (ret, r.1, mem, r.2)

/-- The loop of `rte_mempool_populate_default`; `none` if `fuel` rounds are not enough. -/
def populateDefaultLoop (c : Callees) (name : CString) (totalEltSz align pgShift : Nat) :
    Nat → Nat → Nat → RteMempool → Mem → List Event → Option (Int × RteMempool × Mem × List Event)
  | fuel, mzId, n, mp, mem, log =>
    if n = 0 then some (toInt mp.size, mp, mem, log)
    else
      match fuel with
      | 0 => none
      | fuel + 1 =>
        let size := rteMempoolXmemSize n totalEltSz pgShift mp.flags
        let mzName := zoneName name (.chunk mzId)
        if mzName.length ≥ memzoneNamesize then some (populateFail (-enametoolong) mp mem log)
        else
          let mz := c.reserve log mzName size mzFlags align
          let log := .reserve mz :: log
          -- not enough memory: retry with the biggest zone
          let retry := if mz = 0 then c.reserve log mzName 0 mzFlags align else mz
          let log := if mz = 0 then .reserve retry :: log else log
          if retry = 0 then some (populateFail (-c.rteErrno log) mp mem log)
          else
            let r := populatePhy c log mp mem (c.zone retry).1 (c.zone retry).2 memchunkMzFree retry
            if r.1 < 0 then some (populateFail r.1 r.2.1 r.2.2.1 (.zoneFree retry :: r.2.2.2))
            else populateDefaultLoop c name totalEltSz align pgShift fuel (mzId + 1)
              (Word.sub 32 n r.1.toNat) r.2.1 r.2.2.1 r.2.2.2

/-- `rte_mempool_populate_default` -/
def rteMempoolPopulateDefault (c : Callees) (name : CString) (mp : RteMempool) (mem : Mem) :
    Option (Int × RteMempool × Mem × List Event) :=
  if mp.nbMemChunks ≠ 0 then some (-eexist, mp, mem, [])
  else
    let pgShift := if c.hasHugepages then 0 else c.pageShift
    let align := if c.hasHugepages then rteCacheLineSize else c.pageSize
    let totalEltSz := Word.add 32 (Word.add 32 mp.headerSize mp.eltSize) mp.trailerSize
    populateDefaultLoop c name totalEltSz align pgShift mp.size 0 mp.size mp mem []

/-! ## What is held -/

/-- The zones that were reserved and not freed. -/
def heldZones : List Event → Multiset Nat
  | [] => 0
  | .reserve mz :: log => if mz = 0 then heldZones log else mz ::ₘ heldZones log
  | .zoneFree mz :: log => (heldZones log).erase mz
  | _ :: log => heldZones log

/-- The chunk headers that were allocated and not freed. -/
def heldHdrs : List Event → Multiset Nat
  | [] => 0
  | .zmalloc hdr :: log => if hdr = 0 then heldHdrs log else hdr ::ₘ heldHdrs log
  | .free hdr :: log => (heldHdrs log).erase hdr
  | _ :: log => heldHdrs log

/-- Only what is held is freed. -/
def Clean : List Event → Prop
  | [] => True
  | .zoneFree mz :: log => mz ∈ heldZones log ∧ Clean log
  | .free hdr :: log => hdr ∈ heldHdrs log ∧ Clean log
  | _ :: log => Clean log

@[simp] theorem heldZones_reserve {mz : Nat} (h : mz ≠ 0) (log : List Event) :
    heldZones (.reserve mz :: log) = mz ::ₘ heldZones log := if_neg h
@[simp] theorem heldZones_zoneFree (mz : Nat) (log : List Event) :
    heldZones (.zoneFree mz :: log) = (heldZones log).erase mz := rfl
@[simp] theorem heldZones_free (hdr : Nat) (log : List Event) :
    heldZones (.free hdr :: log) = heldZones log := rfl
@[simp] theorem heldZones_zmalloc (hdr : Nat) (log : List Event) :
    heldZones (.zmalloc hdr :: log) = heldZones log := rfl
@[simp] theorem heldHdrs_free (hdr : Nat) (log : List Event) :
    heldHdrs (.free hdr :: log) = (heldHdrs log).erase hdr := rfl
@[simp] theorem heldHdrs_zoneFree (mz : Nat) (log : List Event) :
    heldHdrs (.zoneFree mz :: log) = heldHdrs log := rfl
@[simp] theorem heldHdrs_reserve (mz : Nat) (log : List Event) :
    heldHdrs (.reserve mz :: log) = heldHdrs log := rfl

/-- The two logs hold the same, and the second is as clean as the first. -/
structure SameHeld (log log' : List Event) : Prop where
  zones : heldZones log' = heldZones log
  hdrs : heldHdrs log' = heldHdrs log
  clean : Clean log → Clean log'

/-! ## One chunk -/

/-- The pool after a chunk was linked that brought the objects `l`. -/
def RteMempool.linked (mp : RteMempool) (flags : Nat) (l : List Nat) (memhdr : RteMempoolMemhdr) : RteMempool :=
  { mp with
    flags := flags
    eltList := mp.eltList ++ l.map (· - sizeofObjhdr)
    populatedSize := mp.populatedSize + l.length
    enqueued := mp.enqueued ++ l
    memList := mp.memList ++ [memhdr]
    nbMemChunks := Word.add 32 mp.nbMemChunks 1 }

section

variable {c : Callees} {mp : RteMempool} {mem : Mem} {log : List Event} {vaddr len freeCb opaqueArg : Nat}

theorem toInt_eq {k : Nat} (h : k < 2 ^ 31) : toInt k = k := by
  rw [toInt, BitVec.toInt_eq_toNat_of_lt] <;> rw [BitVec.toNat_ofNat, Nat.mod_eq_of_lt (by omega)]
  omega

/-- A pool without objects and chunks. -/
structure RteMempool.Empty (mp : RteMempool) : Prop where
  eltList : mp.eltList = []
  populatedSize : mp.populatedSize = 0
  enqueued : mp.enqueued = []
  memList : mp.memList = []
  nbMemChunks : mp.nbMemChunks = 0

/-- The pool after some rounds, with `n` objects missing: its lists agree with its counts, and what is held
is what its chunks name. -/
structure Filled (mp : RteMempool) (n : Nat) (log : List Event) : Prop where
  sized : mp.Sized
  size : mp.size < 2 ^ 31
  missing : mp.populatedSize + n = mp.size
  elts : mp.eltList.length = mp.populatedSize
  enqueued : mp.enqueued.length = mp.populatedSize
  chunks : mp.nbMemChunks = mp.memList.length
  few : mp.memList.length ≤ mp.populatedSize
  freeCb : ∀ memhdr ∈ mp.memList, memhdr.freeCb = memchunkMzFree
  zones : heldZones log = (mp.memList.map RteMempoolMemhdr.opaqueArg : List Nat)
  hdrs : heldHdrs log = (mp.memList.map RteMempoolMemhdr.hdr : List Nat)
  clean : Clean log

/-- Nothing is held. -/
structure Released (log : List Event) : Prop where
  zones : heldZones log = 0
  hdrs : heldHdrs log = 0
  clean : Clean log

theorem freeElem_iterate {k : Nat} (hk : k ≤ mp.populatedSize) (hlt : mp.populatedSize < 2 ^ 32) :
    freeElem^[k] mp =
      { mp with
        eltList := mp.eltList.drop k
        populatedSize := mp.populatedSize - k
        enqueued := mp.enqueued.drop k } := by
  induction k with
  | zero => rfl
  | succ k ih =>
    have hsub : Word.sub 32 (mp.populatedSize - k) 1 = mp.populatedSize - k - 1 :=
      Word.sub_eq (by omega) (by omega)
    rw [Function.iterate_succ_apply', ih (by omega), freeElem]
    simp only [hsub, List.tail_drop, Nat.sub_sub]

theorem foldl_freeChunk {l : List RteMempoolMemhdr} (hl : mp.memList = l) (hle : l.length ≤ mp.nbMemChunks)
    (hlt : mp.nbMemChunks < 2 ^ 32) (hcb : ∀ memhdr ∈ l, memhdr.freeCb = memchunkMzFree)
    (hz : heldZones log = (l.map RteMempoolMemhdr.opaqueArg : List Nat))
    (hh : heldHdrs log = (l.map RteMempoolMemhdr.hdr : List Nat)) (hc : Clean log) :
    ∃ log', l.foldl freeChunk (mp, log) =
        ({ mp with memList := [], nbMemChunks := mp.nbMemChunks - l.length }, log') ∧ Released log' := by
  induction l generalizing mp log with
  | nil =>
    refine ⟨log, ?_, hz, hh, hc⟩
    rw [List.foldl_nil, List.length_nil, Nat.sub_zero, ← hl]
  | cons memhdr l ih =>
    rw [List.length_cons] at hle
    have hsub : Word.sub 32 mp.nbMemChunks 1 = mp.nbMemChunks - 1 := Word.sub_eq (by omega) hlt
    rw [List.map_cons, ← Multiset.cons_coe] at hz hh
    have htail : mp.memList.tail = l := by rw [hl, List.tail_cons]
    have hround : freeChunk (mp, log) memhdr = ({ mp with memList := l, nbMemChunks := mp.nbMemChunks - 1 },
        .free memhdr.hdr :: .zoneFree memhdr.opaqueArg :: log) := by
      simp only [freeChunk, hsub, htail, if_pos (hcb memhdr List.mem_cons_self)]
    obtain ⟨log', hcode, hrel⟩ := @ih { mp with memList := l, nbMemChunks := mp.nbMemChunks - 1 }
      (.free memhdr.hdr :: .zoneFree memhdr.opaqueArg :: log) rfl (Nat.le_sub_of_add_le hle)
      (lt_of_le_of_lt (Nat.sub_le _ _) hlt) (fun m hm => hcb m (List.mem_cons_of_mem _ hm))
      (by rw [heldZones_free, heldZones_zoneFree, hz, Multiset.erase_cons_head])
      (by rw [heldHdrs_free, heldHdrs_zoneFree, hh, Multiset.erase_cons_head])
      ⟨by rw [heldHdrs_zoneFree, hh]; exact Multiset.mem_cons_self _ _,
        by rw [hz]; exact Multiset.mem_cons_self _ _, hc⟩
    refine ⟨log', ?_, hrel⟩
    rw [List.foldl_cons, hround, hcode, List.length_cons, Nat.sub_sub, Nat.add_comm 1]

/-- **`rte_mempool_free_memchunks`** empties the pool, and everything that was held is released. -/
theorem Filled.freed {n : Nat} (h : Filled mp n log) :
    ∃ mp' log', rteMempoolFreeMemchunks mp log = (mp', log') ∧ mp'.Empty ∧ mp'.size = mp.size ∧
      Released log' := by
  have hsize := h.size
  have hmissing := h.missing
  have hfew := h.few
  have helts := freeElem_iterate h.elts.le (by omega)
  obtain ⟨log', hcode, hrel⟩ := @foldl_freeChunk
    { mp with
      eltList := mp.eltList.drop mp.eltList.length
      populatedSize := mp.populatedSize - mp.eltList.length
      enqueued := mp.enqueued.drop mp.eltList.length } log mp.memList rfl h.chunks.ge
    (by rw [h.chunks]; omega) h.freeCb h.zones h.hdrs h.clean
  refine ⟨{ mp with
      eltList := mp.eltList.drop mp.eltList.length
      populatedSize := mp.populatedSize - mp.eltList.length
      enqueued := mp.enqueued.drop mp.eltList.length
      memList := []
      nbMemChunks := mp.nbMemChunks - mp.memList.length }, log', ?_, ⟨?_, ?_, ?_, rfl, ?_⟩, rfl, hrel⟩
  · rw [rteMempoolFreeMemchunks, helts]
    exact hcode
  · exact List.drop_length
  · simp only [h.elts, Nat.sub_self]
  · simp only
    rw [List.drop_eq_nil_iff, h.enqueued, h.elts]
  · simp only [h.chunks, Nat.sub_self]

/-! ## The loop -/

/-- What the loop leads to. -/
inductive Populated (size : Nat) : Option (Int × RteMempool × Mem × List Event) → Prop
  | full {mp : RteMempool} {mem : Mem} {log : List Event} (same : mp.size = size) (filled : Filled mp 0 log) :
      Populated size (some (size, mp, mem, log))
  | failed {ret : Int} {mp : RteMempool} {mem : Mem} {log : List Event} (neg : ret < 0) (same : mp.size = size)
      (empty : mp.Empty) (released : Released log) : Populated size (some (ret, mp, mem, log))

theorem Filled.fail {n : Nat} (h : Filled mp n log) {ret : Int} (hret : ret < 0) (mem : Mem) :
    Populated mp.size (some (populateFail ret mp mem log)) := by
  obtain ⟨mp', log', hcode, hempty, hsame, hrel⟩ := h.freed
  rw [populateFail, hcode]
  exact .failed hret hsame hempty hrel

theorem SameHeld.trans {log log' log'' : List Event} (h : SameHeld log log') (h' : SameHeld log' log'') :
    SameHeld log log'' :=
  ⟨h'.zones.trans h.zones, h'.hdrs.trans h.hdrs, fun hc => h'.clean (h.clean hc)⟩

/-- One more chunk. -/
theorem Filled.linked {n mz flags hdr vaddr len : Nat} {l : List Nat} {log' : List Event} (h : Filled mp n log)
    (h0 : mz ≠ 0) (hpos : 0 < l.length) (hroom : mp.populatedSize + l.length ≤ mp.size)
    (hz : heldZones log' = heldZones (.reserve mz :: log))
    (hh : heldHdrs log' = hdr ::ₘ heldHdrs (.reserve mz :: log)) (hc : Clean log') :
    Filled (mp.linked flags l ⟨hdr, vaddr, len, memchunkMzFree, mz⟩) (n - l.length) log' := by
  have hsize := h.size
  have hmissing := h.missing
  have hfew := h.few
  have helts := h.elts
  have henq := h.enqueued
  have hcount : Word.add 32 mp.nbMemChunks 1 = mp.memList.length + 1 := by
    rw [h.chunks, Word.add_eq (by omega)]
  have hperm : ∀ (k : Nat) (f : RteMempoolMemhdr → Nat) (m : RteMempoolMemhdr), f m = k →
      k ::ₘ ((mp.memList.map f : List Nat) : Multiset Nat) = ((mp.memList ++ [m]).map f : List Nat) := by
    intro k f m hk
    rw [Multiset.cons_coe, Multiset.coe_eq_coe, List.map_append, List.map_singleton, hk]
    exact (List.perm_append_singleton k _).symm
  refine ⟨⟨h.sized.header, h.sized.total, h.sized.size⟩, hsize, ?_, ?_, ?_, ?_, ?_, ?_, ?_, ?_, hc⟩
  · simp only [RteMempool.linked]
    omega
  · simp only [RteMempool.linked, List.length_append, List.length_map]
    omega
  · simp only [RteMempool.linked, List.length_append]
    omega
  · simp only [RteMempool.linked, List.length_append, List.length_singleton, hcount]
  · simp only [RteMempool.linked, List.length_append, List.length_singleton]
    omega
  · intro memhdr hm
    rcases List.mem_append.mp hm with hm | hm
    · exact h.freeCb memhdr hm
    · rw [List.mem_singleton.mp hm]
  · rw [hz, heldZones_reserve h0, h.zones]
    exact hperm mz _ _ rfl
  · rw [hh, heldHdrs_reserve, h.hdrs]
    exact hperm hdr _ _ rfl

end

end MempoolPopulate
