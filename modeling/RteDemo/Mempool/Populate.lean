import RteDemo.Common
import RteDemo.Lib.Bytes
import RteDemo.Mempool.ObjSize

/-!
# `rte_mempool_populate_phy`

A chunk of memory is cut into objects: header, element and trailer one behind the other from the
first aligned address on, as long as another object fits and the pool has room. The objects are
handed to the pool's handler one by one.

`populateLoop_eq` gives the loop in closed form; everything about the layout of the objects follows
from their addresses (`objAt`).
-/

namespace MempoolPopulate

open RteDemo Bytes Mempool

/-- `MEMPOOL_F_POOL_CREATED` -/
def mempoolFPoolCreated : Nat := 0x0010

/-- `ENOMEM`, `EINVAL`, `ENOSPC` -/
def enomem : Int := 12
def einval : Int := 22
def enospc : Int := 28

/-- The fields of `struct rte_mempool_objhdr`. -/
inductive ObjhdrField
  | next
  | mp
  deriving DecidableEq

/-- `struct rte_mempool_objhdr` -/
def objhdr : Layout ObjhdrField where
  size := sizeofObjhdr
  off
    | .next => 0
    | .mp => 8
  width
    | .next => 8
    | .mp => 8
  inside f := by cases f <;> decide
  apart f g h := by cases f <;> cases g <;> first | decide | exact absurd rfl h

/-- `struct rte_mempool_memhdr`, at address `hdr`. -/
structure RteMempoolMemhdr where
  hdr : Nat
  addr : Nat
  len : Nat
  freeCb : Nat
  opaqueArg : Nat
  deriving DecidableEq

/-- `struct rte_mempool`, at address `addr`. The lists are in the order of their links; `enqueued` has
the objects given to `rte_mempool_ops_enqueue_bulk`. -/
structure RteMempool where
  addr : Nat
  flags : Nat
  size : Nat
  eltSize : Nat
  headerSize : Nat
  trailerSize : Nat
  populatedSize : Nat
  eltList : List Nat
  nbMemChunks : Nat
  memList : List RteMempoolMemhdr
  enqueued : List Nat

/-- `mempool_add_elem` -/
def mempoolAddElem (mp : RteMempool) (mem : Mem) (obj : Nat) : RteMempool × Mem :=
  let hdr := rtePtrSub obj sizeofObjhdr
  ({ mp with
      eltList := mp.eltList ++ [hdr]
      populatedSize := Word.add 32 mp.populatedSize 1
      enqueued := mp.enqueued ++ [obj] },
    objhdr.set .mp mem hdr mp.addr)

/-- `__mempool_get_header` and `rte_mempool_from_obj` -/
def rteMempoolFromObj (mem : Mem) (obj : Nat) : Nat :=
  objhdr.get .mp mem (rtePtrSub obj sizeofObjhdr)

/-- The loop of `rte_mempool_populate_phy`, with its counter `i`. -/
def populateLoop (vaddr len totalEltSz : Nat) : Nat → RteMempool → Mem → Nat → Nat → RteMempool × Mem × Nat
  | 0, mp, mem, _, i => (mp, mem, i)
  | fuel + 1, mp, mem, off, i =>
    if Word.add 64 off totalEltSz ≤ len ∧ mp.populatedSize < mp.size then
      let off := Word.add 64 off mp.headerSize
      let (mp, mem) := mempoolAddElem mp mem (rtePtrAdd vaddr off)
      let off := Word.add 64 off (Word.add 32 mp.eltSize mp.trailerSize)
      populateLoop vaddr len totalEltSz fuel mp mem off (Word.add 32 i 1)
    else (mp, mem, i)

/-- `RTE_PTR_ALIGN_CEIL(vaddr, align) - vaddr` -/
def alignGap (vaddr align : Nat) : Nat :=
  Word.sub 64 (rteAlignFloor (rtePtrAdd vaddr (align - 1)) (align - 1)) vaddr

/-- The alignment of the first object. -/
def objAlign (flags : Nat) : Nat := if flags &&& mempoolFNoCacheAlign ≠ 0 then 8 else rteCacheLineSize

/-- What the callees answer: `rte_mempool_ops_alloc`, and the memory of the chunk header. -/
structure Env where
  opsAlloc : Int
  memhdr : Nat

/-- An `unsigned` returned as an `int`. -/
def toInt (i : Nat) : Int := (BitVec.ofNat 32 i).toInt

/-- `rte_mempool_populate_phy` -/
def rteMempoolPopulatePhy (env : Env) (mp : RteMempool) (mem : Mem) (vaddr len freeCb opaqueArg : Nat) :
    Int × RteMempool × Mem :=
  if mp.flags &&& mempoolFPoolCreated = 0 ∧ env.opsAlloc ≠ 0 then (env.opsAlloc, mp, mem)
  else
    let mp :=
      if mp.flags &&& mempoolFPoolCreated = 0 then { mp with flags := mp.flags ||| mempoolFPoolCreated }
      else mp
    if mp.populatedSize ≥ mp.size then (-enospc, mp, mem)
    else
      let totalEltSz := Word.add 32 (Word.add 32 mp.headerSize mp.eltSize) mp.trailerSize
      if env.memhdr = 0 then (-enomem, mp, mem)
      else
        let off := alignGap vaddr (objAlign mp.flags)
        let (mp', mem', i) :=
          populateLoop vaddr len totalEltSz (mp.size - mp.populatedSize) mp mem off 0
        if i = 0 then (-einval, mp', mem')
        else
          (toInt i,
            { mp' with
              memList := mp'.memList ++ [⟨env.memhdr, vaddr, len, freeCb, opaqueArg⟩]
              nbMemChunks := Word.add 32 mp'.nbMemChunks 1 },
            mem')

/-! ## The loop in closed form -/

/-- The address of object `i` of a chunk whose objects begin at `base`. -/
def objAt (mp : RteMempool) (base i : Nat) : Nat :=
  base + i * (mp.headerSize + mp.eltSize + mp.trailerSize) + mp.headerSize

/-- The addresses of the first `k` objects. -/
def objs (mp : RteMempool) (base k : Nat) : List Nat := (List.range k).map (objAt mp base)

/-- The pool with these objects added. -/
def RteMempool.added (mp : RteMempool) (l : List Nat) : RteMempool :=
  { mp with
    eltList := mp.eltList ++ l.map (· - sizeofObjhdr)
    populatedSize := mp.populatedSize + l.length
    enqueued := mp.enqueued ++ l }

/-- The memory with the headers of these objects written. -/
def headersSet (mp : RteMempool) (mem : Mem) (l : List Nat) : Mem :=
  l.foldl (fun mem obj => objhdr.set .mp mem (obj - sizeofObjhdr) mp.addr) mem

/-- The number of objects that fit from offset `off` on, up to the room in the pool. -/
def fitting (room off len total : Nat) : Nat := min room ((len - off) / total)

/-- The sizes of an object fit, with a header that holds the object header, and the pool's counts do. -/
structure RteMempool.Sized (mp : RteMempool) : Prop where
  header : sizeofObjhdr ≤ mp.headerSize
  total : mp.headerSize + mp.eltSize + mp.trailerSize < 2 ^ 32
  size : mp.size < 2 ^ 32

section

variable {mp : RteMempool} {mem : Mem} {vaddr len off i fuel total : Nat}

theorem objs_succ (mp : RteMempool) (base k : Nat) :
    objs mp base (k + 1) = (base + mp.headerSize) ::
      objs mp (base + (mp.headerSize + mp.eltSize + mp.trailerSize)) k := by
  rw [objs, objs, List.range_succ_eq_map, List.map_cons, List.map_map]
  refine List.cons_eq_cons.mpr ⟨by simp [objAt], List.map_congr_left fun j _ => ?_⟩
  simp only [Function.comp, objAt, Nat.succ_mul]
  omega

theorem added_cons (mp : RteMempool) (o : Nat) (l : List Nat) :
    mp.added (o :: l) = (mp.added [o]).added l := by
  simp only [RteMempool.added, List.map_cons, List.map_nil, List.length_cons, List.length_nil,
    List.append_assoc, List.cons_append, List.nil_append, RteMempool.mk.injEq, true_and, and_true]
  omega

/-- One more object is added. -/
theorem mempoolAddElem_eq (hpop : mp.populatedSize + 1 < 2 ^ 32) {obj : Nat} (hobj : obj < 2 ^ 64)
    (hhdr : sizeofObjhdr ≤ obj) :
    mempoolAddElem mp mem obj = (mp.added [obj], headersSet mp mem [obj]) := by
  rw [mempoolAddElem, rtePtrSub_eq hhdr hobj, Word.add_eq hpop]
  rfl

theorem fitting_zero {room : Nat} (hpos : 0 < total) (h : len < off + total) : fitting room off len total = 0 := by
  rw [fitting, Nat.div_eq_of_lt (by omega), Nat.min_zero]

theorem fitting_succ {room : Nat} (hpos : 0 < total) (h : off + total ≤ len) :
    fitting (room + 1) off len total = fitting room (off + total) len total + 1 := by
  have hdiv := Nat.div_eq_sub_div hpos (show total ≤ len - off by omega)
  rw [fitting, fitting, hdiv, show len - off - total = len - (off + total) by omega]
  omega

/-- **The loop** adds the objects that fit. -/
theorem populateLoop_eq (hs : mp.Sized) (htotal : mp.headerSize + mp.eltSize + mp.trailerSize = total)
    (hchunk : vaddr + len < 2 ^ 64) (hfuel : mp.populatedSize + fuel = mp.size)
    (hoff : off + fuel * total + total < 2 ^ 64) (hi : i + fuel < 2 ^ 32) :
    populateLoop vaddr len total fuel mp mem off i =
      (mp.added (objs mp (vaddr + off) (fitting fuel off len total)),
        headersSet mp mem (objs mp (vaddr + off) (fitting fuel off len total)),
        i + fitting fuel off len total) := by
  have hh := hs.header
  have ht := hs.total
  have hsz := hs.size
  have hpos : sizeofObjhdr = 16 := rfl
  induction fuel generalizing mp mem off i with
  | zero =>
    rw [show fitting 0 off len total = 0 from Nat.zero_min _, populateLoop]
    simp [objs, RteMempool.added, headersSet]
  | succ fuel ih =>
    rw [Nat.succ_mul] at hoff
    rw [populateLoop, Word.add_eq (by omega)]
    by_cases hfit : off + total ≤ len
    · have hmore : off + total ≤ len ∧ mp.populatedSize < mp.size := ⟨hfit, by omega⟩
      have hoff' : Word.add 64 off mp.headerSize = off + mp.headerSize := Word.add_eq (by omega)
      have hobj : rtePtrAdd vaddr (off + mp.headerSize) = vaddr + off + mp.headerSize := by
        rw [rtePtrAdd_eq (by omega), Nat.add_assoc]
      have hrest : Word.add 64 (off + mp.headerSize) (Word.add 32 mp.eltSize mp.trailerSize) =
          off + total := by
        rw [Word.add_eq (show mp.eltSize + mp.trailerSize < 2 ^ 32 by omega), Word.add_eq (by omega)]
        omega
      rw [if_pos hmore]
      simp only [hoff', hobj, mempoolAddElem_eq (show mp.populatedSize + 1 < 2 ^ 32 by omega)
        (show vaddr + off + mp.headerSize < 2 ^ 64 by omega)
        (show sizeofObjhdr ≤ vaddr + off + mp.headerSize by omega)]
      have hadded : (mp.added [vaddr + off + mp.headerSize]).Sized :=
        ⟨hs.header, hs.total, hs.size⟩
      rw [show Word.add 64 (off + mp.headerSize) (Word.add 32
          (mp.added [vaddr + off + mp.headerSize]).eltSize
          (mp.added [vaddr + off + mp.headerSize]).trailerSize) = off + total from hrest,
        Word.add_eq (show i + 1 < 2 ^ 32 by omega),
        ih hadded htotal (by simp only [RteMempool.added, List.length_cons, List.length_nil]; omega)
          (by omega) (by omega) hh ht hsz,
        fitting_succ (by omega) hfit, objs_succ, htotal, ← Nat.add_assoc vaddr off total]
      refine Prod.ext (added_cons ..).symm (Prod.ext rfl ?_)
      simp only
      omega
    · rw [if_neg fun h => hfit h.1, fitting_zero (by omega) (by omega)]
      simp [objs, RteMempool.added, headersSet]

/-! ## Where the objects are -/

theorem objAt_succ_le {base i j : Nat} (h : i < j) :
    objAt mp base i + (mp.eltSize + mp.trailerSize + mp.headerSize) ≤ objAt mp base j := by
  have hmul : (i + 1) * (mp.headerSize + mp.eltSize + mp.trailerSize) ≤
      j * (mp.headerSize + mp.eltSize + mp.trailerSize) := Nat.mul_le_mul_right _ h
  rw [Nat.succ_mul] at hmul
  unfold objAt
  omega

theorem objs_pairwise (mp : RteMempool) (base k : Nat) : (objs mp base k).Pairwise fun a b =>
    a + (mp.eltSize + mp.trailerSize + mp.headerSize) ≤ b := by
  rw [objs, List.pairwise_map]
  exact List.pairwise_lt_range.imp fun h => objAt_succ_le h

theorem mem_objs {base k o : Nat} : o ∈ objs mp base k ↔ ∃ i < k, objAt mp base i = o := by
  simp [objs]

/-- The objects that fit lie inside the chunk. -/
theorem objs_inside {room o : Nat} (htotal : mp.headerSize + mp.eltSize + mp.trailerSize = total)
    (hle : off ≤ len) (ho : o ∈ objs mp (vaddr + off) (fitting room off len total)) :
    vaddr + off + mp.headerSize ≤ o ∧ o + (mp.eltSize + mp.trailerSize) ≤ vaddr + len := by
  obtain ⟨i, hi, rfl⟩ := mem_objs.mp ho
  have hfit : fitting room off len total ≤ (len - off) / total := Nat.min_le_right _ _
  have hmul : (i + 1) * total ≤ (len - off) / total * total := Nat.mul_le_mul_right total (by omega)
  have hdiv := Nat.div_mul_le_self (len - off) total
  rw [Nat.succ_mul] at hmul
  rw [objAt, htotal]
  omega

theorem objs_dvd {base k o d : Nat} (hbase : d ∣ base) (hh : d ∣ mp.headerSize)
    (ht : d ∣ mp.headerSize + mp.eltSize + mp.trailerSize) (ho : o ∈ objs mp base k) : d ∣ o := by
  obtain ⟨i, -, rfl⟩ := mem_objs.mp ho
  exact Nat.dvd_add (Nat.dvd_add hbase (Nat.dvd_mul_left_of_dvd ht i)) hh

/-! ## The pool of an object -/

theorem headersSet_far {l : List Nat} {x : Nat} (hx : sizeofObjhdr ≤ x)
    (h : ∀ y ∈ l, x + sizeofObjhdr ≤ y) :
    objhdr.get .mp (headersSet mp mem l) (x - sizeofObjhdr) =
      objhdr.get .mp mem (x - sizeofObjhdr) := by
  induction l generalizing mem with
  | nil => rfl
  | cons y l ih =>
    have hy := h y List.mem_cons_self
    have hsize : objhdr.size = sizeofObjhdr := rfl
    have hstep : headersSet mp mem (y :: l) =
        headersSet mp (objhdr.set .mp mem (y - sizeofObjhdr) mp.addr) l := rfl
    rw [hstep, ih fun z hz => h z (List.mem_cons_of_mem _ hz), Layout.get_set_far]
    omega

theorem headersSet_get {l : List Nat} {o : Nat} (haddr : mp.addr < 2 ^ 64)
    (hl : l.Pairwise fun a b => a + sizeofObjhdr ≤ b) (hle : ∀ o ∈ l, sizeofObjhdr ≤ o) (ho : o ∈ l) :
    objhdr.get .mp (headersSet mp mem l) (o - sizeofObjhdr) = mp.addr := by
  induction l generalizing mem with
  | nil => exact absurd ho List.not_mem_nil
  | cons y l ih =>
    rw [List.pairwise_cons] at hl
    have hstep : headersSet mp mem (y :: l) =
        headersSet mp (objhdr.set .mp mem (y - sizeofObjhdr) mp.addr) l := rfl
    rw [hstep]
    rcases List.mem_cons.mp ho with rfl | ho
    · rw [headersSet_far (hle _ List.mem_cons_self) hl.1, Layout.get_set_self]
      exact Nat.mod_eq_of_lt haddr
    · exact ih hl.2 (fun o ho => hle o (List.mem_cons_of_mem _ ho)) ho

/-! ## The chunk -/

theorem objAlign_cases (flags : Nat) :
    flags &&& mempoolFNoCacheAlign = 0 ∧ objAlign flags = 64 ∨
      flags &&& mempoolFNoCacheAlign ≠ 0 ∧ objAlign flags = 8 := by
  unfold objAlign
  split_ifs with h
  · exact .inr ⟨h, rfl⟩
  · exact .inl ⟨not_not.mp h, rfl⟩

/-- The gap leads to the next aligned address. -/
theorem alignGap_spec (vaddr flags : Nat) :
    alignGap vaddr (objAlign flags) < objAlign flags ∧
      objAlign flags ∣ vaddr + alignGap vaddr (objAlign flags) := by
  have hfloor : ∀ k ≤ 64, rteAlignFloor (rtePtrAdd vaddr (2 ^ k - 1)) (2 ^ k - 1) =
      rtePtrAdd vaddr (2 ^ k - 1) / 2 ^ k * 2 ^ k := fun k hk =>
    rteAlignFloor_two_pow (Word.add_lt 64 _ _) hk
  rcases objAlign_cases flags with ⟨-, h⟩ | ⟨-, h⟩
  · have h64 := hfloor 6 (by decide)
    rw [h, alignGap]
    simp only [Nat.reducePow, Nat.reduceSub] at h64 ⊢
    rw [h64]
    unfold rtePtrAdd Word.add Word.sub
    omega
  · have h8 := hfloor 3 (by decide)
    rw [h, alignGap]
    simp only [Nat.reducePow, Nat.reduceSub] at h8 ⊢
    rw [h8]
    unfold rtePtrAdd Word.add Word.sub
    omega

/-- The offset at which the loop starts. -/
def startOff (mp : RteMempool) (vaddr : Nat) : Nat := alignGap vaddr (objAlign mp.flags)

/-- The number of objects of the chunk. -/
def chunkCount (mp : RteMempool) (vaddr len : Nat) : Nat :=
  fitting (mp.size - mp.populatedSize) (startOff mp vaddr) len
    (mp.headerSize + mp.eltSize + mp.trailerSize)

/-- The objects of the chunk. -/
def chunkObjs (mp : RteMempool) (vaddr len : Nat) : List Nat :=
  objs mp (vaddr + startOff mp vaddr) (chunkCount mp vaddr len)

/-- Marking the pool as created changes no other flag. -/
theorem objAlign_created (flags : Nat) : objAlign (flags ||| mempoolFPoolCreated) = objAlign flags := by
  have hand : (flags ||| mempoolFPoolCreated) &&& mempoolFNoCacheAlign = flags &&& mempoolFNoCacheAlign := by
    rw [Nat.and_or_distrib_right, show mempoolFPoolCreated &&& mempoolFNoCacheAlign = 0 by decide,
      Nat.or_zero]
  rw [objAlign, hand, objAlign]

theorem startOff_lt (mp : RteMempool) (vaddr : Nat) : startOff mp vaddr < 64 := by
  have hgap := (alignGap_spec vaddr mp.flags).1
  unfold startOff
  rcases objAlign_cases mp.flags with ⟨-, h⟩ | ⟨-, h⟩ <;> omega

/-- The call, when its callees succeed. -/
theorem populatePhy_eq (hs : mp.Sized) (hroom : mp.populatedSize < mp.size) {env : Env}
    (hready : mp.flags &&& mempoolFPoolCreated ≠ 0 ∨ env.opsAlloc = 0) (hmemhdr : env.memhdr ≠ 0)
    (hchunk : vaddr + len < 2 ^ 64) (freeCb opaqueArg : Nat) : ∃ mp' : RteMempool,
      rteMempoolPopulatePhy env mp mem vaddr len freeCb opaqueArg =
        (if chunkCount mp vaddr len = 0 then -einval else toInt (chunkCount mp vaddr len), mp',
          headersSet mp mem (chunkObjs mp vaddr len)) ∧
      mp'.eltList = mp.eltList ++ (chunkObjs mp vaddr len).map (· - sizeofObjhdr) ∧
      mp'.enqueued = mp.enqueued ++ chunkObjs mp vaddr len ∧
      mp'.populatedSize = mp.populatedSize + chunkCount mp vaddr len := by
  obtain ⟨f, hf, hcreated⟩ : ∃ f, objAlign f = objAlign mp.flags ∧
      (if mp.flags &&& mempoolFPoolCreated = 0 then { mp with flags := mp.flags ||| mempoolFPoolCreated }
        else mp) = { mp with flags := f } := by
    split_ifs
    · exact ⟨_, objAlign_created mp.flags, rfl⟩
    · exact ⟨mp.flags, rfl, rfl⟩
  have hsz := hs.size
  have htotal := hs.total
  have hoff := startOff_lt mp vaddr
  have hsum : Word.add 32 (Word.add 32 mp.headerSize mp.eltSize) mp.trailerSize =
      mp.headerSize + mp.eltSize + mp.trailerSize := by
    rw [Word.add_eq (show mp.headerSize + mp.eltSize < 2 ^ 32 by omega), Word.add_eq htotal]
  have hmul : (mp.size - mp.populatedSize) * (mp.headerSize + mp.eltSize + mp.trailerSize) ≤
      (2 ^ 32 - 1) * (2 ^ 32 - 1) := Nat.mul_le_mul (by omega) (by omega)
  have hfuel : mp.populatedSize + (mp.size - mp.populatedSize) = mp.size := by omega
  have hloop := @populateLoop_eq { mp with flags := f } mem vaddr len (startOff mp vaddr) 0
    (mp.size - mp.populatedSize) _ ⟨hs.header, hs.total, hs.size⟩ rfl hchunk hfuel (by dsimp only; omega)
    (by omega)
  rw [rteMempoolPopulatePhy, if_neg (by tauto), hcreated]
  dsimp only
  rw [if_neg (by omega), if_neg hmemhdr, hf, hsum]
  unfold startOff at hloop
  dsimp only at hloop
  rw [hloop, Nat.zero_add]
  dsimp only
  have hlen : (chunkObjs mp vaddr len).length = chunkCount mp vaddr len := by
    rw [chunkObjs, objs, List.length_map, List.length_range]
  by_cases h0 : chunkCount mp vaddr len = 0
  · refine ⟨_, by rw [if_pos h0]; exact if_pos h0, rfl, rfl, ?_⟩
    exact congrArg (mp.populatedSize + ·) hlen
  · refine ⟨_, by rw [if_neg h0]; exact if_neg h0, rfl, rfl, ?_⟩
    exact congrArg (mp.populatedSize + ·) hlen

/-- **Object layout.** The objects that fit are added in address order, each inside the chunk, apart
from the others, aligned, and with its pool in its header. -/
theorem populatePhy_layout (hs : mp.Sized) (haddr : mp.addr < 2 ^ 64)
    (hroom : mp.populatedSize < mp.size) {env : Env}
    (hready : mp.flags &&& mempoolFPoolCreated ≠ 0 ∨ env.opsAlloc = 0) (hmemhdr : env.memhdr ≠ 0)
    (hchunk : vaddr + len < 2 ^ 64) (freeCb opaqueArg : Nat) :
    ∃ (ret : Int) (mp' : RteMempool) (mem' : Mem) (l : List Nat),
      rteMempoolPopulatePhy env mp mem vaddr len freeCb opaqueArg = (ret, mp', mem') ∧
      l.length = min (mp.size - mp.populatedSize)
        (if startOff mp vaddr ≤ len then
          (len - startOff mp vaddr) / (mp.headerSize + mp.eltSize + mp.trailerSize)
        else 0) ∧
      mp'.eltList = mp.eltList ++ l.map (· - sizeofObjhdr) ∧ mp'.enqueued = mp.enqueued ++ l ∧
      mp'.populatedSize = mp.populatedSize + l.length ∧
      (∀ o ∈ l, vaddr + mp.headerSize ≤ o ∧ o + mp.eltSize + mp.trailerSize ≤ vaddr + len) ∧
      (l.Pairwise fun a b => a + mp.eltSize + mp.trailerSize + mp.headerSize ≤ b) ∧
      (∀ o ∈ l, rteMempoolFromObj mem' o = mp.addr) ∧
      (mp.flags &&& mempoolFNoCacheAlign = 0 → 64 ∣ mp.headerSize →
        64 ∣ mp.headerSize + mp.eltSize + mp.trailerSize → ∀ o ∈ l, 64 ∣ o) ∧
      (8 ∣ mp.headerSize → 8 ∣ mp.headerSize + mp.eltSize + mp.trailerSize → ∀ o ∈ l, 8 ∣ o) := by
  obtain ⟨mp', hcode, helt, henq, hpop⟩ :=
    @populatePhy_eq mp mem vaddr len hs hroom env hready hmemhdr hchunk freeCb opaqueArg
  have hlen : (chunkObjs mp vaddr len).length = chunkCount mp vaddr len := by
    rw [chunkObjs, objs, List.length_map, List.length_range]
  have hh := hs.header
  have hpos : sizeofObjhdr = 16 := rfl
  have hcount : chunkCount mp vaddr len = min (mp.size - mp.populatedSize)
      (if startOff mp vaddr ≤ len then
        (len - startOff mp vaddr) / (mp.headerSize + mp.eltSize + mp.trailerSize) else 0) := by
    rw [chunkCount, fitting]
    split_ifs with hle
    · rfl
    · rw [show len - startOff mp vaddr = 0 by omega, Nat.zero_div]
  have hinside : ∀ o ∈ chunkObjs mp vaddr len, startOff mp vaddr ≤ len ∧
      vaddr + startOff mp vaddr + mp.headerSize ≤ o ∧
        o + (mp.eltSize + mp.trailerSize) ≤ vaddr + len := fun o ho => by
    have hle : startOff mp vaddr ≤ len := by
      by_contra hgt
      rw [if_neg hgt, Nat.min_zero] at hcount
      rw [chunkObjs, hcount] at ho
      exact absurd ho List.not_mem_nil
    exact ⟨hle, objs_inside rfl hle ho⟩
  have hpair := objs_pairwise mp (vaddr + startOff mp vaddr) (chunkCount mp vaddr len)
  have hbase := (alignGap_spec vaddr mp.flags).2
  refine ⟨_, mp', _, chunkObjs mp vaddr len, hcode, hlen.trans hcount, helt, henq, by rw [hpop, hlen],
    fun o ho => ?_, hpair.imp fun h => by omega, fun o ho => ?_, fun hf h64 ht o ho => ?_,
    fun h8 ht o ho => ?_⟩
  · have hin := (hinside o ho).2
    omega
  · have hin := (hinside o ho).2
    rw [rteMempoolFromObj, rtePtrSub_eq (by omega) (by omega)]
    refine headersSet_get haddr (hpair.imp fun h => by omega) (fun o ho => ?_) ho
    have hin := (hinside o ho).2
    omega
  · have h64' : objAlign mp.flags = 64 := by rw [objAlign, if_neg (not_not.mpr hf)]; rfl
    rw [h64'] at hbase
    refine objs_dvd ?_ h64 ht ho
    rw [startOff, h64']
    exact hbase
  · refine objs_dvd (Dvd.dvd.trans ?_ hbase) h8 ht ho
    rcases objAlign_cases mp.flags with ⟨-, h⟩ | ⟨-, h⟩ <;> rw [h]
    decide

end

/-- A pool for four objects of two cache lines. -/
def fourObjs : RteMempool := ⟨2 ^ 20, mempoolFPoolCreated, 4, 64, 64, 0, 0, [], 0, [], []⟩

/-- Three of them fit in 500 bytes from an unaligned address on. -/
theorem populatePhy_layout_fourObjs : ∃ (ret : Int) (mp' : RteMempool) (mem' : Mem) (l : List Nat),
    rteMempoolPopulatePhy ⟨0, 2 ^ 12⟩ fourObjs (fun _ => 0) 1000 500 0 0 = (ret, mp', mem') ∧
      l.length = 3 ∧ ∀ o ∈ l, rteMempoolFromObj mem' o = 2 ^ 20 := by
  have hsized : fourObjs.Sized := ⟨by decide, by decide, by decide⟩
  obtain ⟨ret, mp', mem', l, hcode, hlen, -, -, -, -, -, hpool, -, -⟩ :=
    @populatePhy_layout fourObjs (fun _ => 0) 1000 500 hsized (by decide) (by decide) ⟨0, 2 ^ 12⟩
      (.inr rfl) (by decide) (by decide) 0 0
  have hoff : startOff fourObjs 1000 = 24 := by decide
  rw [hoff] at hlen
  exact ⟨ret, mp', mem', l, hcode, hlen.trans (by decide), hpool⟩

end MempoolPopulate
