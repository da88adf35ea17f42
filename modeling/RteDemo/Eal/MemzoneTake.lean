import RteDemo.Eal.MemzoneMax
import RteDemo.Malloc.Run

/-!
# What a reservation asks the heaps for

The checks of `memzone_reserve_aligned_thread_unsafe` refuse a reservation with nothing changed, or one
length is asked of one heap after the other (`memzoneReserve_take`). If no search wraps, that gives one
more live block or nothing at all (`tryHeaps_inv`).
-/

namespace EalMemzone

open RteDemo EalTailqs

/-- The length to ask for, and the socket. -/
def zoneRequest (env : MemzoneEnv) (heap : HeapState) (len : Nat) (socketId : Int) (align bound : Nat) :
    Nat × Int :=
  memzoneRequest heap (rteAlignFloor (Word.add 64 len (rteCacheLineSize - 1)) (rteCacheLineSize - 1))
    (if env.hasHugepages then socketId else socketIdAny) (zoneAlign align) bound

/-- The heaps that are tried, in order. -/
def zoneHeaps (env : MemzoneEnv) (socketId : Int) : List Nat :=
  if socketId = socketIdAny then
    mallocGetNumaSocket env.toEalEnv :: otherHeaps (mallocGetNumaSocket env.toEalEnv)
  else [socketId.toNat]

/-- In a reservation the round-up does not wrap, nor does a search of `elem_start_pt`. -/
def ZoneExact (env : MemzoneEnv) (heap : HeapState) (len : Nat) (socketId : Int) (flags align bound : Nat) :
    Prop :=
  let req := zoneRequest env heap len socketId align bound
  req.1 + 63 < 2 ^ 64 ∧ ∀ i ∈ zoneHeaps env req.2,
    SearchExact heap (rteCacheLineRoundup 64 req.1) flags (rteCacheLineRoundup 64 (zoneAlign align)) bound
      ((heap.mallocHeaps i).candidates (rteCacheLineRoundup 64 req.1))

section

variable {env : MemzoneEnv} {cfg : MemConfig} {name : CString} {len flags align bound : Nat}
  {socketId : Int} {res : MemConfig × Except MemzoneErrno Nat}

theorem tryHeaps_single (heap : HeapState) (req i : Nat) (flags align bound : Nat) :
    tryHeaps heap req flags align bound [i] = mallocHeapAlloc heap i req flags align bound := by
  have hkeep : ∀ r : HeapState × Nat, (if r.2 ≠ 0 then r else (r.1, 0)) = r := by
    intro r
    by_cases h0 : r.2 = 0
    · have hne : ¬r.2 ≠ 0 := fun h => h h0
      rw [if_neg hne]
      exact Prod.ext rfl h0.symm
    · rw [if_pos h0]
  rw [tryHeaps, tryHeaps]
  generalize mallocHeapAlloc heap i req flags align bound = r
  exact hkeep r

theorem memzoneAlloc_eq (env : MemzoneEnv) (heap : HeapState) (req : Nat) (socketId : Int)
    (flags align bound : Nat) : memzoneAlloc env heap req socketId flags align bound =
      tryHeaps heap req flags align bound (zoneHeaps env socketId) := by
  unfold memzoneAlloc zoneHeaps
  by_cases hany : socketId = socketIdAny
  · rw [if_pos hany, if_pos hany, tryHeaps]
    dsimp only
    generalize mallocHeapAlloc heap (mallocGetNumaSocket env.toEalEnv) req flags align bound = r
    by_cases h0 : r.2 = 0
    · have hand : r.2 = 0 ∧ socketId = socketIdAny := ⟨h0, hany⟩
      have hne : ¬r.2 ≠ 0 := fun h => h h0
      rw [if_pos hand, if_neg hne]
    · have hand : ¬(r.2 = 0 ∧ socketId = socketIdAny) := fun h => h0 h.1
      rw [if_neg hand, if_pos h0]
  · rw [if_neg hany, if_neg hany]
    dsimp only
    generalize otherHeaps socketId.toNat = l
    rw [tryHeaps_single]
    generalize mallocHeapAlloc heap socketId.toNat req flags align bound = r
    have hand : ¬(r.2 = 0 ∧ socketId = socketIdAny) := fun h => hany h.2
    exact if_neg hand

theorem memzoneRequest_pos (heap : HeapState) (align : Nat)
    (h : ¬(len = 0 ∧ bound = 0 ∧ (memzoneRequest heap len socketId align bound).1 = 0)) :
    0 < (memzoneRequest heap len socketId align bound).1 := by
  unfold memzoneRequest at h ⊢
  by_cases hlen : len = 0
  · rw [if_pos hlen] at h ⊢
    by_cases hb : bound = 0
    · rw [if_neg (not_not.mpr hb)] at h ⊢
      exact Nat.pos_of_ne_zero fun h0 => h ⟨hlen, hb, h0⟩
    · rw [if_pos hb]
      exact Nat.pos_of_ne_zero hb
  · rw [if_neg hlen]
    exact Nat.lt_of_lt_of_le (show 0 < rteCacheLineSize by decide) (Nat.le_max_left _ _)

theorem memzoneReserveRequest_take (env : MemzoneEnv) (cfg : MemConfig) (name : CString)
    (len flags align bound : Nat) (r : Nat × Int) :
    memzoneReserveRequest env cfg name len flags align bound r = (cfg, .error .enomem) ∨
      ¬(len = 0 ∧ bound = 0 ∧ r.1 = 0) ∧ memzoneReserveRequest env cfg name len flags align bound r =
        memzoneTake env cfg name r.1 (tryHeaps cfg.heap r.1 flags align bound (zoneHeaps env r.2)) := by
  rw [← memzoneAlloc_eq]
  by_cases h : len = 0 ∧ bound = 0 ∧ r.1 = 0
  · exact .inl (if_pos h)
  · exact .inr ⟨h, if_neg h⟩

/-- The checks of a reservation refuse it with nothing changed, or the heaps are asked. -/
theorem memzoneReserve_take
    (h : memzoneReserveAlignedThreadUnsafe env cfg name len socketId flags align bound = res) :
    (∃ e, res = (cfg, .error e)) ∨
      cfg.memzoneCnt < rteMaxMemzone ∧ NameFree cfg.memzone name ∧
        (align = 0 ∨ rteIsPowerOf2 align = true) ∧ (bound = 0 ∨ rteIsPowerOf2 bound = true) ∧
        0 < (zoneRequest env cfg.heap len socketId align bound).1 ∧
        res = memzoneTake env cfg name (zoneRequest env cfg.heap len socketId align bound).1
          (tryHeaps cfg.heap (zoneRequest env cfg.heap len socketId align bound).1 flags (zoneAlign align)
            bound (zoneHeaps env (zoneRequest env cfg.heap len socketId align bound).2)) := by
  subst h
  unfold memzoneReserveAlignedThreadUnsafe
  dsimp only
  split
  · exact .inl ⟨_, rfl⟩
  rename_i hcnt
  split
  · exact .inl ⟨_, rfl⟩
  rename_i hlen
  split
  · exact .inl ⟨_, rfl⟩
  rename_i hnew
  split
  · exact .inl ⟨_, rfl⟩
  rename_i halign
  split
  · exact .inl ⟨_, rfl⟩
  split
  · exact .inl ⟨_, rfl⟩
  rename_i hbound
  split
  · exact .inl ⟨_, rfl⟩
  rcases memzoneReserveRequest_take env cfg name
    (rteAlignFloor (Word.add 64 len (rteCacheLineSize - 1)) (rteCacheLineSize - 1)) flags (zoneAlign align)
    bound (zoneRequest env cfg.heap len socketId align bound) with hnone | ⟨hreq, htake⟩
  · exact .inl ⟨_, hnone⟩
  refine .inr ⟨by omega, ⟨?_, not_not.mp hnew⟩, ?_, ?_, memzoneRequest_pos _ _ hreq, htake⟩
  · simp only [rteMemzoneNamesize] at hlen ⊢
    omega
  · by_cases h0 : align = 0
    · exact .inl h0
    · exact .inr (by simpa [h0] using halign)
  · by_cases h0 : bound = 0
    · exact .inl h0
    · refine .inr ?_
      by_contra hp
      exact hbound ⟨h0, .inr (Bool.eq_false_iff.mpr hp)⟩

end

/-- One heap refuses with nothing changed, or gives one more live block. -/
theorem heapTry_inv {segs : List RteMemseg} {r : RunState} {ars : List Arena} (h : RteDemo.Inv segs r ars)
    {req flags k bound : Nat} (hk : k < 32) (hb : BoundOK bound) (hround : req + 63 < 2 ^ 64) {i : Nat}
    (hx : SearchExact r.heap (rteCacheLineRoundup 64 req) flags (rteCacheLineRoundup 64 (2 ^ k)) bound
      ((r.heap.mallocHeaps i).candidates (rteCacheLineRoundup 64 req)))
    {res : HeapState × Nat} (hres : mallocHeapAlloc r.heap i req flags (2 ^ k) bound = res) :
    res = (r.heap, 0) ∨ res.2 ≠ 0 ∧
      ∃ ars', RteDemo.Inv segs ⟨res.1, ⟨res.2, req, 2 ^ k, bound, false⟩ :: r.live⟩ ars' := by
  have hle : req ≤ rteCacheLineRoundup 64 req := by
    rw [rteCacheLineRoundup_eq (by decide) hround]
    omega
  have hone := h.heapAlloc hk hb hround hx
  obtain ⟨ars', -, hinv⟩ := h.step_alloc hle hone
  rw [hres] at hone hinv
  rcases hone with hnone | ⟨c, n, front, -, ha⟩
  · exact .inl hnone
  · have hne : res.2 ≠ 0 := by
      rw [ha.ptrEq]
      exact Nat.succ_ne_zero _
    rw [MallocOp.allocated, if_neg hne] at hinv
    exact .inr ⟨hne, ars', hinv⟩

/-- So does a search over heaps. -/
theorem tryHeaps_inv {segs : List RteMemseg} {r : RunState} {ars : List Arena}
    (h : RteDemo.Inv segs r ars) {req flags k bound : Nat} (hk : k < 32) (hb : BoundOK bound)
    (hround : req + 63 < 2 ^ 64) {l : List Nat}
    (hx : ∀ i ∈ l, SearchExact r.heap (rteCacheLineRoundup 64 req) flags (rteCacheLineRoundup 64 (2 ^ k))
      bound ((r.heap.mallocHeaps i).candidates (rteCacheLineRoundup 64 req))) :
    RteDemo.tryHeaps r.heap req flags (2 ^ k) bound l = (r.heap, 0) ∨
      (RteDemo.tryHeaps r.heap req flags (2 ^ k) bound l).2 ≠ 0 ∧ ∃ ars', RteDemo.Inv segs
        ⟨(RteDemo.tryHeaps r.heap req flags (2 ^ k) bound l).1,
          ⟨(RteDemo.tryHeaps r.heap req flags (2 ^ k) bound l).2, req, 2 ^ k, bound, false⟩ :: r.live⟩
        ars' := by
  induction l with
  | nil => exact .inl (Eq.refl _)
  | cons i l ih =>
    have ih := ih fun i hi => hx i (List.mem_cons_of_mem _ hi)
    obtain ⟨res, hres⟩ : ∃ res, mallocHeapAlloc r.heap i req flags (2 ^ k) bound = res :=
      ⟨_, Eq.refl _⟩
    have hone := heapTry_inv h hk hb hround (hx i List.mem_cons_self) hres
    rw [RteDemo.tryHeaps, hres]
    rcases hone with rfl | ⟨hne, hsome⟩
    · rw [if_neg (not_not.mpr (Eq.refl 0))]
      exact ih
    · rw [if_pos hne]
      exact .inr ⟨hne, hsome⟩

end EalMemzone
