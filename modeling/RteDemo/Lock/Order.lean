import RteDemo.Lib.LockProg
import RteDemo.Malloc.RteMalloc

/-!
# The lock order

What every function of the allocator, the memzones, the rings and the mempools does to the four kinds
of locks: `mplock`, `qlock`, `mlock` and one spinlock for each heap. Data is left out; where a
function branches on data, its program may take either branch, early returns and `goto` exits
included. A spinlock is a lock that is only ever taken for writing.

The nesting is `mplock`, `qlock`, `mlock`, heap (`Lock.rank`), and every program is ordered by it
(`Fn.keeps`). Main result: `lock_order`.
-/

namespace LockOrder

open RteDemo Prog

inductive Lock
  | mplock
  | qlock
  | mlock
  | heap (i : Nat)
  deriving DecidableEq, Repr

/-- The nest order: inner locks have higher ranks. -/
def Lock.rank : Lock → Nat
  | .mplock => 0
  | .qlock => 1
  | .mlock => 2
  | .heap _ => 3

theorem Lock.rank_lt (l : Lock) : l.rank < 4 := by
  cases l <;> simp only [Lock.rank] <;> omega

/-! ## `malloc_heap.c`, `malloc_elem.c` -/

def mallocHeapAlloc (i : Nat) : Prog Lock := block [acquire (.heap i) .write, skip, release (.heap i)]

def mallocHeapGetStats (i : Nat) : Prog Lock :=
  block [acquire (.heap i) .write, skip, release (.heap i)]

def mallocElemFree (i : Nat) : Prog Lock :=
  -- bad cookies or an element that is not busy
  opt (block [acquire (.heap i) .write, skip, release (.heap i)])

def mallocElemResize (i : Nat) : Prog Lock :=
  -- the element is large enough already
  opt (seq (acquire (.heap i) .write)
    (alt (release (.heap i))
      -- err_return
      (release (.heap i))))

/-! ## `rte_malloc.c` -/

def rteFree : Prog Lock := opt (pick mallocElemFree)

/-- The loops that try one heap after the other until an allocation succeeds. -/
def tryHeaps : List Nat → Prog Lock
  | [] => skip
  | i :: rest => seq (mallocHeapAlloc i) (opt (tryHeaps rest))

def rteMallocSocket : Prog Lock :=
  opt (pick fun socket => seq (mallocHeapAlloc socket) (opt (tryHeaps (otherHeaps socket))))

def rteMalloc : Prog Lock := rteMallocSocket

def rteZmalloc : Prog Lock := rteMallocSocket

def rteRealloc : Prog Lock :=
  alt rteMalloc
    (seq (opt (pick mallocElemResize))
      -- the block has moved, or could not be moved
      (opt (seq rteMalloc (opt rteFree))))

/-! ## `eal_common_memzone.c` -/

def findHeapMaxFreeElem : Prog Lock :=
  block ((List.range rteMaxNumaNodes).map fun i => opt (mallocHeapGetStats i))

def memzoneReserveAlignedThreadUnsafe : Prog Lock :=
  opt (seq (opt findHeapMaxFreeElem)
    (opt (pick fun socket =>
      seq (mallocHeapAlloc socket)
        (seq (opt (tryHeaps (otherHeaps socket)))
          -- no free descriptor
          (opt (pick mallocElemFree))))))

/-- `rte_memzone_reserve`, `_aligned` and `_bounded`, through
`rte_memzone_reserve_thread_safe`. -/
def rteMemzoneReserve : Prog Lock :=
  block [acquire .mlock .write, memzoneReserveAlignedThreadUnsafe, release .mlock]

def rteMemzoneFree : Prog Lock :=
  opt (seq (block [acquire .mlock .write, skip, release .mlock]) rteFree)

def rteMemzoneLookup : Prog Lock := block [acquire .mlock .read, skip, release .mlock]

/-! ## `rte_ring.c` -/

def rteRingCreate : Prog Lock :=
  opt (seq rteZmalloc
    (opt (block [acquire .qlock .write, seq rteMemzoneReserve (opt rteFree), release .qlock])))

def rteRingFree : Prog Lock :=
  opt (seq rteMemzoneFree
    (opt (seq (acquire .qlock .write)
      (alt (release .qlock)
        (seq (release .qlock) rteFree)))))

/-- `rte_ring_lookup` and `rte_ring_list_dump`. -/
def rteRingTraverse : Prog Lock := block [acquire .qlock .read, skip, release .qlock]

/-! ## `rte_mempool.c` -/

def rteMempoolFreeMemchunks : Prog Lock := loop (seq (opt rteMemzoneFree) rteFree)

def rteMempoolFree : Prog Lock :=
  opt (block [block [acquire .qlock .write, opt rteFree, release .qlock],
    rteMempoolFreeMemchunks,
    -- rte_mempool_ops_free: common_ring_free
    opt rteRingFree,
    rteMemzoneFree])

/-- The exit `exit_unlock` of `rte_mempool_create_empty`. -/
def exitUnlock : Prog Lock := block [release .mplock, rteFree, rteMempoolFree]

def rteMempoolCreateEmpty : Prog Lock :=
  opt (seq (acquire .mplock .write)
    (seq rteZmalloc
      (alt exitUnlock
        (seq rteMemzoneReserve
          (alt exitUnlock
            (seq (block [acquire .qlock .write, skip, release .qlock])
              (release .mplock)))))))

def rteMempoolPopulatePhy : Prog Lock :=
  -- rte_mempool_ops_alloc: common_ring_alloc
  seq (opt rteRingCreate) (opt (seq rteZmalloc (opt rteFree)))

def rteMempoolPopulateDefault : Prog Lock :=
  opt (seq (loop (block [rteMemzoneReserve, opt rteMemzoneReserve, rteMempoolPopulatePhy]))
    -- fail, before a memzone, without one, or after rte_mempool_populate_phy
    (opt (seq (opt (block [rteMemzoneReserve, opt rteMemzoneReserve,
        opt (seq rteMempoolPopulatePhy rteMemzoneFree)]))
      rteMempoolFreeMemchunks)))

def rteMempoolCreate : Prog Lock :=
  seq rteMempoolCreateEmpty
    (opt (alt rteMempoolFree (seq rteMempoolPopulateDefault (opt rteMempoolFree))))

/-- `rte_mempool_lookup` and `rte_mempool_list_dump`. -/
def rteMempoolTraverse : Prog Lock := block [acquire .mplock .read, skip, release .mplock]

/-- The functions a thread may call. -/
inductive Fn
  | rteMalloc
  | rteFree
  | rteRealloc
  | rteMemzoneReserve
  | rteMemzoneReserveAligned
  | rteMemzoneReserveBounded
  | rteMemzoneFree
  | rteMemzoneLookup
  | rteRingCreate
  | rteRingFree
  | rteRingLookup
  | rteRingListDump
  | rteMempoolCreate
  | rteMempoolFree
  | rteMempoolLookup
  | rteMempoolListDump
  deriving DecidableEq, Repr

def Fn.body : Fn → Prog Lock
  | .rteMalloc => LockOrder.rteMalloc
  | .rteFree => LockOrder.rteFree
  | .rteRealloc => LockOrder.rteRealloc
  | .rteMemzoneReserve | .rteMemzoneReserveAligned | .rteMemzoneReserveBounded =>
    LockOrder.rteMemzoneReserve
  | .rteMemzoneFree => LockOrder.rteMemzoneFree
  | .rteMemzoneLookup => LockOrder.rteMemzoneLookup
  | .rteRingCreate => LockOrder.rteRingCreate
  | .rteRingFree => LockOrder.rteRingFree
  | .rteRingLookup | .rteRingListDump => rteRingTraverse
  | .rteMempoolCreate => LockOrder.rteMempoolCreate
  | .rteMempoolFree => LockOrder.rteMempoolFree
  | .rteMempoolLookup | .rteMempoolListDump => rteMempoolTraverse

/-! ## Every function keeps the order -/

/-- Every lock in `H` has a rank below `n`. -/
def Below (n : Nat) (H : List Lock) : Prop := ∀ x ∈ H, x.rank < n

variable {H : List Lock}

theorem Below.mono {m n : Nat} (h : Below m H) (hmn : m ≤ n) : Below n H :=
  fun x hx => Nat.lt_of_lt_of_le (h x hx) hmn

theorem Below.cons {n : Nat} {l : Lock} (h : Below n H) (hl : l.rank < n) : Below n (l :: H) := by
  intro x hx
  rcases List.mem_cons.mp hx with rfl | hx
  · exact hl
  · exact h x hx

/-- A function that may be called with any locks below rank `n` held, and returns with the same
ones. -/
def Keeps (n : Nat) (p : Prog Lock) : Prop := ∀ H, Below n H → Ordered Lock.rank H p H

namespace Keeps

variable {n : Nat} {p q : Prog Lock}

theorem skip : Keeps n skip := fun _ _ => .skip

theorem mono {m : Nat} (h : Keeps n p) (hmn : m ≤ n) : Keeps m p := fun H hH => h H (hH.mono hmn)

theorem seq (hp : Keeps n p) (hq : Keeps n q) : Keeps n (seq p q) := fun H hH => .seq (hp H hH) (hq H hH)

theorem alt (hp : Keeps n p) (hq : Keeps n q) : Keeps n (alt p q) := fun H hH => .alt (hp H hH) (hq H hH)

theorem opt (hp : Keeps n p) : Keeps n (opt p) := skip.alt hp

theorem loop (hp : Keeps n p) : Keeps n (loop p) := fun H hH => .loop (hp H hH)

theorem pick {f : Nat → Prog Lock} (hf : ∀ i, Keeps n (f i)) : Keeps n (pick f) :=
  fun H hH => .pick fun i => hf i H hH

theorem block {ps : List (Prog Lock)} (h : ∀ p ∈ ps, Keeps n p) : Keeps n (block ps) := by
  induction ps with
  | nil => exact skip
  | cons p ps ih =>
    have hp := h p List.mem_cons_self
    have hps := ih fun q hq => h q (List.mem_cons_of_mem _ hq)
    cases ps with
    | nil => exact hp
    | cons q ps => exact hp.seq hps

/-- A lock around `p`. -/
theorem bracket {l : Lock} {m : Mode} (hm : m ≠ .free) (hl : n ≤ l.rank) (hp : Keeps (l.rank + 1) p) :
    Keeps n (Prog.block [acquire l m, p, release l]) := by
  intro H hH
  have hH' : Below l.rank H := hH.mono hl
  exact .bracket hm hH' (hp _ ((hH'.mono (Nat.le_succ _)).cons (Nat.lt_succ_self _)))

end Keeps

theorem mallocHeapAlloc_keeps (i : Nat) : Keeps 3 (mallocHeapAlloc i) :=
  .bracket (by decide) (Nat.le_refl _) .skip

theorem mallocHeapGetStats_keeps (i : Nat) : Keeps 3 (mallocHeapGetStats i) :=
  .bracket (by decide) (Nat.le_refl _) .skip

theorem mallocElemFree_keeps (i : Nat) : Keeps 3 (mallocElemFree i) :=
  .opt (.bracket (by decide) (Nat.le_refl _) .skip)

theorem mallocElemResize_keeps (i : Nat) : Keeps 3 (mallocElemResize i) :=
  .opt fun _ hH => .seq (.acquire (by decide) hH) (.alt .release_head .release_head)

theorem rteFree_keeps : Keeps 3 rteFree := .opt (.pick mallocElemFree_keeps)

theorem tryHeaps_keeps (is : List Nat) : Keeps 3 (tryHeaps is) := by
  induction is with
  | nil => exact .skip
  | cons i is ih => exact (mallocHeapAlloc_keeps i).seq ih.opt

theorem rteMallocSocket_keeps : Keeps 3 rteMallocSocket :=
  .opt (.pick fun socket => (mallocHeapAlloc_keeps socket).seq (.opt (tryHeaps_keeps _)))

theorem rteRealloc_keeps : Keeps 3 rteRealloc :=
  rteMallocSocket_keeps.alt ((Keeps.opt (.pick mallocElemResize_keeps)).seq
    (.opt (rteMallocSocket_keeps.seq rteFree_keeps.opt)))

theorem findHeapMaxFreeElem_keeps : Keeps 3 findHeapMaxFreeElem := by
  refine .block fun p hp => ?_
  obtain ⟨i, -, rfl⟩ := List.mem_map.mp hp
  exact (mallocHeapGetStats_keeps i).opt

theorem memzoneReserveAlignedThreadUnsafe_keeps : Keeps 3 memzoneReserveAlignedThreadUnsafe :=
  .opt (findHeapMaxFreeElem_keeps.opt.seq (.opt (.pick fun socket =>
    (mallocHeapAlloc_keeps socket).seq ((tryHeaps_keeps _).opt.seq
      (.opt (.pick mallocElemFree_keeps))))))

theorem rteMemzoneReserve_keeps : Keeps 2 rteMemzoneReserve :=
  .bracket (by decide) (Nat.le_refl _) memzoneReserveAlignedThreadUnsafe_keeps

theorem rteMemzoneFree_keeps : Keeps 2 rteMemzoneFree := by
  have hclear : Keeps 2 (Prog.block [acquire .mlock .write, .skip, release .mlock]) :=
    .bracket (by decide) (Nat.le_refl _) .skip
  exact .opt (hclear.seq (rteFree_keeps.mono (by decide)))

theorem rteMemzoneLookup_keeps : Keeps 2 rteMemzoneLookup :=
  .bracket (by decide) (Nat.le_refl _) .skip

theorem rteRingCreate_keeps : Keeps 1 rteRingCreate :=
  .opt ((rteMallocSocket_keeps.mono (by decide)).seq (.opt (.bracket (by decide) (Nat.le_refl _)
    (rteMemzoneReserve_keeps.seq (rteFree_keeps.mono (by decide)).opt))))

theorem rteRingFree_keeps : Keeps 1 rteRingFree := by
  refine .opt ((rteMemzoneFree_keeps.mono (by decide)).seq (.opt fun H hH => ?_))
  exact .seq (.acquire (by decide) hH)
    (.alt .release_head (.seq .release_head (rteFree_keeps H (hH.mono (by decide)))))

theorem rteRingTraverse_keeps : Keeps 1 rteRingTraverse :=
  .bracket (by decide) (Nat.le_refl _) .skip

theorem rteMempoolFreeMemchunks_keeps : Keeps 2 rteMempoolFreeMemchunks :=
  .loop (rteMemzoneFree_keeps.opt.seq (rteFree_keeps.mono (by decide)))

theorem rteMempoolFree_keeps : Keeps 1 rteMempoolFree := by
  have hunlink : Keeps 1 (Prog.block [acquire .qlock .write, .opt rteFree, release .qlock]) :=
    .bracket (by decide) (Nat.le_refl _) (rteFree_keeps.mono (by decide)).opt
  exact .opt (hunlink.seq ((rteMempoolFreeMemchunks_keeps.mono (by decide)).seq
    (rteRingFree_keeps.opt.seq (rteMemzoneFree_keeps.mono (by decide)))))

theorem exitUnlock_ordered (hH : Below 0 H) : Ordered Lock.rank (.mplock :: H) exitUnlock H :=
  .seq .release_head (.seq (rteFree_keeps H (hH.mono (by decide)))
    (rteMempoolFree_keeps H (hH.mono (by decide))))

theorem rteMempoolCreateEmpty_keeps : Keeps 0 rteMempoolCreateEmpty := by
  refine .opt fun H hH => ?_
  have hin : Below 1 (.mplock :: H) := (hH.mono (by decide)).cons (by decide)
  refine .seq (.acquire (by decide) hH) (.seq (rteMallocSocket_keeps _ (hin.mono (by decide))) ?_)
  refine .alt (exitUnlock_ordered hH) ?_
  refine .seq (rteMemzoneReserve_keeps _ (hin.mono (by decide))) ?_
  refine .alt (exitUnlock_ordered hH) (.seq ?_ .release_head)
  exact Keeps.bracket (by decide) (Nat.le_refl _) .skip _ hin

theorem rteMempoolPopulatePhy_keeps : Keeps 1 rteMempoolPopulatePhy :=
  rteRingCreate_keeps.opt.seq (.opt ((rteMallocSocket_keeps.mono (by decide)).seq
    (rteFree_keeps.mono (by decide)).opt))

theorem rteMempoolPopulateDefault_keeps : Keeps 1 rteMempoolPopulateDefault := by
  have hres : Keeps 1 rteMemzoneReserve := rteMemzoneReserve_keeps.mono (by decide)
  have hfree : Keeps 1 rteMemzoneFree := rteMemzoneFree_keeps.mono (by decide)
  refine .opt (.seq (.loop (hres.seq (hres.opt.seq rteMempoolPopulatePhy_keeps))) (.opt ?_))
  exact (Keeps.opt (hres.seq (hres.opt.seq (.opt (rteMempoolPopulatePhy_keeps.seq hfree))))).seq
    (rteMempoolFreeMemchunks_keeps.mono (by decide))

theorem rteMempoolCreate_keeps : Keeps 0 rteMempoolCreate :=
  rteMempoolCreateEmpty_keeps.seq (.opt ((rteMempoolFree_keeps.mono (by decide)).alt
    ((rteMempoolPopulateDefault_keeps.mono (by decide)).seq
      (rteMempoolFree_keeps.mono (by decide)).opt)))

theorem rteMempoolTraverse_keeps : Keeps 0 rteMempoolTraverse :=
  .bracket (by decide) (Nat.le_refl _) .skip

theorem Fn.keeps (f : Fn) : Keeps 0 f.body := by
  cases f with
  | rteMalloc => exact rteMallocSocket_keeps.mono (by decide)
  | rteFree => exact rteFree_keeps.mono (by decide)
  | rteRealloc => exact rteRealloc_keeps.mono (by decide)
  | rteMemzoneReserve => exact rteMemzoneReserve_keeps.mono (by decide)
  | rteMemzoneReserveAligned => exact rteMemzoneReserve_keeps.mono (by decide)
  | rteMemzoneReserveBounded => exact rteMemzoneReserve_keeps.mono (by decide)
  | rteMemzoneFree => exact rteMemzoneFree_keeps.mono (by decide)
  | rteMemzoneLookup => exact rteMemzoneLookup_keeps.mono (by decide)
  | rteRingCreate => exact rteRingCreate_keeps.mono (by decide)
  | rteRingFree => exact rteRingFree_keeps.mono (by decide)
  | rteRingLookup => exact rteRingTraverse_keeps.mono (by decide)
  | rteRingListDump => exact rteRingTraverse_keeps.mono (by decide)
  | rteMempoolCreate => exact rteMempoolCreate_keeps
  | rteMempoolFree => exact rteMempoolFree_keeps.mono (by decide)
  | rteMempoolLookup => exact rteMempoolTraverse_keeps
  | rteMempoolListDump => exact rteMempoolTraverse_keeps

/-! ## Main result -/

theorem below_nil (n : Nat) : Below n [] := fun _ hx => absurd hx List.not_mem_nil

/-- A function returns with the locks it was entered with, whatever these are. -/
theorem Fn.returns (f : Fn) {H' : List Lock} (h : Runs H f.body H') : H' = H :=
  (f.keeps [] (below_nil 0)).balanced (K := H) h

theorem stacked_calls (fs : List Fn) : Sys.Stacked Lock.rank [] (fs.map Fn.body) := by
  induction fs with
  | nil => exact .nil
  | cons f fs ih => exact .cons (f.keeps [] (below_nil 0)) ih

/-- Between two calls nothing is held. -/
theorem held_between_calls (fs : List Fn) (h : Sys.Stacked Lock.rank H (fs.map Fn.body)) :
    H = [] := by
  induction fs generalizing H with
  | nil =>
    cases h
    rfl
  | cons f fs ih =>
    cases h with
    | cons hp hk =>
      obtain ⟨X, hX⟩ := Prog.exists_runs f.body H
      have hret : X = H := f.returns hX
      have hout : X = _ := hp.balanced (K := []) (by rwa [List.append_nil])
      rw [← hret, hout, List.append_nil]
      exact ih hk

/-- **The lock order.** Any number of threads, each running any sequence of calls, never reach a
deadlock; between calls a thread holds no lock; and every function returns with the locks it was
entered with, on every path. -/
theorem lock_order {T : Type*} [DecidableEq T] (calls : T → List Fn) {s : Sys T Lock}
    (h : Reach (Sys.Start fun t => (calls t).map Fn.body) Sys.Step s) :
    ¬ s.Deadlocked ∧
      (∀ t fs, s.stack t = List.map Fn.body fs → ∀ l, s.holders l t = .free) ∧
      ∀ (f : Fn) (H H' : List Lock), Runs H f.body H' → H' = H := by
  have hi : Sys.Inv Lock.rank s := Sys.inv_reach (fun t => stacked_calls (calls t)) h
  refine ⟨hi.not_deadlocked Lock.rank_lt, ?_, fun f _ _ => f.returns⟩
  intro t fs ht l
  obtain ⟨H, -, hst, hiff⟩ := hi.held t
  rw [ht] at hst
  rw [held_between_calls fs hst] at hiff
  by_contra hne
  exact absurd ((hiff l).mp hne) List.not_mem_nil

/-- A thread moves on to its next acquisition or release. -/
theorem reach_unfold {T : Type*} [DecidableEq T] {progs : T → List (Prog Lock)} {s : Sys T Lock} (t : T)
    {k k' : List (Prog Lock)} (h : Reach (Sys.Start progs) Sys.Step s) (hs : s.stack t = k)
    (hk : Relation.ReflTransGen Sys.Unfold k k') :
    Reach (Sys.Start progs) Sys.Step { s with stack := Function.update s.stack t k' } := by
  induction hk with
  | refl =>
    rw [← hs, Function.update_eq_self]
    exact h
  | @tail k₁ k₂ _ hk ih =>
    have hnow : Sys.Unfold (Function.update s.stack t k₁ t) k₂ := by rwa [Function.update_self]
    have hstep := Sys.Step.unfold (s := { s with stack := Function.update s.stack t k₁ }) hnow
    simp only [Function.update_idem] at hstep
    exact ih.next hstep

/-- What three threads run: a ring is created, a mempool is created, and the mempools are dumped. -/
def threeCalls : Fin 3 → List Fn := fun
  | 0 => [.rteRingCreate]
  | 1 => [.rteMempoolCreate]
  | 2 => [.rteMempoolListDump]

/-- The first is in `malloc_heap_alloc` for its zone, the second waits for the heap, and the third
waits for the second. -/
theorem lock_order_waiting : ∃ s : Sys (Fin 3) Lock,
    (s.holders .qlock 0 = .write ∧ s.holders .mlock 0 = .write ∧ s.holders (.heap 0) 0 = .write) ∧
      (s.holders .mplock 1 = .write ∧ s.BlockedOn 1 (.heap 0)) ∧ s.BlockedOn 2 .mplock ∧
      ¬ s.Deadlocked := by
  have h0 : Reach (Sys.Start fun t => (threeCalls t).map Fn.body) Sys.Step
      ⟨fun _ _ => .free, fun t => (threeCalls t).map Fn.body⟩ := .start ⟨fun _ _ => rfl, rfl⟩
  -- the list entry
  have h1 := reach_unfold 0 h0 (k := [rteRingCreate]) rfl (.head .altRight (.head .seq
    (.head .altRight (.head (.pick 0) (.head .seq (.head .seq .refl))))))
  have h2 := h1.next (.acquire (t := 0) rfl fun _ => rfl)
  have h3 := reach_unfold 0 h2 rfl (.head .seq (.head .skip .refl))
  have h4 := h3.next (.release (t := 0) rfl)
  -- the ring list, the zone table and the heap again
  have h5 := reach_unfold 0 h4 rfl (.head .altLeft (.head .skip (.head .altRight (.head .seq .refl))))
  have h6 := h5.next (.acquire (t := 0) rfl fun _ => rfl)
  have h7 := reach_unfold 0 h6 rfl (.head .seq (.head .seq (.head .seq .refl)))
  have h8 := h7.next (.acquire (t := 0) rfl fun _ => rfl)
  have h9 := reach_unfold 0 h8 rfl (.head .seq (.head .altRight (.head .seq (.head .altLeft (.head .skip
    (.head .altRight (.head (.pick 0) (.head .seq (.head .seq .refl)))))))))
  have h10 := h9.next (.acquire (t := 0) rfl fun | 0 => rfl | 1 => rfl | 2 => rfl)
  -- the second thread
  have h11 := reach_unfold 1 h10 (k := [rteMempoolCreate]) rfl (.head .seq (.head .altRight (.head .seq .refl)))
  have h12 := h11.next (.acquire (t := 1) rfl fun _ => rfl)
  have h13 := reach_unfold 1 h12 rfl (.head .seq (.head .altRight (.head (.pick 0) (.head .seq (.head .seq .refl)))))
  -- the third
  have h14 := reach_unfold 2 h13 (k := [rteMempoolTraverse]) rfl (.head .seq .refl)
  refine ⟨_, ⟨rfl, rfl, rfl⟩, ⟨rfl, _, _, rfl, fun hgrant => ?_⟩, ⟨_, _, rfl, fun hgrant => ?_⟩,
    (lock_order threeCalls h14).1⟩
  · exact Mode.noConfusion (hgrant 0)
  · exact hgrant 1 rfl

end LockOrder
