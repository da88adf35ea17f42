import RteDemo.Lib.Word
import Mathlib.Logic.Function.Basic

/-!
# `rte_ring`: the calls of one thread

`__rte_ring_do_enqueue` and `__rte_ring_do_dequeue` with nothing running beside them. The four indices
are 32-bit words that wrap; the slots are taken modulo the size of the ring.

A compare-and-set that fails is retried, for as long as the fuel lasts, and a tail that another call
should have moved is waited for: neither happens here, and both are part of the model (`none`).
-/

namespace Ring

/-- `struct rte_ring_headtail` -/
structure RteRingHeadtail where
  head : Nat
  tail : Nat
  deriving DecidableEq

/-- `struct rte_ring`, and the slots behind it. -/
structure RteRing (α : Type) where
  size : Nat
  mask : Nat
  capacity : Nat
  prod : RteRingHeadtail
  cons : RteRingHeadtail
  slots : Nat → α

/-- `enum rte_ring_queue_behavior` -/
inductive RteRingQueueBehavior
  | fixed
  | variable
  deriving DecidableEq, Repr

variable {α : Type}

/-! ## Moving the heads -/

/-- What `__rte_ring_move_prod_head` and `__rte_ring_move_cons_head` return. -/
structure Moved (α : Type) where
  ring : RteRing α
  n : Nat
  oldHead : Nat
  newHead : Nat
  entries : Nat

/-- The number of objects that a call moves when there are `entries` to move. -/
def clip (behavior : RteRingQueueBehavior) (max entries : Nat) : Nat :=
  if max > entries then
    match behavior with
    | .fixed => 0
    | .variable => entries
  else max

/-- `__rte_ring_move_prod_head` -/
def moveProdHead (r : RteRing α) (isSp : Bool) (max : Nat) (behavior : RteRingQueueBehavior) :
    Nat → Option (Moved α)
  | 0 => none
  | fuel + 1 =>
    let oldHead := r.prod.head
    let freeEntries := Word.sub 32 (Word.add 32 r.capacity r.cons.tail) oldHead
    let n := clip behavior max freeEntries
    if n = 0 then some ⟨r, 0, oldHead, oldHead, freeEntries⟩
    else
      let newHead := Word.add 32 oldHead n
      -- a plain store, or a compare-and-set
      if isSp = true ∨ r.prod.head = oldHead then
        some ⟨{ r with prod := { r.prod with head := newHead } }, n, oldHead, newHead, freeEntries⟩
      else moveProdHead r isSp max behavior fuel

/-- `__rte_ring_move_cons_head` -/
def moveConsHead (r : RteRing α) (isSc : Bool) (max : Nat) (behavior : RteRingQueueBehavior) :
    Nat → Option (Moved α)
  | 0 => none
  | fuel + 1 =>
    let oldHead := r.cons.head
    let entries := Word.sub 32 r.prod.tail oldHead
    let n := clip behavior max entries
    if n = 0 then some ⟨r, 0, oldHead, oldHead, entries⟩
    else
      let newHead := Word.add 32 oldHead n
      if isSc = true ∨ r.cons.head = oldHead then
        some ⟨{ r with cons := { r.cons with head := newHead } }, n, oldHead, newHead, entries⟩
      else moveConsHead r isSc max behavior fuel

/-- `update_tail`; a call that is not single waits for the calls before it. -/
def updateTail (ht : RteRingHeadtail) (oldVal newVal : Nat) (single : Bool) :
    Option RteRingHeadtail :=
  if single = true ∨ ht.tail = oldVal then some { ht with tail := newVal } else none

/-! ## Copying -/

/-- `dst[d++] = src[s++]`, `n` times. -/
def copy (src dst : Nat → α) (s d : Nat) : Nat → (Nat → α)
  | 0 => dst
  | n + 1 => copy src (Function.update dst d (src s)) (s + 1) (d + 1) n

/-- The unrolled loop: four objects a round, `k` rounds. -/
def copy4 (src dst : Nat → α) (s d : Nat) : Nat → (Nat → α)
  | 0 => dst
  | k + 1 =>
    let dst := Function.update dst d (src s)
    let dst := Function.update dst (d + 1) (src (s + 1))
    let dst := Function.update dst (d + 2) (src (s + 2))
    let dst := Function.update dst (d + 3) (src (s + 3))
    copy4 src dst (s + 4) (d + 4) k

/-- The `switch` behind the unrolled loop, whose cases fall through. -/
def copyRest (src dst : Nat → α) (s d : Nat) : Nat → (Nat → α)
  | 3 =>
    let dst := Function.update dst d (src s)
    let dst := Function.update dst (d + 1) (src (s + 1))
    Function.update dst (d + 2) (src (s + 2))
  | 2 =>
    let dst := Function.update dst d (src s)
    Function.update dst (d + 1) (src (s + 1))
  | 1 => Function.update dst d (src s)
  | _ => dst

/-- `ENQUEUE_PTRS` -/
def enqueuePtrs (r : RteRing α) (prodHead : Nat) (objTable : Nat → α) (n : Nat) : Nat → α :=
  let idx := prodHead &&& r.mask
  if Word.add 32 idx n < r.size then
    let k := n &&& Word.not 32 3
    copyRest objTable (copy4 objTable r.slots 0 idx (k / 4)) k (idx + k) (n &&& 3)
  else
    let i := r.size - idx
    copy objTable (copy objTable r.slots 0 idx i) i 0 (n - i)

/-- `DEQUEUE_PTRS` -/
def dequeuePtrs (r : RteRing α) (consHead : Nat) (objTable : Nat → α) (n : Nat) : Nat → α :=
  let idx := consHead &&& r.mask
  if Word.add 32 idx n < r.size then
    let k := n &&& Word.not 32 3
    copyRest r.slots (copy4 r.slots objTable idx 0 (k / 4)) (idx + k) k (n &&& 3)
  else
    let i := r.size - idx
    copy r.slots (copy r.slots objTable idx 0 i) 0 i (n - i)

/-! ## The two operations -/

/-- `__rte_ring_do_enqueue`, with the ring, the returned count and `*free_space`. -/
def doEnqueue (fuel : Nat) (r : RteRing α) (objTable : Nat → α) (n : Nat)
    (behavior : RteRingQueueBehavior) (isSp : Bool) : Option (RteRing α × Nat × Nat) := do
  let m ← moveProdHead r isSp n behavior fuel
  if m.n = 0 then some (m.ring, 0, Word.sub 32 m.entries 0)
  else
    let r := { m.ring with slots := enqueuePtrs m.ring m.oldHead objTable m.n }
    let prod ← updateTail r.prod m.oldHead m.newHead isSp
    some ({ r with prod := prod }, m.n, Word.sub 32 m.entries m.n)

/-- `__rte_ring_do_dequeue`, with the ring, the table, the returned count and `*available`. -/
def doDequeue (fuel : Nat) (r : RteRing α) (objTable : Nat → α) (n : Nat)
    (behavior : RteRingQueueBehavior) (isSc : Bool) :
    Option (RteRing α × (Nat → α) × Nat × Nat) := do
  let m ← moveConsHead r isSc n behavior fuel
  if m.n = 0 then some (m.ring, objTable, 0, Word.sub 32 m.entries 0)
  else
    let objTable := dequeuePtrs m.ring m.oldHead objTable m.n
    let cons ← updateTail m.ring.cons m.oldHead m.newHead isSc
    some ({ m.ring with cons := cons }, objTable, m.n, Word.sub 32 m.entries m.n)

/-- `rte_ring_count` -/
def rteRingCount (r : RteRing α) : Nat :=
  let count := Word.sub 32 r.prod.tail r.cons.tail &&& r.mask
  if count > r.capacity then r.capacity else count

/-- `rte_ring_free_count` -/
def rteRingFreeCount (r : RteRing α) : Nat := Word.sub 32 r.capacity (rteRingCount r)

/-- `rte_ring_full` -/
def rteRingFull (r : RteRing α) : Bool := rteRingFreeCount r == 0

/-- `rte_ring_empty` -/
def rteRingEmpty (r : RteRing α) : Bool := rteRingCount r == 0

end Ring
