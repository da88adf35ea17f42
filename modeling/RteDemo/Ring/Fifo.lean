import RteDemo.Lib.Queue
import RteDemo.Ring.Ring

/-!
# The ring is a bounded FIFO queue

`Repr r q`: between two calls the ring `r` stands for the queue `q`. The index of the first item is
`base`, counted without wrapping; the four words of the ring are `base` and `base + q.length` modulo
`2 ^ 32`, and item `i` is in slot `base + i` modulo the size, which divides `2 ^ 32`.

Every call refines the operation of the queue, single or multi (`Repr.enqueue`, `Repr.dequeue`), and
so does every sequence of calls (`fifo`).
-/

namespace Ring

variable {α : Type}

/-! ## Copying -/

theorem copy_apply (src dst : Nat → α) (s d n x : Nat) :
    copy src dst s d n x = if d ≤ x ∧ x < d + n then src (s + (x - d)) else dst x := by
  induction n generalizing dst s d with
  | zero => rw [copy, if_neg (by omega)]
  | succ n ih =>
    rw [copy, ih]
    by_cases hx : x = d
    · subst hx
      rw [if_neg (by omega), Function.update_self, if_pos (by omega), Nat.sub_self, Nat.add_zero]
    · rw [Function.update_of_ne hx]
      by_cases hlt : d + 1 ≤ x ∧ x < d + 1 + n
      · rw [if_pos hlt, if_pos (by omega), show s + 1 + (x - (d + 1)) = s + (x - d) by omega]
      · rw [if_neg hlt, if_neg (by omega)]

theorem copy_add (src dst : Nat → α) (s d m n : Nat) :
    copy src dst s d (m + n) = copy src (copy src dst s d m) (s + m) (d + m) n := by
  induction m generalizing dst s d with
  | zero => rw [Nat.zero_add]; rfl
  | succ m ih =>
    rw [show m + 1 + n = (m + n) + 1 by omega, copy, ih, copy, Nat.add_assoc s, Nat.add_assoc d,
      Nat.add_comm 1 m]

theorem copy4_eq (src dst : Nat → α) (s d k : Nat) :
    copy4 src dst s d k = copy src dst s d (4 * k) := by
  induction k generalizing dst s d with
  | zero => rfl
  | succ k ih =>
    rw [show 4 * (k + 1) = 4 + 4 * k by omega, copy_add, copy4, ih]
    rfl

theorem copyRest_eq (src dst : Nat → α) (s d : Nat) {n : Nat} (hn : n < 4) :
    copyRest src dst s d n = copy src dst s d n := by
  match n with
  | 0 => rfl
  | 1 => rfl
  | 2 => rfl
  | 3 => rfl

/-- The unrolled loop and the `switch` copy `n` objects. -/
theorem copy_unrolled (src dst : Nat → α) (s d : Nat) {n : Nat} (hn : n < 2 ^ 32) :
    copyRest src (copy4 src dst s d ((n &&& Word.not 32 3) / 4)) (s + (n &&& Word.not 32 3))
      (d + (n &&& Word.not 32 3)) (n &&& 3) = copy src dst s d n := by
  have hk : n &&& Word.not 32 3 = 4 * (n / 4) := by
    rw [show (3 : Nat) = 2 ^ 2 - 1 from rfl, Word.land_not_mask hn (by decide), Nat.mul_comm]
    rfl
  have hm : n &&& 3 = n % 4 := Word.land_mask (k := 2)
  rw [hk, hm, Nat.mul_div_cancel_left _ (by decide), copyRest_eq _ _ _ _ (Nat.mod_lt _ (by decide)),
    copy4_eq, ← copy_add, Nat.div_add_mod]

/-! ## Slots -/

/-- What a ring must satisfy: a power of two of slots, more than its capacity. -/
structure Valid (r : RteRing α) (k : Nat) : Prop where
  le : k ≤ 31
  size : r.size = 2 ^ k
  mask : r.mask = 2 ^ k - 1
  capacity : r.capacity < 2 ^ k

variable {r : RteRing α} {k : Nat}

theorem Valid.pow_le (hv : Valid r k) : 2 ^ k ≤ 2 ^ 31 := Nat.pow_le_pow_right (by decide) hv.le

/-- The slot of an index that has wrapped. -/
theorem Valid.slot (hv : Valid r k) (x : Nat) : x % 2 ^ 32 &&& r.mask = x % 2 ^ k := by
  rw [hv.mask, Word.land_mask,
    Nat.mod_mod_of_dvd x (Nat.pow_dvd_pow 2 (hv.le.trans (by decide : 31 ≤ 32)))]

/-- The slots from `h` on that are behind the array's end come from its start. -/
theorem mod_add {a b m : Nat} (hb : b < m) :
    (a + b) % m = if a % m + b < m then a % m + b else a % m + b - m := by
  rw [Nat.add_mod, Nat.mod_eq_of_lt hb]
  have ha := Nat.mod_lt a (Nat.zero_lt_of_lt hb)
  split
  · exact Nat.mod_eq_of_lt ‹_›
  · rw [Nat.mod_eq_sub_mod (by omega), Nat.mod_eq_of_lt (by omega)]

section

variable (hv : Valid r k) {h n : Nat} (hn : n < 2 ^ k) (tbl : Nat → α)

include hv hn

/-- Slot `h + j` after `ENQUEUE_PTRS` at `h`. -/
theorem enqueuePtrs_apply {j : Nat} (hj : j < 2 ^ k) :
    enqueuePtrs r (h % 2 ^ 32) tbl n ((h + j) % 2 ^ k) =
      if j < n then tbl j else r.slots ((h + j) % 2 ^ k) := by
  have hpow := hv.pow_le
  have hh := Nat.mod_lt h (Nat.two_pow_pos k)
  rw [enqueuePtrs, hv.slot, hv.size, Word.add_eq (by omega)]
  simp only
  rw [mod_add hj]
  split
  · -- everything fits in front of the array's end
    have hcopy := copy_unrolled tbl r.slots 0 (h % 2 ^ k) (show n < 2 ^ 32 by omega)
    rw [Nat.zero_add] at hcopy
    rw [hcopy, copy_apply]
    split_ifs <;> first | omega | exact congrArg tbl (by omega) | rfl
  · rw [copy_apply, copy_apply]
    split_ifs <;> first | omega | exact congrArg tbl (by omega) | rfl

/-- Entry `j` of the table after `DEQUEUE_PTRS` at `h`. -/
theorem dequeuePtrs_apply (j : Nat) :
    dequeuePtrs r (h % 2 ^ 32) tbl n j = if j < n then r.slots ((h + j) % 2 ^ k) else tbl j := by
  have hpow := hv.pow_le
  have hh := Nat.mod_lt h (Nat.two_pow_pos k)
  rw [dequeuePtrs, hv.slot, hv.size, Word.add_eq (by omega)]
  simp only
  split
  · have hcopy := copy_unrolled r.slots tbl (h % 2 ^ k) 0 (show n < 2 ^ 32 by omega)
    rw [Nat.zero_add] at hcopy
    rw [hcopy, copy_apply]
    by_cases hj : j < n
    · have hmod := mod_add (a := h) (show j < 2 ^ k by omega)
      rw [if_pos ⟨Nat.zero_le j, by omega⟩, if_pos hj, hmod, if_pos (by omega), Nat.sub_zero]
    · rw [if_neg fun hc => hj (by omega), if_neg hj]
  · rw [copy_apply, copy_apply]
    by_cases hj : j < n
    · have hmod := mod_add (a := h) (show j < 2 ^ k by omega)
      rw [if_pos hj, hmod]
      by_cases hend : h % 2 ^ k + j < 2 ^ k
      · rw [if_neg fun hc => absurd hc.1 (by omega), if_pos ⟨Nat.zero_le j, by omega⟩, if_pos hend,
          Nat.sub_zero]
      · have hback : 0 + (j - (2 ^ k - h % 2 ^ k)) = h % 2 ^ k + j - 2 ^ k := by omega
        rw [if_pos ⟨by omega, by omega⟩, if_neg hend, hback]
    · rw [if_neg fun hc => hj (by omega), if_neg fun hc => hj (by omega), if_neg hj]

end

/-! ## The representation -/

def RteRingQueueBehavior.amount : RteRingQueueBehavior → Amount
  | .fixed => .fixed
  | .variable => .variable

theorem clip_eq (b : RteRingQueueBehavior) (n e : Nat) : clip b n e = b.amount.take n e := by
  unfold clip Amount.take
  by_cases h : n ≤ e
  · rw [if_neg (by omega), if_pos h]
  · rw [if_pos (by omega), if_neg h]
    cases b <;> rfl

variable {cap : Nat} {q : BoundedQueue α cap}

/-- Between two calls the ring stands for the queue. -/
structure Repr (r : RteRing α) (q : BoundedQueue α cap) : Prop where
  valid : ∃ k, Valid r k
  capacity : r.capacity = cap
  place : ∃ base, r.cons = ⟨base % 2 ^ 32, base % 2 ^ 32⟩ ∧
    r.prod = ⟨(base + q.length) % 2 ^ 32, (base + q.length) % 2 ^ 32⟩ ∧
    ∀ i (hi : i < q.items.length), r.slots ((base + i) % r.size) = q.items[i]

theorem Repr.length_lt (h : Repr r q) : q.length < 2 ^ 31 := by
  obtain ⟨k, hv⟩ := h.valid
  have hpow := hv.pow_le
  have hcap := hv.capacity
  rw [h.capacity] at hcap
  have hle : q.length ≤ cap := q.le
  omega

theorem Repr.cap_lt (h : Repr r q) : cap < 2 ^ 31 := by
  obtain ⟨k, hv⟩ := h.valid
  have hpow := hv.pow_le
  have hcap := hv.capacity
  rw [h.capacity] at hcap
  omega

/-- The free entries, as `__rte_ring_move_prod_head` computes them. -/
theorem Repr.freeEntries (h : Repr r q) :
    Word.sub 32 (Word.add 32 r.capacity r.cons.tail) r.prod.head = q.room := by
  have hcap := h.cap_lt
  obtain ⟨base, hc, hp, -⟩ := h.place
  have hle : q.length ≤ cap := q.le
  rw [hc, hp, h.capacity, Word.add, Nat.add_mod_mod]
  exact Word.sub_mod_of_eq_add (by unfold BoundedQueue.room; omega)
    (by unfold BoundedQueue.room; omega)

/-- The entries, as `__rte_ring_move_cons_head` computes them. -/
theorem Repr.entries (h : Repr r q) : Word.sub 32 r.prod.tail r.cons.head = q.length := by
  have hlt := h.length_lt
  obtain ⟨base, hc, hp, -⟩ := h.place
  rw [hc, hp]
  exact Word.sub_mod_of_eq_add (by omega) rfl

/-! ## One call -/

/-- The ring after `n` objects were enqueued. -/
def RteRing.enqueued (r : RteRing α) (objs : Nat → α) (n : Nat) : RteRing α :=
  { r with
    prod := ⟨Word.add 32 r.prod.head n, Word.add 32 r.prod.head n⟩
    slots := enqueuePtrs r r.prod.head objs n }

/-- The ring after `n` objects were dequeued. -/
def RteRing.dequeued (r : RteRing α) (n : Nat) : RteRing α :=
  { r with cons := ⟨Word.add 32 r.cons.head n, Word.add 32 r.cons.head n⟩ }

/-- With nothing beside it an enqueue succeeds at its first compare-and-set and does not wait. -/
theorem doEnqueue_eq (fuel : Nat) (objs : Nat → α) (n : Nat) (b : RteRingQueueBehavior) (isSp : Bool)
    (htail : r.prod.tail = r.prod.head) {free : Nat}
    (hfree : Word.sub 32 (Word.add 32 r.capacity r.cons.tail) r.prod.head = free) :
    doEnqueue (fuel + 1) r objs n b isSp =
      some (if clip b n free = 0 then r else r.enqueued objs (clip b n free), clip b n free,
        Word.sub 32 free (clip b n free)) := by
  unfold doEnqueue
  rw [moveProdHead, hfree]
  by_cases h0 : clip b n free = 0
  · simp [h0]
  · simp [h0, updateTail, htail, RteRing.enqueued, enqueuePtrs]

theorem doDequeue_eq (fuel : Nat) (tbl : Nat → α) (n : Nat) (b : RteRingQueueBehavior) (isSc : Bool)
    (htail : r.cons.tail = r.cons.head) {entries : Nat}
    (hentries : Word.sub 32 r.prod.tail r.cons.head = entries) :
    doDequeue (fuel + 1) r tbl n b isSc =
      some (if clip b n entries = 0 then r else r.dequeued (clip b n entries),
        if clip b n entries = 0 then tbl
        else dequeuePtrs r r.cons.head tbl (clip b n entries), clip b n entries,
        Word.sub 32 entries (clip b n entries)) := by
  unfold doDequeue
  rw [moveConsHead, hentries]
  by_cases h0 : clip b n entries = 0
  · simp [h0]
  · simp [h0, updateTail, htail, RteRing.dequeued, dequeuePtrs]

theorem Repr.pushed (h : Repr r q) (objs : Nat → α) (a : Amount) (n : Nat) :
    Repr (r.enqueued objs (q.pushed a n)) (q.push a n objs) := by
  obtain ⟨k, hv⟩ := h.valid
  obtain ⟨base, hc, hp, hslots⟩ := h.place
  have hpush := q.pushed_le a n
  have hlen := q.length_push a n objs
  have hkcap := hv.capacity
  rw [h.capacity] at hkcap
  have hhead : r.prod.head = (base + q.length) % 2 ^ 32 := by rw [hp]
  refine ⟨⟨k, hv.le, hv.size, hv.mask, hv.capacity⟩, h.capacity, base, hc, ?_, fun i hi => ?_⟩
  · have hnew : Word.add 32 r.prod.head (q.pushed a n) =
        (base + (q.push a n objs).length) % 2 ^ 32 := by
      rw [hhead, Word.add, Nat.mod_add_mod, hlen, Nat.add_assoc]
    rw [RteRing.enqueued, hnew]
  · -- old items stay where they are, new ones come from the table
    have hi' : i < q.length + q.pushed a n := hlen ▸ hi
    change enqueuePtrs r r.prod.head objs (q.pushed a n) ((base + i) % r.size) =
      (q.items ++ (List.range (q.pushed a n)).map objs)[i]
    rw [hv.size, hhead]
    rcases Nat.lt_or_ge i q.length with hlt | hge
    · have hwrap : (base + i) % 2 ^ k = (base + q.length + (2 ^ k - q.length + i)) % 2 ^ k := by
        rw [show base + q.length + (2 ^ k - q.length + i) = base + i + 2 ^ k by omega,
          Nat.add_mod_right]
      rw [hwrap, enqueuePtrs_apply hv (by omega) objs (by omega), if_neg (by omega), ← hwrap,
        ← hv.size, hslots i hlt]
      exact (List.getElem_append_left hlt).symm
    · have hoff : base + i = base + q.length + (i - q.length) := by omega
      have hge' : q.items.length ≤ i := hge
      have hnew : i - q.length < ((List.range (q.pushed a n)).map objs).length := by
        simpa using by omega
      have hitem : objs (i - q.length) = ((List.range (q.pushed a n)).map objs)[i - q.length] := by
        simp
      rw [hoff, enqueuePtrs_apply hv (by omega) objs (by omega), if_pos (by omega), hitem]
      exact (List.getElem_append_right hge').symm

theorem Repr.popped (h : Repr r q) (a : Amount) (n : Nat) :
    Repr (r.dequeued (q.popped a n)) (q.pop a n) := by
  obtain ⟨base, hc, hp, hslots⟩ := h.place
  have hpop := q.popped_le a n
  have hlen := q.length_pop a n
  have hhead : r.cons.head = base % 2 ^ 32 := by rw [hc]
  refine ⟨h.valid.imp fun k hv => ⟨hv.le, hv.size, hv.mask, hv.capacity⟩, h.capacity,
    base + q.popped a n, ?_, ?_, fun i hi => ?_⟩
  · have hnew : Word.add 32 r.cons.head (q.popped a n) = (base + q.popped a n) % 2 ^ 32 := by
      rw [hhead, Word.add, Nat.mod_add_mod]
    rw [RteRing.dequeued, hnew]
  · rw [show base + q.popped a n + (q.pop a n).length = base + q.length by omega]
    exact hp
  · have hi' : i < (q.items.drop (q.popped a n)).length := hi
    rw [List.length_drop] at hi'
    change r.slots ((base + q.popped a n + i) % r.size) = _
    rw [Nat.add_assoc, hslots (q.popped a n + i) (by omega)]
    exact List.getElem_drop.symm

/-- What `DEQUEUE_PTRS` leaves in the table. -/
theorem Repr.taken (h : Repr r q) (tbl : Nat → α) (a : Amount) (n : Nat) :
    dequeuePtrs r r.cons.head tbl (q.popped a n) = q.taken a n tbl := by
  obtain ⟨k, hv⟩ := h.valid
  obtain ⟨base, hc, -, hslots⟩ := h.place
  have hpop := q.popped_le a n
  have hkcap := hv.capacity
  rw [h.capacity] at hkcap
  have hle : q.length ≤ cap := q.le
  have hhead : r.cons.head = base % 2 ^ 32 := by rw [hc]
  funext j
  rw [hhead, dequeuePtrs_apply hv (by omega), BoundedQueue.taken]
  by_cases hj : j < q.popped a n
  · have hjl : j < q.items.length := hj.trans_le hpop
    rw [if_pos hj, if_pos hj, ← hv.size, hslots j hjl, List.getD_eq_getElem _ _ hjl]
  · rw [if_neg hj, if_neg hj]

/-- **Enqueue.** The ring after the call stands for the queue after `push`; the count and the free
space are those of the queue, for single and multi producers alike. -/
theorem Repr.enqueue (h : Repr r q) (fuel : Nat) (objs : Nat → α) (n : Nat)
    (b : RteRingQueueBehavior) (isSp : Bool) : ∃ r',
      doEnqueue (fuel + 1) r objs n b isSp =
        some (r', q.pushed b.amount n, (q.push b.amount n objs).room) ∧
      Repr r' (q.push b.amount n objs) := by
  have hcap := h.cap_lt
  have hlen := q.length_push b.amount n objs
  have hle : q.pushed b.amount n ≤ q.room := b.amount.take_le n q.room
  have htail : r.prod.tail = r.prod.head := by
    obtain ⟨base, -, hp, -⟩ := h.place
    rw [hp]
  have hcode := doEnqueue_eq fuel objs n b isSp htail h.freeEntries
  rw [clip_eq, show b.amount.take n q.room = q.pushed b.amount n from rfl] at hcode
  have hroom : Word.sub 32 q.room (q.pushed b.amount n) = (q.push b.amount n objs).room := by
    unfold BoundedQueue.room at hle ⊢
    rw [Word.sub_eq hle (by omega), hlen]
    omega
  rw [hroom] at hcode
  refine ⟨_, hcode, ?_⟩
  split
  · rename_i h0
    have hsame : q.push b.amount n objs = q := by
      simp only [BoundedQueue.push, h0, List.range_zero, List.map_nil, List.append_nil]
    rwa [hsame]
  · exact h.pushed objs b.amount n

/-- **Dequeue.** The ring after the call stands for the queue after `pop`; the table, the count and
the remaining entries are those of the queue, for single and multi consumers alike. -/
theorem Repr.dequeue (h : Repr r q) (fuel : Nat) (tbl : Nat → α) (n : Nat)
    (b : RteRingQueueBehavior) (isSc : Bool) : ∃ r',
      doDequeue (fuel + 1) r tbl n b isSc =
        some (r', q.taken b.amount n tbl, q.popped b.amount n, (q.pop b.amount n).length) ∧
      Repr r' (q.pop b.amount n) := by
  have hlt := h.length_lt
  have hle : q.popped b.amount n ≤ q.length := q.popped_le b.amount n
  have htail : r.cons.tail = r.cons.head := by
    obtain ⟨base, hc, -, -⟩ := h.place
    rw [hc]
  have hcode := doDequeue_eq fuel tbl n b isSc htail h.entries
  rw [clip_eq, show b.amount.take n q.length = q.popped b.amount n from rfl, h.taken,
    Word.sub_eq hle (by omega), ← q.length_pop] at hcode
  by_cases h0 : q.popped b.amount n = 0
  · have hsame : q.pop b.amount n = q := by
      simp only [BoundedQueue.pop, h0, List.drop_zero]
    have htbl : q.taken b.amount n tbl = tbl := by
      funext i
      rw [BoundedQueue.taken, if_neg (by omega)]
    rw [if_pos h0, if_pos h0] at hcode
    exact ⟨r, by rw [htbl]; exact hcode, by rwa [hsame]⟩
  · rw [if_neg h0, if_neg h0] at hcode
    exact ⟨_, hcode, h.popped b.amount n⟩

/-! ## What can be asked in between -/

theorem Repr.count (h : Repr r q) : rteRingCount r = q.length := by
  obtain ⟨k, hv⟩ := h.valid
  obtain ⟨base, hc, hp, -⟩ := h.place
  have hlt := h.length_lt
  have hkcap := hv.capacity
  have hle : q.length ≤ cap := q.le
  rw [h.capacity] at hkcap
  have hsub : Word.sub 32 r.prod.tail r.cons.tail = q.length := by
    rw [hc, hp]
    exact Word.sub_mod_of_eq_add (by omega) rfl
  rw [rteRingCount, hsub, hv.mask, Word.land_mask, Nat.mod_eq_of_lt (by omega), h.capacity]
  exact if_neg (by omega)

theorem Repr.freeCount (h : Repr r q) : rteRingFreeCount r = q.room := by
  have hcap := h.cap_lt
  have hle : q.length ≤ cap := q.le
  rw [rteRingFreeCount, h.count, h.capacity, Word.sub_eq hle (by omega)]
  rfl

theorem Repr.full (h : Repr r q) : rteRingFull r = (q.room == 0) := by
  rw [rteRingFull, h.freeCount]

theorem Repr.empty (h : Repr r q) : rteRingEmpty r = (q.length == 0) := by
  rw [rteRingEmpty, h.count]

/-! ## Sequences of calls -/

/-- A call of the ring, and for the single variants `single = true`. -/
inductive RingOp (α : Type)
  | enqueue (objTable : Nat → α) (n : Nat) (behavior : RteRingQueueBehavior) (single : Bool)
  | dequeue (objTable : Nat → α) (n : Nat) (behavior : RteRingQueueBehavior) (single : Bool)

/-- The same call in the other variant. -/
def RingOp.setSingle (single : Bool) : RingOp α → RingOp α
  | .enqueue objTable n behavior _ => .enqueue objTable n behavior single
  | .dequeue objTable n behavior _ => .dequeue objTable n behavior single

/-- What is seen of a call: the count it returns, `*free_space` or `*available`, the caller's table
after it, and what the ring answers then. -/
structure Seen (α : Type) where
  ret : Nat
  space : Nat
  objTable : Nat → α
  count : Nat
  freeCount : Nat
  full : Bool
  empty : Bool

/-- The answers of the ring after a call. -/
def RteRing.seen (r : RteRing α) (ret space : Nat) (objTable : Nat → α) : Seen α :=
  ⟨ret, space, objTable, rteRingCount r, rteRingFreeCount r, rteRingFull r, rteRingEmpty r⟩

def RingOp.run (fuel : Nat) (r : RteRing α) : RingOp α → Option (RteRing α × Seen α)
  | .enqueue objTable n behavior single => do
    let (r', ret, freeSpace) ← doEnqueue fuel r objTable n behavior single
    some (r', r'.seen ret freeSpace objTable)
  | .dequeue objTable n behavior single => do
    let (r', objTable', ret, available) ← doDequeue fuel r objTable n behavior single
    some (r', r'.seen ret available objTable')

/-- The calls one after the other. -/
def runOps (fuel : Nat) (r : RteRing α) : List (RingOp α) → Option (RteRing α × List (Seen α))
  | [] => some (r, [])
  | op :: ops => do
    let (r', seen) ← op.run fuel r
    let (r'', rest) ← runOps fuel r' ops
    some (r'', seen :: rest)

/-- What must be seen after a call that leaves the queue `q`. -/
def queueSeen (q : BoundedQueue α cap) (ret space : Nat) (objTable : Nat → α) : Seen α :=
  ⟨ret, space, objTable, q.length, q.room, q.room == 0, q.length == 0⟩

/-- The call on the abstract queue. -/
def RingOp.runQueue (q : BoundedQueue α cap) : RingOp α → BoundedQueue α cap × Seen α
  | .enqueue objTable n behavior _ =>
    let q' := q.push behavior.amount n objTable
    (q', queueSeen q' (q.pushed behavior.amount n) q'.room objTable)
  | .dequeue objTable n behavior _ =>
    let q' := q.pop behavior.amount n
    (q', queueSeen q' (q.popped behavior.amount n) q'.length (q.taken behavior.amount n objTable))

def runQueue (q : BoundedQueue α cap) : List (RingOp α) → List (Seen α)
  | [] => []
  | op :: ops => (op.runQueue q).2 :: runQueue (op.runQueue q).1 ops

theorem Repr.seen (h : Repr r q) (ret space : Nat) (objTable : Nat → α) :
    r.seen ret space objTable = queueSeen q ret space objTable := by
  rw [RteRing.seen, queueSeen, h.count, h.freeCount, h.full, h.empty]

/-- One call refines the call on the queue. -/
theorem Repr.run (h : Repr r q) (fuel : Nat) (op : RingOp α) : ∃ r',
    op.run (fuel + 1) r = some (r', (op.runQueue q).2) ∧ Repr r' (op.runQueue q).1 := by
  cases op with
  | enqueue objTable n behavior single =>
    obtain ⟨r', hcode, hr'⟩ := h.enqueue fuel objTable n behavior single
    refine ⟨r', ?_, hr'⟩
    simp only [RingOp.run, hcode, Option.bind_eq_bind, Option.bind_some, hr'.seen]
    rfl
  | dequeue objTable n behavior single =>
    obtain ⟨r', hcode, hr'⟩ := h.dequeue fuel objTable n behavior single
    refine ⟨r', ?_, hr'⟩
    simp only [RingOp.run, hcode, Option.bind_eq_bind, Option.bind_some, hr'.seen]
    rfl

theorem Repr.runOps (h : Repr r q) (fuel : Nat) (ops : List (RingOp α)) :
    (runOps (fuel + 1) r ops).map Prod.snd = some (runQueue q ops) := by
  induction ops generalizing r q with
  | nil => rfl
  | cons op ops ih =>
    obtain ⟨r', hcode, hr'⟩ := h.run fuel op
    obtain ⟨⟨r'', rest⟩, hrest, hsnd⟩ := Option.map_eq_some_iff.1 (ih hr')
    simp only [Ring.runOps, hcode, hrest, Option.bind_eq_bind, Option.bind_some, Option.map_some,
      runQueue]
    exact congrArg (fun l => some ((op.runQueue q).2 :: l)) hsnd

/-- The flag changes neither the ring nor what is seen. -/
theorem Repr.run_setSingle (h : Repr r q) (fuel : Nat) (op : RingOp α) (single : Bool) :
    (op.setSingle single).run (fuel + 1) r = op.run (fuel + 1) r := by
  obtain ⟨base, hc, hp, -⟩ := h.place
  have hptail : r.prod.tail = r.prod.head := by rw [hp]
  have hctail : r.cons.tail = r.cons.head := by rw [hc]
  cases op with
  | enqueue objTable n behavior b =>
    simp only [RingOp.setSingle, RingOp.run, doEnqueue_eq fuel objTable n behavior _ hptail rfl]
  | dequeue objTable n behavior b =>
    simp only [RingOp.setSingle, RingOp.run, doDequeue_eq fuel objTable n behavior _ hctail rfl]

theorem Repr.runOps_setSingle (h : Repr r q) (fuel : Nat) (flag : RingOp α → Bool)
    (ops : List (RingOp α)) :
    Ring.runOps (fuel + 1) r (ops.map fun op => op.setSingle (flag op)) =
      Ring.runOps (fuel + 1) r ops := by
  induction ops generalizing r q with
  | nil => rfl
  | cons op ops ih =>
    obtain ⟨r', hcode, hr'⟩ := h.run fuel op
    simp only [List.map_cons, Ring.runOps, h.run_setSingle, hcode, Option.bind_eq_bind,
      Option.bind_some, ih hr']

/-- A ring whose four indices agree is empty. -/
theorem repr_start (hv : Valid r k) {w : Nat} (hw : w < 2 ^ 32) (hprod : r.prod = ⟨w, w⟩)
    (hcons : r.cons = ⟨w, w⟩) : Repr r (BoundedQueue.empty : BoundedQueue α r.capacity) where
  valid := ⟨k, hv⟩
  capacity := rfl
  place := by
    refine ⟨w, ?_, ?_, fun i hi => absurd hi (Nat.not_lt_zero i)⟩
    · rw [hcons, Nat.mod_eq_of_lt hw]
    · rw [hprod, show (BoundedQueue.empty : BoundedQueue α r.capacity).length = 0 from rfl,
        Nat.add_zero, Nat.mod_eq_of_lt hw]

/-- Every sequence of calls, from indices that agree at any 32-bit value, shows what a queue of
`capacity` items shows, whichever variant each call uses. -/
theorem fifo (hv : Valid r k) {w : Nat} (hw : w < 2 ^ 32) (hprod : r.prod = ⟨w, w⟩)
    (hcons : r.cons = ⟨w, w⟩) (fuel : Nat) (ops : List (RingOp α)) :
    (Ring.runOps (fuel + 1) r ops).map Prod.snd =
        some (runQueue (BoundedQueue.empty : BoundedQueue α r.capacity) ops) ∧
      ∀ flag : RingOp α → Bool,
        Ring.runOps (fuel + 1) r (ops.map fun op => op.setSingle (flag op)) =
          Ring.runOps (fuel + 1) r ops :=
  have h := repr_start hv hw hprod hcons
  ⟨h.runOps fuel ops, fun flag => h.runOps_setSingle fuel flag ops⟩

/-- An exact-size ring of two objects in four slots, at the last index before the wrap. -/
def wrapping : RteRing Nat :=
  ⟨4, 3, 2, ⟨2 ^ 32 - 1, 2 ^ 32 - 1⟩, ⟨2 ^ 32 - 1, 2 ^ 32 - 1⟩, fun _ => 0⟩

def wrappingOps : List (RingOp Nat) :=
  [.enqueue id 5 .variable false, .dequeue id 1 .fixed true]

theorem fifo_wrapping :
    (Ring.runOps 1 wrapping wrappingOps).map Prod.snd =
        some (runQueue (BoundedQueue.empty : BoundedQueue Nat 2) wrappingOps) ∧
      ∀ flag : RingOp Nat → Bool,
        Ring.runOps 1 wrapping (wrappingOps.map fun op => op.setSingle (flag op)) =
          Ring.runOps 1 wrapping wrappingOps :=
  fifo (r := wrapping) (k := 2) ⟨by decide, rfl, rfl, by decide⟩ (w := 2 ^ 32 - 1) (by decide) rfl
    rfl 0 _

end Ring
