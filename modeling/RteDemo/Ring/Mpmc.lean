import RteDemo.Ring.Ring
import RteDemo.Lib.Reach
import Mathlib.Data.List.Basic

/-!
# `rte_ring` with many producers and consumers

Any number of threads enqueue and dequeue, one step at a time: the load of the own head, the load of the
opposite tail, the compare-and-set of the head, the copy of one slot, a test of the tail, the store of
the tail. Memory is sequentially consistent, and the four indices are counters that do not wrap.

Producers and consumers run the same protocol on their own pair of indices (`Side`); they differ in what
bounds the head (`limit`) and in the direction of the copy.

**The invariant** (`Inv`). A thread whose compare-and-set has succeeded owns the positions between its
old and its new head until it stores the tail. Owned positions of one side do not overlap and lie between
the tail and the head of that side. A head that has been loaded may be out of date, but then the
compare-and-set fails: what the tail allowed when it was read, it still allows.

Main result: `mpmc_safe`.
-/

namespace Ring

/-- The two halves of the ring. -/
inductive Side
  | prod
  | cons
  deriving DecidableEq

/-- The fields of `struct rte_ring` that do not change. -/
structure Geometry where
  size : Nat
  mask : Nat
  capacity : Nat

/-- What a call is given; `objTable` is only read by an enqueue. -/
structure Request (α : Type) where
  objTable : Nat → α
  n : Nat
  behavior : RteRingQueueBehavior

/-- Where a thread is. -/
inductive Pc (α : Type)
  | idle
  /-- About to load the own head. -/
  | load (side : Side) (req : Request α)
  /-- About to load the opposite tail. -/
  | read (side : Side) (req : Request α) (oldHead : Nat)
  /-- About to compare and set the head. -/
  | cas (side : Side) (req : Request α) (oldHead n : Nat)
  /-- The head has been moved and `i` slots are copied. With `i = n` the thread tests the tail, and when
  `passed` is set it is about to store it. `got` is what a dequeue has copied. -/
  | claimed (side : Side) (req : Request α) (oldHead n i : Nat) (got : List α) (passed : Bool)

/-- The ring and the threads, and three ghosts: the objects in the order of their positions, the threads
that have claimed a position, and the objects returned with their positions. -/
structure Mpmc (α τ : Type) where
  ht : Side → RteRingHeadtail
  slots : Nat → α
  pc : τ → Pc α
  enq : List α
  owner : Side → Nat → List τ
  returned : List (Nat × α)

/-- The index of slot `i` of a copy of `n` slots in `ENQUEUE_PTRS` and `DEQUEUE_PTRS`. -/
def slotIdx (g : Geometry) (head n i : Nat) : Nat :=
  let idx := head &&& g.mask
  if idx + n < g.size then idx + i
  else if idx + i < g.size then idx + i
  else i - (g.size - idx)

section

variable {α τ : Type} (g : Geometry)

/-- What the head may reach: `capacity + cons.tail` or `prod.tail`. -/
def limit (st : Mpmc α τ) : Side → Nat
  | .prod => g.capacity + (st.ht .cons).tail
  | .cons => (st.ht .prod).tail

variable [DecidableEq τ]

def Mpmc.setPc (st : Mpmc α τ) (t : τ) (pc : Pc α) : Mpmc α τ :=
  { st with pc := Function.update st.pc t pc }

/-- The head moves to `newHead`, and the positions passed belong to `t`. -/
def Mpmc.claim (st : Mpmc α τ) (t : τ) (side : Side) (req : Request α) (oldHead n : Nat) : Mpmc α τ :=
  { st with
    ht := Function.update st.ht side ⟨oldHead + n, (st.ht side).tail⟩
    pc := Function.update st.pc t (.claimed side req oldHead n 0 [] false)
    enq := if side = .prod then st.enq ++ (List.range n).map req.objTable else st.enq
    owner := Function.update st.owner side fun k =>
      if oldHead ≤ k ∧ k < oldHead + n then t :: st.owner side k else st.owner side k }

/-- The tail is stored, and the call returns. -/
def Mpmc.publish (st : Mpmc α τ) (t : τ) (side : Side) (oldHead n : Nat) (got : List α) : Mpmc α τ :=
  { st with
    ht := Function.update st.ht side ⟨(st.ht side).head, oldHead + n⟩
    pc := Function.update st.pc t .idle
    returned := st.returned ++ got.zipIdx.map fun p => (oldHead + p.2, p.1) }

/-- One step of one thread. -/
inductive Step : Mpmc α τ → Mpmc α τ → Prop
  | call {st t side req} : st.pc t = .idle → Step st (st.setPc t (.load side req))
  | load {st t side req} : st.pc t = .load side req →
      Step st (st.setPc t (.read side req (st.ht side).head))
  /-- The opposite tail leaves no room for the request: the call returns `0`. -/
  | full {st t side req oldHead} : st.pc t = .read side req oldHead →
      clip req.behavior req.n (limit g st side - oldHead) = 0 → Step st (st.setPc t .idle)
  | read {st t side req oldHead} : st.pc t = .read side req oldHead →
      clip req.behavior req.n (limit g st side - oldHead) ≠ 0 →
      Step st (st.setPc t
        (.cas side req oldHead (clip req.behavior req.n (limit g st side - oldHead))))
  | casFail {st t side req oldHead n} : st.pc t = .cas side req oldHead n →
      (st.ht side).head ≠ oldHead → Step st (st.setPc t (.load side req))
  | cas {st t side req oldHead n} : st.pc t = .cas side req oldHead n →
      (st.ht side).head = oldHead → Step st (st.claim t side req oldHead n)
  | put {st t req oldHead n i got passed} :
      st.pc t = .claimed .prod req oldHead n i got passed → i < n →
      Step st { st.setPc t (.claimed .prod req oldHead n (i + 1) got passed) with
        slots := Function.update st.slots (slotIdx g oldHead n i) (req.objTable i) }
  | get {st t req oldHead n i got passed} :
      st.pc t = .claimed .cons req oldHead n i got passed → i < n →
      Step st (st.setPc t
        (.claimed .cons req oldHead n (i + 1) (got ++ [st.slots (slotIdx g oldHead n i)]) passed))
  /-- A test of the tail that fails is repeated. -/
  | wait {st t side req oldHead n got} : st.pc t = .claimed side req oldHead n n got false →
      (st.ht side).tail ≠ oldHead → Step st st
  | test {st t side req oldHead n got} : st.pc t = .claimed side req oldHead n n got false →
      (st.ht side).tail = oldHead → Step st (st.setPc t (.claimed side req oldHead n n got true))
  | store {st t side req oldHead n got} : st.pc t = .claimed side req oldHead n n got true →
      Step st (st.publish t side oldHead n got)

/-- An empty ring, with no thread inside a call. -/
def Start (st : Mpmc α τ) : Prop :=
  (∀ side, st.ht side = ⟨0, 0⟩) ∧ (∀ t, st.pc t = .idle) ∧ st.enq = [] ∧
    (∀ side k, st.owner side k = []) ∧ st.returned = []

/-! ## The invariant -/

/-- What a thread knows. -/
def PcOk (st : Mpmc α τ) : Pc α → Prop
  | .idle => True
  | .load _ _ => True
  | .read side _ oldHead => oldHead ≤ (st.ht side).head
  | .cas side _ oldHead n => 0 < n ∧ oldHead + n ≤ limit g st side
  | .claimed side req oldHead n i got passed =>
    0 < n ∧ i ≤ n ∧ (st.ht side).tail ≤ oldHead ∧ oldHead + n ≤ (st.ht side).head ∧
    (passed = true → (st.ht side).tail = oldHead) ∧
    match side with
    | .prod => got = [] ∧ (∀ j < n, st.enq[oldHead + j]? = some (req.objTable j)) ∧
        ∀ j < i, st.slots ((oldHead + j) % g.size) = req.objTable j
    | .cons => got.length = i ∧ ∀ j < i, got[j]? = st.enq[oldHead + j]?

/-- The positions that a thread owns. -/
def Owns (st : Mpmc α τ) (t : τ) (side : Side) (a b : Nat) : Prop :=
  ∃ req n i got passed, st.pc t = .claimed side req a n i got passed ∧ b = a + n

/-- What holds in every reachable state. -/
structure Inv (st : Mpmc α τ) : Prop where
  cons_le : (st.ht .cons).tail ≤ (st.ht .cons).head
  mid_le : (st.ht .cons).head ≤ (st.ht .prod).tail
  prod_le : (st.ht .prod).tail ≤ (st.ht .prod).head
  cap_le : (st.ht .prod).head ≤ g.capacity + (st.ht .cons).tail
  length : st.enq.length = (st.ht .prod).head
  /-- The objects between the tails are in their slots. -/
  data : ∀ k, (st.ht .cons).tail ≤ k → k < (st.ht .prod).tail →
    st.enq[k]? = some (st.slots (k % g.size))
  threads : ∀ t, PcOk g st (st.pc t)
  disjoint : ∀ t u side a b a' b', t ≠ u → Owns st t side a b → Owns st u side a' b' →
    b ≤ a' ∨ b' ≤ a
  owned : ∀ side k, k < (st.ht side).head → ∃ t, st.owner side k = [t]
  unowned : ∀ side k, (st.ht side).head ≤ k → st.owner side k = []
  returned : ∀ p ∈ st.returned, st.enq[p.1]? = some p.2

end

/-! ## Slots -/

/-- The shape of a ring that has been accepted. -/
structure Geometry.Accepted (g : Geometry) : Prop where
  pow : ∃ k, g.size = 2 ^ k
  mask : g.mask = g.size - 1
  capacity : 0 < g.capacity ∧ g.capacity < g.size

theorem slotIdx_eq {g : Geometry} (hg : g.Accepted) {head n i : Nat} (hi : i < n)
    (hn : n ≤ g.capacity) : slotIdx g head n i = (head + i) % g.size := by
  obtain ⟨k, hk⟩ := hg.pow
  have hcap := hg.capacity
  have hmask : head &&& g.mask = head % g.size := by
    rw [hg.mask, hk, Nat.and_two_pow_sub_one_eq_mod]
  have hlt : head % g.size < g.size := Nat.mod_lt _ (by omega)
  have hadd : (head + i) % g.size = (head % g.size + i) % g.size := (Nat.mod_add_mod ..).symm
  rw [slotIdx, hmask, hadd]
  generalize head % g.size = idx at hlt
  split_ifs with h1 h2
  · exact (Nat.mod_eq_of_lt (by omega)).symm
  · exact (Nat.mod_eq_of_lt h2).symm
  · rw [Nat.mod_eq_sub_mod (by omega), Nat.mod_eq_of_lt (by omega)]
    omega

theorem clip_le (behavior : RteRingQueueBehavior) (max entries : Nat) :
    clip behavior max entries ≤ entries := by
  unfold clip
  split_ifs with h
  · cases behavior
    · exact Nat.zero_le entries
    · exact Nat.le_refl entries
  · exact Nat.le_of_not_lt h

/-- Positions less than the size apart have different slots. -/
theorem mod_ne_of_lt {a b size : Nat} (hlt : a < b) (hclose : b - a < size) : a % size ≠ b % size := by
  intro h
  have hzero := Nat.sub_mod_eq_zero_of_mod_eq h.symm
  rw [Nat.mod_eq_of_lt hclose] at hzero
  omega

/-! ## Steps keep the invariant -/

section

variable {α τ : Type} {g : Geometry} {st : Mpmc α τ} {t : τ}

theorem inv_start (h : Start st) : Inv g st := by
  obtain ⟨hht, hpc, henq, howner, hret⟩ := h
  have hnone : ∀ u side a b, ¬Owns st u side a b := by
    intro u side a b ⟨_, _, _, _, _, hown, _⟩
    rw [hpc u] at hown
    exact nomatch hown
  refine ⟨?_, ?_, ?_, ?_, ?_, ?_, fun u => ?_, fun u v side a b a' b' _ hu _ => absurd hu (hnone u side a b),
    ?_, fun side k _ => howner side k, ?_⟩
  · rw [hht]
  · rw [hht, hht]
  · rw [hht]
  · rw [hht, hht]
    exact Nat.zero_le _
  · rw [henq, hht]
    rfl
  · intro k _ hk
    rw [hht] at hk
    exact absurd hk (Nat.not_lt_zero k)
  · rw [hpc u]
    trivial
  · intro side k hk
    rw [hht] at hk
    exact absurd hk (Nat.not_lt_zero k)
  · intro p hp
    rw [hret] at hp
    exact absurd hp List.not_mem_nil

/-- A thread that has not claimed anything owns nothing. -/
theorem not_owns {pc : Pc α} (hpc : st.pc t = pc)
    (hno : ∀ side req a n i got passed, pc ≠ .claimed side req a n i got passed) {side : Side}
    {a b : Nat} : ¬Owns st t side a b := by
  intro ⟨req, n, i, got, passed, hown, _⟩
  exact hno side req a n i got passed (hpc.symm.trans hown)

/-- What `t` owns is between the indices of its side, and no more than fits the ring. -/
theorem Inv.bounds (h : Inv g st) {side : Side} {req : Request α} {a n i : Nat} {got : List α}
    {passed : Bool} (hpc : st.pc t = .claimed side req a n i got passed) :
    0 < n ∧ i ≤ n ∧ (st.ht side).tail ≤ a ∧ a + n ≤ (st.ht side).head ∧ n ≤ g.capacity ∧
      (st.ht .cons).tail ≤ a ∧ a + n ≤ (st.ht .prod).head := by
  have hok := h.threads t
  rw [hpc] at hok
  obtain ⟨hn, hi, htail, hhead, -⟩ := hok
  have h1 := h.cons_le
  have h2 := h.mid_le
  have h3 := h.prod_le
  have h4 := h.cap_le
  refine ⟨hn, hi, htail, hhead, ?_⟩
  cases side with
  | prod => omega
  | cons => omega

/-- Indices that only grow, and objects that stay, keep what a thread knows. -/
theorem PcOk.mono {st' : Mpmc α τ} {pc : Pc α} (h : PcOk g st pc)
    (hhead : ∀ side, (st.ht side).head ≤ (st'.ht side).head)
    (htail : ∀ side, (st.ht side).tail ≤ (st'.ht side).tail)
    (hclaimed : ∀ side req a n i got passed, pc = .claimed side req a n i got passed →
      (st'.ht side).tail ≤ a ∧ (passed = true → (st'.ht side).tail = a) ∧
      (∀ j < n, st'.enq[a + j]? = st.enq[a + j]?) ∧
      (side = .prod → ∀ j < i, st'.slots ((a + j) % g.size) = st.slots ((a + j) % g.size))) :
    PcOk g st' pc := by
  cases pc with
  | idle => trivial
  | load => trivial
  | read side req old => exact h.trans (hhead side)
  | cas side req old n =>
    refine ⟨h.1, h.2.trans ?_⟩
    cases side with
    | prod => exact Nat.add_le_add_left (htail .cons) g.capacity
    | cons => exact htail .prod
  | claimed side req a n i got passed =>
    obtain ⟨hn, hi, -, hle, -, hside⟩ := h
    obtain ⟨htl, hpassed, henq, hslots⟩ := hclaimed side req a n i got passed rfl
    refine ⟨hn, hi, htl, hle.trans (hhead side), hpassed, ?_⟩
    cases side with
    | prod =>
      obtain ⟨hgot, hobj, hdone⟩ := hside
      refine ⟨hgot, fun j hj => (henq j hj).trans (hobj j hj), fun j hj => ?_⟩
      rw [hslots rfl j hj]
      exact hdone j hj
    | cons =>
      obtain ⟨hlen, hgot⟩ := hside
      exact ⟨hlen, fun j hj => (hgot j hj).trans (henq j (hj.trans_le hi)).symm⟩

/-- Positions from the first that is still to be read on have different slots. -/
theorem Inv.slot_ne (h : Inv g st) (hg : g.Accepted) {a b : Nat} (hne : a ≠ b)
    (ha : (st.ht .cons).tail ≤ a) (ha' : a < (st.ht .prod).head) (hb : (st.ht .cons).tail ≤ b)
    (hb' : b < (st.ht .prod).head) : a % g.size ≠ b % g.size := by
  have hcap := hg.capacity
  have h4 := h.cap_le
  rcases Nat.lt_or_gt_of_ne hne with hlt | hlt
  · exact mod_ne_of_lt hlt (by omega)
  · exact (mod_ne_of_lt hlt (by omega)).symm

variable [DecidableEq τ]

theorem pcOk_setPc (st : Mpmc α τ) (t : τ) (pc pc' : Pc α) :
    PcOk g (st.setPc t pc) pc' = PcOk g st pc' := by
  cases pc' <;> rfl

theorem owns_of_ne {st' : Mpmc α τ} {u : τ} {pc : Pc α} (hpc : st'.pc = Function.update st.pc t pc)
    (hne : u ≠ t) {side : Side} {a b : Nat} (h : Owns st' u side a b) : Owns st u side a b := by
  obtain ⟨req, n, i, got, passed, hown, hb⟩ := h
  rw [hpc, Function.update_of_ne hne] at hown
  exact ⟨req, n, i, got, passed, hown, hb⟩

/-- The thread that moves may give up what it owns, but takes nothing. -/
theorem disjoint_of_owns {st' : Mpmc α τ} (pc : Pc α) (h : Inv g st)
    (hpc : st'.pc = Function.update st.pc t pc)
    (hown : ∀ side a b, Owns st' t side a b → Owns st t side a b) :
    ∀ u v side a b a' b', u ≠ v → Owns st' u side a b → Owns st' v side a' b' → b ≤ a' ∨ b' ≤ a := by
  have hall : ∀ u side a b, Owns st' u side a b → Owns st u side a b := by
    intro u side a b hu
    by_cases hut : u = t
    · exact hut ▸ hown side a b (hut ▸ hu)
    · exact owns_of_ne hpc hut hu
  intro u v side a b a' b' hne hu hv
  exact h.disjoint u v side a b a' b' hne (hall u side a b hu) (hall v side a' b' hv)

theorem setPc_self (st : Mpmc α τ) (t : τ) (pc : Pc α) : (st.setPc t pc).pc t = pc :=
  Function.update_self ..

theorem setPc_of_ne {u : τ} (h : u ≠ t) (pc : Pc α) : (st.setPc t pc).pc u = st.pc u :=
  Function.update_of_ne h _ _

/-- A step that changes where one thread is, and nothing shared. -/
theorem Inv.setPc (h : Inv g st) {pc : Pc α} (hok : PcOk g st pc)
    (hown : ∀ side a b, Owns (st.setPc t pc) t side a b → Owns st t side a b) :
    Inv g (st.setPc t pc) := by
  refine ⟨h.cons_le, h.mid_le, h.prod_le, h.cap_le, h.length, h.data, fun u => ?_,
    disjoint_of_owns pc h rfl hown, h.owned, h.unowned, h.returned⟩
  rw [pcOk_setPc]
  by_cases hu : u = t
  · rw [hu, setPc_self]
    exact hok
  · rw [setPc_of_ne hu]
    exact h.threads u

/-- The compare-and-set has succeeded. -/
theorem Inv.claim (h : Inv g st) {side : Side} {req : Request α} {old n : Nat}
    (hpc : st.pc t = .cas side req old n) (hhead : (st.ht side).head = old) :
    Inv g (st.claim t side req old n) := by
  have hok := h.threads t
  rw [hpc] at hok
  obtain ⟨hn, hlim⟩ := hok
  have h1 := h.cons_le
  have h2 := h.mid_le
  have h3 := h.prod_le
  have h4 := h.cap_le
  have hself : (st.claim t side req old n).ht side = ⟨old + n, (st.ht side).tail⟩ :=
    Function.update_self ..
  have hother : ∀ s, s ≠ side → (st.claim t side req old n).ht s = st.ht s := fun s hs =>
    Function.update_of_ne hs _ _
  have htail : ∀ s, ((st.claim t side req old n).ht s).tail = (st.ht s).tail := by
    intro s
    by_cases hs : s = side
    · rw [hs, hself]
    · rw [hother s hs]
  have hgrow : ∀ s, (st.ht s).head ≤ ((st.claim t side req old n).ht s).head := by
    intro s
    by_cases hs : s = side
    · rw [hs, hself, hhead]
      exact Nat.le_add_right old n
    · rw [hother s hs]
  have henq : ∀ k < (st.ht .prod).head, (st.claim t side req old n).enq[k]? = st.enq[k]? := by
    intro k hk
    cases side with
    | prod => exact List.getElem?_append_left (h.length ▸ hk)
    | cons => rfl
  have hownself : ∀ k, (st.claim t side req old n).owner side k =
      if old ≤ k ∧ k < old + n then t :: st.owner side k else st.owner side k := by
    intro k
    dsimp only [Mpmc.claim]
    rw [Function.update_self]
  refine ⟨?_, ?_, ?_, ?_, ?_, fun k hk hk' => ?_, fun u => ?_, ?_, fun s k hk => ?_, fun s k hk => ?_,
    fun p hp => ?_⟩
  · rw [htail]
    exact h1.trans (hgrow .cons)
  · rw [htail]
    cases side with
    | prod => exact hother .cons (by decide) ▸ h2
    | cons =>
      rw [hself]
      exact hlim
  · rw [htail]
    exact h3.trans (hgrow .prod)
  · rw [htail]
    cases side with
    | prod =>
      rw [hself]
      exact hlim
    | cons => exact hother .prod (by decide) ▸ h4
  · cases side with
    | prod =>
      rw [hself]
      dsimp only [Mpmc.claim]
      rw [if_pos rfl, List.length_append, List.length_map, List.length_range, h.length, hhead]
    | cons =>
      rw [hother .prod (by decide)]
      exact h.length
  · rw [htail] at hk hk'
    rw [henq k (by omega)]
    exact h.data k hk hk'
  · by_cases hu : u = t
    · have hnew : (st.claim t side req old n).pc u = .claimed side req old n 0 [] false := by
        rw [hu]
        exact Function.update_self ..
      rw [hnew]
      refine ⟨hn, Nat.zero_le n, ?_, ?_, fun he => absurd he (by decide), ?_⟩
      · rw [htail, ← hhead]
        cases side with
        | prod => exact h3
        | cons => exact h1
      · rw [hself]
      · cases side with
        | prod =>
          refine ⟨rfl, fun j hj => ?_, fun j hj => absurd hj (Nat.not_lt_zero j)⟩
          have hlen : st.enq.length = old := h.length.trans hhead
          dsimp only [Mpmc.claim]
          rw [if_pos rfl, List.getElem?_append_right (by omega), hlen, Nat.add_sub_cancel_left,
            List.getElem?_map, List.getElem?_range hj]
          rfl
        | cons => exact ⟨rfl, fun j hj => absurd hj (Nat.not_lt_zero j)⟩
    · have hsame : (st.claim t side req old n).pc u = st.pc u := Function.update_of_ne hu _ _
      rw [hsame]
      refine (h.threads u).mono hgrow (fun s => (htail s).ge) ?_
      intro s req' a m i got passed hpcu
      have hb := h.bounds hpcu
      have hoku := h.threads u
      rw [hpcu] at hoku
      rw [htail]
      exact ⟨hoku.2.2.1, hoku.2.2.2.2.1, fun j hj => henq _ (by omega), fun _ _ _ => rfl⟩
  · -- what others own on this side lies below the old head
    have hbelow : ∀ u a b, u ≠ t → Owns (st.claim t side req old n) u side a b → b ≤ old := by
      intro u a b hu ⟨req', m, i, got, passed, hown, hb⟩
      have hpcu : st.pc u = .claimed side req' a m i got passed := by
        rw [← hown]
        exact (Function.update_of_ne hu _ _).symm
      have hbounds := h.bounds hpcu
      rw [hb, ← hhead]
      exact hbounds.2.2.2.1
    have hmine : ∀ s a b, Owns (st.claim t side req old n) t s a b → s = side ∧ a = old := by
      intro s a b ⟨req', m, i, got, passed, hown, hb⟩
      have hnew : (st.claim t side req old n).pc t = .claimed side req old n 0 [] false :=
        Function.update_self ..
      rw [hnew] at hown
      cases hown
      exact ⟨rfl, rfl⟩
    intro u v s a b a' b' hne hu hv
    by_cases hut : u = t
    · rw [hut] at hu hne
      obtain ⟨hs, ha⟩ := hmine s a b hu
      rw [hs] at hv
      exact .inr (ha ▸ hbelow v a' b' hne.symm hv)
    · by_cases hvt : v = t
      · rw [hvt] at hv
        obtain ⟨hs, ha⟩ := hmine s a' b' hv
        rw [hs] at hu
        exact .inl (ha ▸ hbelow u a b hut hu)
      · exact h.disjoint u v s a b a' b' hne (owns_of_ne rfl hut hu) (owns_of_ne rfl hvt hv)
  · by_cases hs : s = side
    · rw [hs, hself] at hk
      rw [hs, hownself]
      by_cases hin : old ≤ k ∧ k < old + n
      · rw [if_pos hin, h.unowned side k (hhead ▸ hin.1)]
        exact ⟨t, rfl⟩
      · rw [if_neg hin]
        have hlt : k < old := by
          have hk' : k < old + n := hk
          omega
        exact h.owned side k (hhead ▸ hlt)
    · rw [hother s hs] at hk
      have hown : (st.claim t side req old n).owner s = st.owner s := Function.update_of_ne hs _ _
      rw [hown]
      exact h.owned s k hk
  · by_cases hs : s = side
    · rw [hs, hself] at hk
      have hk' : old + n ≤ k := hk
      rw [hs, hownself, if_neg (by omega)]
      exact h.unowned side k (by omega)
    · rw [hother s hs] at hk
      have hown : (st.claim t side req old n).owner s = st.owner s := Function.update_of_ne hs _ _
      rw [hown]
      exact h.unowned s k hk
  · have hret := h.returned p hp
    obtain ⟨hlt, -⟩ := List.getElem?_eq_some_iff.mp hret
    rw [henq p.1 (h.length ▸ hlt)]
    exact hret

/-- A producer copies a slot. -/
theorem Inv.put (h : Inv g st) (hg : g.Accepted) {req : Request α} {old n i : Nat} {got : List α}
    {passed : Bool} (hpc : st.pc t = .claimed .prod req old n i got passed) (hi : i < n) :
    Inv g { st.setPc t (.claimed .prod req old n (i + 1) got passed) with
      slots := Function.update st.slots (slotIdx g old n i) (req.objTable i) } := by
  obtain ⟨hn, -, htail, hhead, hcap, hlow, hup⟩ := h.bounds hpc
  have h1 := h.cons_le
  have h2 := h.mid_le
  rw [slotIdx_eq hg hi hcap]
  have hok := h.threads t
  rw [hpc] at hok
  obtain ⟨-, -, -, -, hpassed, hgot, hobj, hdone⟩ := hok
  have hkeep : ∀ k, k ≠ old + i → (st.ht .cons).tail ≤ k → k < (st.ht .prod).head →
      Function.update st.slots ((old + i) % g.size) (req.objTable i) (k % g.size) =
        st.slots (k % g.size) := fun k hk hlo hhi =>
    Function.update_of_ne (h.slot_ne hg hk hlo hhi (by omega) (by omega)) _ _
  refine ⟨h.cons_le, h.mid_le, h.prod_le, h.cap_le, h.length, fun k hk hk' => ?_, fun u => ?_, ?_, h.owned,
    h.unowned, h.returned⟩
  · have h3 := h.prod_le
    have hk'' : k < (st.ht .prod).tail := hk'
    have hslot := hkeep k (by omega) hk (by omega)
    exact (h.data k hk hk').trans (congrArg some hslot.symm)
  · by_cases hu : u = t
    · have hnew : (st.setPc t (.claimed .prod req old n (i + 1) got passed)).pc u =
          .claimed .prod req old n (i + 1) got passed := hu ▸ setPc_self st t _
      dsimp only
      rw [hnew]
      refine ⟨hn, hi, htail, hhead, hpassed, hgot, hobj, fun j hj => ?_⟩
      dsimp only
      by_cases hji : j = i
      · rw [hji, Function.update_self]
      · rw [hkeep (old + j) (by omega) (by omega) (by omega)]
        exact hdone j (by omega)
    · dsimp only
      rw [setPc_of_ne hu]
      refine (h.threads u).mono (fun _ => Nat.le_refl _) (fun _ => Nat.le_refl _) ?_
      intro side req' a m j' got' passed' hpcu
      obtain ⟨hm, hjm, hat, hah, -, hal, hau⟩ := h.bounds hpcu
      have hoku := h.threads u
      rw [hpcu] at hoku
      refine ⟨hat, hoku.2.2.2.2.1, fun _ _ => rfl, fun hside j hj => hkeep (a + j) ?_ (by omega) (by omega)⟩
      -- another producer owns other positions
      rw [hside] at hpcu
      have hdisj := h.disjoint u t .prod a (a + m) old (old + n) hu ⟨_, _, _, _, _, hpcu, rfl⟩
        ⟨_, _, _, _, _, hpc, rfl⟩
      omega
  · refine disjoint_of_owns (.claimed .prod req old n (i + 1) got passed) h rfl ?_
    intro side a b ⟨req', m, j, got', passed', hown, hb⟩
    have hnew := (setPc_self st t (.claimed .prod req old n (i + 1) got passed)).symm.trans hown
    cases hnew
    exact ⟨_, _, _, _, _, hpc, hb⟩

/-- A consumer copies a slot. -/
theorem Inv.get (h : Inv g st) (hg : g.Accepted) {req : Request α} {old n i : Nat} {got : List α}
    {passed : Bool} (hpc : st.pc t = .claimed .cons req old n i got passed) (hi : i < n) :
    Inv g (st.setPc t
      (.claimed .cons req old n (i + 1) (got ++ [st.slots (slotIdx g old n i)]) passed)) := by
  obtain ⟨hn, -, htail, hhead, hcap, hlow, hup⟩ := h.bounds hpc
  have h2 := h.mid_le
  have hok := h.threads t
  rw [hpc] at hok
  obtain ⟨-, -, -, -, hpassed, hlen, hgot⟩ := hok
  rw [slotIdx_eq hg hi hcap]
  refine h.setPc ⟨hn, hi, htail, hhead, hpassed, ?_, fun j hj => ?_⟩ ?_
  · rw [List.length_append, hlen]
    rfl
  · by_cases hji : j = i
    · rw [hji, List.getElem?_append_right hlen.le, hlen, Nat.sub_self, h.data (old + i) (by omega) (by omega)]
      rfl
    · rw [List.getElem?_append_left (by omega)]
      exact hgot j (by omega)
  · intro side a b ⟨req', m, j, got', passed', hown, hb⟩
    rw [setPc_self] at hown
    cases hown
    exact ⟨_, _, _, _, _, hpc, hb⟩

/-- The tail is stored. -/
theorem Inv.publish (h : Inv g st) {side : Side} {req : Request α} {old n : Nat} {got : List α}
    (hpc : st.pc t = .claimed side req old n n got true) : Inv g (st.publish t side old n got) := by
  obtain ⟨hn, -, htail, hhead, -, -, -⟩ := h.bounds hpc
  have hok := h.threads t
  rw [hpc] at hok
  obtain ⟨-, -, -, -, hpassed, hside⟩ := hok
  have hold : (st.ht side).tail = old := hpassed rfl
  have h1 := h.cons_le
  have h2 := h.mid_le
  have h3 := h.prod_le
  have h4 := h.cap_le
  have hself : (st.publish t side old n got).ht side = ⟨(st.ht side).head, old + n⟩ :=
    Function.update_self ..
  have hother : ∀ s, s ≠ side → (st.publish t side old n got).ht s = st.ht s := fun s hs =>
    Function.update_of_ne hs _ _
  have hheads : ∀ s, ((st.publish t side old n got).ht s).head = (st.ht s).head := by
    intro s
    by_cases hs : s = side
    · rw [hs, hself]
    · rw [hother s hs]
  have htails : ∀ s, (st.ht s).tail ≤ ((st.publish t side old n got).ht s).tail := by
    intro s
    by_cases hs : s = side
    · rw [hs, hself, hold]
      exact Nat.le_add_right old n
    · rw [hother s hs]
  refine ⟨?_, ?_, ?_, ?_, ?_, fun k hk hk' => ?_, fun u => ?_, ?_, fun s k hk => ?_, fun s k hk => ?_,
    fun p hp => ?_⟩
  · rw [hheads]
    cases side with
    | prod => exact hother .cons (by decide) ▸ h1
    | cons =>
      rw [hself]
      exact hhead
  · rw [hheads]
    exact h2.trans (htails .prod)
  · rw [hheads]
    cases side with
    | prod =>
      rw [hself]
      exact hhead
    | cons => exact hother .prod (by decide) ▸ h3
  · rw [hheads]
    exact h4.trans (Nat.add_le_add_left (htails .cons) g.capacity)
  · rw [hheads]
    exact h.length
  · have hlow := (htails .cons).trans hk
    cases side with
    | prod =>
      rw [hself] at hk'
      have hk'' : k < old + n := hk'
      by_cases hlt : k < old
      · exact h.data k hlow (by omega)
      · obtain ⟨-, hobj, hdone⟩ := hside
        have hj := hobj (k - old) (by omega)
        have hs := hdone (k - old) (by omega)
        rw [Nat.add_sub_cancel' (by omega)] at hj hs
        exact hj.trans (congrArg some hs.symm)
    | cons =>
      rw [hother .prod (by decide)] at hk'
      exact h.data k hlow hk'
  · by_cases hu : u = t
    · have hnew : (st.publish t side old n got).pc u = .idle := hu ▸ Function.update_self ..
      rw [hnew]
      trivial
    · have hsame : (st.publish t side old n got).pc u = st.pc u := Function.update_of_ne hu _ _
      rw [hsame]
      refine (h.threads u).mono (fun s => (hheads s).ge) htails ?_
      intro s req' a m i got' passed' hpcu
      obtain ⟨hm, -, hat, -⟩ := h.bounds hpcu
      have hoku := h.threads u
      rw [hpcu] at hoku
      refine ⟨?_, fun hp => ?_, fun _ _ => rfl, fun _ _ _ => rfl⟩
      · by_cases hs : s = side
        · rw [hs] at hpcu hat
          have hdisj := h.disjoint u t side a (a + m) old (old + n) hu ⟨_, _, _, _, _, hpcu, rfl⟩
            ⟨_, _, _, _, _, hpc, rfl⟩
          rw [hs, hself]
          dsimp only
          omega
        · rw [hother s hs]
          exact hat
      · have htl := hoku.2.2.2.2.1 hp
        by_cases hs : s = side
        · -- two threads cannot both have found the tail where they start
          rw [hs] at hpcu htl
          have hdisj := h.disjoint u t side a (a + m) old (old + n) hu ⟨_, _, _, _, _, hpcu, rfl⟩
            ⟨_, _, _, _, _, hpc, rfl⟩
          omega
        · rw [hother s hs]
          exact htl
  · refine disjoint_of_owns .idle h rfl fun s a b hu => ?_
    have hidle : (st.publish t side old n got).pc t = .idle := Function.update_self ..
    exact absurd hu (not_owns hidle fun _ _ _ _ _ _ _ he => nomatch he)
  · rw [hheads] at hk
    exact h.owned s k hk
  · rw [hheads] at hk
    exact h.unowned s k hk
  · rcases List.mem_append.mp hp with hp | hp
    · exact h.returned p hp
    · obtain ⟨⟨x, j⟩, hj, rfl⟩ := List.mem_map.mp hp
      have hget : got[j]? = some x := List.mem_zipIdx_iff_getElem?.mp hj
      cases side with
      | prod =>
        obtain ⟨hnil, -, -⟩ := hside
        rw [hnil] at hget
        exact nomatch hget
      | cons =>
        obtain ⟨hlen, heq⟩ := hside
        obtain ⟨hlt, -⟩ := List.getElem?_eq_some_iff.mp hget
        exact (heq j (hlen ▸ hlt)).symm.trans hget

theorem Inv.step (h : Inv g st) (hg : g.Accepted) {st' : Mpmc α τ} (hstep : Step g st st') :
    Inv g st' := by
  have hfree : ∀ {t : τ} {pc : Pc α}, (∀ side req a n i got passed,
      pc ≠ .claimed side req a n i got passed) → ∀ side a b, Owns (st.setPc t pc) t side a b →
        Owns st t side a b := fun hno side a b hown => absurd hown (not_owns (setPc_self st _ _) hno)
  cases hstep with
  | call => exact h.setPc trivial (hfree fun _ _ _ _ _ _ _ he => nomatch he)
  | load => exact h.setPc (Nat.le_refl _) (hfree fun _ _ _ _ _ _ _ he => nomatch he)
  | full => exact h.setPc trivial (hfree fun _ _ _ _ _ _ _ he => nomatch he)
  | @read t side req old hpc hroom =>
    have hok := h.threads t
    rw [hpc] at hok
    have hhead : old ≤ (st.ht side).head := hok
    have hlim : (st.ht side).head ≤ limit g st side := by
      cases side with
      | prod => exact h.cap_le
      | cons => exact h.mid_le
    have hclip := clip_le req.behavior req.n (limit g st side - old)
    exact h.setPc ⟨Nat.pos_of_ne_zero hroom, by omega⟩ (hfree fun _ _ _ _ _ _ _ he => nomatch he)
  | casFail => exact h.setPc trivial (hfree fun _ _ _ _ _ _ _ he => nomatch he)
  | cas hpc hhead => exact h.claim hpc hhead
  | put hpc hi => exact h.put hg hpc hi
  | get hpc hi => exact h.get hg hpc hi
  | wait => exact h
  | @test t side req old n got hpc htail =>
    have hok := h.threads t
    rw [hpc] at hok
    refine h.setPc ⟨hok.1, hok.2.1, hok.2.2.1, hok.2.2.2.1, fun _ => htail, hok.2.2.2.2.2⟩ ?_
    intro s a b ⟨req', m, i, got', passed', hown, hb⟩
    rw [setPc_self] at hown
    cases hown
    exact ⟨_, _, _, _, _, hpc, hb⟩
  | store hpc => exact h.publish hpc

theorem inv_of_reach (hg : g.Accepted) (h : Reach Start (Step g) st) : Inv g st :=
  h.invariant (fun _ hx => inv_start hx) fun _ _ hx hs => hx.step hg hs

/-! ## Safety -/

/-- What the ring promises its threads. -/
structure Safe (g : Geometry) (st : Mpmc α τ) : Prop where
  order : (st.ht .cons).tail ≤ (st.ht .cons).head ∧ (st.ht .cons).head ≤ (st.ht .prod).tail ∧
    (st.ht .prod).tail ≤ (st.ht .prod).head ∧ (st.ht .prod).head ≤ (st.ht .cons).tail + g.capacity
  /-- A position below the head of a side has been claimed once there, a position above it never. -/
  claimed : ∀ side k, (k < (st.ht side).head → ∃ t, st.owner side k = [t]) ∧
    ((st.ht side).head ≤ k → st.owner side k = [])
  /-- The slot a producer is about to write is not one that a consumer has still to copy. -/
  kept : ∀ t u req a n i got passed req' a' n' i' got' passed',
    st.pc t = .claimed .prod req a n i got passed → i < n →
    st.pc u = .claimed .cons req' a' n' i' got' passed' →
    ∀ j, i' ≤ j → j < n' → slotIdx g a n i ≠ slotIdx g a' n' j
  /-- A slot that a consumer has still to copy has been written by the producer of its position, and that
  producer is done. -/
  written : ∀ u req' a' n' i' got' passed', st.pc u = .claimed .cons req' a' n' i' got' passed' →
    (∀ j < n', st.enq[a' + j]? = some (st.slots (slotIdx g a' n' j))) ∧
    ∀ t a b, Owns st t .prod a b → a' + n' ≤ a
  /-- The object returned for a position is the one that was enqueued at it. -/
  returned : ∀ p ∈ st.returned, st.enq[p.1]? = some p.2

/-- **The ring is safe** for any number of producers and consumers and any interleaving of their steps. -/
theorem mpmc_safe (hg : g.Accepted) (h : Reach Start (Step g) st) : Safe g st := by
  have hinv := inv_of_reach hg h
  have h2 := hinv.mid_le
  refine ⟨⟨hinv.cons_le, h2, hinv.prod_le, by rw [Nat.add_comm]; exact hinv.cap_le⟩,
    fun side k => ⟨hinv.owned side k, hinv.unowned side k⟩, ?_, ?_, hinv.returned⟩
  · intro t u req a n i got passed req' a' n' i' got' passed' hpc hi hpcu j _ hj
    obtain ⟨-, -, hat, hah, hcap, hal, hau⟩ := hinv.bounds hpc
    obtain ⟨-, -, hat', hah', hcap', hal', hau'⟩ := hinv.bounds hpcu
    rw [slotIdx_eq hg hi hcap, slotIdx_eq hg hj hcap']
    exact hinv.slot_ne hg (by omega) (by omega) (by omega) (by omega) (by omega)
  · intro u req' a' n' i' got' passed' hpcu
    obtain ⟨-, -, hat', hah', hcap', hal', hau'⟩ := hinv.bounds hpcu
    refine ⟨fun j hj => ?_, fun t a b ⟨req, n, i, got, passed, hpc, hb⟩ => ?_⟩
    · rw [slotIdx_eq hg hj hcap']
      exact hinv.data _ (by omega) (by omega)
    · obtain ⟨-, -, hat, -⟩ := hinv.bounds hpc
      omega

end

/-- An empty ring of four slots, and three threads. -/
def fourSlots : Mpmc Nat (Fin 3) where
  ht := fun _ => ⟨0, 0⟩
  slots := fun _ => 0
  pc := fun _ => .idle
  enq := []
  owner := fun _ _ => []
  returned := []

/-- The first thread has enqueued `7` and `8`, the second has claimed a slot for `9`, and the third has
claimed the two objects and copied one of them. -/
theorem mpmc_safe_fourSlots : ∃ st : Mpmc Nat (Fin 3),
    (st.ht .prod = ⟨3, 2⟩ ∧ st.ht .cons = ⟨2, 0⟩) ∧ Owns st 1 .prod 2 3 ∧
      (∃ req, st.pc 2 = .claimed .cons req 0 2 1 [7] false) ∧ Safe ⟨4, 3, 3⟩ st := by
  have hg : Geometry.Accepted ⟨4, 3, 3⟩ := ⟨⟨2, rfl⟩, rfl, by decide⟩
  have h0 : Reach Start (Step ⟨4, 3, 3⟩) fourSlots :=
    .start ⟨fun _ => rfl, fun _ => rfl, rfl, fun _ _ => rfl, rfl⟩
  have h1 := h0.next (@Step.call _ _ _ _ _ 0 .prod ⟨fun i => 7 + i, 2, .fixed⟩ rfl)
  have h2 := h1.next (Step.load (t := 0) rfl)
  have h3 := h2.next (Step.read (t := 0) rfl (by decide))
  have h4 := h3.next (Step.cas (t := 0) rfl rfl)
  have h5 := h4.next (Step.put (t := 0) rfl (by decide))
  have h6 := h5.next (Step.put (t := 0) rfl (by decide))
  have h7 := h6.next (Step.test (t := 0) rfl rfl)
  have h8 := h7.next (Step.store (t := 0) rfl)
  have h9 := h8.next (@Step.call _ _ _ _ _ 1 .prod ⟨fun _ => 9, 1, .fixed⟩ rfl)
  have h10 := h9.next (Step.load (t := 1) rfl)
  have h11 := h10.next (Step.read (t := 1) rfl (by decide))
  have h12 := h11.next (Step.cas (t := 1) rfl rfl)
  -- a request for four objects, of which there are two
  have h13 := h12.next (@Step.call _ _ _ _ _ 2 .cons ⟨fun _ => 0, 4, .variable⟩ rfl)
  have h14 := h13.next (Step.load (t := 2) rfl)
  have h15 := h14.next (Step.read (t := 2) rfl (by decide))
  have h16 := h15.next (Step.cas (t := 2) rfl rfl)
  have h17 := h16.next (Step.get (t := 2) rfl (by decide))
  exact ⟨_, ⟨rfl, rfl⟩, ⟨_, _, _, _, _, rfl, rfl⟩, ⟨_, rfl⟩, mpmc_safe hg h17⟩

end Ring
