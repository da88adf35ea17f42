import Mathlib.Tactic.Common
import RteDemo.Lib.Reach

/-!
# The transactional variants of the recursive lock

One thread that nests `rte_spinlock_recursive_lock`, `rte_spinlock_recursive_lock_tm` and
`rte_spinlock_recursive_trylock_tm` on one recursive lock, while other threads take and release the
lock as they like. An `rte_xbegin` may start a transaction or return any abort status; a running
transaction may be aborted at any time, which takes its effects back and returns a second time from
the outermost `rte_xbegin`.

After every abort `rte_try_tm` waits for the lock word to become `0`. A thread that holds the lock
word itself then waits for ever (`spins_of_call`): the check of `user` is made in the fall-back only.
Nothing else makes a thread wait for itself (`tm_never_self`).
-/

namespace LockTm

/-- `RTE_RTM_MAX_RETRIES` -/
def rteRtmMaxRetries : Nat := 10

/-- What `rte_xbegin` returns after an abort: the bits that `rte_try_tm` looks at. -/
structure Status where
  /-- `RTE_XABORT_EXPLICIT` -/
  explicit : Bool
  /-- `RTE_XABORT_CODE` -/
  code : BitVec 8
  /-- `RTE_XABORT_RETRY` -/
  retry : Bool
  deriving DecidableEq

/-- `RTE_XABORT_LOCK_BUSY` -/
def rteXabortLockBusy : BitVec 8 := 0xff

/-- Whose exchange has set the lock word; it is `0` when it is free. -/
inductive Word
  | free
  | self
  | other
  deriving DecidableEq

/-- `rte_spinlock_recursive_t` -/
structure RecLock where
  locked : Word
  user : BitVec 32
  count : BitVec 32
  deriving DecidableEq

/-- The three ways to acquire. -/
inductive Op
  | lock
  | lockTm
  | trylockTm
  deriving DecidableEq

/-- Where the thread is: between acquisitions, in `rte_try_tm` with so many retries left, or in the
plain lock or trylock, called directly or as the fall-back. -/
inductive Pc
  | idle
  | tryTm (op : Op) (retries : Nat)
  | xbegin (op : Op) (retries : Nat)
  | started (op : Op) (retries : Nat)
  /-- In `while (*lock) rte_pause()`. -/
  | waiting (op : Op) (retries : Nat) (status : Status)
  | decide (op : Op) (retries : Nat) (status : Status)
  | user (op : Op)
  | xchg (op : Op)
  | spin (op : Op)
  | setUser (op : Op)
  | count (op : Op)
  deriving DecidableEq

/-- What an abort restores: the lock, and where the outermost `rte_xbegin` was. -/
structure Snapshot where
  lock : RecLock
  op : Op
  retries : Nat
  deriving DecidableEq

structure State where
  /-- `rte_rtm_supported` -/
  rtm : Bool
  lock : RecLock
  pc : Pc
  tx : Option Snapshot
  deriving DecidableEq

/-- Control returns from the outermost `rte_xbegin` with `status`. -/
def State.abort (s : State) (snap : Snapshot) (status : Status) : State :=
  { s with lock := snap.lock, pc := .waiting snap.op snap.retries status, tx := none }

/-- Entering an acquisition: `rte_try_tm` where there is one and transactions are supported, else the
plain lock. -/
def entry (rtm : Bool) : Op → Pc
  | .lock => .user .lock
  | op => if rtm then .tryTm op rteRtmMaxRetries else .user op

/-- A step of the thread, whose id is `id`, or of the others. -/
inductive Step (id : BitVec 32) : State → State → Prop
  | call {s : State} (op : Op) : s.pc = .idle → Step id s { s with pc := entry s.rtm op }
  | tryNone {s : State} {op : Op} : s.pc = .tryTm op 0 → Step id s { s with pc := .user op }
  | tryMore {s : State} {op : Op} {n : Nat} : s.pc = .tryTm op (n + 1) →
      Step id s { s with pc := .xbegin op n }
  | xbeginStarted {s : State} {op : Op} {n : Nat} : s.pc = .xbegin op n →
      Step id s { s with pc := .started op n, tx := some (s.tx.getD ⟨s.lock, op, n⟩) }
  | xbeginAborted {s : State} {op : Op} {n : Nat} (status : Status) : s.pc = .xbegin op n →
      Step id s (s.abort (s.tx.getD ⟨s.lock, op, n⟩) status)
  | aborted {s : State} {snap : Snapshot} (status : Status) : s.tx = some snap →
      Step id s (s.abort snap status)
  | lockBusy {s : State} {op : Op} {n : Nat} {snap : Snapshot} (retry : Bool) :
      s.pc = .started op n → s.tx = some snap → s.lock.locked ≠ .free →
        Step id s (s.abort snap ⟨true, rteXabortLockBusy, retry⟩)
  | lockElided {s : State} {op : Op} {n : Nat} : s.pc = .started op n → s.lock.locked = .free →
      Step id s { s with pc := .idle }
  | waitMore {s : State} {op : Op} {n : Nat} {status : Status} : s.pc = .waiting op n status →
      s.lock.locked ≠ .free → Step id s s
  | waitDone {s : State} {op : Op} {n : Nat} {status : Status} : s.pc = .waiting op n status →
      s.lock.locked = .free → Step id s { s with pc := .decide op n status }
  | decideRetry {s : State} {op : Op} {n : Nat} {status : Status} : s.pc = .decide op n status →
      (status.explicit ∧ status.code = rteXabortLockBusy) ∨ status.retry →
        Step id s { s with pc := .tryTm op n }
  | decideBreak {s : State} {op : Op} {n : Nat} {status : Status} : s.pc = .decide op n status →
      ¬((status.explicit ∧ status.code = rteXabortLockBusy) ∨ status.retry) →
        Step id s { s with pc := .user op }
  | userSelf {s : State} {op : Op} : s.pc = .user op → s.lock.user = id →
      Step id s { s with pc := .count op }
  | userOther {s : State} {op : Op} : s.pc = .user op → s.lock.user ≠ id →
      Step id s { s with pc := .xchg op }
  | xchgFree {s : State} {op : Op} : s.pc = .xchg op → s.lock.locked = .free →
      Step id s { s with lock := { s.lock with locked := .self }, pc := .setUser op }
  | xchgTaken {s : State} {op : Op} : s.pc = .xchg op → s.lock.locked ≠ .free →
      Step id s { s with pc := if op = .trylockTm then .idle else .spin op }
  | spinMore {s : State} {op : Op} : s.pc = .spin op → s.lock.locked ≠ .free → Step id s s
  | spinDone {s : State} {op : Op} : s.pc = .spin op → s.lock.locked = .free →
      Step id s { s with pc := .xchg op }
  | setUser {s : State} {op : Op} : s.pc = .setUser op →
      Step id s { s with lock := { s.lock with user := id }, pc := .count op }
  | count {s : State} {op : Op} : s.pc = .count op →
      Step id s { s with lock := { s.lock with count := s.lock.count + 1 }, pc := .idle }
  /-- Another thread takes the lock and sets `user`, … -/
  | otherLock {s : State} {user : BitVec 32} : s.tx = none → s.lock.locked = .free → user ≠ id →
      Step id s { s with lock := ⟨.other, user, 0⟩ }
  /-- … nests, … -/
  | otherNest {s : State} {user count : BitVec 32} : s.tx = none → s.lock.locked = .other →
      user ≠ id → Step id s { s with lock := ⟨.other, user, count⟩ }
  /-- … and releases it. -/
  | otherUnlock {s : State} : s.tx = none → s.lock.locked = .other →
      Step id s { s with lock := ⟨.free, -1, 0⟩ }

/-- `rte_spinlock_recursive_init`, before the first acquisition. -/
def Init (s : State) : Prop := s.lock = ⟨.free, -1, 0⟩ ∧ s.pc = .idle ∧ s.tx = none

/-- The thread waits for a lock word that it holds itself. -/
def State.WaitsForSelf (s : State) : Prop :=
  s.lock.locked = .self ∧ match s.pc with
    | .waiting _ _ _ | .spin _ => True
    | _ => False

/-- A step that is no call of a `_tm` variant by a thread that holds the lock word outside a
transaction, where transactions are supported. -/
def GoodStep (id : BitVec 32) (s s' : State) : Prop :=
  Step id s s' ∧ (s.pc = .idle → s.rtm → s.tx = none → s.lock.locked = .self →
    ∀ op n, s'.pc ≠ .tryTm op n)

/-! ## The invariant -/

/-- Where the lock word cannot be the thread's own. -/
def PcOK (pc : Pc) (tx : Option Snapshot) (locked : Word) : Prop :=
  match pc with
  | .tryTm _ _ | .xbegin _ _ => tx = none → locked ≠ .self
  | .waiting _ _ _ | .decide _ _ _ => tx = none ∧ locked ≠ .self
  | .xchg _ | .spin _ => locked ≠ .self
  | _ => True

structure Inv (id : BitVec 32) (s : State) : Prop where
  /-- A transaction starts without the lock word. -/
  snap : ∀ snap, s.tx = some snap → snap.lock.locked ≠ .self
  owner : s.lock.locked = .self → (∃ op, s.pc = .setUser op) ∨ s.lock.user = id
  pc : PcOK s.pc s.tx s.lock.locked

section

variable {id : BitVec 32} {s s' : State}

theorem inv_init (h : Init s) : Inv id s := by
  obtain ⟨hlock, hpc, htx⟩ := h
  refine ⟨fun snap hs => ?_, fun hs => ?_, ?_⟩
  · rw [htx] at hs
    cases hs
  · rw [hlock] at hs
    cases hs
  · rw [hpc]
    trivial

/-- After an abort the lock is as it was at the outermost `rte_xbegin`. -/
theorem inv_abort {snap : Snapshot} (h : snap.lock.locked ≠ .self) (status : Status) :
    Inv id (s.abort snap status) :=
  ⟨fun _ hs => (Option.some_ne_none _ hs.symm).elim, fun hs => absurd hs h, rfl, h⟩

/-- The outermost `rte_xbegin` of a transaction that begins or goes on. -/
theorem Inv.outermost (h : Inv id s) {op : Op} {n : Nat} (hpc : s.pc = .xbegin op n) :
    (s.tx.getD ⟨s.lock, op, n⟩).lock.locked ≠ .self := by
  have hat := h.pc
  rw [hpc] at hat
  cases htx : s.tx with
  | none => exact hat htx
  | some snap => exact h.snap snap htx

/-- The thread moves on and leaves the lock alone. -/
theorem Inv.move (h : Inv id s) {pc : Pc} (hset : ∀ op, s.pc ≠ .setUser op)
    (hpc : PcOK pc s.tx s.lock.locked) : Inv id { s with pc := pc } :=
  ⟨h.snap, fun hs => .inr ((h.owner hs).resolve_left fun ⟨op, ho⟩ => hset op ho), hpc⟩

/-- Another thread changes the lock. -/
theorem Inv.other (h : Inv id s) (htx : s.tx = none) {lock : RecLock} (hl : lock.locked ≠ .self) :
    Inv id { s with lock := lock } := by
  refine ⟨h.snap, fun hs => absurd hs hl, ?_⟩
  have hat := h.pc
  unfold PcOK at hat ⊢
  split <;> simp_all

/-- **One step.** -/
theorem Inv.step (h : Inv id s) (hgood : GoodStep id s s') : Inv id s' := by
  obtain ⟨hstep, hcall⟩ := hgood
  have hat := h.pc
  cases hstep with
  | call op hpc =>
    refine h.move (fun _ => by rw [hpc]; nofun) ?_
    cases op with
    | lock => trivial
    | _ =>
      cases hrtm : s.rtm with
      | false => trivial
      | true =>
        intro htx hself
        exact hcall hpc hrtm htx hself _ _ (by simp only [entry, hrtm]; rfl)
  | tryNone hpc => exact h.move (fun _ => by rw [hpc]; nofun) trivial
  | tryMore hpc =>
    rw [hpc] at hat
    exact h.move (fun _ => by rw [hpc]; nofun) hat
  | xbeginStarted hpc =>
    refine ⟨fun snap hs => ?_, fun hs => .inr ?_, trivial⟩
    · exact Option.some.inj hs ▸ h.outermost hpc
    · exact (h.owner hs).resolve_left fun ⟨op, ho⟩ => by rw [hpc] at ho; cases ho
  | xbeginAborted status hpc => exact inv_abort (h.outermost hpc) status
  | aborted status htx => exact inv_abort (h.snap _ htx) status
  | lockBusy retry hpc htx hbusy => exact inv_abort (h.snap _ htx) _
  | lockElided hpc hfree => exact h.move (fun _ => by rw [hpc]; nofun) trivial
  | waitMore hpc hbusy => exact h
  | waitDone hpc hfree =>
    rw [hpc] at hat
    exact h.move (fun _ => by rw [hpc]; nofun) hat
  | decideRetry hpc hstatus =>
    rw [hpc] at hat
    exact h.move (fun _ => by rw [hpc]; nofun) fun _ => hat.2
  | decideBreak hpc hstatus => exact h.move (fun _ => by rw [hpc]; nofun) trivial
  | userSelf hpc huser => exact h.move (fun _ => by rw [hpc]; nofun) trivial
  | userOther hpc huser =>
    refine h.move (fun _ => by rw [hpc]; nofun) fun hself => ?_
    rcases h.owner hself with ⟨op, ho⟩ | ho
    · rw [hpc] at ho
      cases ho
    · exact huser ho
  | xchgFree hpc hfree => exact ⟨h.snap, fun _ => .inl ⟨_, rfl⟩, trivial⟩
  | @xchgTaken op hpc hbusy =>
    rw [hpc] at hat
    refine h.move (fun _ => by rw [hpc]; nofun) ?_
    by_cases hop : op = .trylockTm
    · rw [if_pos hop]
      trivial
    · rw [if_neg hop]
      exact hat
  | spinMore hpc hbusy => exact h
  | spinDone hpc hfree =>
    rw [hpc] at hat
    exact h.move (fun _ => by rw [hpc]; nofun) hat
  | setUser hpc => exact ⟨h.snap, fun _ => .inr rfl, trivial⟩
  | count hpc =>
    refine ⟨h.snap, fun hs => .inr ?_, trivial⟩
    exact (h.owner hs).resolve_left fun ⟨op, ho⟩ => by rw [hpc] at ho; cases ho
  | otherLock htx _ _ => exact h.other htx nofun
  | otherNest htx _ _ => exact h.other htx nofun
  | otherUnlock htx _ => exact h.other htx nofun

/-- **No waiting for itself**, as long as the `_tm` variants are not nested in a held lock. -/
theorem tm_never_self (h : Reach Init (GoodStep id) s) : ¬s.WaitsForSelf := by
  have hinv : Inv id s := h.invariant (fun _ hs => inv_init hs) fun _ _ hi hs => hi.step hs
  rintro ⟨hself, hpc⟩
  have hat := hinv.pc
  unfold PcOK at hat
  split at hpc
  · rename_i heq
    rw [heq] at hat
    exact hat.2 hself
  · rename_i heq
    rw [heq] at hat
    exact hat hself
  · exact hpc

/-- A `_tm` call by a thread that holds the lock word comes to wait for itself, … -/
theorem spins_of_call (op : Op) (hop : op ≠ .lock) (hrtm : s.rtm = true) (hpc : s.pc = .idle)
    (htx : s.tx = none) (hself : s.lock.locked = .self) (status : Status) :
    ∃ s', Reach (· = s) (Step id) s' ∧ s'.WaitsForSelf := by
  have hentry : entry s.rtm op = .tryTm op (9 + 1) := by
    rw [hrtm]
    cases op with
    | lock => exact absurd rfl hop
    | _ => rfl
  have h0 : Reach (· = s) (Step id) s := .start rfl
  have h1 := h0.next (.call op hpc)
  rw [hentry] at h1
  have h2 := h1.next (Step.tryMore rfl)
  have h3 := h2.next (Step.xbeginAborted status rfl)
  refine ⟨_, h3, ?_⟩
  rw [htx]
  exact ⟨hself, trivial⟩

/-- … and never stops. -/
theorem waits_forever (h : s.WaitsForSelf) (htx : s.tx = none) (hstep : Step id s s') : s' = s := by
  obtain ⟨hself, hpc⟩ := h
  cases hstep <;> simp_all

end

/-! ## Nesting -/

/-- The thread `5` holds the lock word after a plain acquisition. -/
def held : State := ⟨true, ⟨.self, 5, 1⟩, .idle, none⟩

theorem reach_held : Reach Init (GoodStep 5) held := by
  have h0 : Reach Init (GoodStep 5) ⟨true, ⟨.free, -1, 0⟩, .idle, none⟩ := .start ⟨rfl, rfl, rfl⟩
  have h1 := h0.next ⟨.call .lock rfl, nofun⟩
  have h2 := h1.next ⟨.userOther rfl (by decide), nofun⟩
  have h3 := h2.next ⟨.xchgFree rfl rfl, nofun⟩
  have h4 := h3.next ⟨.setUser rfl, nofun⟩
  exact h4.next ⟨.count rfl, nofun⟩

theorem tm_never_self_held : held.lock.locked = .self ∧ ¬held.WaitsForSelf :=
  ⟨rfl, tm_never_self reach_held⟩

/-- A plain acquisition and a `_tm` one nested in it, whose transaction is aborted. -/
theorem tm_waits_for_self :
    Reach Init (Step 5) ⟨true, ⟨.self, 5, 1⟩, .waiting .lockTm 9 ⟨false, 0, false⟩, none⟩ ∧
      State.WaitsForSelf ⟨true, ⟨.self, 5, 1⟩, .waiting .lockTm 9 ⟨false, 0, false⟩, none⟩ := by
  have h0 : Reach Init (Step 5) held := reach_held.mono (fun _ h => h) fun _ _ h => h.1
  have h1 := h0.next (.call .lockTm rfl)
  have h2 := h1.next (.tryMore rfl)
  exact ⟨h2.next (.xbeginAborted ⟨false, 0, false⟩ rfl), rfl, trivial⟩

end LockTm
