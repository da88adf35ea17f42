import Mathlib.Algebra.Group.Int.Defs
import Mathlib.Algebra.Group.Nat.Defs
import Mathlib.Logic.Function.Basic
import Mathlib.Tactic.Common
import RteDemo.Lib.Reach

/-!
# `rte_spinlock_recursive`

One recursive lock and any number of threads that run `rte_spinlock_recursive_lock`,
`rte_spinlock_recursive_trylock` and `rte_spinlock_recursive_unlock` on it. Every load, store and
exchange is a step of its own: `user` is read without the inner lock, and `count` is incremented and
decremented by a load and a store.

The inner lock is taken before `user` is set and released after it is cleared, so a thread that finds
its own id in `user` holds the lock (`Inv`). The count is an `int`: it follows the nesting as long as
nobody nests `2 ^ 31` acquisitions (`recursive_lock_safe`, `not_recursive_lock_safe`).
-/

namespace RecursiveLock

/-- Where a thread is: outside the three functions, or in front of a step of one of them. -/
inductive Pc
  | idle
  | lockUser
  | lockXchg
  | lockSpin
  | tryUser
  | tryXchg
  | setUser
  | countLoad
  | countStore (c : BitVec 32)
  | uncountLoad
  | uncountStore (c : BitVec 32)
  | clearUser
  | unlockXchg
  deriving DecidableEq, Repr

/-- A thread: where it is, and how many of its acquisitions have returned that it has not released. -/
structure Thread where
  pc : Pc
  depth : Nat
  deriving DecidableEq, Repr

/-- `rte_spinlock_recursive_t`, the threads, and who has taken the inner lock (read by no step). -/
@[ext]
structure State (T : Type*) where
  locked : BitVec 32
  user : BitVec 32
  count : BitVec 32
  inner : Option T
  thr : T → Thread

variable {T : Type*}

section Steps

variable [DecidableEq T]

/-- The state with thread `t` replaced. -/
def State.set (s : State T) (t : T) (th : Thread) : State T :=
  { s with thr := Function.update s.thr t th }

/-- `rte_spinlock_recursive_init`, before any thread has called a function. -/
def Init (s : State T) : Prop :=
  s.locked = 0 ∧ s.user = -1 ∧ s.count = 0 ∧ s.inner = none ∧ ∀ t, s.thr t = ⟨.idle, 0⟩

/-- The step of thread `t`, whose id is `tid t`. An idle thread may call any of the functions, the
unlock only as an owner. -/
inductive Step (tid : T → BitVec 32) : State T → State T → Prop
  | callLock {s t n} : s.thr t = ⟨.idle, n⟩ → Step tid s (s.set t ⟨.lockUser, n⟩)
  | lockUserSelf {s t n} : s.thr t = ⟨.lockUser, n⟩ → s.user = tid t →
      Step tid s (s.set t ⟨.countLoad, n⟩)
  | lockUserOther {s t n} : s.thr t = ⟨.lockUser, n⟩ → s.user ≠ tid t →
      Step tid s (s.set t ⟨.lockXchg, n⟩)
  | lockXchgFree {s t n} : s.thr t = ⟨.lockXchg, n⟩ → s.locked = 0 →
      Step tid s ({ s with locked := 1, inner := some t }.set t ⟨.setUser, n⟩)
  | lockXchgTaken {s t n} : s.thr t = ⟨.lockXchg, n⟩ → s.locked ≠ 0 →
      Step tid s ({ s with locked := 1 }.set t ⟨.lockSpin, n⟩)
  | lockSpin {s t n} : s.thr t = ⟨.lockSpin, n⟩ → s.locked ≠ 0 → Step tid s (s.set t ⟨.lockSpin, n⟩)
  | lockSpinDone {s t n} : s.thr t = ⟨.lockSpin, n⟩ → s.locked = 0 →
      Step tid s (s.set t ⟨.lockXchg, n⟩)
  | callTrylock {s t n} : s.thr t = ⟨.idle, n⟩ → Step tid s (s.set t ⟨.tryUser, n⟩)
  | tryUserSelf {s t n} : s.thr t = ⟨.tryUser, n⟩ → s.user = tid t →
      Step tid s (s.set t ⟨.countLoad, n⟩)
  | tryUserOther {s t n} : s.thr t = ⟨.tryUser, n⟩ → s.user ≠ tid t →
      Step tid s (s.set t ⟨.tryXchg, n⟩)
  | tryXchgFree {s t n} : s.thr t = ⟨.tryXchg, n⟩ → s.locked = 0 →
      Step tid s ({ s with locked := 1, inner := some t }.set t ⟨.setUser, n⟩)
  | tryXchgTaken {s t n} : s.thr t = ⟨.tryXchg, n⟩ → s.locked ≠ 0 →
      Step tid s ({ s with locked := 1 }.set t ⟨.idle, n⟩)
  | setUser {s t n} : s.thr t = ⟨.setUser, n⟩ →
      Step tid s ({ s with user := tid t }.set t ⟨.countLoad, n⟩)
  | countLoad {s t n} : s.thr t = ⟨.countLoad, n⟩ → Step tid s (s.set t ⟨.countStore s.count, n⟩)
  | countStore {s t n c} : s.thr t = ⟨.countStore c, n⟩ →
      Step tid s ({ s with count := c + 1 }.set t ⟨.idle, n + 1⟩)
  | callUnlock {s t n} : s.thr t = ⟨.idle, n⟩ → 0 < n → Step tid s (s.set t ⟨.uncountLoad, n⟩)
  | uncountLoad {s t n} : s.thr t = ⟨.uncountLoad, n⟩ →
      Step tid s (s.set t ⟨.uncountStore s.count, n⟩)
  | uncountStore {s t n c} : s.thr t = ⟨.uncountStore c, n⟩ → c - 1 ≠ 0 →
      Step tid s ({ s with count := c - 1 }.set t ⟨.idle, n - 1⟩)
  | uncountStoreLast {s t n c} : s.thr t = ⟨.uncountStore c, n⟩ → c - 1 = 0 →
      Step tid s ({ s with count := c - 1 }.set t ⟨.clearUser, n⟩)
  | clearUser {s t n} : s.thr t = ⟨.clearUser, n⟩ →
      Step tid s ({ s with user := -1 }.set t ⟨.unlockXchg, n⟩)
  | unlockXchg {s t n} : s.thr t = ⟨.unlockXchg, n⟩ →
      Step tid s ({ s with locked := 0, inner := none }.set t ⟨.idle, n - 1⟩)

/-- A step after which nobody nests as many acquisitions as an `int` cannot count. -/
def CountedStep (tid : T → BitVec 32) (s s' : State T) : Prop :=
  Step tid s s' ∧ ∀ t, (s'.thr t).depth < 2 ^ 31

@[simp] theorem State.set_thr_self (s : State T) (t : T) (th : Thread) : (s.set t th).thr t = th :=
  Function.update_self ..

theorem State.set_thr_ne (s : State T) {t u : T} (th : Thread) (h : u ≠ t) :
    (s.set t th).thr u = s.thr u := Function.update_of_ne h ..

end Steps

/-! ## The invariant -/

/-- A thread that does not hold the inner lock. -/
def Thread.Outside (th : Thread) : Prop :=
  th.depth = 0 ∧ match th.pc with
    | .idle | .lockUser | .lockXchg | .lockSpin | .tryUser | .tryXchg => True
    | _ => False

/-- What `user` and `count` are while the thread with this id holds the inner lock. -/
def OwnerAt (id user count : BitVec 32) (th : Thread) : Prop :=
  match th.pc with
  | .idle | .lockUser | .tryUser | .uncountLoad =>
    0 < th.depth ∧ user = id ∧ count = BitVec.ofNat 32 th.depth
  | .lockXchg | .lockSpin | .tryXchg => False
  | .setUser => th.depth = 0 ∧ user = -1 ∧ count = 0
  | .countLoad => user = id ∧ count = BitVec.ofNat 32 th.depth
  | .countStore c => user = id ∧ count = BitVec.ofNat 32 th.depth ∧ c = count
  | .uncountStore c => 0 < th.depth ∧ user = id ∧ count = BitVec.ofNat 32 th.depth ∧ c = count
  | .clearUser => th.depth = 1 ∧ user = id ∧ count = 0
  | .unlockXchg => th.depth = 1 ∧ user = -1 ∧ count = 0

/-- Thread `t` holds the inner lock, and nobody else is inside. -/
structure Owned (tid : T → BitVec 32) (s : State T) (t : T) : Prop where
  inner : s.inner = some t
  locked : s.locked = 1
  owner : OwnerAt (tid t) s.user s.count (s.thr t)
  others : ∀ u, u ≠ t → (s.thr u).Outside

/-- Nobody holds the inner lock. -/
structure Unowned (s : State T) : Prop where
  inner : s.inner = none
  locked : s.locked = 0
  user : s.user = -1
  count : s.count = 0
  outside : ∀ u, (s.thr u).Outside

def Inv (tid : T → BitVec 32) (s : State T) : Prop := (∃ t, Owned tid s t) ∨ Unowned s

section

variable {tid : T → BitVec 32} {s s' : State T} {t : T}

theorem inv_init (h : Init s) : Inv tid s := by
  obtain ⟨hlocked, huser, hcount, hinner, hthr⟩ := h
  refine .inr ⟨hinner, hlocked, huser, hcount, fun u => ?_⟩
  rw [hthr u]
  exact ⟨rfl, trivial⟩

/-- A thread holds the inner lock or is outside. -/
theorem Inv.cases (h : Inv tid s) (t : T) : Owned tid s t ∨ s.inner ≠ some t ∧ (s.thr t).Outside := by
  rcases h with ⟨u, ho⟩ | hu
  · by_cases htu : t = u
    · exact .inl (htu ▸ ho)
    · exact .inr ⟨fun h => htu (Option.some.inj (ho.inner.symm.trans h)).symm, ho.others t htu⟩
  · exact .inr ⟨fun h => (Option.some_ne_none t) (h.symm.trans hu.inner), hu.outside t⟩

/-- While thread `t` holds the inner lock, `user` is its id or `-1`. -/
theorem Owned.user (h : Owned tid s t) : s.user = tid t ∨ s.user = -1 := by
  have ho := h.owner
  unfold OwnerAt at ho
  split at ho <;> tauto

/-- The lock word says whether somebody holds the inner lock. -/
theorem Inv.unowned (h : Inv tid s) (h0 : s.locked = 0) : Unowned s := by
  rcases h with ⟨u, ho⟩ | hu
  · rw [ho.locked] at h0
    exact absurd h0 (by decide)
  · exact hu

theorem Inv.locked_one (h : Inv tid s) (h0 : s.locked ≠ 0) : { s with locked := 1 } = s := by
  rcases h with ⟨u, ho⟩ | hu
  · rw [← ho.locked]
  · exact absurd hu.locked h0

theorem Owned.at_pc (h : Owned tid s t) {th : Thread} (ht : s.thr t = th) :
    OwnerAt (tid t) s.user s.count th := ht ▸ h.owner

variable (hinj : Function.Injective tid) (hid : ∀ t, tid t ≠ -1)

include hinj hid in
/-- Only the holder of the inner lock finds its id in `user`. -/
theorem Inv.user_ne (h : Inv tid s) (ht : s.inner ≠ some t) : s.user ≠ tid t := by
  rcases h with ⟨u, ho⟩ | hu
  · rcases ho.user with huser | huser
    · rw [huser]
      exact fun heq => ht (hinj heq ▸ ho.inner)
    · rw [huser]
      exact (hid t).symm
  · rw [hu.user]
    exact (hid t).symm

variable [DecidableEq T]

/-- A thread that is outside moves on there. -/
theorem Inv.moveOutside (h : Inv tid s) (ht : s.inner ≠ some t) {th : Thread} (hth : th.Outside) :
    Inv tid (s.set t th) := by
  have hthr : ∀ u, (s.thr u).Outside → ((s.set t th).thr u).Outside := fun u hu => by
    by_cases hut : u = t
    · rw [hut, State.set_thr_self]
      exact hth
    · rw [State.set_thr_ne s th hut]
      exact hu
  rcases h with ⟨u, ho⟩ | hu
  · have hut : u ≠ t := fun h => ht (h ▸ ho.inner)
    refine .inl ⟨u, ho.inner, ho.locked, ?_, fun v hv => hthr v (ho.others v hv)⟩
    rw [State.set_thr_ne s th hut]
    exact ho.owner
  · exact .inr ⟨hu.inner, hu.locked, hu.user, hu.count, fun v => hthr v (hu.outside v)⟩

/-- The holder of the inner lock moves on, and may write to `user` and `count`. -/
theorem Owned.move (h : Owned tid s t) {user count : BitVec 32} {th : Thread}
    (hth : OwnerAt (tid t) user count th) :
    Inv tid ({ s with user := user, count := count }.set t th) := by
  refine .inl ⟨t, h.inner, h.locked, ?_, fun u hu => ?_⟩
  · rw [State.set_thr_self]
    exact hth
  · rw [State.set_thr_ne _ th hu]
    exact h.others u hu

/-- An exchange that finds `0` takes the inner lock. -/
theorem Inv.take (h : Inv tid s) (h0 : s.locked = 0) {n : Nat} (hn : n = 0) :
    Inv tid ({ s with locked := 1, inner := some t }.set t ⟨.setUser, n⟩) := by
  have hu := h.unowned h0
  refine .inl ⟨t, rfl, rfl, ?_, fun u hut => ?_⟩
  · rw [State.set_thr_self]
    exact ⟨hn, hu.user, hu.count⟩
  · rw [State.set_thr_ne _ _ hut]
    exact hu.outside u

/-- The last step of the last unlock. -/
theorem Owned.release (h : Owned tid s t) (huser : s.user = -1) (hcount : s.count = 0) :
    Inv tid ({ s with locked := 0, inner := none }.set t ⟨.idle, 0⟩) := by
  refine .inr ⟨rfl, rfl, huser, hcount, fun u => ?_⟩
  by_cases hut : u = t
  · rw [hut, State.set_thr_self]
    exact ⟨rfl, trivial⟩
  · rw [State.set_thr_ne _ _ hut]
    exact h.others u hut

theorem ofNat_succ (n : Nat) : BitVec.ofNat 32 n + 1 = BitVec.ofNat 32 (n + 1) :=
  (BitVec.ofNat_add ..).symm

theorem ofNat_sub_one {n : Nat} (hn : 0 < n) : BitVec.ofNat 32 n - 1 = BitVec.ofNat 32 (n - 1) := by
  obtain ⟨m, rfl⟩ := Nat.exists_eq_succ_of_ne_zero (Nat.pos_iff_ne_zero.mp hn)
  rw [Nat.succ_eq_add_one, ← ofNat_succ, Nat.add_sub_cancel]
  exact BitVec.add_sub_cancel ..

theorem ofNat_eq_zero {n : Nat} (h : n < 2 ^ 31) (h0 : BitVec.ofNat 32 n = 0) : n = 0 := by
  have hval := congrArg BitVec.toNat h0
  rw [BitVec.toNat_ofNat, Nat.mod_eq_of_lt (by omega)] at hval
  exact hval

include hinj hid in
/-- **One step** keeps the invariant. -/
theorem Inv.step (h : Inv tid s) (hstep : Step tid s s') (hdepth : ∀ t, (s.thr t).depth < 2 ^ 31) :
    Inv tid s' := by
  -- a thread inside is the holder of the inner lock
  have hinside : ∀ {t : T} {th : Thread}, s.thr t = th → ¬th.Outside → Owned tid s t :=
    fun ht hno => (h.cases _).resolve_right fun hout => hno (ht ▸ hout.2)
  cases hstep with
  | callLock ht =>
    rcases h.cases _ with ho | ⟨hne, hout⟩
    · obtain ⟨hn, huser, hcount⟩ := ho.at_pc ht
      exact ho.move ⟨hn, huser, hcount⟩
    · rw [ht] at hout
      exact h.moveOutside hne ⟨hout.1, trivial⟩
  | lockUserSelf ht huser =>
    rcases h.cases _ with ho | ⟨hne, hout⟩
    · exact ho.move (ho.at_pc ht).2
    · exact absurd huser (h.user_ne hinj hid hne)
  | lockUserOther ht huser =>
    rcases h.cases _ with ho | ⟨hne, hout⟩
    · exact absurd (ho.at_pc ht).2.1 huser
    · rw [ht] at hout
      exact h.moveOutside hne ⟨hout.1, trivial⟩
  | @lockXchgFree t n ht h0 =>
    have hout := (h.unowned h0).outside t
    rw [ht] at hout
    exact h.take h0 hout.1
  | lockXchgTaken ht h0 =>
    rcases h.cases _ with ho | ⟨hne, hout⟩
    · exact (ho.at_pc ht).elim
    · rw [ht] at hout
      rw [h.locked_one h0]
      exact h.moveOutside hne ⟨hout.1, trivial⟩
  | lockSpin ht _ =>
    rcases h.cases _ with ho | ⟨hne, hout⟩
    · exact (ho.at_pc ht).elim
    · rw [ht] at hout
      exact h.moveOutside hne ⟨hout.1, trivial⟩
  | lockSpinDone ht _ =>
    rcases h.cases _ with ho | ⟨hne, hout⟩
    · exact (ho.at_pc ht).elim
    · rw [ht] at hout
      exact h.moveOutside hne ⟨hout.1, trivial⟩
  | callTrylock ht =>
    rcases h.cases _ with ho | ⟨hne, hout⟩
    · obtain ⟨hn, huser, hcount⟩ := ho.at_pc ht
      exact ho.move ⟨hn, huser, hcount⟩
    · rw [ht] at hout
      exact h.moveOutside hne ⟨hout.1, trivial⟩
  | tryUserSelf ht huser =>
    rcases h.cases _ with ho | ⟨hne, hout⟩
    · exact ho.move (ho.at_pc ht).2
    · exact absurd huser (h.user_ne hinj hid hne)
  | tryUserOther ht huser =>
    rcases h.cases _ with ho | ⟨hne, hout⟩
    · exact absurd (ho.at_pc ht).2.1 huser
    · rw [ht] at hout
      exact h.moveOutside hne ⟨hout.1, trivial⟩
  | @tryXchgFree t n ht h0 =>
    have hout := (h.unowned h0).outside t
    rw [ht] at hout
    exact h.take h0 hout.1
  | tryXchgTaken ht h0 =>
    rcases h.cases _ with ho | ⟨hne, hout⟩
    · exact (ho.at_pc ht).elim
    · rw [ht] at hout
      rw [h.locked_one h0]
      exact h.moveOutside hne ⟨hout.1, trivial⟩
  | setUser ht =>
    have ho := hinside ht fun hout => hout.2
    obtain ⟨hn, -, hcount⟩ := ho.at_pc ht
    exact ho.move ⟨rfl, by rw [hcount, hn]; rfl⟩
  | countLoad ht =>
    have ho := hinside ht fun hout => hout.2
    obtain ⟨huser, hcount⟩ := ho.at_pc ht
    exact ho.move ⟨huser, hcount, rfl⟩
  | countStore ht =>
    have ho := hinside ht fun hout => hout.2
    obtain ⟨huser, hcount, rfl⟩ := ho.at_pc ht
    exact ho.move ⟨Nat.succ_pos _, huser, by rw [hcount]; exact ofNat_succ _⟩
  | callUnlock ht hn =>
    have ho := hinside ht fun hout => (Nat.pos_iff_ne_zero.mp hn) hout.1
    obtain ⟨hn, huser, hcount⟩ := ho.at_pc ht
    exact ho.move ⟨hn, huser, hcount⟩
  | uncountLoad ht =>
    have ho := hinside ht fun hout => hout.2
    obtain ⟨hn, huser, hcount⟩ := ho.at_pc ht
    exact ho.move ⟨hn, huser, hcount, rfl⟩
  | @uncountStore t n c ht hc =>
    have ho := hinside ht fun hout => hout.2
    obtain ⟨hn, huser, hcount, rfl⟩ := ho.at_pc ht
    simp only at hn hcount
    rw [hcount, ofNat_sub_one hn] at hc ⊢
    refine ho.move ⟨Nat.pos_of_ne_zero fun h0 => hc ?_, huser, rfl⟩
    simp only at h0
    rw [h0]
    rfl
  | @uncountStoreLast t n c ht hc =>
    have ho := hinside ht fun hout => hout.2
    obtain ⟨hn, huser, hcount, rfl⟩ := ho.at_pc ht
    simp only at hn hcount
    have hlt := hdepth t
    rw [ht] at hlt
    rw [hcount, ofNat_sub_one hn] at hc ⊢
    have hone := ofNat_eq_zero (by simp only at hlt; omega) hc
    exact ho.move ⟨by simp only; omega, huser, hc⟩
  | clearUser ht =>
    have ho := hinside ht fun hout => hout.2
    obtain ⟨hn, -, hcount⟩ := ho.at_pc ht
    exact ho.move ⟨hn, rfl, hcount⟩
  | @unlockXchg t n ht =>
    have ho := hinside ht fun hout => hout.2
    obtain ⟨hn, huser, hcount⟩ := ho.at_pc ht
    simp only at hn
    subst hn
    exact ho.release huser hcount

/-- The inner lock is released by the step in which its holder's last acquisition ends. -/
theorem Owned.released (h : Owned tid s t) (hstep : Step tid s s') (hrel : s'.inner ≠ some t) :
    (s.thr t).depth = 1 ∧ (s'.thr t).depth = 0 ∧ s'.locked = 0 := by
  have hkeep : s'.inner ≠ s.inner := fun heq => hrel (heq.trans h.inner)
  cases hstep with
  | lockXchgFree _ h0 =>
    rw [h.locked] at h0
    exact absurd h0 (by decide)
  | tryXchgFree _ h0 =>
    rw [h.locked] at h0
    exact absurd h0 (by decide)
  | @unlockXchg u n ht =>
    have hut : u = t := by
      by_contra hne
      have hout := h.others u hne
      rw [ht] at hout
      exact hout.2
    subst hut
    obtain ⟨hn, -, -⟩ := h.at_pc ht
    simp only at hn
    rw [State.set_thr_self, ht, hn]
    exact ⟨rfl, rfl, rfl⟩
  | _ => exact absurd rfl hkeep

include hinj hid in
theorem Inv.of_reach (h : Reach Init (CountedStep tid) s) :
    Inv tid s ∧ ∀ t, (s.thr t).depth < 2 ^ 31 := by
  refine Reach.invariant (I := fun s => Inv tid s ∧ ∀ t, (s.thr t).depth < 2 ^ 31) ?_ ?_ h
  · intro s hs
    refine ⟨inv_init hs, fun t => ?_⟩
    rw [hs.2.2.2.2 t]
    decide
  · rintro s s' ⟨hi, hdepth⟩ ⟨hstep, hdepth'⟩
    exact ⟨hi.step hinj hid hstep hdepth, hdepth'⟩

include hinj hid in
/-- **Ownership.** One owner at most, who holds the inner lock until its last unlock; `user` names a
thread only while it does, and `count` is the nesting of the owner outside its own calls. -/
theorem recursive_lock_safe (h : Reach Init (CountedStep tid) s) :
    (∀ t u, 0 < (s.thr t).depth → 0 < (s.thr u).depth → t = u) ∧
    (∀ t, s.user = tid t → s.inner = some t) ∧
    (∀ t, 0 < (s.thr t).depth → (s.thr t).pc = .idle → s.count.toInt = (s.thr t).depth) ∧
    (∀ t, 0 < (s.thr t).depth → s.inner = some t) ∧
    (∀ t, s.inner = some t → s.locked = 1 ∧ ((s.thr t).pc = .idle → 0 < (s.thr t).depth)) ∧
    ∀ s' t, CountedStep tid s s' → s.inner = some t → s'.inner ≠ some t →
      (s.thr t).depth = 1 ∧ (s'.thr t).depth = 0 ∧ s'.locked = 0 := by
  obtain ⟨hi, hdepth⟩ := Inv.of_reach hinj hid h
  have howned : ∀ t, 0 < (s.thr t).depth → Owned tid s t := fun t hpos =>
    (hi.cases t).resolve_right fun hout => (Nat.pos_iff_ne_zero.mp hpos) hout.2.1
  have hinner : ∀ t, s.inner = some t → Owned tid s t := fun t ht =>
    (hi.cases t).resolve_right fun hout => hout.1 ht
  have hidle : ∀ t, Owned tid s t → (s.thr t).pc = .idle →
      0 < (s.thr t).depth ∧ s.count = BitVec.ofNat 32 (s.thr t).depth := fun t ho hpc => by
    have hat := ho.owner
    rw [OwnerAt, hpc] at hat
    exact ⟨hat.1, hat.2.2⟩
  refine ⟨fun t u ht hu => ?_, fun t huser => ?_, fun t ht hpc => ?_, fun t ht => (howned t ht).inner,
    fun t ht => ⟨(hinner t ht).locked, fun hpc => (hidle t (hinner t ht) hpc).1⟩,
    fun s' t hstep ht hrel => (hinner t ht).released hstep.1 hrel⟩
  · exact Option.some.inj ((howned t ht).inner.symm.trans (howned u hu).inner)
  · by_contra hne
    exact hi.user_ne hinj hid hne huser
  · have hlt := hdepth t
    rw [(hidle t (howned t ht) hpc).2, BitVec.toInt_eq_toNat_of_lt] <;>
      rw [BitVec.toNat_ofNat] <;> omega

end

/-! ## Nesting -/

/-- The lock as it is initialised, with one thread. -/
def unlocked : State Unit := ⟨0, -1, 0, none, fun _ => ⟨.idle, 0⟩⟩

/-- One thread, with the id `5`, in an `n`-fold acquisition. -/
def nested (n : Nat) : State Unit := ⟨1, 5, BitVec.ofNat 32 n, some (), fun _ => ⟨.idle, n⟩⟩

theorem set_unit (s : State Unit) (th : Thread) : s.set () th = { s with thr := fun _ => th } := by
  rw [State.set]
  congr 1

theorem reach_nested (n : Nat) : Reach Init (Step fun _ : Unit => 5) (nested (n + 1)) := by
  induction n with
  | zero =>
    have hinit : Init unlocked := ⟨rfl, rfl, rfl, rfl, fun _ => rfl⟩
    have h0 : Reach Init (Step fun _ : Unit => 5) _ := .start hinit
    have h1 := h0.next (Step.callLock (t := ()) rfl)
    rw [set_unit] at h1
    have h2 := h1.next (Step.lockUserOther (t := ()) rfl (by decide))
    rw [set_unit] at h2
    have h3 := h2.next (Step.lockXchgFree (t := ()) rfl rfl)
    rw [set_unit] at h3
    have h4 := h3.next (Step.setUser (t := ()) rfl)
    rw [set_unit] at h4
    have h5 := h4.next (Step.countLoad (t := ()) rfl)
    rw [set_unit] at h5
    have h6 := h5.next (Step.countStore (t := ()) rfl)
    rw [set_unit] at h6
    exact h6
  | succ n ih =>
    have h1 := ih.next (Step.callLock (t := ()) rfl)
    rw [set_unit] at h1
    have h2 := h1.next (Step.lockUserSelf (t := ()) rfl rfl)
    rw [set_unit] at h2
    have h3 := h2.next (Step.countLoad (t := ()) rfl)
    rw [set_unit] at h3
    have h4 := h3.next (Step.countStore (t := ()) rfl)
    rw [set_unit] at h4
    have hcount : (nested (n + 1)).count + 1 = BitVec.ofNat 32 (n + 2) := ofNat_succ (n + 1)
    rw [hcount] at h4
    exact h4

/-- Two threads: the first, with the id `5`, holds the lock twice, and the second spins. -/
def spinning : State (Fin 2) :=
  ⟨1, 5, 2, some 0, Function.update (Function.update (fun _ => ⟨.idle, 0⟩) 0 ⟨.idle, 2⟩) 1 ⟨.lockSpin, 0⟩⟩

def twoIds : Fin 2 → BitVec 32 := fun t => if t = 0 then 5 else 6

theorem reach_spinning : Reach Init (CountedStep twoIds) spinning := by
  have h0 : Reach Init (CountedStep twoIds) ⟨0, -1, 0, none, fun _ => ⟨.idle, 0⟩⟩ :=
    .start ⟨rfl, rfl, rfl, rfl, fun _ => rfl⟩
  have h1 := h0.next ⟨.callLock (t := 0) rfl, by decide⟩
  have h2 := h1.next ⟨.lockUserOther (t := 0) rfl (by decide), by decide⟩
  have h3 := h2.next ⟨.lockXchgFree (t := 0) rfl rfl, by decide⟩
  have h4 := h3.next ⟨.setUser (t := 0) rfl, by decide⟩
  have h5 := h4.next ⟨.countLoad (t := 0) rfl, by decide⟩
  have h6 := h5.next ⟨.countStore (t := 0) rfl, by decide⟩
  -- the second thread finds another id in `user` and the inner lock taken
  have h7 := h6.next ⟨.callLock (t := 1) rfl, by decide⟩
  have h8 := h7.next ⟨.lockUserOther (t := 1) rfl (by decide), by decide⟩
  have h9 := h8.next ⟨.lockXchgTaken (t := 1) rfl (by decide), by decide⟩
  -- the first finds its own
  have h10 := h9.next ⟨.callTrylock (t := 0) rfl, by decide⟩
  have h11 := h10.next ⟨.tryUserSelf (t := 0) rfl rfl, by decide⟩
  have h12 := h11.next ⟨.countLoad (t := 0) rfl, by decide⟩
  have h13 := h12.next ⟨.countStore (t := 0) rfl, by decide⟩
  have hext : ∀ s, Reach Init (CountedStep twoIds) s → s.locked = 1 → s.user = 5 → s.count = 2 →
      s.inner = some 0 → (∀ t, s.thr t = spinning.thr t) → Reach Init (CountedStep twoIds) spinning :=
    fun s hs hlocked huser hcount hinner hthr =>
      State.ext (y := spinning) hlocked huser hcount hinner (funext hthr) ▸ hs
  exact hext _ h13 rfl rfl rfl rfl fun | 0 => rfl | 1 => rfl

theorem recursive_lock_safe_spinning : spinning.count.toInt = (spinning.thr 0).depth ∧
    (spinning.thr 0).depth = 2 ∧ (∀ u, 0 < (spinning.thr u).depth → u = 0) ∧
    spinning.inner = some 0 ∧ spinning.locked = 1 ∧
    ∀ s', CountedStep twoIds spinning s' → s'.inner = some 0 := by
  have hids : Function.Injective twoIds := by
    unfold Function.Injective
    decide
  obtain ⟨hone, -, hcount, hinner, hlocked, hrel⟩ := recursive_lock_safe hids (by decide) reach_spinning
  refine ⟨hcount 0 (by decide) rfl, rfl, fun u hu => hone u 0 hu (by decide), hinner 0 (by decide),
    (hlocked 0 rfl).1, fun s' hstep => ?_⟩
  -- one of its two acquisitions stays in every next step
  by_contra hne
  exact absurd (hrel s' 0 hstep rfl hne).1 (by decide)

/-- After `2 ^ 31` nested acquisitions the count is negative. -/
theorem not_recursive_lock_safe : Reach Init (Step fun _ : Unit => 5) (nested (2 ^ 31)) ∧
    ((nested (2 ^ 31)).thr ()).pc = .idle ∧ ((nested (2 ^ 31)).thr ()).depth = 2 ^ 31 ∧
    (nested (2 ^ 31)).count.toInt = -2 ^ 31 :=
  ⟨reach_nested (2 ^ 31 - 1), rfl, rfl, by decide⟩

end RecursiveLock
