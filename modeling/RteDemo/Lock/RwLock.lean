import Mathlib.Algebra.BigOperators.Ring.Finset
import Mathlib.Algebra.Order.BigOperators.Group.Finset
import Mathlib.Data.Fintype.Card
import RteDemo.Lib.Holders
import RteDemo.Lib.Reach

/-!
# `rte_rwlock`

One lock word and any number of threads that run `rte_rwlock_read_lock`, `rte_rwlock_read_unlock`,
`rte_rwlock_write_lock` and `rte_rwlock_write_unlock` on it. Every load, test, compare-and-set,
increment and decrement is a step of its own, so that a value loaded may be stale when it is used.

The lock word counts the read locks, or is `-1` under a writer (`rte_rwlock_safe`); so the lock
behaves as the abstract one of `Holders` (`holders_reach`). A thread may take several read locks: then the
word is not the number of threads that read (`not_rte_rwlock_safe`).
-/

namespace RwLock

/-- `rte_atomic32_cmpset`: the new value of the word, and the result. -/
def atomic32Cmpset (dst exp src : BitVec 32) : BitVec 32 × Bool :=
  if dst = exp then (src, true) else (dst, false)

/-- `rte_atomic32_inc`. -/
def atomic32Inc (v : BitVec 32) : BitVec 32 := v + 1

/-- `rte_atomic32_dec`. -/
def atomic32Dec (v : BitVec 32) : BitVec 32 := v - 1

/-- Where a thread is: outside the four functions, or inside the loop of one of the two lock
functions, with the value of `x` once it is loaded. -/
inductive Pc
  | idle
  | readLoad
  | readTest (x : BitVec 32)
  | readCas (x : BitVec 32)
  | writeLoad
  | writeTest (x : BitVec 32)
  | writeCas
  deriving DecidableEq, Repr

/-- A thread: where it is, how many read locks it holds, and whether it holds the write lock. -/
structure Thread where
  pc : Pc
  reads : Nat
  writes : Bool
  deriving DecidableEq, Repr

/-- The lock word and the threads. -/
@[ext]
structure State (T : Type*) where
  cnt : BitVec 32
  thr : T → Thread

variable {T : Type*}

section Steps

variable [DecidableEq T]

/-- The state with thread `t` replaced. -/
def State.set (s : State T) (t : T) (th : Thread) : State T :=
  { s with thr := Function.update s.thr t th }

/-- `rte_rwlock_init`, before any thread has called a lock function. -/
def Init (s : State T) : Prop := s.cnt = 0 ∧ ∀ t, s.thr t = ⟨.idle, 0, false⟩

/-- The step of thread `t`, which holds `r` read locks, and the write lock if `w`. A thread that is idle may
call any of the functions, an unlock only as a holder in that mode. -/
inductive Step : State T → State T → Prop
  | callRead {s t r w} : s.thr t = ⟨.idle, r, w⟩ → Step s (s.set t ⟨.readLoad, r, w⟩)
  | readLoad {s t r w} : s.thr t = ⟨.readLoad, r, w⟩ → Step s (s.set t ⟨.readTest s.cnt, r, w⟩)
  | readRetry {s t x r w} : s.thr t = ⟨.readTest x, r, w⟩ → x.toInt < 0 →
      Step s (s.set t ⟨.readLoad, r, w⟩)
  | readTest {s t x r w} : s.thr t = ⟨.readTest x, r, w⟩ → ¬ x.toInt < 0 →
      Step s (s.set t ⟨.readCas x, r, w⟩)
  | readCas {s t x r w} : s.thr t = ⟨.readCas x, r, w⟩ →
      Step s (if (atomic32Cmpset s.cnt x (x + 1)).2
        then { s with cnt := (atomic32Cmpset s.cnt x (x + 1)).1 }.set t ⟨.idle, r + 1, w⟩
        else { s with cnt := (atomic32Cmpset s.cnt x (x + 1)).1 }.set t ⟨.readLoad, r, w⟩)
  | readUnlock {s t r w} : s.thr t = ⟨.idle, r + 1, w⟩ →
      Step s ({ s with cnt := atomic32Dec s.cnt }.set t ⟨.idle, r, w⟩)
  | callWrite {s t r w} : s.thr t = ⟨.idle, r, w⟩ → Step s (s.set t ⟨.writeLoad, r, w⟩)
  | writeLoad {s t r w} : s.thr t = ⟨.writeLoad, r, w⟩ → Step s (s.set t ⟨.writeTest s.cnt, r, w⟩)
  | writeRetry {s t x r w} : s.thr t = ⟨.writeTest x, r, w⟩ → x ≠ 0 →
      Step s (s.set t ⟨.writeLoad, r, w⟩)
  | writeTest {s t r w} : s.thr t = ⟨.writeTest 0, r, w⟩ → Step s (s.set t ⟨.writeCas, r, w⟩)
  | writeCas {s t r w} : s.thr t = ⟨.writeCas, r, w⟩ →
      Step s (if (atomic32Cmpset s.cnt 0 (-1)).2
        then { s with cnt := (atomic32Cmpset s.cnt 0 (-1)).1 }.set t ⟨.idle, r, true⟩
        else { s with cnt := (atomic32Cmpset s.cnt 0 (-1)).1 }.set t ⟨.writeLoad, r, w⟩)
  | writeUnlock {s t r} : s.thr t = ⟨.idle, r, true⟩ →
      Step s ({ s with cnt := atomic32Inc s.cnt }.set t ⟨.idle, r, false⟩)

end Steps

@[simp] theorem State.set_cnt [DecidableEq T] (s : State T) (t : T) (th : Thread) : (s.set t th).cnt = s.cnt := rfl

theorem State.set_thr [DecidableEq T] (s : State T) (t u : T) (th : Thread) :
    (s.set t th).thr u = if u = t then th else s.thr u := by
  by_cases h : u = t
  · rw [if_pos h, h]
    exact Function.update_self ..
  · rw [if_neg h]
    exact Function.update_of_ne h ..

/-! ## The lock word -/

section Word

variable [Fintype T]

/-- The read locks that are held. -/
def State.readLocks (s : State T) : Nat := ∑ t, (s.thr t).reads

/-- A step in which the read locks can be counted in an `int32_t`. -/
def CountedStep [DecidableEq T] (s s' : State T) : Prop := Step s s' ∧ s'.readLocks < 2 ^ 31

/-- The lock word agrees with the holders, and a value about to be compared with was not negative. -/
structure Inv (s : State T) : Prop where
  word : (s.cnt = -1 ∧ (∃ w, (s.thr w).writes = true ∧ ∀ t, t ≠ w → (s.thr t).writes = false) ∧
      s.readLocks = 0) ∨
    ((∀ t, (s.thr t).writes = false) ∧ s.cnt = BitVec.ofNat 32 s.readLocks)
  tested : ∀ t x, (s.thr t).pc = .readCas x → ¬ x.toInt < 0

variable {s s' : State T} {t : T} {th : Thread} {pc pc' : Pc} {r : Nat} {w : Bool}

theorem toInt_ofNat {n : Nat} (h : n < 2 ^ 31) : (BitVec.ofNat 32 n).toInt = n := by
  rw [BitVec.toInt_eq_toNat_of_lt] <;> rw [BitVec.toNat_ofNat] <;> omega

/-- A word that is not negative counts read locks. -/
theorem Inv.read_of_nonneg (hi : Inv s) (hn : ¬ s.cnt.toInt < 0) :
    (∀ t, (s.thr t).writes = false) ∧ s.cnt = BitVec.ofNat 32 s.readLocks := by
  rcases hi.word with ⟨hcnt, -⟩ | hread
  · rw [hcnt] at hn
    exact absurd (by decide) hn
  · exact hread

/-- A word that is zero means that nobody holds the lock. -/
theorem Inv.free_of_zero (hi : Inv s) (hlt : s.readLocks < 2 ^ 31) (h0 : s.cnt = 0) :
    (∀ t, (s.thr t).writes = false) ∧ s.readLocks = 0 := by
  obtain ⟨hw, hr⟩ := hi.read_of_nonneg (by rw [h0]; decide)
  have hnat := congrArg BitVec.toNat (h0.symm.trans hr)
  rw [BitVec.toNat_ofNat, Nat.mod_eq_of_lt (by omega)] at hnat
  exact ⟨hw, hnat.symm⟩

theorem State.reads_le (s : State T) (t : T) : (s.thr t).reads ≤ s.readLocks :=
  Finset.single_le_sum (f := fun t => (s.thr t).reads) (fun _ _ => Nat.zero_le _) (Finset.mem_univ t)

/-- The threads that hold a read lock. -/
def State.readers (s : State T) : Finset T := Finset.univ.filter fun t => 0 < (s.thr t).reads

/-- When nobody holds two read locks, there are as many as threads that read. -/
theorem State.readLocks_of_le_one (h : ∀ t, (s.thr t).reads ≤ 1) : s.readLocks = s.readers.card := by
  rw [State.readers, Finset.card_filter, State.readLocks]
  refine Finset.sum_congr rfl fun t _ => ?_
  have ht := h t
  split_ifs <;> omega

theorem inv_init (h : Init s) : Inv s where
  word := by
    refine .inr ⟨fun t => by rw [h.2 t], ?_⟩
    rw [h.1, State.readLocks, Finset.sum_eq_zero fun t _ => by rw [h.2 t]]
    rfl
  tested t x hx := by
    rw [h.2 t] at hx
    cases hx

variable [DecidableEq T]

theorem State.readLocks_set (s : State T) (t : T) (th : Thread) (cnt : BitVec 32) :
    ({ s with cnt := cnt }.set t th).readLocks + (s.thr t).reads = s.readLocks + th.reads := by
  have hold := Finset.add_sum_erase Finset.univ (fun u => (s.thr u).reads) (Finset.mem_univ t)
  have hnew := Finset.add_sum_erase Finset.univ
    (fun u => (({ s with cnt := cnt } : State T).set t th |>.thr u).reads) (Finset.mem_univ t)
  have hrest : ∑ u ∈ Finset.univ.erase t, (({ s with cnt := cnt } : State T).set t th |>.thr u).reads =
      ∑ u ∈ Finset.univ.erase t, (s.thr u).reads :=
    Finset.sum_congr rfl fun u hu => by rw [State.set_thr, if_neg (Finset.ne_of_mem_erase hu)]
  rw [hrest, State.set_thr, if_pos rfl] at hnew
  unfold State.readLocks
  omega

/-- Another thread in place of `t`: what is left to show. -/
theorem Inv.set {cnt : BitVec 32} (hi : Inv s) (htest : ∀ x, th.pc = .readCas x → ¬ x.toInt < 0)
    (hword : (cnt = -1 ∧ (∃ w, (({ s with cnt := cnt }.set t th).thr w).writes = true ∧
        ∀ u, u ≠ w → (({ s with cnt := cnt }.set t th).thr u).writes = false) ∧
        ({ s with cnt := cnt }.set t th).readLocks = 0) ∨
      ((∀ u, (({ s with cnt := cnt }.set t th).thr u).writes = false) ∧
        cnt = BitVec.ofNat 32 ({ s with cnt := cnt }.set t th).readLocks)) :
    Inv ({ s with cnt := cnt }.set t th) where
  word := hword
  tested u x hx := by
    rw [State.set_thr] at hx
    split at hx
    · exact htest x hx
    · exact hi.tested u x hx

/-- A step that moves one thread and leaves its locks and the lock word alone. -/
theorem Inv.move (hi : Inv s) (ht : s.thr t = ⟨pc, r, w⟩) (htest : ∀ x, pc' = .readCas x → ¬ x.toInt < 0) :
    Inv (s.set t ⟨pc', r, w⟩) := by
  have hlocks := s.readLocks_set t ⟨pc', r, w⟩ s.cnt
  rw [ht] at hlocks
  have hsame : (s.set t ⟨pc', r, w⟩).readLocks = s.readLocks := Nat.add_right_cancel hlocks
  have hwrites : ∀ u, ((s.set t ⟨pc', r, w⟩).thr u).writes = (s.thr u).writes := by
    intro u
    rw [State.set_thr]
    split
    · rename_i hu
      rw [hu, ht]
    · rfl
  refine hi.set htest ?_
  simp only [hwrites, hsame]
  exact hi.word

/-- **One step.** A compare-and-set succeeds only on the value that was tested, so the test still
holds of the lock word when the lock is granted. -/
theorem Inv.step (hi : Inv s) (hlt : s.readLocks < 2 ^ 31) (h : Step s s') : Inv s' := by
  cases h with
  | callRead ht => exact hi.move ht nofun
  | readLoad ht => exact hi.move ht nofun
  | readRetry ht hx => exact hi.move ht nofun
  | readTest ht hx =>
    refine hi.move ht fun y hy => ?_
    cases hy
    exact hx
  | @readCas t x r w ht =>
    have hx : ¬ x.toInt < 0 := hi.tested t x (by rw [ht])
    by_cases hcas : s.cnt = x
    · subst hcas
      rw [atomic32Cmpset, if_pos rfl, if_pos rfl]
      dsimp only
      obtain ⟨hw, hr⟩ := hi.read_of_nonneg hx
      have hlocks := s.readLocks_set t ⟨.idle, r + 1, w⟩ (s.cnt + 1)
      rw [ht] at hlocks
      simp only at hlocks
      refine hi.set nofun (.inr ⟨fun u => ?_, ?_⟩)
      · rw [State.set_thr]
        split
        · have hwt := hw t
          rwa [ht] at hwt
        · exact hw u
      · have hsum : ({ s with cnt := s.cnt + 1 }.set t ⟨.idle, r + 1, w⟩).readLocks = s.readLocks + 1 := by omega
        rw [hsum, BitVec.ofNat_add, ← hr]
        rfl
    · rw [atomic32Cmpset, if_neg hcas, if_neg Bool.false_ne_true]
      exact hi.move ht nofun
  | @readUnlock t r w ht =>
    have hlocks := s.readLocks_set t ⟨.idle, r, w⟩ (atomic32Dec s.cnt)
    rw [ht] at hlocks
    have hge := s.reads_le t
    rw [ht] at hge
    simp only at hlocks hge
    rcases hi.word with ⟨-, -, h0⟩ | ⟨hw, hr⟩
    · omega
    · refine hi.set nofun (.inr ⟨fun u => ?_, ?_⟩)
      · rw [State.set_thr]
        split
        · have hwt := hw t
          rwa [ht] at hwt
        · exact hw u
      · have hsum : s.readLocks = ({ s with cnt := atomic32Dec s.cnt }.set t ⟨.idle, r, w⟩).readLocks + 1 := by
          omega
        rw [hsum, BitVec.ofNat_add] at hr
        rw [atomic32Dec, hr]
        exact BitVec.add_sub_cancel ..
  | callWrite ht => exact hi.move ht nofun
  | writeLoad ht => exact hi.move ht nofun
  | writeRetry ht hx => exact hi.move ht nofun
  | writeTest ht => exact hi.move ht nofun
  | @writeCas t r w ht =>
    by_cases hcas : s.cnt = 0
    · rw [hcas, atomic32Cmpset, if_pos rfl, if_pos rfl]
      obtain ⟨hw, h0⟩ := hi.free_of_zero hlt hcas
      have hlocks := s.readLocks_set t ⟨.idle, r, true⟩ (-1)
      rw [ht] at hlocks
      have hsum : ({ s with cnt := -1 }.set t ⟨.idle, r, true⟩).readLocks = 0 := by
        simp only at hlocks
        omega
      refine hi.set nofun (.inl ⟨rfl, ⟨t, ?_, fun u hu => ?_⟩, hsum⟩)
      · rw [State.set_thr, if_pos rfl]
      · rw [State.set_thr, if_neg hu]
        exact hw u
    · rw [atomic32Cmpset, if_neg hcas, if_neg Bool.false_ne_true]
      exact hi.move ht nofun
  | @writeUnlock t r ht =>
    have hlocks := s.readLocks_set t ⟨.idle, r, false⟩ (atomic32Inc s.cnt)
    rw [ht] at hlocks
    simp only at hlocks
    rcases hi.word with ⟨hcnt, ⟨v, hv, hrest⟩, h0⟩ | ⟨hw, -⟩
    · refine hi.set nofun (.inr ⟨fun u => ?_, ?_⟩)
      · rw [State.set_thr]
        split
        · rfl
        · rename_i hu
          by_cases huv : u = v
          · -- the writer is `t`
            by_cases htv : t = v
            · exact absurd (huv.trans htv.symm) hu
            · have hwt := hrest t htv
              rw [ht] at hwt
              cases hwt
          · exact hrest u huv
      · have hsum : ({ s with cnt := atomic32Inc s.cnt }.set t ⟨.idle, r, false⟩).readLocks = 0 := by omega
        rw [hsum, hcnt]
        rfl
    · have hwt := hw t
      rw [ht] at hwt
      cases hwt

/-! ## All runs -/

theorem inv_reach (h : Reach Init CountedStep s) : Inv s ∧ s.readLocks < 2 ^ 31 := by
  refine Reach.invariant (I := fun s => Inv s ∧ s.readLocks < 2 ^ 31) ?_ ?_ h
  · intro s hs
    refine ⟨inv_init hs, ?_⟩
    rw [State.readLocks, Finset.sum_eq_zero fun t _ => by rw [hs.2 t]]
    decide
  · rintro s s' ⟨hi, hlt⟩ ⟨hstep, hlt'⟩
    exact ⟨hi.step hlt hstep, hlt'⟩

/-- **The lock word.** In every reachable state the lock word is `-1`, one thread writes and none
reads; or it is the number of read locks and nobody writes. -/
theorem rte_rwlock_safe (h : Reach Init CountedStep s) :
    (s.cnt.toInt = -1 ∧ (∃! w, (s.thr w).writes = true) ∧ ∀ t, (s.thr t).reads = 0) ∨
      (0 ≤ s.cnt.toInt ∧ (∀ t, (s.thr t).writes = false) ∧ s.cnt.toInt = s.readLocks ∧
        ((∀ t, (s.thr t).reads ≤ 1) → s.cnt.toInt = s.readers.card)) := by
  obtain ⟨hi, hlt⟩ := inv_reach h
  rcases hi.word with ⟨hcnt, ⟨w, hw, hrest⟩, h0⟩ | ⟨hw, hcnt⟩
  · refine .inl ⟨by rw [hcnt]; decide, ⟨w, hw, fun u hu => ?_⟩, fun t => ?_⟩
    · by_contra hne
      exact absurd ((hrest u hne).symm.trans hu) Bool.false_ne_true
    · have hle := s.reads_le t
      omega
  · have hint : s.cnt.toInt = s.readLocks := by rw [hcnt, toInt_ofNat hlt]
    refine .inr ⟨by omega, hw, hint, fun hone => ?_⟩
    rw [hint, State.readLocks_of_le_one hone]

/-- Two threads: the first holds two read locks, and the second has found the word not to be zero. -/
def twoReads : State (Fin 2) :=
  ⟨2, fun t => if t.val = 0 then ⟨.idle, 2, false⟩ else ⟨.writeLoad, 0, false⟩⟩

theorem twoReads_reach : Reach Init CountedStep twoReads := by
  have h0 : Reach Init CountedStep (⟨0, fun _ => ⟨.idle, 0, false⟩⟩ : State (Fin 2)) :=
    .start ⟨rfl, fun _ => rfl⟩
  have h1 := h0.next ⟨.callRead (t := 0) rfl, by decide⟩
  have h2 := h1.next ⟨.readLoad (t := 0) rfl, by decide⟩
  have h3 := h2.next ⟨.readTest (t := 0) rfl (by decide), by decide⟩
  have h4 := h3.next ⟨.readCas (t := 0) rfl, by decide⟩
  have h5 := h4.next ⟨.callRead (t := 0) rfl, by decide⟩
  have h6 := h5.next ⟨.readLoad (t := 0) rfl, by decide⟩
  have h7 := h6.next ⟨.readTest (t := 0) rfl (by decide), by decide⟩
  have h8 := h7.next ⟨.readCas (t := 0) rfl, by decide⟩
  have h9 := h8.next ⟨.callWrite (t := 1) rfl, by decide⟩
  have h10 := h9.next ⟨.writeLoad (t := 1) rfl, by decide⟩
  have h11 := h10.next ⟨.writeRetry (t := 1) rfl (by decide), by decide⟩
  have hext : ∀ s, Reach Init CountedStep s → s.cnt = twoReads.cnt →
      (∀ t, s.thr t = twoReads.thr t) → Reach Init CountedStep twoReads :=
    fun s hs hcnt hthr => State.ext hcnt (funext hthr) ▸ hs
  exact hext _ h11 rfl fun | 0 => rfl | 1 => rfl

theorem rte_rwlock_safe_twoReads : twoReads.cnt.toInt = twoReads.readLocks ∧ twoReads.readLocks = 2 ∧
    ∀ t, (twoReads.thr t).writes = false := by
  rcases rte_rwlock_safe twoReads_reach with ⟨hneg, -⟩ | ⟨-, hw, hcnt, -⟩
  · exact absurd hneg (by decide)
  · exact ⟨hcnt, by decide, hw⟩

/-- The lock word is `2`, and one thread holds a read lock. -/
theorem not_rte_rwlock_safe : Reach Init Step twoReads ∧ twoReads.readers.card = 1 ∧
    ¬((twoReads.cnt.toInt = -1 ∧ (∃! w, (twoReads.thr w).writes = true) ∧ ∀ t, (twoReads.thr t).reads = 0) ∨
      (0 ≤ twoReads.cnt.toInt ∧ (∀ t, (twoReads.thr t).writes = false) ∧
        twoReads.cnt.toInt = twoReads.readers.card)) := by
  refine ⟨twoReads_reach.mono (fun _ hs => hs) fun _ _ hs => hs.1, by decide, ?_⟩
  rintro (⟨hneg, -⟩ | ⟨-, -, hcard⟩)
  · exact absurd hneg (by decide)
  · exact absurd hcard (by decide)

/-! ## The abstract lock -/

/-- How a thread holds the lock. -/
def Thread.mode (th : Thread) : Mode :=
  if th.writes then .write else if th.reads = 0 then .free else .read

def State.holders (s : State T) : Holders T := fun t => (s.thr t).mode

omit [Fintype T] in
theorem State.set_holders (s : State T) (cnt : BitVec 32) (t : T) (th : Thread) :
    ({ s with cnt := cnt }.set t th).holders = Function.update s.holders t th.mode := by
  funext u
  rw [State.holders, State.set_thr]
  by_cases h : u = t
  · rw [h, if_pos rfl, Function.update_self]
  · rw [if_neg h, Function.update_of_ne h]
    rfl

omit [Fintype T] in
theorem State.holders_same (cnt : BitVec 32) (hmode : th.mode = (s.thr t).mode) :
    ({ s with cnt := cnt }.set t th).holders = s.holders := by
  rw [State.set_holders, hmode]
  exact Function.update_eq_self t s.holders

omit [Fintype T] in
theorem Holders.Step.to_mode {m : Mode} (cnt : BitVec 32) (hmode : th.mode = m) (hm : s.holders.Grants m) :
    Holders.Step s.holders ({ s with cnt := cnt }.set t th).holders := by
  rw [State.set_holders, hmode]
  exact .take t hm

omit [Fintype T] [DecidableEq T] in
/-- Nobody writes: a read lock can be granted. -/
theorem State.canRead (h : ∀ t, (s.thr t).writes = false) : s.holders.CanRead := by
  intro t
  rw [State.holders, Thread.mode, h t, if_neg Bool.false_ne_true]
  split <;> decide

/-- What a step does to the holders: nothing, or what the abstract lock allows. -/
theorem Inv.holders_step (hi : Inv s) (hlt : s.readLocks < 2 ^ 31) (h : Step s s') :
    s'.holders = s.holders ∨ Holders.Step s.holders s'.holders := by
  have hmove : ∀ {t : T} {pc pc' : Pc} {r : Nat} {w : Bool} (cnt : BitVec 32), s.thr t = ⟨pc, r, w⟩ →
      ({ s with cnt := cnt }.set t ⟨pc', r, w⟩).holders = s.holders := fun cnt ht =>
    State.holders_same cnt (by rw [ht]; rfl)
  cases h with
  | callRead ht => exact .inl (hmove s.cnt ht)
  | readLoad ht => exact .inl (hmove s.cnt ht)
  | readRetry ht _ => exact .inl (hmove s.cnt ht)
  | readTest ht _ => exact .inl (hmove s.cnt ht)
  | @readCas t x r w ht =>
    by_cases hcas : s.cnt = x
    · subst hcas
      rw [atomic32Cmpset, if_pos rfl, if_pos rfl]
      obtain ⟨hw, -⟩ := hi.read_of_nonneg (hi.tested t _ (by rw [ht]))
      have hwt := hw t
      rw [ht] at hwt
      obtain rfl : w = false := hwt
      exact .inr (Holders.Step.to_mode _ (m := .read) rfl (State.canRead hw))
    · rw [atomic32Cmpset, if_neg hcas, if_neg Bool.false_ne_true]
      exact .inl (hmove s.cnt ht)
  | @readUnlock t r w ht =>
    have hge := s.reads_le t
    rw [ht] at hge
    simp only at hge
    rcases hi.word with ⟨-, -, h0⟩ | ⟨hw, -⟩
    · omega
    · have hwt := hw t
      rw [ht] at hwt
      obtain rfl : w = false := hwt
      cases r with
      | zero => exact .inr (Holders.Step.to_mode _ (m := .free) rfl trivial)
      | succ r => exact .inl (State.holders_same _ (by rw [ht]; rfl))
  | callWrite ht => exact .inl (hmove s.cnt ht)
  | writeLoad ht => exact .inl (hmove s.cnt ht)
  | writeRetry ht _ => exact .inl (hmove s.cnt ht)
  | writeTest ht => exact .inl (hmove s.cnt ht)
  | @writeCas t r w ht =>
    by_cases hcas : s.cnt = 0
    · rw [hcas, atomic32Cmpset, if_pos rfl, if_pos rfl]
      obtain ⟨hw, h0⟩ := hi.free_of_zero hlt hcas
      refine .inr (Holders.Step.to_mode _ (m := .write) rfl fun u => ?_)
      have hle := s.reads_le u
      rw [State.holders, Thread.mode, hw u, if_neg Bool.false_ne_true, if_pos (by omega)]
    · rw [atomic32Cmpset, if_neg hcas, if_neg Bool.false_ne_true]
      exact .inl (hmove s.cnt ht)
  | @writeUnlock t r ht =>
    rcases hi.word with ⟨-, -, h0⟩ | ⟨hw, -⟩
    · have hle := s.reads_le t
      rw [ht] at hle
      obtain rfl : r = 0 := by
        simp only at hle
        omega
      exact .inr (Holders.Step.to_mode _ (m := .free) rfl trivial)
    · have hwt := hw t
      rw [ht] at hwt
      cases hwt

/-- **Refinement.** Every run of the code is, seen through the holders, a run of the abstract
lock. -/
theorem holders_reach (h : Reach Init CountedStep s) :
    Reach (· = fun _ : T => Mode.free) Holders.Step s.holders := by
  induction h with
  | start hs => exact .start (funext fun t => by rw [State.holders, hs.2 t]; rfl)
  | next hr hs ih =>
    obtain ⟨hi, hlt⟩ := inv_reach hr
    rcases hi.holders_step hlt hs.1 with heq | hstep
    · rw [heq]
      exact ih
    · exact ih.next hstep

end Word

end RwLock
