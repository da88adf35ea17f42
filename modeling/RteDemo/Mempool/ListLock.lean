import RteDemo.Lib.Holders
import RteDemo.Lib.Reach

/-!
# The locks of the mempool list

Any number of threads run `rte_mempool_create_empty`, `rte_mempool_free`, `rte_mempool_lookup`,
`rte_mempool_walk` and `rte_mempool_list_dump`. Each acquisition and release of `mplock`
(`RTE_EAL_MEMPOOL_RWLOCK`) and `qlock` (`RTE_EAL_TAILQ_RWLOCK`), and each change of the list, is a
step of its own.

The three traversals hold `mplock` for reading. An insertion runs under both locks, a removal only
under `qlock`, so `mplock` keeps insertions away from traversals and nothing keeps removals away.

Main results: `exclusive_of_calm`, and `not_exclusive` without its condition.
-/

namespace MempoolList

/-- The functions that go through the list. -/
inductive Traversal
  | lookup
  | walk
  | listDump
  deriving DecidableEq, Repr

/-- Where a thread is; `mp` is the address of the pool it works on. -/
inductive Pc
  | idle
  /-- `rte_mempool_create_empty`, about to take `mplock`. -/
  | createLock
  /-- Getting the tailq entry and the memzone. -/
  | createAlloc
  | createQlock (mp : Nat)
  /-- At `TAILQ_INSERT_TAIL`. -/
  | createInsert (mp : Nat)
  | createQunlock (mp : Nat)
  | createUnlock (mp : Nat)
  /-- At `exit_unlock`, with the pool that was begun. -/
  | createFail (mp : Option Nat)
  /-- `rte_mempool_free`, about to take `qlock`. -/
  | freeLock (mp : Nat)
  /-- Looking for the tailq entry. -/
  | freeFind (mp : Nat)
  /-- At `TAILQ_REMOVE`. -/
  | freeRemove (mp : Nat)
  | freeUnlock (mp : Nat)
  /-- Giving back the chunks, the ops and the memzone. -/
  | freeRest (mp : Nat)
  | traverseLock (f : Traversal)
  /-- Between the read lock and the read unlock. -/
  | traverse (f : Traversal)
  deriving DecidableEq, Repr

/-- The two locks, the pools on the list and the threads. -/
structure State (T : Type*) where
  mplock : Holders T
  qlock : Holders T
  list : List Nat
  pc : T → Pc

variable {T : Type*}

/-- No lock is held, the list is empty and no thread has called anything. -/
def Init (s : State T) : Prop :=
  (∀ t, s.mplock t = .free) ∧ (∀ t, s.qlock t = .free) ∧ s.list = [] ∧ ∀ t, s.pc t = .idle

section Steps

variable [DecidableEq T]

def State.goto (s : State T) (t : T) (pc : Pc) : State T :=
  { s with pc := Function.update s.pc t pc }

def State.setMplock (s : State T) (t : T) (m : Mode) : State T :=
  { s with mplock := Function.update s.mplock t m }

def State.setQlock (s : State T) (t : T) (m : Mode) : State T :=
  { s with qlock := Function.update s.qlock t m }

/-- The steps of thread `t`. -/
inductive Step (t : T) : State T → State T → Prop
  | callCreate {s} : s.pc t = .idle → Step t s (s.goto t .createLock)
  | createLock {s} : s.pc t = .createLock → s.mplock.CanWrite →
      Step t s ((s.setMplock t .write).goto t .createAlloc)
  | createAlloc {s} (mp : Nat) : s.pc t = .createAlloc → Step t s (s.goto t (.createQlock mp))
  | createAllocFail {s} (mp : Option Nat) : s.pc t = .createAlloc →
      Step t s (s.goto t (.createFail mp))
  | createQlock {s mp} : s.pc t = .createQlock mp → s.qlock.CanWrite →
      Step t s ((s.setQlock t .write).goto t (.createInsert mp))
  | createInsert {s mp} : s.pc t = .createInsert mp →
      Step t s ({ s with list := s.list ++ [mp] }.goto t (.createQunlock mp))
  | createQunlock {s mp} : s.pc t = .createQunlock mp →
      Step t s ((s.setQlock t .free).goto t (.createUnlock mp))
  | createUnlock {s mp} : s.pc t = .createUnlock mp →
      Step t s ((s.setMplock t .free).goto t .idle)
  | createFail {s mp} : s.pc t = .createFail mp →
      -- rte_mempool_free(mp), which returns at once for NULL
      Step t s ((s.setMplock t .free).goto t (mp.elim .idle .freeLock))
  | callFree {s} (mp : Nat) : s.pc t = .idle → Step t s (s.goto t (.freeLock mp))
  | freeLock {s mp} : s.pc t = .freeLock mp → s.qlock.CanWrite →
      Step t s ((s.setQlock t .write).goto t (.freeFind mp))
  | freeFind {s mp} : s.pc t = .freeFind mp → mp ∈ s.list → Step t s (s.goto t (.freeRemove mp))
  | freeNone {s mp} : s.pc t = .freeFind mp → mp ∉ s.list → Step t s (s.goto t (.freeUnlock mp))
  | freeRemove {s mp} : s.pc t = .freeRemove mp →
      Step t s ({ s with list := s.list.erase mp }.goto t (.freeUnlock mp))
  | freeUnlock {s mp} : s.pc t = .freeUnlock mp →
      Step t s ((s.setQlock t .free).goto t (.freeRest mp))
  | freeRest {s mp} : s.pc t = .freeRest mp → Step t s (s.goto t .idle)
  | callTraverse {s} (f : Traversal) : s.pc t = .idle → Step t s (s.goto t (.traverseLock f))
  | traverseLock {s f} : s.pc t = .traverseLock f → s.mplock.CanRead →
      Step t s ((s.setMplock t .read).goto t (.traverse f))
  | traverseUnlock {s f} : s.pc t = .traverse f →
      Step t s ((s.setMplock t .free).goto t .idle)

end Steps

/-- Executing an insertion into the list. -/
def Pc.Inserts (pc : Pc) : Prop := ∃ mp, pc = .createInsert mp

/-- Executing a removal from the list. -/
def Pc.Removes (pc : Pc) : Prop := ∃ mp, pc = .freeRemove mp

/-- Between the read lock and the read unlock of a traversal. -/
def Pc.Traverses (pc : Pc) : Prop := ∃ f, pc = .traverse f

/-- Nobody changes the list while another thread goes through it. -/
def Exclusive (s : State T) : Prop :=
  ∀ t u, t ≠ u → (s.pc t).Traverses → ¬ ((s.pc u).Inserts ∨ (s.pc u).Removes)

/-! ## What `mplock` gives -/

/-- The mode in which a thread holds `mplock`. -/
def Pc.mpMode : Pc → Mode
  | .createAlloc | .createQlock _ | .createInsert _ | .createQunlock _ | .createUnlock _
  | .createFail _ => .write
  | .traverse _ => .read
  | _ => .free

/-- The invariant: `mplock` is held as the program points say, and exclusively. -/
structure Inv (s : State T) : Prop where
  mode : ∀ t, s.mplock t = (s.pc t).mpMode
  exclusive : s.mplock.Exclusive

theorem inv_init {s : State T} (h : Init s) : Inv s where
  mode t := by rw [h.1, h.2.2.2]; rfl
  exclusive := by
    have hfree : s.mplock = fun _ => .free := funext h.1
    rw [hfree]
    exact Holders.exclusive_free

section Runs

variable [DecidableEq T] {s s' : State T} {t : T}

/-- A step that leaves `mplock` alone goes to a point with the same mode. -/
theorem Inv.goto {s₁ : State T} {pc pc' : Pc} (hi : Inv s) (ht : s.pc t = pc)
    (hpc : pc'.mpMode = pc.mpMode) (hm : s₁.mplock = s.mplock := by rfl)
    (hp : s₁.pc = s.pc := by rfl) : Inv (s₁.goto t pc') where
  mode u := by
    change s₁.mplock u = (Function.update s₁.pc t pc' u).mpMode
    rw [hm, hp, hi.mode u, Function.update_apply]
    split
    · rename_i hut
      rw [hut, ht, hpc]
    · rfl
  exclusive := by
    change s₁.mplock.Exclusive
    rw [hm]
    exact hi.exclusive

/-- A step that takes or releases `mplock`. -/
theorem Inv.setMplock {pc : Pc} {m : Mode} (hi : Inv s) (hm : s.mplock.Grants m)
    (hpc : pc.mpMode = m) : Inv ((s.setMplock t m).goto t pc) where
  mode u := by
    change Function.update s.mplock t m u = (Function.update s.pc t pc u).mpMode
    rw [Function.update_apply, Function.update_apply]
    split
    · exact hpc.symm
    · exact hi.mode u
  exclusive := hi.exclusive.update hm

theorem Inv.step (hi : Inv s) (h : Step t s s') : Inv s' := by
  cases h with
  | callCreate ht => exact hi.goto ht rfl
  | createLock _ hw => exact hi.setMplock hw rfl
  | createAlloc mp ht => exact hi.goto ht rfl
  | createAllocFail mp ht => exact hi.goto ht rfl
  | createQlock ht _ => exact hi.goto ht rfl
  | createInsert ht => exact hi.goto ht rfl
  | createQunlock ht => exact hi.goto ht rfl
  | createUnlock _ => exact hi.setMplock trivial rfl
  | createFail _ => exact hi.setMplock trivial (by rename_i mp _; cases mp <;> rfl)
  | callFree mp ht => exact hi.goto ht rfl
  | freeLock ht _ => exact hi.goto ht rfl
  | freeFind ht _ => exact hi.goto ht rfl
  | freeNone ht _ => exact hi.goto ht rfl
  | freeRemove ht => exact hi.goto ht rfl
  | freeUnlock ht => exact hi.goto ht rfl
  | freeRest ht => exact hi.goto ht rfl
  | callTraverse f ht => exact hi.goto ht rfl
  | traverseLock _ hr => exact hi.setMplock hr rfl
  | traverseUnlock _ => exact hi.setMplock trivial rfl

omit [DecidableEq T] in
/-- Insertions and traversals exclude each other: both hold `mplock`, in modes that do not go
together. -/
theorem Inv.insert_traverse (hi : Inv s) {u : T} (ht : (s.pc t).Traverses) :
    ¬ (s.pc u).Inserts := by
  rintro ⟨mp, hu⟩
  obtain ⟨f, ht⟩ := ht
  have hread : s.mplock t = .read := by rw [hi.mode, ht]; rfl
  have hwrite : s.mplock u = .write := by rw [hi.mode, hu]; rfl
  exact hi.exclusive.not_both hwrite hread

/-! ## What nothing gives -/

/-- The condition on a step of `t`: `rte_mempool_free` does not find its pool on the list (and go
on to remove it) while another thread traverses, and no traversal starts while another thread is
removing. -/
def Calm (t : T) (s : State T) : Prop :=
  (∀ mp, s.pc t = .freeFind mp → mp ∈ s.list → ∀ u, ¬ (s.pc u).Traverses) ∧
    (∀ f, s.pc t = .traverseLock f → ∀ u, ¬ (s.pc u).Removes)

/-- A step of a thread under the condition. -/
def CalmStep (s s' : State T) : Prop := ∃ t, Calm t s ∧ Step t s s'

/-- A step of any thread. -/
def AnyStep (s s' : State T) : Prop := ∃ t, Step t s s'

/-- A step moves one thread; it comes to a traversal only from the read lock, and to a removal only
after finding the pool. -/
theorem Step.moves (h : Step t s s') : (∀ u, u ≠ t → s'.pc u = s.pc u) ∧
    ((s'.pc t).Traverses → ∃ f, s.pc t = .traverseLock f) ∧
    ((s'.pc t).Removes → ∃ mp, s.pc t = .freeFind mp ∧ mp ∈ s.list) := by
  have key : ∀ (s₁ : State T) (pc : Pc), s₁.pc = s.pc →
      (pc.Traverses → ∃ f, s.pc t = .traverseLock f) →
      (pc.Removes → ∃ mp, s.pc t = .freeFind mp ∧ mp ∈ s.list) →
      (∀ u, u ≠ t → (s₁.goto t pc).pc u = s.pc u) ∧
        (((s₁.goto t pc).pc t).Traverses → ∃ f, s.pc t = .traverseLock f) ∧
        (((s₁.goto t pc).pc t).Removes → ∃ mp, s.pc t = .freeFind mp ∧ mp ∈ s.list) := by
    intro s₁ pc hp htr hrm
    have hself : (s₁.goto t pc).pc t = pc := Function.update_self ..
    refine ⟨fun u hu => ?_, ?_, ?_⟩
    · exact (Function.update_of_ne hu ..).trans (congrFun hp u)
    · rw [hself]
      exact htr
    · rw [hself]
      exact hrm
  cases h with
  | callCreate _ => exact key _ _ rfl nofun nofun
  | createLock _ _ => exact key _ _ rfl nofun nofun
  | createAlloc mp _ => exact key _ _ rfl nofun nofun
  | createAllocFail mp _ => exact key _ _ rfl nofun nofun
  | createQlock _ _ => exact key _ _ rfl nofun nofun
  | createInsert _ => exact key _ _ rfl nofun nofun
  | createQunlock _ => exact key _ _ rfl nofun nofun
  | createUnlock _ => exact key _ _ rfl nofun nofun
  | createFail _ =>
    rename_i mp _
    cases mp with
    | none => exact key _ _ rfl nofun nofun
    | some mp => exact key _ _ rfl nofun nofun
  | callFree mp _ => exact key _ _ rfl nofun nofun
  | freeLock _ _ => exact key _ _ rfl nofun nofun
  | freeFind ht hmem => exact key _ _ rfl nofun fun _ => ⟨_, ht, hmem⟩
  | freeNone _ _ => exact key _ _ rfl nofun nofun
  | freeRemove _ => exact key _ _ rfl nofun nofun
  | freeUnlock _ => exact key _ _ rfl nofun nofun
  | freeRest _ => exact key _ _ rfl nofun nofun
  | callTraverse f _ => exact key _ _ rfl nofun nofun
  | traverseLock ht _ => exact key _ _ rfl (fun _ => ⟨_, ht⟩) nofun
  | traverseUnlock _ => exact key _ _ rfl nofun nofun

/-- No removal runs beside a traversal. -/
def Apart (s : State T) : Prop := ∀ t u, (s.pc t).Traverses → ¬ (s.pc u).Removes

/-- A step under the condition keeps removals and traversals apart. -/
theorem apart_step (ha : Apart s) (h : Step t s s') (hc : Calm t s) : Apart s' := by
  obtain ⟨hother, htr, hrm⟩ := h.moves
  intro a b hta hrb
  by_cases hat : a = t
  · subst hat
    obtain ⟨f, hf⟩ := htr hta
    by_cases hba : b = a
    · subst hba
      obtain ⟨mp, hmp⟩ := hrb
      obtain ⟨f', hf'⟩ := hta
      rw [hmp] at hf'
      cases hf'
    · rw [hother b hba] at hrb
      exact hc.2 f hf b hrb
  · rw [hother a hat] at hta
    by_cases hbt : b = t
    · subst hbt
      obtain ⟨mp, hmp, hmem⟩ := hrm hrb
      exact hc.1 mp hmp hmem a hta
    · rw [hother b hbt] at hrb
      exact ha a b hta hrb

theorem inv_reach (h : Reach Init AnyStep s) : Inv s :=
  h.invariant (fun _ hs => inv_init hs) fun _ _ hi ⟨_, hs⟩ => hi.step hs

/-- **The list under the condition.** In every run whose steps keep removals away from traversals,
nobody changes the list while another thread goes through it: insertions stay away by `mplock`. -/
theorem exclusive_of_calm (h : Reach Init CalmStep s) : Exclusive s := by
  have hi : Inv s := inv_reach (h.mono (fun _ => id) fun _ _ ⟨t, _, hs⟩ => ⟨t, hs⟩)
  have ha : Apart s := by
    refine h.invariant (I := Apart) (fun x hx t u ht => ?_) fun _ _ ha ⟨_, hc, hs⟩ =>
      apart_step ha hs hc
    obtain ⟨f, hf⟩ := ht
    rw [hx.2.2.2] at hf
    cases hf
  rintro t u - ht (hins | hrem)
  · exact hi.insert_traverse ht hins
  · exact ha t u ht hrem

/-- In a call of `rte_mempool_free`. -/
def Pc.InFree : Pc → Prop
  | .freeLock _ | .freeFind _ | .freeRemove _ | .freeUnlock _ | .freeRest _ => True
  | _ => False

/-- In a call of a traversal. -/
def Pc.InTraversal : Pc → Prop
  | .traverseLock _ | .traverse _ => True
  | _ => False

/-- No call of `rte_mempool_free` overlaps that of a traversal. -/
def Serial (s : State T) : Prop := ∀ t u, (s.pc t).InFree → ¬ (s.pc u).InTraversal

def SerialStep (s s' : State T) : Prop := Serial s ∧ AnyStep s s'

omit [DecidableEq T] in
theorem Serial.calm (h : Serial s) (t : T) : Calm t s := by
  refine ⟨fun mp ht _ u hu => ?_, fun f ht u hu => ?_⟩
  · obtain ⟨f, hf⟩ := hu
    exact h t u (by rw [ht]; trivial) (by rw [hf]; trivial)
  · obtain ⟨mp, hmp⟩ := hu
    exact h u t (by rw [hmp]; trivial) (by rw [ht]; trivial)

/-- Callers that keep these calls apart keep the condition, whatever else runs beside them. -/
theorem calm_of_serial (h : Reach Init SerialStep s) : Reach Init CalmStep s :=
  h.mono (fun _ => id) fun _ _ ⟨hserial, t, hs⟩ => ⟨t, hserial.calm t, hs⟩

/-- Two threads that have called nothing yet. -/
def quiet : State (Fin 2) := ⟨fun _ => .free, fun _ => .free, [], fun _ => .idle⟩

/-- Only a search by `rte_mempool_free` and the start of a traversal are under the condition. -/
theorem calm_of_ne {t : Fin 2} {s : State (Fin 2)} (hfind : ∀ mp, s.pc t ≠ .freeFind mp)
    (hlock : ∀ f, s.pc t ≠ .traverseLock f) : Calm t s :=
  ⟨fun mp h => absurd h (hfind mp), fun f h => absurd h (hlock f)⟩

/-- The second thread creates a pool, then the first walks the list. -/
theorem exclusive_walking : ∃ s : State (Fin 2), Reach Init CalmStep s ∧ s.list = [64] ∧ (s.pc 0).Traverses ∧
    Exclusive s := by
  have h0 : Reach Init CalmStep quiet := .start ⟨fun _ => rfl, fun _ => rfl, rfl, fun _ => rfl⟩
  have h1 := h0.next ⟨1, calm_of_ne nofun nofun, .callCreate rfl⟩
  have h2 := h1.next ⟨1, calm_of_ne nofun nofun, .createLock rfl fun _ => rfl⟩
  have h3 := h2.next ⟨1, calm_of_ne nofun nofun, .createAlloc 64 rfl⟩
  have h4 := h3.next ⟨1, calm_of_ne nofun nofun, .createQlock rfl fun _ => rfl⟩
  have h5 := h4.next ⟨1, calm_of_ne nofun nofun, .createInsert rfl⟩
  have h6 := h5.next ⟨1, calm_of_ne nofun nofun, .createQunlock rfl⟩
  have h7 := h6.next ⟨1, calm_of_ne nofun nofun, .createUnlock rfl⟩
  have h8 := h7.next ⟨0, calm_of_ne nofun nofun, .callTraverse .walk rfl⟩
  -- nobody removes when the walk starts
  have h9 := h8.next ⟨0, ⟨fun _ h => absurd h Pc.noConfusion, fun _ _ => fun | 0 => nofun | 1 => nofun⟩,
    .traverseLock rfl fun | 0 => nofun | 1 => nofun⟩
  exact ⟨_, h9, rfl, ⟨.walk, rfl⟩, exclusive_of_calm h9⟩

/-- **A removal beside a dump.** One thread creates a pool; another dumps the list; the first frees
the pool and reaches `TAILQ_REMOVE` while the dump is still inside: `qlock`, which it holds, does not
keep the dump out. -/
theorem not_exclusive : ¬ ∀ (T : Type) [DecidableEq T] (s : State T), Reach Init AnyStep s →
    Exclusive s := by
  intro hall
  have h0 : Reach Init AnyStep quiet := .start ⟨fun _ => rfl, fun _ => rfl, rfl, fun _ => rfl⟩
  have h1 := h0.next ⟨1, .callCreate rfl⟩
  have h2 := h1.next ⟨1, .createLock rfl fun _ => rfl⟩
  have h3 := h2.next ⟨1, .createAlloc 64 rfl⟩
  have h4 := h3.next ⟨1, .createQlock rfl fun _ => rfl⟩
  have h5 := h4.next ⟨1, .createInsert rfl⟩
  have h6 := h5.next ⟨1, .createQunlock rfl⟩
  have h7 := h6.next ⟨1, .createUnlock rfl⟩
  have h8 := h7.next ⟨0, .callTraverse .listDump rfl⟩
  have h9 := h8.next ⟨0, .traverseLock rfl fun | 0 => nofun | 1 => nofun⟩
  have h10 := h9.next ⟨1, .callFree 64 rfl⟩
  have h11 := h10.next ⟨1, .freeLock rfl fun | 0 => rfl | 1 => rfl⟩
  have h12 := h11.next ⟨1, .freeFind rfl (.head _)⟩
  exact hall _ _ h12 0 1 (by decide) ⟨.listDump, rfl⟩ (Or.inr ⟨64, rfl⟩)

end Runs

end MempoolList
