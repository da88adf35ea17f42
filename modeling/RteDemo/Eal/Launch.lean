import RteDemo.Lib.Reach
import Mathlib.Data.List.Basic
import Mathlib.Logic.Function.Basic

/-!
# `eal_thread.c`: launching functions on lcores

`rte_eal_remote_launch` leaves a function and its argument in `lcore_config`, sends one byte through the
pipe of the lcore and waits for a byte to come back. The thread of the lcore (`eal_thread_loop`) waits
for the byte, acknowledges it, and only then reads the function and its argument.

Each lcore has one caller at a time; its steps and those of the thread interleave freely, and a `FINISHED`
lcore may be collected at any time. A `read` or `write` that is interrupted is tried again.

The invariant (`LaunchInv`) goes by the position of the caller. From it: every launch that was accepted is
run exactly once, in order, with its own function and argument (`launch_once`).
-/

namespace RteDemo

/-! ## One lcore -/

/-- `enum rte_lcore_state_t` -/
inductive LcoreState
  | wait
  | running
  | finished
  deriving DecidableEq

/-- What a `read` or `write` of one byte does: it succeeds, is interrupted, or fails. -/
inductive SysResult
  | ok
  | again
  | fail
  deriving DecidableEq

/-- Where a call of `rte_eal_remote_launch` is. -/
inductive LaunchPc (F A : Type*)
  /-- No call is under way. -/
  | idle
  | storeF (f : Option F) (arg : A)
  | storeArg (arg : A)
  | writeCmd
  | readAck

/-- Where `eal_thread_loop` is. -/
inductive LoopPc (F A : Type*)
  | readCmd
  | setRunning
  | writeAck
  | checkF
  | loadArg
  | callF (arg : A)
  /-- The function runs. -/
  | inCall
  | storeRet (ret : Int)
  | setState

/-- The reasons for a panic. -/
inductive LaunchPanic
  | cannotWrite
  | cannotRead
  | nullFunction
  deriving DecidableEq

/-- The `lcore_config` of one lcore, its pipes, the two threads, and what has happened so far. A pipe is
the number of bytes in it: their value is never looked at. -/
structure Launch (F A : Type*) where
  f : Option F
  arg : A
  ret : Int
  state : LcoreState
  /-- `core_role` is `ROLE_SERVICE`. -/
  service : Bool
  pipeMaster2slave : Nat
  pipeSlave2master : Nat
  caller : LaunchPc F A
  thread : LoopPc F A
  /-- What calls of `rte_eal_remote_launch` returned, latest first. -/
  answers : List Int
  /-- The launches that found the lcore waiting, latest first. -/
  accepted : List (Option F × A)
  /-- The calls that the thread has made, latest first. -/
  called : List (Option F × A)
  /-- What the called functions returned, latest first. -/
  returned : List Int
  /-- What was collected, latest first. -/
  collected : List Int

section

variable {F A : Type*}

/-- A `read` of one byte, or a `write`: the state after it, which is the same if it was interrupted. -/
def SysResult.andThen (io : SysResult) (l : Launch F A) (e : LaunchPanic) (next : Launch F A) :
    Except LaunchPanic (Launch F A) :=
  match io with
  | ok => .ok next
  | again => .ok l
  | fail => .error e

/-- `-EBUSY` -/
def ebusy : Int := -16

/-- `rte_eal_remote_launch` up to its first store. -/
def Launch.start (l : Launch F A) (f : Option F) (arg : A) : Launch F A :=
  if l.state ≠ .wait then { l with answers := ebusy :: l.answers }
  else { l with caller := .storeF f arg, accepted := (f, arg) :: l.accepted }

/-- `rte_eal_remote_launch`: the next step of the caller. -/
def Launch.rteEalRemoteLaunch (l : Launch F A) (io : SysResult) : Except LaunchPanic (Launch F A) :=
  match l.caller with
  | .idle => .ok l
  | .storeF f arg => .ok { l with f := f, caller := .storeArg arg }
  | .storeArg arg => .ok { l with arg := arg, caller := .writeCmd }
  | .writeCmd => io.andThen l .cannotWrite
      { l with pipeMaster2slave := l.pipeMaster2slave + 1, caller := .readAck }
  | .readAck => io.andThen l .cannotRead
      { l with pipeSlave2master := l.pipeSlave2master - 1, caller := .idle, answers := 0 :: l.answers }

/-- `eal_thread_loop`: the next step of the thread. `ret` is what the function returns, if it does now. -/
def Launch.ealThreadLoop (l : Launch F A) (io : SysResult) (ret : Int) : Except LaunchPanic (Launch F A) :=
  match l.thread with
  | .readCmd => io.andThen l .cannotRead
      { l with pipeMaster2slave := l.pipeMaster2slave - 1, thread := .setRunning }
  | .setRunning => .ok { l with state := .running, thread := .writeAck }
  | .writeAck => io.andThen l .cannotWrite
      { l with pipeSlave2master := l.pipeSlave2master + 1, thread := .checkF }
  | .checkF => if l.f.isNone then .error .nullFunction else .ok { l with thread := .loadArg }
  | .loadArg => .ok { l with thread := .callF l.arg }
  | .callF arg => .ok { l with called := (l.f, arg) :: l.called, thread := .inCall }
  | .inCall => .ok { l with returned := ret :: l.returned, thread := .storeRet ret }
  | .storeRet ret => .ok { l with ret := ret, thread := .setState }
  -- nobody collects from a service core
  | .setState => .ok { l with state := if l.service then .wait else .finished, thread := .readCmd }

/-- What can happen. -/
inductive LaunchAct (F A : Type*)
  | launch (f : Option F) (arg : A)
  | caller (io : SysResult)
  | thread (io : SysResult) (ret : Int)
  /-- The application takes the result of a `FINISHED` lcore. -/
  | collect

/-- A call starts when no other is under way, and a `read` succeeds when there is a byte. -/
def LaunchAct.Enabled (l : Launch F A) : LaunchAct F A → Prop
  | launch _ _ => l.caller = .idle
  | caller io => l.caller ≠ .idle ∧ (l.caller = .readAck → io = .ok → 0 < l.pipeSlave2master)
  | thread io _ => l.thread = .readCmd → io = .ok → 0 < l.pipeMaster2slave
  | collect => l.state = .finished

/-- The state after it. -/
def Launch.act (l : Launch F A) : LaunchAct F A → Except LaunchPanic (Launch F A)
  | .launch f arg => .ok (l.start f arg)
  | .caller io => l.rteEalRemoteLaunch io
  | .thread io ret => l.ealThreadLoop io ret
  | .collect => .ok { l with state := .wait, collected := l.ret :: l.collected }

/-! ## The invariant -/

/-- The last accepted launch has not been called yet, and is the one in `lcore_config`. -/
def Launch.Pending (l : Launch F A) : Prop := l.accepted = (l.f, l.arg) :: l.called

/-- The thread reads no command, or has read none since its last function. -/
def ThreadOk (l : Launch F A) : Prop :=
  match l.thread with
  | .readCmd => l.state ≠ .running ∧ l.accepted = l.called
  | .setRunning | .writeAck => False
  | .checkF | .loadArg => l.state = .running ∧ l.Pending
  | .callF arg => l.state = .running ∧ arg = l.arg ∧ l.Pending
  | .inCall | .storeRet _ | .setState => l.state = .running ∧ l.accepted = l.called

/-- The command was sent and the acknowledgement not read. -/
inductive Sent (l : Launch F A) : Prop
  | command (pipe : l.pipeMaster2slave = 1) (ack : l.pipeSlave2master = 0) (thread : l.thread = .readCmd)
      (state : l.state = .wait) (pending : l.Pending)
  | read (pipe : l.pipeMaster2slave = 0) (ack : l.pipeSlave2master = 0) (thread : l.thread = .setRunning)
      (state : l.state = .wait) (pending : l.Pending)
  | running (pipe : l.pipeMaster2slave = 0) (ack : l.pipeSlave2master = 0) (thread : l.thread = .writeAck)
      (state : l.state = .running) (pending : l.Pending)
  | acked (pipe : l.pipeMaster2slave = 0) (ack : l.pipeSlave2master = 1) (thread : ThreadOk l)

/-- The caller has found the lcore waiting and not sent the command; the launch is `c`. -/
structure Claimed (l : Launch F A) (c : Option F × A) : Prop where
  pipe : l.pipeMaster2slave = 0
  ack : l.pipeSlave2master = 0
  thread : l.thread = .readCmd
  state : l.state = .wait
  pending : l.accepted = c :: l.called

/-- What the position of the caller says about the thread. -/
def CallerOk (l : Launch F A) : Prop :=
  match l.caller with
  | .idle => l.pipeMaster2slave = 0 ∧ l.pipeSlave2master = 0 ∧ ThreadOk l
  | .storeF f arg => Claimed l (f, arg)
  | .storeArg arg => Claimed l (l.f, arg)
  | .writeCmd => Claimed l (l.f, l.arg)
  | .readAck => Sent l

/-- The results that are still to be collected. -/
def Launch.uncollected (l : Launch F A) : List Int :=
  match l.thread with
  | .storeRet ret => [ret]
  | .setState => [l.ret]
  | _ => if l.state = .finished then [l.ret] else []

/-- The calls that have not returned. -/
def Launch.unreturned (l : Launch F A) : Nat := match l.thread with
  | .inCall => 1
  | _ => 0

structure LaunchInv (l : Launch F A) : Prop where
  caller : CallerOk l
  /-- A call that is under way has been accepted and not answered. -/
  answers : l.answers.count 0 + (match l.caller with | .idle => 0 | _ => 1) = l.accepted.length
  called : l.called.length = l.returned.length + l.unreturned
  /-- No result is lost. -/
  results : l.service = false → l.returned = l.uncollected ++ l.collected
  service : l.service = true → l.state ≠ .finished
  nonnull : ∀ c ∈ l.called, c.1 ≠ none
  loaded : (l.thread = .loadArg ∨ ∃ arg, l.thread = .callF arg) → l.f ≠ none

/-! ## Every step keeps it -/

variable {l l' : Launch F A} {io : SysResult} {ret : Int}

theorem SysResult.andThen_ok {e : LaunchPanic} {next : Launch F A} (h : io.andThen l e next = .ok l') :
    (io = .ok ∧ l' = next) ∨ (io = .again ∧ l' = l) := by
  cases io with
  | ok => exact .inl ⟨rfl, (Except.ok.inj h).symm⟩
  | again => exact .inr ⟨rfl, (Except.ok.inj h).symm⟩
  | fail => exact absurd h (by simp [andThen])

theorem LaunchInv.start (h : LaunchInv l) (hc : l.caller = .idle) (f : Option F) (arg : A) :
    LaunchInv (l.start f arg) := by
  obtain ⟨hcaller, hans, hcalled, hres, hserv, hnn, hload⟩ := h
  simp only [CallerOk, hc] at hcaller
  simp only [hc, Nat.add_zero] at hans
  obtain ⟨hpipe, hack, hthread⟩ := hcaller
  unfold Launch.start
  by_cases hw : l.state = .wait
  · -- a waiting lcore has a thread that waits for a command
    have ht : l.thread = .readCmd ∧ l.accepted = l.called := by
      unfold ThreadOk at hthread
      cases ht : l.thread <;> simp only [ht, hw, reduceCtorEq, false_and] at hthread
      exact ⟨rfl, hthread.2⟩
    rw [if_neg (not_not.mpr hw)]
    refine ⟨⟨hpipe, hack, ht.1, hw, congrArg _ ht.2⟩, ?_, hcalled, hres, hserv, hnn, hload⟩
    simp only [List.length_cons]
    omega
  · rw [if_pos hw]
    refine ⟨?_, ?_, hcalled, hres, hserv, hnn, hload⟩
    · simp only [CallerOk, hc]
      exact ⟨hpipe, hack, hthread⟩
    · rw [List.count_cons_of_ne (by decide)]
      simp only [hc, Nat.add_zero]
      exact hans

/-- A step of the caller. -/
theorem LaunchInv.caller_step (h : LaunchInv l) (he : (LaunchAct.caller io : LaunchAct F A).Enabled l)
    (hok : l.rteEalRemoteLaunch io = .ok l') : LaunchInv l' := by
  have h' := h
  obtain ⟨hcaller, hans, hcalled, hres, hserv, hnn, hload⟩ := h
  unfold CallerOk at hcaller
  unfold Launch.rteEalRemoteLaunch at hok
  cases hc : l.caller with
  | idle => exact absurd hc he.1
  | storeF f arg =>
    simp only [hc] at hcaller hok hans
    obtain rfl := Except.ok.inj hok
    refine ⟨⟨hcaller.pipe, hcaller.ack, hcaller.thread, hcaller.state, hcaller.pending⟩, hans, hcalled, hres,
      hserv, hnn, fun hl => ?_⟩
    simp [hcaller.thread] at hl
  | storeArg arg =>
    simp only [hc] at hcaller hok hans
    obtain rfl := Except.ok.inj hok
    refine ⟨⟨hcaller.pipe, hcaller.ack, hcaller.thread, hcaller.state, hcaller.pending⟩, hans, hcalled, hres,
      hserv, hnn, fun hl => ?_⟩
    simp [hcaller.thread] at hl
  | writeCmd =>
    simp only [hc] at hcaller hok hans
    rcases SysResult.andThen_ok hok with ⟨-, rfl⟩ | ⟨-, rfl⟩
    · exact ⟨.command (congrArg (· + 1) hcaller.pipe) hcaller.ack hcaller.thread hcaller.state hcaller.pending,
        hans, hcalled, hres, hserv, hnn, hload⟩
    · exact h'
  | readAck =>
    simp only [hc] at hcaller hok hans
    rcases SysResult.andThen_ok hok with ⟨hio, rfl⟩ | ⟨-, rfl⟩
    · have hpos := he.2 hc hio
      cases hcaller with
      | command _ hack | read _ hack | running _ hack => omega
      | acked hpipe hack hthread =>
        refine ⟨⟨hpipe, by simp only [hack], hthread⟩, ?_, hcalled, hres, hserv, hnn, hload⟩
        simp only [List.count_cons_self]
        omega
    · exact h'

theorem LaunchInv.collect (h : LaunchInv l) (hs : l.state = .finished) :
    LaunchInv { l with state := .wait, collected := l.ret :: l.collected } := by
  obtain ⟨hcaller, hans, hcalled, hres, hserv, hnn, hload⟩ := h
  -- only a thread that waits for a command leaves the lcore finished
  have hthread : ThreadOk l → l.thread = .readCmd ∧ l.accepted = l.called := by
    intro ht
    unfold ThreadOk at ht
    cases hth : l.thread <;> simp only [hth, hs, reduceCtorEq, false_and] at ht
    exact ⟨rfl, ht.2⟩
  have hok : ThreadOk l → ThreadOk { l with state := .wait, collected := l.ret :: l.collected } := by
    intro ht
    obtain ⟨hrd, hacc⟩ := hthread ht
    simp only [ThreadOk, hrd]
    exact ⟨by simp, hacc⟩
  have hread : l.thread = .readCmd := by
    unfold CallerOk at hcaller
    cases hc : l.caller <;> simp only [hc] at hcaller
    · exact (hthread hcaller.2.2).1
    · exact hcaller.thread
    · exact hcaller.thread
    · exact hcaller.thread
    · cases hcaller with
      | command _ _ ht => exact ht
      | read _ _ _ hst | running _ _ _ hst => simp [hs] at hst
      | acked _ _ ht => exact (hthread ht).1
  refine ⟨?_, hans, hcalled, fun hsv => ?_, fun _ => by simp, hnn, hload⟩
  · unfold CallerOk at hcaller ⊢
    cases hc : l.caller <;> simp only [hc] at hcaller ⊢
    · exact ⟨hcaller.1, hcaller.2.1, hok hcaller.2.2⟩
    · exact absurd (hcaller.state.symm.trans hs) (by simp)
    · exact absurd (hcaller.state.symm.trans hs) (by simp)
    · exact absurd (hcaller.state.symm.trans hs) (by simp)
    · cases hcaller with
      | command _ _ _ hst | read _ _ _ hst | running _ _ _ hst => simp [hs] at hst
      | acked hpipe hack ht => exact .acked hpipe hack (hok ht)
  · have hr := hres hsv
    simp only [Launch.uncollected, hread, hs, if_true] at hr ⊢
    exact hr

/-- Once it has acknowledged its command, the thread goes on by itself. -/
theorem CallerOk.advance (h : CallerOk l) (hrd : l.thread ≠ .readCmd) (hset : l.thread ≠ .setRunning)
    (hack : l.thread ≠ .writeAck) (hc : l'.caller = l.caller)
    (hpipe : l'.pipeMaster2slave = l.pipeMaster2slave) (hpipe' : l'.pipeSlave2master = l.pipeSlave2master) :
    ThreadOk l ∧ (ThreadOk l' → CallerOk l') := by
  unfold CallerOk at h ⊢
  rw [hc]
  cases hcal : l.caller <;> simp only [hcal] at h ⊢
  · exact ⟨h.2.2, fun ht => ⟨hpipe.trans h.1, hpipe'.trans h.2.1, ht⟩⟩
  · exact absurd h.thread hrd
  · exact absurd h.thread hrd
  · exact absurd h.thread hrd
  · cases h with
    | command _ _ ht => exact absurd ht hrd
    | read _ _ ht => exact absurd ht hset
    | running _ _ ht => exact absurd ht hack
    | acked hp hs ht => exact ⟨ht, fun ht' => .acked (hpipe.trans hp) (hpipe'.trans hs) ht'⟩

/-- A command in the pipe, or one that the thread has not acknowledged, was sent by the caller. -/
theorem CallerOk.sent (h : CallerOk l) (hcmd : l.thread = .readCmd ∧ 0 < l.pipeMaster2slave ∨
    l.thread = .setRunning ∨ l.thread = .writeAck) : l.caller = .readAck ∧ Sent l := by
  have hthread : ThreadOk l → ¬(l.thread = .setRunning ∨ l.thread = .writeAck) := by
    rintro ht (hs | hs) <;> simp only [ThreadOk, hs] at ht
  unfold CallerOk at h
  cases hcal : l.caller <;> simp only [hcal] at h
  · rcases hcmd with ⟨-, hp⟩ | hs
    · omega
    · exact absurd hs (hthread h.2.2)
  · have hp := h.pipe
    simp [h.thread, hp] at hcmd
  · have hp := h.pipe
    simp [h.thread, hp] at hcmd
  · have hp := h.pipe
    simp [h.thread, hp] at hcmd
  · exact ⟨rfl, h⟩

/-- A step of the thread. -/
theorem LaunchInv.thread_step (h : LaunchInv l) (he : (LaunchAct.thread io ret : LaunchAct F A).Enabled l)
    (hok : l.ealThreadLoop io ret = .ok l') : LaunchInv l' := by
  have h' := h
  obtain ⟨hcaller, hans, hcalled, hres, hserv, hnn, hload⟩ := h
  unfold Launch.ealThreadLoop at hok
  unfold Launch.unreturned at hcalled
  unfold Launch.uncollected at hres
  have hadvance := fun l'' : Launch F A => @CallerOk.advance _ _ l l'' hcaller
  cases ht : l.thread with
  | readCmd =>
    simp only [ht] at hok hcalled hres
    rcases SysResult.andThen_ok hok with ⟨hio, rfl⟩ | ⟨-, rfl⟩
    · have hpos := he ht hio
      obtain ⟨hcal, hsent⟩ := hcaller.sent (.inl ⟨ht, hpos⟩)
      cases hsent with
      | command hpipe hack _ hst hpend =>
        refine ⟨?_, hans, hcalled, fun hsv => ?_, hserv, hnn, by simp⟩
        · simp only [CallerOk, hcal]
          exact .read (by simp only [hpipe]) hack rfl hst hpend
        · have hr := hres hsv
          simp only [Launch.uncollected, hst, reduceCtorEq, if_false] at hr ⊢
          exact hr
      | read hpipe | running hpipe | acked hpipe => omega
    · exact h'
  | setRunning =>
    simp only [ht] at hok hcalled hres
    obtain rfl := Except.ok.inj hok
    obtain ⟨hcal, hsent⟩ := hcaller.sent (.inr (.inl ht))
    cases hsent with
    | read hpipe hack _ hst hpend =>
      refine ⟨?_, hans, hcalled, fun hsv => ?_, fun _ => by simp, hnn, by simp⟩
      · simp only [CallerOk, hcal]
        exact .running hpipe hack rfl rfl hpend
      · have hr := hres hsv
        simp only [Launch.uncollected, hst, reduceCtorEq, if_false] at hr ⊢
        exact hr
    | command _ _ hth | running _ _ hth => simp [ht] at hth
    | acked _ _ hth => simp [ThreadOk, ht] at hth
  | writeAck =>
    simp only [ht] at hok hcalled hres
    obtain ⟨hcal, hsent⟩ := hcaller.sent (.inr (.inr ht))
    rcases SysResult.andThen_ok hok with ⟨-, rfl⟩ | ⟨-, rfl⟩
    · cases hsent with
      | running hpipe hack _ hst hpend =>
        refine ⟨?_, hans, hcalled, fun hsv => ?_, hserv, hnn, by simp⟩
        · simp only [CallerOk, hcal]
          exact .acked hpipe (by simp only [hack]) ⟨hst, hpend⟩
        · have hr := hres hsv
          simp only [Launch.uncollected, hst, reduceCtorEq, if_false] at hr ⊢
          exact hr
      | command _ _ hth | read _ _ hth => simp [ht] at hth
      | acked _ _ hth => simp [ThreadOk, ht] at hth
    · exact h'
  | checkF =>
    simp only [ht] at hok hcalled hres
    by_cases hf : l.f.isNone = true
    · rw [if_pos hf] at hok
      exact absurd hok (by simp)
    · rw [if_neg hf] at hok
      obtain rfl := Except.ok.inj hok
      obtain ⟨hth, hgo⟩ := hadvance { l with thread := .loadArg } (by simp [ht]) (by simp [ht]) (by simp [ht])
        rfl rfl rfl
      simp only [ThreadOk, ht] at hth
      refine ⟨hgo hth, hans, hcalled, hres, hserv, hnn, fun _ (hnone : l.f = none) => hf (by rw [hnone]; rfl)⟩
  | loadArg =>
    simp only [ht] at hok hcalled hres
    obtain rfl := Except.ok.inj hok
    obtain ⟨hth, hgo⟩ := hadvance { l with thread := .callF l.arg } (by simp [ht]) (by simp [ht]) (by simp [ht])
      rfl rfl rfl
    simp only [ThreadOk, ht] at hth
    exact ⟨hgo ⟨hth.1, rfl, hth.2⟩, hans, hcalled, hres, hserv, hnn, fun _ => hload (.inl ht)⟩
  | callF arg =>
    simp only [ht] at hok hcalled hres
    obtain rfl := Except.ok.inj hok
    obtain ⟨hth, hgo⟩ := hadvance { l with called := (l.f, arg) :: l.called, thread := .inCall } (by simp [ht])
      (by simp [ht]) (by simp [ht]) rfl rfl rfl
    simp only [ThreadOk, ht] at hth
    obtain ⟨hst, rfl, hpend⟩ := hth
    refine ⟨hgo ⟨hst, hpend⟩, hans, congrArg (· + 1) hcalled, hres, hserv, fun c hc => ?_, by simp⟩
    rcases List.mem_cons.mp hc with rfl | hc
    · exact hload (.inr ⟨_, ht⟩)
    · exact hnn c hc
  | inCall =>
    simp only [ht] at hok hcalled hres
    obtain rfl := Except.ok.inj hok
    obtain ⟨hth, hgo⟩ := hadvance { l with returned := ret :: l.returned, thread := .storeRet ret } (by simp [ht])
      (by simp [ht]) (by simp [ht]) rfl rfl rfl
    simp only [ThreadOk, ht] at hth
    refine ⟨hgo hth, hans, hcalled, fun hsv => ?_, hserv, hnn, by simp⟩
    have hr := hres hsv
    rw [hth.1, if_neg (by simp)] at hr
    exact congrArg (ret :: ·) hr
  | storeRet v =>
    simp only [ht] at hok hcalled hres
    obtain rfl := Except.ok.inj hok
    obtain ⟨hth, hgo⟩ := hadvance { l with ret := v, thread := .setState } (by simp [ht]) (by simp [ht])
      (by simp [ht]) rfl rfl rfl
    simp only [ThreadOk, ht] at hth
    exact ⟨hgo hth, hans, hcalled, hres, hserv, hnn, by simp⟩
  | setState =>
    simp only [ht] at hok hcalled hres
    obtain rfl := Except.ok.inj hok
    obtain ⟨hth, hgo⟩ := hadvance
      { l with state := if l.service then .wait else .finished, thread := .readCmd } (by simp [ht])
      (by simp [ht]) (by simp [ht]) rfl rfl rfl
    simp only [ThreadOk, ht] at hth
    refine ⟨hgo ⟨by simp only; split <;> simp, hth.2⟩, hans, hcalled, fun hsv => ?_, fun hsv => ?_, hnn, by simp⟩
    · simp only at hsv
      simp only [Launch.uncollected, hsv, Bool.false_eq_true, if_false, if_true]
      exact hres hsv
    · simp only at hsv
      simp only [hsv, if_true]
      simp

/-- **Every step of the caller, the thread and the application keeps the invariant.** -/
theorem LaunchInv.act (h : LaunchInv l) {a : LaunchAct F A} (he : a.Enabled l) (hok : l.act a = .ok l') :
    LaunchInv l' := by
  cases a with
  | launch f arg =>
    obtain rfl := Except.ok.inj hok
    exact h.start he f arg
  | caller io => exact h.caller_step he hok
  | thread io ret => exact h.thread_step he hok
  | collect =>
    obtain rfl := Except.ok.inj hok
    exact h.collect he

/-! ## All lcores -/

/-- The state before `rte_eal_init` has launched anything; `lcore_config` is not filled in. -/
def Launch.init (arg : A) (ret : Int) (service : Bool) : Launch F A :=
  ⟨none, arg, ret, .wait, service, 0, 0, .idle, .readCmd, [], [], [], [], []⟩

theorem launchInv_init (arg : A) (ret : Int) (service : Bool) :
    LaunchInv (Launch.init arg ret service : Launch F A) where
  caller := ⟨rfl, rfl, by simp [Launch.init], rfl⟩
  answers := rfl
  called := rfl
  results _ := by simp [Launch.init, Launch.uncollected]
  service _ := by simp [Launch.init]
  nonnull c hc := absurd hc List.not_mem_nil
  loaded hl := by simp [Launch.init] at hl

/-- The lcores, and the panic that has ended the program. -/
structure LaunchSys (F A : Type*) where
  lcore : Nat → Launch F A
  panic : Option LaunchPanic

def LaunchSys.Init (sys : LaunchSys F A) : Prop :=
  sys.panic = none ∧ ∀ i, ∃ arg ret service, sys.lcore i = Launch.init arg ret service

/-- One step of one lcore, or a panic. -/
inductive LaunchStep : LaunchSys F A → LaunchSys F A → Prop
  | step {sys : LaunchSys F A} {i : Nat} {a : LaunchAct F A} {l' : Launch F A} (run : sys.panic = none)
      (enabled : a.Enabled (sys.lcore i)) (ok : (sys.lcore i).act a = .ok l') :
      LaunchStep sys { sys with lcore := Function.update sys.lcore i l' }
  | stop {sys : LaunchSys F A} {i : Nat} {a : LaunchAct F A} {e : LaunchPanic} (run : sys.panic = none)
      (enabled : a.Enabled (sys.lcore i)) (error : (sys.lcore i).act a = .error e) :
      LaunchStep sys { sys with panic := some e }

theorem launchInv_reach {sys : LaunchSys F A} (h : Reach LaunchSys.Init LaunchStep sys) (i : Nat) :
    LaunchInv (sys.lcore i) := by
  refine Reach.invariant (I := fun sys => ∀ i, LaunchInv (sys.lcore i)) ?_ ?_ h i
  · rintro sys ⟨-, hinit⟩ i
    obtain ⟨arg, ret, service, hl⟩ := hinit i
    rw [hl]
    exact launchInv_init arg ret service
  · intro sys sys' hinv hs i
    cases hs with
    | @step j a l' _ he hok =>
      by_cases hij : i = j
      · subst hij
        simp only [Function.update_self]
        exact (hinv i).act he hok
      · simp only [Function.update_of_ne hij]
        exact hinv i
    | stop => exact hinv i

/-- What a caller relies on. -/
structure LaunchedOnce (l : Launch F A) : Prop where
  /-- Every accepted launch is called once, in order, with its own function and argument; only the last may
  still have to be. -/
  called : ∃ p, p.length ≤ 1 ∧ l.accepted = p ++ l.called
  /-- Between calls as many launches were accepted as returned 0, and one that is not called yet runs. -/
  answered : l.caller = .idle → l.answers.count 0 = l.accepted.length ∧
    (l.accepted ≠ l.called → l.state = .running)
  /-- A function starts only when the one before has returned. -/
  alone : l.returned.length ≤ l.called.length ∧ l.called.length ≤ l.returned.length + 1
  /-- The results are collected in order, none lost and none twice. -/
  collected : l.service = false → l.collected <:+ l.returned ∧ l.returned.length ≤ l.collected.length + 1
  /-- The pipes hold one byte at most. -/
  pipes : l.pipeMaster2slave + l.pipeSlave2master ≤ 1
  /-- The caller and the thread never wait for each other. -/
  progress : l.caller = .readAck → 0 < l.pipeSlave2master ∨ (l.thread = .readCmd → 0 < l.pipeMaster2slave)
  nonnull : ∀ c ∈ l.called, c.1 ≠ none

theorem ThreadOk.called (h : ThreadOk l) : (∃ p, p.length ≤ 1 ∧ l.accepted = p ++ l.called) ∧
    (l.accepted ≠ l.called → l.state = .running) := by
  have hone : l.Pending → ∃ p, p.length ≤ 1 ∧ l.accepted = p ++ l.called := fun hp =>
    ⟨[(l.f, l.arg)], Nat.le_refl 1, hp⟩
  have hnone : l.accepted = l.called → ∃ p, p.length ≤ 1 ∧ l.accepted = p ++ l.called := fun hp =>
    ⟨[], Nat.zero_le 1, hp⟩
  unfold ThreadOk at h
  cases ht : l.thread <;> simp only [ht] at h
  case readCmd => exact ⟨hnone h.2, fun hne => absurd h.2 hne⟩
  case checkF => exact ⟨hone h.2, fun _ => h.1⟩
  case loadArg => exact ⟨hone h.2, fun _ => h.1⟩
  case callF => exact ⟨hone h.2.2, fun _ => h.1⟩
  case inCall => exact ⟨hnone h.2, fun _ => h.1⟩
  case storeRet => exact ⟨hnone h.2, fun _ => h.1⟩
  case setState => exact ⟨hnone h.2, fun _ => h.1⟩

theorem LaunchInv.once (h : LaunchInv l) : LaunchedOnce l := by
  obtain ⟨hcaller, hans, hcalled, hres, hserv, hnn, hload⟩ := h
  unfold CallerOk at hcaller
  have hunret : l.unreturned ≤ 1 := by
    unfold Launch.unreturned
    split <;> omega
  have huncol : l.uncollected.length ≤ 1 := by
    unfold Launch.uncollected
    split
    · exact Nat.le_refl 1
    · exact Nat.le_refl 1
    · split <;> simp
  refine ⟨?_, fun hc => ?_, ⟨by omega, by omega⟩, fun hsv => ⟨⟨_, (hres hsv).symm⟩, ?_⟩, ?_, fun hc => ?_, hnn⟩
  · cases hc : l.caller <;> simp only [hc] at hcaller
    case idle => exact hcaller.2.2.called.1
    case storeF => exact ⟨[_], Nat.le_refl 1, hcaller.pending⟩
    case storeArg => exact ⟨[_], Nat.le_refl 1, hcaller.pending⟩
    case writeCmd => exact ⟨[_], Nat.le_refl 1, hcaller.pending⟩
    case readAck =>
      cases hcaller with
      | command _ _ _ _ hp | read _ _ _ _ hp | running _ _ _ _ hp => exact ⟨[_], Nat.le_refl 1, hp⟩
      | acked _ _ ht => exact ht.called.1
  · simp only [hc, Nat.add_zero] at hcaller hans
    exact ⟨hans, hcaller.2.2.called.2⟩
  · rw [hres hsv, List.length_append]
    omega
  · cases hc : l.caller <;> simp only [hc] at hcaller
    case idle => omega
    case storeF => have := hcaller.pipe; have := hcaller.ack; omega
    case storeArg => have := hcaller.pipe; have := hcaller.ack; omega
    case writeCmd => have := hcaller.pipe; have := hcaller.ack; omega
    case readAck => cases hcaller <;> omega
  · simp only [hc] at hcaller
    cases hcaller with
    | command hp => exact .inr fun _ => by omega
    | read _ _ ht | running _ _ ht => exact .inr fun hrd => by simp [ht] at hrd
    | acked _ hs => exact .inl (by omega)

/-- The thread panics on a null function only if one was launched. -/
theorem LaunchInv.null_accepted (h : LaunchInv l) {a : LaunchAct F A}
    (herr : l.act a = .error .nullFunction) : ∃ arg, (none, arg) ∈ l.accepted := by
  cases a with
  | launch f arg => exact absurd herr (by simp [Launch.act])
  | collect => exact absurd herr (by simp [Launch.act])
  | caller io =>
    simp only [Launch.act, Launch.rteEalRemoteLaunch] at herr
    cases hc : l.caller <;> simp only [hc] at herr <;> cases io <;> simp [SysResult.andThen] at herr
  | thread io ret =>
    simp only [Launch.act, Launch.ealThreadLoop] at herr
    cases ht : l.thread <;> simp only [ht] at herr
    case checkF =>
      by_cases hf : l.f.isNone = true
      · obtain ⟨hth, -⟩ := @CallerOk.advance _ _ l l h.caller (by simp [ht]) (by simp [ht]) (by simp [ht]) rfl rfl rfl
        simp only [ThreadOk, ht, Launch.Pending] at hth
        rw [Option.isNone_iff_eq_none.mp hf] at hth
        exact ⟨l.arg, hth.2 ▸ List.mem_cons_self⟩
      · rw [if_neg hf] at herr
        exact absurd herr (by simp)
    all_goals cases io <;> simp [SysResult.andThen] at herr

/-- **Launching on lcores.** In every interleaving, on every lcore, each accepted launch is called exactly
once with its own function and argument and its result is collected once; the program panics on a null
function only if one was launched. -/
theorem launch_once {sys : LaunchSys F A} (h : Reach LaunchSys.Init LaunchStep sys) :
    (∀ i, LaunchedOnce (sys.lcore i)) ∧
      (sys.panic = some .nullFunction → ∃ i arg, (none, arg) ∈ (sys.lcore i).accepted) := by
  refine ⟨fun i => (launchInv_reach h i).once, ?_⟩
  refine Reach.invariant_with (I := fun sys => sys.panic = some .nullFunction →
    ∃ i arg, (none, arg) ∈ (sys.lcore i).accepted) (fun _ => launchInv_reach) ?_ ?_ h
  · rintro sys ⟨hinit, -⟩ hp
    rw [hinit] at hp
    exact absurd hp (by simp)
  · intro sys sys' hinv _ _ hs hp
    cases hs with
    | step hrun => exact absurd (hrun.symm.trans hp) (by simp)
    | @stop i a e _ _ herr =>
      obtain rfl := Option.some.inj hp
      obtain ⟨arg, hmem⟩ := (hinv i).null_accepted herr
      exact ⟨i, arg, hmem⟩

end

/-- Lcores that launch numbers as functions. -/
def idleLcores : LaunchSys Nat Nat := ⟨fun _ => Launch.init 0 0 false, none⟩

/-- A run takes lcore 1 to `l`. -/
def Reaches (l : Launch Nat Nat) : Prop :=
  ∃ sys : LaunchSys Nat Nat, Reach LaunchSys.Init LaunchStep sys ∧ sys.panic = none ∧ sys.lcore 1 = l

theorem Reaches.act {l l' : Launch Nat Nat} (h : Reaches l) (a : LaunchAct Nat Nat) (he : a.Enabled l)
    (hok : l.act a = .ok l') : Reaches l' := by
  obtain ⟨sys, hreach, hrun, rfl⟩ := h
  refine ⟨_, hreach.next (.step hrun he hok), hrun, ?_⟩
  dsimp only
  rw [Function.update_self]

/-- A function is launched, called and returns 7, which is collected. The thread's first read is interrupted. -/
theorem reaches_collected : ∃ l, Reaches l ∧ l.called = [(some 1, 5)] ∧ l.collected = [7] := by
  have h₀ : Reaches (Launch.init 0 0 false) := ⟨idleLcores, .start ⟨rfl, fun _ => ⟨0, 0, false, rfl⟩⟩, rfl, rfl⟩
  have h₁ := h₀.act (.launch (some 1) 5) rfl rfl
  have h₂ := h₁.act (.caller .ok) ⟨nofun, nofun⟩ rfl
  have h₃ := h₂.act (.caller .ok) ⟨nofun, nofun⟩ rfl
  have h₄ := h₃.act (.thread .again 0) nofun rfl
  have h₅ := h₄.act (.caller .ok) ⟨nofun, nofun⟩ rfl
  have h₆ := h₅.act (.thread .ok 0) (fun _ _ => Nat.one_pos) rfl
  have h₇ := h₆.act (.thread .ok 0) nofun rfl
  have h₈ := h₇.act (.thread .ok 0) nofun rfl
  have h₉ := h₈.act (.caller .ok) ⟨nofun, fun _ _ => Nat.one_pos⟩ rfl
  have h₁₀ := h₉.act (.thread .ok 0) nofun rfl
  have h₁₁ := h₁₀.act (.thread .ok 0) nofun rfl
  have h₁₂ := h₁₁.act (.thread .ok 0) nofun rfl
  have h₁₃ := h₁₂.act (.thread .ok 7) nofun rfl
  have h₁₄ := h₁₃.act (.thread .ok 0) nofun rfl
  have h₁₅ := h₁₄.act (.thread .ok 0) nofun rfl
  have h₁₆ := h₁₅.act .collect rfl rfl
  exact ⟨_, h₁₆, rfl, rfl⟩

theorem launch_once_collected : ∃ sys : LaunchSys Nat Nat, Reach LaunchSys.Init LaunchStep sys ∧
    (sys.lcore 1).called = [(some 1, 5)] ∧ (sys.lcore 1).collected = [7] ∧ LaunchedOnce (sys.lcore 1) := by
  obtain ⟨l, ⟨sys, hreach, -, rfl⟩, hcalled, hcollected⟩ := reaches_collected
  exact ⟨sys, hreach, hcalled, hcollected, (launch_once hreach).1 1⟩

end RteDemo
