import RteDemo.Ring.Mpmc

/-!
# What the calls report: `*free_space` and `*available`

A call writes the room that it found less the objects that it moved. The room is the difference between
what the opposite tail allows and the head that was loaded before, in 32 bits, and only a successful
compare-and-set vouches for that head. A call that returns early publishes the difference as it is: with a
head that is out of date it may be more than the ring holds (`not_room_le`).

The machine is that of `Ring.Mpmc`, with the comparisons and differences on 32-bit words and with the
values written. While early returns and successful compare-and-sets meet the head that they loaded, all
values written are at most the capacity (`room_le_capacity`).
-/

namespace Ring

/-- The ring and its threads, what each thread holds in `free_entries` or `entries`, and the values
written to `*free_space` and `*available`, in order. -/
structure RoomSt (α τ : Type) where
  ring : Mpmc α τ
  entries : τ → Nat
  written : List Nat

/-- What a step is: an early return, a compare-and-set that succeeds, or another step. -/
inductive RoomEvent (τ : Type)
  | early (t : τ)
  | swap (t : τ)
  | other (t : τ)

section

variable {α τ : Type} (g : Geometry)

/-- `free_entries` or `entries`: the difference of the two words. -/
def entriesWord (st : Mpmc α τ) (side : Side) (oldHead : Nat) : Nat :=
  Word.sub 32 (limit g st side % 2 ^ 32) (oldHead % 2 ^ 32)

/-- The objects that a call moves with the room that it found. -/
def moves (st : Mpmc α τ) (side : Side) (req : Request α) (oldHead : Nat) : Nat :=
  clip req.behavior req.n (entriesWord g st side oldHead)

variable [DecidableEq τ]

def RoomSt.setPc (s : RoomSt α τ) (t : τ) (pc : Pc α) : RoomSt α τ :=
  { s with ring := s.ring.setPc t pc }

/-- One step of one thread, on the words of the indices. A compare-and-set that succeeds sets the head to
the word of the present head plus `n`. -/
inductive RoomStep : RoomEvent τ → RoomSt α τ → RoomSt α τ → Prop
  | call (t : τ) (side : Side) (req : Request α) {s} : s.ring.pc t = .idle →
      RoomStep (.other t) s (s.setPc t (.load side req))
  | load (t : τ) {s side req} : s.ring.pc t = .load side req →
      RoomStep (.other t) s (s.setPc t (.read side req (s.ring.ht side).head))
  /-- `n == 0`: the value of `free_entries` is written, and the call returns `0`. -/
  | full (t : τ) {s side req oldHead} : s.ring.pc t = .read side req oldHead →
      moves g s.ring side req oldHead = 0 →
      RoomStep (.early t) s { s.setPc t .idle with
        written := s.written ++ [Word.sub 32 (entriesWord g s.ring side oldHead) 0] }
  | read (t : τ) {s side req oldHead} : s.ring.pc t = .read side req oldHead →
      moves g s.ring side req oldHead ≠ 0 →
      RoomStep (.other t) s { s.setPc t (.cas side req oldHead (moves g s.ring side req oldHead)) with
        entries := Function.update s.entries t (entriesWord g s.ring side oldHead) }
  | casFail (t : τ) {s side req oldHead n} : s.ring.pc t = .cas side req oldHead n →
      (s.ring.ht side).head % 2 ^ 32 ≠ oldHead % 2 ^ 32 →
      RoomStep (.other t) s (s.setPc t (.load side req))
  | cas (t : τ) {s side req oldHead n} : s.ring.pc t = .cas side req oldHead n →
      (s.ring.ht side).head % 2 ^ 32 = oldHead % 2 ^ 32 →
      RoomStep (.swap t) s { s with ring := s.ring.claim t side req (s.ring.ht side).head n }
  | put (t : τ) {s req oldHead n i got passed} :
      s.ring.pc t = .claimed .prod req oldHead n i got passed → i < n →
      RoomStep (.other t) s { s with
        ring := { s.ring.setPc t (.claimed .prod req oldHead n (i + 1) got passed) with
          slots := Function.update s.ring.slots (slotIdx g oldHead n i) (req.objTable i) } }
  | get (t : τ) {s req oldHead n i got passed} :
      s.ring.pc t = .claimed .cons req oldHead n i got passed → i < n →
      RoomStep (.other t) s (s.setPc t (.claimed .cons req oldHead n (i + 1)
        (got ++ [s.ring.slots (slotIdx g oldHead n i)]) passed))
  | wait (t : τ) {s side req oldHead n got} :
      s.ring.pc t = .claimed side req oldHead n n got false →
      (s.ring.ht side).tail % 2 ^ 32 ≠ oldHead % 2 ^ 32 → RoomStep (.other t) s s
  | test (t : τ) {s side req oldHead n got} :
      s.ring.pc t = .claimed side req oldHead n n got false →
      (s.ring.ht side).tail % 2 ^ 32 = oldHead % 2 ^ 32 →
      RoomStep (.other t) s (s.setPc t (.claimed side req oldHead n n got true))
  /-- The tail is stored, what is left of the room is written, and the call returns. -/
  | store (t : τ) {s side req oldHead n got} : s.ring.pc t = .claimed side req oldHead n n got true →
      RoomStep (.other t) s { s with
        ring := s.ring.publish t side oldHead n got
        written := s.written ++ [Word.sub 32 (s.entries t) n] }

end

/-- The head that a thread has loaded. -/
def loadedHead {α : Type} : Pc α → Option (Side × Nat)
  | .read side _ oldHead => some (side, oldHead)
  | .cas side _ oldHead _ => some (side, oldHead)
  | _ => none

/-- An early return and a compare-and-set that succeeds find the head that they loaded, as a number and
not only modulo `2 ^ 32`. -/
def Timely {α τ : Type} (s : RoomSt α τ) : RoomEvent τ → Prop
  | .early t => ∀ p, loadedHead (s.ring.pc t) = some p → (s.ring.ht p.1).head = p.2
  | .swap t => ∀ p, loadedHead (s.ring.pc t) = some p → (s.ring.ht p.1).head = p.2
  | .other _ => True

/-- An empty ring on which nothing has been called. -/
def RoomStart {α τ : Type} (s : RoomSt α τ) : Prop := Start s.ring ∧ s.written = []

/-! ## The invariant -/

section

variable {α τ : Type} {g : Geometry} {s s' : RoomSt α τ}

/-- What a thread holds in `entries`: it is no more than the capacity if the head is still the one that
was loaded. -/
def EntriesOk (g : Geometry) (st : Mpmc α τ) (e : Nat) : Pc α → Prop
  | .cas side _ oldHead n =>
    oldHead ≤ (st.ht side).head ∧ ((st.ht side).head = oldHead → n ≤ e ∧ e ≤ g.capacity)
  | .claimed _ _ _ n _ _ _ => n ≤ e ∧ e ≤ g.capacity
  | _ => True

/-- What holds in a run of timely steps. -/
structure RoomInv (g : Geometry) (s : RoomSt α τ) : Prop where
  ring : Inv g s.ring
  entries : ∀ t, EntriesOk g s.ring (s.entries t) (s.ring.pc t)
  written : ∀ v ∈ s.written, v ≤ g.capacity

theorem RoomInv.start (h : RoomStart s) : RoomInv g s where
  ring := inv_start h.1
  entries t := by
    rw [h.1.2.1 t]
    trivial
  written v hv := by
    rw [h.2] at hv
    exact nomatch hv

/-- The head does not pass the limit, and lies no further below it than the capacity. -/
theorem Inv.limit_bounds {st : Mpmc α τ} (h : Inv g st) (side : Side) :
    (st.ht side).head ≤ limit g st side ∧ limit g st side ≤ (st.ht side).head + g.capacity := by
  have h1 := h.cons_le
  have h2 := h.mid_le
  have h3 := h.prod_le
  have h4 := h.cap_le
  cases side with
  | prod =>
    simp only [limit]
    omega
  | cons =>
    simp only [limit]
    omega

/-- The word is the difference, modulo `2 ^ 32`. -/
theorem entriesWord_eq {st : Mpmc α τ} {side : Side} {old : Nat} (hle : old ≤ limit g st side) :
    entriesWord g st side old = (limit g st side - old) % 2 ^ 32 := by
  unfold entriesWord Word.sub
  omega

/-- With the head that was loaded the difference is what the ring has. -/
theorem entriesWord_le {st : Mpmc α τ} (h : Inv g st) (side : Side) :
    entriesWord g st side (st.ht side).head ≤ g.capacity := by
  obtain ⟨hlow, hhigh⟩ := h.limit_bounds side
  have hmod := Nat.mod_le (limit g st side - (st.ht side).head) (2 ^ 32)
  rw [entriesWord_eq hlow]
  omega

/-- Heads that only grow keep what a thread holds. -/
theorem EntriesOk.mono {st st' : Mpmc α τ} {e : Nat} {pc : Pc α} (h : EntriesOk g st e pc)
    (hhead : ∀ side, (st.ht side).head ≤ (st'.ht side).head) : EntriesOk g st' e pc := by
  cases pc with
  | cas side req old n =>
    obtain ⟨hle, hfresh⟩ := h
    have hgrow := hhead side
    exact ⟨hle.trans hgrow, fun heq => hfresh (by omega)⟩
  | claimed => exact h
  | idle => trivial
  | load => trivial
  | read => trivial

theorem written_append {v : Nat} (h : RoomInv g s) (hv : v ≤ g.capacity) :
    ∀ x ∈ s.written ++ [v], x ≤ g.capacity := by
  intro x hx
  rcases List.mem_append.mp hx with hold | hnew
  · exact h.written x hold
  · rw [List.mem_singleton.mp hnew]
    exact hv

/-- A claim and the tail it waits for are less than a full turn of the words apart. -/
theorem tail_eq_of_word {st : Mpmc α τ} (h : Inv g st) (hsize : g.capacity < 2 ^ 32) {t : τ} {side : Side}
    {req : Request α} {a n i : Nat} {got : List α} {passed : Bool}
    (hpc : st.pc t = .claimed side req a n i got passed)
    (hword : (st.ht side).tail % 2 ^ 32 = a % 2 ^ 32) : (st.ht side).tail = a := by
  obtain ⟨hn, -, htail, hhead, -, -, -⟩ := h.bounds hpc
  have hclose : (st.ht side).head ≤ (st.ht side).tail + g.capacity := by
    have h1 := h.cons_le
    have h2 := h.mid_le
    have h3 := h.prod_le
    have h4 := h.cap_le
    cases side with
    | prod => omega
    | cons => omega
  omega

variable [DecidableEq τ]

/-- The threads that do not move keep what they hold; `e` and `pc` are what the one that moves has. -/
theorem RoomInv.entries_of {t : τ} {st' : Mpmc α τ} {e : Nat} {pc : Pc α} (h : RoomInv g s)
    (hpc : st'.pc = Function.update s.ring.pc t pc)
    (hhead : ∀ side, (s.ring.ht side).head ≤ (st'.ht side).head) (hok : EntriesOk g st' e pc) (u : τ) :
    EntriesOk g st' (Function.update s.entries t e u) (st'.pc u) := by
  rw [hpc]
  by_cases hu : u = t
  · rw [hu, Function.update_self, Function.update_self]
    exact hok
  · rw [Function.update_of_ne hu, Function.update_of_ne hu]
    exact (h.entries u).mono hhead

/-- A step that does not change what a thread holds. -/
theorem RoomInv.keep {t : τ} {st' : Mpmc α τ} {pc : Pc α} (h : RoomInv g s)
    (hpc : st'.pc = Function.update s.ring.pc t pc)
    (hhead : ∀ side, (s.ring.ht side).head ≤ (st'.ht side).head)
    (hok : EntriesOk g st' (s.entries t) pc) (u : τ) : EntriesOk g st' (s.entries u) (st'.pc u) := by
  have hsame := h.entries_of hpc hhead hok u
  rwa [Function.update_eq_self] at hsame

theorem RoomInv.step (h : RoomInv g s) (hg : g.Accepted) (hsize : g.size < 2 ^ 32) {ev : RoomEvent τ}
    (hstep : RoomStep g ev s s') (htimely : Timely s ev) : RoomInv g s' := by
  have hcap : g.capacity < 2 ^ 32 := hg.capacity.2.trans hsize
  cases hstep with
  | call t side req hpc =>
    exact ⟨h.ring.step hg (.call hpc), h.keep rfl (fun _ => Nat.le_refl _) trivial, h.written⟩
  | load t hpc => exact ⟨h.ring.step hg (.load hpc), h.keep rfl (fun _ => Nat.le_refl _) trivial, h.written⟩
  | @full t _ side req old hpc hzero =>
    have hfresh : (s.ring.ht side).head = old := htimely (side, old) (by rw [hpc]; rfl)
    have hle := entriesWord_le h.ring side
    rw [hfresh] at hle
    have hring : Inv g (s.ring.setPc t .idle) := h.ring.setPc trivial fun _ _ _ hown =>
      absurd hown (not_owns (setPc_self s.ring t .idle) fun _ _ _ _ _ _ _ he => nomatch he)
    refine ⟨hring, h.keep rfl (fun _ => Nat.le_refl _) trivial, written_append h ?_⟩
    rw [Word.sub_eq (Nat.zero_le _) (hle.trans_lt hcap)]
    exact hle
  | @read t _ side req old hpc hmoves =>
    have hok := h.ring.threads t
    rw [hpc] at hok
    have hold : old ≤ (s.ring.ht side).head := hok
    have hlimit := (h.ring.limit_bounds side).1
    have hclip : moves g s.ring side req old ≤ entriesWord g s.ring side old := clip_le _ _ _
    -- the word may have lost multiples of `2 ^ 32`, but is never too large for the limit
    have hword : entriesWord g s.ring side old ≤ limit g s.ring side - old := by
      rw [entriesWord_eq (hold.trans hlimit)]
      exact Nat.mod_le _ _
    have hring : Inv g (s.ring.setPc t (.cas side req old (moves g s.ring side req old))) := by
      refine h.ring.setPc ⟨Nat.pos_of_ne_zero hmoves, ?_⟩ fun _ _ _ hown =>
        absurd hown (not_owns (setPc_self s.ring t (.cas side req old _)) fun _ _ _ _ _ _ _ he => nomatch he)
      omega
    refine ⟨hring, h.entries_of rfl (fun _ => Nat.le_refl _) ⟨hold, fun heq => ⟨hclip, ?_⟩⟩, h.written⟩
    have hle := entriesWord_le h.ring side
    have heq' : (s.ring.ht side).head = old := heq
    rwa [heq'] at hle
  | @casFail t _ side req old n hpc hne =>
    have hne' : (s.ring.ht side).head ≠ old := fun he => hne (by rw [he])
    exact ⟨h.ring.step hg (.casFail hpc hne'), h.keep rfl (fun _ => Nat.le_refl _) trivial, h.written⟩
  | @cas t _ side req old n hpc _ =>
    have hfresh : (s.ring.ht side).head = old := htimely (side, old) (by rw [hpc]; rfl)
    have hent := h.entries t
    rw [hpc] at hent
    have hring := h.ring.claim hpc hfresh
    rw [← hfresh] at hring
    refine ⟨hring, h.keep rfl (fun side' => ?_) (hent.2 hfresh), h.written⟩
    by_cases hs : side' = side
    · rw [hs]
      dsimp only [Mpmc.claim]
      rw [Function.update_self]
      exact Nat.le_add_right _ _
    · dsimp only [Mpmc.claim]
      rw [Function.update_of_ne hs]
  | @put t _ req old n i got passed hpc hi =>
    have hent := h.entries t
    rw [hpc] at hent
    exact ⟨h.ring.put hg hpc hi, h.keep rfl (fun _ => Nat.le_refl _) hent, h.written⟩
  | @get t _ req old n i got passed hpc hi =>
    have hent := h.entries t
    rw [hpc] at hent
    exact ⟨h.ring.get hg hpc hi, h.keep rfl (fun _ => Nat.le_refl _) hent, h.written⟩
  | wait => exact h
  | @test t _ side req old n got hpc hword =>
    have hent := h.entries t
    rw [hpc] at hent
    have htail := tail_eq_of_word h.ring hcap hpc hword
    exact ⟨h.ring.step hg (.test hpc htail), h.keep rfl (fun _ => Nat.le_refl _) hent, h.written⟩
  | @store t _ side req old n got hpc =>
    have hent := h.entries t
    rw [hpc] at hent
    obtain ⟨hn, he⟩ := hent
    refine ⟨h.ring.publish hpc, h.keep rfl (fun side' => ?_) trivial, written_append h ?_⟩
    · by_cases hs : side' = side
      · rw [hs]
        dsimp only [Mpmc.publish]
        rw [Function.update_self]
      · dsimp only [Mpmc.publish]
        rw [Function.update_of_ne hs]
    · rw [Word.sub_eq hn (he.trans_lt hcap)]
      omega

/-- A run of the ring -/
def RoomRun (g : Geometry) (s : RoomSt α τ) : Prop :=
  Reach RoomStart (fun s s' => ∃ ev, RoomStep g ev s s') s

/-- A run whose early returns and successful compare-and-sets find the head that they loaded. -/
def TimelyRun (g : Geometry) (s : RoomSt α τ) : Prop :=
  Reach RoomStart (fun s s' => ∃ ev, RoomStep g ev s s' ∧ Timely s ev) s

/-- **The room reported** is at most the capacity in every run of timely steps. -/
theorem room_le_capacity (hg : g.Accepted) (hsize : g.size < 2 ^ 32) (h : TimelyRun g s) :
    ∀ v ∈ s.written, v ≤ g.capacity :=
  (h.invariant (fun _ hx => RoomInv.start hx) fun _ _ hx ⟨_, hstep, htimely⟩ =>
    hx.step hg hsize hstep htimely).written

theorem TimelyRun.next {ev : RoomEvent τ} (h : TimelyRun g s) (hstep : RoomStep g ev s s')
    (htimely : Timely s ev) : TimelyRun g s' := Reach.next h ⟨ev, hstep, htimely⟩

theorem RoomRun.next {ev : RoomEvent τ} (h : RoomRun g s) (hstep : RoomStep g ev s s') : RoomRun g s' :=
  Reach.next h ⟨ev, hstep⟩

end

/-- An empty ring of four slots, and three threads. -/
def fourRoom : RoomSt Nat (Fin 3) := ⟨fourSlots, fun _ => 0, []⟩

theorem fourRoom_start : RoomStart fourRoom :=
  ⟨⟨fun _ => rfl, fun _ => rfl, rfl, fun _ _ => rfl, rfl⟩, rfl⟩

/-- One object more than fits is refused, and the room is that of an empty ring. -/
theorem room_le_capacity_refused :
    ∃ s : RoomSt Nat (Fin 3), s.written = [3] ∧ ∀ v ∈ s.written, v ≤ 3 := by
  have hg : Geometry.Accepted ⟨4, 3, 3⟩ := ⟨⟨2, rfl⟩, rfl, by decide⟩
  have hstart : TimelyRun ⟨4, 3, 3⟩ fourRoom := .start fourRoom_start
  have hcall := hstart.next (.call 0 .prod ⟨fun _ => 7, 4, .fixed⟩ rfl) trivial
  have hload := hcall.next (.load 0 rfl) trivial
  have hfull := hload.next (.full 0 rfl (by decide)) fun p hp => by
    cases hp
    rfl
  exact ⟨_, by decide, room_le_capacity hg (by decide) hfull⟩

/-- A thread loads the head of an empty ring; an object is enqueued and dequeued; the thread finds room
for four objects in a ring that holds three. -/
theorem not_room_le :
    ¬∀ s : RoomSt Nat (Fin 3), RoomRun ⟨4, 3, 3⟩ s → ∀ v ∈ s.written, v ≤ 3 := by
  intro hall
  have hstart : RoomRun ⟨4, 3, 3⟩ fourRoom := .start fourRoom_start
  have hstale := (hstart.next (.call 0 .prod ⟨fun _ => 7, 5, .fixed⟩ rfl)).next (.load 0 rfl)
  have henq := ((((hstale.next (.call 1 .prod ⟨fun _ => 8, 1, .fixed⟩ rfl)).next (.load 1 rfl)).next
    (.read 1 rfl (by decide))).next (.cas 1 rfl rfl)).next (.put 1 rfl (by decide))
  have hput := (henq.next (.test 1 rfl rfl)).next (.store 1 rfl)
  have hdeq := ((((hput.next (.call 2 .cons ⟨fun _ => 0, 1, .fixed⟩ rfl)).next (.load 2 rfl)).next
    (.read 2 rfl (by decide))).next (.cas 2 rfl rfl)).next (.get 2 rfl (by decide))
  have hget := (hdeq.next (.test 2 rfl rfl)).next (.store 2 rfl)
  have hfull := hget.next (.full 0 rfl (by decide))
  exact absurd (hall _ hfull 4 (by decide)) (by decide)

end Ring
