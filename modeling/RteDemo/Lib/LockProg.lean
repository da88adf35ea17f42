import Mathlib.Data.List.Basic
import RteDemo.Lib.Holders
import RteDemo.Lib.Reach

/-!
# Programs that take locks

`Prog L`: what a function does to the locks of `L`, with a choice wherever the code branches on data.
Threads interleave the steps of their programs; an acquisition waits until the lock can be granted.

**Discipline** (`Prog.Ordered`). A program is ordered when it acquires a lock only above every lock it
holds, in a rank of the locks, and releases only what it holds. Threads with ordered programs never
deadlock (`Sys.Inv.not_deadlocked`): a blocked thread of highest rank waits for a thread that holds that lock,
and so is not blocked lower down nor finished.

**Balance** (`Prog.Ordered.balanced`). The locks held after a program depend only on those held before,
whatever branches are taken, also when the caller holds other locks.
-/

/-- What a program does to the locks. -/
inductive Prog (L : Type*)
  | skip
  | acquire (l : L) (m : Mode)
  | release (l : L)
  | seq (p q : Prog L)
  /-- A branch. -/
  | alt (p q : Prog L)
  /-- Any number of repetitions. -/
  | loop (p : Prog L)
  /-- A branch on a number. -/
  | pick (f : Nat → Prog L)

namespace Prog

variable {L : Type*}

/-- One after the other. -/
def block : List (Prog L) → Prog L
  | [] => skip
  | [p] => p
  | p :: q :: ps => seq p (block (q :: ps))

/-- `p`, or an early exit before it. -/
def opt (p : Prog L) : Prog L := alt skip p

/-! ## Balance -/

section Discipline

variable [DecidableEq L]

/-- The locks held after `p`, for each way through it. -/
inductive Runs : List L → Prog L → List L → Prop
  | skip {H} : Runs H skip H
  | acquire {H l m} : Runs H (acquire l m) (l :: H)
  | release {H l} : Runs H (release l) (H.erase l)
  | seq {H H' H'' p q} : Runs H p H' → Runs H' q H'' → Runs H (seq p q) H''
  | altLeft {H H' p q} : Runs H p H' → Runs H (alt p q) H'
  | altRight {H H' p q} : Runs H q H' → Runs H (alt p q) H'
  | loopDone {H p} : Runs H (loop p) H
  | loopMore {H H' H'' p} : Runs H p H' → Runs H' (loop p) H'' → Runs H (loop p) H''
  | pick {H H' f} (i : Nat) : Runs H (f i) H' → Runs H (pick f) H'

/-- There is a way through every program. -/
theorem exists_runs (p : Prog L) (H : List L) : ∃ X, Runs H p X := by
  induction p generalizing H with
  | skip => exact ⟨H, .skip⟩
  | acquire l m => exact ⟨_, .acquire⟩
  | release l => exact ⟨_, .release⟩
  | seq p q ihp ihq =>
    obtain ⟨X, hX⟩ := ihp H
    obtain ⟨Y, hY⟩ := ihq X
    exact ⟨Y, .seq hX hY⟩
  | alt p q ihp _ =>
    obtain ⟨X, hX⟩ := ihp H
    exact ⟨X, .altLeft hX⟩
  | loop p _ => exact ⟨H, .loopDone⟩
  | pick f ih =>
    obtain ⟨X, hX⟩ := ih 0 H
    exact ⟨X, .pick 0 hX⟩

variable (rank : L → Nat)

/-- `p`, entered with the locks `H`, acquires above what it holds, releases what it holds, and leaves
with `H'`. -/
inductive Ordered : List L → Prog L → List L → Prop
  | skip {H} : Ordered H skip H
  | acquire {H l m} : m ≠ .free → (∀ x ∈ H, rank x < rank l) → Ordered H (acquire l m) (l :: H)
  | release {H l} : l ∈ H → Ordered H (release l) (H.erase l)
  | seq {H H' H'' p q} : Ordered H p H' → Ordered H' q H'' → Ordered H (seq p q) H''
  | alt {H H' p q} : Ordered H p H' → Ordered H q H' → Ordered H (alt p q) H'
  | loop {H p} : Ordered H p H → Ordered H (loop p) H
  | pick {H H' f} : (∀ i, Ordered H (f i) H') → Ordered H (pick f) H'

variable {rank} {H H' K X : List L} {p : Prog L}

/-- **Balance.** Whatever way an ordered program takes, and whatever locks `K` its caller holds
besides, it leaves with the locks the discipline says. -/
theorem Ordered.balanced (h : Ordered rank H p H') : Runs (H ++ K) p X → X = H' ++ K := by
  induction h generalizing X with
  | skip => intro hr; cases hr; rfl
  | acquire _ _ => intro hr; cases hr; rfl
  | release hl =>
    intro hr
    cases hr
    exact List.erase_append_left _ hl
  | seq _ _ ihp ihq =>
    intro hr
    cases hr with
    | seq hp hq =>
      rw [ihp hp] at hq
      exact ihq hq
  | alt _ _ ihp ihq =>
    intro hr
    cases hr with
    | altLeft hp => exact ihp hp
    | altRight hq => exact ihq hq
  | @loop H p _ ih =>
    have hloop : ∀ Y q X, Runs Y q X → q = Prog.loop p → Y = H ++ K → X = H ++ K := by
      intro Y q X hr hq hY
      induction hr with
      | loopDone => exact hY
      | loopMore hp _ _ ihl =>
        cases hq
        subst hY
        exact ihl rfl (ih hp)
      | _ => cases hq
    exact fun hr => hloop _ _ _ hr rfl rfl
  | pick _ ih =>
    intro hr
    cases hr with
    | pick i hp => exact ih i hp

theorem Ordered.release_head {l : L} : Ordered rank (l :: H) (Prog.release l) H := by
  have hrel : Ordered rank (l :: H) _ _ := Ordered.release List.mem_cons_self
  rwa [List.erase_cons_head] at hrel

theorem Ordered.opt (h : Ordered rank H p H) : Ordered rank H (opt p) H := .alt .skip h

/-- A lock held around `p`. -/
theorem Ordered.bracket {l : L} {m : Mode} (hm : m ≠ .free) (hl : ∀ x ∈ H, rank x < rank l)
    (h : Ordered rank (l :: H) p (l :: H)) :
    Ordered rank H (block [Prog.acquire l m, p, Prog.release l]) H := by
  exact .seq (.acquire hm hl) (.seq h .release_head)

end Discipline

end Prog

/-! ## Threads -/

/-- Who holds which lock, and what every thread still has to run. -/
structure Sys (T L : Type*) where
  holders : L → Holders T
  stack : T → List (Prog L)

namespace Sys

variable {T L : Type*}

/-- Moving on inside a thread, past everything but an acquisition or a release. -/
inductive Unfold : List (Prog L) → List (Prog L) → Prop
  | skip {k} : Unfold (.skip :: k) k
  | seq {p q k} : Unfold (.seq p q :: k) (p :: q :: k)
  | altLeft {p q k} : Unfold (.alt p q :: k) (p :: k)
  | altRight {p q k} : Unfold (.alt p q :: k) (q :: k)
  | loopDone {p k} : Unfold (.loop p :: k) k
  | loopMore {p k} : Unfold (.loop p :: k) (p :: .loop p :: k)
  | pick {f k} (i : Nat) : Unfold (.pick f :: k) (f i :: k)

/-- Thread `t` waits for `l`: it is at an acquisition that cannot be granted. -/
def BlockedOn (s : Sys T L) (t : T) (l : L) : Prop :=
  ∃ m k, s.stack t = .acquire l m :: k ∧ ¬ (s.holders l).Grants m

/-- Some thread has not finished, and every such thread waits. -/
def Deadlocked (s : Sys T L) : Prop :=
  (∃ t, s.stack t ≠ []) ∧ ∀ t, s.stack t ≠ [] → ∃ l, s.BlockedOn t l

variable [DecidableEq T] [DecidableEq L]

/-- `t` holds `l` in mode `m` from now on, and goes on with `k`. -/
def hold (s : Sys T L) (t : T) (l : L) (m : Mode) (k : List (Prog L)) : Sys T L where
  holders := Function.update s.holders l (Function.update (s.holders l) t m)
  stack := Function.update s.stack t k

/-- The steps of the threads. -/
inductive Step : Sys T L → Sys T L → Prop
  | unfold {s : Sys T L} {t : T} {k} : Unfold (s.stack t) k →
      Step s { s with stack := Function.update s.stack t k }
  | acquire {s : Sys T L} {t : T} {l m k} : s.stack t = .acquire l m :: k →
      (s.holders l).Grants m → Step s (s.hold t l m k)
  | release {s : Sys T L} {t : T} {l k} : s.stack t = .release l :: k →
      Step s (s.hold t l .free k)

/-- Nobody holds a lock, and thread `t` is about to run `progs t`. -/
def Start (progs : T → List (Prog L)) (s : Sys T L) : Prop :=
  (∀ l t, s.holders l t = .free) ∧ s.stack = progs

theorem hold_holders (s : Sys T L) (t : T) (l : L) (m : Mode) (k : List (Prog L)) (l' : L) (u : T) :
    (s.hold t l m k).holders l' u = if l' = l ∧ u = t then m else s.holders l' u := by
  by_cases hl : l' = l
  · subst hl
    change Function.update s.holders l' _ l' u = _
    rw [Function.update_self, Function.update_apply]
    simp only [true_and]
  · change Function.update s.holders l _ l' u = _
    rw [Function.update_of_ne hl, if_neg fun h => hl h.1]

theorem hold_stack (s : Sys T L) (t u : T) (l : L) (m : Mode) (k : List (Prog L)) :
    (s.hold t l m k).stack u = if u = t then k else s.stack u := Function.update_apply ..

/-! ## The invariant -/

section Invariant

variable (rank : L → Nat)

/-- What is left to run is ordered from `H` on, and ends with nothing held. -/
inductive Stacked : List L → List (Prog L) → Prop
  | nil : Stacked [] []
  | cons {H H' p k} : Prog.Ordered rank H p H' → Stacked H' k → Stacked H (p :: k)

/-- Every lock has one writer or only readers, and every thread holds the locks that its remaining
program expects. -/
structure Inv (s : Sys T L) : Prop where
  exclusive : ∀ l, (s.holders l).Exclusive
  held : ∀ t, ∃ H : List L, H.Nodup ∧ Stacked rank H (s.stack t) ∧
    ∀ l, s.holders l t ≠ .free ↔ l ∈ H

variable {rank} {s s' : Sys T L} {H : List L} {k k' : List (Prog L)}

omit [DecidableEq T] in
theorem Stacked.unfold (h : Stacked rank H k) (hk : Unfold k k') : Stacked rank H k' := by
  cases hk with
  | skip =>
    cases h with
    | cons hp hk => cases hp; exact hk
  | seq =>
    cases h with
    | cons hp hk => cases hp with | seq hp hq => exact .cons hp (.cons hq hk)
  | altLeft =>
    cases h with
    | cons hp hk => cases hp with | alt hp hq => exact .cons hp hk
  | altRight =>
    cases h with
    | cons hp hk => cases hp with | alt hp hq => exact .cons hq hk
  | loopDone =>
    cases h with
    | cons hp hk => cases hp; exact hk
  | loopMore =>
    cases h with
    | cons hp hk => cases hp with | loop hp => exact .cons hp (.cons (.loop hp) hk)
  | pick i =>
    cases h with
    | cons hp hk => cases hp with | pick hp => exact .cons (hp i) hk

/-- A change of the mode in which `t` holds `l`. -/
theorem Inv.hold {t : T} {l : L} {m : Mode} (hi : Inv rank s) (hm : (s.holders l).Grants m)
    (ht : ∃ H : List L, H.Nodup ∧ Stacked rank H k ∧
      ∀ l', (s.hold t l m k).holders l' t ≠ .free ↔ l' ∈ H) : Inv rank (s.hold t l m k) where
  exclusive l' := by
    by_cases hl : l' = l
    · subst hl
      change (Function.update s.holders l' _ l').Exclusive
      rw [Function.update_self]
      exact (hi.exclusive l').update hm
    · change (Function.update s.holders l _ l').Exclusive
      rw [Function.update_of_ne hl]
      exact hi.exclusive l'
  held u := by
    by_cases hut : u = t
    · subst hut
      rw [hold_stack, if_pos rfl]
      exact ht
    · obtain ⟨H, hnd, hst, hiff⟩ := hi.held u
      refine ⟨H, hnd, ?_, fun l' => ?_⟩
      · rw [hold_stack, if_neg hut]
        exact hst
      · rw [hold_holders, if_neg fun h => hut h.2]
        exact hiff l'

theorem Inv.step (hi : Inv rank s) (h : Step s s') : Inv rank s' := by
  cases h with
  | @unfold t k hk =>
    refine ⟨hi.exclusive, fun u => ?_⟩
    obtain ⟨H, hnd, hst, hiff⟩ := hi.held u
    refine ⟨H, hnd, ?_, hiff⟩
    change Stacked rank H (Function.update s.stack t k u)
    rw [Function.update_apply]
    split
    · rename_i hut
      subst hut
      exact hst.unfold hk
    · exact hst
  | @acquire t l m k hk hm =>
    refine hi.hold hm ?_
    obtain ⟨H, hnd, hst, hiff⟩ := hi.held t
    rw [hk] at hst
    cases hst with
    | cons hp hst =>
      cases hp with
      | acquire hfree hrank =>
        have hl : l ∉ H := fun hl => Nat.lt_irrefl _ (hrank l hl)
        refine ⟨l :: H, List.nodup_cons.mpr ⟨hl, hnd⟩, hst, fun l' => ?_⟩
        rw [hold_holders]
        by_cases hl' : l' = l
        · simp [hl', hfree]
        · simp [hl', hiff l']
  | @release t l k hk =>
    refine hi.hold trivial ?_
    obtain ⟨H, hnd, hst, hiff⟩ := hi.held t
    rw [hk] at hst
    cases hst with
    | cons hp hst =>
      cases hp with
      | release hl =>
        refine ⟨H.erase l, hnd.erase l, hst, fun l' => ?_⟩
        rw [hold_holders, hnd.mem_erase_iff]
        by_cases hl' : l' = l
        · simp [hl']
        · simp [hl', hiff l']

omit [DecidableEq T] in
theorem inv_start {progs : T → List (Prog L)} (hp : ∀ t, Stacked rank [] (progs t))
    (h : Start progs s) : Inv rank s where
  exclusive l := by
    have hfree : s.holders l = fun _ => .free := funext (h.1 l)
    rw [hfree]
    exact Holders.exclusive_free
  held t := ⟨[], List.nodup_nil, h.2 ▸ hp t, fun l => by simp [h.1 l t]⟩

theorem inv_reach {progs : T → List (Prog L)} (hp : ∀ t, Stacked rank [] (progs t))
    (h : Reach (Start progs) Step s) : Inv rank s :=
  h.invariant (fun _ hs => inv_start hp hs) fun _ _ hi hs => hi.step hs

omit [DecidableEq T] in
/-- A lock that a thread waits for is held by one that has not finished. -/
theorem Inv.holder (hi : Inv rank s) {t : T} {l : L} (h : s.BlockedOn t l) :
    ∃ u H, l ∈ H ∧ Stacked rank H (s.stack u) := by
  obtain ⟨m, k, -, hm⟩ := h
  have hex : ∃ u, s.holders l u ≠ .free := by
    by_contra hall
    push Not at hall
    cases m with
    | free => exact hm trivial
    | read => exact hm fun u => by rw [hall u]; decide
    | write => exact hm hall
  obtain ⟨u, hu⟩ := hex
  obtain ⟨H, -, hst, hiff⟩ := hi.held u
  exact ⟨u, H, (hiff l).mp hu, hst⟩

omit [DecidableEq T] in
/-- **No deadlock.** If the ranks are bounded, ordered programs never reach a state in which every
unfinished thread waits: each would wait for one that waits further up. -/
theorem Inv.not_deadlocked (hi : Inv rank s) {N : Nat} (hN : ∀ l, rank l < N) :
    ¬ s.Deadlocked := by
  rintro ⟨⟨t, ht⟩, hall⟩
  have hup : ∀ n, ∃ u l, s.BlockedOn u l ∧ n ≤ rank l := by
    intro n
    induction n with
    | zero =>
      obtain ⟨l, hl⟩ := hall t ht
      exact ⟨t, l, hl, Nat.zero_le _⟩
    | succ n ih =>
      obtain ⟨u, l, hbl, hn⟩ := ih
      obtain ⟨v, H, hl, hst⟩ := hi.holder hbl
      have hv : s.stack v ≠ [] := by
        intro hnil
        rw [hnil] at hst
        cases hst
        cases hl
      obtain ⟨l', m, k, hk, hm⟩ := hall v hv
      rw [hk] at hst
      cases hst with
      | cons hp _ =>
        cases hp with
        | acquire _ hrank => exact ⟨v, l', ⟨m, k, hk, hm⟩, Nat.lt_of_le_of_lt hn (hrank l hl)⟩
  obtain ⟨u, l, -, hle⟩ := hup N
  exact absurd (hN l) (Nat.not_lt.mpr hle)

end Invariant

end Sys
