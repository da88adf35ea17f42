import RteDemo.Ring.Fifo

/-!
# The copy macros are modular indexing

`ptrsMoves` lists the moves of `ENQUEUE_PTRS` and `DEQUEUE_PTRS` in the order of the source, each with
its index into the table and its index into the ring: four at a time and the rest by the `switch` where
everything is in front of the array's end, else up to the end and on from its start. Both macros do
these moves, one from the table into the ring and one back (`enqueuePtrs_eq_moves`,
`dequeuePtrs_eq_moves`), and on either path move `i` is between entry `i` and slot `head + i` modulo the
size (`ptrsMoves_eq`).
-/

namespace Ring

variable {α : Type}

/-! ## The moves -/

/-- `n` moves in a row, from `i` and `idx` on. -/
def runMoves (i idx : Nat) : Nat → List (Nat × Nat)
  | 0 => []
  | n + 1 => (i, idx) :: runMoves (i + 1) (idx + 1) n

/-- The unrolled loop: four moves a round, `k` rounds. -/
def runMoves4 (i idx : Nat) : Nat → List (Nat × Nat)
  | 0 => []
  | k + 1 =>
    (i, idx) :: (i + 1, idx + 1) :: (i + 2, idx + 2) :: (i + 3, idx + 3) ::
      runMoves4 (i + 4) (idx + 4) k

/-- The `switch` behind the unrolled loop, whose cases fall through. -/
def restMoves (i idx : Nat) : Nat → List (Nat × Nat)
  | 3 => [(i, idx), (i + 1, idx + 1), (i + 2, idx + 2)]
  | 2 => [(i, idx), (i + 1, idx + 1)]
  | 1 => [(i, idx)]
  | _ => []

/-- The moves of `ENQUEUE_PTRS` and `DEQUEUE_PTRS`: table index and ring index. -/
def ptrsMoves (size mask head n : Nat) : List (Nat × Nat) :=
  let idx := head &&& mask
  if Word.add 32 idx n < size then
    let k := n &&& Word.not 32 3
    runMoves4 0 idx (k / 4) ++ restMoves k (idx + k) (n &&& 3)
  else
    let i := size - idx
    runMoves 0 idx i ++ runMoves i 0 (n - i)

/-- The moves, done from `src` into `dst`. -/
def doMoves (src dst : Nat → α) (moves : List (Nat × Nat)) : Nat → α :=
  moves.foldl (fun dst m => Function.update dst m.2 (src m.1)) dst

theorem doMoves_append (src dst : Nat → α) (l l' : List (Nat × Nat)) :
    doMoves src dst (l ++ l') = doMoves src (doMoves src dst l) l' := List.foldl_append

theorem doMoves_run (src : Nat → α) (n : Nat) : ∀ (dst : Nat → α) (s d : Nat),
    doMoves src dst (runMoves s d n) = copy src dst s d n := by
  induction n with
  | zero => exact fun _ _ _ => rfl
  | succ n ih => exact fun dst s d => ih (Function.update dst d (src s)) (s + 1) (d + 1)

/-- The unrolled loop does the moves of the plain one. -/
theorem runMoves4_eq (k : Nat) : ∀ i idx, runMoves4 i idx k = runMoves i idx (4 * k) := by
  induction k with
  | zero => exact fun _ _ => rfl
  | succ k ih =>
    intro i idx
    rw [runMoves4, ih, show 4 * (k + 1) = 4 * k + 1 + 1 + 1 + 1 by omega]
    rfl

theorem restMoves_eq (i idx : Nat) {n : Nat} (hn : n < 4) : restMoves i idx n = runMoves i idx n := by
  match n with
  | 0 => rfl
  | 1 => rfl
  | 2 => rfl
  | 3 => rfl

theorem runMoves_eq (n : Nat) : ∀ i idx, runMoves i idx n = (List.range n).map fun j => (i + j, idx + j) := by
  induction n with
  | zero => exact fun _ _ => rfl
  | succ n ih =>
    intro i idx
    have hshift : ∀ a j : Nat, a + 1 + j = a + (j + 1) := fun a j => by omega
    rw [runMoves, ih, List.range_succ_eq_map, List.map_cons, List.map_map]
    simp only [hshift]
    rfl

theorem runMoves_append (i idx m n : Nat) :
    runMoves i idx m ++ runMoves (i + m) (idx + m) n = runMoves i idx (m + n) := by
  rw [runMoves_eq, runMoves_eq, runMoves_eq, List.range_add, List.map_append, List.map_map]
  simp only [Nat.add_assoc]
  rfl

/-- The unrolled loop and the `switch` do `n` moves. -/
theorem runMoves_unrolled (idx : Nat) {n : Nat} (hn : n < 2 ^ 32) :
    runMoves4 0 idx ((n &&& Word.not 32 3) / 4) ++
      restMoves (n &&& Word.not 32 3) (idx + (n &&& Word.not 32 3)) (n &&& 3) = runMoves 0 idx n := by
  have hk : n &&& Word.not 32 3 = 4 * (n / 4) := by
    rw [show (3 : Nat) = 2 ^ 2 - 1 from rfl, Word.land_not_mask hn (by decide), Nat.mul_comm]
    rfl
  have hm : n &&& 3 = n % 4 := Word.land_mask (k := 2)
  have happ := runMoves_append 0 idx (4 * (n / 4)) (n % 4)
  rw [Nat.zero_add, Nat.div_add_mod] at happ
  rw [hk, hm, Nat.mul_div_cancel_left _ (by decide), restMoves_eq _ _ (Nat.mod_lt _ (by decide)),
    runMoves4_eq, happ]

/-! ## The macros do the moves -/

/-- The move the other way. -/
def swapMoves (moves : List (Nat × Nat)) : List (Nat × Nat) := moves.map Prod.swap

theorem swapMoves_run (n : Nat) : ∀ i idx, swapMoves (runMoves i idx n) = runMoves idx i n := by
  induction n with
  | zero => exact fun _ _ => rfl
  | succ n ih => exact fun i idx => congrArg ((idx, i) :: ·) (ih (i + 1) (idx + 1))

variable {r : RteRing α} {head n : Nat}

theorem enqueuePtrs_eq_moves (hn : n < 2 ^ 32) (tbl : Nat → α) :
    enqueuePtrs r head tbl n = doMoves tbl r.slots (ptrsMoves r.size r.mask head n) := by
  simp only [enqueuePtrs, ptrsMoves]
  split_ifs
  · have hcopy := copy_unrolled tbl r.slots 0 (head &&& r.mask) hn
    rw [Nat.zero_add] at hcopy
    rw [hcopy, runMoves_unrolled _ hn, doMoves_run]
  · rw [doMoves_append, doMoves_run, doMoves_run]

theorem dequeuePtrs_eq_moves (hn : n < 2 ^ 32) (tbl : Nat → α) :
    dequeuePtrs r head tbl n = doMoves r.slots tbl (swapMoves (ptrsMoves r.size r.mask head n)) := by
  simp only [dequeuePtrs, ptrsMoves]
  split_ifs
  · have hcopy := copy_unrolled r.slots tbl (head &&& r.mask) 0 hn
    rw [Nat.zero_add] at hcopy
    rw [hcopy, runMoves_unrolled _ hn, swapMoves_run, doMoves_run]
  · rw [swapMoves, List.map_append, doMoves_append]
    change _ = doMoves r.slots (doMoves r.slots tbl (swapMoves _)) (swapMoves _)
    rw [swapMoves_run, swapMoves_run, doMoves_run, doMoves_run]

/-! ## Where the moves are -/

/-- Move `i` is between entry `i` and slot `head + i` modulo the size. -/
theorem ptrsMoves_eq {k : Nat} (hk : k ≤ 31) (hn : n ≤ 2 ^ k) :
    ptrsMoves (2 ^ k) (2 ^ k - 1) head n = (List.range n).map fun i => (i, (head + i) % 2 ^ k) := by
  have hpow : 2 ^ k ≤ 2 ^ 31 := Nat.pow_le_pow_right (by decide) hk
  have hidx := Nat.mod_lt head (Nat.two_pow_pos k)
  simp only [ptrsMoves, Word.land_mask]
  rw [Word.add_eq (by omega)]
  split_ifs with hfit
  · rw [runMoves_unrolled _ (by omega), runMoves_eq]
    refine List.map_congr_left fun i hi => ?_
    have hin := List.mem_range.mp hi
    rw [mod_add (by omega), if_pos (by omega), Nat.zero_add]
  · -- the first loop goes up to the end of the array, the second on from its start
    have hsplit : n = (2 ^ k - head % 2 ^ k) + (n - (2 ^ k - head % 2 ^ k)) := by omega
    have hrange : List.range n = List.range (2 ^ k - head % 2 ^ k) ++
        (List.range (n - (2 ^ k - head % 2 ^ k))).map (2 ^ k - head % 2 ^ k + ·) := by
      rw [← List.range_add, ← hsplit]
    rw [hrange, List.map_append, List.map_map, runMoves_eq, runMoves_eq]
    congr 1
    · refine List.map_congr_left fun i hi => ?_
      have hin := List.mem_range.mp hi
      rw [mod_add (by omega), if_pos (by omega), Nat.zero_add]
    · refine List.map_congr_left fun i hi => ?_
      have hin := List.mem_range.mp hi
      have hslot : (head + (2 ^ k - head % 2 ^ k + i)) % 2 ^ k = i := by
        rw [mod_add (by omega), if_neg (by omega)]
        omega
      simp only [Function.comp_apply, hslot, Nat.zero_add]

/-- Moves between different places put every object where it belongs. -/
theorem doMoves_map (src dst : Nat → α) (f g : Nat → Nat) (hg : ∀ i < n, ∀ j < n, g i = g j → i = j) :
    (∀ i < n, doMoves src dst ((List.range n).map fun i => (f i, g i)) (g i) = src (f i)) ∧
      ∀ x, (∀ i < n, x ≠ g i) → doMoves src dst ((List.range n).map fun i => (f i, g i)) x = dst x := by
  induction n with
  | zero => exact ⟨fun i hi => absurd hi (Nat.not_lt_zero i), fun _ _ => rfl⟩
  | succ n ih =>
    obtain ⟨hin, hout⟩ := ih fun i hi j hj => hg i (Nat.lt_succ_of_lt hi) j (Nat.lt_succ_of_lt hj)
    have hlast : doMoves src dst ((List.range (n + 1)).map fun i => (f i, g i)) =
        Function.update (doMoves src dst ((List.range n).map fun i => (f i, g i))) (g n) (src (f n)) := by
      rw [List.range_succ, List.map_append, doMoves_append]
      rfl
    rw [hlast]
    constructor
    · intro i hi
      rcases Nat.lt_succ_iff_lt_or_eq.mp hi with hlt | rfl
      · have hne : g i ≠ g n := fun he => absurd (hg i hi n (Nat.lt_succ_self n) he) (Nat.ne_of_lt hlt)
        rw [Function.update_of_ne hne]
        exact hin i hlt
      · rw [Function.update_self]
    · intro x hx
      rw [Function.update_of_ne (hx n (Nat.lt_succ_self n))]
      exact hout x fun i hi => hx i (Nat.lt_succ_of_lt hi)

/-- Fewer consecutive indices than there are slots are in different slots. -/
theorem slot_injective {size i j : Nat} (hi : i < size) (hj : j < size)
    (h : (head + i) % size = (head + j) % size) : i = j := by
  have hlt := Nat.mod_lt head (Nat.zero_lt_of_lt hi)
  rw [mod_add hi, mod_add hj] at h
  split_ifs at h <;> omega

/-- What a copy macro must do with `n` objects at `head`. -/
structure ModularCopy (r : RteRing α) (head n : Nat) (tbl : Nat → α) : Prop where
  /-- No index is outside the table or the array. -/
  inside : ∀ m ∈ ptrsMoves r.size r.mask head n, m.1 < n ∧ m.2 < r.size
  enqueue_moves : enqueuePtrs r head tbl n = doMoves tbl r.slots (ptrsMoves r.size r.mask head n)
  enqueue_slot : ∀ i < n, enqueuePtrs r head tbl n ((head + i) % r.size) = tbl i
  enqueue_frame : ∀ s, (∀ i < n, s ≠ (head + i) % r.size) → enqueuePtrs r head tbl n s = r.slots s
  dequeue_moves : dequeuePtrs r head tbl n =
    doMoves r.slots tbl (swapMoves (ptrsMoves r.size r.mask head n))
  dequeue_entry : ∀ i < n, dequeuePtrs r head tbl n i = r.slots ((head + i) % r.size)
  dequeue_frame : ∀ i, n ≤ i → dequeuePtrs r head tbl n i = tbl i

/-- **The copy macros** index modulo the size, for every head and every number of objects up to the
size. -/
theorem ptrs_modular {k : Nat} (hsize : r.size = 2 ^ k) (hword : r.size < 2 ^ 32)
    (hmask : r.mask = r.size - 1) (hn : n ≤ r.size) (tbl : Nat → α) : ModularCopy r head n tbl := by
  have hk : k ≤ 31 := by
    rw [hsize] at hword
    exact Nat.le_of_lt_succ ((Nat.pow_lt_pow_iff_right (by decide)).mp hword)
  have hpos : 0 < r.size := by
    rw [hsize]
    exact Nat.two_pow_pos k
  have hmoves : ptrsMoves r.size r.mask head n =
      (List.range n).map fun i => (i, (head + i) % r.size) := by
    rw [hmask, hsize]
    exact ptrsMoves_eq hk (hsize ▸ hn)
  have henq := @enqueuePtrs_eq_moves α r head n (show n < 2 ^ 32 by omega) tbl
  have hdeq := @dequeuePtrs_eq_moves α r head n (show n < 2 ^ 32 by omega) tbl
  have hin := doMoves_map tbl r.slots (fun i => i) (fun i => (head + i) % r.size)
    fun i (hi : i < n) j (hj : j < n) => slot_injective (by omega) (by omega)
  have hout := doMoves_map r.slots tbl (fun i => (head + i) % r.size) (fun i => i)
    fun i (_ : i < n) j (_ : j < n) h => h
  have hswap : swapMoves (ptrsMoves r.size r.mask head n) =
      (List.range n).map fun i => ((head + i) % r.size, i) := by
    rw [hmoves, swapMoves, List.map_map]
    rfl
  refine ⟨?_, henq, ?_, ?_, hdeq, ?_, ?_⟩
  · rw [hmoves]
    intro m hm
    obtain ⟨i, hi, rfl⟩ := List.mem_map.mp hm
    exact ⟨List.mem_range.mp hi, Nat.mod_lt _ hpos⟩
  · rw [henq, hmoves]
    exact hin.1
  · rw [henq, hmoves]
    exact hin.2
  · rw [hdeq, hswap]
    exact hout.1
  · rw [hdeq, hswap]
    exact fun i hi => hout.2 i fun j hj he => absurd (he ▸ hj) (Nat.not_lt.mpr hi)

/-- The exact fit: five objects from slot three of eight. -/
theorem ptrs_modular_exact :
    ModularCopy (⟨8, 7, 7, ⟨11, 11⟩, ⟨11, 11⟩, fun _ => 0⟩ : RteRing Nat) 11 5 (fun i => i + 1) :=
  ptrs_modular (k := 3) rfl (by decide) rfl (by decide) _

end Ring
