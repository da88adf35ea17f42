import RteDemo.Lib.Bytes

/-!
# Copying in blocks

A copy of `n` bytes from `s` to `d` is under way when a first part has arrived and nothing outside the
destination has changed (`Copied`). A block move takes `w` bytes at some offset; it extends the part
that has arrived when it starts inside it (`Moves`), so blocks may overlap backwards.

Blocks come one by one (`repeatBlock`), with all loads before the first store (`loadsFirst`), or in a
loop that moves on while enough bytes are left (`blockLoop`). A `Cursor` holds the pointers and the
length left; `Cursor.At` says how far it has come.
-/

namespace Bytes

/-- The bytes from `a` on. -/
def get (m : Mem) (a : Nat) : Nat → UInt8 := fun i => m (a + i)

/-- Write the first `n` bytes of `v` at `a`. -/
def put (m : Mem) (a n : Nat) (v : Nat → UInt8) : Mem := fun x =>
  if a ≤ x ∧ x < a + n then v (x - a) else m x

/-- The first `k` of `n` bytes have been copied from `s` to `d`, starting from the memory `m₀`. -/
structure Copied (m₀ : Mem) (d s n k : Nat) (m : Mem) : Prop where
  apart : s + n ≤ d ∨ d + n ≤ s
  done : ∀ i < k, m (d + i) = m₀ (s + i)
  frame : ∀ x, x < d ∨ d + n ≤ x → m x = m₀ x

/-- A function that moves `w` bytes, from addresses of at least `lo`. -/
def Moves (lo w : Nat) (f : Mem → Nat → Nat → Mem) : Prop :=
  ∀ ⦃m₀ m : Mem⦄ ⦃d s n k o : Nat⦄, Copied m₀ d s n k m → o ≤ k → o + w ≤ n → lo ≤ s + o →
    Copied m₀ d s n (o + w) (f m (d + o) (s + o))

section

variable {m₀ m : Mem} {d s n k o w lo : Nat} {f : Mem → Nat → Nat → Mem}

theorem Copied.start (h : s + n ≤ d ∨ d + n ≤ s) : Copied m₀ d s n 0 m₀ :=
  ⟨h, fun i hi => absurd hi (Nat.not_lt_zero i), fun _ _ => rfl⟩

theorem Copied.mono (h : Copied m₀ d s n k m) (ho : o ≤ k) : Copied m₀ d s n o m :=
  ⟨h.apart, fun i hi => h.done i (Nat.lt_of_lt_of_le hi ho), h.frame⟩

/-- The source is as it was. -/
theorem Copied.source (h : Copied m₀ d s n k m) {i : Nat} (hi : i < n) : m (s + i) = m₀ (s + i) := by
  have hap := h.apart
  exact h.frame _ (by omega)

/-- Storing the right bytes at an offset that has been reached. -/
theorem Copied.put (h : Copied m₀ d s n k m) (ho : o ≤ k) (hw : o + w ≤ n) {v : Nat → UInt8}
    (hv : ∀ i < w, v i = m₀ (s + o + i)) : Copied m₀ d s n (o + w) (Bytes.put m (d + o) w v) where
  apart := h.apart
  done i hi := by
    unfold Bytes.put
    by_cases hlt : i < o
    · rw [if_neg (by omega)]
      exact h.done i (Nat.lt_of_lt_of_le hlt ho)
    · rw [if_pos (by omega), hv _ (by omega)]
      exact congrArg m₀ (by omega)
  frame x hx := by
    unfold Bytes.put
    rw [if_neg (by omega)]
    exact h.frame x hx

/-- One register loaded and stored. -/
theorem moves_put (w : Nat) : Moves 0 w fun m d s => put m d w (get m s) := by
  intro m₀ m d s n k o h ho hw _
  refine h.put ho hw fun i hi => ?_
  rw [get, Nat.add_assoc, h.source (by omega)]

/-- One block behind the other. -/
theorem Moves.seq {g : Mem → Nat → Nat → Mem} {w' : Nat} (hf : Moves lo w f) (hg : Moves lo w' g) :
    Moves lo (w + w') fun m d s => g (f m d s) (d + w) (s + w) := by
  intro m₀ m d s n k o h ho hw hlo
  have hmid := hf h ho (by omega) hlo
  have hend := hg hmid (Nat.le_refl _) (by omega) (by omega)
  rwa [← Nat.add_assoc, ← Nat.add_assoc, Nat.add_assoc o] at hend

end

/-! ## Repeated blocks -/

/-- `k` blocks, one after the other. -/
def repeatBlock (f : Mem → Nat → Nat → Mem) (w k : Nat) (m : Mem) (d s : Nat) : Mem :=
  (List.range k).foldl (fun m i => f m (d + i * w) (s + i * w)) m

/-- `k` blocks whose bytes are all computed before the first is stored. -/
def loadsFirst (v : Mem → Nat → Nat → Nat → UInt8) (w k : Nat) (m : Mem) (d s : Nat) : Mem :=
  (List.range k).foldl (fun m' i => put m' (d + i * w) w (v m s i)) m

theorem Moves.repeatBlock {lo w : Nat} {f : Mem → Nat → Nat → Mem} (hf : Moves lo w f) (k : Nat) :
    Moves lo (k * w) (repeatBlock f w k) := by
  intro m₀ m d s n j o h ho hw hlo
  have hrun : ∀ i, i ≤ k → Copied m₀ d s n (o + i * w)
      ((List.range i).foldl (fun m i => f m (d + o + i * w) (s + o + i * w)) m) := by
    intro i
    induction i with
    | zero => exact fun _ => by simpa using h.mono ho
    | succ i ih =>
      intro hi
      have hle : (i + 1) * w ≤ k * w := Nat.mul_le_mul_right w hi
      rw [Nat.succ_mul] at hle ⊢
      rw [List.range_succ, List.foldl_append, ← Nat.add_assoc]
      have hstep := hf (ih (by omega)) (Nat.le_refl _) (by omega) (by omega)
      simpa [Nat.add_assoc] using hstep
  exact hrun k (Nat.le_refl k)

theorem moves_loadsFirst {lo w k : Nat} {v : Mem → Nat → Nat → Nat → UInt8}
    (hv : ∀ m s i j, lo ≤ s → j < w → v m s i j = m (s + i * w + j)) :
    Moves lo (k * w) (loadsFirst v w k) := by
  intro m₀ m d s n j o h ho hw hlo
  have hrun : ∀ i, i ≤ k → Copied m₀ d s n (o + i * w)
      ((List.range i).foldl (fun m' i => put m' (d + o + i * w) w (v m (s + o) i)) m) := by
    intro i
    induction i with
    | zero => exact fun _ => by simpa using h.mono ho
    | succ i ih =>
      intro hi
      have hle : (i + 1) * w ≤ k * w := Nat.mul_le_mul_right w hi
      rw [Nat.succ_mul] at hle ⊢
      rw [List.range_succ, List.foldl_append, ← Nat.add_assoc]
      have hstep := (ih (by omega)).put (v := v m (s + o) i) (w := w) (Nat.le_refl _) (by omega)
        fun b hb => by
          rw [hv m (s + o) i b hlo hb, show s + o + i * w + b = s + (o + i * w + b) by omega,
            h.source (by omega)]
          exact congrArg m₀ (by omega)
      simpa [Nat.add_assoc] using hstep
  exact hrun k (Nat.le_refl k)

/-! ## Cursors -/

/-- The memory, the two pointers, and the length left. -/
structure Cursor where
  mem : Mem
  dst : Nat
  src : Nat
  n : Nat

namespace Cursor

/-- Apply `f` and move on by `k` bytes. -/
def step (c : Cursor) (f : Mem → Nat → Nat → Mem) (k : Nat) : Cursor :=
  ⟨f c.mem c.dst c.src, c.dst + k, c.src + k, c.n - k⟩

/-- The last `w` bytes, which may have been copied in part. -/
def tail (c : Cursor) (f : Mem → Nat → Nat → Mem) (w : Nat) : Mem :=
  f c.mem (c.dst + c.n - w) (c.src + c.n - w)

/-- `while (n >= w + extra)`, with a body that moves `w` bytes. -/
def blockLoop (f : Mem → Nat → Nat → Mem) (w extra : Nat) (hw : 0 < w) (c : Cursor) : Cursor :=
  if w + extra ≤ c.n then blockLoop f w extra hw (c.step f w) else c
termination_by c.n
decreasing_by
  simp only [step]
  omega

/-- The cursor is `o` bytes into the copy. -/
structure At (m₀ : Mem) (d s n o : Nat) (c : Cursor) : Prop where
  dst : c.dst = d + o
  src : c.src = s + o
  left : o + c.n = n
  copied : Copied m₀ d s n o c.mem

variable {m₀ : Mem} {d s n o w lo : Nat} {f : Mem → Nat → Nat → Mem} {c : Cursor}

theorem At.start (h : s + n ≤ d ∨ d + n ≤ s) : At m₀ d s n 0 ⟨m₀, d, s, n⟩ :=
  ⟨rfl, rfl, Nat.zero_add n, Copied.start h⟩

/-- A block may move more than the cursor advances. -/
theorem At.step (h : At m₀ d s n o c) (hf : Moves lo w f) {k : Nat} (hk : k ≤ w) (hw : w ≤ c.n)
    (hlo : lo ≤ s + o) : At m₀ d s n (o + k) (c.step f k) := by
  have hleft := h.left
  have hmove := hf h.copied (Nat.le_refl o) (by omega) hlo
  refine ⟨by rw [Cursor.step, h.dst, Nat.add_assoc], by rw [Cursor.step, h.src, Nat.add_assoc], ?_, ?_⟩
  · rw [Cursor.step]
    dsimp only
    omega
  · rw [Cursor.step, h.dst, h.src]
    exact hmove.mono (Nat.add_le_add_left hk o)

/-- The block at the end completes the copy. -/
theorem At.tail (h : At m₀ d s n o c) (hf : Moves lo w f) (hc : c.n ≤ w) (hw : w ≤ n)
    (hlo : lo ≤ s + (n - w)) : Copied m₀ d s n n (c.tail f w) := by
  have hleft := h.left
  have hmove := hf h.copied (show n - w ≤ o by omega) (by omega) hlo
  rw [Nat.sub_add_cancel hw] at hmove
  rwa [Cursor.tail, h.dst, h.src, show d + o + c.n - w = d + (n - w) by omega,
    show s + o + c.n - w = s + (n - w) by omega]

/-- A block at the cursor and one at the end, for a length between one block and both. -/
theorem At.blockTail {g : Mem → Nat → Nat → Mem} {w' : Nat} (h : At m₀ d s n o c) (hf : Moves lo w f)
    (hg : Moves lo w' g) (hw : w ≤ c.n) (hc : c.n ≤ w + w') (hn : w' ≤ n) (hlo : lo ≤ s + o)
    (hlo' : lo ≤ s + (n - w')) :
    Copied m₀ d s n n ({ c with mem := f c.mem c.dst c.src }.tail g w') := by
  have hstep := h.step hf (Nat.le_refl w) hw hlo
  have hend := hstep.tail hg (by rw [Cursor.step]; dsimp only; omega) hn hlo'
  rw [Cursor.tail, Cursor.step] at hend
  dsimp only at hend
  rwa [show c.dst + w + (c.n - w) = c.dst + c.n by omega,
    show c.src + w + (c.n - w) = c.src + c.n by omega] at hend

/-- The loop leaves less than one more block, and has moved whole blocks. -/
theorem At.blockLoop {extra : Nat} {hw : 0 < w} (hf : Moves lo w f) (h : At m₀ d s n o c)
    (hlo : lo ≤ s + o) : ∃ o' q, At m₀ d s n o' (blockLoop f w extra hw c) ∧ o' = o + q * w ∧
      (Cursor.blockLoop f w extra hw c).n < w + extra ∧
      (extra ≤ c.n → extra ≤ (Cursor.blockLoop f w extra hw c).n) := by
  induction hn : c.n using Nat.strongRecOn generalizing c o with
  | ind len ih =>
    rw [Cursor.blockLoop]
    split_ifs with hle
    · have hstep := h.step hf (Nat.le_refl w) (by omega) hlo
      obtain ⟨o', q, hat, ho', hlt, hge⟩ := ih (c.step f w).n (by rw [Cursor.step]; dsimp only; omega)
        hstep (by omega) rfl
      refine ⟨o', q + 1, hat, by rw [ho', Nat.succ_mul]; omega, hlt, fun _ => hge ?_⟩
      rw [Cursor.step]
      dsimp only
      omega
    · exact ⟨o, 0, h, by rw [Nat.zero_mul, Nat.add_zero], by omega, fun he => hn ▸ he⟩

end Cursor

end Bytes
