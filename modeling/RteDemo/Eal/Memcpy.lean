import RteDemo.Common
import RteDemo.Lib.BlockCopy

/-!
# `rte_memcpy`

The three builds of `rte_memcpy.h` move a length in blocks of the width of a register: short lengths in
one or two blocks that may overlap, longer ones in loops after the destination has been aligned, and
what is left in a block that ends with the copy. The SSE build loads from aligned addresses and shifts
two registers into one (`alignr`).

Every build copies the bytes (`rteMemcpy_copies`). A label that is the target of a `goto` is a function
of the cursor there, and `dst - 16 + n` is written `dst + n - 16`.
-/

namespace RteMemcpy

open RteDemo Bytes

/-- The macros that select the code. -/
inductive Build
  | sse
  | avx2
  | avx512
  deriving DecidableEq

/-- `ALIGNMENT_MASK` -/
def alignmentMask : Build → Nat
  | .sse => 0x0F
  | .avx2 => 0x1F
  | .avx512 => 0x3F

/-- A register of `w` bytes is loaded and stored. -/
def movReg (w : Nat) (m : Mem) (dst src : Nat) : Mem := put m dst w (get m src)

/-- `_mm_alignr_epi8(hi, lo, offset)` -/
def alignr (hi lo : Nat → UInt8) (offset : Nat) : Nat → UInt8 := fun i =>
  if i + offset < 16 then lo (i + offset) else hi (i + offset - 16)

/-- `rte_mov16` -/
def rteMov16 : Mem → Nat → Nat → Mem := movReg 16

/-- `rte_mov32` -/
def rteMov32 : Build → Mem → Nat → Nat → Mem
  | .sse => repeatBlock rteMov16 16 2
  | .avx2 => movReg 32
  | .avx512 => movReg 32

/-- `rte_mov64` -/
def rteMov64 : Build → Mem → Nat → Nat → Mem
  | .sse => repeatBlock rteMov16 16 4
  | .avx2 => repeatBlock (rteMov32 .avx2) 32 2
  | .avx512 => movReg 64

/-- `rte_mov128` -/
def rteMov128 : Build → Mem → Nat → Nat → Mem
  | .sse => repeatBlock rteMov16 16 8
  | .avx2 => repeatBlock (rteMov32 .avx2) 32 4
  | .avx512 => repeatBlock (rteMov64 .avx512) 64 2

/-- `rte_mov256` of the SSE build. -/
def rteMov256Sse : Mem → Nat → Nat → Mem := repeatBlock rteMov16 16 16

/-- `rte_mov256` of the AVX512 build. -/
def rteMov256Avx512 : Mem → Nat → Nat → Mem := repeatBlock (rteMov64 .avx512) 64 4

/-- One bit of a length below 16. -/
def copyBit (n w : Nat) (p : Mem × Nat × Nat) : Mem × Nat × Nat :=
  if n &&& w ≠ 0 then (movReg w p.1 p.2.1 p.2.2, p.2.1 + w, p.2.2 + w) else p

/-- "Copy less than 16 bytes". -/
def copyLess16 (m : Mem) (dst src n : Nat) : Mem :=
  (copyBit n 0x08 (copyBit n 0x04 (copyBit n 0x02 (copyBit n 0x01 (m, dst, src))))).1

/-! ## AVX512 -/

/-- `rte_mov128blocks` of the AVX512 build, with its own copies of the parameters. -/
def rteMov128blocksAvx512 (c : Cursor) : Mem :=
  (c.blockLoop (loadsFirst (fun m src i => get m (src + i * 64)) 64 2) 128 0 (by decide)).mem

/-- `rte_mov512blocks` -/
def rteMov512blocks (c : Cursor) : Mem :=
  (c.blockLoop (loadsFirst (fun m src i => get m (src + i * 64)) 64 8) 512 0 (by decide)).mem

/-- After a block function: `bits = n; n = n & mask; bits -= n`, and the pointers move by `bits`. -/
def skipBlocks (c : Cursor) (m : Mem) (mask : Nat) : Cursor :=
  ⟨m, c.dst + (c.n - (c.n &&& mask)), c.src + (c.n - (c.n &&& mask)), c.n &&& mask⟩

/-- `COPY_BLOCK_128_BACK63` -/
def copyBlock128Back63 (c : Cursor) : Mem :=
  if 64 < c.n then
    { c with mem := rteMov64 .avx512 c.mem c.dst c.src }.tail (rteMov64 .avx512) 64
  else if 0 < c.n then c.tail (rteMov64 .avx512) 64
  else c.mem

def rteMemcpyGenericAvx512 (m : Mem) (dst src n : Nat) : Mem :=
  if n < 16 then copyLess16 m dst src n
  else if n ≤ 32 then (Cursor.mk (rteMov16 m dst src) dst src n).tail rteMov16 16
  else if n ≤ 64 then
    (Cursor.mk (rteMov32 .avx512 m dst src) dst src n).tail (rteMov32 .avx512) 32
  else if n ≤ 512 then
    let c := Cursor.mk m dst src n
    let c := if 256 ≤ c.n then c.step rteMov256Avx512 256 else c
    let c := if 128 ≤ c.n then c.step (rteMov128 .avx512) 128 else c
    copyBlock128Back63 c
  else
    let c := Cursor.mk m dst src n
    let dstofss := dst &&& 0x3F
    let c := if 0 < dstofss then c.step (rteMov64 .avx512) (64 - dstofss) else c
    let c := skipBlocks c (rteMov512blocks c) 511
    let c := if 128 ≤ c.n then skipBlocks c (rteMov128blocksAvx512 c) 127 else c
    copyBlock128Back63 c

/-! ## AVX2 -/

/-- `rte_mov128blocks` of the AVX2 build. -/
def rteMov128blocksAvx2 (c : Cursor) : Mem :=
  (c.blockLoop (loadsFirst (fun m src i => get m (src + i * 32)) 32 4) 128 0 (by decide)).mem

/-- `COPY_BLOCK_128_BACK31` -/
def copyBlock128Back31 (c : Cursor) : Mem :=
  let c := if 64 ≤ c.n then c.step (rteMov64 .avx2) 64 else c
  if 32 < c.n then { c with mem := rteMov32 .avx2 c.mem c.dst c.src }.tail (rteMov32 .avx2) 32
  else if 0 < c.n then c.tail (rteMov32 .avx2) 32
  else c.mem

def rteMemcpyGenericAvx2 (m : Mem) (dst src n : Nat) : Mem :=
  if n < 16 then copyLess16 m dst src n
  else if n ≤ 32 then (Cursor.mk (rteMov16 m dst src) dst src n).tail rteMov16 16
  else if n ≤ 48 then
    (Cursor.mk (rteMov16 (rteMov16 m dst src) (dst + 16) (src + 16)) dst src n).tail rteMov16 16
  else if n ≤ 64 then (Cursor.mk (rteMov32 .avx2 m dst src) dst src n).tail (rteMov32 .avx2) 32
  else if n ≤ 256 then
    let c := Cursor.mk m dst src n
    copyBlock128Back31 (if 128 ≤ c.n then c.step (rteMov128 .avx2) 128 else c)
  else
    let c := Cursor.mk m dst src n
    let dstofss := dst &&& 0x1F
    let c := if 0 < dstofss then c.step (rteMov32 .avx2) (32 - dstofss) else c
    copyBlock128Back31 (skipBlocks c (rteMov128blocksAvx2 c) 127)

/-! ## SSE -/

/-- `COPY_BLOCK_64_BACK15` -/
def copyBlock64Back15 (c : Cursor) : Mem :=
  let c := if 32 ≤ c.n then c.step (rteMov32 .sse) 32 else c
  if 16 < c.n then { c with mem := rteMov16 c.mem c.dst c.src }.tail rteMov16 16
  else if 0 < c.n then c.tail rteMov16 16
  else c.mem

/-- `COPY_BLOCK_128_BACK15` -/
def copyBlock128Back15 (c : Cursor) : Mem :=
  copyBlock64Back15 (if 64 ≤ c.n then c.step (rteMov64 .sse) 64 else c)

/-- `COPY_BLOCK_255_BACK15` -/
def copyBlock255Back15 (c : Cursor) : Mem :=
  copyBlock128Back15 (if 128 ≤ c.n then c.step (rteMov128 .sse) 128 else c)

/-- The body of a loop of `MOVEUNALIGNED_LEFT47_IMM`: `k + 1` aligned loads, then `k` stores of two
neighbours shifted together. -/
def unalignedBlocks (offset k : Nat) : Mem → Nat → Nat → Mem :=
  loadsFirst (fun m src i => alignr (get m (src - offset + (i + 1) * 16)) (get m (src - offset + i * 16))
    offset) 16 k

/-- `tmp = len; len = ((len - 16 + offset) & mask) + 16 - offset; tmp -= len`, and the pointers move by
`tmp`. -/
def skipUnaligned (offset mask : Nat) (c : Cursor) : Cursor :=
  let len := ((c.n + offset - 16) &&& mask) + 16 - offset
  ⟨c.mem, c.dst + (c.n - len), c.src + (c.n - len), len⟩

/-- `MOVEUNALIGNED_LEFT47_IMM` -/
def moveunalignedLeft47Imm (offset : Nat) (c : Cursor) : Cursor :=
  let c := c.blockLoop (unalignedBlocks offset 8) 128 (16 - offset) (by decide)
  let c := skipUnaligned offset 127 c
  if 32 + (16 - offset) ≤ c.n then
    skipUnaligned offset 31 (c.blockLoop (unalignedBlocks offset 2) 32 (16 - offset) (by decide))
  else c

/-- `MOVEUNALIGNED_LEFT47` -/
def moveunalignedLeft47 (offset : Nat) (c : Cursor) : Cursor :=
  if 0x01 ≤ offset ∧ offset ≤ 0x0F then moveunalignedLeft47Imm offset c else c

def rteMemcpyGenericSse (m : Mem) (dst src n : Nat) : Mem :=
  if n < 16 then copyLess16 m dst src n
  else if n ≤ 32 then (Cursor.mk (rteMov16 m dst src) dst src n).tail rteMov16 16
  else if n ≤ 48 then (Cursor.mk (rteMov32 .sse m dst src) dst src n).tail rteMov16 16
  else if n ≤ 64 then
    (Cursor.mk (rteMov16 (rteMov32 .sse m dst src) (dst + 32) (src + 32)) dst src n).tail rteMov16 16
  else if n ≤ 128 then copyBlock128Back15 ⟨m, dst, src, n⟩
  else if n ≤ 512 then
    let c := Cursor.mk m dst src n
    copyBlock255Back15 (if 256 ≤ c.n then
      c.step (fun m dst src => rteMov128 .sse (rteMov128 .sse m dst src) (dst + 128) (src + 128)) 256
    else c)
  else
    let c := Cursor.mk m dst src n
    let dstofss := dst &&& 0x0F
    -- up to 15 bytes before `src` are loaded below
    let c := if 0 < dstofss then c.step (rteMov32 .sse) (16 - dstofss + 16) else c
    let srcofs := c.src &&& 0x0F
    if srcofs = 0 then copyBlock255Back15 (c.blockLoop rteMov256Sse 256 0 (by decide))
    else copyBlock64Back15 (moveunalignedLeft47 srcofs c)

/-! ## All builds -/

/-- `rte_memcpy_generic` -/
def rteMemcpyGeneric : Build → Mem → Nat → Nat → Nat → Mem
  | .sse => rteMemcpyGenericSse
  | .avx2 => rteMemcpyGenericAvx2
  | .avx512 => rteMemcpyGenericAvx512

/-- `rte_memcpy_aligned` -/
def rteMemcpyAligned (b : Build) (m : Mem) (dst src n : Nat) : Mem :=
  if n < 16 then copyLess16 m dst src n
  else if n ≤ 32 then (Cursor.mk (rteMov16 m dst src) dst src n).tail rteMov16 16
  else if n ≤ 64 then (Cursor.mk (rteMov32 b m dst src) dst src n).tail (rteMov32 b) 32
  else ((Cursor.mk m dst src n).blockLoop (rteMov64 b) 64 0 (by decide)).tail (rteMov64 b) 64

/-- `rte_memcpy`: the pointer returned, and the memory. -/
def rteMemcpy (b : Build) (m : Mem) (dst src n : Nat) : Nat × Mem :=
  if (dst ||| src) &&& alignmentMask b = 0 then (dst, rteMemcpyAligned b m dst src n)
  else (dst, rteMemcpyGeneric b m dst src n)

/-! ## The block moves -/

theorem moves_mov16 : Moves 0 16 rteMov16 := moves_put 16

theorem moves_mov32 : ∀ b, Moves 0 32 (rteMov32 b)
  | .sse => moves_mov16.repeatBlock 2
  | .avx2 => moves_put 32
  | .avx512 => moves_put 32

theorem moves_mov64 : ∀ b, Moves 0 64 (rteMov64 b)
  | .sse => moves_mov16.repeatBlock 4
  | .avx2 => Moves.repeatBlock (moves_mov32 .avx2) 2
  | .avx512 => moves_put 64

theorem moves_mov128 : ∀ b, Moves 0 128 (rteMov128 b)
  | .sse => moves_mov16.repeatBlock 8
  | .avx2 => Moves.repeatBlock (moves_mov32 .avx2) 4
  | .avx512 => Moves.repeatBlock (moves_mov64 .avx512) 2

theorem moves_mov256Sse : Moves 0 256 rteMov256Sse := moves_mov16.repeatBlock 16

theorem moves_mov256Avx512 : Moves 0 256 rteMov256Avx512 :=
  Moves.repeatBlock (moves_mov64 .avx512) 4

theorem moves_loads (w k : Nat) : Moves 0 (k * w) (loadsFirst (fun m src i => get m (src + i * w)) w k) :=
  moves_loadsFirst fun _ _ _ _ _ _ => rfl

/-- Two aligned registers shifted together are the unaligned one. -/
theorem alignr_get {offset : Nat} {m : Mem} {src : Nat} (hs : offset ≤ src) (i j : Nat) :
    alignr (get m (src - offset + (i + 1) * 16)) (get m (src - offset + i * 16)) offset j =
      m (src + i * 16 + j) := by
  unfold alignr
  split_ifs with h
  · exact congrArg m (by omega)
  · exact congrArg m (by omega)

theorem moves_unalignedBlocks (offset k : Nat) : Moves offset (k * 16) (unalignedBlocks offset k) :=
  moves_loadsFirst fun _ _ i j hs _ => alignr_get hs i j

/-! ## The parts of the copy -/

section

variable {m₀ : Mem} {d s n o : Nat} {c : Cursor}

theorem copyBit_spec {w k : Nat} {p : Mem × Nat × Nat} (h : Copied m₀ d s n o p.1) (hd : p.2.1 = d + o)
    (hs : p.2.2 = s + o) (hbit : k &&& w = 0 ∨ k &&& w = w) (hle : o + (k &&& w) ≤ n) :
    Copied m₀ d s n (o + (k &&& w)) (copyBit k w p).1 ∧ (copyBit k w p).2.1 = d + (o + (k &&& w)) ∧
      (copyBit k w p).2.2 = s + (o + (k &&& w)) := by
  rw [copyBit]
  by_cases h0 : k &&& w = 0
  · rw [if_neg (not_not.mpr h0), h0, Nat.add_zero]
    exact ⟨h, hd, hs⟩
  · have hw := hbit.resolve_left h0
    rw [if_pos h0]
    rw [hw] at hle ⊢
    refine ⟨?_, by rw [hd, Nat.add_assoc], by rw [hs, Nat.add_assoc]⟩
    rw [hd, hs]
    exact moves_put w h (Nat.le_refl o) hle (Nat.zero_le _)

theorem copyLess16_spec (hap : s + n ≤ d ∨ d + n ≤ s) (hn : n < 16) :
    Copied m₀ d s n n (copyLess16 m₀ d s n) := by
  have hbits : ∀ k < 16, (k &&& 1 = 0 ∨ k &&& 1 = 1) ∧ (k &&& 2 = 0 ∨ k &&& 2 = 2) ∧
      (k &&& 4 = 0 ∨ k &&& 4 = 4) ∧ (k &&& 8 = 0 ∨ k &&& 8 = 8) ∧
      0 + (k &&& 1) + (k &&& 2) + (k &&& 4) + (k &&& 8) = k := by decide
  obtain ⟨h1, h2, h4, h8, hsum⟩ := hbits n hn
  obtain ⟨hc, hd, hs⟩ := copyBit_spec (p := (m₀, d, s)) (Copied.start hap) rfl rfl h1 (by omega)
  obtain ⟨hc, hd, hs⟩ := copyBit_spec hc hd hs h2 (by omega)
  obtain ⟨hc, hd, hs⟩ := copyBit_spec hc hd hs h4 (by omega)
  obtain ⟨hc, -, -⟩ := copyBit_spec hc hd hs h8 (by omega)
  rwa [hsum] at hc

/-- A block that is copied when it fits. -/
theorem step_if {w : Nat} {f : Mem → Nat → Nat → Mem} (h : Cursor.At m₀ d s n o c) (hf : Moves 0 w f) :
    ∃ o', Cursor.At m₀ d s n o' (if w ≤ c.n then c.step f w else c) ∧ o ≤ o' ∧
      (if w ≤ c.n then c.step f w else c).n = if w ≤ c.n then c.n - w else c.n := by
  split_ifs with hw
  · exact ⟨o + w, h.step hf (Nat.le_refl w) hw (Nat.zero_le _), Nat.le_add_right o w, rfl⟩
  · exact ⟨o, h, Nat.le_refl o, rfl⟩

/-- The code at a label that copies a block and the last block, or the last block only. -/
theorem blockTail_or {w : Nat} {f : Mem → Nat → Nat → Mem} (h : Cursor.At m₀ d s n o c)
    (hf : Moves 0 w f) (hw : w ≤ n) (hc : c.n ≤ w + w) :
    Copied m₀ d s n n (if w < c.n then { c with mem := f c.mem c.dst c.src }.tail f w
      else if 0 < c.n then c.tail f w else c.mem) := by
  have hleft := h.left
  split_ifs with hbig hpos
  · exact h.blockTail hf hf hbig.le hc hw (Nat.zero_le _) (Nat.zero_le _)
  · exact h.tail hf (by omega) hw (Nat.zero_le _)
  · have hall : o = n := by omega
    rw [← hall]
    exact hall ▸ h.copied

theorem copyBlock128Back63_spec (h : Cursor.At m₀ d s n o c) (hn : 64 ≤ n) (hc : c.n ≤ 128) :
    Copied m₀ d s n n (copyBlock128Back63 c) := blockTail_or h (moves_mov64 .avx512) hn hc

theorem copyBlock128Back31_spec (h : Cursor.At m₀ d s n o c) (hn : 32 ≤ n) (hc : c.n ≤ 128) :
    Copied m₀ d s n n (copyBlock128Back31 c) := by
  obtain ⟨o', hat, -, hlen⟩ := step_if h (moves_mov64 .avx2)
  refine blockTail_or hat (moves_mov32 .avx2) hn ?_
  rw [hlen]
  split_ifs <;> omega

theorem copyBlock64Back15_spec (h : Cursor.At m₀ d s n o c) (hn : 16 ≤ n) (hc : c.n ≤ 64) :
    Copied m₀ d s n n (copyBlock64Back15 c) := by
  obtain ⟨o', hat, -, hlen⟩ := step_if h (moves_mov32 .sse)
  refine blockTail_or hat moves_mov16 hn ?_
  rw [hlen]
  split_ifs <;> omega

theorem copyBlock128Back15_spec (h : Cursor.At m₀ d s n o c) (hn : 16 ≤ n) (hc : c.n ≤ 128) :
    Copied m₀ d s n n (copyBlock128Back15 c) := by
  obtain ⟨o', hat, -, hlen⟩ := step_if h (moves_mov64 .sse)
  refine copyBlock64Back15_spec hat hn ?_
  rw [hlen]
  split_ifs <;> omega

theorem copyBlock255Back15_spec (h : Cursor.At m₀ d s n o c) (hn : 16 ≤ n) (hc : c.n ≤ 256) :
    Copied m₀ d s n n (copyBlock255Back15 c) := by
  obtain ⟨o', hat, -, hlen⟩ := step_if h (moves_mov128 .sse)
  refine copyBlock128Back15_spec hat hn ?_
  rw [hlen]
  split_ifs <;> omega

/-- The pointers after a block function are those of its loop. -/
theorem skipBlocks_eq {c' : Cursor} {o' q k : Nat} (h : Cursor.At m₀ d s n o c)
    (h' : Cursor.At m₀ d s n o' c') (ho : o' = o + q * 2 ^ k) (hlt : c'.n < 2 ^ k) :
    skipBlocks c c'.mem (2 ^ k - 1) = c' := by
  have hleft := h.left
  have hleft' := h'.left
  have hsum : c.n = c'.n + 2 ^ k * q := by
    rw [Nat.mul_comm]
    omega
  have hmask : c.n &&& (2 ^ k - 1) = c'.n := by
    rw [Nat.and_two_pow_sub_one_eq_mod, hsum, Nat.add_mul_mod_self_left, Nat.mod_eq_of_lt hlt]
  have hd : c.dst + (c.n - c'.n) = c'.dst := by
    rw [h.dst, h'.dst]
    omega
  have hs : c.src + (c.n - c'.n) = c'.src := by
    rw [h.src, h'.src]
    omega
  rw [skipBlocks, hmask, hd, hs]

/-- The formula for the length left gives the length left. -/
theorem skipUnaligned_eq {offset k : Nat} (h16 : 16 ≤ c.n + offset) (ho : offset ≤ 16)
    (hlt : c.n + offset - 16 < 2 ^ k) : skipUnaligned offset (2 ^ k - 1) c = c := by
  have hlen : ((c.n + offset - 16) &&& (2 ^ k - 1)) + 16 - offset = c.n := by
    rw [Nat.and_two_pow_sub_one_eq_mod, Nat.mod_eq_of_lt hlt]
    omega
  rw [skipUnaligned, hlen, Nat.sub_self]
  rfl

/-- At most 47 bytes are left over. -/
theorem moveunalignedLeft47_spec {offset : Nat} (h : Cursor.At m₀ d s n o c) (hpos : 1 ≤ offset)
    (hle : offset ≤ 15) (hlo : offset ≤ s + o) (h16 : 16 ≤ c.n) :
    ∃ o', Cursor.At m₀ d s n o' (moveunalignedLeft47 offset c) ∧
      (moveunalignedLeft47 offset c).n ≤ 47 := by
  have hf₁ : Moves offset 128 (unalignedBlocks offset 8) := moves_unalignedBlocks offset 8
  have hf₂ : Moves offset 32 (unalignedBlocks offset 2) := moves_unalignedBlocks offset 2
  obtain ⟨o₁, q₁, hat₁, ho₁, hlt₁, hge₁⟩ :=
    @Cursor.At.blockLoop m₀ d s n o 128 offset _ c (16 - offset) (by decide) hf₁ h hlo
  rw [moveunalignedLeft47, if_pos ⟨hpos, hle⟩, moveunalignedLeft47Imm]
  generalize c.blockLoop (unalignedBlocks offset 8) 128 (16 - offset) (by decide) = c₁ at *
  have hrest₁ := hge₁ (by omega)
  have hskip₁ : skipUnaligned offset 127 c₁ = c₁ :=
    skipUnaligned_eq (k := 7) (by omega) (by omega) (by omega)
  rw [hskip₁]
  split_ifs with hmore
  · obtain ⟨o₂, q₂, hat₂, ho₂, hlt₂, hge₂⟩ :=
      @Cursor.At.blockLoop m₀ d s n o₁ 32 offset _ c₁ (16 - offset) (by decide) hf₂ hat₁ (by omega)
    generalize c₁.blockLoop (unalignedBlocks offset 2) 32 (16 - offset) (by decide) = c₂ at *
    have hrest₂ := hge₂ hrest₁
    have hskip₂ : skipUnaligned offset 31 c₂ = c₂ :=
      skipUnaligned_eq (k := 5) (by omega) (by omega) (by omega)
    rw [hskip₂]
    exact ⟨o₂, hat₂, by omega⟩
  · exact ⟨o₁, hat₁, by omega⟩

end

/-! ## The builds -/

section

variable {m : Mem} {dst src n : Nat}

/-- The first block, after which the destination is aligned. -/
theorem prologue {w k : Nat} {f : Mem → Nat → Nat → Mem} (hap : src + n ≤ dst ∨ dst + n ≤ src)
    (hf : Moves 0 w f) (hk : k ≤ w) (hw : w ≤ n) (p : Prop) [Decidable p] :
    ∃ o c, Cursor.At m dst src n o c ∧ n - w ≤ c.n ∧
      (if p then (Cursor.mk m dst src n).step f k else ⟨m, dst, src, n⟩) = c := by
  have hstart := @Cursor.At.start m dst src n hap
  split_ifs
  · refine ⟨_, _, hstart.step hf hk hw (Nat.zero_le _), ?_, rfl⟩
    rw [Cursor.step]
    dsimp only
    omega
  · exact ⟨0, _, hstart, Nat.sub_le n w, rfl⟩

/-- The pointers move past the blocks that a block function has moved. -/
theorem skipBlocks_spec {o k : Nat} {c : Cursor} {f : Mem → Nat → Nat → Mem} (hpos : 0 < 2 ^ k)
    (hf : Moves 0 (2 ^ k) f) (h : Cursor.At m dst src n o c) :
    ∃ o', Cursor.At m dst src n o' (skipBlocks c (c.blockLoop f (2 ^ k) 0 hpos).mem (2 ^ k - 1)) ∧
      (skipBlocks c (c.blockLoop f (2 ^ k) 0 hpos).mem (2 ^ k - 1)).n < 2 ^ k := by
  obtain ⟨o', q, hat, ho, hlt, -⟩ :=
    @Cursor.At.blockLoop m dst src n o (2 ^ k) 0 f c 0 hpos hf h (Nat.zero_le _)
  rw [skipBlocks_eq h hat ho hlt]
  exact ⟨o', hat, hlt⟩

theorem genericSse_spec (hap : src + n ≤ dst ∨ dst + n ≤ src) :
    Copied m dst src n n (rteMemcpyGenericSse m dst src n) := by
  have hstart := @Cursor.At.start m dst src n hap
  rw [rteMemcpyGenericSse]
  by_cases h16 : n < 16
  · rw [if_pos h16]
    exact copyLess16_spec hap h16
  rw [if_neg h16]
  by_cases h32 : n ≤ 32
  · rw [if_pos h32]
    exact hstart.blockTail moves_mov16 moves_mov16 (by dsimp only; omega) h32 (by omega) (Nat.zero_le _)
      (Nat.zero_le _)
  rw [if_neg h32]
  by_cases h48 : n ≤ 48
  · rw [if_pos h48]
    exact hstart.blockTail (moves_mov32 .sse) moves_mov16 (by dsimp only; omega) h48 (by omega)
      (Nat.zero_le _) (Nat.zero_le _)
  rw [if_neg h48]
  by_cases h64 : n ≤ 64
  · rw [if_pos h64]
    exact hstart.blockTail (Moves.seq (moves_mov32 .sse) moves_mov16) moves_mov16 (by dsimp only; omega)
      h64 (by omega) (Nat.zero_le _) (Nat.zero_le _)
  rw [if_neg h64]
  by_cases h128 : n ≤ 128
  · rw [if_pos h128]
    exact copyBlock128Back15_spec hstart (by omega) h128
  rw [if_neg h128]
  by_cases h512 : n ≤ 512
  · rw [if_pos h512]
    obtain ⟨o, hat, -, hlen⟩ :=
      step_if hstart (Moves.seq (moves_mov128 .sse) (moves_mov128 .sse))
    refine copyBlock255Back15_spec hat (by omega) ?_
    refine hlen.trans_le ?_
    dsimp only
    split_ifs <;> omega
  rw [if_neg h512]
  -- the destination is aligned, with at least 16 bytes copied unless it was
  obtain ⟨o, c, hat, hlong, hc⟩ := @prologue m dst src n 32 (16 - (dst &&& 0x0F) + 16) _ hap
    (moves_mov32 .sse) (by omega) (by omega) (0 < dst &&& 0x0F) _
  dsimp only
  rw [hc]
  by_cases haligned : c.src &&& 0x0F = 0
  · rw [if_pos haligned]
    obtain ⟨o', q, hat', -, hlt, -⟩ :=
      @Cursor.At.blockLoop m dst src n o 256 0 _ c 0 (by decide) moves_mov256Sse hat (Nat.zero_le _)
    exact copyBlock255Back15_spec hat' (by omega) (by omega)
  · rw [if_neg haligned]
    have hmod : c.src &&& 0x0F = c.src % 16 := Nat.and_two_pow_sub_one_eq_mod c.src 4
    rw [hmod] at haligned ⊢
    have hle := Nat.mod_le c.src 16
    have hlt := Nat.mod_lt c.src (show 0 < 16 by decide)
    have hsrc := hat.src
    obtain ⟨o', hat', hleft⟩ :=
      @moveunalignedLeft47_spec m dst src n o c (c.src % 16) hat (by omega) (by omega) (by omega)
        (by omega)
    exact copyBlock64Back15_spec hat' (by omega) (by omega)

theorem genericAvx2_spec (hap : src + n ≤ dst ∨ dst + n ≤ src) :
    Copied m dst src n n (rteMemcpyGenericAvx2 m dst src n) := by
  have hstart := @Cursor.At.start m dst src n hap
  rw [rteMemcpyGenericAvx2]
  by_cases h16 : n < 16
  · rw [if_pos h16]
    exact copyLess16_spec hap h16
  rw [if_neg h16]
  by_cases h32 : n ≤ 32
  · rw [if_pos h32]
    exact hstart.blockTail moves_mov16 moves_mov16 (by dsimp only; omega) h32 (by omega) (Nat.zero_le _)
      (Nat.zero_le _)
  rw [if_neg h32]
  by_cases h48 : n ≤ 48
  · rw [if_pos h48]
    exact hstart.blockTail (Moves.seq moves_mov16 moves_mov16) moves_mov16 (by dsimp only; omega) h48
      (by omega) (Nat.zero_le _) (Nat.zero_le _)
  rw [if_neg h48]
  by_cases h64 : n ≤ 64
  · rw [if_pos h64]
    exact hstart.blockTail (moves_mov32 .avx2) (moves_mov32 .avx2) (by dsimp only; omega) h64 (by omega)
      (Nat.zero_le _) (Nat.zero_le _)
  rw [if_neg h64]
  by_cases h256 : n ≤ 256
  · rw [if_pos h256]
    obtain ⟨o, hat, -, hlen⟩ := step_if hstart (moves_mov128 .avx2)
    refine copyBlock128Back31_spec hat (by omega) (hlen.trans_le ?_)
    dsimp only
    split_ifs <;> omega
  rw [if_neg h256]
  obtain ⟨o, c, hat, -, hc⟩ := @prologue m dst src n 32 (32 - (dst &&& 0x1F)) _ hap
    (moves_mov32 .avx2) (by omega) (by omega) (0 < dst &&& 0x1F) _
  dsimp only
  rw [hc]
  obtain ⟨o', hat', hlt⟩ := @skipBlocks_spec m dst src n o 7 c _ (by decide) (moves_loads 32 4) hat
  exact copyBlock128Back31_spec hat' (by omega) hlt.le

theorem genericAvx512_spec (hap : src + n ≤ dst ∨ dst + n ≤ src) :
    Copied m dst src n n (rteMemcpyGenericAvx512 m dst src n) := by
  have hstart := @Cursor.At.start m dst src n hap
  rw [rteMemcpyGenericAvx512]
  by_cases h16 : n < 16
  · rw [if_pos h16]
    exact copyLess16_spec hap h16
  rw [if_neg h16]
  by_cases h32 : n ≤ 32
  · rw [if_pos h32]
    exact hstart.blockTail moves_mov16 moves_mov16 (by dsimp only; omega) h32 (by omega) (Nat.zero_le _)
      (Nat.zero_le _)
  rw [if_neg h32]
  by_cases h64 : n ≤ 64
  · rw [if_pos h64]
    exact hstart.blockTail (moves_mov32 .avx512) (moves_mov32 .avx512) (by dsimp only; omega) h64
      (by omega) (Nat.zero_le _) (Nat.zero_le _)
  rw [if_neg h64]
  by_cases h512 : n ≤ 512
  · rw [if_pos h512]
    obtain ⟨o₁, hat₁, -, hlen₁⟩ := step_if hstart moves_mov256Avx512
    obtain ⟨o₂, hat₂, -, hlen₂⟩ := step_if hat₁ (moves_mov128 .avx512)
    refine copyBlock128Back63_spec hat₂ (by omega) (hlen₂.trans_le ?_)
    rw [hlen₁]
    dsimp only
    split_ifs <;> omega
  rw [if_neg h512]
  obtain ⟨o, c, hat, -, hc⟩ := @prologue m dst src n 64 (64 - (dst &&& 0x3F)) _ hap
    (moves_mov64 .avx512) (by omega) (by omega) (0 < dst &&& 0x3F) _
  dsimp only
  rw [hc]
  obtain ⟨o₁, hat₁, -⟩ := @skipBlocks_spec m dst src n o 9 c _ (by decide) (moves_loads 64 8) hat
  split_ifs with hmore
  · obtain ⟨o₂, hat₂, hlt⟩ :=
      @skipBlocks_spec m dst src n o₁ 7 _ _ (by decide) (moves_loads 64 2) hat₁
    exact copyBlock128Back63_spec hat₂ (by omega) hlt.le
  · exact copyBlock128Back63_spec hat₁ (by omega) (by omega)

theorem aligned_spec (b : Build) (hap : src + n ≤ dst ∨ dst + n ≤ src) :
    Copied m dst src n n (rteMemcpyAligned b m dst src n) := by
  have hstart := @Cursor.At.start m dst src n hap
  rw [rteMemcpyAligned]
  split_ifs with h16 h32 h64
  · exact copyLess16_spec hap h16
  · exact hstart.blockTail moves_mov16 moves_mov16 (by dsimp only; omega) h32 (by omega) (Nat.zero_le _)
      (Nat.zero_le _)
  · exact hstart.blockTail (moves_mov32 b) (moves_mov32 b) (by dsimp only; omega) h64 (by omega)
      (Nat.zero_le _) (Nat.zero_le _)
  · obtain ⟨o, q, hat, -, hlt, -⟩ :=
      @Cursor.At.blockLoop m dst src n 0 64 0 _ _ 0 (by decide) (moves_mov64 b) hstart (Nat.zero_le _)
    exact hat.tail (moves_mov64 b) hlt.le (by omega) (Nat.zero_le _)

theorem generic_spec (b : Build) (hap : src + n ≤ dst ∨ dst + n ≤ src) :
    Copied m dst src n n (rteMemcpyGeneric b m dst src n) := by
  cases b with
  | sse => exact genericSse_spec hap
  | avx2 => exact genericAvx2_spec hap
  | avx512 => exact genericAvx512_spec hap

/-- **`rte_memcpy` copies the bytes**, in every build, for every length and every alignment, and changes
nothing else. -/
theorem rteMemcpy_copies (b : Build) (hap : src + n ≤ dst ∨ dst + n ≤ src) :
    ∃ m', rteMemcpy b m dst src n = (dst, m') ∧ (∀ i < n, m' (dst + i) = m (src + i)) ∧
      ∀ x, x < dst ∨ dst + n ≤ x → m' x = m x := by
  have hcopied : ∃ m', rteMemcpy b m dst src n = (dst, m') ∧ Copied m dst src n n m' := by
    rw [rteMemcpy]
    split_ifs
    · exact ⟨_, rfl, aligned_spec b hap⟩
    · exact ⟨_, rfl, generic_spec b hap⟩
  obtain ⟨m', hcode, hdone⟩ := hcopied
  exact ⟨m', hcode, hdone.done, hdone.frame⟩

end

/-- A thousand bytes to an unaligned address, with shifted loads. -/
theorem rteMemcpy_copies_thousand : ∃ m',
    rteMemcpy .sse (fun x => UInt8.ofNat x) 1003 5000 1000 = (1003, m') ∧
      ∀ i < 1000, m' (1003 + i) = UInt8.ofNat (5000 + i) := by
  obtain ⟨m', hcode, hdone, -⟩ :=
    @rteMemcpy_copies (fun x => UInt8.ofNat x) 1003 5000 1000 .sse (.inr (by decide))
  exact ⟨m', hcode, hdone⟩

end RteMemcpy
