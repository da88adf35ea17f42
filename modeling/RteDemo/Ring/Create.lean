import RteDemo.Common
import RteDemo.Ring.Fifo
import Mathlib.Data.Nat.Log

/-!
# `rte_ring_create` and `rte_ring_init`

How many slots a ring has and how much memory is reserved for it. Both functions round an exact count
up in 32 bits, and both test for a power of two with a macro that accepts `0`; the theorem
`roomForAll_iff` says which counts that admits.
-/

namespace Ring

open RteDemo

/-! ## Rounding up to a power of two -/

/-- `rte_align32pow2` -/
def rteAlign32pow2 (x : Nat) : Nat :=
  let x := Word.sub 32 x 1
  let x := x ||| x >>> 1
  let x := x ||| x >>> 2
  let x := x ||| x >>> 4
  let x := x ||| x >>> 8
  let x := x ||| x >>> 16
  Word.add 32 x 1

/-- `y` has a bit at `i` when `x` has one at `i` or less than `k` above it. -/
def Smeared (x k y : Nat) : Prop := ∀ i, y.testBit i = true ↔ ∃ d < k, x.testBit (i + d) = true

theorem smeared_one (x : Nat) : Smeared x 1 x := fun i =>
  ⟨fun h => ⟨0, by decide, h⟩, fun ⟨d, hd, h⟩ => by
    obtain rfl : d = 0 := by omega
    exact h⟩

theorem Smeared.double {x k y : Nat} (h : Smeared x k y) : Smeared x (k + k) (y ||| y >>> k) := by
  intro i
  rw [Nat.testBit_or, Nat.testBit_shiftRight, Bool.or_eq_true, h i, h (k + i)]
  constructor
  · rintro (⟨d, hd, hx⟩ | ⟨d, hd, hx⟩)
    · exact ⟨d, by omega, hx⟩
    · exact ⟨k + d, by omega, by rwa [← Nat.add_assoc, Nat.add_comm i k]⟩
  · rintro ⟨d, hd, hx⟩
    rcases Nat.lt_or_ge d k with hlt | hge
    · exact .inl ⟨d, hlt, hx⟩
    · exact .inr ⟨d - k, by omega, by rwa [show k + i + (d - k) = i + d by omega]⟩

/-- Smearing over the width of a word fills up everything below the highest bit. -/
theorem Smeared.eq {x y : Nat} (h : Smeared x 32 y) (hx : x < 2 ^ 32) (h0 : x ≠ 0) :
    y = 2 ^ (Nat.log2 x + 1) - 1 := by
  have hlog : Nat.log2 x < 32 := (Nat.log2_lt h0).2 hx
  refine Nat.eq_of_testBit_eq fun i => Bool.eq_iff_iff.2 ?_
  rw [h i, Nat.testBit_two_pow_sub_one, decide_eq_true_eq]
  constructor
  · rintro ⟨d, -, hd⟩
    by_contra hlt
    have hlow : x < 2 ^ (i + d) :=
      Nat.lt_log2_self.trans_le (Nat.pow_le_pow_right (by decide) (by omega))
    rw [Nat.testBit_lt_two_pow hlow] at hd
    cases hd
  · intro hi
    refine ⟨Nat.log2 x - i, by omega, ?_⟩
    rw [show i + (Nat.log2 x - i) = Nat.log2 x by omega]
    exact Nat.testBit_log2 h0

theorem rteAlign32pow2_smeared (x : Nat) :
    ∃ y, Smeared (Word.sub 32 x 1) 32 y ∧ rteAlign32pow2 x = Word.add 32 y 1 :=
  ⟨_, (smeared_one _).double.double.double.double.double, rfl⟩

/-- The next power of two, when it fits into 32 bits. -/
theorem rteAlign32pow2_eq {x : Nat} (h1 : 1 ≤ x) (hx : x ≤ 2 ^ 31) :
    ∃ k ≤ 31, rteAlign32pow2 x = 2 ^ k ∧ x ≤ 2 ^ k := by
  obtain ⟨y, hy, heq⟩ := rteAlign32pow2_smeared x
  rw [Word.sub_eq h1 (by omega)] at hy
  rcases Nat.eq_or_lt_of_le h1 with rfl | h2
  · refine ⟨0, by decide, ?_, by decide⟩
    have h0 : y = 0 := Nat.eq_of_testBit_eq fun i => by
      rw [Nat.zero_testBit]
      refine Bool.eq_false_iff.2 fun hi => ?_
      obtain ⟨d, -, hd⟩ := (hy i).1 hi
      rw [Nat.sub_self, Nat.zero_testBit] at hd
      cases hd
    rw [heq, h0]
    rfl
  · have hlog : Nat.log2 (x - 1) < 31 := (Nat.log2_lt (by omega)).2 (by omega)
    have hpow : 2 ^ (Nat.log2 (x - 1) + 1) ≤ 2 ^ 31 := Nat.pow_le_pow_right (by decide) hlog
    have hpos := Nat.two_pow_pos (Nat.log2 (x - 1) + 1)
    have hlt : x - 1 < 2 ^ (Nat.log2 (x - 1) + 1) := Nat.lt_log2_self
    refine ⟨_, hlog, ?_, by omega⟩
    rw [heq, hy.eq (by omega) (by omega), Word.add_eq (by omega)]
    omega

theorem rteAlign32pow2_eq_zero {x : Nat} (hx : x < 2 ^ 32) (h : x = 0 ∨ 2 ^ 31 < x) :
    rteAlign32pow2 x = 0 := by
  obtain ⟨y, hy, heq⟩ := rteAlign32pow2_smeared x
  have hsub : 2 ^ 31 ≤ Word.sub 32 x 1 ∧ Word.sub 32 x 1 < 2 ^ 32 := by
    unfold Word.sub
    omega
  have hlog : Nat.log2 (Word.sub 32 x 1) = 31 := by
    have hlt := (Nat.log2_lt (n := Word.sub 32 x 1) (k := 32) (by omega)).2 hsub.2
    have hge : ¬Nat.log2 (Word.sub 32 x 1) < 31 := fun hlt' =>
      absurd ((Nat.log2_lt (by omega)).1 hlt') (Nat.not_lt.2 hsub.1)
    omega
  rw [heq, hy.eq hsub.2 (by omega), hlog]
  rfl

/-! ## The functions -/

/-- `RTE_RING_SZ_MASK` -/
@[simp] def rteRingSzMask : Nat := 0x7fffffff
/-- `RTE_MEMZONE_NAMESIZE`, and the size of the `name` field of a ring. -/
@[simp] def rteMemzoneNamesize : Nat := 32
/-- `sizeof(struct rte_ring)` -/
@[simp] def sizeofRteRing : Nat := 384
/-- `EINVAL` -/
@[simp] def einval : Int := 22
/-- `ENOMEM` -/
@[simp] def enomem : Int := 12
/-- `ENAMETOOLONG` -/
@[simp] def enametoolong : Int := 36

/-- `flags & RING_F_EXACT_SZ` -/
def exactSz (flags : Nat) : Bool := flags &&& 4 != 0

/-- `POWEROF2` -/
def powerof2 (x : Nat) : Bool := Word.sub 32 x 1 &&& x == 0

/-- `rte_ring_get_memsize` -/
def rteRingGetMemsize (count : Nat) : Int :=
  if ¬powerof2 count ∨ count > rteRingSzMask then -einval
  else (rteAlignFloor (sizeofRteRing + count * 8 + 63) 63 : Nat)

variable {α : Type}

/-- `rte_ring_init`, with what it returns. -/
def rteRingInit (r : RteRing α) (name : String) (count flags : Nat) : RteRing α × Int :=
  let r : RteRing α :=
    { r with size := 0, mask := 0, capacity := 0, prod := ⟨0, 0⟩, cons := ⟨0, 0⟩ }
  if name.utf8ByteSize ≥ rteMemzoneNamesize then (r, -enametoolong)
  else if exactSz flags then
    let size := rteAlign32pow2 (Word.add 32 count 1)
    ({ r with size := size, mask := Word.sub 32 size 1, capacity := count }, 0)
  else if ¬powerof2 count ∨ count > rteRingSzMask then (r, -einval)
  else ({ r with size := count, mask := Word.sub 32 count 1, capacity := Word.sub 32 count 1 }, 0)

/-- What `rte_ring_create` meets: whether the heap has room for the list entry, and the error that
`rte_memzone_reserve_aligned` sets, if it fails. -/
structure Env where
  tailqEntry : Bool
  reserve : Option Int

/-- The length of the memzone that `rte_memzone_reserve_aligned` returns for `len` bytes. -/
def memzoneLen (len : Nat) : Nat := max 64 (rteAlignFloor (Word.add 64 len 63) 63)

/-- The count from which `rte_ring_create` computes the size: for an exact size the number of slots is
rounded up. -/
def rounded (count flags : Nat) : Nat :=
  if exactSz flags then rteAlign32pow2 (Word.add 32 count 1) else count

/-- `rte_ring_create`: the ring in the memory `mem` of its memzone and the length of this, or
`rte_errno`. -/
def rteRingCreate (env : Env) (mem : RteRing α) (name : String) (count flags : Nat) :
    Except Int (RteRing α × Nat) :=
  let ringSize := rteRingGetMemsize (rounded count flags)
  -- the error is negative already
  if ringSize < 0 then .error ringSize
  else if "RG_".utf8ByteSize + name.utf8ByteSize ≥ rteMemzoneNamesize then .error enametoolong
  else if ¬env.tailqEntry then .error enomem
  else
    match env.reserve with
    | some errno => .error errno
    | none => .ok ((rteRingInit mem name count flags).1, memzoneLen ringSize.toNat)

/-! ## The counts that are accepted -/

theorem powerof2_iff {x : Nat} (hx : x < 2 ^ 32) : powerof2 x = true ↔ x = 0 ∨ ∃ k, x = 2 ^ k := by
  rw [powerof2, beq_iff_eq]
  rcases Nat.eq_zero_or_pos x with rfl | hpos
  · simp
  · rw [Word.sub_eq hpos hx, Nat.land_comm]
    have hiff := Nat.ne_zero_and_sub_one_eq_zero_iff_isPowerOfTwo (n := x)
    constructor
    · intro h
      exact .inr (hiff.1 ⟨by omega, h⟩)
    · rintro (rfl | h)
      · exact absurd hpos (Nat.lt_irrefl 0)
      · exact (hiff.2 h).2

/-- Where the memory of a size is known, the size is a power of two or `0`. -/
theorem getMemsize_nonneg {count : Nat} (h : ¬rteRingGetMemsize count < 0) :
    powerof2 count = true ∧ count ≤ rteRingSzMask ∧
      rteRingGetMemsize count = (rteAlignFloor (sizeofRteRing + count * 8 + 63) 63 : Nat) := by
  unfold rteRingGetMemsize at h ⊢
  split at h
  · exact absurd (by decide) h
  · rename_i hc
    rw [if_neg hc]
    rw [not_or, not_not, Nat.not_lt] at hc
    exact ⟨hc.1, hc.2, rfl⟩

/-- An enqueue writes to slots in front of the end of the array only. -/
theorem enqueuePtrs_of_ge {r : RteRing α} {k n x : Nat} (hv : Valid r k) (hn : n < 2 ^ k)
    (head : Nat) (tbl : Nat → α) (hx : 2 ^ k ≤ x) : enqueuePtrs r head tbl n x = r.slots x := by
  have hpow := hv.pow_le
  have hmod := Nat.mod_lt head (Nat.two_pow_pos k)
  rw [enqueuePtrs, hv.mask, Word.land_mask, hv.size, Word.add_eq (by omega)]
  simp only
  split
  · have hcopy := copy_unrolled tbl r.slots 0 (head % 2 ^ k) (show n < 2 ^ 32 by omega)
    rw [Nat.zero_add] at hcopy
    rw [hcopy, copy_apply, if_neg (by omega)]
  · rw [copy_apply, if_neg (by omega), copy_apply, if_neg (by omega)]

/-! ## Room for every slot -/

/-- The ring is in order, with room for its slots in `bytes` bytes: whatever enqueue later comes,
it writes inside of them. -/
structure Sound (r : RteRing α) (count flags bytes : Nat) : Prop where
  size : ∃ k, r.size = 2 ^ k
  mask : r.mask = r.size - 1
  capacity : r.capacity = if exactSz flags then count else count - 1
  capacity_le : r.capacity ≤ r.size - 1
  room : sizeofRteRing + r.size * 8 ≤ bytes
  writes : ∀ (slots : Nat → α) (head n : Nat) (tbl : Nat → α) (x : Nat), n ≤ r.capacity →
    enqueuePtrs { r with slots := slots } head tbl n x ≠ slots x →
      sizeofRteRing + (x + 1) * 8 ≤ bytes

/-- Every ring that is created by this call, and every ring that is initialised in memory of the size
asked for, is in order. -/
def RoomForAll (α : Type) (name : String) (count flags : Nat) : Prop :=
  (∀ env (mem r : RteRing α) bytes,
    rteRingCreate env mem name count flags = .ok (r, bytes) → Sound r count flags bytes) ∧
  ∀ (mem : RteRing α) (bytes : Nat), rteRingGetMemsize (rounded count flags) = bytes →
    (rteRingInit mem name count flags).2 = 0 →
      Sound (rteRingInit mem name count flags).1 count flags bytes

/-- The count can be rounded up to a power of two that a word holds. -/
def Roundable (count flags : Nat) : Prop :=
  if exactSz flags then count < 2 ^ 31 else count ≠ 0

theorem rounded_ne_zero {count flags : Nat} (hcount : count < 2 ^ 32) :
    rounded count flags ≠ 0 ↔ Roundable count flags := by
  unfold rounded Roundable
  split
  · constructor
    · intro h
      by_contra hge
      refine h (rteAlign32pow2_eq_zero (Word.add_lt 32 count 1) ?_)
      unfold Word.add
      omega
    · intro h h0
      obtain ⟨k, -, hk, -⟩ := rteAlign32pow2_eq (x := count + 1) (by omega) (by omega)
      rw [Word.add_eq (by omega), hk] at h0
      exact absurd h0 (Nat.two_pow_pos k).ne'
  · exact Iff.rfl

theorem rounded_lt (count flags : Nat) (hcount : count < 2 ^ 32) : rounded count flags < 2 ^ 32 := by
  unfold rounded
  split
  · exact Word.add_lt 32 _ 1
  · exact hcount

/-- What `rte_ring_init` sets up for a count whose memory size is known. -/
theorem rteRingInit_eq {count flags : Nat} (mem : RteRing α) {name : String}
    (hname : name.utf8ByteSize < rteMemzoneNamesize)
    (hsize : ¬rteRingGetMemsize (rounded count flags) < 0) :
    rteRingInit mem name count flags =
      ({ mem with
          size := rounded count flags
          mask := Word.sub 32 (rounded count flags) 1
          capacity := if exactSz flags then count else Word.sub 32 count 1
          prod := ⟨0, 0⟩
          cons := ⟨0, 0⟩ }, 0) := by
  obtain ⟨hp2, hle, -⟩ := getMemsize_nonneg hsize
  unfold rteRingInit
  rw [if_neg (Nat.not_le.2 hname)]
  unfold rounded at hp2 hle ⊢
  split
  · rfl
  · rename_i he
    rw [if_neg he] at hp2 hle
    rw [if_neg (by simp only [not_or, not_not, Nat.not_lt]; exact ⟨hp2, hle⟩)]

/-- A roundable count makes a ring in order, in as much memory as was asked for or more. -/
theorem sound_of_roundable {count flags bytes : Nat} (mem : RteRing α) {name : String}
    (hname : name.utf8ByteSize < rteMemzoneNamesize) (hcount : count < 2 ^ 32)
    (hsize : ¬rteRingGetMemsize (rounded count flags) < 0) (hr : Roundable count flags)
    (hbytes : (rteRingGetMemsize (rounded count flags)).toNat ≤ bytes) :
    Sound (rteRingInit mem name count flags).1 count flags bytes := by
  have h0 := (rounded_ne_zero hcount).2 hr
  have hlt := rounded_lt count flags hcount
  obtain ⟨hp2, hle, hmem⟩ := getMemsize_nonneg hsize
  have hle' : rounded count flags ≤ 2 ^ 31 - 1 := hle
  obtain ⟨k, hk⟩ := ((powerof2_iff hlt).1 hp2).resolve_left h0
  have hk31 : k < 31 := (Nat.pow_lt_pow_iff_right (by decide : 1 < 2)).1 (by omega)
  have hround : sizeofRteRing + rounded count flags * 8 ≤ bytes := by
    have hfloor := rteAlignFloor_cacheLine (v := sizeofRteRing + rounded count flags * 8 + 63)
      (by have hs : sizeofRteRing = 384 := rfl; omega)
    rw [hmem, Int.toNat_natCast, hfloor] at hbytes
    omega
  -- the capacity is below the size in both branches
  have hcap : (if exactSz flags then count else Word.sub 32 count 1) =
      (if exactSz flags then count else count - 1) ∧
      (if exactSz flags then count else count - 1) ≤ rounded count flags - 1 := by
    unfold Roundable at hr
    unfold rounded
    split
    · rename_i he
      rw [if_pos he] at hr
      obtain ⟨k', -, hk', hle'⟩ := rteAlign32pow2_eq (x := count + 1) (by omega) (by omega)
      rw [Word.add_eq (by omega), hk']
      exact ⟨rfl, by omega⟩
    · rename_i he
      rw [if_neg he] at hr
      exact ⟨Word.sub_eq (by omega) hcount, le_rfl⟩
  have hmask : Word.sub 32 (rounded count flags) 1 = rounded count flags - 1 :=
    Word.sub_eq (by omega) hlt
  rw [rteRingInit_eq mem hname hsize, hmask, hcap.1]
  refine ⟨⟨k, hk⟩, rfl, rfl, hcap.2, hround, fun slots head n tbl x hn hx => ?_⟩
  have hv : Valid (α := α) ⟨rounded count flags, rounded count flags - 1,
      if exactSz flags then count else count - 1, ⟨0, 0⟩, ⟨0, 0⟩, slots⟩ k :=
    ⟨by omega, hk, by rw [← hk], by
      have hc := hcap.2
      change (if exactSz flags then count else count - 1) < 2 ^ k
      omega⟩
  have hxlt : x < 2 ^ k := by
    by_contra hge
    exact hx (enqueuePtrs_of_ge hv (Nat.lt_of_le_of_lt hn hv.capacity) head tbl (Nat.le_of_not_lt hge))
  omega

theorem le_memzoneLen {len : Nat} (h : len + 63 < 2 ^ 64) : len ≤ memzoneLen len := by
  have hfloor := rteAlignFloor_cacheLine h
  unfold memzoneLen
  rw [Word.add_eq h, hfloor]
  omega

/-- A count that cannot be rounded makes a ring without slots. -/
theorem not_sound_of_not_roundable {count flags : Nat} (bytes : Nat) (mem : RteRing α) {name : String}
    (hname : name.utf8ByteSize < rteMemzoneNamesize) (hcount : count < 2 ^ 32)
    (hr : ¬Roundable count flags) :
    (rteRingInit mem name count flags).2 = 0 ∧
      ¬Sound (rteRingInit mem name count flags).1 count flags bytes := by
  have h0 : rounded count flags = 0 := not_not.1 fun h => hr ((rounded_ne_zero hcount).1 h)
  have hsize : ¬rteRingGetMemsize (rounded count flags) < 0 := by
    rw [h0]
    decide
  rw [rteRingInit_eq mem hname hsize]
  refine ⟨rfl, fun hs => ?_⟩
  obtain ⟨k, hk⟩ := hs.size
  exact absurd (h0.symm.trans hk) (Nat.two_pow_pos k).ne

theorem rteRingCreate_ok {env : Env} {mem r : RteRing α} {name : String} {count flags bytes : Nat}
    (h : rteRingCreate env mem name count flags = .ok (r, bytes)) :
    ¬rteRingGetMemsize (rounded count flags) < 0 ∧ name.utf8ByteSize < rteMemzoneNamesize ∧
      r = (rteRingInit mem name count flags).1 ∧
      bytes = memzoneLen (rteRingGetMemsize (rounded count flags)).toNat := by
  unfold rteRingCreate at h
  simp only at h
  split at h
  · cases h
  · rename_i hsize
    split at h
    · cases h
    · rename_i hname
      split at h
      · cases h
      · split at h
        · cases h
        · have hprefix : "RG_".utf8ByteSize = 3 := by decide
          have hns : rteMemzoneNamesize = 32 := rfl
          obtain ⟨rfl, rfl⟩ := Prod.mk.inj (Except.ok.inj h)
          exact ⟨hsize, by omega, rfl, rfl⟩

/-- Every ring that is created or initialised has room for its slots, for exactly the counts that can
be rounded up, and for the names that are refused. -/
theorem roomForAll_iff [Nonempty α] (name : String) {count : Nat} (hcount : count < 2 ^ 32)
    (flags : Nat) :
    RoomForAll α name count flags ↔
      Roundable count flags ∨ rteMemzoneNamesize ≤ name.utf8ByteSize := by
  constructor
  · rintro ⟨-, hinit⟩
    by_contra hnot
    rw [not_or, Nat.not_le] at hnot
    obtain ⟨x⟩ := ‹Nonempty α›
    have h0 : rounded count flags = 0 := not_not.1 fun h => hnot.1 ((rounded_ne_zero hcount).1 h)
    have hbad := not_sound_of_not_roundable sizeofRteRing
      (⟨0, 0, 0, ⟨0, 0⟩, ⟨0, 0⟩, fun _ => x⟩ : RteRing α) hnot.2 hcount hnot.1
    exact hbad.2 (hinit _ _ (by rw [h0]; rfl) hbad.1)
  · intro h
    refine ⟨fun env mem r bytes hcreate => ?_, fun mem bytes hbytes hret => ?_⟩
    · obtain ⟨hsize, hshort, rfl, rfl⟩ := rteRingCreate_ok hcreate
      obtain ⟨-, hle, hmem⟩ := getMemsize_nonneg hsize
      have hs : sizeofRteRing = 384 := rfl
      have hle' : rounded count flags ≤ 2 ^ 31 - 1 := hle
      have hfloor := rteAlignFloor_cacheLine
        (v := sizeofRteRing + rounded count flags * 8 + 63) (by omega)
      refine sound_of_roundable mem hshort hcount hsize (h.resolve_right (by omega))
        (le_memzoneLen ?_)
      rw [hmem, Int.toNat_natCast]
      omega
    · rcases Nat.lt_or_ge name.utf8ByteSize rteMemzoneNamesize with hshort | hlong
      · have hsize : ¬rteRingGetMemsize (rounded count flags) < 0 := by
          rw [hbytes]
          omega
        exact sound_of_roundable mem hshort hcount hsize (h.resolve_right (by omega)) (by omega)
      · rw [rteRingInit, if_pos hlong] at hret
        exact absurd hret (show ¬-enametoolong = 0 by decide)

/-- A count of `0`, which is no power of two, is accepted. -/
theorem not_roomForAll_zero : ¬RoomForAll Nat "r" 0 0 := by
  rintro ⟨hcreate, -⟩
  have hs := hcreate ⟨true, none⟩ ⟨0, 0, 0, ⟨0, 0⟩, ⟨0, 0⟩, fun _ => 0⟩ _ _ rfl
  obtain ⟨k, hk⟩ := hs.size
  exact absurd (show (0 : Nat) = 2 ^ k from hk) (Nat.two_pow_pos k).ne

theorem roomForAll_iff_four :
    RoomForAll Nat "r" 4 0 ↔ Roundable 4 0 ∨ rteMemzoneNamesize ≤ "r".utf8ByteSize :=
  roomForAll_iff (α := Nat) "r" (by decide) 0

end Ring
