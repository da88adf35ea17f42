import RteDemo.Common
import Mathlib.NumberTheory.Bertrand

/-!
# `rte_mempool_calc_obj_size`

The element is rounded up to 8 bytes, the trailer fills the last cache line, and unless the pool is
not spread the whole grows to a number of cache lines that is coprime to the number of channels and
ranks. All of it is computed in 32 bits.

`calcObjSize_sound_iff` says for which inputs nothing is lost. The search for the coprime number ends
inside the word for every count of channels and ranks but `0`: there is a coprime number in every
range of `2 ^ 26` (`exists_coprime`), so a search that leaves the word comes back too small.
-/

namespace Mempool

open RteDemo

/-- `RTE_ALIGN_CEIL` on a `w`-bit word -/
def rteAlignCeil (w val align : Nat) : Nat := Word.add w val (align - 1) &&& Word.not w (align - 1)

/-- `MEMPOOL_F_NO_SPREAD` -/
def mempoolFNoSpread : Nat := 0x0001

/-- `MEMPOOL_F_NO_CACHE_ALIGN` -/
def mempoolFNoCacheAlign : Nat := 0x0002

/-- `sizeof(struct rte_mempool_objhdr)` -/
def sizeofObjhdr : Nat := 16

/-- `RTE_MEMPOOL_ALIGN` -/
def rteMempoolAlign : Nat := rteCacheLineSize

/-- The loop of `get_gcd` -/
def getGcdLoop : Nat → Nat → Nat → Nat
  | 0, a, _ => a
  | fuel + 1, a, b => if b ≠ 0 then getGcdLoop fuel b (a % b) else a

/-- `get_gcd` -/
def getGcd (a b : Nat) : Nat :=
  if a = 0 then b
  else if b = 0 then a
  else
    let (a, b) := if a < b then (b, a) else (a, b)
    getGcdLoop (b + 1) a b

/-- The loop of `optimize_object_size` -/
def spreadLoop (n : Nat) : Nat → Nat → Nat
  | 0, newObjSize => newObjSize
  | fuel + 1, newObjSize =>
    if getGcd newObjSize n ≠ 1 then spreadLoop n fuel (Word.add 32 newObjSize 1) else newObjSize

/-- `nrank * nchan`, with the defaults for unknown counts. -/
def spreadCount (nchan nrank : Nat) : Nat :=
  Word.mul 32 (if nrank = 0 then 1 else nrank) (if nchan = 0 then 4 else nchan)

/-- `optimize_object_size`; the loop comes to `1` within `2 ^ 32` steps. -/
def optimizeObjectSize (nchan nrank objSize : Nat) : Nat :=
  Word.mul 32 (spreadLoop (spreadCount nchan nrank) (2 ^ 32)
    (Word.add 32 objSize (rteMempoolAlign - 1) / rteMempoolAlign)) rteMempoolAlign

/-- `struct rte_mempool_objsz` -/
structure RteMempoolObjsz where
  eltSize : Nat
  headerSize : Nat
  trailerSize : Nat
  totalSize : Nat
  deriving DecidableEq

/-- `rte_mempool_calc_obj_size`; the result is `totalSize`. -/
def rteMempoolCalcObjSize (eltSize flags nchan nrank : Nat) : RteMempoolObjsz :=
  let headerSize :=
    if flags &&& mempoolFNoCacheAlign = 0 then rteAlignCeil 32 sizeofObjhdr rteMempoolAlign
    else sizeofObjhdr
  let eltSize := rteAlignCeil 32 eltSize 8
  let trailerSize :=
    if flags &&& mempoolFNoCacheAlign = 0 then
      let totalSize := Word.add 32 (Word.add 32 headerSize eltSize) 0
      Word.add 32 0 (Word.sub 32 rteMempoolAlign (totalSize &&& (rteMempoolAlign - 1)) &&&
        (rteMempoolAlign - 1))
    else 0
  let trailerSize :=
    if flags &&& mempoolFNoSpread = 0 then
      let newSize := optimizeObjectSize nchan nrank
        (Word.add 32 (Word.add 32 headerSize eltSize) trailerSize)
      Word.sub 32 (Word.sub 32 newSize headerSize) eltSize
    else trailerSize
  ⟨eltSize, headerSize, trailerSize, Word.add 32 (Word.add 32 headerSize eltSize) trailerSize⟩

example : rteMempoolCalcObjSize 130 0 0 0 = ⟨136, 64, 120, 320⟩ := by decide

/-! ## The loops -/

theorem getGcdLoop_eq {fuel : Nat} : ∀ {a b : Nat}, b < fuel → getGcdLoop fuel a b = Nat.gcd a b := by
  induction fuel with
  | zero => exact fun h => absurd h (Nat.not_lt_zero _)
  | succ fuel ih =>
    intro a b h
    rw [getGcdLoop]
    by_cases hb : b = 0
    · rw [if_neg (not_not.mpr hb), hb, Nat.gcd_zero_right]
    · have hlt := Nat.mod_lt a (Nat.pos_of_ne_zero hb)
      rw [if_pos hb, ih (by omega), Nat.gcd_comm b, ← Nat.gcd_rec, Nat.gcd_comm]

theorem getGcd_eq (a b : Nat) : getGcd a b = Nat.gcd a b := by
  rw [getGcd]
  by_cases ha : a = 0
  · rw [if_pos ha, ha, Nat.gcd_zero_left]
  by_cases hb : b = 0
  · rw [if_neg ha, if_pos hb, hb, Nat.gcd_zero_right]
  rw [if_neg ha, if_neg hb]
  by_cases hlt : a < b
  · rw [if_pos hlt, Nat.gcd_comm]
    exact getGcdLoop_eq (Nat.lt_succ_self a)
  · rw [if_neg hlt]
    exact getGcdLoop_eq (Nat.lt_succ_self b)

/-- The search stops at the first number coprime to `n`. -/
theorem spreadLoop_eq {n : Nat} : ∀ {j fuel x : Nat}, j < fuel → x < 2 ^ 32 →
    (∀ i < j, ¬Nat.Coprime ((x + i) % 2 ^ 32) n) → Nat.Coprime ((x + j) % 2 ^ 32) n →
      spreadLoop n fuel x = (x + j) % 2 ^ 32
  | 0, fuel + 1, x, _, hx, _, hj => by
    rw [Nat.add_zero, Nat.mod_eq_of_lt hx] at hj
    rw [spreadLoop, getGcd_eq, if_neg (not_not.mpr hj), Nat.add_zero, Nat.mod_eq_of_lt hx]
  | j + 1, fuel + 1, x, hfuel, hx, hno, hj => by
    have h0 := hno 0 (Nat.succ_pos j)
    rw [Nat.add_zero, Nat.mod_eq_of_lt hx] at h0
    have hshift : ∀ i, (Word.add 32 x 1 + i) % 2 ^ 32 = (x + (i + 1)) % 2 ^ 32 := fun i => by
      rw [Word.add, Nat.mod_add_mod, Nat.add_assoc, Nat.add_comm 1]
    rw [spreadLoop, getGcd_eq, if_pos h0,
      spreadLoop_eq (Nat.lt_of_succ_lt_succ hfuel) (Word.add_lt 32 x 1)
        (fun i hi => by rw [hshift]; exact hno (i + 1) (Nat.succ_lt_succ hi))
        (by rw [hshift]; exact hj), hshift]

/-! ## Coprime numbers -/

/-- A number below `2 ^ 32` has a coprime number in every range of `2 ^ 26`: a prime from the range
that divides it leaves a small cofactor. -/
theorem exists_coprime {n q : Nat} (hn : 0 < n) (hn' : n < 2 ^ 32) (hq : 1 ≤ q) (hq' : q ≤ 2 ^ 26) :
    ∃ c, q ≤ c ∧ c < 2 ^ 26 + q ∧ Nat.Coprime c n := by
  obtain ⟨p, hp, hlo, hhi⟩ := Nat.exists_prime_lt_and_le_two_mul (max q (2 ^ 25)) (by omega)
  have htop : p < 2 ^ 26 + q := by
    rcases Nat.lt_or_ge p (2 ^ 26 + q) with h | h
    · exact h
    · -- only `p = 2 ^ 27` is left
      have hpow : p = 2 ^ 27 := by omega
      rw [hpow] at hp
      exact absurd hp (Nat.Prime.not_prime_pow (by decide))
  by_cases hdvd : p ∣ n
  · obtain ⟨m, rfl⟩ := hdvd
    have hm : 0 < m := Nat.pos_of_mul_pos_left hn
    have hsmall : m < 2 ^ 7 := by
      by_contra hge
      have hle : 2 ^ 25 * 2 ^ 7 ≤ p * m := Nat.mul_le_mul (by omega) (by omega)
      omega
    -- of two neighbours that are `1` modulo the cofactor, one is no multiple of `p`
    have hdiv := Nat.div_add_mod q m
    have hmod := Nat.mod_lt q hm
    have hcop : ∀ k, Nat.Coprime (m * k + 1) m := fun k => by
      rw [Nat.coprime_mul_left_add_left]
      exact Nat.coprime_one_left m
    have hexp : m * (q / m + 1) = m * (q / m) + m := Nat.mul_succ _ _
    have hexp' : m * (q / m + 2) = m * (q / m) + m + m := by
      rw [Nat.mul_add, Nat.mul_two, ← Nat.add_assoc]
    by_cases hx : p ∣ m * (q / m + 1) + 1
    · refine ⟨m * (q / m + 2) + 1, by omega, by omega, Nat.Coprime.mul_right ?_ (hcop _)⟩
      rw [Nat.coprime_comm, Nat.Prime.coprime_iff_not_dvd hp]
      intro hy
      have hpm : p ∣ m := by
        have hsub := Nat.dvd_sub hy hx
        rwa [show m * (q / m + 2) + 1 - (m * (q / m + 1) + 1) = m by omega] at hsub
      have hle := Nat.le_of_dvd hm hpm
      omega
    · refine ⟨m * (q / m + 1) + 1, by omega, by omega, Nat.Coprime.mul_right ?_ (hcop _)⟩
      rw [Nat.coprime_comm, Nat.Prime.coprime_iff_not_dvd hp]
      exact hx
  · refine ⟨p, by omega, htop, ?_⟩
    rw [Nat.Prime.coprime_iff_not_dvd hp]
    exact hdvd

/-! ## What is computed -/

section

variable {eltSize flags nchan nrank : Nat}

/-- The size of the header -/
def hdrBytes (flags : Nat) : Nat := if flags &&& mempoolFNoCacheAlign = 0 then 64 else sizeofObjhdr

/-- An object before it is spread, as a number. -/
def objBytes (eltSize flags : Nat) : Nat :=
  let bytes := hdrBytes flags + (eltSize + 7) / 8 * 8
  if flags &&& mempoolFNoCacheAlign = 0 then (bytes + 63) / 64 * 64 else bytes

theorem rteAlignCeil_eight (h : eltSize < 2 ^ 32) :
    rteAlignCeil 32 eltSize 8 = if eltSize ≤ 2 ^ 32 - 8 then (eltSize + 7) / 8 * 8 else 0 := by
  have hmask := Word.land_not_mask (k := 3) (Word.add_lt 32 eltSize 7) (by decide)
  rw [rteAlignCeil]
  refine hmask.trans ?_
  unfold Word.add
  split_ifs <;> omega

theorem calc_headerSize (eltSize flags nchan nrank : Nat) :
    (rteMempoolCalcObjSize eltSize flags nchan nrank).headerSize = hdrBytes flags := by
  simp only [rteMempoolCalcObjSize, hdrBytes]
  split_ifs <;> rfl

/-- The padding of the last cache line. -/
theorem lineTrailer_eq (a b : Nat) :
    Word.add 32 0 (Word.sub 32 rteMempoolAlign (Word.add 32 (Word.add 32 a b) 0 &&&
      (rteMempoolAlign - 1)) &&& (rteMempoolAlign - 1)) = (a + b + 63) / 64 * 64 - (a + b) := by
  have hmask : ∀ v, v &&& (rteMempoolAlign - 1) = v % 64 := fun v => Word.land_mask (k := 6)
  have hline : rteMempoolAlign = 64 := rfl
  rw [hmask, hmask, hline]
  unfold Word.add Word.sub
  omega

theorem trailer_eq (eltSize flags : Nat) :
    (if flags &&& mempoolFNoCacheAlign = 0 then
      (hdrBytes flags + (eltSize + 7) / 8 * 8 + 63) / 64 * 64 - (hdrBytes flags + (eltSize + 7) / 8 * 8)
    else 0) = objBytes eltSize flags - (hdrBytes flags + (eltSize + 7) / 8 * 8) := by
  simp only [objBytes]
  split_ifs
  · rfl
  · rw [Nat.sub_self]

theorem le_objBytes (eltSize flags : Nat) :
    hdrBytes flags + (eltSize + 7) / 8 * 8 ≤ objBytes eltSize flags ∧
      objBytes eltSize flags < hdrBytes flags + (eltSize + 7) / 8 * 8 + 64 := by
  simp only [objBytes]
  split_ifs <;> omega

/-- Everything before the spreading is exact up to the last addition. -/
theorem calc_eq (h : eltSize ≤ 2 ^ 32 - 8) :
    rteMempoolCalcObjSize eltSize flags nchan nrank =
      let e := (eltSize + 7) / 8 * 8
      let line := objBytes eltSize flags % 2 ^ 32
      if flags &&& mempoolFNoSpread = 0 then
        let newSize := optimizeObjectSize nchan nrank line
        ⟨e, hdrBytes flags, Word.sub 32 (Word.sub 32 newSize (hdrBytes flags)) e, newSize⟩
      else ⟨e, hdrBytes flags, objBytes eltSize flags - (hdrBytes flags + e), line⟩ := by
  have hhdr : (if flags &&& mempoolFNoCacheAlign = 0 then rteAlignCeil 32 sizeofObjhdr rteMempoolAlign
      else sizeofObjhdr) = hdrBytes flags := by
    rw [hdrBytes]
    split_ifs <;> rfl
  have helt : rteAlignCeil 32 eltSize 8 = (eltSize + 7) / 8 * 8 := by
    rw [rteAlignCeil_eight (by omega), if_pos h]
  obtain ⟨hle, -⟩ := le_objBytes eltSize flags
  have hsum : Word.add 32 (Word.add 32 (hdrBytes flags) ((eltSize + 7) / 8 * 8))
      (objBytes eltSize flags - (hdrBytes flags + (eltSize + 7) / 8 * 8)) =
        objBytes eltSize flags % 2 ^ 32 := by
    unfold Word.add
    omega
  simp only [rteMempoolCalcObjSize, hhdr, helt, lineTrailer_eq, trailer_eq, hsum]
  split_ifs with hspread
  · have hlt : optimizeObjectSize nchan nrank (objBytes eltSize flags % 2 ^ 32) < 2 ^ 32 :=
      Nat.mod_lt _ (by decide)
    have hback : ∀ n a b : Nat, n < 2 ^ 32 →
        Word.add 32 (Word.add 32 a b) (Word.sub 32 (Word.sub 32 n a) b) = n := fun n a b hn => by
      unfold Word.add Word.sub
      omega
    rw [hback _ _ _ hlt]
  · rw [hsum]

/-! ## The spread size -/

theorem optimizeObjectSize_eq {line j : Nat} (hj : j < 2 ^ 32)
    (hno : ∀ i < j, ¬Nat.Coprime (((line + 63) % 2 ^ 32 / 64 + i) % 2 ^ 32) (spreadCount nchan nrank))
    (hcop : Nat.Coprime (((line + 63) % 2 ^ 32 / 64 + j) % 2 ^ 32) (spreadCount nchan nrank)) :
    optimizeObjectSize nchan nrank line =
      ((line + 63) % 2 ^ 32 / 64 + j) % 2 ^ 32 * 64 % 2 ^ 32 := by
  have hlt : (line + 63) % 2 ^ 32 / 64 < 2 ^ 32 := by omega
  exact congrArg (fun x => x * 64 % 2 ^ 32) (spreadLoop_eq hj hlt hno hcop)

/-- Any number will do when there is one channel and one rank. -/
theorem optimizeObjectSize_of_one {line : Nat} (h : spreadCount nchan nrank = 1) :
    optimizeObjectSize nchan nrank line = (line + 63) % 2 ^ 32 / 64 * 64 := by
  rw [optimizeObjectSize_eq (by decide : 0 < 2 ^ 32) (fun i hi => absurd hi (Nat.not_lt_zero i))
    (by rw [h]; exact Nat.coprime_one_right _)]
  omega

/-- From `0` and `1` the search comes to `1`. -/
theorem optimizeObjectSize_of_small {line : Nat} (h : spreadCount nchan nrank ≠ 1)
    (hsmall : (line + 63) % 2 ^ 32 < 128) : optimizeObjectSize nchan nrank line = 64 := by
  rcases Nat.lt_or_ge ((line + 63) % 2 ^ 32) 64 with hlt | hge
  · have h0 : (line + 63) % 2 ^ 32 / 64 = 0 := by omega
    have hzero : ∀ i < 1, ¬Nat.Coprime (((line + 63) % 2 ^ 32 / 64 + i) % 2 ^ 32)
        (spreadCount nchan nrank) := by
      intro i hi hcop
      rw [h0, show i = 0 by omega] at hcop
      exact h ((Nat.coprime_zero_left _).mp hcop)
    rw [optimizeObjectSize_eq (by decide) hzero (by rw [h0]; exact Nat.coprime_one_left _), h0]
    decide
  · have h1 : (line + 63) % 2 ^ 32 / 64 = 1 := by omega
    rw [optimizeObjectSize_eq (by decide : 0 < 2 ^ 32) (fun i hi => absurd hi (Nat.not_lt_zero i))
      (by rw [h1]; exact Nat.coprime_one_left _), h1]
    decide

/-- The first coprime number from `q` on. -/
theorem exists_first {n q top : Nat} (h : ∃ c, q ≤ c ∧ c < top ∧ Nat.Coprime c n) :
    ∃ c, q ≤ c ∧ c < top ∧ Nat.Coprime c n ∧ ∀ i, q ≤ i → i < c → ¬Nat.Coprime i n := by
  obtain ⟨c, hqc, hct, hcop⟩ := h
  have hex : ∃ c, q ≤ c ∧ Nat.Coprime c n := ⟨c, hqc, hcop⟩
  have hfind := Nat.find_spec hex
  have hle : Nat.find hex ≤ c := Nat.find_min' hex ⟨hqc, hcop⟩
  exact ⟨Nat.find hex, hfind.1, by omega, hfind.2, fun i hqi hi hc => Nat.find_min hex hi ⟨hqi, hc⟩⟩

theorem optimizeObjectSize_of_first {line c : Nat} (hline : line ≤ 2 ^ 32 - 64) (hc : c < 2 ^ 32)
    (hle : (line + 63) / 64 ≤ c) (hcop : Nat.Coprime c (spreadCount nchan nrank))
    (hno : ∀ i, (line + 63) / 64 ≤ i → i < c → ¬Nat.Coprime i (spreadCount nchan nrank)) :
    optimizeObjectSize nchan nrank line = c * 64 % 2 ^ 32 := by
  have hq : (line + 63) % 2 ^ 32 / 64 = (line + 63) / 64 := by omega
  have hmod : ∀ i, i ≤ c - (line + 63) / 64 →
      ((line + 63) % 2 ^ 32 / 64 + i) % 2 ^ 32 = (line + 63) / 64 + i := fun i hi => by
    rw [hq]
    exact Nat.mod_eq_of_lt (by omega)
  have hend : (line + 63) / 64 + (c - (line + 63) / 64) = c := by omega
  rw [optimizeObjectSize_eq (j := c - (line + 63) / 64) (by omega)
    (fun i hi => by rw [hmod i (by omega)]; exact hno _ (by omega) (by omega))
    (by rw [hmod _ (Nat.le_refl _), hend]; exact hcop), hmod _ (Nat.le_refl _), hend]

/-- A search that leaves the word comes back too small. -/
theorem optimizeObjectSize_of_none {line : Nat} (hline : line ≤ 2 ^ 32 - 64) (hpos : 0 < line)
    (hno : ¬∃ c, (line + 63) / 64 ≤ c ∧ c ≤ 2 ^ 26 ∧ Nat.Coprime c (spreadCount nchan nrank)) :
    0 < optimizeObjectSize nchan nrank line ∧
      optimizeObjectSize nchan nrank line ≤ 64 * ((line + 63) / 64 - 1) := by
  have hq1 : (line + 63) / 64 ≠ 1 := fun h1 =>
    hno ⟨1, by omega, by decide, Nat.coprime_one_left _⟩
  rcases Nat.eq_zero_or_pos (spreadCount nchan nrank) with h0 | hn
  · -- only `1` is coprime to `0`, and it is reached after a wrap
    have hone : ∀ x, Nat.Coprime x (spreadCount nchan nrank) ↔ x = 1 := fun x => by
      rw [h0, Nat.coprime_zero_right]
    have hcode : optimizeObjectSize nchan nrank line = 64 := by
      have hval : ((line + 63) % 2 ^ 32 / 64 + (2 ^ 32 + 1 - (line + 63) / 64)) % 2 ^ 32 = 1 := by omega
      rw [optimizeObjectSize_eq (j := 2 ^ 32 + 1 - (line + 63) / 64) (by omega)
        (fun i hi => by rw [hone]; omega) (by rw [hone]; exact hval), hval]
      decide
    rw [hcode]
    omega
  · have hn' : spreadCount nchan nrank < 2 ^ 32 := Nat.mod_lt _ (by decide)
    obtain ⟨c, hqc, hct, hcop, hfirst⟩ :=
      exists_first (exists_coprime hn hn' (show 1 ≤ (line + 63) / 64 by omega) (by omega))
    have hbig : 2 ^ 26 < c := Nat.lt_of_not_le fun hle => hno ⟨c, hqc, hle, hcop⟩
    rw [optimizeObjectSize_of_first hline (by omega) hqc hcop hfirst]
    omega

/-! ## Which inputs lose nothing -/

/-- The sizes add up, as numbers. -/
structure SizesSound (eltSize flags : Nat) (sz : RteMempoolObjsz) : Prop where
  elt_le : eltSize ≤ sz.eltSize
  elt_dvd : 8 ∣ sz.eltSize
  total : sz.totalSize = sz.headerSize + sz.eltSize + sz.trailerSize
  header_le : sizeofObjhdr ≤ sz.headerSize
  aligned : flags &&& mempoolFNoCacheAlign = 0 → 64 ∣ sz.headerSize ∧ 64 ∣ sz.totalSize

/-- Nothing is lost unless the total is `0`, which the callers refuse. -/
def CalcSound (eltSize flags nchan nrank : Nat) : Prop :=
  (rteMempoolCalcObjSize eltSize flags nchan nrank).totalSize ≠ 0 →
    SizesSound eltSize flags (rteMempoolCalcObjSize eltSize flags nchan nrank)

/-- The element can be rounded up, the object fits, and where it is spread there is a number of cache
lines that fits and is coprime to the channels and ranks. -/
def SizesFit (eltSize flags nchan nrank : Nat) : Prop :=
  eltSize ≤ 2 ^ 32 - 8 ∧ objBytes eltSize flags ≤ 2 ^ 32 ∧
    (flags &&& mempoolFNoSpread = 0 → spreadCount nchan nrank = 1 ∨
      objBytes eltSize flags ≤ 2 ^ 32 - 64 ∧ ∃ c, (objBytes eltSize flags + 63) / 64 ≤ c ∧
        c ≤ 2 ^ 26 ∧ Nat.Coprime c (spreadCount nchan nrank))

theorem hdrBytes_bounds (flags : Nat) : sizeofObjhdr ≤ hdrBytes flags ∧ hdrBytes flags ≤ 64 := by
  have hsz : sizeofObjhdr = 16 := rfl
  unfold hdrBytes
  split_ifs <;> omega

theorem objBytes_bounds (h : eltSize ≤ 2 ^ 32 - 8) : objBytes eltSize flags ≤ 2 ^ 32 + 64 ∧
    64 * ((objBytes eltSize flags + 63) / 64 - 1) < hdrBytes flags + (eltSize + 7) / 8 * 8 := by
  have hsz : sizeofObjhdr = 16 := rfl
  simp only [objBytes, hdrBytes]
  split_ifs <;> omega

/-- A total that does not hold header and element is not sound. -/
theorem not_sound_of_lt (helt : eltSize ≤ 2 ^ 32 - 8)
    (hpos : 0 < (rteMempoolCalcObjSize eltSize flags nchan nrank).totalSize)
    (hlt : (rteMempoolCalcObjSize eltSize flags nchan nrank).totalSize <
      hdrBytes flags + (eltSize + 7) / 8 * 8) : ¬CalcSound eltSize flags nchan nrank := by
  intro h
  have htotal := (h (by omega)).total
  have hheader : (rteMempoolCalcObjSize eltSize flags nchan nrank).headerSize = hdrBytes flags :=
    calc_headerSize eltSize flags nchan nrank
  have he : (rteMempoolCalcObjSize eltSize flags nchan nrank).eltSize = (eltSize + 7) / 8 * 8 := by
    rw [calc_eq helt]
    simp only
    split_ifs <;> rfl
  omega

/-- An element that cannot be rounded up is taken to have no bytes. -/
theorem not_sound_of_top (helt : eltSize < 2 ^ 32) (h : 2 ^ 32 - 8 < eltSize) :
    ¬CalcSound eltSize flags nchan nrank := by
  have hzero : rteMempoolCalcObjSize eltSize flags nchan nrank =
      rteMempoolCalcObjSize 0 flags nchan nrank := by
    have hround : rteAlignCeil 32 eltSize 8 = rteAlignCeil 32 0 8 := by
      rw [rteAlignCeil_eight helt, if_neg (by omega), rteAlignCeil_eight (by decide)]
      rfl
    simp only [rteMempoolCalcObjSize, hround]
  have hobj : objBytes 0 flags = hdrBytes flags ∧ 0 < hdrBytes flags ∧ hdrBytes flags ≤ 64 := by
    have hsz : sizeofObjhdr = 16 := rfl
    simp only [objBytes, hdrBytes]
    split_ifs <;> omega
  have hmod : objBytes 0 flags % 2 ^ 32 = hdrBytes flags := by omega
  intro hsound
  have hne : (rteMempoolCalcObjSize eltSize flags nchan nrank).totalSize ≠ 0 := by
    rw [hzero, calc_eq (by decide)]
    simp only [hmod]
    split_ifs with hf
    · simp only
      have hq : (hdrBytes flags + 63) / 64 = 1 := by omega
      rw [optimizeObjectSize_of_first (c := 1) (by omega) (by decide) (by omega) (Nat.coprime_one_left _)
        (fun i hi hi' => by omega)]
      decide
    · simp only
      omega
  have hle := (hsound hne).elt_le
  rw [hzero, calc_eq (by decide)] at hle
  simp only at hle
  split_ifs at hle <;> simp only at hle <;> omega

theorem fits_of_sound (helt : eltSize < 2 ^ 32) (h : CalcSound eltSize flags nchan nrank) :
    SizesFit eltSize flags nchan nrank := by
  have hround : eltSize ≤ 2 ^ 32 - 8 := Nat.le_of_not_lt fun hgt => not_sound_of_top helt hgt h
  obtain ⟨hle, hlt⟩ := le_objBytes eltSize flags
  obtain ⟨htop, hlast⟩ : objBytes eltSize flags ≤ 2 ^ 32 + 64 ∧
      64 * ((objBytes eltSize flags + 63) / 64 - 1) < hdrBytes flags + (eltSize + 7) / 8 * 8 :=
    objBytes_bounds hround
  obtain ⟨hh, hh'⟩ := hdrBytes_bounds flags
  have hsz : sizeofObjhdr = 16 := rfl
  have hcalc : rteMempoolCalcObjSize eltSize flags nchan nrank = _ := calc_eq hround
  simp only at hcalc
  -- a spread size of two lines or less is too small for an object near the top
  have hshort : flags &&& mempoolFNoSpread = 0 → 2 ^ 32 - 64 < objBytes eltSize flags →
      spreadCount nchan nrank ≠ 1 → False := by
    intro hf hbig hone
    have hnew : optimizeObjectSize nchan nrank (objBytes eltSize flags % 2 ^ 32) = 64 :=
      optimizeObjectSize_of_small hone (by omega)
    rw [if_pos hf] at hcalc
    refine not_sound_of_lt hround ?_ ?_ h <;> rw [hcalc] <;> simp only [hnew] <;> omega
  have hobj : objBytes eltSize flags ≤ 2 ^ 32 := by
    by_contra hbig
    by_cases hf : flags &&& mempoolFNoSpread = 0
    · by_cases hone : spreadCount nchan nrank = 1
      · have hnew : optimizeObjectSize nchan nrank (objBytes eltSize flags % 2 ^ 32) = _ :=
          optimizeObjectSize_of_one hone
        rw [if_pos hf] at hcalc
        refine not_sound_of_lt hround ?_ ?_ h <;> rw [hcalc] <;> simp only [hnew] <;> omega
      · exact hshort hf (by omega) hone
    · rw [if_neg hf] at hcalc
      refine not_sound_of_lt hround ?_ ?_ h <;> rw [hcalc] <;> simp only <;> omega
  refine ⟨hround, hobj, fun hf => or_iff_not_imp_left.mpr fun hone => ?_⟩
  have hline : objBytes eltSize flags ≤ 2 ^ 32 - 64 := Nat.le_of_not_lt fun hbig => hshort hf hbig hone
  refine ⟨hline, ?_⟩
  by_contra hno
  have hmod : objBytes eltSize flags % 2 ^ 32 = objBytes eltSize flags := by omega
  obtain ⟨hpos, hsmall⟩ := optimizeObjectSize_of_none hline (by omega) hno
  rw [if_pos hf, hmod] at hcalc
  refine not_sound_of_lt hround ?_ ?_ h <;> rw [hcalc] <;> simp only <;> omega

theorem sound_of_fits (h : SizesFit eltSize flags nchan nrank) :
    CalcSound eltSize flags nchan nrank := by
  obtain ⟨helt, hobj, hspread⟩ := h
  obtain ⟨hle, hlt⟩ := le_objBytes eltSize flags
  obtain ⟨hh, hh'⟩ := hdrBytes_bounds flags
  have hhdr : flags &&& mempoolFNoCacheAlign = 0 → hdrBytes flags = 64 ∧ 64 ∣ objBytes eltSize flags := by
    intro hf
    simp only [objBytes, hdrBytes, if_pos hf, true_and]
    exact Nat.dvd_mul_left _ _
  have hobjs : sizeofObjhdr = 16 := rfl
  intro hne
  rw [calc_eq helt] at hne ⊢
  simp only at hne ⊢
  by_cases hf : flags &&& mempoolFNoSpread = 0
  · rw [if_pos hf] at hne ⊢
    simp only at hne ⊢
    -- the new size is a number of cache lines that holds the object
    have hnew : hdrBytes flags + (eltSize + 7) / 8 * 8 ≤
        optimizeObjectSize nchan nrank (objBytes eltSize flags % 2 ^ 32) ∧
        64 ∣ optimizeObjectSize nchan nrank (objBytes eltSize flags % 2 ^ 32) ∧
        optimizeObjectSize nchan nrank (objBytes eltSize flags % 2 ^ 32) < 2 ^ 32 := by
      rcases hspread hf with hone | ⟨hline, hex⟩
      · rw [optimizeObjectSize_of_one hone] at hne ⊢
        omega
      · obtain ⟨c, hqc, hct, hcop⟩ := hex
        obtain ⟨c, hqc, hct, hcop, hfirst⟩ := exists_first ⟨c, hqc, Nat.lt_succ_of_le hct, hcop⟩
        rw [Nat.mod_eq_of_lt (by omega : objBytes eltSize flags < 2 ^ 32)] at hne ⊢
        rw [optimizeObjectSize_of_first hline (by omega) hqc hcop hfirst] at hne ⊢
        omega
    generalize optimizeObjectSize nchan nrank (objBytes eltSize flags % 2 ^ 32) = n at hne hnew ⊢
    obtain ⟨hfit, hdvd, hn⟩ := hnew
    refine ⟨by simp only; omega, by simp only; omega, ?_, hh, fun hca => ⟨?_, hdvd⟩⟩
    · simp only
      rw [Word.sub_eq (by omega) hn, Word.sub_eq (by omega) (by omega)]
      omega
    · simp only
      rw [(hhdr hca).1]
  · rw [if_neg hf] at hne ⊢
    simp only at hne ⊢
    have hval : objBytes eltSize flags % 2 ^ 32 = objBytes eltSize flags := by omega
    refine ⟨by simp only; omega, by simp only; omega, ?_, hh, fun hca => ?_⟩
    · simp only
      rw [hval]
      omega
    · obtain ⟨h64, hdvd⟩ := hhdr hca
      exact ⟨by simp only [h64]; exact dvd_rfl, by simp only [hval]; exact hdvd⟩

/-- **Object size computation** loses nothing exactly for the sizes that fit. -/
theorem calcObjSize_sound_iff (helt : eltSize < 2 ^ 32) (flags nchan nrank : Nat) :
    CalcSound eltSize flags nchan nrank ↔ SizesFit eltSize flags nchan nrank :=
  ⟨fits_of_sound helt, sound_of_fits⟩

theorem calcObjSize_sound_iff_2176 : CalcSound 2176 0 4 2 ↔ SizesFit 2176 0 4 2 :=
  calcObjSize_sound_iff (by decide) 0 4 2

/-- The greatest element size is rounded up to no bytes at all. -/
theorem not_calcSound_top : ¬CalcSound (2 ^ 32 - 1) 0 4 1 := by
  intro h
  have hsz : rteMempoolCalcObjSize (2 ^ 32 - 1) 0 4 1 = ⟨0, 64, 0, 64⟩ := by decide
  have hsound := h (by rw [hsz]; decide)
  rw [hsz] at hsound
  exact absurd hsound.elt_le (by decide)

end

end Mempool
