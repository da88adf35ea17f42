import RteDemo.Malloc.Elem
import Mathlib.Algebra.Order.Group.Nat
import Mathlib.Tactic.Ring

/-!
# `elem_start_pt`: placing a block in an element

`Fits` is the specification: where the data of a request may start inside an element. As long as
no subtraction of the code borrows (`StartExact`), `elem_start_pt` finds a place exactly when there
is one, and then the highest.
-/

namespace RteDemo

/-- `[d, d + size)` does not contain a multiple of `bound` in its interior. -/
def NoCross (bound d size : Nat) : Prop := ∀ q, q * bound ≤ d ∨ d + size ≤ q * bound

/-- The data of a block may start at `d` in the element at `elem` of `elemSize` bytes. -/
structure Fits (elem elemSize size align bound d : Nat) : Prop where
  header : elem + mallocElemHeaderLen ≤ d
  stop : d + size ≤ elem + elemSize
  aligned : align ∣ d
  bounded : NoCross bound d size

/-- The data start before the boundary check. -/
def dataStart (endPt size align : Nat) : Nat :=
  rteAlignFloor (endPt - size) (Word.sub 32 align 1)

/-- None of the subtractions that `elem_start_pt` makes for an element ending at `endPt` borrows:
`end_pt - size`, its variant for the boundary below, and the step back to the header. -/
def StartExact (endPt size align bound : Nat) : Prop :=
  let bmask := Word.not 64 (Word.sub 64 bound 1)
  let endPt' := rteAlignFloor endPt (Word.sub 64 bound 1)
  size ≤ endPt ∧
    if dataStart endPt size align &&& bmask = (endPt - 1) &&& bmask then
      mallocElemHeaderLen ≤ dataStart endPt size align
    else size ≤ endPt' ∧ mallocElemHeaderLen ≤ dataStart endPt' size align

instance (endPt size align bound : Nat) : Decidable (StartExact endPt size align bound) :=
  inferInstanceAs (Decidable (_ ∧ ite _ _ _))

/-- Power-of-two alignments of at least a cache line that an `unsigned` can hold. -/
def AlignOK (align : Nat) : Prop := ∃ k, 6 ≤ k ∧ k < 32 ∧ align = 2 ^ k

/-- An alignment of less than a cache line is rounded up to one. -/
theorem rteCacheLineRoundup_two_pow {k : Nat} (hk : k < 32) :
    rteCacheLineRoundup 64 (2 ^ k) = 2 ^ max k 6 := by
  have hle : 2 ^ k ≤ 2 ^ 31 := Nat.pow_le_pow_right (by decide) (by omega)
  rw [rteCacheLineRoundup_eq (by decide) (by omega)]
  rcases Nat.le_total k 6 with h6 | h6
  · have h64 : 2 ^ k ≤ 2 ^ 6 := Nat.pow_le_pow_right (by decide) h6
    have hpos := Nat.two_pow_pos k
    rw [Nat.max_eq_right h6]
    omega
  · obtain ⟨q, hq⟩ : 2 ^ 6 ∣ 2 ^ k := Nat.pow_dvd_pow 2 h6
    rw [Nat.max_eq_left h6]
    omega

/-- No boundary, or a power of two. -/
def BoundOK (bound : Nat) : Prop := bound = 0 ∨ ∃ j, j < 64 ∧ bound = 2 ^ j

/-- The number of address bits below a boundary; no boundary is one at the top of the address
space. -/
theorem BoundOK.bits {bound : Nat} (h : BoundOK bound) :
    ∃ j ≤ 64, Word.sub 64 bound 1 = 2 ^ j - 1 ∧ (bound = 2 ^ j ∨ bound = 0 ∧ j = 64) := by
  rcases h with rfl | ⟨j, hj, rfl⟩
  · exact ⟨64, le_refl _, by decide, .inr ⟨rfl, rfl⟩⟩
  · have hlt : 2 ^ j < 2 ^ 64 := Nat.pow_lt_pow_right (by decide) hj
    exact ⟨j, hj.le, Word.sub_eq (Nat.two_pow_pos j) hlt, .inl rfl⟩

theorem AlignOK.sub_one {k : Nat} (hk : k < 32) : Word.sub 32 (2 ^ k) 1 = 2 ^ k - 1 :=
  Word.sub_eq (Nat.two_pow_pos k) (Nat.pow_lt_pow_right (by decide) hk)

theorem dataStart_eq {endPt size k : Nat} (hend : endPt < 2 ^ 64) (hk : k < 32) :
    dataStart endPt size (2 ^ k) = (endPt - size) / 2 ^ k * 2 ^ k := by
  unfold dataStart
  rw [AlignOK.sub_one hk, rteAlignFloor_two_pow (by omega) (by omega)]

/-! ## Blocks between boundaries -/

theorem noCross_of_div_eq {j d size : Nat} (h : d / 2 ^ j = (d + size - 1) / 2 ^ j) :
    NoCross (2 ^ j) d size := by
  intro q
  by_contra hq
  push Not at hq
  have hlo : d / 2 ^ j < q := (Nat.div_lt_iff_lt_mul (Nat.two_pow_pos j)).mpr hq.1
  have hhi : q ≤ (d + size - 1) / 2 ^ j :=
    (Nat.le_div_iff_mul_le (Nat.two_pow_pos j)).mpr (by omega)
  omega

theorem div_eq_of_noCross {j d size : Nat} (hs : 0 < size) (h : NoCross (2 ^ j) d size) :
    d / 2 ^ j = (d + size - 1) / 2 ^ j := by
  have hle : d / 2 ^ j ≤ (d + size - 1) / 2 ^ j := Nat.div_le_div_right (by omega)
  have hup := Word.lt_div_mul_add d j
  rcases h (d / 2 ^ j + 1) with hq | hq
  · rw [Nat.add_mul] at hq
    omega
  · have hlt : (d + size - 1) / 2 ^ j < d / 2 ^ j + 1 :=
      (Nat.div_lt_iff_lt_mul (Nat.two_pow_pos j)).mpr (by omega)
    omega

theorem noCross_empty (bound d : Nat) : NoCross bound d 0 := fun q => by
  rw [Nat.add_zero]
  exact Nat.le_total _ _

theorem NoCross.mono {bound d size size' : Nat} (h : NoCross bound d size) (hle : size' ≤ size) :
    NoCross bound d size' := fun q => (h q).imp_right fun h => by omega

theorem noCross_zero (d size : Nat) : NoCross 0 d size := fun q => .inl (by simp)

theorem NoCross.of_bits {bound j d size : Nat} (hb : bound = 2 ^ j ∨ bound = 0 ∧ j = 64)
    (h : d / 2 ^ j = (d + size - 1) / 2 ^ j) : NoCross bound d size := by
  rcases hb with rfl | ⟨rfl, -⟩
  · exact noCross_of_div_eq h
  · exact noCross_zero d size

/-! ## The code and the specification -/

section

variable {elem elemSize size bound k j : Nat}

/-- What the code computes when nothing borrows: the two candidates, by quotients. -/
theorem elemStartPt_eq (hk : k < 32) (hj : j ≤ 64) (hb : Word.sub 64 bound 1 = 2 ^ j - 1)
    (hpos : 0 < elem) (htop : elem + elemSize < 2 ^ 64)
    (hx : StartExact (elem + elemSize) size (2 ^ k) bound) :
    let d := (elem + elemSize - size) / 2 ^ k * 2 ^ k
    let endB := (elem + elemSize) / 2 ^ j * 2 ^ j
    let d' := (endB - size) / 2 ^ k * 2 ^ k
    size ≤ elem + elemSize ∧
      ((d / 2 ^ j = (elem + elemSize - 1) / 2 ^ j ∧ 64 ≤ d ∧
          elemStartPt elem elemSize size (2 ^ k) bound = if d - 64 < elem then 0 else d - 64) ∨
        (d / 2 ^ j ≠ (elem + elemSize - 1) / 2 ^ j ∧ size ≤ endB ∧ 64 ≤ d' ∧
          elemStartPt elem elemSize size (2 ^ k) bound =
            if (d' + size - 1) / 2 ^ j ≠ d' / 2 ^ j then 0
            else if d' - 64 < elem then 0 else d' - 64)) := by
  intro d endB d'
  obtain ⟨hsize, hbranch⟩ := hx
  have hd : d ≤ elem + elemSize - size := Word.div_mul_le _ k
  have hendB : endB ≤ elem + elemSize := Word.div_mul_le _ j
  have hd' : d' ≤ endB - size := Word.div_mul_le _ k
  have hmaskeq : ∀ u v : Nat, u < 2 ^ 64 → v < 2 ^ 64 →
      (u &&& Word.not 64 (2 ^ j - 1) = v &&& Word.not 64 (2 ^ j - 1) ↔ u / 2 ^ j = v / 2 ^ j) :=
    fun u v hu hv => Word.land_not_mask_inj hu hv hj
  have hfloorB : rteAlignFloor (elem + elemSize) (2 ^ j - 1) = endB :=
    rteAlignFloor_two_pow htop hj
  have hds : dataStart (elem + elemSize) size (2 ^ k) = d := dataStart_eq htop hk
  have hds' : dataStart endB size (2 ^ k) = d' := dataStart_eq (by omega) hk
  have hcode : rteAlignFloor (elem + elemSize - size) (2 ^ k - 1) = d :=
    rteAlignFloor_two_pow (by omega) (by omega)
  have hcode' : rteAlignFloor (endB - size) (2 ^ k - 1) = d' :=
    rteAlignFloor_two_pow (by omega) (by omega)
  have hend : Word.sub 64 (Word.add 64 elem elemSize) 0 = elem + elemSize := by
    rw [Word.add_eq htop, Word.sub_eq (Nat.zero_le _) htop, Nat.sub_zero]
  simp only [hb, hfloorB, hds, hds',
    hmaskeq d _ (show d < 2 ^ 64 by omega) (show elem + elemSize - 1 < 2 ^ 64 by omega),
    mallocElemHeaderLen] at hbranch
  refine ⟨hsize, ?_⟩
  simp only [elemStartPt, mallocElemTrailerLen, mallocElemHeaderLen, hend, hb,
    AlignOK.sub_one hk, hfloorB, Word.sub_eq hsize htop, hcode,
    Word.sub_eq (show 1 ≤ elem + elemSize by omega) htop, ne_eq,
    hmaskeq d _ (show d < 2 ^ 64 by omega) (show elem + elemSize - 1 < 2 ^ 64 by omega)]
  by_cases hsame : d / 2 ^ j = (elem + elemSize - 1) / 2 ^ j
  · rw [if_pos hsame] at hbranch
    refine .inl ⟨hsame, hbranch, ?_⟩
    rw [if_neg (not_not.mpr hsame), Word.sub_eq hbranch (by omega)]
  · rw [if_neg hsame] at hbranch
    obtain ⟨hsB, h64⟩ := hbranch
    refine .inr ⟨hsame, hsB, h64, ?_⟩
    rw [if_pos hsame, Word.sub_eq hsB (by omega), hcode', Word.add_eq (show d' + size < 2 ^ 64 by omega),
      Word.sub_eq (show 1 ≤ d' + size by omega) (by omega), Word.sub_eq h64 (by omega)]
    simp only [hmaskeq (d' + size - 1) d' (by omega) (by omega)]

/-- A place that is found is a good one. -/
theorem elemStartPt_fits (hk : k < 32) (hbound : BoundOK bound) (hpos : 0 < elem)
    (htop : elem + elemSize < 2 ^ 64) (hx : StartExact (elem + elemSize) size (2 ^ k) bound)
    (hne : elemStartPt elem elemSize size (2 ^ k) bound ≠ 0) :
    Fits elem elemSize size (2 ^ k) bound (elemStartPt elem elemSize size (2 ^ k) bound + 64) := by
  obtain ⟨j, hj, hb, hbits⟩ := hbound.bits
  obtain ⟨hsize, ⟨hsame, h64, heq⟩ | ⟨-, hsB, h64, heq⟩⟩ :=
    elemStartPt_eq hk hj hb hpos htop hx
  · have hd := Word.div_mul_le (elem + elemSize - size) k
    have hal : 2 ^ k ∣ (elem + elemSize - size) / 2 ^ k * 2 ^ k := Nat.dvd_mul_left _ _
    generalize (elem + elemSize - size) / 2 ^ k * 2 ^ k = d at *
    have hlt : ¬ d - 64 < elem := fun h => hne (heq.trans (if_pos h))
    rw [heq, if_neg hlt, Nat.sub_add_cancel h64]
    refine ⟨by simp only [mallocElemHeaderLen]; omega, by omega, hal, ?_⟩
    rcases Nat.eq_zero_or_pos size with rfl | hs
    · exact noCross_empty bound d
    · -- the data ends at or before `end_pt`, in the block of its start
      have h1 : d / 2 ^ j ≤ (d + size - 1) / 2 ^ j := Nat.div_le_div_right (by omega)
      have h2 : (d + size - 1) / 2 ^ j ≤ (elem + elemSize - 1) / 2 ^ j :=
        Nat.div_le_div_right (by omega)
      exact .of_bits hbits (by omega)
  · have hendB := Word.div_mul_le (elem + elemSize) j
    have hd := Word.div_mul_le ((elem + elemSize) / 2 ^ j * 2 ^ j - size) k
    generalize hd' : ((elem + elemSize) / 2 ^ j * 2 ^ j - size) / 2 ^ k * 2 ^ k = d' at *
    have hcross : ¬ (d' + size - 1) / 2 ^ j ≠ d' / 2 ^ j := fun h => hne (heq.trans (if_pos h))
    rw [if_neg hcross] at heq
    have hlt : ¬ d' - 64 < elem := fun h => hne (heq.trans (if_pos h))
    rw [heq, if_neg hlt, Nat.sub_add_cancel h64]
    exact ⟨by simp only [mallocElemHeaderLen]; omega, by omega, hd' ▸ Nat.dvd_mul_left _ _,
      .of_bits hbits (not_not.mp hcross).symm⟩

/-- In the block below a boundary, the highest aligned start of at most one block's worth of data
does not cross the next boundary down. -/
theorem floor_below_boundary {q : Nat} (hs : 0 < size) (hsj : size ≤ 2 ^ j)
    (hq : size ≤ q * 2 ^ j) :
    ((q * 2 ^ j - size) / 2 ^ k * 2 ^ k + size - 1) / 2 ^ j =
      (q * 2 ^ j - size) / 2 ^ k * 2 ^ k / 2 ^ j := by
  have hle := Word.div_mul_le (q * 2 ^ j - size) k
  have hqpos : 1 ≤ q := Nat.pos_of_ne_zero fun h0 => by simp [h0] at hq; omega
  obtain ⟨r, rfl⟩ := Nat.exists_eq_add_of_le hqpos
  rw [Nat.add_mul, Nat.one_mul] at *
  rcases Nat.le_total k j with hkj | hjk
  · -- aligned starts include the boundary below
    have hlow : r * 2 ^ j ≤ (2 ^ j + r * 2 ^ j - size) / 2 ^ k * 2 ^ k :=
      Word.le_div_mul (Dvd.dvd.mul_left (Nat.pow_dvd_pow 2 hkj) r) (by omega)
    have h1 : (2 ^ j + r * 2 ^ j - size) / 2 ^ k * 2 ^ k / 2 ^ j = r :=
      Nat.div_eq_of_lt_le hlow (by rw [Nat.add_mul]; omega)
    rw [h1]
    exact Nat.div_eq_of_lt_le (by omega) (by rw [Nat.add_mul]; omega)
  · -- an aligned start is itself on a boundary
    obtain ⟨t, ht⟩ : 2 ^ j ∣ (2 ^ j + r * 2 ^ j - size) / 2 ^ k * 2 ^ k :=
      Dvd.dvd.mul_left (Nat.pow_dvd_pow 2 hjk) _
    rw [ht, Nat.mul_div_cancel_left _ (Nat.two_pow_pos j), Nat.add_sub_assoc hs,
      Nat.mul_add_div (Nat.two_pow_pos j), Nat.div_eq_of_lt (by omega), Nat.add_zero]

/-- If the highest aligned start is not in the block where the element ends, data that fit end at or
below the boundary in front of that end. -/
theorem Fits.below_boundary {d : Nat} (hfit : Fits elem elemSize size (2 ^ k) (2 ^ j) d) (hs : 0 < size)
    (hne : (elem + elemSize - size) / 2 ^ k * 2 ^ k / 2 ^ j ≠ (elem + elemSize - 1) / 2 ^ j) :
    d + size ≤ (elem + elemSize) / 2 ^ j * 2 ^ j := by
  obtain ⟨-, hstop, hal, hnc⟩ := hfit
  have hle : d ≤ (elem + elemSize - size) / 2 ^ k * 2 ^ k := Word.le_div_mul hal (by omega)
  have hfloor := Word.div_mul_le (elem + elemSize - size) k
  have h1 : d / 2 ^ j ≤ (elem + elemSize - size) / 2 ^ k * 2 ^ k / 2 ^ j := Nat.div_le_div_right hle
  have h2 : (elem + elemSize - size) / 2 ^ k * 2 ^ k / 2 ^ j ≤ (elem + elemSize - 1) / 2 ^ j :=
    Nat.div_le_div_right (by omega)
  have h3 : (elem + elemSize - 1) / 2 ^ j ≤ (elem + elemSize) / 2 ^ j :=
    Nat.div_le_div_right (by omega)
  have hblock := div_eq_of_noCross hs hnc
  have hlt : (d + size - 1) / 2 ^ j < (elem + elemSize) / 2 ^ j := by omega
  have hbelow := (Nat.div_lt_iff_lt_mul (Nat.two_pow_pos j)).mp hlt
  omega

/-- When there is a place, one is found, and it is not below that place. -/
theorem elemStartPt_complete (hk : k < 32) (hbound : BoundOK bound) (hpos : 0 < elem)
    (htop : elem + elemSize < 2 ^ 64) (hx : StartExact (elem + elemSize) size (2 ^ k) bound)
    (hs : 0 < size) (hsb : bound = 0 ∨ size ≤ bound) {d₀ : Nat}
    (hfit : Fits elem elemSize size (2 ^ k) bound d₀) :
    elemStartPt elem elemSize size (2 ^ k) bound ≠ 0 ∧
      d₀ ≤ elemStartPt elem elemSize size (2 ^ k) bound + 64 := by
  obtain ⟨j, hj, hb, hbits⟩ := hbound.bits
  have hhead := hfit.header
  have hstop := hfit.stop
  have hal := hfit.aligned
  simp only [mallocElemHeaderLen] at hhead
  have hle : d₀ ≤ (elem + elemSize - size) / 2 ^ k * 2 ^ k := Word.le_div_mul hal (by omega)
  obtain ⟨hsize, ⟨hsame, h64, heq⟩ | ⟨hsame, hsB, h64, heq⟩⟩ :=
    elemStartPt_eq hk hj hb hpos htop hx
  · rw [heq, if_neg (by omega)]
    omega
  · have hd := Word.div_mul_le (elem + elemSize - size) k
    -- without a boundary everything is in one block
    rcases hbits with rfl | ⟨rfl, rfl⟩
    swap
    · exact absurd ((Nat.div_eq_of_lt (by omega)).trans (Nat.div_eq_of_lt (by omega)).symm) hsame
    have hsj : size ≤ 2 ^ j := hsb.resolve_left (Nat.two_pow_pos j).ne'
    have hbelow := hfit.below_boundary hs hsame
    have hle' : d₀ ≤ ((elem + elemSize) / 2 ^ j * 2 ^ j - size) / 2 ^ k * 2 ^ k :=
      Word.le_div_mul hal (by omega)
    rw [heq, if_neg (not_not.mpr (floor_below_boundary hs hsj hsB)), if_neg (by omega)]
    omega

end

/-! ## The highest place -/

/-- Where the data must end: at the end of the element, or at the last boundary in front of it when
the highest aligned start is on the other side of one. -/
def endTop (endPt size align bound : Nat) : Nat :=
  if (endPt - size) / align * align / bound = (endPt - 1) / bound then endPt
  else endPt / bound * bound

/-- `elem_start_pt` answers with the highest place, or with `NULL` when there is none. -/
def Highest (elem elemSize size align bound : Nat) : Prop :=
  (elemStartPt elem elemSize size align bound = 0 ↔ ¬∃ d, Fits elem elemSize size align bound d) ∧
    (elemStartPt elem elemSize size align bound ≠ 0 →
      Fits elem elemSize size align bound (elemStartPt elem elemSize size align bound + mallocElemHeaderLen) ∧
        ∀ d, Fits elem elemSize size align bound d →
          d ≤ elemStartPt elem elemSize size align bound + mallocElemHeaderLen)

section

variable {elem elemSize size bound k j : Nat}

theorem endTop_le (endPt size align bound : Nat) : endTop endPt size align bound ≤ endPt := by
  unfold endTop
  split_ifs
  · exact Nat.le_refl _
  · exact Nat.div_mul_le_self _ _

/-- Blocks of a boundary and blocks of address bits are the same. -/
theorem div_bound {x : Nat} (hx : x < 2 ^ 64) (hbits : bound = 2 ^ j ∨ bound = 0 ∧ j = 64) :
    x / bound = x / 2 ^ j := by
  rcases hbits with rfl | ⟨rfl, rfl⟩
  · rfl
  · rw [Nat.div_zero, Nat.div_eq_of_lt hx]

/-- What the code returns as long as the data do not begin below zero. -/
theorem elemStartPt_val (hk : k < 32) (hbound : BoundOK bound) (hpos : 0 < elem)
    (htop : elem + elemSize < 2 ^ 64) (hs : 0 < size) (hsb : bound = 0 ∨ size ≤ bound)
    (hroom : size ≤ endTop (elem + elemSize) size (2 ^ k) bound) :
    elemStartPt elem elemSize size (2 ^ k) bound =
      let d := (endTop (elem + elemSize) size (2 ^ k) bound - size) / 2 ^ k * 2 ^ k
      if Word.sub 64 d 64 < elem then 0 else Word.sub 64 d 64 := by
  obtain ⟨j, hj, hb, hbits⟩ := hbound.bits
  have hsize := hroom.trans (endTop_le _ _ _ _)
  have hd := Word.div_mul_le (elem + elemSize - size) k
  have hmaskeq : ∀ u v : Nat, u < 2 ^ 64 → v < 2 ^ 64 →
      (u &&& Word.not 64 (2 ^ j - 1) = v &&& Word.not 64 (2 ^ j - 1) ↔ u / 2 ^ j = v / 2 ^ j) :=
    fun u v hu hv => Word.land_not_mask_inj hu hv hj
  have hend : Word.sub 64 (Word.add 64 elem elemSize) 0 = elem + elemSize := by
    rw [Word.add_eq htop, Word.sub_eq (Nat.zero_le _) htop, Nat.sub_zero]
  have hfloor : ∀ v, v < 2 ^ 64 → rteAlignFloor v (2 ^ k - 1) = v / 2 ^ k * 2 ^ k := fun v hv =>
    rteAlignFloor_two_pow hv (by omega)
  have hsame : ((elem + elemSize - size) / 2 ^ k * 2 ^ k / bound = (elem + elemSize - 1) / bound) ↔
      (elem + elemSize - size) / 2 ^ k * 2 ^ k / 2 ^ j = (elem + elemSize - 1) / 2 ^ j := by
    rw [div_bound (by omega) hbits, div_bound (by omega) hbits]
  simp only [elemStartPt, mallocElemTrailerLen, mallocElemHeaderLen, hend, hb, AlignOK.sub_one hk,
    Word.sub_eq hsize htop, Word.sub_eq (show 1 ≤ elem + elemSize by omega) htop, ne_eq,
    hfloor _ (show elem + elemSize - size < 2 ^ 64 by omega),
    hmaskeq _ _ (show (elem + elemSize - size) / 2 ^ k * 2 ^ k < 2 ^ 64 by omega)
      (show elem + elemSize - 1 < 2 ^ 64 by omega)]
  unfold endTop at hroom ⊢
  by_cases hb1 : (elem + elemSize - size) / 2 ^ k * 2 ^ k / 2 ^ j = (elem + elemSize - 1) / 2 ^ j
  · rw [if_neg (not_not.mpr hb1), if_pos (hsame.mpr hb1)]
  · rw [if_neg (mt hsame.mp hb1)] at hroom ⊢
    rw [if_pos hb1, rteAlignFloor_two_pow htop hj]
    rcases hbits with rfl | ⟨rfl, rfl⟩
    swap
    · exact absurd ((Nat.div_eq_of_lt (by omega)).trans (Nat.div_eq_of_lt (by omega)).symm) hb1
    have hendB := Word.div_mul_le (elem + elemSize) j
    have hd' := Word.div_mul_le ((elem + elemSize) / 2 ^ j * 2 ^ j - size) k
    have hcross := floor_below_boundary (k := k) hs (hsb.resolve_left (Nat.two_pow_pos j).ne') hroom
    rw [Word.sub_eq hroom (by omega), hfloor _ (by omega), Word.add_eq (by omega),
      Word.sub_eq (by omega) (by omega)]
    rw [if_neg (not_not.mpr ((hmaskeq _ _ (by omega) (by omega)).mpr hcross))]

/-- Nothing borrows when the header fits below the highest aligned start. -/
theorem startExact_of_room (hk : k < 32) (hbound : BoundOK bound) (hpos : 0 < elem)
    (htop : elem + elemSize < 2 ^ 64)
    (hroom : max (2 ^ k) mallocElemHeaderLen + size ≤ endTop (elem + elemSize) size (2 ^ k) bound) :
    StartExact (elem + elemSize) size (2 ^ k) bound := by
  obtain ⟨j, hj, hb, hbits⟩ := hbound.bits
  have hsize := hroom.trans (endTop_le _ _ _ _)
  have hd := Word.div_mul_le (elem + elemSize - size) k
  have hdvd : ∀ x, max (2 ^ k) 64 ≤ x → 64 ≤ x / 2 ^ k * 2 ^ k := fun x hx => by
    rcases Nat.le_total k 6 with h6 | h6
    · exact Word.le_div_mul (Nat.pow_dvd_pow 2 h6) (by omega)
    · have hle : 2 ^ k ≤ x / 2 ^ k * 2 ^ k := Word.le_div_mul dvd_rfl (by omega)
      have h64 : 2 ^ 6 ≤ 2 ^ k := Nat.pow_le_pow_right (by decide) h6
      omega
  have hmask : (dataStart (elem + elemSize) size (2 ^ k) &&& Word.not 64 (2 ^ j - 1) =
      (elem + elemSize - 1) &&& Word.not 64 (2 ^ j - 1)) ↔
      (elem + elemSize - size) / 2 ^ k * 2 ^ k / bound = (elem + elemSize - 1) / bound := by
    rw [dataStart_eq htop hk, Word.land_not_mask_inj (by omega) (by omega) hj,
      div_bound (by omega) hbits, div_bound (by omega) hbits]
  simp only [mallocElemHeaderLen] at hroom
  refine ⟨by omega, ?_⟩
  rw [hb]
  unfold endTop at hroom
  split_ifs at hroom with hsame
  · rw [if_pos (hmask.mpr hsame), dataStart_eq htop hk, mallocElemHeaderLen]
    exact hdvd _ (by omega)
  · have hendB := Word.div_mul_le (elem + elemSize) j
    rw [if_neg (mt hmask.mp hsame), rteAlignFloor_two_pow htop hj]
    rcases hbits with rfl | ⟨rfl, rfl⟩
    · rw [dataStart_eq (by omega) hk, mallocElemHeaderLen]
      exact ⟨by omega, hdvd _ (by omega)⟩
    · rw [Nat.div_zero, Nat.div_zero] at hsame
      exact absurd rfl hsame

/-- **`elem_start_pt` finds the highest place** exactly when the header fits below the data that end
highest. -/
theorem elemStartPt_highest_iff (hpos : 0 < elem) (hdvd : 64 ∣ elem) (htop : elem + elemSize < 2 ^ 64)
    (hs : 0 < size) (hk : k < 32) (hbound : BoundOK bound) (hsb : bound = 0 ∨ size ≤ bound)
    (hroom : size ≤ endTop (elem + elemSize) size (2 ^ k) bound) :
    Highest elem elemSize size (2 ^ k) bound ↔
      max (2 ^ k) mallocElemHeaderLen + size ≤ endTop (elem + elemSize) size (2 ^ k) bound := by
  constructor
  · intro h
    by_contra hno
    have hle := endTop_le (elem + elemSize) size (2 ^ k) bound
    have hd := Word.div_mul_le (endTop (elem + elemSize) size (2 ^ k) bound - size) k
    have hsmall : (endTop (elem + elemSize) size (2 ^ k) bound - size) / 2 ^ k * 2 ^ k < 64 := by
      rcases Nat.lt_or_ge (endTop (elem + elemSize) size (2 ^ k) bound - size) (2 ^ k) with hlt | hge
      · rw [Nat.div_eq_of_lt hlt]
        omega
      · simp only [mallocElemHeaderLen] at hno
        omega
    have hval := elemStartPt_val hk hbound hpos htop hs hsb hroom
    simp only at hval
    rw [Word.sub_eq_of_lt hsmall (by decide), if_neg (by omega)] at hval
    have hstop := (h.2 (by omega)).1.stop
    simp only [mallocElemHeaderLen] at hstop
    omega
  · intro h
    have hx := startExact_of_room hk hbound hpos htop h
    refine ⟨⟨?_, ?_⟩, fun hne => ⟨elemStartPt_fits hk hbound hpos htop hx hne, fun d hd => ?_⟩⟩
    · rintro h0 ⟨d, hd⟩
      exact (elemStartPt_complete hk hbound hpos htop hx hs hsb hd).1 h0
    · intro hno
      by_contra hne
      exact hno ⟨_, elemStartPt_fits hk hbound hpos htop hx hne⟩
    · exact (elemStartPt_complete hk hbound hpos htop hx hs hsb hd).2

theorem elemStartPt_highest_iff_page : Highest 4096 4096 100 (2 ^ 7) (2 ^ 10) ↔
    max (2 ^ 7) mallocElemHeaderLen + 100 ≤ endTop (4096 + 4096) 100 (2 ^ 7) (2 ^ 10) :=
  elemStartPt_highest_iff (by decide) (by decide) (by decide) (by decide) (by decide)
    (.inr ⟨10, by decide, Eq.refl _⟩) (.inr (by decide)) (by decide)

/-- A gigabyte at `2 ^ 30` has no place aligned to `2 ^ 31`, and the code finds one outside. -/
theorem not_highest : elemStartPt (2 ^ 30) (2 ^ 30) 64 (2 ^ 31) 0 ≠ 0 ∧
    ¬Highest (2 ^ 30) (2 ^ 30) 64 (2 ^ 31) 0 := by
  have hval : elemStartPt (2 ^ 30) (2 ^ 30) 64 (2 ^ 31) 0 = 2 ^ 64 - 64 := by decide
  refine ⟨by rw [hval]; decide, fun h => ?_⟩
  have hstop := (h.2 (by rw [hval]; decide)).1.stop
  rw [hval] at hstop
  exact absurd hstop (by decide)

end

end RteDemo
