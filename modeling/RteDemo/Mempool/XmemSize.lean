import RteDemo.Mempool.Populate

/-!
# `rte_mempool_xmem_size`

The estimate counts whole pages; `rte_mempool_populate_phy` packs objects one behind the other from
the first aligned address on. A chunk of the estimated size that starts on a page holds the objects,
provided a page is no smaller than the alignment of an object (`xmemSize_enough`).
-/

namespace MempoolPopulate

open RteDemo Bytes Mempool

/-- `rte_mempool_xmem_size` -/
def rteMempoolXmemSize (eltNum totalEltSz pgShift _flags : Nat) : Nat :=
  if totalEltSz = 0 then 0
  else if pgShift = 0 then Word.mul 64 totalEltSz eltNum
  else
    let pgSz := 1 <<< pgShift % 2 ^ 64
    let objPerPage := pgSz / totalEltSz
    if objPerPage = 0 then Word.mul 64 (rteAlignCeil 64 totalEltSz pgSz) eltNum
    else
      let pgNum := Word.sub 64 (Word.add 64 eltNum objPerPage) 1 / objPerPage
      pgNum <<< pgShift % 2 ^ 64

/-- The estimate as a number. -/
def xmemBytes (eltNum total pgShift : Nat) : Nat :=
  if pgShift = 0 then total * eltNum
  else if 2 ^ pgShift < total then (total + 2 ^ pgShift - 1) / 2 ^ pgShift * 2 ^ pgShift * eltNum
  else (eltNum + 2 ^ pgShift / total - 1) / (2 ^ pgShift / total) * 2 ^ pgShift

section

variable {eltNum total pgShift : Nat}

/-- The estimate is exact when it fits. -/
theorem xmemSize_eq (hnum : eltNum < 2 ^ 32) (hpos : 0 < total) (htotal : total < 2 ^ 32)
    (hshift : pgShift < 64) (hfit : xmemBytes eltNum total pgShift < 2 ^ 64) (flags : Nat) :
    rteMempoolXmemSize eltNum total pgShift flags = xmemBytes eltNum total pgShift := by
  have hpage : 1 <<< pgShift % 2 ^ 64 = 2 ^ pgShift := by
    rw [Nat.one_shiftLeft, Nat.mod_eq_of_lt (Nat.pow_lt_pow_right (by decide) hshift)]
  have htop : 2 ^ pgShift ≤ 2 ^ 63 := Nat.pow_le_pow_right (by decide) (by omega)
  rw [rteMempoolXmemSize, if_neg (by omega)]
  unfold xmemBytes at hfit ⊢
  by_cases h0 : pgShift = 0
  · rw [if_pos h0] at hfit ⊢
    rw [if_pos h0, Word.mul_eq hfit]
  rw [if_neg h0] at hfit ⊢
  rw [if_neg h0]
  simp only [hpage]
  by_cases hbig : 2 ^ pgShift < total
  · rw [if_pos hbig] at hfit ⊢
    have hceil : rteAlignCeil 64 total (2 ^ pgShift) =
        (total + 2 ^ pgShift - 1) / 2 ^ pgShift * 2 ^ pgShift := by
      have hsum : Word.add 64 total (2 ^ pgShift - 1) = total + 2 ^ pgShift - 1 := by
        have hone := Nat.two_pow_pos pgShift
        rw [Word.add_eq (by omega)]
        omega
      rw [rteAlignCeil, hsum]
      exact Word.land_not_mask (by omega) (by omega)
    rw [if_pos (Nat.div_eq_of_lt hbig), hceil, Word.mul_eq hfit]
  · rw [if_neg hbig] at hfit ⊢
    have hper : 0 < 2 ^ pgShift / total := Nat.div_pos (by omega) hpos
    have hle : 2 ^ pgShift / total ≤ 2 ^ pgShift := Nat.div_le_self _ _
    rw [if_neg (Nat.pos_iff_ne_zero.mp hper), Word.add_eq (by omega), Word.sub_eq (by omega) (by omega),
      Nat.shiftLeft_eq, Nat.mod_eq_of_lt hfit]

/-- The estimate holds the objects without gaps. -/
theorem le_xmemBytes_div (hpos : 0 < total) : eltNum ≤ xmemBytes eltNum total pgShift / total := by
  rw [Nat.le_div_iff_mul_le hpos]
  unfold xmemBytes
  split_ifs with h0 hbig
  · rw [Nat.mul_comm]
  · have hceil : total ≤ (total + 2 ^ pgShift - 1) / 2 ^ pgShift * 2 ^ pgShift := by
      have hlt := Word.lt_div_mul_add (total + 2 ^ pgShift - 1) pgShift
      omega
    rw [Nat.mul_comm eltNum]
    exact Nat.mul_le_mul_right eltNum hceil
  · have hper : 0 < 2 ^ pgShift / total := Nat.div_pos (by omega) hpos
    generalize hk : 2 ^ pgShift / total = k at hper
    have hpack : k * total ≤ 2 ^ pgShift := hk ▸ Nat.div_mul_le_self _ _
    have hpages : eltNum ≤ (eltNum + k - 1) / k * k := by
      have hdiv := Nat.div_add_mod (eltNum + k - 1) k
      have hmod := Nat.mod_lt (eltNum + k - 1) hper
      rw [Nat.mul_comm] at hdiv
      omega
    calc eltNum * total ≤ (eltNum + k - 1) / k * k * total := Nat.mul_le_mul_right total hpages
      _ = (eltNum + k - 1) / k * (k * total) := Nat.mul_assoc ..
      _ ≤ (eltNum + k - 1) / k * 2 ^ pgShift := Nat.mul_le_mul_left _ hpack

theorem dvd_xmemBytes (h : 0 < pgShift) : 2 ^ pgShift ∣ xmemBytes eltNum total pgShift := by
  unfold xmemBytes
  rw [if_neg (Nat.pos_iff_ne_zero.mp h)]
  split_ifs
  · exact Dvd.dvd.mul_right (Nat.dvd_mul_left _ _) _
  · exact Nat.dvd_mul_left _ _

end

section

variable {mp : RteMempool} {mem : Mem} {vaddr : Nat}

/-- From an address that is aligned already the loop starts at once. -/
theorem startOff_zero (h : objAlign mp.flags ∣ vaddr) : startOff mp vaddr = 0 := by
  obtain ⟨hlt, hdvd⟩ := alignGap_spec vaddr mp.flags
  have hgap : objAlign mp.flags ∣ alignGap vaddr (objAlign mp.flags) := (Nat.dvd_add_right h).mp hdvd
  exact Nat.eq_zero_of_dvd_of_lt hgap hlt

/-- **The estimate is enough**, for pages that are no smaller than the alignment of an object. -/
theorem xmemSize_enough (hs : mp.Sized) {env : Env}
    (hready : mp.flags &&& mempoolFPoolCreated ≠ 0 ∨ env.opsAlloc = 0) (hmemhdr : env.memhdr ≠ 0)
    {eltNum pgShift : Nat} (hnum : 1 ≤ eltNum) (hroom : mp.populatedSize + eltNum ≤ mp.size)
    (hshift : pgShift < 64)
    (hfit : xmemBytes eltNum (mp.headerSize + mp.eltSize + mp.trailerSize) pgShift < 2 ^ 64)
    (hchunk : vaddr + rteMempoolXmemSize eltNum (mp.headerSize + mp.eltSize + mp.trailerSize) pgShift
      mp.flags < 2 ^ 64) (freeCb opaqueArg : Nat) :
    ((pgShift = 0 ∨ objAlign mp.flags ≤ 2 ^ pgShift) →
      (if pgShift = 0 then rteCacheLineSize ∣ vaddr else 2 ^ pgShift ∣ vaddr) →
      ∃ (mp' : RteMempool) (mem' : Mem) (k : Nat), eltNum ≤ k ∧
      rteMempoolPopulatePhy env mp mem vaddr
        (rteMempoolXmemSize eltNum (mp.headerSize + mp.eltSize + mp.trailerSize) pgShift mp.flags)
        freeCb opaqueArg = (toInt k, mp', mem') ∧
      mp'.eltList.length = mp.eltList.length + k ∧ mp'.enqueued.length = mp.enqueued.length + k ∧
      mp'.populatedSize = mp.populatedSize + k) ∧
    (0 < pgShift → 2 ^ pgShift ∣
      rteMempoolXmemSize eltNum (mp.headerSize + mp.eltSize + mp.trailerSize) pgShift mp.flags) := by
  have hh := hs.header
  have hpos : sizeofObjhdr = 16 := rfl
  have hsz := hs.size
  have hval := xmemSize_eq (by omega) (by omega) hs.total hshift hfit mp.flags
  rw [hval] at hchunk ⊢
  refine ⟨fun hpage haligned => ?_, fun h => dvd_xmemBytes h⟩
  have halign : objAlign mp.flags ∣ vaddr := by
    by_cases h0 : pgShift = 0
    · rw [if_pos h0] at haligned
      rcases objAlign_cases mp.flags with ⟨-, h⟩ | ⟨-, h⟩ <;> rw [h]
      · exact haligned
      · exact Dvd.dvd.trans (by decide) haligned
    · rw [if_neg h0] at haligned
      have hle := hpage.resolve_left h0
      have hpow : ∃ k, objAlign mp.flags = 2 ^ k := by
        rcases objAlign_cases mp.flags with ⟨-, h⟩ | ⟨-, h⟩
        · exact ⟨6, h⟩
        · exact ⟨3, h⟩
      obtain ⟨k, hk⟩ := hpow
      rw [hk] at hle ⊢
      exact (Word.two_pow_dvd_two_pow hle).trans haligned
  have hcount : eltNum ≤ chunkCount mp vaddr
      (xmemBytes eltNum (mp.headerSize + mp.eltSize + mp.trailerSize) pgShift) := by
    rw [chunkCount, startOff_zero halign, fitting, Nat.sub_zero]
    exact Nat.le_min.mpr ⟨by omega, le_xmemBytes_div (by omega)⟩
  obtain ⟨mp', hcode, helt, henq, hpop⟩ :=
    @populatePhy_eq mp mem vaddr _ hs (by omega) env hready hmemhdr hchunk freeCb opaqueArg
  refine ⟨mp', _, _, hcount, by rw [hcode, if_neg (by omega)], ?_, ?_, hpop⟩
  · rw [helt, List.length_append, List.length_map, chunkObjs, objs, List.length_map, List.length_range]
  · rw [henq, List.length_append, chunkObjs, objs, List.length_map, List.length_range]

/-- Two objects of two cache lines, with pages of four kilobytes. -/
theorem xmemSize_enough_fourObjs :
    (∃ (mp' : RteMempool) (mem' : Mem) (k : Nat), 2 ≤ k ∧
      rteMempoolPopulatePhy ⟨0, 2 ^ 12⟩ fourObjs (fun _ => 0) (2 ^ 16)
        (rteMempoolXmemSize 2 128 12 mempoolFPoolCreated) 0 0 = (toInt k, mp', mem') ∧
      mp'.eltList.length = k) ∧ 2 ^ 12 ∣ rteMempoolXmemSize 2 128 12 mempoolFPoolCreated := by
  have hsized : fourObjs.Sized := ⟨by decide, by decide, by decide⟩
  obtain ⟨hobjs, hpages⟩ :=
    @xmemSize_enough fourObjs (fun _ => 0) (2 ^ 16) hsized ⟨0, 2 ^ 12⟩ (.inr rfl) (by decide) 2 12
      (by decide) (by decide) (by decide) (by decide) (by decide) 0 0
  obtain ⟨mp', mem', k, hk, hcode, helt, -, -⟩ := hobjs (.inr (by decide)) (by decide)
  exact ⟨⟨mp', mem', k, hk, hcode, helt.trans (Nat.zero_add k)⟩, hpages (by decide)⟩

/-- With pages of two bytes a chunk that starts on a page can be too short. -/
theorem not_xmemSize_enough :
    rteMempoolXmemSize 1 128 1 mempoolFPoolCreated = 128 ∧ 2 ^ 1 ∣ 2 ^ 16 + 2 ∧
      (rteMempoolPopulatePhy ⟨0, 2 ^ 12⟩ fourObjs (fun _ => 0) (2 ^ 16 + 2) 128 0 0).1 = -einval := by
  decide

end

end MempoolPopulate
