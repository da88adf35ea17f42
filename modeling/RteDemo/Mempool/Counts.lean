import RteDemo.Mempool.Conserve
import Mathlib.Algebra.BigOperators.Finprod

/-!
# The counts of a pool

`rte_mempool_avail_count` sums the ring and the caches, so it is what was populated less what is in the
hands of callers. `rte_mempool_in_use_count` subtracts this from the size of the pool: it counts the
objects that were never populated as in use (`use_counts`).
-/

namespace Mempool

open RteDemo Ring

variable {Obj : Type}

/-- `rte_mempool_ops_get_count`, which is `common_ring_get_count`. -/
def opsGetCount (mp : RteMempool Obj) : Nat := rteRingCount mp.poolData

/-- The sum over the caches in `rte_mempool_avail_count`. -/
def addCaches (mp : RteMempool Obj) (count : Nat) : Nat :=
  (List.range rteMaxLcore).foldl (fun count lcoreId => Word.add 32 count (mp.localCache lcoreId).len) count

/-- `rte_mempool_avail_count` -/
def rteMempoolAvailCount (mp : RteMempool Obj) : Nat :=
  let count := opsGetCount mp
  if mp.cacheSize = 0 then count
  else
    let count := addCaches mp count
    if count > mp.size then mp.size else count

/-- `rte_mempool_in_use_count` -/
def rteMempoolInUseCount (mp : RteMempool Obj) : Nat := Word.sub 32 mp.size (rteMempoolAvailCount mp)

/-- The number of objects in the hands of callers. -/
noncomputable def Pool.held (s : Pool Obj) : Nat := ∑ᶠ caller, (s.hands caller).card

/-- The counts are those of the objects. -/
structure CountsMatch (s : Pool Obj) : Prop where
  avail : rteMempoolAvailCount s.mp = s.populated.card - s.held
  inUse : rteMempoolInUseCount s.mp = s.held

/-! ## Where the objects are -/

/-- The parts that hold something make up the whole. -/
theorem card_parts {ι : Type*} {whole : Multiset Obj} {part : ι → Multiset Obj} [DecidableEq ι]
    (h : Parts whole part) (hw : whole.Nodup) {S : Finset ι} (hS : ∀ i ∉ S, part i = 0) :
    ∑ i ∈ S, (part i).card = whole.card := by
  rw [← Multiset.card_sum]
  refine congrArg Multiset.card (((h.nodup_sum S).ext hw).mpr fun x => ?_)
  rw [Multiset.mem_sum, h.mem_iff]
  constructor
  · rintro ⟨i, -, hi⟩
    exact ⟨i, hi⟩
  · rintro ⟨i, hi⟩
    refine ⟨i, ?_, hi⟩
    by_contra hout
    rw [hS i hout] at hi
    exact absurd hi (Multiset.notMem_zero x)

/-- Only finitely many parts hold something. -/
theorem finite_parts {ι : Type*} {whole : Multiset Obj} {part : ι → Multiset Obj} [DecidableEq ι]
    (h : Parts whole part) : {i | part i ≠ 0}.Finite := by
  by_contra hinf
  obtain ⟨S, hS, hcard⟩ := Set.Infinite.exists_subset_card_eq hinf (whole.card + 1)
  have hle := h.card_le S
  have hone : ∑ i ∈ S, 1 ≤ ∑ i ∈ S, (part i).card := by
    refine Finset.sum_le_sum fun i hi => ?_
    have hne : part i ≠ 0 := hS hi
    exact Nat.succ_le_of_lt (Multiset.card_pos.mpr hne)
  rw [Finset.sum_const, smul_eq_mul, mul_one, hcard] at hone
  omega

section

variable {s : Pool Obj}

/-- Objects are populated once. -/
theorem PoolStep.populated_nodup {fuel : Nat} {s' : Pool Obj} (hs : PoolStep fuel s s')
    (h : s.populated.Nodup) : s'.populated.Nodup := by
  cases hs with
  | @add obj _ _ hobj _ _ =>
    refine Multiset.nodup_add.mpr ⟨h, Multiset.nodup_singleton obj, Multiset.disjoint_left.mpr fun {x} hx hxo => ?_⟩
    exact hobj (Multiset.mem_singleton.mp hxo ▸ hx)
  | put => exact h
  | get => exact h
  | refillFails => exact h
  | ringDequeue => exact h

theorem nodup_of_reach {start : Pool Obj} (hstart : Start start) {fuel : Nat}
    (h : Reach (· = start) (PoolStep fuel) s) : s.populated.Nodup := by
  refine h.invariant (I := fun s => s.populated.Nodup) ?_ fun _ _ hn hstep => hstep.populated_nodup hn
  rintro s rfl
  rw [hstart.populated]
  exact Multiset.nodup_zero

/-- The objects in the caches. -/
def Pool.cached (s : Pool Obj) : Nat :=
  ∑ lcoreId ∈ Finset.range rteMaxLcore, (cacheObjs (rteMempoolDefaultCache s.mp lcoreId)).card

/-- **Ring, caches and hands** have all that was populated. -/
theorem PoolInv.card_eq (h : PoolInv s) (hn : s.populated.Nodup) :
    rteRingCount s.mp.poolData + s.cached + s.held = s.populated.card := by
  have hfin := finite_parts h.parts
  obtain ⟨F, hF⟩ : ∃ F : Finset Nat, ∀ caller, s.hands caller ≠ 0 → caller ∈ F := by
    have hpre : (Set.preimage Place.hands {i | s.part i ≠ 0}).Finite :=
      hfin.preimage fun a _ b _ hab => Place.hands.inj hab
    exact ⟨hpre.toFinset, fun caller hc => hpre.mem_toFinset.mpr hc⟩
  have hheld : s.held = ∑ caller ∈ F, (s.hands caller).card := by
    refine finsum_eq_sum_of_support_subset _ fun caller hc => ?_
    exact hF caller fun h0 => hc (congrArg Multiset.card h0)
  have hsum := card_parts h.parts hn (S := {Place.ring} ∪ (Finset.range rteMaxLcore).image Place.cache ∪
    F.image Place.hands) fun i hi => ?_
  · rw [Finset.sum_union, Finset.sum_union, Finset.sum_singleton, Finset.sum_image, Finset.sum_image] at hsum
    · rw [hheld, Pool.cached, ← hsum]
      simp only [Pool.part, ringObjs, card_tableObjs]
    · exact fun a _ b _ hab => Place.hands.inj hab
    · exact fun a _ b _ hab => Place.cache.inj hab
    · simp
    · simp [Finset.disjoint_left]
  · simp only [Finset.mem_union, Finset.mem_singleton, Finset.mem_image, Finset.mem_range, not_or, not_exists,
      not_and] at hi
    obtain ⟨⟨hring, hcache⟩, hhands⟩ := hi
    cases i with
    | ring => exact absurd rfl hring
    | cache lcoreId =>
      have hge : ¬lcoreId < rteMaxLcore := fun hlt => hcache lcoreId hlt rfl
      rw [Pool.part, rteMempoolDefaultCache]
      split_ifs
      · rfl
      · rfl
      · omega
    | hands caller =>
      by_contra hne
      exact hhands caller (hF caller hne) rfl

/-- A sum that stays below `2 ^ 32` does not wrap. -/
theorem foldl_add_eq (f : Nat → Nat) : ∀ (l : List Nat) (acc : Nat), acc + (l.map f).sum < 2 ^ 32 →
    l.foldl (fun acc i => Word.add 32 acc (f i)) acc = acc + (l.map f).sum
  | [], acc, _ => by simp
  | i :: l, acc, h => by
    simp only [List.map_cons, List.sum_cons] at h
    rw [List.foldl_cons, Word.add_eq (by omega), foldl_add_eq f l (acc + f i) (by omega), List.map_cons,
      List.sum_cons, Nat.add_assoc]

/-- The loop over the caches adds the objects in them. -/
theorem addCaches_eq (h0 : s.mp.cacheSize ≠ 0) {count : Nat} (hlt : count + s.cached < 2 ^ 32) :
    addCaches s.mp count = count + s.cached := by
  have hcached : s.cached = ((List.range rteMaxLcore).map fun lcoreId => (s.mp.localCache lcoreId).len).sum := by
    have hrange : (List.range rteMaxLcore).toFinset = Finset.range rteMaxLcore := by
      ext lcoreId
      rw [List.mem_toFinset, List.mem_range, Finset.mem_range]
    rw [Pool.cached, ← hrange, List.sum_toFinset _ List.nodup_range]
    refine congrArg List.sum (List.map_congr_left fun lcoreId hl => ?_)
    rw [rteMempoolDefaultCache, if_neg h0, if_neg (Nat.not_le.mpr (List.mem_range.mp hl)), cacheObjs, card_tableObjs]
  rw [addCaches, foldl_add_eq (fun lcoreId => (s.mp.localCache lcoreId).len) _ _ (hcached ▸ hlt), ← hcached]

theorem cached_of_zero (h0 : s.mp.cacheSize = 0) : s.cached = 0 := by
  refine Finset.sum_eq_zero fun lcoreId _ => ?_
  rw [rteMempoolDefaultCache, if_pos h0]
  rfl

/-- What is available is what nobody holds. -/
theorem PoolInv.availCount (h : PoolInv s) (hn : s.populated.Nodup) (hsize : s.mp.size < 2 ^ 31) :
    rteMempoolAvailCount s.mp + s.held = s.populated.card := by
  have hcard := h.card_eq hn
  have hle := h.populated_le
  rw [rteMempoolAvailCount, opsGetCount]
  by_cases h0 : s.mp.cacheSize = 0
  · rw [cached_of_zero h0] at hcard
    simp only [if_pos h0]
    omega
  · have hadd := addCaches_eq h0 (show rteRingCount s.mp.poolData + s.cached < 2 ^ 32 by omega)
    simp only [if_neg h0, hadd]
    rw [if_neg (by omega)]
    exact hcard

theorem PoolInv.countsMatch_iff (h : PoolInv s) (hn : s.populated.Nodup) (hsize : s.mp.size < 2 ^ 31) :
    CountsMatch s ↔ s.populated.card = s.mp.size := by
  have havail := h.availCount hn hsize
  have hle := h.populated_le
  have hinUse : rteMempoolInUseCount s.mp = s.mp.size - rteMempoolAvailCount s.mp := by
    rw [rteMempoolInUseCount, Word.sub_eq (by omega) (by omega)]
  constructor
  · rintro ⟨-, huse⟩
    omega
  · intro hfull
    exact ⟨by omega, by omega⟩

/-- **The counts of a pool.** The number of available objects is right in every state, the number of
those in use in the states in which the pool is populated to its size, and only in these. -/
theorem use_counts {start : Pool Obj} (hstart : Start start) (hsize : start.mp.size < 2 ^ 31) {fuel : Nat}
    (h : Reach (· = start) (PoolStep (fuel + 1)) s) :
    rteMempoolAvailCount s.mp = s.populated.card - s.held ∧
      (CountsMatch s ↔ s.populated.card = s.mp.size) := by
  obtain ⟨hinv, -, hsz⟩ := poolInv_of_reach hstart hsize h
  have hn := nodup_of_reach hstart h
  have havail := hinv.availCount hn (hsz ▸ hsize)
  exact ⟨by omega, hinv.countsMatch_iff hn (hsz ▸ hsize)⟩

/-- A pool can be populated with any objects that it has room for. -/
theorem exists_populated {start : Pool Obj} (hstart : Start start) (hsize : start.mp.size < 2 ^ 31)
    (fuel : Nat) : ∀ l : List Obj, l.Nodup → l.length ≤ start.mp.size →
      ∃ s, Reach (· = start) (PoolStep (fuel + 1)) s ∧ s.populated = l
  | [], _, _ => ⟨start, .start rfl, hstart.populated⟩
  | obj :: l, hl, hlen => by
    obtain ⟨hobj, hl⟩ := List.nodup_cons.mp hl
    rw [List.length_cons] at hlen
    obtain ⟨s, hreach, hpop⟩ := exists_populated hstart hsize fuel l hl (by omega)
    obtain ⟨hinv, -, hsz⟩ := poolInv_of_reach hstart hsize hreach
    have hnew : obj ∉ s.populated := by rwa [hpop, Multiset.mem_coe]
    have hroom : s.populated.card < s.mp.size := by
      rw [hpop, Multiset.coe_card, hsz]
      omega
    obtain ⟨mp', hcode, -⟩ := hinv.add fuel hnew hroom
    refine ⟨_, hreach.next (.add hnew hroom hcode), ?_⟩
    simp only [hpop]
    rw [add_comm]
    exact Multiset.singleton_add obj l

end

/-- Caller 0 holds one of the three objects. -/
theorem use_counts_few : ∃ s, Reach (· = few) (PoolStep 1) s ∧ s.hands 0 = {192} ∧ CountsMatch s := by
  obtain ⟨s, hreach, hpop, hhands, -⟩ := exists_fewRun
  refine ⟨s, hreach, hhands, (use_counts start_few (by decide) hreach).2.mpr ?_⟩
  rw [hpop, (poolInv_of_reach start_few (by decide) hreach).2.2]
  rfl

/-- A pool for three objects with only one in it has two in use before anybody asks for one. -/
theorem not_use_counts : ∃ s, Start few ∧ Reach (· = few) (PoolStep 1) s ∧ s.populated.card = 1 ∧
    ¬CountsMatch s := by
  obtain ⟨s, hreach, hpop⟩ := exists_populated start_few (by decide) 0 [64] (by decide) (by decide)
  obtain ⟨hinv, -, hsz⟩ := poolInv_of_reach start_few (by decide) hreach
  have hone : s.populated.card = 1 := by rw [hpop, Multiset.coe_card, List.length_singleton]
  have hthree : s.mp.size = 3 := hsz
  refine ⟨s, start_few, hreach, hone, fun h => ?_⟩
  have hfull := (hinv.countsMatch_iff (nodup_of_reach start_few hreach) (by omega)).mp h
  omega

end Mempool
