import Mathlib.Tactic.IntervalCases
import RteDemo.Malloc.Serve
import RteDemo.Malloc.Wrap

/-!
# Complete allocations

An allocation is complete if it refuses a request exactly when no free element of the heap has room
for it on pages that the flags admit. The buckets hide no element with room, and the page hints are
followed. What breaks completeness is an element whose end is so low that `elem_start_pt` wraps: the
search takes it for one with room (`not_complete`). Without such an element every answer is right
(`HeapRep.complete_of_high`).
-/

namespace RteDemo

open Bytes Tiling

/-! ## Elements that end low -/

section

variable {elem elemSize size bound k : Nat}

/-- Data that fit end high enough for the alignment. -/
theorem Fits.endsHigh {d : Nat} (hfit : Fits elem elemSize size (2 ^ k) bound d) (hb : BoundOK bound)
    (hs : 0 < size) : 2 ^ k + size ≤ endTop (elem + elemSize) size (2 ^ k) bound := by
  have hhead := hfit.header
  have hstop := hfit.stop
  simp only [mallocElemHeaderLen] at hhead
  have hkd : 2 ^ k ≤ d := Nat.le_of_dvd (by omega) hfit.aligned
  unfold endTop
  split_ifs with hsame
  · omega
  rcases hb with rfl | ⟨j, -, rfl⟩
  · rw [Nat.div_zero, Nat.div_zero] at hsame
    exact absurd rfl hsame
  · -- the data lie in a block below the one where the element ends
    have hbelow := hfit.below_boundary hs hsame
    omega

theorem startExact_of_high (hk6 : 6 ≤ k) (hk : k < 32) (hb : BoundOK bound) (hpos : 0 < elem)
    (htop : elem + elemSize < 2 ^ 64)
    (hhigh : 2 ^ k + size ≤ endTop (elem + elemSize) size (2 ^ k) bound) :
    StartExact (elem + elemSize) size (2 ^ k) bound := by
  have h64 : 64 ≤ 2 ^ k := Nat.pow_le_pow_right (show 0 < 2 by decide) hk6
  refine startExact_of_room hk hb hpos htop ?_
  rw [mallocElemHeaderLen, Nat.max_eq_left h64]
  exact hhigh

/-- Lower alignments than a cache line make no difference in an element. -/
theorem Fits.exists_max_iff (he : 64 ∣ elem) (hd : 64 ∣ size) (hs : 0 < size) (hb : BoundOK bound)
    (hsb : bound = 0 ∨ size ≤ bound) :
    (∃ d, Fits elem elemSize size (2 ^ k) bound d) ↔
      ∃ d, Fits elem elemSize size (2 ^ max k 6) bound d := by
  constructor
  · rintro ⟨d, hfit⟩
    rcases Nat.le_total k 6 with h6 | h6
    · -- the cache line in which the data start
      obtain ⟨hhead, hstop, -, hnc⟩ := hfit
      simp only [mallocElemHeaderLen] at hhead
      rw [Nat.max_eq_right h6]
      refine ⟨d / 64 * 64, ?_, by omega, Nat.dvd_mul_left _ _, fun q => ?_⟩
      · simp only [mallocElemHeaderLen]
        omega
      · rcases hb with rfl | ⟨j, -, rfl⟩
        · exact .inl (by omega)
        · have hj : 2 ^ 6 ≤ 2 ^ j := by
            have := hsb.resolve_left (Nat.two_pow_pos j).ne'
            omega
          obtain ⟨t, ht⟩ : 64 ∣ q * 2 ^ j :=
            Dvd.dvd.mul_left (Word.two_pow_dvd_two_pow hj) q
          rcases hnc q with hq | hq
          · exact .inl (by omega)
          · exact .inr (by omega)
    · rw [Nat.max_eq_left h6]
      exact ⟨d, hfit⟩
  · rintro ⟨d, hfit⟩
    exact ⟨d, hfit.header, hfit.stop, (Nat.pow_dvd_pow 2 (Nat.le_max_left k 6)).trans hfit.aligned,
      hfit.bounded⟩

end

/-! ## Pages -/

/-- The flag of the pages under the element is set. -/
def PageAsked (s : HeapState) (flags elem : Nat) : Prop :=
  hugepageFlag (s.memseg.getD (s.elem .ms elem) default).hugepageSz &&& flags ≠ 0

/-- The flags admit the pages under the element. -/
def PageAdmitted (s : HeapState) (flags elem : Nat) : Prop :=
  flags = 0 ∨ AnyPage flags ∨ PageAsked s flags elem

/-- No page size has the flag `RTE_MEMZONE_SIZE_HINT_ONLY`. -/
theorem hugepageFlag_land (sz : Nat) :
    hugepageFlag sz &&& Word.not 32 rteMemzoneSizeHintOnly = hugepageFlag sz := by
  unfold hugepageFlag
  split_ifs <;> decide

section

variable {s : HeapState} {flags e : Nat}

/-- A flag that is set is not the hint. -/
theorem PageAsked.sized (h : PageAsked s flags e) :
    flags &&& Word.not 32 rteMemzoneSizeHintOnly ≠ 0 := by
  intro h0
  refine h ?_
  rw [← hugepageFlag_land, Nat.land_assoc, Nat.land_comm _ flags, h0, Nat.and_zero]

theorem pageOK_of_sized (h : flags &&& Word.not 32 rteMemzoneSizeHintOnly ≠ 0) :
    PageOK s flags e ↔ PageAsked s flags e := by
  rw [PageOK, checkHugepageSz, if_neg h, PageAsked]

/-- What `check_hugepage_sz` and the hint make of the flags. -/
theorem pageAdmitted_iff (hf : flags < 2 ^ 32) :
    PageAdmitted s flags e ↔ PageOK s flags e ∨ AnyPage flags := by
  by_cases h : flags &&& Word.not 32 rteMemzoneSizeHintOnly = 0
  · have hok : PageOK s flags e := by
      rw [PageOK, checkHugepageSz, if_pos h]
      exact one_ne_zero
    refine iff_of_true ?_ (.inl hok)
    by_cases hany : AnyPage flags
    · exact .inr (.inl hany)
    · -- all bits are in one of the two masks
      have hhint : flags &&& rteMemzoneSizeHintOnly = 0 := by
        by_contra h0
        exact hany h0
      have hmask : flags &&& (Word.not 32 rteMemzoneSizeHintOnly ||| rteMemzoneSizeHintOnly) = 0 := by
        rw [Nat.and_or_distrib_left, h, hhint, Nat.zero_or]
      have hall : Word.not 32 rteMemzoneSizeHintOnly ||| rteMemzoneSizeHintOnly = 2 ^ 32 - 1 := by decide
      rw [hall, Word.land_mask, Nat.mod_eq_of_lt hf] at hmask
      exact .inl hmask
  · have hne : flags ≠ 0 := by
      rintro rfl
      exact h (Nat.zero_and _)
    rw [pageOK_of_sized h, PageAdmitted, or_iff_right hne, Or.comm]

end

/-! ## The element the search takes -/

/-- The first element that can hold the request on pages that were asked for, else the first that can
hold it if any pages will do. -/
def firstAccepted (s : HeapState) (heap size flags align bound : Nat) : Option Nat :=
  let l := (s.mallocHeaps heap).candidates size
  (l.find? (suitable s size flags align bound)).or
    (if AnyPage flags then l.find? fun e => mallocElemCanHold s.mem e size align bound else none)

section

variable {s : HeapState} {ars : List Arena} {heap size flags align k bound e : Nat}

theorem HeapRep.findSuitableElement_eq (h : HeapRep s ars) :
    findSuitableElement s heap size flags align bound =
      (firstAccepted s heap size flags align bound).getD 0 := by
  rw [findSuitableElement, findLoop_eq h.candidate_ne_zero, if_neg (not_not.mpr rfl), firstAccepted]
  cases ((s.mallocHeaps heap).candidates size).find? (suitable s size flags align bound) with
  | some x => rfl
  | none =>
    rw [Option.getD_none, Option.none_or]
    split_ifs <;> rfl

theorem firstAccepted_some (h : firstAccepted s heap size flags align bound = some e) :
    e ∈ (s.mallocHeaps heap).candidates size ∧ mallocElemCanHold s.mem e size align bound = true ∧
      (PageOK s flags e ∨ AnyPage flags) := by
  rw [firstAccepted, Option.or_eq_some_iff] at h
  rcases h with hf | ⟨-, hg⟩
  · have hs := suitable_iff.mp (List.find?_some hf)
    exact ⟨List.mem_of_find?_eq_some hf, hs.1, .inl hs.2⟩
  · split_ifs at hg with hany
    have hcan := List.find?_some hg
    exact ⟨List.mem_of_find?_eq_some hg, hcan, .inr hany⟩

theorem firstAccepted_none (h : firstAccepted s heap size flags align bound = none)
    (hmem : e ∈ (s.mallocHeaps heap).candidates size)
    (hcan : mallocElemCanHold s.mem e size align bound = true) : ¬(PageOK s flags e ∨ AnyPage flags) := by
  rw [firstAccepted, Option.or_eq_none_iff] at h
  rintro (hpage | hany)
  · exact List.find?_eq_none.mp h.1 e hmem (suitable_iff.mpr ⟨hcan, hpage⟩)
  · have hg := h.2
    rw [if_pos hany] at hg
    have hcannot := List.find?_eq_none.mp hg e hmem
    exact hcannot hcan

/-- Pages that were asked for come first. -/
theorem firstAccepted_page (h : firstAccepted s heap size flags align bound = some e) {e' : Nat}
    (hmem : e' ∈ (s.mallocHeaps heap).candidates size)
    (hcan : mallocElemCanHold s.mem e' size align bound = true) (hpage : PageOK s flags e') :
    PageOK s flags e := by
  rw [firstAccepted, Option.or_eq_some_iff] at h
  rcases h with hf | ⟨hn, -⟩
  · exact (suitable_iff.mp (List.find?_some hf)).2
  · exact absurd (suitable_iff.mpr ⟨hcan, hpage⟩) (List.find?_eq_none.mp hn e' hmem)

end

/-! ## Completeness -/

/-- A free element of the heap with room for the request: its header and the data behind it. -/
def HasRoom (s : HeapState) (heap size align bound elem : Nat) : Prop :=
  (∃ idx, elem ∈ (s.mallocHeaps heap).freeHead idx) ∧
    ∃ d, Fits elem (s.elem .size elem) size align bound d

/-- Some free element has room, on pages that the flags admit. -/
def Serviceable (s : HeapState) (heap size flags align bound : Nat) : Prop :=
  ∃ e, HasRoom s heap size align bound e ∧ PageAdmitted s flags e

/-- Refused exactly when no element can serve the request, and served from pages that were asked for
when an element on such pages has room. -/
structure Complete (s : HeapState) (heap size flags align bound : Nat) : Prop where
  null : (mallocHeapAlloc s heap size flags align bound).2 = 0 ↔
    ¬Serviceable s heap size flags align bound
  page : (∃ e, HasRoom s heap size align bound e ∧ PageAsked s flags e) →
    PageAsked s flags (findSuitableElement s heap size flags (rteCacheLineRoundup 64 align) bound)

/-- Every element that the search accepts, on pages that the flags admit, ends high enough for the
alignment. The search stops at the first that is on pages that were asked for. -/
def SearchHigh (s : HeapState) (size flags align bound : Nat) : List Nat → Prop
  | [] => True
  | e :: rest =>
    (mallocElemCanHold s.mem e size align bound = true → PageAdmitted s flags e →
      align + size ≤ endTop (e + s.elem .size e) size align bound) ∧
      (suitable s size flags align bound e = true ∨ SearchHigh s size flags align bound rest)

section

variable {s : HeapState} {ars : List Arena} {heap size flags k bound e : Nat}

theorem HeapRep.listed_dvd (h : HeapRep s ars) {idx : Nat} (he : e ∈ (s.mallocHeaps heap).freeHead idx) :
    64 ∣ e := by
  obtain ⟨ar, har, -, n, hn, -⟩ := h.mem_freeHead.mp he
  obtain ⟨c, rfl, rfl, -, -, -⟩ := Focus.exists_plug har hn
  exact h.pos_dvd

theorem HeapRep.candidate_listed (h : HeapRep s ars) (he : e ∈ (s.mallocHeaps heap).candidates size) :
    ∃ idx, e ∈ (s.mallocHeaps heap).freeHead idx := by
  obtain ⟨ar, har, hheap, n, hn, -⟩ := h.mem_candidates.mp he
  exact ⟨_, h.mem_freeHead.mpr ⟨ar, har, hheap, n, hn, rfl⟩⟩

/-- The rounded alignment does not change which elements have room. -/
theorem HeapRep.hasRoom_max (h : HeapRep s ars) (hd : 64 ∣ size) (hs : 0 < size) (hb : BoundOK bound)
    (hsb : bound = 0 ∨ size ≤ bound) :
    HasRoom s heap size (2 ^ k) bound e ↔ HasRoom s heap size (2 ^ max k 6) bound e := by
  refine and_congr_right fun hl => ?_
  obtain ⟨idx, he⟩ := hl
  exact Fits.exists_max_iff (h.listed_dvd he) hd hs hb hsb

/-- The search can take every element that has room. -/
theorem HeapRep.hasRoom_accepted (h : HeapRep s ars) (hk6 : 6 ≤ k) (hk : k < 32) (hb : BoundOK bound)
    (hs : 0 < size) (hsb : bound = 0 ∨ size ≤ bound) (he : HasRoom s heap size (2 ^ k) bound e) :
    e ∈ (s.mallocHeaps heap).candidates size ∧
      mallocElemCanHold s.mem e size (2 ^ k) bound = true := by
  obtain ⟨⟨idx, hl⟩, d, hfit⟩ := he
  obtain ⟨-, -, -, -, hpos, htop⟩ := h.listed_elem hl
  obtain ⟨hmem, hcan⟩ := h.candidate_of_fits hl hfit hk hb hs hsb
  exact ⟨hmem, hcan (startExact_of_high hk6 hk hb hpos htop (hfit.endsHigh hb hs))⟩

/-- A request for which no element is accepted is refused. -/
theorem HeapRep.alloc_none {size' align align' : Nat} (h : HeapRep s ars)
    (hsize : rteCacheLineRoundup 64 size = size') (halign : rteCacheLineRoundup 64 align = align')
    (hnone : firstAccepted s heap size' flags align' bound = none) :
    (mallocHeapAlloc s heap size flags align bound).2 = 0 := by
  have hfind : findSuitableElement s heap size' flags align' bound = 0 := by
    rw [h.findSuitableElement_eq, hnone, Option.getD_none]
  rw [mallocHeapAlloc_eq hsize halign hfind, if_neg (not_not.mpr (Eq.refl 0))]

/-- Otherwise the answer is where the code places the data in the accepted element. -/
theorem HeapRep.alloc_some {size' align align' : Nat} (h : HeapRep s ars)
    (hsize : rteCacheLineRoundup 64 size = size') (halign : rteCacheLineRoundup 64 align = align')
    (hsome : firstAccepted s heap size' flags align' bound = some e) :
    elemStartPt e (s.elem .size e) size' align' bound ≠ 0 ∧
      (mallocHeapAlloc s heap size flags align bound).2 =
        rtePtrAdd (elemStartPt e (s.elem .size e) size' align' bound) 64 := by
  have hfind : findSuitableElement s heap size' flags align' bound = e := by
    rw [h.findSuitableElement_eq, hsome, Option.getD_some]
  obtain ⟨hmem, hcan, -⟩ := firstAccepted_some hsome
  have hne : elemStartPt e (s.elem .size e) size' align' bound ≠ 0 := bne_iff_ne.mp hcan
  refine ⟨hne, ?_⟩
  rw [mallocHeapAlloc_eq hsize halign hfind, if_pos (h.candidate_ne_zero e hmem)]
  dsimp only
  rw [mallocElemAlloc_snd, if_neg hne, mallocElemHeaderLen]

theorem SearchHigh.found {l : List Nat} (h : SearchHigh s size flags align bound l)
    (he : l.find? (suitable s size flags align bound) = some e) (hp : PageAdmitted s flags e) :
    align + size ≤ endTop (e + s.elem .size e) size align bound := by
  induction l with
  | nil => cases he
  | cons x l ih =>
    obtain ⟨hx, hrest⟩ := h
    rw [List.find?_cons] at he
    cases hs : suitable s size flags align bound x
    · rw [hs] at he hrest
      exact ih (hrest.resolve_left Bool.false_ne_true) he
    · rw [hs] at he
      obtain rfl := Option.some.inj he
      exact hx (suitable_iff.mp hs).1 hp

/-- A search that finds no suitable element visits the whole list. -/
theorem SearchHigh.all {l : List Nat} (h : SearchHigh s size flags align bound l)
    (hn : l.find? (suitable s size flags align bound) = none) (he : e ∈ l)
    (hcan : mallocElemCanHold s.mem e size align bound = true) (hp : PageAdmitted s flags e) :
    align + size ≤ endTop (e + s.elem .size e) size align bound := by
  induction l with
  | nil => cases he
  | cons x l ih =>
    obtain ⟨hx, hrest⟩ := h
    rw [List.find?_eq_none] at hn
    rcases List.mem_cons.mp he with rfl | he
    · exact hx hcan hp
    · exact ih (hrest.resolve_left (hn x List.mem_cons_self))
        (List.find?_eq_none.mpr fun e' h => hn e' (List.mem_cons_of_mem _ h)) he

/-- So the element that is taken ends high enough. -/
theorem SearchHigh.accepted
    (h : SearchHigh s size flags align bound ((s.mallocHeaps heap).candidates size)) (hf : flags < 2 ^ 32)
    (he : firstAccepted s heap size flags align bound = some e) :
    align + size ≤ endTop (e + s.elem .size e) size align bound := by
  obtain ⟨hmem, hcan, hpage⟩ := firstAccepted_some he
  have hp := (pageAdmitted_iff hf).mpr hpage
  rw [firstAccepted, Option.or_eq_some_iff] at he
  rcases he with hfound | ⟨hnone, -⟩
  · exact h.found hfound hp
  · exact h.all hnone hmem hcan hp

/-- **Completeness.** A request is refused exactly when no element can serve it, if the search accepts
no element that ends too low. -/
theorem HeapRep.complete_of_high (h : HeapRep s ars) (hk : k < 32) (hb : BoundOK bound) (hd : 64 ∣ size)
    (hs : 0 < size) (hs64 : size < 2 ^ 64) (hsb : bound = 0 ∨ size ≤ bound) (hf : flags < 2 ^ 32)
    (hhigh : SearchHigh s size flags (rteCacheLineRoundup 64 (2 ^ k)) bound
      ((s.mallocHeaps heap).candidates size)) :
    Complete s heap size flags (2 ^ k) bound := by
  have hsize : rteCacheLineRoundup 64 size = size :=
    rteCacheLineRoundup_of_dvd (by decide) hd (by omega)
  have halign := rteCacheLineRoundup_two_pow hk
  have hk6 := Nat.le_max_right k 6
  have hk32 : max k 6 < 32 := by omega
  have hmax : ∀ {e}, HasRoom s heap size (2 ^ k) bound e ↔ HasRoom s heap size (2 ^ max k 6) bound e :=
    h.hasRoom_max hd hs hb hsb
  rw [halign] at hhigh
  generalize max k 6 = K at halign hk6 hk32 hmax hhigh
  have hroom : ∀ {e}, HasRoom s heap size (2 ^ k) bound e → e ∈ (s.mallocHeaps heap).candidates size ∧
      mallocElemCanHold s.mem e size (2 ^ K) bound = true := fun he =>
    h.hasRoom_accepted hk6 hk32 hb hs hsb (hmax.mp he)
  cases hacc : firstAccepted s heap size flags (2 ^ K) bound with
  | none =>
    have hnone : ∀ {e}, HasRoom s heap size (2 ^ k) bound e → ¬(PageOK s flags e ∨ AnyPage flags) :=
      fun he => firstAccepted_none hacc (hroom he).1 (hroom he).2
    refine ⟨iff_of_true (h.alloc_none hsize halign hacc) ?_, ?_⟩
    · rintro ⟨e, he, hp⟩
      exact hnone he ((pageAdmitted_iff hf).mp hp)
    · rintro ⟨e, he, hp⟩
      exact absurd (.inl ((pageOK_of_sized hp.sized).mpr hp)) (hnone he)
  | some e =>
    obtain ⟨hne, hret⟩ := h.alloc_some hsize halign hacc
    obtain ⟨hmem, hcan, hpage⟩ := firstAccepted_some hacc
    obtain ⟨idx, hl⟩ := h.candidate_listed hmem
    obtain ⟨-, -, -, -, hpos, htop⟩ := h.listed_elem hl
    -- the accepted element has room
    have hexact := startExact_of_high hk6 hk32 hb hpos htop (hhigh.accepted hf hacc)
    have hfits := elemStartPt_fits hk32 hb hpos htop hexact hne
    have hserv : Serviceable s heap size flags (2 ^ k) bound :=
      ⟨e, hmax.mpr ⟨⟨idx, hl⟩, _, hfits⟩, (pageAdmitted_iff hf).mpr hpage⟩
    have hptr : (mallocHeapAlloc s heap size flags (2 ^ k) bound).2 ≠ 0 := by
      have hstop := hfits.stop
      rw [hret, rtePtrAdd_eq (by omega)]
      omega
    refine ⟨iff_of_false hptr (not_not.mpr hserv), ?_⟩
    rintro ⟨e', he', hp⟩
    rw [halign, h.findSuitableElement_eq, hacc, Option.getD_some, ← pageOK_of_sized hp.sized]
    exact firstAccepted_page hacc (hroom he').1 (hroom he').2 ((pageOK_of_sized hp.sized).mpr hp)

end

/-! ## A request that is refused although an element could serve it -/

/-- Two megabytes low in the address space and a gigabyte at `2 ^ 30`. -/
def unevenSegs : List RteMemseg := [⟨2 ^ 21, 2 ^ 21, 2 ^ 21, 0⟩, ⟨2 ^ 30, 2 ^ 30, 2 ^ 30, 0⟩]

theorem unevenSegs_ok : MemsegsOK unevenSegs where
  count := by decide
  pos := by decide
  dvd := by decide
  long := by decide
  top := by decide
  socket := by decide
  disjoint := by decide

/-- Their heap before anything is allocated. -/
def unevenSegsStart : RunState := ⟨rteEalMallocHeapInit (HeapState.boot unevenSegs fun _ => 0), []⟩

theorem unevenSegsStart_inv : Inv unevenSegs unevenSegsStart (segArenas unevenSegs) :=
  Inv.init unevenSegs_ok (m := fun _ => 0) rfl

/-- Each of them is one free element, the low one in bucket 7 and the other in bucket 11. -/
theorem freeAt_unevenSegs (idx : Nat) : freeAt 0 idx (segArenas unevenSegs) =
    (if 7 = idx then [2 ^ 21] else []) ++ if 11 = idx then [2 ^ 30] else [] := by
  have hlow : mallocElemFreeListIndex (2097088 - 64) = 7 := by decide
  have hhigh : mallocElemFreeListIndex (1073741760 - 64) = 11 := by decide
  have hone : ∀ e : Elem, e.use = .free → ∀ a, freeAddrs idx a [e] =
      if mallocElemFreeListIndex (e.size - 64) = idx then [a] else [] := by
    intro e he a
    simp only [freeAddrs, place]
    split_ifs with h <;> simp [h, he]
  have harenas : segArenas unevenSegs =
      [⟨0, 0, 2 ^ 21, [⟨2097088, .free⟩]⟩, ⟨0, 1, 2 ^ 30, [⟨1073741760, .free⟩]⟩] := rfl
  rw [harenas, freeAt, List.flatMap_cons, List.flatMap_cons, List.flatMap_nil, List.append_nil]
  rw [if_pos rfl, if_pos rfl, hone _ rfl, hone _ rfl, hlow, hhigh]

theorem unevenSegs_freeHead : (unevenSegsStart.heap.mallocHeaps 0).freeHead = fun idx =>
    (if 7 = idx then [2 ^ 21] else []) ++ if 11 = idx then [2 ^ 30] else [] := by
  funext idx
  have hperm := unevenSegsStart_inv.rep.listed 0 idx
  rw [freeAt_unevenSegs] at hperm
  split_ifs at hperm ⊢ with h7 h11 h11
  · omega
  · exact List.perm_singleton.mp hperm
  · exact List.perm_singleton.mp hperm
  · exact List.perm_nil.mp hperm

/-- The search meets the low element first, for the sizes of all buckets up to its own. -/
theorem unevenSegs_candidates {size : Nat} (hidx : mallocElemFreeListIndex size ≤ 7) :
    (unevenSegsStart.heap.mallocHeaps 0).candidates size = [2 ^ 21, 2 ^ 30] := by
  rw [MallocHeap.candidates, unevenSegs_freeHead]
  generalize mallocElemFreeListIndex size = idx at hidx
  interval_cases idx <;> decide

/-- The size of the low element. -/
theorem unevenSegs_low : unevenSegsStart.heap.elem .size (2 ^ 21) = 2097088 := by
  have hrep : HeapRep unevenSegsStart.heap (Focus.plug ⟨[], 0, 0, 2 ^ 21, [], [],
      [⟨0, 1, 2 ^ 30, [⟨1073741760, .free⟩]⟩]⟩ [⟨2097088, .free⟩]) := unevenSegsStart_inv.rep
  exact hrep.single_hdr.size

/-- The size of the other. -/
theorem unevenSegs_high : unevenSegsStart.heap.elem .size (2 ^ 30) = 1073741760 := by
  have hrep : HeapRep unevenSegsStart.heap (Focus.plug ⟨[⟨0, 0, 2 ^ 21, [⟨2097088, .free⟩]⟩], 0, 1,
      2 ^ 30, [], [], []⟩ [⟨1073741760, .free⟩]) := unevenSegsStart_inv.rep
  exact hrep.single_hdr.size

/-- A request that the low element is too small for: the search goes on to the other one. -/
theorem complete_of_high_unevenSegs : Complete unevenSegsStart.heap 0 (2 ^ 21) 0 (2 ^ 7) 0 := by
  have hcannot : mallocElemCanHold unevenSegsStart.heap.mem (2 ^ 21) (2 ^ 21) (2 ^ 7) 0 = false := by
    rw [mallocElemCanHold, show mallocElem.get .size unevenSegsStart.heap.mem (2 ^ 21) = 2097088 from
      unevenSegs_low]
    decide
  refine HeapRep.complete_of_high unevenSegsStart_inv.rep (by decide) (.inl rfl) (by decide) (by decide)
    (by decide) (.inl rfl) (by decide) ?_
  rw [unevenSegs_candidates (by decide)]
  refine ⟨fun hcan => ?_, .inr ⟨fun _ _ => ?_, .inr trivial⟩⟩
  · rw [show rteCacheLineRoundup 64 (2 ^ 7) = 2 ^ 7 by decide, hcannot] at hcan
    cases hcan
  · rw [unevenSegs_high]
    decide

/-- An alignment above the end of the low element makes it the one that is taken, and the answer is
`NULL`. -/
theorem unevenSegs_refused : (mallocHeapAlloc unevenSegsStart.heap 0 64 0 (2 ^ 25) 0).2 = 0 := by
  have hstart : elemStartPt (2 ^ 21) 2097088 64 (2 ^ 25) 0 = 2 ^ 64 - 64 := by decide
  have hcan : mallocElemCanHold unevenSegsStart.heap.mem (2 ^ 21) 64 (2 ^ 25) 0 = true := by
    rw [mallocElemCanHold, show mallocElem.get .size unevenSegsStart.heap.mem (2 ^ 21) = 2097088 from
      unevenSegs_low, hstart]
    decide
  have hfind := find_head (unevenSegs_candidates (by decide)) hcan
  rw [mallocHeapAlloc_eq (by decide) (by decide) hfind, if_pos (by decide)]
  dsimp only
  rw [mallocElemAlloc_snd, unevenSegs_low, hstart]
  decide

/-- The other element has room at the multiple of the alignment below its end. -/
theorem not_complete : Reach (MallocInit unevenSegs fun _ => 0) MallocStep unevenSegsStart ∧
    ¬Complete unevenSegsStart.heap 0 64 0 (2 ^ 25) 0 := by
  refine ⟨.start (Eq.refl _), fun h => ?_⟩
  refine h.null.mp unevenSegs_refused ⟨2 ^ 30, ⟨?_, 2 ^ 31 - 2 ^ 25, ?_⟩, ?_⟩
  · have hmem : 2 ^ 30 ∈ (unevenSegsStart.heap.mallocHeaps 0).candidates 64 := by
      rw [unevenSegs_candidates (by decide)]
      decide
    exact unevenSegsStart_inv.rep.candidate_listed hmem
  · rw [unevenSegs_high]
    exact ⟨by decide, by decide, by decide, noCross_zero _ _⟩
  · exact .inl (Eq.refl 0)

end RteDemo
