import RteDemo.Eal.NumPages
import Mathlib.Data.List.Sort

/-!
# Sorting the hugepage sizes

`eal_hugepage_info_init` collects the page sizes that have a mount point and sorts them with `qsort`,
the largest first. Its comparison returns a 64-bit difference as an `int`, so it sees 32 bits of the
difference. The sizes come out in order exactly when those bits tell the sign (`hugepages_sorted`).

`qsort` is the one of the C library: it is a parameter, and sorts by any consistent comparison.
-/

namespace EalMemory

open RteDemo

/-! ## The comparison -/

/-- The conversion of an unsigned word to an `int`. -/
def toInt (x : Nat) : Int := (x : Int).bmod (2 ^ 32)

/-- `compare_hpi` -/
def compareHpi (a b : HugepageInfo) : Int := toInt (Word.sub 64 b.hugepageSz a.hugepageSz)

/-- What `qsort` relies on, for the entries of `l`. -/
structure Consistent (cmp : HugepageInfo → HugepageInfo → Int) (l : List HugepageInfo) : Prop where
  antisymm : ∀ a ∈ l, ∀ b ∈ l, (cmp b a).sign = -(cmp a b).sign
  trans : ∀ a ∈ l, ∀ b ∈ l, ∀ c ∈ l, cmp a b ≤ 0 → cmp b c ≤ 0 → cmp a c ≤ 0

/-- `qsort` permutes the array into the order of a consistent comparison. -/
def QsortOK (qsort : (HugepageInfo → HugepageInfo → Int) → List HugepageInfo → List HugepageInfo) : Prop :=
  ∀ cmp l, Consistent cmp l → (qsort cmp l).Perm l ∧ (qsort cmp l).Pairwise fun a b => cmp a b ≤ 0

/-! ## Collecting the sizes -/

/-- `MAX_HUGEPAGE_SIZES` -/
@[simp] def maxHugepageSizes : Nat := 3

/-- What the initialization asks the system for. -/
structure HugepageSys where
  /-- `rte_str_to_size` -/
  strToSize : String → Nat
  /-- `get_hugepage_dir` -/
  getHugepageDir : Nat → Option String
  /-- `flock` succeeds. -/
  flock : String → Bool
  /-- `clear_hugedir` succeeds. -/
  clearHugedir : String → Bool
  /-- `get_num_hugepages` -/
  getNumHugepages : String → Nat

theorem rteMaxNumaNodes_pos : 0 < rteMaxNumaNodes := by decide

def socketZero : Socket := ⟨0, rteMaxNumaNodes_pos⟩

/-- The loop over the directory entries; `none` if it breaks. -/
def readHugepageDirs (sys : HugepageSys) (found : List HugepageInfo) :
    List String → Option (List HugepageInfo)
  | [] => some found
  | dName :: rest =>
    if "hugepages-".isPrefixOf dName = false then readHugepageDirs sys found rest
    else if maxHugepageSizes ≤ found.length then none
    else
      let hugepageSz := sys.strToSize ((dName.drop "hugepages-".length).toString)
      match sys.getHugepageDir hugepageSz with
      | none => readHugepageDirs sys found rest
      | some hugedir =>
        if sys.flock hugedir = false then none
        else if sys.clearHugedir hugedir = false then none
        else
          -- all pages go to socket 0 for now
          let numPages := fun socket => if socket = socketZero then sys.getNumHugepages dName else 0
          readHugepageDirs sys (found ++ [⟨hugepageSz, some hugedir, numPages⟩]) rest

/-- `eal_hugepage_info_init`: the part of `hugepage_info` in use, unless the loop broke, and the value
returned. -/
def ealHugepageInfoInit (qsort : (HugepageInfo → HugepageInfo → Int) → List HugepageInfo → List HugepageInfo)
    (sys : HugepageSys) (dirents : List String) : Option (List HugepageInfo) × Int :=
  match readHugepageDirs sys [] dirents with
  | none => (none, -1)
  | some found =>
    let infos := qsort compareHpi found
    (some infos, if infos.any fun hpi => hpi.hugedir.isSome && decide (0 < hpi.numPages socketZero) then 0 else -1)

/-! ## The sign of a truncated difference -/

theorem toInt_eq (x : Nat) : toInt x =
    if x % 2 ^ 32 < 2 ^ 31 then ((x % 2 ^ 32 : Nat) : Int) else ((x % 2 ^ 32 : Nat) : Int) - 2 ^ 32 := by
  unfold toInt
  rw [Int.bmod_eq_emod (x : Int) (2 ^ 32)]
  split <;> split <;> omega

section

variable {a b : HugepageInfo}

theorem compareHpi_pos_iff (hlt : a.hugepageSz < b.hugepageSz) (hb : b.hugepageSz < 2 ^ 64) :
    0 < compareHpi a b ↔ 0 < (b.hugepageSz - a.hugepageSz) % 2 ^ 32 ∧
      (b.hugepageSz - a.hugepageSz) % 2 ^ 32 < 2 ^ 31 := by
  rw [compareHpi, Word.sub_eq hlt.le hb, toInt_eq]
  split <;> omega

theorem compareHpi_neg (hlt : b.hugepageSz < a.hugepageSz) (ha : a.hugepageSz < 2 ^ 64)
    (hpos : 0 < (a.hugepageSz - b.hugepageSz) % 2 ^ 32)
    (hle : (a.hugepageSz - b.hugepageSz) % 2 ^ 32 < 2 ^ 31) : compareHpi a b < 0 := by
  have hsub := Word.sub_eq_of_lt hlt ha
  -- the low bits of the borrowed difference are those of its complement
  have hlow : Word.sub 64 b.hugepageSz a.hugepageSz % 2 ^ 32 =
      2 ^ 32 - (a.hugepageSz - b.hugepageSz) % 2 ^ 32 := by
    rw [hsub]
    omega
  rw [compareHpi, toInt_eq, hlow]
  split <;> omega

theorem compareHpi_same (heq : a.hugepageSz = b.hugepageSz) (hb : b.hugepageSz < 2 ^ 64) :
    compareHpi a b = 0 := by
  rw [compareHpi, heq, Word.sub_eq (Nat.le_refl _) hb, Nat.sub_self]
  decide

end

/-! ## The order of the sizes -/

/-- The low 32 bits of any difference of two sizes of `l` are its sign. -/
def DiffsFit (l : List HugepageInfo) : Prop :=
  ∀ a ∈ l, ∀ b ∈ l, a.hugepageSz < b.hugepageSz →
    0 < (b.hugepageSz - a.hugepageSz) % 2 ^ 32 ∧ (b.hugepageSz - a.hugepageSz) % 2 ^ 32 < 2 ^ 31

/-- The comparison tells the order of the sizes. -/
def SignsAgree (l : List HugepageInfo) : Prop :=
  ∀ a ∈ l, ∀ b ∈ l, (compareHpi a b).sign = ((b.hugepageSz : Int) - a.hugepageSz).sign

/-- The largest size comes first. -/
def Descending (l : List HugepageInfo) : Prop := l.Pairwise fun a b => b.hugepageSz ≤ a.hugepageSz

section

variable {l : List HugepageInfo}

theorem signsAgree_iff (h64 : ∀ a ∈ l, a.hugepageSz < 2 ^ 64) : SignsAgree l ↔ DiffsFit l := by
  constructor
  · intro h a ha b hb hlt
    have hsign := h a ha b hb
    rw [Int.sign_eq_one_of_pos (a := (b.hugepageSz : Int) - a.hugepageSz) (by omega)] at hsign
    exact (compareHpi_pos_iff hlt (h64 b hb)).mp (Int.sign_eq_one_iff_pos.mp hsign)
  · intro h a ha b hb
    rcases Nat.lt_trichotomy a.hugepageSz b.hugepageSz with hlt | heq | hgt
    · have hpos := (compareHpi_pos_iff hlt (h64 b hb)).mpr (h a ha b hb hlt)
      rw [Int.sign_eq_one_of_pos hpos, Int.sign_eq_one_of_pos (by omega)]
    · rw [compareHpi_same heq (h64 b hb), heq, Int.sub_self]
    · obtain ⟨hpos, hle⟩ := h b hb a ha hgt
      have hneg := compareHpi_neg hgt (h64 a ha) hpos hle
      rw [Int.sign_eq_neg_one_of_neg hneg, Int.sign_eq_neg_one_of_neg (by omega)]

theorem SignsAgree.nonpos_iff (h : SignsAgree l) {a b : HugepageInfo} (ha : a ∈ l) (hb : b ∈ l) :
    compareHpi a b ≤ 0 ↔ b.hugepageSz ≤ a.hugepageSz := by
  have hsign := h a ha b hb
  rcases Nat.lt_or_ge a.hugepageSz b.hugepageSz with hlt | hge
  · rw [Int.sign_eq_one_of_pos (a := (b.hugepageSz : Int) - a.hugepageSz) (by omega)] at hsign
    have hpos := Int.sign_eq_one_iff_pos.mp hsign
    omega
  · have hnot : ¬0 < compareHpi a b := fun hpos => by
      rw [Int.sign_eq_one_of_pos hpos] at hsign
      have := Int.sign_eq_one_iff_pos.mp hsign.symm
      omega
    omega

theorem SignsAgree.consistent (h : SignsAgree l) : Consistent compareHpi l where
  antisymm a ha b hb := by
    rw [h a ha b hb, h b hb a ha, ← Int.sign_neg, Int.neg_sub]
  trans a ha b hb c hc hab hbc := by
    rw [h.nonpos_iff ha hb] at hab
    rw [h.nonpos_iff hb hc] at hbc
    exact (h.nonpos_iff ha hc).mpr (hbc.trans hab)

theorem SignsAgree.descending (h : SignsAgree l)
    {qsort : (HugepageInfo → HugepageInfo → Int) → List HugepageInfo → List HugepageInfo}
    (hq : QsortOK qsort) : Descending (qsort compareHpi l) := by
  obtain ⟨hperm, hsorted⟩ := hq compareHpi l h.consistent
  refine hsorted.imp_of_mem fun ha hb hle => ?_
  exact (h.nonpos_iff (hperm.mem_iff.mp ha) (hperm.mem_iff.mp hb)).mp hle

end

/-- All sizes collected are 64-bit words. -/
theorem readHugepageDirs_lt {sys : HugepageSys} (h64 : ∀ text, sys.strToSize text < 2 ^ 64)
    {dirents : List String} {found infos : List HugepageInfo}
    (h : readHugepageDirs sys found dirents = some infos)
    (hfound : ∀ a ∈ found, a.hugepageSz < 2 ^ 64) : ∀ a ∈ infos, a.hugepageSz < 2 ^ 64 := by
  induction dirents generalizing found with
  | nil =>
    cases h
    exact hfound
  | cons dName rest ih =>
    rw [readHugepageDirs] at h
    split at h
    · exact ih h hfound
    · split at h
      · cases h
      · dsimp only at h
        split at h
        · exact ih h hfound
        · split at h
          · cases h
          · split at h
            · cases h
            · refine ih h fun a ha => ?_
              rcases List.mem_append.mp ha with hold | hnew
              · exact hfound a hold
              · rw [List.mem_singleton.mp hnew]
                exact h64 _

/-- What the comparison and the sort promise for a list of sizes. -/
structure SizesSorted (qsort : (HugepageInfo → HugepageInfo → Int) → List HugepageInfo → List HugepageInfo)
    (l : List HugepageInfo) : Prop where
  sign : SignsAgree l
  consistent : Consistent compareHpi l
  perm : (qsort compareHpi l).Perm l
  descending : Descending (qsort compareHpi l)

/-- The promise is kept by the sizes whose differences are told by their low 32 bits, and the
initialization then leaves `hugepage_info` in descending order. -/
theorem hugepages_sorted
    {qsort : (HugepageInfo → HugepageInfo → Int) → List HugepageInfo → List HugepageInfo}
    (hq : QsortOK qsort) :
    (∀ l : List HugepageInfo, (∀ a ∈ l, a.hugepageSz < 2 ^ 64) → (SizesSorted qsort l ↔ DiffsFit l)) ∧
      ∀ sys dirents infos, (∀ text, sys.strToSize text < 2 ^ 64) →
        (ealHugepageInfoInit qsort sys dirents).1 = some infos →
        ∃ found, readHugepageDirs sys [] dirents = some found ∧ infos = qsort compareHpi found ∧
          (DiffsFit found → infos.Perm found ∧ Descending infos) := by
  have hiff : ∀ l : List HugepageInfo, (∀ a ∈ l, a.hugepageSz < 2 ^ 64) →
      (SizesSorted qsort l ↔ DiffsFit l) := by
    intro l h64
    refine ⟨fun h => (signsAgree_iff h64).mp h.sign, fun h => ?_⟩
    have hsign := (signsAgree_iff h64).mpr h
    exact ⟨hsign, hsign.consistent, (hq compareHpi l hsign.consistent).1, hsign.descending hq⟩
  refine ⟨hiff, fun sys dirents infos h64 hinit => ?_⟩
  rw [ealHugepageInfoInit] at hinit
  cases hfound : readHugepageDirs sys [] dirents with
  | none =>
    rw [hfound] at hinit
    cases hinit
  | some found =>
    rw [hfound] at hinit
    cases hinit
    refine ⟨found, rfl, rfl, fun hfits => ?_⟩
    have hsorted := (hiff found (readHugepageDirs_lt h64 hfound fun a ha => absurd ha List.not_mem_nil)).mpr hfits
    exact ⟨hsorted.perm, hsorted.descending⟩

/-! ## The usual sizes, and larger ones -/

/-- A sort for any comparison that is consistent on the list. -/
def sortBy (cmp : HugepageInfo → HugepageInfo → Int) (l : List HugepageInfo) : List HugepageInfo :=
  (l.attach.mergeSort fun a b => decide (cmp a.1 b.1 ≤ 0)).map Subtype.val

theorem sortBy_ok : QsortOK sortBy := by
  intro cmp l h
  constructor
  · have hperm := (List.mergeSort_perm l.attach fun a b => decide (cmp a.1 b.1 ≤ 0)).map Subtype.val
    rwa [List.attach_map_subtype_val] at hperm
  · have hsorted := @List.pairwise_mergeSort _ (fun a b : { x // x ∈ l } => decide (cmp a.1 b.1 ≤ 0))
      (fun a b c hab hbc => ?_) (fun a b => ?_) l.attach
    · exact List.pairwise_map.mpr (hsorted.imp fun hle => of_decide_eq_true hle)
    · exact decide_eq_true (h.trans a.1 a.2 b.1 b.2 c.1 c.2 (of_decide_eq_true hab) (of_decide_eq_true hbc))
    · have hsign := h.antisymm a.1 a.2 b.1 b.2
      rcases Int.lt_or_le 0 (cmp a.1 b.1) with hpos | hle
      · rw [Int.sign_eq_one_of_pos hpos] at hsign
        have hneg := Int.sign_eq_neg_one_iff_neg.mp hsign
        simp [hneg.le]
      · simp [hle]

def page (hugepageSz : Nat) : HugepageInfo := ⟨hugepageSz, some "/mnt/huge", fun _ => 1⟩

/-- `RTE_PGSIZE_2M` and `RTE_PGSIZE_1G`, as they are found on most machines. -/
theorem hugepages_sorted_x86 : SizesSorted sortBy [page (2 ^ 21), page (2 ^ 30)] := by
  refine ((hugepages_sorted sortBy_ok).1 _ (by simp [page])).mpr ?_
  simp [DiffsFit, page]

/-- `RTE_PGSIZE_16G` and `RTE_PGSIZE_1G`: the comparison puts the smaller size first. -/
theorem not_hugepages_sorted : QsortOK sortBy ∧ ¬∀ l : List HugepageInfo,
    (∀ a ∈ l, a.hugepageSz < 2 ^ 64) → SizesSorted sortBy l := by
  refine ⟨sortBy_ok, fun h => ?_⟩
  have hsign := (h [page (2 ^ 34), page (2 ^ 30)] (by simp [page])).sign
  have hbad := hsign (page (2 ^ 30)) (by simp) (page (2 ^ 34)) (by simp)
  revert hbad
  decide

end EalMemory
