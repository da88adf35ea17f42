import RteDemo.Common
import Mathlib.Data.List.SplitBy

/-!
# Memory segments of the primary and the secondary process

`rte_eal_hugepage_init` compacts the table of hugepages (`copyHugepagesToSharedMem`) and walks it once
to build the memory segments, comparing every entry with the one before it (`memsegLoop`).
`rte_eal_hugepage_attach` walks the same table once for each segment and adds up offsets (`mapSegs`).

The segments are the maximal runs of contiguous pages, and attaching maps every page of the table at
its final address (`memseg_runs_attach`).
-/

namespace EalMemory

open RteDemo

/-- `struct hugepage_file` -/
structure HugepageFile where
  finalVa : Nat
  physaddr : Nat
  size : Nat
  socketId : Int
  memsegId : Int
  filepath : String
  deriving DecidableEq

/-- An entry of the zero-filled table. -/
def HugepageFile.zero : HugepageFile := ⟨0, 0, 0, 0, 0, ""⟩

/-- `struct rte_memseg` -/
structure RteMemseg where
  iova : Nat
  addr : Nat
  len : Nat
  socketId : Int
  hugepageSz : Nat
  deriving DecidableEq

def RteMemseg.setLen (seg : RteMemseg) (len : Nat) : RteMemseg := { seg with len := len }

def HugepageFile.setId (hp : HugepageFile) (j : Int) : HugepageFile := { hp with memsegId := j }

/-! ## The primary process -/

/-- `copy_hugepages_to_shared_mem`: the part of `dst` from `dst_pos` on, and of `src` from `src_pos`
on. -/
def copyHugepagesToSharedMem : List HugepageFile → List HugepageFile → Option (List HugepageFile)
  | dst, [] => some dst
  | dst, hp :: src =>
    if hp.finalVa ≠ 0 then
      match dst with
      | [] => none
      | _ :: dst => (copyHugepagesToSharedMem dst src).map (hp :: ·)
    else copyHugepagesToSharedMem dst src

/-- Whether entry `i` starts a new segment, given entry `i - 1`. -/
def newMemseg (prev : Option HugepageFile) (hp : HugepageFile) : Bool :=
  match prev with
  | none => true
  | some prev =>
    hp.socketId ≠ prev.socketId || hp.size ≠ prev.size ||
      Word.sub 64 hp.physaddr prev.physaddr ≠ hp.size ||
      Word.sub 64 hp.finalVa prev.finalVa ≠ hp.size

/-- The loop of `rte_eal_hugepage_init` over the entries from `i` on, with `mcfg->memseg` and `j`.
`none` when `j` reaches `RTE_MAX_MEMSEG`. -/
def memsegLoop (memseg : Int → RteMemseg) (j : Int) (prev : Option HugepageFile) :
    List HugepageFile → Option (List HugepageFile × (Int → RteMemseg))
  | [] => some ([], memseg)
  | hp :: rest =>
    if newMemseg prev hp then
      if j + 1 = rteMaxMemseg then none
      else
        (memsegLoop
            (Function.update memseg (j + 1)
              { iova := hp.physaddr, addr := hp.finalVa, len := hp.size, socketId := hp.socketId,
                hugepageSz := hp.size })
            (j + 1) (some hp) rest).map
          fun res => (hp.setId (j + 1) :: res.1, res.2)
    else
      (memsegLoop
          (Function.update memseg j
            ((memseg j).setLen (Word.add 64 (memseg j).len (memseg j).hugepageSz)))
          j (some hp) rest).map
        fun res => (hp.setId j :: res.1, res.2)

/-- The part of `rte_eal_hugepage_init` that fills the shared table and the segments. -/
def hugepageInit (memseg : Int → RteMemseg) (tmpHp : List HugepageFile) :
    Option (List HugepageFile × (Int → RteMemseg)) :=
  (copyHugepagesToSharedMem (List.replicate tmpHp.length .zero) tmpHp).bind
    (memsegLoop memseg (-1) none)

/-! ## The secondary process -/

/-- What the secondary asks the kernel for: opening a file, and mapping `/dev/zero` (`none`) or a file
at a hint. -/
structure Kernel where
  openRdwr : String → Bool
  mmap : Option String → Nat → Nat → Option Nat

/-- A page mapped by the secondary. -/
structure Mapping where
  filepath : String
  addr : Nat
  size : Nat
  deriving DecidableEq

/-- The loop that reserves the address range of every segment, from segment `s` on. -/
def reserveSegs (k : Kernel) (memseg : Int → RteMemseg) (s : Nat) : Nat → Option Unit
  | 0 => some ()
  | fuel + 1 =>
    if (memseg s).len = 0 then some ()
    else if k.mmap none (memseg s).addr (memseg s).len = some (memseg s).addr then
      reserveSegs k memseg (s + 1) fuel
    else none

/-- The loop over the table for segment `s`. -/
def mapPages (k : Kernel) (s : Nat) (baseAddr len offset : Nat) :
    List HugepageFile → Option (List Mapping)
  | [] => some []
  | hp :: rest =>
    if offset < len then
      if hp.memsegId = s then
        if k.openRdwr hp.filepath then
          let addr := rtePtrAdd baseAddr offset
          if k.mmap (some hp.filepath) addr hp.size = some addr then
            (mapPages k s baseAddr len (Word.add 64 offset hp.size) rest).map
              (⟨hp.filepath, addr, hp.size⟩ :: ·)
          else none
        else none
      else mapPages k s baseAddr len offset rest
    else some []

/-- The loop over the segments, from segment `s` on. -/
def mapSegs (k : Kernel) (memseg : Int → RteMemseg) (hp : List HugepageFile) (s : Nat) :
    Nat → Option (List Mapping)
  | 0 => some []
  | fuel + 1 =>
    if (memseg s).len > 0 then do
      let pages ← mapPages k s (memseg s).addr (memseg s).len 0 hp
      let rest ← mapSegs k memseg hp (s + 1) fuel
      some (pages ++ rest)
    else some []

/-- `rte_eal_hugepage_attach`, with the pages it has mapped. -/
def rteEalHugepageAttach (k : Kernel) (memseg : Int → RteMemseg) (hp : List HugepageFile) :
    Option (List Mapping) := do
  reserveSegs k memseg 0 rteMaxMemseg
  mapSegs k memseg hp 0 rteMaxMemseg

/-! ## Compaction -/

/-- A page that is in use. -/
def HugepageFile.active (hp : HugepageFile) : Bool := hp.finalVa ≠ 0

/-- The active pages come first, in order, and zero entries behind them. -/
theorem copyHugepages_eq (src : List HugepageFile) {n : Nat} (h : src.length ≤ n) :
    copyHugepagesToSharedMem (List.replicate n .zero) src =
      some (src.filter (·.active) ++
        List.replicate (n - (src.filter (·.active)).length) .zero) := by
  induction src generalizing n with
  | nil => simp [copyHugepagesToSharedMem]
  | cons hp src ih =>
    rw [List.length_cons] at h
    obtain ⟨m, rfl⟩ : ∃ m, n = m + 1 := ⟨n - 1, by omega⟩
    rw [List.filter_cons]
    unfold copyHugepagesToSharedMem
    by_cases ha : hp.finalVa = 0
    · rw [if_neg (not_not.2 ha), ih (by omega), if_neg (by simp [HugepageFile.active, ha])]
    · rw [if_pos ha, List.replicate_succ, if_pos (by simp [HugepageFile.active, ha])]
      simp only
      rw [ih (by omega), List.length_cons, Nat.succ_sub_succ]
      rfl

/-! ## Runs -/

/-- The entry continues the one before it: same socket, same size, and both addresses go on where
the page before ends. -/
def Continues (prev hp : HugepageFile) : Prop :=
  hp.socketId = prev.socketId ∧ hp.size = prev.size ∧
    hp.physaddr = Word.add 64 prev.physaddr prev.size ∧
    hp.finalVa = Word.add 64 prev.finalVa prev.size

instance (prev hp : HugepageFile) : Decidable (Continues prev hp) :=
  inferInstanceAs (Decidable (_ ∧ _))

/-- `runs` cuts `pages` into maximal runs of contiguous entries. -/
structure MaximalRuns (pages : List HugepageFile) (runs : List (List HugepageFile)) : Prop where
  flatten : runs.flatten = pages
  nonempty : [] ∉ runs
  contiguous : ∀ run ∈ runs, run.IsChain Continues
  maximal : runs.IsChain fun run next =>
    ∀ x ∈ run.getLast?, ∀ y ∈ next.head?, ¬Continues x y

/-- Every list of pages has them. -/
theorem exists_maximalRuns (pages : List HugepageFile) : ∃ runs, MaximalRuns pages runs := by
  let r : HugepageFile → HugepageFile → Bool := fun x y => decide (Continues x y)
  refine ⟨pages.splitBy r, List.flatten_splitBy r pages, List.nil_notMem_splitBy r pages,
    fun run hrun => ?_, ?_⟩
  · exact (List.isChain_of_mem_splitBy hrun).imp fun x y hxy => of_decide_eq_true hxy
  · refine (List.isChain_getLast_head_splitBy r pages).imp fun run next h x hx y hy => ?_
    obtain ⟨hrun, hnext, hcut⟩ := h
    rw [List.getLast?_eq_getLast_of_ne_nil hrun] at hx
    rw [List.head?_eq_some_head hnext] at hy
    rw [← Option.some.inj hx, ← Option.some.inj hy]
    exact of_decide_eq_false hcut

/-- What the kernel promises of a mapped page: it is not empty, its addresses are words, and it does
not go past the end of the address space. -/
structure HugepageFile.Mapped (hp : HugepageFile) : Prop where
  va : hp.finalVa ≠ 0
  size_pos : 0 < hp.size
  end_le : hp.finalVa + hp.size ≤ 2 ^ 64
  physaddr_lt : hp.physaddr < 2 ^ 64

variable {p q : HugepageFile} {run rest : List HugepageFile}

theorem word_sub_eq_iff {a b d : Nat} (ha : a < 2 ^ 64) (hd : d < 2 ^ 64) :
    Word.sub 64 a b = d ↔ a = Word.add 64 b d := by
  unfold Word.sub Word.add
  omega

/-- The four tests of the loop. -/
theorem newMemseg_eq_false_iff (hq : q.Mapped) :
    newMemseg (some p) q = false ↔ Continues p q := by
  have hqva := hq.va
  have hqend := hq.end_le
  have hqpos := hq.size_pos
  have hphys := word_sub_eq_iff (b := p.physaddr) hq.physaddr_lt (show q.size < 2 ^ 64 by omega)
  have hfinal := word_sub_eq_iff (a := q.finalVa) (b := p.finalVa) (by omega)
    (show q.size < 2 ^ 64 by omega)
  simp only [newMemseg, Bool.or_eq_false_iff, decide_eq_false_iff_not, not_not, hphys, hfinal,
    Continues]
  constructor
  · rintro ⟨⟨⟨hsock, hsize⟩, h1⟩, h2⟩
    exact ⟨hsock, hsize, hsize ▸ h1, hsize ▸ h2⟩
  · rintro ⟨hsock, hsize, h1, h2⟩
    exact ⟨⟨⟨hsock, hsize⟩, hsize ▸ h1⟩, hsize ▸ h2⟩

theorem Continues.finalVa_eq (h : Continues p q) (hp : p.Mapped) (hq : q.Mapped) :
    q.finalVa = p.finalVa + p.size := by
  have hva := h.2.2.2
  have hpend := hp.end_le
  have hqva := hq.va
  unfold Word.add at hva
  omega

/-- The bytes of the pages. -/
def runLen (run : List HugepageFile) : Nat := (run.map (·.size)).sum

@[simp] theorem runLen_nil : runLen [] = 0 := rfl

@[simp] theorem runLen_cons (p : HugepageFile) (run : List HugepageFile) :
    runLen (p :: run) = p.size + runLen run := List.sum_cons

theorem runLen_pos (h : p.Mapped) : 0 < runLen (p :: run) := by
  have hpos := h.size_pos
  rw [runLen_cons]
  omega

/-- A contiguous run does not go past the end of the address space. -/
theorem run_end_le (hchain : (p :: run).IsChain Continues) (hm : ∀ x ∈ p :: run, x.Mapped) :
    p.finalVa + runLen (p :: run) ≤ 2 ^ 64 := by
  induction run generalizing p with
  | nil =>
    have hend := (hm p List.mem_cons_self).end_le
    simpa using hend
  | cons q run ih =>
    have hp := hm p List.mem_cons_self
    have hq := hm q (List.mem_cons_of_mem _ List.mem_cons_self)
    rw [List.isChain_cons_cons] at hchain
    have hva := hchain.1.finalVa_eq hp hq
    have hle := ih hchain.2 fun x hx => hm x (List.mem_cons_of_mem _ hx)
    rw [runLen_cons]
    omega

/-! ## The loop over the table -/

/-- The memseg of a run. -/
def segOf : List HugepageFile → RteMemseg
  | [] => ⟨0, 0, 0, 0, 0⟩
  | p :: run => ⟨p.physaddr, p.finalVa, runLen (p :: run), p.socketId, p.size⟩

/-- The pages that continue the current run make its memseg longer. -/
theorem memsegLoop_continue (memseg : Int → RteMemseg) (j : Int) (rest : List HugepageFile)
    (hchain : (p :: run).IsChain Continues) (hm : ∀ x ∈ p :: run, x.Mapped)
    (hsz : (memseg j).hugepageSz = p.size) (hlen : (memseg j).len + runLen run < 2 ^ 64) :
    memsegLoop memseg j (some p) (run ++ rest) =
      (memsegLoop
          (Function.update memseg j ((memseg j).setLen ((memseg j).len + runLen run))) j
          (some (run.getLastD p)) rest).map
        fun res => (run.map (·.setId j) ++ res.1, res.2) := by
  induction run generalizing p memseg with
  | nil =>
    rw [runLen_nil, Nat.add_zero, RteMemseg.setLen, Function.update_eq_self]
    exact Option.map_id'.symm
  | cons q run ih =>
    have hq := hm q (List.mem_cons_of_mem _ List.mem_cons_self)
    rw [List.isChain_cons_cons] at hchain
    have hnew : newMemseg (some p) q = false := (newMemseg_eq_false_iff hq).2 hchain.1
    have hsize : q.size = p.size := hchain.1.2.1
    rw [runLen_cons, hsize] at hlen
    rw [List.cons_append, memsegLoop, hnew, if_neg Bool.false_ne_true, hsz,
      Word.add_eq (by omega), ih _ hchain.2 fun x hx => hm x (List.mem_cons_of_mem _ hx)]
    · rw [Function.update_self, Function.update_idem, Option.map_map, runLen_cons, hsize,
        List.getLastD_cons, ← Nat.add_assoc]
      rfl
    · rw [Function.update_self]
      exact hsz.trans hsize.symm
    · rw [Function.update_self]
      change (memseg j).len + p.size + runLen run < 2 ^ 64
      omega

/-- A run gets the next memseg, or there is none left. -/
theorem memsegLoop_run (memseg : Int → RteMemseg) (j : Int) (prev : Option HugepageFile)
    (rest : List HugepageFile) (hchain : (p :: run).IsChain Continues)
    (hm : ∀ x ∈ p :: run, x.Mapped) (hnew : newMemseg prev p = true) :
    memsegLoop memseg j prev (p :: run ++ rest) =
      if j + 1 = rteMaxMemseg then none
      else
        (memsegLoop (Function.update memseg (j + 1) (segOf (p :: run))) (j + 1)
            (some (run.getLastD p)) rest).map
          fun res => ((p :: run).map (·.setId (j + 1)) ++ res.1, res.2) := by
  have hva := (hm p List.mem_cons_self).va
  have hend := run_end_le hchain hm
  rw [runLen_cons] at hend
  rw [List.cons_append, memsegLoop, if_pos hnew]
  split
  · rfl
  · rw [memsegLoop_continue _ _ rest hchain hm, Function.update_self, Function.update_idem,
      Option.map_map]
    · rfl
    · rw [Function.update_self]
    · rw [Function.update_self]
      change p.size + runLen run < 2 ^ 64
      omega

/-- The table of memsegs with those of the runs from index `k` on. -/
def placeSegs (memseg : Int → RteMemseg) (k : Nat) : List (List HugepageFile) → (Int → RteMemseg)
  | [] => memseg
  | run :: runs => placeSegs (Function.update memseg k (segOf run)) (k + 1) runs

/-- The pages of the runs with their memseg's index. -/
def labelRuns (k : Nat) : List (List HugepageFile) → List HugepageFile
  | [] => []
  | run :: runs => run.map (·.setId k) ++ labelRuns (k + 1) runs

/-- The entry in front of what follows the runs. -/
def lastOf (prev : Option HugepageFile) : List (List HugepageFile) → Option HugepageFile
  | [] => prev
  | run :: runs => lastOf (run.getLast?.or prev) runs

theorem newMemseg_eq_true_of {prev : Option HugepageFile} (hp : p.Mapped)
    (h : ∀ x ∈ prev, ¬Continues x p) : newMemseg prev p = true := by
  cases prev with
  | none => rfl
  | some x =>
    rcases hb : newMemseg (some x) p with _ | _
    · exact absurd ((newMemseg_eq_false_iff hp).1 hb) (h x rfl)
    · rfl

/-- All runs get a memseg each. -/
theorem memsegLoop_runs {memseg : Int → RteMemseg} {k : Nat} {prev : Option HugepageFile}
    {runs : List (List HugepageFile)} {rest : List HugepageFile}
    {res : List HugepageFile × (Int → RteMemseg)} (hk : k ≤ rteMaxMemseg)
    (hne : [] ∉ runs) (hchain : ∀ run ∈ runs, run.IsChain Continues)
    (hm : ∀ run ∈ runs, ∀ x ∈ run, x.Mapped)
    (hmax : runs.IsChain fun run next => ∀ x ∈ run.getLast?, ∀ y ∈ next.head?, ¬Continues x y)
    (hprev : ∀ run ∈ runs.head?, ∀ x ∈ prev, ∀ y ∈ run.head?, ¬Continues x y)
    (hres : memsegLoop memseg (k - 1) prev (runs.flatten ++ rest) = some res) :
    k + runs.length ≤ rteMaxMemseg ∧ ∃ res',
      memsegLoop (placeSegs memseg k runs) ((k + runs.length : Nat) - 1) (lastOf prev runs) rest =
        some res' ∧ res = (labelRuns k runs ++ res'.1, res'.2) := by
  induction runs generalizing memseg k prev res with
  | nil => exact ⟨hk, res, hres, rfl⟩
  | cons run runs ih =>
    obtain ⟨p, run, rfl⟩ := List.exists_cons_of_ne_nil fun h : run = [] => hne (h ▸ List.mem_cons_self)
    have hpm := hm (p :: run) List.mem_cons_self
    have hnew : newMemseg prev p = true :=
      newMemseg_eq_true_of (hpm p List.mem_cons_self) fun x hx =>
        hprev (p :: run) rfl x hx p rfl
    rw [List.flatten_cons, List.append_assoc,
      memsegLoop_run _ _ _ _ (hchain _ List.mem_cons_self) hpm hnew, Int.sub_add_cancel] at hres
    split at hres
    · cases hres
    · rename_i hne'
      have hk' : k ≠ rteMaxMemseg := fun h => hne' (by rw [h])
      obtain ⟨res₁, hres₁, rfl⟩ := Option.map_eq_some_iff.1 hres
      have hkk : ((k + 1 : Nat) : Int) - 1 = k := by omega
      have hlast : (p :: run).getLast? = some (run.getLastD p) := by
        rw [List.getLast?_cons, List.getLastD_eq_getLast?]
      have hnext : ∀ next ∈ runs.head?, ∀ x ∈ some (run.getLastD p), ∀ y ∈ next.head?,
          ¬Continues x y := by
        intro next hn
        obtain ⟨runs', rfl⟩ := List.head?_eq_some_iff.1 hn
        rw [← hlast]
        exact (List.isChain_cons_cons.1 hmax).1
      have hres₁' : memsegLoop (Function.update memseg k (segOf (p :: run))) ((k + 1 : Nat) - 1)
          (some (run.getLastD p)) (runs.flatten ++ rest) = some res₁ := by
        rw [hkk]
        exact hres₁
      obtain ⟨hle, res', hres', rfl⟩ := ih (by omega) (fun h => hne (List.mem_cons_of_mem _ h))
        (fun r hr => hchain r (List.mem_cons_of_mem _ hr))
        (fun r hr => hm r (List.mem_cons_of_mem _ hr)) (List.IsChain.tail hmax) hnext hres₁'
      refine ⟨by rw [List.length_cons]; omega, res', ?_, ?_⟩
      · rw [placeSegs, lastOf, hlast, List.length_cons, ← Nat.add_assoc, Nat.add_right_comm]
        exact hres'
      · rw [labelRuns, List.append_assoc]

/-! ### The unused entries -/

/-- The entries behind the active ones share a memseg of length 0. -/
theorem memsegLoop_zeros {memseg : Int → RteMemseg} {j : Int} {z : HugepageFile} {n : Nat}
    (hz : z.size = 0 ∧ z.socketId = 0 ∧ z.physaddr = 0 ∧ z.finalVa = 0)
    (hseg : (memseg j).len = 0 ∧ (memseg j).hugepageSz = 0) :
    memsegLoop memseg j (some z) (List.replicate n .zero) =
      some (List.replicate n (HugepageFile.zero.setId j), memseg) := by
  induction n generalizing z with
  | zero => rfl
  | succ n ih =>
    have hnew : newMemseg (some z) .zero = false := by
      simp [newMemseg, hz, HugepageFile.zero, Word.sub]
    have hsame : (memseg j).setLen (Word.add 64 (memseg j).len (memseg j).hugepageSz) = memseg j := by
      rw [hseg.1, hseg.2, RteMemseg.setLen, show Word.add 64 0 0 = (memseg j).len by rw [hseg.1]; rfl]
    rw [List.replicate_succ, memsegLoop, hnew, if_neg Bool.false_ne_true, hsame,
      Function.update_eq_self, ih ⟨rfl, rfl, rfl, rfl⟩]
    rfl

/-- What the loop leaves behind the segments of the runs: a memseg of length 0 for the zero entries,
if there are any. -/
theorem memsegLoop_rest {memseg : Int → RteMemseg} {r : Nat} {prev : Option HugepageFile} {n : Nat}
    {res : List HugepageFile × (Int → RteMemseg)} (hprev : ∀ x ∈ prev, x.Mapped)
    (hzero : (memseg r).len = 0)
    (hres : memsegLoop memseg (r - 1) prev (List.replicate n .zero) = some res) :
    res.1 = List.replicate n (HugepageFile.zero.setId r) ∧ (res.2 r).len = 0 ∧
      ∀ i : Int, i ≠ r → res.2 i = memseg i := by
  cases n with
  | zero =>
    rw [← Option.some.inj hres]
    exact ⟨rfl, hzero, fun _ _ => rfl⟩
  | succ n =>
    have hnew : newMemseg prev .zero = true := by
      cases prev with
      | none => rfl
      | some x =>
        have hpos := (hprev x rfl).size_pos
        have hne : 0 ≠ x.size := by omega
        simp [newMemseg, HugepageFile.zero, hne]
    rw [List.replicate_succ, memsegLoop, if_pos hnew, Int.sub_add_cancel] at hres
    split at hres
    · cases hres
    · rw [memsegLoop_zeros ⟨rfl, rfl, rfl, rfl⟩ (by rw [Function.update_self]; exact ⟨rfl, rfl⟩),
        Option.map_some] at hres
      rw [← Option.some.inj hres]
      refine ⟨rfl, ?_, fun i hi => Function.update_of_ne hi _ _⟩
      change (Function.update memseg (r : Int) _ r).len = 0
      rw [Function.update_self]
      rfl

/-! ### The memsegs -/

theorem placeSegs_of_lt (memseg : Int → RteMemseg) (k : Nat) (runs : List (List HugepageFile))
    {i : Int} (hi : i < k) : placeSegs memseg k runs i = memseg i := by
  induction runs generalizing memseg k with
  | nil => rfl
  | cons run runs ih =>
    rw [placeSegs, ih _ _ (by omega), Function.update_of_ne (by omega)]

theorem placeSegs_of_ge (memseg : Int → RteMemseg) (k : Nat) (runs : List (List HugepageFile))
    {i : Int} (hi : (k + runs.length : Nat) ≤ i) : placeSegs memseg k runs i = memseg i := by
  induction runs generalizing memseg k with
  | nil => rfl
  | cons run runs ih =>
    rw [List.length_cons] at hi
    rw [placeSegs, ih _ _ (by omega), Function.update_of_ne (by omega)]

theorem placeSegs_get (memseg : Int → RteMemseg) (k : Nat) (runs : List (List HugepageFile))
    {i : Nat} (hi : i < runs.length) : placeSegs memseg k runs (k + i : Nat) = segOf runs[i] := by
  induction runs generalizing memseg k i with
  | nil => exact absurd hi (Nat.not_lt_zero i)
  | cons run runs ih =>
    cases i with
    | zero => rw [placeSegs, placeSegs_of_lt _ _ _ (by omega), Nat.add_zero, Function.update_self]; rfl
    | succ i =>
      rw [placeSegs, show k + (i + 1) = k + 1 + i by omega, ih _ _ (by simpa using hi)]
      rfl

theorem lastOf_mapped {runs : List (List HugepageFile)} {prev : Option HugepageFile}
    (hprev : ∀ x ∈ prev, x.Mapped) (hm : ∀ run ∈ runs, ∀ x ∈ run, x.Mapped) :
    ∀ x ∈ lastOf prev runs, x.Mapped := by
  induction runs generalizing prev with
  | nil => exact hprev
  | cons run runs ih =>
    refine ih (fun x hx => ?_) fun r hr => hm r (List.mem_cons_of_mem _ hr)
    rcases Option.or_eq_some_iff.1 hx with hl | ⟨-, hp⟩
    · exact hm run List.mem_cons_self x (List.mem_of_getLast? hl)
    · exact hprev x hp

/-- The table and the memsegs after a successful run of the loop, for any cut into maximal runs. -/
structure Built (runs : List (List HugepageFile)) (table : List HugepageFile)
    (memseg : Int → RteMemseg) : Prop where
  count : runs.length ≤ rteMaxMemseg
  segs : ∀ i (hi : i < runs.length), memseg i = segOf runs[i]
  stop : (memseg runs.length).len = 0
  table : ∃ n, table = labelRuns 0 runs ++ List.replicate n (HugepageFile.zero.setId runs.length)

theorem built_of_init {memseg₀ memseg : Int → RteMemseg} {src table : List HugepageFile}
    {runs : List (List HugepageFile)} (hzero : ∀ j, (memseg₀ j).len = 0)
    (hm : ∀ x ∈ src, x.active → x.Mapped) (hruns : MaximalRuns (src.filter (·.active)) runs)
    (hinit : hugepageInit memseg₀ src = some (table, memseg)) : Built runs table memseg := by
  have hmapped : ∀ run ∈ runs, ∀ x ∈ run, x.Mapped := fun run hrun x hx => by
    have hmem : x ∈ src.filter (·.active) := hruns.flatten ▸ List.mem_flatten.2 ⟨run, hrun, hx⟩
    exact hm x (List.mem_filter.1 hmem).1 (List.mem_filter.1 hmem).2
  rw [hugepageInit, copyHugepages_eq src (Nat.le_refl _), Option.bind_some, ← hruns.flatten] at hinit
  obtain ⟨hle, res', hres', hres⟩ := memsegLoop_runs (k := 0) (Nat.zero_le _) hruns.nonempty
    hruns.contiguous hmapped hruns.maximal (fun _ _ _ hx => absurd hx (by simp)) hinit
  rw [Nat.zero_add] at hle hres'
  have hstop : (placeSegs memseg₀ 0 runs runs.length).len = 0 := by
    rw [placeSegs_of_ge _ _ _ (by omega), hzero]
  obtain ⟨htable, hlen, hkeep⟩ := memsegLoop_rest
    (lastOf_mapped (fun _ hx => absurd hx (by simp)) hmapped) hstop hres'
  obtain ⟨rfl, rfl⟩ := Prod.mk.inj hres
  refine ⟨hle, fun i hi => ?_, hlen, ⟨_, by rw [htable]⟩⟩
  rw [hkeep i (by omega)]
  simpa using placeSegs_get memseg₀ 0 runs hi

/-! ## Attaching -/

/-- Where the secondary must map the page. -/
def HugepageFile.mapping (hp : HugepageFile) : Mapping := ⟨hp.filepath, hp.finalVa, hp.size⟩

/-- A kernel that opens the files of the active pages and honours the address hint. -/
structure Kernel.Honours (k : Kernel) (src : List HugepageFile) : Prop where
  openRdwr : ∀ hp ∈ src, hp.active → k.openRdwr hp.filepath = true
  mmap : ∀ file addr size, k.mmap file addr size = some addr

section

variable {k : Kernel} {s baseAddr len offset : Nat}

/-- Pages of other memsegs are passed over. -/
theorem mapPages_skip (hlt : offset < len) (hids : ∀ x ∈ run, x.memsegId ≠ s) :
    mapPages k s baseAddr len offset (run ++ rest) = mapPages k s baseAddr len offset rest := by
  induction run with
  | nil => rfl
  | cons q run ih =>
    rw [List.cons_append, mapPages, if_pos hlt, if_neg (hids q List.mem_cons_self)]
    exact ih fun x hx => hids x (List.mem_cons_of_mem _ hx)

theorem mapPages_done (hle : len ≤ offset) (table : List HugepageFile) :
    mapPages k s baseAddr len offset table = some [] := by
  cases table with
  | nil => rfl
  | cons q table => rw [mapPages, if_neg (by omega)]

theorem mapPages_step (hmmap : ∀ file addr size, k.mmap file addr size = some addr)
    (hopen : k.openRdwr p.filepath = true) (hp : p.Mapped) (hbase : 0 < baseAddr)
    (hva : p.finalVa = baseAddr + offset) (hlt : offset < len) :
    mapPages k s baseAddr len offset (p.setId s :: rest) =
      (mapPages k s baseAddr len (offset + p.size) rest).map (p.mapping :: ·) := by
  have hend := hp.end_le
  have hpos := hp.size_pos
  have haddr : rtePtrAdd baseAddr offset = p.finalVa := by rw [hva, rtePtrAdd_eq (by omega)]
  have hoff : Word.add 64 offset p.size = offset + p.size := Word.add_eq (by omega)
  rw [mapPages, if_pos hlt]
  simp only [HugepageFile.setId, if_true, hopen, hmmap, haddr, hoff]
  rfl

/-- The pages of a run are mapped where they are in the primary. -/
theorem mapPages_run (hmmap : ∀ file addr size, k.mmap file addr size = some addr)
    (hopen : ∀ x ∈ p :: run, k.openRdwr x.filepath = true)
    (hchain : (p :: run).IsChain Continues) (hm : ∀ x ∈ p :: run, x.Mapped) (hbase : 0 < baseAddr)
    (hva : p.finalVa = baseAddr + offset) (hlen : offset + runLen (p :: run) = len) :
    mapPages k s baseAddr len offset ((p :: run).map (·.setId s) ++ rest) =
      some ((p :: run).map (·.mapping)) := by
  have hp := hm p List.mem_cons_self
  have hpos := hp.size_pos
  induction run generalizing p offset with
  | nil =>
    rw [runLen_cons, runLen_nil] at hlen
    rw [List.map_cons, List.cons_append,
      mapPages_step hmmap (hopen p List.mem_cons_self) hp hbase hva (by omega),
      mapPages_done (by omega)]
    rfl
  | cons q run ih =>
    have hq := hm q (List.mem_cons_of_mem _ List.mem_cons_self)
    rw [List.isChain_cons_cons] at hchain
    have hnext := hchain.1.finalVa_eq hp hq
    rw [runLen_cons] at hlen
    rw [List.map_cons, List.cons_append,
      mapPages_step hmmap (hopen p List.mem_cons_self) hp hbase hva (by omega),
      ih (fun x hx => hopen x (List.mem_cons_of_mem _ hx)) hchain.2
        (fun x hx => hm x (List.mem_cons_of_mem _ hx)) (by omega) (by omega) hq hq.size_pos]
    rfl

end

/-- The loop over the memsegs maps the pages of all runs. -/
theorem mapSegs_runs {kern : Kernel} {memseg : Int → RteMemseg} {s fuel : Nat}
    {runs : List (List HugepageFile)} {pre rest : List HugepageFile}
    (hmmap : ∀ file addr size, kern.mmap file addr size = some addr)
    (hopen : ∀ run ∈ runs, ∀ x ∈ run, kern.openRdwr x.filepath = true)
    (hne : [] ∉ runs) (hchain : ∀ run ∈ runs, run.IsChain Continues)
    (hm : ∀ run ∈ runs, ∀ x ∈ run, x.Mapped) (hpre : ∀ x ∈ pre, x.memsegId < s)
    (hsegs : ∀ i (hi : i < runs.length), memseg (s + i : Nat) = segOf runs[i])
    (hstop : (memseg (s + runs.length : Nat)).len = 0) (hfuel : runs.length ≤ fuel) :
    mapSegs kern memseg (pre ++ (labelRuns s runs ++ rest)) s fuel =
      some (runs.flatten.map (·.mapping)) := by
  induction runs generalizing s fuel pre with
  | nil =>
    cases fuel with
    | zero => rfl
    | succ fuel =>
      have h0 : (memseg s).len = 0 := hstop
      rw [mapSegs, if_neg (by omega)]
      rfl
  | cons run runs ih =>
    obtain ⟨p, run, rfl⟩ := List.exists_cons_of_ne_nil fun h : run = [] => hne (h ▸ List.mem_cons_self)
    obtain ⟨fuel, rfl⟩ : ∃ f, fuel = f + 1 := ⟨fuel - 1, by rw [List.length_cons] at hfuel; omega⟩
    have hseg : memseg s = segOf (p :: run) := hsegs 0 (Nat.succ_pos _)
    have hpm := hm (p :: run) List.mem_cons_self
    have hpos : 0 < runLen (p :: run) := runLen_pos (hpm p List.mem_cons_self)
    have hpages : mapPages kern s p.finalVa (runLen (p :: run)) 0
        (pre ++ (labelRuns s ((p :: run) :: runs) ++ rest)) = some ((p :: run).map (·.mapping)) := by
      rw [mapPages_skip hpos fun x hx => (hpre x hx).ne, labelRuns, List.append_assoc]
      exact mapPages_run hmmap (hopen _ List.mem_cons_self) (hchain _ List.mem_cons_self) hpm
        (Nat.pos_of_ne_zero (hpm p List.mem_cons_self).va) (Nat.add_zero _).symm (Nat.zero_add _)
    have hrest : mapSegs kern memseg (pre ++ (labelRuns s ((p :: run) :: runs) ++ rest)) (s + 1) fuel =
        some (runs.flatten.map (·.mapping)) := by
      rw [labelRuns, List.append_assoc, ← List.append_assoc pre]
      refine ih (fun r hr => hopen r (List.mem_cons_of_mem _ hr))
        (fun h => hne (List.mem_cons_of_mem _ h)) (fun r hr => hchain r (List.mem_cons_of_mem _ hr))
        (fun r hr => hm r (List.mem_cons_of_mem _ hr)) (fun x hx => ?_) (fun i hi => ?_) ?_
        (Nat.le_of_succ_le_succ hfuel)
      · rcases List.mem_append.1 hx with h | h
        · have hlt := hpre x h
          omega
        · obtain ⟨y, -, rfl⟩ := List.mem_map.1 h
          change (s : Int) < (s + 1 : Nat)
          omega
      · rw [show s + 1 + i = s + (i + 1) by omega, hsegs (i + 1) (Nat.succ_lt_succ hi)]
        rfl
      · rw [show s + 1 + runs.length = s + ((p :: run) :: runs).length by
          rw [List.length_cons]; omega]
        exact hstop
    rw [mapSegs, hseg]
    change (if runLen (p :: run) > 0 then _ else _) = _
    rw [if_pos hpos]
    change (do
      let pages ← mapPages kern s p.finalVa (runLen (p :: run)) 0 _
      let rest ← mapSegs kern memseg _ (s + 1) fuel
      some (pages ++ rest)) = _
    rw [hpages, hrest, List.flatten_cons, List.map_append]
    rfl

theorem reserveSegs_of_honours {kern : Kernel}
    (hmmap : ∀ file addr size, kern.mmap file addr size = some addr) (memseg : Int → RteMemseg)
    (s fuel : Nat) : reserveSegs kern memseg s fuel = some () := by
  induction fuel generalizing s with
  | zero => rfl
  | succ fuel ih =>
    rw [reserveSegs, hmmap, if_pos rfl, ih]
    split <;> rfl

/-- Attaching to what the primary built maps all active pages at their final addresses. -/
theorem Built.attach {runs : List (List HugepageFile)} {src table : List HugepageFile}
    {memseg : Int → RteMemseg} {kern : Kernel} (h : Built runs table memseg)
    (hruns : MaximalRuns (src.filter (·.active)) runs) (hm : ∀ x ∈ src, x.active → x.Mapped)
    (hkern : kern.Honours src) :
    rteEalHugepageAttach kern memseg table = some ((src.filter (·.active)).map (·.mapping)) := by
  have hmem : ∀ run ∈ runs, ∀ x ∈ run, x ∈ src ∧ x.active := fun run hrun x hx =>
    List.mem_filter.1 (hruns.flatten ▸ List.mem_flatten.2 ⟨run, hrun, hx⟩)
  obtain ⟨n, htable⟩ := h.table
  rw [rteEalHugepageAttach, reserveSegs_of_honours hkern.mmap, htable, ← hruns.flatten]
  exact @mapSegs_runs kern memseg _ _ runs [] _ hkern.mmap
    (fun run hrun x hx => hkern.openRdwr x (hmem run hrun x hx).1 (hmem run hrun x hx).2)
    hruns.nonempty hruns.contiguous
    (fun run hrun x hx => hm x (hmem run hrun x hx).1 (hmem run hrun x hx).2)
    (fun _ hx => absurd hx (by simp)) (fun i hi => by rw [Nat.zero_add]; exact h.segs i hi)
    (by rw [Nat.zero_add]; exact h.stop) h.count

/-! ### Other kernels -/

/-- A kernel that does all it is asked for. -/
def Kernel.willing : Kernel := ⟨fun _ => true, fun _ addr _ => some addr⟩

theorem mapPages_willing {kern : Kernel} {s baseAddr len offset : Nat} {table : List HugepageFile}
    {maps : List Mapping} (h : mapPages kern s baseAddr len offset table = some maps) :
    mapPages .willing s baseAddr len offset table = some maps := by
  induction table generalizing offset maps with
  | nil => exact h
  | cons q table ih =>
    rw [mapPages] at h ⊢
    split
    · rename_i hlt
      rw [if_pos hlt] at h
      split
      · rename_i hid
        rw [if_pos hid] at h
        split at h
        · simp only at h
          split at h
          · obtain ⟨maps', h', rfl⟩ := Option.map_eq_some_iff.1 h
            simp only [Kernel.willing, if_true]
            exact Option.map_eq_some_iff.2 ⟨maps', ih h', rfl⟩
          · cases h
        · cases h
      · rename_i hid
        rw [if_neg hid] at h
        exact ih h
    · rename_i hlt
      rwa [if_neg hlt] at h

theorem mapSegs_willing {kern : Kernel} {memseg : Int → RteMemseg} {table : List HugepageFile}
    {s fuel : Nat} {maps : List Mapping} (h : mapSegs kern memseg table s fuel = some maps) :
    mapSegs .willing memseg table s fuel = some maps := by
  induction fuel generalizing s maps with
  | zero => exact h
  | succ fuel ih =>
    rw [mapSegs] at h ⊢
    split
    · rename_i hlen
      rw [if_pos hlen] at h
      simp only [Option.bind_eq_bind, Option.bind_eq_some_iff] at h ⊢
      obtain ⟨pages, hpages, rest, hrest, hmaps⟩ := h
      exact ⟨pages, mapPages_willing hpages, rest, ih hrest, hmaps⟩
    · rename_i hlen
      rwa [if_neg hlen] at h

/-- When attaching succeeds it has mapped what a willing kernel maps. -/
theorem attach_willing {kern : Kernel} {memseg : Int → RteMemseg} {table : List HugepageFile}
    {maps : List Mapping} (h : rteEalHugepageAttach kern memseg table = some maps) :
    rteEalHugepageAttach .willing memseg table = some maps := by
  unfold rteEalHugepageAttach at h ⊢
  simp only [Option.bind_eq_bind, Option.bind_eq_some_iff] at h ⊢
  obtain ⟨u, -, hmaps⟩ := h
  exact ⟨(), reserveSegs_of_honours (fun _ _ _ => rfl) memseg 0 _, mapSegs_willing hmaps⟩

/-! ## The two processes agree -/

theorem filter_labelRuns {k : Nat} {runs : List (List HugepageFile)}
    (hm : ∀ run ∈ runs, ∀ x ∈ run, x.Mapped) :
    (labelRuns k runs).filter (·.active) = labelRuns k runs := by
  refine List.filter_eq_self.2 fun x hx => ?_
  induction runs generalizing k with
  | nil => cases hx
  | cons run runs ih =>
    rcases List.mem_append.1 hx with h | h
    · obtain ⟨y, hy, rfl⟩ := List.mem_map.1 h
      exact decide_eq_true (hm run List.mem_cons_self y hy).va
    · exact ih (fun r hr => hm r (List.mem_cons_of_mem _ hr)) h

/-- Once the primary has built its segments, these are the maximal runs of contiguous active pages in
the order of the table, every page carries the index of its run, and a secondary that attaches has
mapped every active page once, at its final address; it does attach where the files open and the hints
are honoured. -/
theorem memseg_runs_attach {memseg₀ memseg : Int → RteMemseg} {src table : List HugepageFile}
    (hzero : ∀ j, (memseg₀ j).len = 0) (hm : ∀ x ∈ src, x.active → x.Mapped)
    (hinit : hugepageInit memseg₀ src = some (table, memseg)) :
    ∃ runs, MaximalRuns (src.filter (·.active)) runs ∧
      (runs.length ≤ rteMaxMemseg ∧
        (∀ i (hi : i < runs.length), memseg i = segOf runs[i] ∧ 0 < (memseg i).len) ∧
        (runs.length < rteMaxMemseg → (memseg runs.length).len = 0)) ∧
      table.filter (·.active) = labelRuns 0 runs ∧
      (∀ kern maps, rteEalHugepageAttach kern memseg table = some maps →
        maps = (src.filter (·.active)).map (·.mapping)) ∧
      ∀ kern : Kernel, kern.Honours src →
        rteEalHugepageAttach kern memseg table = some ((src.filter (·.active)).map (·.mapping)) := by
  obtain ⟨runs, hruns⟩ := exists_maximalRuns (src.filter (·.active))
  have hb := built_of_init hzero hm hruns hinit
  have hmapped : ∀ run ∈ runs, ∀ x ∈ run, x.Mapped := fun run hrun x hx => by
    have hmem : x ∈ src.filter (·.active) := hruns.flatten ▸ List.mem_flatten.2 ⟨run, hrun, hx⟩
    exact hm x (List.mem_filter.1 hmem).1 (List.mem_filter.1 hmem).2
  have hattach : ∀ kern : Kernel, kern.Honours src →
      rteEalHugepageAttach kern memseg table = some ((src.filter (·.active)).map (·.mapping)) :=
    fun kern hkern => hb.attach hruns hm hkern
  refine ⟨runs, hruns, ⟨hb.count, fun i hi => ⟨hb.segs i hi, ?_⟩, fun _ => hb.stop⟩, ?_,
    fun kern maps hmaps => ?_, hattach⟩
  · have hrun := List.getElem_mem hi
    obtain ⟨p, run, hpr⟩ := List.exists_cons_of_ne_nil fun h : runs[i] = [] =>
      hruns.nonempty (h ▸ hrun)
    rw [hb.segs i hi, hpr]
    exact runLen_pos (hmapped _ hrun p (hpr ▸ List.mem_cons_self))
  · obtain ⟨n, htable⟩ := hb.table
    rw [htable, List.filter_append, filter_labelRuns hmapped, List.filter_replicate]
    exact List.append_nil _
  · have hw := hattach .willing ⟨fun _ _ _ => rfl, fun _ _ _ => rfl⟩
    exact Option.some.inj ((attach_willing hmaps).symm.trans hw)

/-- Two contiguous pages with an unused one between them, and a page on another socket. -/
def fewPages : List HugepageFile :=
  [⟨2 ^ 30, 2 ^ 32, 2 ^ 21, 0, 0, "rtemap_0"⟩, ⟨0, 0, 2 ^ 21, 0, 0, "rtemap_1"⟩,
    ⟨2 ^ 30 + 2 ^ 21, 2 ^ 32 + 2 ^ 21, 2 ^ 21, 0, 0, "rtemap_2"⟩,
    ⟨2 ^ 31, 2 ^ 33, 2 ^ 21, 1, 0, "rtemap_3"⟩]

theorem fewPages_mapped : ∀ x ∈ fewPages, x.active → x.Mapped := by
  intro x hx hact
  have hall : ∀ y ∈ fewPages, y.active = true → y.finalVa ≠ 0 ∧ 0 < y.size ∧
      y.finalVa + y.size ≤ 2 ^ 64 ∧ y.physaddr < 2 ^ 64 := by decide
  obtain ⟨h1, h2, h3, h4⟩ := hall x hx hact
  exact ⟨h1, h2, h3, h4⟩

/-- What the primary builds from them. -/
def fewPagesInit : Option (List HugepageFile × (Int → RteMemseg)) :=
  hugepageInit (fun _ => ⟨0, 0, 0, 0, 0⟩) fewPages

theorem fewPagesInit_isSome : fewPagesInit.isSome = true := by decide

theorem memseg_runs_attach_fewPages :
    ∃ runs, MaximalRuns (fewPages.filter (·.active)) runs ∧
      (runs.length ≤ rteMaxMemseg ∧
        (∀ i (hi : i < runs.length), (fewPagesInit.get fewPagesInit_isSome).2 i = segOf runs[i] ∧
          0 < ((fewPagesInit.get fewPagesInit_isSome).2 i).len) ∧
        (runs.length < rteMaxMemseg →
          ((fewPagesInit.get fewPagesInit_isSome).2 runs.length).len = 0)) ∧
      (fewPagesInit.get fewPagesInit_isSome).1.filter (·.active) = labelRuns 0 runs ∧
      (∀ kern maps, rteEalHugepageAttach kern (fewPagesInit.get fewPagesInit_isSome).2
        (fewPagesInit.get fewPagesInit_isSome).1 = some maps →
          maps = (fewPages.filter (·.active)).map (·.mapping)) ∧
      ∀ kern : Kernel, kern.Honours fewPages →
        rteEalHugepageAttach kern (fewPagesInit.get fewPagesInit_isSome).2
          (fewPagesInit.get fewPagesInit_isSome).1 =
            some ((fewPages.filter (·.active)).map (·.mapping)) :=
  memseg_runs_attach (fun _ => rfl) fewPages_mapped (Option.some_get fewPagesInit_isSome).symm

end EalMemory
