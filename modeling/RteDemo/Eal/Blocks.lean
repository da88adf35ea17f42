import RteDemo.Eal.Remap

/-!
# One segment for each physical block

`rte_eal_hugepage_init` treats the sizes of hugepages one after the other: it sorts the pages of a size by
physical address and maps them again (`remapSizes`). Some pages are unmapped later, and the segments are
built from those that are left.

Whatever is left, each maximal block of physically contiguous pages of one size on one socket becomes one
segment (`memseg_per_block`). The pages are in order (`Before`), so that the page a block goes on with is the
next one in the table, and the second mapping has put it next to it (`Joined`).
-/

namespace EalMemory

open RteDemo

/-! ## The code -/

/-- `cmp_physaddr` -/
def cmpPhysaddr (p1 p2 : HugepageFile) : Int :=
  if p1.physaddr < p2.physaddr then -1
  else if p1.physaddr > p2.physaddr then 1
  else 0

/-- `qsort` with `cmp_physaddr` permutes the table into order. -/
def QsortPages (qsort : List HugepageFile → List HugepageFile) : Prop :=
  ∀ l, (qsort l).Perm l ∧ (qsort l).Pairwise fun p1 p2 => cmpPhysaddr p1 p2 ≤ 0

/-- The pages of one size, with what the system answers while they are mapped again. -/
structure SizePages where
  kernel : RemapKernel
  hugepageSz : Nat
  tbl : List HugepageFile

/-- The loop of `rte_eal_hugepage_init` over the sizes, from the sorting on: the table, or `none` if a page
cannot be mapped again. -/
def remapSizes (qsort : List HugepageFile → List HugepageFile) (baseVirtaddr pageSize : Nat) :
    Nat → List SizePages → Option (List HugepageFile)
  | _, [] => some []
  | offset, e :: rest =>
    let r := mapAllHugepages e.kernel baseVirtaddr pageSize offset e.hugepageSz (qsort e.tbl)
    if r.count ≠ e.tbl.length then none
    else (remapSizes qsort baseVirtaddr pageSize r.offset rest).map (r.pages ++ ·)

theorem cmpPhysaddr_nonpos {p1 p2 : HugepageFile} : cmpPhysaddr p1 p2 ≤ 0 ↔ p1.physaddr ≤ p2.physaddr := by
  unfold cmpPhysaddr
  split_ifs
  · simp only [Int.reduceNeg, Int.reduceLE, true_iff]
    omega
  · simp only [Int.reduceLE, false_iff]
    omega
  · simp only [Int.le_refl, true_iff]
    omega

/-! ## Tables in order -/

/-- The larger sizes come first, and the pages of one size lie one behind the other. -/
def Before (p q : HugepageFile) : Prop :=
  q.size < p.size ∨ p.size = q.size ∧ p.physaddr + p.size ≤ q.physaddr

/-- A page that continues another one physically continues it virtually. -/
def Joined (p q : HugepageFile) : Prop :=
  q.size = p.size → q.physaddr = p.physaddr + p.size → q.finalVa = p.finalVa + p.size

/-- `q` goes on physically where `p` ends, on the same socket. -/
def Precedes (p q : HugepageFile) : Prop :=
  q.socketId = p.socketId ∧ q.size = p.size ∧ q.physaddr = p.physaddr + p.size

instance (p q : HugepageFile) : Decidable (Precedes p q) :=
  inferInstanceAs (Decidable (_ ∧ _))

/-- The table of `remapSizes`, and what is left of it. -/
structure RemappedTable (tbl : List HugepageFile) : Prop where
  placed : ∀ q ∈ tbl, ∃ j, Placed j q
  order : tbl.Pairwise Before
  joined : tbl.Pairwise Joined

variable {p q x : HugepageFile} {pages new tbl pre l kept : List HugepageFile} {j : Nat}

theorem RemappedTable.sublist (h : RemappedTable tbl) (hsub : kept.Sublist tbl) : RemappedTable kept where
  placed := fun q hq => h.placed q (hsub.subset hq)
  order := h.order.sublist hsub
  joined := h.joined.sublist hsub

theorem RemappedTable.size_pos (h : RemappedTable tbl) (hq : q ∈ tbl) : 0 < q.size := by
  obtain ⟨j, hj⟩ := h.placed q hq
  exact hj.mapped.size_pos

/-- The page that continues one is behind it. -/
theorem not_before (hsize : q.size = p.size) (hphys : q.physaddr = p.physaddr + p.size) (hq : 0 < q.size) :
    ¬Before q p := by
  rintro (hlt | ⟨-, hle⟩)
  · omega
  · omega

/-- No page lies between one and the page that continues it. -/
theorem not_between (hsize : q.size = p.size) (hphys : q.physaddr = p.physaddr + p.size) (hx : 0 < x.size)
    (hpx : Before p x) : ¬Before x q := by
  rcases hpx with hlt | ⟨heq, hle⟩
  · rintro (hlt' | ⟨heq', -⟩)
    · omega
    · omega
  · rintro (hlt' | ⟨-, hle'⟩)
    · omega
    · omega

/-- For pages in order it is enough that neighbours are joined. -/
theorem joined_of_chain (hpos : ∀ q ∈ l, 0 < q.size) (ho : l.Pairwise Before) (hc : l.IsChain Joined) :
    l.Pairwise Joined := by
  induction l with
  | nil => exact .nil
  | cons p l ih =>
    obtain ⟨hp, hl⟩ := List.pairwise_cons.mp ho
    obtain ⟨hhead, hchain⟩ := List.isChain_cons.mp hc
    refine List.pairwise_cons.mpr
      ⟨fun q hq => ?_, ih (fun q hq => hpos q (List.mem_cons_of_mem _ hq)) hl hchain⟩
    cases l with
    | nil => cases hq
    | cons x l =>
      rcases List.mem_cons.mp hq with rfl | hmem
      · exact hhead q rfl
      · -- `x` lies between the two
        intro hsize hphys
        have hx := hpos x (List.mem_cons_of_mem _ List.mem_cons_self)
        exact absurd ((List.pairwise_cons.mp hl).1 q hmem)
          (not_between hsize hphys hx (hp x List.mem_cons_self))

/-! ## Sorting and mapping -/

theorem physaddr_of_frame (h : List.Forall₂ (fun p q => p.setVa q.finalVa = q) pages new) :
    new.map (·.physaddr) = pages.map (·.physaddr) := by
  induction h with
  | nil => rfl
  | cons hpq _ ih =>
    rw [List.map_cons, List.map_cons, ih, ← hpq]
    rfl

/-- The pages of one size, as they are found: they do not overlap. -/
structure SizePages.Ok (e : SizePages) : Prop where
  system : e.kernel.Honours
  pages : ∃ j, e.hugepageSz = 2 ^ j ∧ HugePages j e.tbl
  disjoint : e.tbl.Pairwise fun p q =>
    p.physaddr + e.hugepageSz ≤ q.physaddr ∨ q.physaddr + e.hugepageSz ≤ p.physaddr

/-- Sorted pages lie one behind the other. -/
theorem sorted_disjoint {qsort : List HugepageFile → List HugepageFile} {e : SizePages}
    (hq : QsortPages qsort) (he : e.Ok) :
    (qsort e.tbl).Pairwise fun p q => p.physaddr + e.hugepageSz ≤ q.physaddr := by
  obtain ⟨hperm, hsorted⟩ := hq e.tbl
  obtain ⟨j, hsz, -⟩ := he.pages
  have hpos : 0 < e.hugepageSz := hsz ▸ Nat.two_pow_pos j
  have hdisj := (hperm.pairwise_iff (fun hpq => Or.symm hpq)).mpr he.disjoint
  refine (hsorted.and hdisj).imp ?_
  rintro p q ⟨hcmp, hle | hle⟩
  · exact hle
  · rw [cmpPhysaddr_nonpos] at hcmp
    omega

/-- A size that is mapped again as a whole. -/
theorem remap_table {qsort : List HugepageFile → List HugepageFile} {e : SizePages} (base ps offset : Nat)
    (hq : QsortPages qsort) (he : e.Ok)
    (hall : (mapAllHugepages e.kernel base ps offset e.hugepageSz (qsort e.tbl)).count = e.tbl.length) :
    let r := mapAllHugepages e.kernel base ps offset e.hugepageSz (qsort e.tbl)
    RemappedTable r.pages ∧ ∀ q ∈ r.pages, q.size = e.hugepageSz := by
  have hdisj := sorted_disjoint hq he
  obtain ⟨hperm, -⟩ := hq e.tbl
  obtain ⟨hroom, ⟨j, hsz, hpages⟩, -⟩ := he
  have hsorted : HugePages j (qsort e.tbl) :=
    ⟨fun p hp => hpages.size p (hperm.subset hp), fun p hp => hpages.physaddr p (hperm.subset hp),
      by rw [hperm.length_eq]; exact hpages.few⟩
  rw [hsz] at hall hdisj ⊢
  have hframe := remapLoop_frame e.kernel base ps (2 ^ j) 0 ⟨0, 0, offset⟩ (qsort e.tbl)
  have hv : AreaOk j ⟨0, 0, offset⟩ (qsort e.tbl) := .inl rfl
  obtain ⟨hplaced, hchain, -⟩ := remapLoop_spec 0 base ps hroom hsorted hv
  dsimp only
  unfold mapAllHugepages at hall ⊢
  generalize remapLoop e.kernel base ps (2 ^ j) 0 ⟨0, 0, offset⟩ (qsort e.tbl) = r at hall hframe hplaced hchain ⊢
  have hdone : r.done = r.pages := by
    rw [Remapped.done, hall, ← hperm.length_eq, hframe.length_eq, List.take_length]
  rw [hdone] at hplaced hchain
  have hsize : ∀ q ∈ r.pages, q.size = 2 ^ j := fun q hq => (hplaced q hq).size
  have hphys : r.pages.Pairwise fun p q => p.physaddr + 2 ^ j ≤ q.physaddr := by
    have hmap : ((qsort e.tbl).map (·.physaddr)).Pairwise fun a b => a + 2 ^ j ≤ b :=
      List.pairwise_map.mpr hdisj
    rw [← physaddr_of_frame hframe] at hmap
    exact List.pairwise_map.mp hmap
  have horder : r.pages.Pairwise Before := by
    refine hphys.imp_of_mem fun {p q} hp hq hle => .inr ⟨(hsize p hp).trans (hsize q hq).symm, ?_⟩
    rw [hsize p hp]
    exact hle
  refine ⟨⟨fun q hq => ⟨j, hplaced q hq⟩, horder, ?_⟩, hsize⟩
  refine joined_of_chain (fun q hq => (hplaced q hq).mapped.size_pos) horder ?_
  refine hchain.imp_of_mem_imp fun p q hp _ hcont _ => ?_
  rw [hsize p hp]
  exact hcont

/-- All sizes, the largest first. -/
theorem remapSizes_table {qsort : List HugepageFile → List HugepageFile} {sizes : List SizePages}
    (base ps offset : Nat) (hq : QsortPages qsort) (hok : ∀ e ∈ sizes, e.Ok)
    (hdesc : sizes.Pairwise fun e e' => e'.hugepageSz < e.hugepageSz)
    (htbl : remapSizes qsort base ps offset sizes = some tbl) :
    RemappedTable tbl ∧ ∀ q ∈ tbl, ∃ e ∈ sizes, q.size = e.hugepageSz := by
  induction sizes generalizing offset tbl with
  | nil =>
    cases htbl
    exact ⟨⟨by simp, .nil, .nil⟩, by simp⟩
  | cons e rest ih =>
    obtain ⟨hlt, hdesc⟩ := List.pairwise_cons.mp hdesc
    rw [remapSizes] at htbl
    split_ifs at htbl with hall
    obtain ⟨tbl', htbl', rfl⟩ := Option.map_eq_some_iff.mp htbl
    obtain ⟨hhead, hsize⟩ := remap_table base ps offset hq (hok e List.mem_cons_self) (not_not.mp hall)
    obtain ⟨hrest, hsizes⟩ := ih _ (fun e' he' => hok e' (List.mem_cons_of_mem _ he')) hdesc htbl'
    have hsmaller : ∀ p ∈ (mapAllHugepages e.kernel base ps offset e.hugepageSz (qsort e.tbl)).pages,
        ∀ q ∈ tbl', q.size < p.size := by
      intro p hp q hq
      obtain ⟨e', he', heq⟩ := hsizes q hq
      rw [hsize p hp, heq]
      exact hlt e' he'
    refine ⟨⟨fun q hq => ?_, ?_, ?_⟩, fun q hq => ?_⟩
    · exact (List.mem_append.mp hq).elim (hhead.placed q) (hrest.placed q)
    · exact List.pairwise_append.mpr
        ⟨hhead.order, hrest.order, fun p hp q hq => .inl (hsmaller p hp q hq)⟩
    · refine List.pairwise_append.mpr ⟨hhead.joined, hrest.joined, fun p hp q hq heq => ?_⟩
      exact absurd heq (hsmaller p hp q hq).ne
    · rcases List.mem_append.mp hq with h | h
      · exact ⟨e, List.mem_cons_self, hsize q h⟩
      · obtain ⟨e', he', heq⟩ := hsizes q h
        exact ⟨e', List.mem_cons_of_mem _ he', heq⟩

/-! ## The blocks -/

/-- No page of the table precedes `q`. -/
def startsBlock (tbl : List HugepageFile) (q : HugepageFile) : Bool := tbl.all fun p => !decide (Precedes p q)

/-- The first pages of the physical blocks. -/
def blockStarts (tbl : List HugepageFile) : List HugepageFile := tbl.filter (startsBlock tbl)

theorem startsBlock_eq_false : startsBlock tbl q = false ↔ ∃ x ∈ tbl, Precedes x q := by
  simp [startsBlock]

theorem startsBlock_eq_true : startsBlock tbl q = true ↔ ∀ x ∈ tbl, ¬Precedes x q := by
  simp [startsBlock]

/-- Neighbours are one run for the segments exactly if the second one has a page before it. -/
theorem continues_iff {post : List HugepageFile} (h : RemappedTable (pre ++ p :: q :: post)) :
    Continues p q ↔ ∃ x ∈ pre ++ p :: q :: post, Precedes x q := by
  have hp : p ∈ pre ++ p :: q :: post := by simp
  have hq : q ∈ pre ++ p :: q :: post := by simp
  obtain ⟨j, hpj⟩ := h.placed p hp
  have hend := hpj.end_le
  have hphys : Word.add 64 p.physaddr p.size = p.physaddr + p.size :=
    Word.add_eq (hpj.size ▸ hpj.physaddr)
  have hva : Word.add 64 p.finalVa p.size = p.finalVa + p.size := Word.add_eq (by rw [hpj.size]; omega)
  have hpos := h.size_pos hq
  obtain ⟨-, hpost, hpre⟩ := List.pairwise_append.mp h.order
  obtain ⟨hpq, hpost⟩ := List.pairwise_cons.mp hpost
  rw [Continues, hphys, hva]
  constructor
  · rintro ⟨hsock, hsize, hcut, -⟩
    exact ⟨p, hp, hsock, hsize, hcut⟩
  · rintro ⟨x, hx, hsock, hsize, hcut⟩
    have hbefore := hpq q List.mem_cons_self
    rcases List.mem_append.mp hx with hmem | hmem
    · -- `p` would lie between
      exact absurd hbefore
        (not_between hsize hcut (h.size_pos hp) (hpre x hmem p List.mem_cons_self))
    · rcases List.mem_cons.mp hmem with rfl | hmem
      · obtain ⟨-, hj, -⟩ := List.pairwise_append.mp h.joined
        exact ⟨hsock, hsize, hcut, (List.pairwise_cons.mp hj).1 q List.mem_cons_self hsize hcut⟩
      · rcases List.mem_cons.mp hmem with rfl | hmem
        · omega
        · exact absurd ((List.pairwise_cons.mp hpost).1 x hmem) (not_before hsize hcut hpos)

theorem continues_chain (pre : List HugepageFile) (h : RemappedTable (pre ++ l)) :
    l.IsChain fun p q => Continues p q ↔ ∃ x ∈ pre ++ l, Precedes x q := by
  induction l generalizing pre with
  | nil => exact .nil
  | cons p l ih =>
    cases l with
    | nil => exact .singleton p
    | cons q l =>
      have hsplit : pre ++ p :: q :: l = (pre ++ [p]) ++ q :: l := by simp
      refine List.isChain_cons_cons.mpr ⟨continues_iff h, ?_⟩
      rw [hsplit] at h ⊢
      exact ih _ h

/-- The first page has no page before it. -/
theorem head_start (h : RemappedTable (q :: l)) : ∀ p ∈ q :: l, ¬Precedes p q := by
  rintro p hp ⟨-, hsize, hcut⟩
  have hpos := h.size_pos List.mem_cons_self
  rcases List.mem_cons.mp hp with rfl | hmem
  · omega
  · exact not_before hsize hcut hpos ((List.pairwise_cons.mp h.order).1 p hmem)

/-- Inside a run every page but the first continues another one. -/
theorem run_tail {f : HugepageFile → Bool} (hcont : (p :: l).IsChain Continues)
    (hchain : (p :: l).IsChain fun p q => Continues p q ↔ f q = false) : ∀ x ∈ l, f x = false := by
  induction l generalizing p with
  | nil => simp
  | cons q l ih =>
    obtain ⟨hpq, hcont⟩ := List.isChain_cons_cons.mp hcont
    obtain ⟨hiff, hchain⟩ := List.isChain_cons_cons.mp hchain
    exact List.forall_mem_cons.mpr ⟨hiff.mp hpq, ih hcont hchain⟩

/-- The runs begin where `f` holds. -/
theorem heads_eq {f : HugepageFile → Bool} {runs : List (List HugepageFile)} (hne : [] ∉ runs)
    (hcont : ∀ run ∈ runs, run.IsChain Continues)
    (hmax : runs.IsChain fun run next => ∀ x ∈ run.getLast?, ∀ y ∈ next.head?, ¬Continues x y)
    (hchain : runs.flatten.IsChain fun p q => Continues p q ↔ f q = false)
    (hhead : ∀ q ∈ runs.flatten.head?, f q = true) :
    runs.map List.head? = (runs.flatten.filter f).map some := by
  induction runs with
  | nil => rfl
  | cons run runs ih =>
    obtain ⟨p, l, rfl⟩ := List.exists_cons_of_ne_nil fun h : run = [] => hne (h ▸ List.mem_cons_self)
    obtain ⟨hcut, hmax⟩ := List.isChain_cons.mp hmax
    rw [List.flatten_cons] at hchain hhead ⊢
    obtain ⟨hrun, hrest, hlast⟩ := List.isChain_append.mp hchain
    have hfirst : f p = true := hhead p rfl
    have htail := run_tail (hcont _ List.mem_cons_self) hrun
    have hnone : l.filter f = [] := List.filter_eq_nil_iff.mpr fun x hx => by simp [htail x hx]
    have hne' : [] ∉ runs := fun h => hne (List.mem_cons_of_mem _ h)
    have hnext : ∀ q ∈ runs.flatten.head?, f q = true := by
      intro q hq
      cases runs with
      | nil => cases hq
      | cons next runs =>
        obtain ⟨y, l', rfl⟩ := List.exists_cons_of_ne_nil fun h : next = [] => hne' (h ▸ List.mem_cons_self)
        cases hq
        -- the last page of the run does not go on there
        have hx := List.getLast?_eq_some_getLast (List.cons_ne_nil p l)
        have hno := hcut (q :: l') rfl _ hx q rfl
        rw [hlast _ hx q rfl] at hno
        exact Bool.eq_true_of_not_eq_false hno
    rw [List.filter_append, List.filter_cons_of_pos hfirst, hnone, List.map_cons,
      ih hne' (fun r hr => hcont r (List.mem_cons_of_mem _ hr)) hmax hrest hnext]
    rfl

/-- **Each physical block becomes one segment.** For every machine whose pages do not overlap, with any number of
sizes and sockets: once the pages are sorted and mapped again, and whichever of them are kept, the segments that
`rte_eal_hugepage_init` builds are the maximal blocks of physically contiguous pages of one size on one socket, in
the order of the table: they begin at the pages that no other page that is kept precedes. -/
theorem memseg_per_block {qsort : List HugepageFile → List HugepageFile} {sizes : List SizePages}
    {memseg₀ memseg : Int → RteMemseg} {src table : List HugepageFile} (base ps offset : Nat)
    (hq : QsortPages qsort) (hok : ∀ e ∈ sizes, e.Ok)
    (hdesc : sizes.Pairwise fun e e' => e'.hugepageSz < e.hugepageSz)
    (htbl : remapSizes qsort base ps offset sizes = some tbl) (hkept : (src.filter (·.active)).Sublist tbl)
    (hzero : ∀ j, (memseg₀ j).len = 0) (hinit : hugepageInit memseg₀ src = some (table, memseg)) :
    ∃ runs : List (List HugepageFile), runs.flatten = src.filter (·.active) ∧
      (∀ run ∈ runs, run.IsChain Precedes) ∧
      runs.map List.head? = (blockStarts (src.filter (·.active))).map some ∧
      runs.length ≤ rteMaxMemseg ∧ (∀ i (hi : i < runs.length), memseg i = segOf runs[i]) ∧
      (runs.length < rteMaxMemseg → (memseg runs.length).len = 0) := by
  have ht := (remapSizes_table base ps offset hq hok hdesc htbl).1.sublist hkept
  have hm : ∀ x ∈ src, x.active → x.Mapped := by
    intro x hx hact
    obtain ⟨j, hj⟩ := ht.placed x (List.mem_filter.mpr ⟨hx, hact⟩)
    exact hj.mapped
  obtain ⟨runs, hruns⟩ := exists_maximalRuns (src.filter (·.active))
  have hb := built_of_init hzero hm hruns hinit
  refine ⟨runs, hruns.flatten, fun run hrun => ?_, ?_, hb.count, hb.segs, fun _ => hb.stop⟩
  · refine (hruns.contiguous run hrun).imp_of_mem_imp fun p q hp _ hpq => ?_
    have hmem : p ∈ src.filter (·.active) := hruns.flatten ▸ List.mem_flatten.mpr ⟨run, hrun, hp⟩
    obtain ⟨j, hj⟩ := ht.placed p hmem
    obtain ⟨hsock, hsize, hcut, -⟩ := hpq
    rw [Word.add_eq (hj.size ▸ hj.physaddr)] at hcut
    exact ⟨hsock, hsize, hcut⟩
  · have hheads := heads_eq (f := startsBlock (src.filter (·.active))) hruns.nonempty
      hruns.contiguous hruns.maximal
    rw [hruns.flatten] at hheads
    refine hheads ?_ fun q hq => ?_
    · exact (continues_chain [] ht).imp fun p q hiff => hiff.trans startsBlock_eq_false.symm
    · obtain ⟨l, hl⟩ := List.head?_eq_some_iff.mp hq
      rw [hl] at ht ⊢
      exact startsBlock_eq_true.mpr (head_start ht)

/-! ## A machine with three pages -/

def insertPages (l : List HugepageFile) : List HugepageFile :=
  l.insertionSort fun p1 p2 => cmpPhysaddr p1 p2 ≤ 0

theorem insertPages_ok : QsortPages insertPages := by
  have htotal : Std.Total fun p1 p2 : HugepageFile => cmpPhysaddr p1 p2 ≤ 0 :=
    ⟨fun p1 p2 => by rw [cmpPhysaddr_nonpos, cmpPhysaddr_nonpos]; exact Nat.le_total _ _⟩
  have htrans : IsTrans HugepageFile fun p1 p2 => cmpPhysaddr p1 p2 ≤ 0 :=
    ⟨fun p1 p2 p3 => by rw [cmpPhysaddr_nonpos, cmpPhysaddr_nonpos, cmpPhysaddr_nonpos]; exact Nat.le_trans⟩
  exact fun l => ⟨List.perm_insertionSort _ l, List.pairwise_insertionSort _ l⟩

/-- The pages of `twoBlocks`, as the first mapping leaves them. -/
def threePages : SizePages := ⟨roomyKernel, 2 ^ 21, twoBlocks.reverse⟩

def threePagesTbl : List HugepageFile := (remapSizes insertPages 0 4096 0 [threePages]).getD []

theorem threePages_ok : threePages.Ok where
  system := roomyKernel_honours
  pages := ⟨21, rfl, by decide, by decide, by decide⟩
  disjoint := by decide

/-- Two segments are built. -/
theorem memseg_per_block_threePages : ∃ runs : List (List HugepageFile),
    runs.length = 2 ∧ runs.flatten = threePagesTbl.filter (·.active) ∧ ∀ run ∈ runs, run.IsChain Precedes := by
  have htbl : remapSizes insertPages 0 4096 0 [threePages] = some threePagesTbl := by decide
  obtain ⟨res, hinit⟩ := Option.isSome_iff_exists.mp
    (show (hugepageInit (fun _ => ⟨0, 0, 0, 0, 0⟩) threePagesTbl).isSome = true by decide)
  obtain ⟨runs, hflatten, hchain, hheads, -⟩ := memseg_per_block 0 4096 0 insertPages_ok
    (fun e he => List.mem_singleton.mp he ▸ threePages_ok) (List.pairwise_singleton _ _) htbl
    List.filter_sublist (fun _ => rfl) hinit
  have hcount : (blockStarts (threePagesTbl.filter (·.active))).length = 2 := by decide
  have hlen := congrArg List.length hheads
  rw [List.length_map, List.length_map, hcount] at hlen
  exact ⟨runs, hlen, hflatten, hchain⟩

end EalMemory
