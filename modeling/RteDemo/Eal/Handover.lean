import RteDemo.Eal.Blocks
import RteDemo.Malloc.Init

/-!
# From hugepages to heaps

`rte_eal_malloc_heap_init` relies on what `rte_eal_hugepage_init` has left in the memseg table. The segments
built from pages that are mapped again are what it relies on, and each socket gets the memory of its pages
(`heaps_of_hugepages`).
-/

namespace EalMemory

open RteDemo

/-- What the allocator reads of a memseg. -/
def RteMemseg.view (seg : RteMemseg) : RteDemo.RteMemseg :=
  ⟨seg.addr, seg.len, seg.hugepageSz, seg.socketId.toNat⟩

/-- The virtual addresses do not overlap. -/
def VaApart (p q : HugepageFile) : Prop :=
  p.finalVa + p.size ≤ q.finalVa ∨ q.finalVa + q.size ≤ p.finalVa

instance (p q : HugepageFile) : Decidable (VaApart p q) :=
  inferInstanceAs (Decidable (_ ∨ _))

/-- Pages that the heaps can use. -/
structure Usable (kept : List HugepageFile) : Prop where
  placed : ∀ p ∈ kept, ∃ j, 7 ≤ j ∧ Placed j p
  socket : ∀ p ∈ kept, 0 ≤ p.socketId ∧ p.socketId < rteMaxNumaNodes
  apart : kept.Pairwise VaApart

variable {p : HugepageFile} {l kept : List HugepageFile} {runs : List (List HugepageFile)}

/-! ## One run -/

/-- The pages of a run lie one behind the other. -/
theorem run_contiguous (hplaced : ∀ x ∈ l, ∃ j, Placed j x) (hrun : l.IsChain Continues) :
    l.IsChain fun p q => q.socketId = p.socketId ∧ q.finalVa = p.finalVa + p.size := by
  refine hrun.imp_of_mem_imp fun p q hp _ hpq => ?_
  obtain ⟨j, hj⟩ := hplaced p hp
  have hend := hj.end_le
  obtain ⟨hsock, -, -, hva⟩ := hpq
  rw [Word.add_eq (by rw [hj.size]; omega)] at hva
  exact ⟨hsock, hva⟩

theorem run_socket (hrun : (p :: l).IsChain fun p q => q.socketId = p.socketId ∧ q.finalVa = p.finalVa + p.size) :
    ∀ x ∈ p :: l, x.socketId = p.socketId := by
  induction l generalizing p with
  | nil => simp
  | cons q l ih =>
    obtain ⟨⟨hsock, -⟩, hrest⟩ := List.isChain_cons_cons.mp hrun
    refine List.forall_mem_cons.mpr ⟨rfl, fun x hx => ?_⟩
    exact (ih hrest x hx).trans hsock

/-- A range that no page of the run meets does not meet the run. -/
theorem run_apart {a b : Nat} (hab : a < b)
    (hrun : (p :: l).IsChain fun p q => q.socketId = p.socketId ∧ q.finalVa = p.finalVa + p.size)
    (h : ∀ x ∈ p :: l, b ≤ x.finalVa ∨ x.finalVa + x.size ≤ a) :
    b ≤ p.finalVa ∨ p.finalVa + runLen (p :: l) ≤ a := by
  induction l generalizing p with
  | nil => simpa [runLen] using h
  | cons q l ih =>
    obtain ⟨⟨-, hva⟩, hrest⟩ := List.isChain_cons_cons.mp hrun
    obtain ⟨hp, hl⟩ := List.forall_mem_cons.mp h
    have hlen : runLen (p :: q :: l) = p.size + runLen (q :: l) := rfl
    rcases ih hrest hl with hle | hle
    · -- the range ends before `q`, so it cannot begin behind `p`
      rcases hp with hle' | hle'
      · exact .inl hle'
      · omega
    · right
      omega

theorem Usable.long (h : Usable kept) (hp : p ∈ kept) : 128 ≤ p.size ∧ 64 ∣ p.finalVa := by
  obtain ⟨j, hj, hplaced⟩ := h.placed p hp
  have hle : 2 ^ 7 ≤ 2 ^ j := Nat.pow_le_pow_right (by decide) hj
  exact ⟨hplaced.size ▸ hle, (pow_dvd_pow 2 (show 6 ≤ j by omega)).trans hplaced.aligned⟩

/-! ## All runs -/

/-- The memsegs of the runs, as the allocator reads them. -/
def segViews (runs : List (List HugepageFile)) : List RteDemo.RteMemseg := runs.map fun run => (segOf run).view

/-- What `rte_eal_malloc_heap_init` relies on. -/
theorem segViews_ok (h : Usable kept) (hruns : MaximalRuns kept runs) (hcount : runs.length ≤ rteMaxMemseg) :
    MemsegsOK (segViews runs) := by
  have hmem : ∀ run ∈ runs, ∀ x ∈ run, x ∈ kept := fun run hrun x hx =>
    hruns.flatten ▸ List.mem_flatten.mpr ⟨run, hrun, hx⟩
  have hmapped : ∀ x ∈ kept, x.Mapped := fun x hx => (h.placed x hx).elim fun _ hj => hj.2.mapped
  have hcons : ∀ run ∈ runs, ∃ p l, run = p :: l := fun run hrun =>
    List.exists_cons_of_ne_nil fun hnil => hruns.nonempty (hnil ▸ hrun)
  have hcont : ∀ run ∈ runs,
      run.IsChain fun p q => q.socketId = p.socketId ∧ q.finalVa = p.finalVa + p.size := fun run hrun =>
    run_contiguous (fun x hx => (h.placed x (hmem run hrun x hx)).imp fun _ hj => hj.2)
      (hruns.contiguous run hrun)
  have hall : ∀ P : RteDemo.RteMemseg → Prop,
      (∀ p l, p :: l ∈ runs → p ∈ kept → P (segOf (p :: l)).view) → ∀ seg ∈ segViews runs, P seg := by
    intro P hP seg hseg
    obtain ⟨run, hrun, rfl⟩ := List.mem_map.mp hseg
    obtain ⟨p, l, rfl⟩ := hcons run hrun
    exact hP p l hrun (hmem _ hrun p List.mem_cons_self)
  refine ⟨?_, ?_, ?_, ?_, ?_, ?_, ?_⟩
  · rwa [segViews, List.length_map]
  · exact hall _ fun p l _ hp => Nat.pos_of_ne_zero (hmapped p hp).va
  · exact hall _ fun p l _ hp => (h.long hp).2
  · refine hall _ fun p l _ hp => (h.long hp).1.trans ?_
    exact Nat.le_add_right p.size (runLen l)
  · exact hall _ fun p l hrun _ =>
      run_end_le (hruns.contiguous _ hrun) fun x hx => hmapped x (hmem _ hrun x hx)
  · refine hall _ fun p l _ hp => ?_
    obtain ⟨hlow, hhigh⟩ := h.socket p hp
    change p.socketId.toNat < rteMaxNumaNodes
    omega
  · have hapart : runs.flatten.Pairwise VaApart := hruns.flatten ▸ h.apart
    refine List.pairwise_map.mpr ((List.pairwise_flatten.mp hapart).2.imp_of_mem ?_)
    intro run run' hrun hrun' hpages
    obtain ⟨p, l, rfl⟩ := hcons run hrun
    obtain ⟨q, l', rfl⟩ := hcons run' hrun'
    have hpos : 0 < runLen (p :: l) := runLen_pos (hmapped p (hmem _ hrun p List.mem_cons_self))
    -- no page of the second run meets the first run
    have hfirst : ∀ y ∈ q :: l', p.finalVa + runLen (p :: l) ≤ y.finalVa ∨ y.finalVa + y.size ≤ p.finalVa := by
      intro y hy
      have hy0 := (hmapped y (hmem _ hrun' y hy)).size_pos
      refine (run_apart (a := y.finalVa) (b := y.finalVa + y.size) (by omega) (hcont _ hrun) fun x hx => ?_).symm
      exact (hpages x hx y hy).symm
    have hlt : p.finalVa < p.finalVa + runLen (p :: l) := by omega
    exact run_apart hlt (hcont _ hrun') hfirst

/-- The memory of one socket. -/
theorem segViews_socket (hplaced : ∀ run ∈ runs, ∀ x ∈ run, ∃ j, Placed j x) (hne : [] ∉ runs)
    (hcont : ∀ run ∈ runs, run.IsChain Continues) (s : Nat) :
    (((segViews runs).filter (·.socketId = s)).map (·.len)).sum =
      ((runs.flatten.filter fun p => p.socketId.toNat = s).map (·.size)).sum := by
  induction runs with
  | nil => rfl
  | cons run runs ih =>
    obtain ⟨p, l, rfl⟩ := List.exists_cons_of_ne_nil fun h : run = [] => hne (h ▸ List.mem_cons_self)
    have hrest := ih (fun r hr => hplaced r (List.mem_cons_of_mem _ hr))
      (fun h => hne (List.mem_cons_of_mem _ h)) fun r hr => hcont r (List.mem_cons_of_mem _ hr)
    have hsock := run_socket (run_contiguous (hplaced _ List.mem_cons_self) (hcont _ List.mem_cons_self))
    rw [List.flatten_cons, List.filter_append, List.map_append, List.sum_append, ← hrest, segViews, List.map_cons]
    by_cases hs : p.socketId.toNat = s
    · have hrun : (p :: l).filter (fun x => x.socketId.toNat = s) = p :: l :=
        List.filter_eq_self.mpr fun x hx => decide_eq_true ((congrArg Int.toNat (hsock x hx)).trans hs)
      have hview : decide ((segOf (p :: l)).view.socketId = s) = true := decide_eq_true hs
      rw [hrun, List.filter_cons, if_pos hview, List.map_cons, List.sum_cons]
      rfl
    · have hrun : (p :: l).filter (fun x => x.socketId.toNat = s) = [] :=
        List.filter_eq_nil_iff.mpr fun x hx => by rw [hsock x hx]; simpa using hs
      have hview : ¬decide ((segOf (p :: l)).view.socketId = s) = true := fun h => hs (of_decide_eq_true h)
      rw [hrun, List.filter_cons, if_neg hview, List.map_nil, List.sum_nil, Nat.zero_add]
      rfl

/-- Pages that are mapped again are usable, if they are on sockets there are and do not overlap. -/
theorem usable_of_remapped {qsort : List HugepageFile → List HugepageFile} {sizes : List SizePages}
    {tbl : List HugepageFile} (base ps offset : Nat) (hq : QsortPages qsort) (hok : ∀ e ∈ sizes, e.Ok)
    (hdesc : sizes.Pairwise fun e e' => e'.hugepageSz < e.hugepageSz) (hbig : ∀ e ∈ sizes, 128 ≤ e.hugepageSz)
    (htbl : remapSizes qsort base ps offset sizes = some tbl)
    (hsock : ∀ p ∈ tbl, 0 ≤ p.socketId ∧ p.socketId < rteMaxNumaNodes) (hapart : tbl.Pairwise VaApart)
    (hkept : kept.Sublist tbl) : Usable kept := by
  obtain ⟨ht, hsizes⟩ := remapSizes_table base ps offset hq hok hdesc htbl
  refine ⟨fun p hp => ?_, fun p hp => hsock p (hkept.subset hp), hapart.sublist hkept⟩
  have hmem := hkept.subset hp
  obtain ⟨j, hj⟩ := ht.placed p hmem
  obtain ⟨e, he, hsz⟩ := hsizes p hmem
  have hle : 2 ^ 7 ≤ 2 ^ j := by
    rw [← hj.size, hsz]
    exact hbig e he
  exact ⟨j, (Nat.pow_le_pow_iff_right (by decide)).mp hle, hj⟩

/-- **The heaps get the memory of the hugepages.** Under the assumptions of `memseg_per_block`, for pages of at
least two cache lines on sockets there are that the kernel did not let overlap: the memsegs in use are what
`rte_eal_malloc_heap_init` relies on, it adds every one of them to the heap of its socket, and those of a socket
have the bytes of the kept pages on that socket. -/
theorem heaps_of_hugepages {qsort : List HugepageFile → List HugepageFile} {sizes : List SizePages}
    {memseg₀ memseg : Int → RteMemseg} {src table tbl : List HugepageFile} (base ps offset : Nat)
    (hq : QsortPages qsort) (hok : ∀ e ∈ sizes, e.Ok)
    (hdesc : sizes.Pairwise fun e e' => e'.hugepageSz < e.hugepageSz) (hbig : ∀ e ∈ sizes, 128 ≤ e.hugepageSz)
    (htbl : remapSizes qsort base ps offset sizes = some tbl)
    (hsock : ∀ p ∈ tbl, 0 ≤ p.socketId ∧ p.socketId < rteMaxNumaNodes) (hapart : tbl.Pairwise VaApart)
    (hkept : (src.filter (·.active)).Sublist tbl) (hzero : ∀ j, (memseg₀ j).len = 0)
    (hinit : hugepageInit memseg₀ src = some (table, memseg)) (m : Bytes.Mem) :
    ∃ n, (n < rteMaxMemseg → (memseg n).len = 0) ∧
      let segs := (List.range n).map fun i : Nat => (memseg i).view
      MemsegsOK segs ∧ Added segs m segs.length (rteEalMallocHeapInit (HeapState.boot segs m)) ∧
        ∀ s : Nat, ((segs.filter (·.socketId = s)).map (·.len)).sum =
          (((src.filter (·.active)).filter fun p => p.socketId.toNat = s).map (·.size)).sum := by
  have hu := usable_of_remapped base ps offset hq hok hdesc hbig htbl hsock hapart hkept
  have hm : ∀ x ∈ src, x.active → x.Mapped := fun x hx hact =>
    (hu.placed x (List.mem_filter.mpr ⟨hx, hact⟩)).elim fun _ hj => hj.2.mapped
  obtain ⟨runs, hruns⟩ := exists_maximalRuns (src.filter (·.active))
  have hb := built_of_init hzero hm hruns hinit
  have hsegs : (List.range runs.length).map (fun i : Nat => (memseg i).view) = segViews runs := by
    refine List.ext_getElem (by simp [segViews]) fun i hi hi' => ?_
    rw [segViews, List.length_map] at hi'
    simp only [segViews, List.getElem_map, List.getElem_range, hb.segs i hi']
  have hsegsOK := segViews_ok hu hruns hb.count
  refine ⟨runs.length, fun _ => hb.stop, ?_⟩
  dsimp only
  rw [hsegs]
  refine ⟨hsegsOK, rteEalMallocHeapInit_added hsegsOK m, fun s => ?_⟩
  rw [← hruns.flatten]
  refine segViews_socket (fun run hrun x hx => ?_) hruns.nonempty hruns.contiguous s
  have hmem : x ∈ src.filter (·.active) := hruns.flatten ▸ List.mem_flatten.mpr ⟨run, hrun, hx⟩
  exact (hu.placed x hmem).imp fun _ hj => hj.2

/-- Three pages of 2 MB are in the heap of the first socket. -/
theorem heaps_of_hugepages_threePages : ∃ segs : List RteDemo.RteMemseg,
    MemsegsOK segs ∧ ((segs.filter (·.socketId = 0)).map (·.len)).sum = 3 * 2 ^ 21 := by
  have htbl : remapSizes insertPages 0 4096 0 [threePages] = some threePagesTbl := by decide
  obtain ⟨res, hinit⟩ := Option.isSome_iff_exists.mp
    (show (hugepageInit (fun _ => ⟨0, 0, 0, 0, 0⟩) threePagesTbl).isSome = true by decide)
  obtain ⟨n, -, hsegs, -, hsum⟩ := heaps_of_hugepages 0 4096 0 insertPages_ok
    (fun e he => List.mem_singleton.mp he ▸ threePages_ok) (List.pairwise_singleton _ _)
    (fun e he => List.mem_singleton.mp he ▸ by decide) htbl (by decide) (by decide)
    List.filter_sublist (fun _ => rfl) hinit fun _ => 0
  exact ⟨_, hsegs, (hsum 0).trans (by decide)⟩

end EalMemory
