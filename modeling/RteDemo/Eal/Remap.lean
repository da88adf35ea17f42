import RteDemo.Eal.KeptPages

/-!
# The second mapping of the hugepages

`rte_eal_hugepage_init` sorts the pages by physical address and has `map_all_hugepages` map them once
more (`mapAllHugepages`). For each block of contiguous physical pages the code looks for a free range of
addresses (`getVirtualArea`) and asks for the pages of the block one after the other in that range.

The segments of `memsegLoop` are then cut where the physical addresses break, and nowhere else
(`remap_contiguous`).
-/

namespace EalMemory

open RteDemo

/-! ## The code -/

/-- What the system answers while page `i` is mapped: opening `/dev/zero`, mapping it at a hint with a
length, opening the file of the page, mapping it at a hint, and locking it. -/
structure RemapKernel where
  openZero : Nat → Bool
  mmapZero : Nat → Nat → Nat → Option Nat
  openHuge : Nat → Bool
  mmapHuge : Nat → Nat → Option Nat
  flock : Nat → Bool

/-- `vma_addr` and `vma_len`, with `baseaddr_offset`. -/
structure VirtualArea where
  addr : Nat
  len : Nat
  offset : Nat
  deriving DecidableEq

/-- The loop of `get_virtual_area`: the address, if any, and `*size`. -/
def areaLoop (mmap : Nat → Option Nat) (hugepageSz : Nat) : Nat → Nat → Option Nat × Nat
  | 0, size => (none, size)
  | fuel + 1, size =>
    match mmap (Word.add 64 size hugepageSz) with
    | some addr => (some addr, size)
    | none =>
      if Word.sub 64 size hugepageSz > 0 then
        areaLoop mmap hugepageSz fuel (Word.sub 64 size hugepageSz)
      else (none, Word.sub 64 size hugepageSz)

/-- `addr_hint` -/
def addrHint (baseVirtaddr pageSize offset : Nat) : Nat :=
  if baseVirtaddr ≠ 0 then rteAlignFloor (Word.add 64 baseVirtaddr offset) (pageSize - 1) else 0

/-- `get_virtual_area`. The size is a multiple of `hugepage_sz`, so the loop takes `size / hugepage_sz`
turns at most. -/
def getVirtualArea (k : RemapKernel) (i baseVirtaddr pageSize offset size hugepageSz : Nat) :
    VirtualArea :=
  if k.openZero i then
    match areaLoop (k.mmapZero i (addrHint baseVirtaddr pageSize offset)) hugepageSz (size / hugepageSz)
        size with
    | (some addr, size) =>
      ⟨rteAlignFloor (Word.add 64 addr (hugepageSz - 1)) (hugepageSz - 1), size, Word.add 64 offset size⟩
    | (none, size) => ⟨0, size, offset⟩
  else ⟨0, size, offset⟩

/-- `num_pages`: how many of the pages from the first on are physically contiguous. -/
def contigPages (hugepageSz : Nat) : List HugepageFile → Nat
  | [] => 0
  | [_] => 1
  | hp :: next :: rest =>
    if next.physaddr ≠ Word.add 64 hp.physaddr hugepageSz then 1
    else contigPages hugepageSz (next :: rest) + 1

/-- The virtual area for the next contiguous physical block, if the last one is used up. -/
def reserveArea (k : RemapKernel) (i baseVirtaddr pageSize hugepageSz : Nat) (vma : VirtualArea)
    (pages : List HugepageFile) : VirtualArea :=
  if vma.len = 0 then
    let area := getVirtualArea k i baseVirtaddr pageSize vma.offset
      (Word.mul 64 (contigPages hugepageSz pages) hugepageSz) hugepageSz
    if area.addr = 0 then { area with len := hugepageSz } else area
  else vma

/-- The rest of the area, behind a page. -/
def VirtualArea.next (vma : VirtualArea) (hugepageSz : Nat) : VirtualArea :=
  ⟨rtePtrAdd vma.addr hugepageSz, Word.sub 64 vma.len hugepageSz, vma.offset⟩

/-- `hugepg_tbl[i].final_va = virtaddr` -/
def HugepageFile.setVa (hp : HugepageFile) (va : Nat) : HugepageFile := { hp with finalVa := va }

/-- The table, the returned number of pages and `baseaddr_offset`. -/
structure Remapped where
  pages : List HugepageFile
  count : Nat
  offset : Nat

/-- A page that is mapped before the others. -/
def Remapped.cons (hp : HugepageFile) (r : Remapped) : Remapped := ⟨hp :: r.pages, r.count + 1, r.offset⟩

/-- The loop of `map_all_hugepages` with `orig` 0, from page `i` on. -/
def remapLoop (k : RemapKernel) (baseVirtaddr pageSize hugepageSz : Nat) (i : Nat) (vma : VirtualArea) :
    List HugepageFile → Remapped
  | [] => ⟨[], 0, vma.offset⟩
  | hp :: rest =>
    let area := reserveArea k i baseVirtaddr pageSize hugepageSz vma (hp :: rest)
    if k.openHuge i then
      match k.mmapHuge i area.addr with
      | none => ⟨hp :: rest, 0, area.offset⟩
      | some virtaddr =>
        if k.flock i then
          (remapLoop k baseVirtaddr pageSize hugepageSz (i + 1) (area.next hugepageSz) rest).cons
            (hp.setVa virtaddr)
        else ⟨hp.setVa virtaddr :: rest, 0, area.offset⟩
    else ⟨hp :: rest, 0, area.offset⟩

/-- `map_all_hugepages` with `orig` 0. -/
def mapAllHugepages (k : RemapKernel) (baseVirtaddr pageSize offset hugepageSz : Nat)
    (hugepgTbl : List HugepageFile) : Remapped :=
  remapLoop k baseVirtaddr pageSize hugepageSz 0 ⟨0, 0, offset⟩ hugepgTbl

/-! ## What is left alone -/

section

variable (k : RemapKernel) (base ps sz i : Nat) (vma : VirtualArea) (pages : List HugepageFile)

/-- Opening, mapping and locking page `i` succeeds. -/
def RemapKernel.Maps (k : RemapKernel) (i : Nat) : Prop :=
  k.openHuge i = true ∧ (∀ hint, (k.mmapHuge i hint).isSome) ∧ k.flock i = true

/-- Whatever the system answers, the mapping changes nothing but final addresses. -/
theorem remapLoop_frame :
    List.Forall₂ (fun p q => p.setVa q.finalVa = q) pages (remapLoop k base ps sz i vma pages).pages := by
  have hrefl : ∀ l : List HugepageFile, List.Forall₂ (fun p q => p.setVa q.finalVa = q) l l :=
    fun l => List.forall₂_same.mpr fun _ _ => rfl
  induction pages generalizing i vma with
  | nil => exact .nil
  | cons hp rest ih =>
    rw [remapLoop]
    split
    · split
      · exact hrefl _
      · split
        · exact .cons rfl (ih _ _)
        · exact .cons rfl (hrefl _)
    · exact hrefl _

/-- The pages behind the one that could not be mapped are not touched. -/
theorem remapLoop_drop :
    (remapLoop k base ps sz i vma pages).pages.drop ((remapLoop k base ps sz i vma pages).count + 1) =
      pages.drop ((remapLoop k base ps sz i vma pages).count + 1) := by
  induction pages generalizing i vma with
  | nil => rfl
  | cons hp rest ih =>
    rw [remapLoop]
    split
    · split
      · rfl
      · split
        · exact ih _ _
        · rfl
    · rfl

/-- If nothing fails, all pages are mapped. -/
theorem remapLoop_all (h : ∀ n, i ≤ n → n < i + pages.length → k.Maps n) :
    (remapLoop k base ps sz i vma pages).count = pages.length := by
  induction pages generalizing i vma with
  | nil => rfl
  | cons hp rest ih =>
    rw [List.length_cons] at h
    obtain ⟨hopen, hmap, hlock⟩ := h i (Nat.le_refl i) (by omega)
    obtain ⟨va, hva⟩ :=
      Option.isSome_iff_exists.mp (hmap (reserveArea k i base ps sz vma (hp :: rest)).addr)
    rw [remapLoop, if_pos hopen, hva]
    dsimp only
    rw [if_pos hlock, List.length_cons]
    exact congrArg (· + 1) (ih (i + 1) _ fun n hle hlt => h n (by omega) (by omega))

end

/-- The first of the pages that are mapped is the first page. -/
theorem head_of_frame {pages new : List HugepageFile} {n : Nat} {q : HugepageFile}
    (h : List.Forall₂ (fun p q => p.setVa q.finalVa = q) pages new) (hq : q ∈ (new.take n).head?) :
    ∃ p ∈ pages.head?, p.setVa q.finalVa = q := by
  cases n with
  | zero => cases hq
  | succ n =>
    cases h with
    | nil => cases hq
    | cons hpq _ =>
      cases hq
      exact ⟨_, rfl, hpq⟩

/-! ## The reserved area -/

/-- A system with room: `/dev/zero` can be opened, ranges up to `2 ^ 62` bytes are found below the
middle of the address space, and a page that is mapped at an address inside such a range is put there. -/
structure RemapKernel.Honours (k : RemapKernel) : Prop where
  openZero : ∀ i, k.openZero i = true
  area : ∀ i hint len, len ≤ 2 ^ 62 →
    ∃ addr, k.mmapZero i hint len = some addr ∧ 0 < addr ∧ addr + len ≤ 2 ^ 63
  huge : ∀ i hint va, hint ≠ 0 → k.mmapHuge i hint = some va → va = hint

/-- The pages of one size. -/
structure HugePages (j : Nat) (pages : List HugepageFile) : Prop where
  size : ∀ hp ∈ pages, hp.size = 2 ^ j
  physaddr : ∀ hp ∈ pages, hp.physaddr + 2 ^ j < 2 ^ 64
  few : (pages.length + 1) * 2 ^ j ≤ 2 ^ 62

/-- The area covers the contiguous block at the head of `pages`. -/
structure Reserved (j : Nat) (vma : VirtualArea) (pages : List HugepageFile) : Prop where
  len : vma.len = contigPages (2 ^ j) pages * 2 ^ j
  aligned : 2 ^ j ∣ vma.addr
  pos : 0 < vma.addr
  end_le : vma.addr + vma.len ≤ 2 ^ 63

/-- The area is used up, or covers the block that comes next. -/
def AreaOk (j : Nat) (vma : VirtualArea) (pages : List HugepageFile) : Prop :=
  vma.len = 0 ∨ Reserved j vma pages

variable {k : RemapKernel} {j m : Nat} {vma : VirtualArea} {hp : HugepageFile}
  {pages rest : List HugepageFile} (i base ps offset : Nat)

theorem HugePages.tail (h : HugePages j (hp :: rest)) : HugePages j rest where
  size := fun p hp => h.size p (List.mem_cons_of_mem _ hp)
  physaddr := fun p hp => h.physaddr p (List.mem_cons_of_mem _ hp)
  few := (Nat.mul_le_mul_right _ (by simp)).trans h.few

theorem contigPages_le (sz : Nat) (pages : List HugepageFile) : contigPages sz pages ≤ pages.length := by
  induction pages with
  | nil => exact Nat.le_refl 0
  | cons hp rest ih =>
    cases rest with
    | nil => exact Nat.le_refl 1
    | cons next rest =>
      rw [contigPages, List.length_cons]
      split_ifs
      · omega
      · omega

theorem contigPages_pos (sz : Nat) (hp : HugepageFile) (rest : List HugepageFile) :
    0 < contigPages sz (hp :: rest) := by
  cases rest with
  | nil => exact Nat.one_pos
  | cons next rest =>
    rw [contigPages]
    split_ifs
    · exact Nat.one_pos
    · exact Nat.succ_pos _

/-- The range that is found for `m` pages. -/
theorem getVirtualArea_spec (hk : k.Honours) (hm : 0 < m) (hle : (m + 1) * 2 ^ j ≤ 2 ^ 62) :
    let area := getVirtualArea k i base ps offset (m * 2 ^ j) (2 ^ j)
    area.len = m * 2 ^ j ∧ 2 ^ j ∣ area.addr ∧ 0 < area.addr ∧ area.addr + area.len ≤ 2 ^ 63 := by
  have hj : 0 < 2 ^ j := Nat.two_pow_pos j
  rw [Nat.succ_mul] at hle
  obtain ⟨addr, haddr, hpos, hend⟩ := hk.area i (addrHint base ps offset) (m * 2 ^ j + 2 ^ j) hle
  obtain ⟨n, rfl⟩ : ∃ n, m = n + 1 := ⟨m - 1, by omega⟩
  have hjle : j ≤ 64 := by
    have : 2 ^ j ≤ 2 ^ 64 := by omega
    exact (Nat.pow_le_pow_iff_right (by decide)).mp this
  have hlow : addr ≤ (addr + (2 ^ j - 1)) / 2 ^ j * 2 ^ j := by
    have := Word.lt_div_mul_add (addr + (2 ^ j - 1)) j
    omega
  have hhigh := Word.div_mul_le (addr + (2 ^ j - 1)) j
  unfold getVirtualArea
  rw [if_pos (hk.openZero i), Nat.mul_div_cancel _ hj, areaLoop, Word.add_eq (by omega), haddr]
  dsimp only
  rw [Word.add_eq (by omega), rteAlignFloor_two_pow (by omega) hjle]
  refine ⟨rfl, Nat.dvd_mul_left _ _, by omega, by omega⟩

/-- Before a page is mapped there is an area for its block. -/
theorem reserveArea_spec (hk : k.Honours) (h : HugePages j (hp :: rest)) (hv : AreaOk j vma (hp :: rest)) :
    Reserved j (reserveArea k i base ps (2 ^ j) vma (hp :: rest)) (hp :: rest) := by
  unfold reserveArea
  by_cases h0 : vma.len = 0
  · have hpos := contigPages_pos (2 ^ j) hp rest
    have hle : (contigPages (2 ^ j) (hp :: rest) + 1) * 2 ^ j ≤ 2 ^ 62 :=
      (Nat.mul_le_mul_right _ (Nat.succ_le_succ (contigPages_le _ _))).trans h.few
    have hlt : contigPages (2 ^ j) (hp :: rest) * 2 ^ j < 2 ^ 64 := by
      have hj : 0 < 2 ^ j := Nat.two_pow_pos j
      rw [Nat.succ_mul] at hle
      omega
    obtain ⟨hlen, hdvd, haddr, hend⟩ :=
      getVirtualArea_spec i base ps vma.offset hk hpos hle
    rw [if_pos h0, Word.mul_eq hlt]
    dsimp only
    rw [if_neg (by omega)]
    exact ⟨hlen, hdvd, haddr, hend⟩
  · rw [if_neg h0]
    exact hv.resolve_left h0

/-- Mapping a page takes it off the block. -/
theorem next_spec (h : HugePages j (hp :: rest)) (hr : Reserved j vma (hp :: rest)) :
    (vma.next (2 ^ j)).addr = vma.addr + 2 ^ j ∧ AreaOk j (vma.next (2 ^ j)) rest ∧
      ∀ q ∈ rest.head?, q.physaddr = hp.physaddr + 2 ^ j → (vma.next (2 ^ j)).len ≠ 0 := by
  have hj : 0 < 2 ^ j := Nat.two_pow_pos j
  obtain ⟨hlen, hdvd, hpos, hend⟩ := hr
  have hge : 2 ^ j ≤ vma.len := by
    rw [hlen]
    exact Nat.le_mul_of_pos_left _ (contigPages_pos _ hp rest)
  have haddr : (vma.next (2 ^ j)).addr = vma.addr + 2 ^ j := rtePtrAdd_eq (by omega)
  have hnext : (vma.next (2 ^ j)).len = vma.len - 2 ^ j := Word.sub_eq hge (by omega)
  refine ⟨haddr, ?_⟩
  cases rest with
  | nil =>
    rw [contigPages, Nat.one_mul] at hlen
    exact ⟨.inl (by omega), fun q hq => by cases hq⟩
  | cons next rest =>
    have hphys : Word.add 64 hp.physaddr (2 ^ j) = hp.physaddr + 2 ^ j :=
      Word.add_eq (h.physaddr hp List.mem_cons_self)
    rw [contigPages, hphys] at hlen
    split_ifs at hlen with hcut
    · -- the block ends here, and so does the area
      rw [Nat.one_mul] at hlen
      refine ⟨.inl (by omega), fun q hq heq => ?_⟩
      cases hq
      exact absurd heq hcut
    · have hrest : (vma.next (2 ^ j)).len = contigPages (2 ^ j) (next :: rest) * 2 ^ j := by
        rw [hnext, hlen, Nat.succ_mul]
        omega
      refine ⟨.inr ⟨hrest, ?_, by omega, by omega⟩, fun _ _ _ => ?_⟩
      · rw [haddr]
        exact Nat.dvd_add hdvd (Nat.dvd_refl _)
      · rw [hrest]
        exact (Nat.mul_pos (contigPages_pos _ next rest) hj).ne'

/-! ## The pages that are mapped -/

/-- The pages before the one that could not be mapped. -/
def Remapped.done (r : Remapped) : List HugepageFile := r.pages.take r.count

@[simp] theorem done_cons (hp : HugepageFile) (r : Remapped) : (r.cons hp).done = hp :: r.done := rfl

/-- A page that is mapped at a multiple of its size. -/
structure Placed (j : Nat) (hp : HugepageFile) : Prop where
  mapped : hp.Mapped
  size : hp.size = 2 ^ j
  physaddr : hp.physaddr + 2 ^ j < 2 ^ 64
  aligned : 2 ^ j ∣ hp.finalVa
  end_le : hp.finalVa + 2 ^ j ≤ 2 ^ 63

theorem placed_setVa (h : HugePages j (hp :: rest)) (hr : Reserved j vma (hp :: rest)) :
    Placed j (hp.setVa vma.addr) := by
  have hsize := h.size hp List.mem_cons_self
  have hphys := h.physaddr hp List.mem_cons_self
  have hj : 0 < 2 ^ j := Nat.two_pow_pos j
  have hge : 2 ^ j ≤ vma.len := by
    rw [hr.len]
    exact Nat.le_mul_of_pos_left _ (contigPages_pos _ hp rest)
  have hend := hr.end_le
  refine ⟨⟨hr.pos.ne', ?_, ?_, ?_⟩, hsize, hphys, hr.aligned, ?_⟩
  · exact hsize ▸ hj
  · change vma.addr + hp.size ≤ 2 ^ 64
    omega
  · change hp.physaddr < 2 ^ 64
    omega
  · change vma.addr + 2 ^ j ≤ 2 ^ 63
    omega

/-- A page that cannot be mapped ends the table that is mapped. -/
theorem nothing_mapped (j : Nat) (vma : VirtualArea) (l : List HugepageFile) (o : Nat) :
    (∀ q ∈ (Remapped.mk l 0 o).done, Placed j q) ∧
      ((Remapped.mk l 0 o).done.IsChain fun p q =>
        q.physaddr = p.physaddr + 2 ^ j → q.finalVa = p.finalVa + 2 ^ j) ∧
      ∀ q ∈ (Remapped.mk l 0 o).done.head?, vma.len ≠ 0 → q.finalVa = vma.addr := by
  have hnone : (Remapped.mk l 0 o).done = [] := rfl
  rw [hnone]
  refine ⟨fun q hq => ?_, .nil, fun q hq => ?_⟩
  · cases hq
  · cases hq

/-- The loop, from any page on. The first page goes where the area begins, and each page that continues
the one before physically continues it virtually. -/
theorem remapLoop_spec (hk : k.Honours) (h : HugePages j pages) (hv : AreaOk j vma pages) :
    let r := remapLoop k base ps (2 ^ j) i vma pages
    (∀ q ∈ r.done, Placed j q) ∧
      (r.done.IsChain fun p q => q.physaddr = p.physaddr + 2 ^ j → q.finalVa = p.finalVa + 2 ^ j) ∧
      ∀ q ∈ r.done.head?, vma.len ≠ 0 → q.finalVa = vma.addr := by
  induction pages generalizing i vma with
  | nil => exact nothing_mapped j vma [] vma.offset
  | cons hp rest ih =>
    have hr := reserveArea_spec i base ps hk h hv
    have hsame : vma.len ≠ 0 → (reserveArea k i base ps (2 ^ j) vma (hp :: rest)).addr = vma.addr := by
      intro h0
      rw [reserveArea, if_neg h0]
    rw [remapLoop]
    dsimp only
    generalize reserveArea k i base ps (2 ^ j) vma (hp :: rest) = area at hr hsame ⊢
    split
    · split
      · exact nothing_mapped _ _ _ _
      · rename_i virtaddr hva
        obtain rfl : virtaddr = area.addr := hk.huge i _ _ hr.pos.ne' hva
        split
        · obtain ⟨haddr, hok, hcont⟩ := next_spec h hr
          have hframe := remapLoop_frame k base ps (2 ^ j) (i + 1) (area.next (2 ^ j)) rest
          obtain ⟨hplaced, hchain, hhead⟩ := ih (i + 1) h.tail hok
          rw [done_cons]
          refine ⟨?_, ?_, ?_⟩
          · exact List.forall_mem_cons.mpr ⟨placed_setVa h hr, hplaced⟩
          · refine List.isChain_cons.mpr ⟨fun q hq hphys => ?_, hchain⟩
            obtain ⟨p, hp', hpq⟩ := head_of_frame hframe hq
            have hlen := hcont p hp' ((congrArg HugepageFile.physaddr hpq).trans hphys)
            exact (hhead q hq hlen).trans haddr
          · intro q hq h0
            cases hq
            exact hsame h0
        · exact nothing_mapped _ _ _ _
    · exact nothing_mapped _ _ _ _

/-- Between two pages of the mapped table only the physical addresses and the sockets decide. -/
theorem newMemseg_of_placed {p q : HugepageFile} (hp : Placed j p) (hq : Placed j q)
    (hcont : q.physaddr = p.physaddr + 2 ^ j → q.finalVa = p.finalVa + 2 ^ j) :
    newMemseg (some p) q = false ↔ q.socketId = p.socketId ∧ q.physaddr = p.physaddr + 2 ^ j := by
  have hend := hp.end_le
  have hphys : Word.add 64 p.physaddr p.size = p.physaddr + 2 ^ j := by
    rw [hp.size, Word.add_eq hp.physaddr]
  have hva : Word.add 64 p.finalVa p.size = p.finalVa + 2 ^ j := by
    rw [hp.size, Word.add_eq (by omega)]
  rw [newMemseg_eq_false_iff hq.mapped, Continues, hphys, hva, hq.size, hp.size]
  constructor
  · rintro ⟨hsock, -, hcut, -⟩
    exact ⟨hsock, hcut⟩
  · rintro ⟨hsock, hcut⟩
    exact ⟨hsock, rfl, hcut, hcont hcut⟩

/-- **The second mapping joins what is contiguous.** For every table of pages of one size and every system with
room: whatever fails on the way, nothing but the final addresses of the pages up to the failing one changes, all
pages are mapped if nothing fails, those that are mapped are aligned and lie in the address space, and
`rte_eal_hugepage_init` starts a new segment between two of them exactly where the socket changes or the physical
addresses break. -/
theorem remap_contiguous (hk : k.Honours) (h : HugePages j pages) :
    let r := mapAllHugepages k base ps offset (2 ^ j) pages
    List.Forall₂ (fun p q => p.setVa q.finalVa = q) pages r.pages ∧
      r.pages.drop (r.count + 1) = pages.drop (r.count + 1) ∧
      ((∀ i < pages.length, k.Maps i) → r.count = pages.length) ∧
      (∀ q ∈ r.done, Placed j q) ∧
      r.done.IsChain fun p q =>
        (newMemseg (some p) q = false ↔ q.socketId = p.socketId ∧ q.physaddr = p.physaddr + 2 ^ j) := by
  have hv : AreaOk j ⟨0, 0, offset⟩ pages := .inl rfl
  obtain ⟨hplaced, hchain, -⟩ := remapLoop_spec 0 base ps hk h hv
  refine ⟨remapLoop_frame k base ps (2 ^ j) 0 _ pages, remapLoop_drop k base ps (2 ^ j) 0 _ pages,
    fun hmaps => remapLoop_all k base ps (2 ^ j) 0 _ pages fun n _ hn => hmaps n (by omega), hplaced, ?_⟩
  exact hchain.imp_of_mem_imp fun p q hp hq hcont => newMemseg_of_placed (hplaced p hp) (hplaced q hq) hcont

/-- Two blocks, of two pages and of one. -/
def twoBlocks : List HugepageFile :=
  [⟨0, 2 ^ 30, 2 ^ 21, 0, 0, "a"⟩, ⟨0, 2 ^ 30 + 2 ^ 21, 2 ^ 21, 0, 0, "b"⟩, ⟨0, 2 ^ 31, 2 ^ 21, 0, 0, "c"⟩]

/-- Ranges for the first page are found at `2 ^ 40`, those for later pages at `2 ^ 41`. -/
def roomyKernel : RemapKernel where
  openZero := fun _ => true
  mmapZero := fun i _ _ => some (if i = 0 then 2 ^ 40 else 2 ^ 41)
  openHuge := fun _ => true
  mmapHuge := fun _ hint => some hint
  flock := fun _ => true

theorem roomyKernel_honours : roomyKernel.Honours := by
  refine ⟨fun _ => rfl, fun i hint len hlen => ⟨_, rfl, ?_⟩, ?_⟩
  · split_ifs
    · exact ⟨by decide, by omega⟩
    · exact ⟨by decide, by omega⟩
  · intro i hint va _ hva
    exact (Option.some.inj hva).symm

/-- Both blocks are mapped. -/
theorem remap_contiguous_twoBlocks :
    let r := mapAllHugepages roomyKernel 0 4096 0 (2 ^ 21) twoBlocks
    r.count = 3 ∧ ∀ q ∈ r.done, Placed 21 q := by
  have hpages : HugePages 21 twoBlocks := ⟨by decide, by decide, by decide⟩
  have hmaps : ∀ i < twoBlocks.length, roomyKernel.Maps i := fun _ _ => ⟨rfl, fun _ => rfl, rfl⟩
  obtain ⟨-, -, hall, hplaced, -⟩ := remap_contiguous 0 4096 0 roomyKernel_honours hpages
  exact ⟨hall hmaps, hplaced⟩

end EalMemory
