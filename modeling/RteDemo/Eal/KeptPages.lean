import RteDemo.Eal.Memseg
import RteDemo.Eal.NumPages

/-!
# The hugepages that are kept

`rte_eal_hugepage_init` maps all hugepages there are, counts them (`countPages`), lets
`calc_num_pages_per_socket` choose how many to use, unmaps the others (`unmapUnneededHugepages`) and
publishes those left in the shared table (`copyHugepagesToSharedMem`).

A page belongs to one class: its size and its socket. The loops visit one class after the other, and what
they do to one leaves the others alone (`filter_trim`, `filter_trim_of_ne`), so that exactly the chosen
numbers are published (`hugepages_published`).
-/

namespace EalMemory

open RteDemo

/-! ## The code -/

/-- `num_pages[socket]++`, if the size is that of the page. -/
def HugepageInfo.countPage (hp : HugepageFile) (hpi : HugepageInfo) : HugepageInfo :=
  if hp.size = hpi.hugepageSz then
    { hpi with
      numPages := fun s =>
        if hp.socketId = (s.val : Int) then Word.add 32 (hpi.numPages s) 1 else hpi.numPages s }
  else hpi

/-- The loops of `rte_eal_hugepage_init` that clean out the numbers of pages and count again. -/
def countPages (tmpHp : List HugepageFile) (info : List HugepageInfo) : List HugepageInfo :=
  tmpHp.foldl (fun info hp => info.map (·.countPage hp))
    (info.map fun hpi => { hpi with numPages := fun _ => 0 })

/-- The sizes and sockets, in the order of the loops. -/
def classes (info : List HugepageInfo) : List (HugepageInfo × Socket) :=
  info.flatMap fun hpi => (List.finRange rteMaxNumaNodes).map (hpi, ·)

/-- `nrpages` -/
def nrPages (info : List HugepageInfo) : Nat :=
  ((classes info).map fun e => e.1.numPages e.2).foldl (Word.add 32) 0

/-- Whether the page has the size and is on the socket. -/
def HugepageFile.inClass (sz : Nat) (socket : Socket) (hp : HugepageFile) : Bool :=
  decide (hp.size = sz ∧ hp.socketId = (socket.val : Int))

/-- `hp->final_va = NULL` -/
def HugepageFile.unmap (hp : HugepageFile) : HugepageFile := { hp with finalVa := 0 }

/-- The innermost loop of `unmap_unneeded_hugepages`: the table, and the pages given to `munmap` and
`unlink`; `none` if `unlink` fails. -/
def unmapPages (unlink : String → Bool) (sz num : Nat) (socket : Socket) :
    Nat → List HugepageFile → Option (List HugepageFile × List HugepageFile)
  | _, [] => some ([], [])
  | pagesFound, hp :: tbl =>
    if hp.inClass sz socket then
      if pagesFound = num then
        if unlink hp.filepath then
          (unmapPages unlink sz num socket pagesFound tbl).map fun r => (hp.unmap :: r.1, hp :: r.2)
        else none
      else
        (unmapPages unlink sz num socket (Word.add 32 pagesFound 1) tbl).map fun r => (hp :: r.1, r.2)
    else (unmapPages unlink sz num socket pagesFound tbl).map fun r => (hp :: r.1, r.2)

/-- The loops over the sizes and the sockets. -/
def unmapClasses (unlink : String → Bool) (nrpages : Nat) :
    List (HugepageInfo × Socket) → List HugepageFile → Option (List HugepageFile × List HugepageFile)
  | [], tbl => some (tbl, [])
  | (hpi, socket) :: rest, tbl =>
    (unmapPages unlink hpi.hugepageSz (hpi.numPages socket) socket 0 (tbl.take nrpages)).bind fun r =>
      (unmapClasses unlink nrpages rest (r.1 ++ tbl.drop nrpages)).map fun r' => (r'.1, r.2 ++ r'.2)

/-- `unmap_unneeded_hugepages`; `info` is `internal_config.hugepage_info`, `used` is `hpi`. -/
def unmapUnneededHugepages (unlink : String → Bool) (info used : List HugepageInfo)
    (tbl : List HugepageFile) : Option (List HugepageFile × List HugepageFile) :=
  unmapClasses unlink (nrPages info) (classes used) tbl

/-! ## One class -/

/-- The pages of a class. -/
def pagesOf (tbl : List HugepageFile) (e : HugepageInfo × Socket) : List HugepageFile :=
  tbl.filter (·.inClass e.1.hugepageSz e.2)

/-- The pages that are kept: the first ones. -/
def needed (tbl : List HugepageFile) (e : HugepageInfo × Socket) : List HugepageFile :=
  (pagesOf tbl e).take (e.1.numPages e.2)

def unneeded (tbl : List HugepageFile) (e : HugepageInfo × Socket) : List HugepageFile :=
  (pagesOf tbl e).drop (e.1.numPages e.2)

/-- The table with all pages of a class unmapped but the first `n`. -/
def trim (sz : Nat) (socket : Socket) : Nat → List HugepageFile → List HugepageFile
  | _, [] => []
  | n, hp :: tbl =>
    if hp.inClass sz socket then
      if n = 0 then hp.unmap :: trim sz socket n tbl else hp :: trim sz socket (n - 1) tbl
    else hp :: trim sz socket n tbl

section

variable {sz sz' n : Nat} {socket socket' : Socket} {tbl : List HugepageFile}

@[simp] theorem inClass_unmap (hp : HugepageFile) : hp.unmap.inClass sz socket = hp.inClass sz socket := rfl

theorem length_trim (sz : Nat) (socket : Socket) (n : Nat) (tbl : List HugepageFile) :
    (trim sz socket n tbl).length = tbl.length := by
  induction tbl generalizing n with
  | nil => rfl
  | cons hp tbl ih =>
    rw [trim]
    split_ifs
    · rw [List.length_cons, ih, List.length_cons]
    · rw [List.length_cons, ih, List.length_cons]
    · rw [List.length_cons, ih, List.length_cons]

/-- What trimming does to its class. -/
theorem filter_trim : (trim sz socket n tbl).filter (·.inClass sz socket) =
    (tbl.filter (·.inClass sz socket)).take n ++
      ((tbl.filter (·.inClass sz socket)).drop n).map HugepageFile.unmap := by
  induction tbl generalizing n with
  | nil => simp [trim]
  | cons hp tbl ih =>
    rw [trim]
    by_cases hc : hp.inClass sz socket = true
    · rw [if_pos hc, List.filter_cons_of_pos hc]
      cases n with
      | zero =>
        have ih0 := @ih 0
        rw [List.take_zero, List.drop_zero, List.nil_append] at ih0
        rw [if_pos rfl, List.filter_cons_of_pos (by rwa [inClass_unmap]), ih0]
        rfl
      | succ n =>
        rw [if_neg (Nat.succ_ne_zero n), List.filter_cons_of_pos hc, Nat.add_sub_cancel, ih]
        rfl
    · rw [if_neg hc, List.filter_cons_of_neg hc, List.filter_cons_of_neg hc, ih]

/-- It leaves the other classes alone. -/
theorem filter_trim_of_ne (hne : sz' ≠ sz ∨ socket' ≠ socket) :
    (trim sz socket n tbl).filter (·.inClass sz' socket') = tbl.filter (·.inClass sz' socket') := by
  have hother : ∀ hp : HugepageFile, hp.inClass sz socket = true → ¬hp.inClass sz' socket' = true := by
    intro hp h h'
    simp only [HugepageFile.inClass, decide_eq_true_eq] at h h'
    rcases hne with hne | hne
    · exact hne (h'.1.symm.trans h.1)
    · exact hne (Fin.ext (Int.ofNat.inj (h'.2.symm.trans h.2)))
  induction tbl generalizing n with
  | nil => rfl
  | cons hp tbl ih =>
    rw [trim]
    by_cases hc : hp.inClass sz socket = true
    · rw [if_pos hc, List.filter_cons_of_neg (hother hp hc)]
      split_ifs
      · rw [List.filter_cons_of_neg (hother hp.unmap hc), ih]
      · rw [List.filter_cons_of_neg (hother hp hc), ih]
    · rw [if_neg hc, List.filter_cons, List.filter_cons, ih]

/-- What is still mapped after it was mapped before. -/
theorem active_trim_sublist : ((trim sz socket n tbl).filter (·.active)).Sublist (tbl.filter (·.active)) := by
  induction tbl generalizing n with
  | nil => exact List.Sublist.refl _
  | cons hp tbl ih =>
    have hkeep : ∀ {l : List HugepageFile}, l.Sublist (tbl.filter (·.active)) →
        (if hp.active = true then hp :: l else l).Sublist ((hp :: tbl).filter (·.active)) := by
      intro l hl
      rw [List.filter_cons]
      split
      · exact hl.cons_cons hp
      · exact hl
    rw [trim]
    split_ifs
    · have hgone : ¬hp.unmap.active = true := Bool.false_ne_true
      rw [List.filter_cons_of_neg hgone]
      exact ih.trans ((List.sublist_cons_self hp tbl).filter _)
    · rw [List.filter_cons]
      exact hkeep ih
    · rw [List.filter_cons]
      exact hkeep ih

/-- **The innermost loop.** -/
theorem unmapPages_eq {unlink : String → Bool} {num pagesFound : Nat} (hle : pagesFound ≤ num)
    (hlt : pagesFound + tbl.length < 2 ^ 32) :
    unmapPages unlink sz num socket pagesFound tbl =
      if ((tbl.filter (·.inClass sz socket)).drop (num - pagesFound)).all (unlink ·.filepath) then
        some (trim sz socket (num - pagesFound) tbl,
          (tbl.filter (·.inClass sz socket)).drop (num - pagesFound))
      else none := by
  induction tbl generalizing pagesFound with
  | nil => simp [unmapPages, trim]
  | cons hp tbl ih =>
    rw [List.length_cons] at hlt
    rw [unmapPages, trim]
    by_cases hc : hp.inClass sz socket = true
    · rw [if_pos hc, if_pos hc, List.filter_cons_of_pos hc]
      by_cases hfull : pagesFound = num
      · subst hfull
        rw [if_pos rfl, Nat.sub_self]
        have ih := @ih pagesFound (Nat.le_refl _) (by omega)
        rw [Nat.sub_self] at ih
        simp only [List.drop_zero] at ih ⊢
        rw [List.all_cons, ih]
        by_cases hu : unlink hp.filepath = true
        · rw [if_pos hu, hu, Bool.true_and]
          split
          · rfl
          · rfl
        · rw [if_neg hu, eq_false_of_ne_true hu, Bool.false_and, if_neg Bool.false_ne_true]
      · obtain ⟨k, hk⟩ : ∃ k, num - pagesFound = k + 1 := ⟨num - pagesFound - 1, by omega⟩
        have hadd : Word.add 32 pagesFound 1 = pagesFound + 1 := Word.add_eq (by omega)
        have hrest : num - (pagesFound + 1) = k := by omega
        rw [if_neg hfull, hadd, ih (by omega) (by omega), hk, hrest, List.drop_succ_cons]
        split
        · rfl
        · rfl
    · rw [if_neg hc, if_neg hc, List.filter_cons_of_neg hc, ih hle (by omega)]
      split
      · rfl
      · rfl

end

/-! ## All classes -/

/-- The table after all classes were trimmed. -/
def trimAll (l : List (HugepageInfo × Socket)) (tbl : List HugepageFile) : List HugepageFile :=
  l.foldl (fun tbl e => trim e.1.hugepageSz e.2 (e.1.numPages e.2) tbl) tbl

/-- The classes of the list are different ones. -/
def Distinct (l : List (HugepageInfo × Socket)) : Prop :=
  l.Pairwise fun e e' => e'.1.hugepageSz ≠ e.1.hugepageSz ∨ e'.2 ≠ e.2

section

variable {l : List (HugepageInfo × Socket)} {e : HugepageInfo × Socket} {tbl : List HugepageFile}

theorem length_trimAll : ∀ (l : List (HugepageInfo × Socket)) (tbl : List HugepageFile),
    (trimAll l tbl).length = tbl.length
  | [], _ => rfl
  | e :: l, tbl => (length_trimAll l _).trans (length_trim e.1.hugepageSz e.2 (e.1.numPages e.2) tbl)

theorem active_trimAll_sublist : ((trimAll l tbl).filter (·.active)).Sublist (tbl.filter (·.active)) := by
  induction l generalizing tbl with
  | nil => exact List.Sublist.refl _
  | cons e l ih => exact ih.trans active_trim_sublist

/-- A class that is not in the list is left alone. -/
theorem pagesOf_trimAll_of_ne (h : ∀ e' ∈ l, e.1.hugepageSz ≠ e'.1.hugepageSz ∨ e.2 ≠ e'.2) :
    pagesOf (trimAll l tbl) e = pagesOf tbl e := by
  induction l generalizing tbl with
  | nil => rfl
  | cons e' l ih =>
    have hrest := @ih (trim e'.1.hugepageSz e'.2 (e'.1.numPages e'.2) tbl)
      fun e'' he'' => h e'' (List.mem_cons_of_mem _ he'')
    exact hrest.trans (filter_trim_of_ne (h e' List.mem_cons_self))

/-- A class of the list keeps its first pages, whatever the order of the classes. -/
theorem pagesOf_trimAll (hd : Distinct l) (he : e ∈ l) :
    pagesOf (trimAll l tbl) e = needed tbl e ++ (unneeded tbl e).map HugepageFile.unmap := by
  induction l generalizing tbl with
  | nil => exact absurd he List.not_mem_nil
  | cons e' l ih =>
    obtain ⟨hhead, hd'⟩ := List.pairwise_cons.mp hd
    rcases List.mem_cons.mp he with rfl | he
    · have hlater : pagesOf (trimAll l (trim e.1.hugepageSz e.2 (e.1.numPages e.2) tbl)) e = _ :=
        pagesOf_trimAll_of_ne fun e'' he'' => (hhead e'' he'').imp Ne.symm Ne.symm
      exact hlater.trans filter_trim
    · have hsame : pagesOf (trim e'.1.hugepageSz e'.2 (e'.1.numPages e'.2) tbl) e = pagesOf tbl e :=
        filter_trim_of_ne (hhead e he)
      have hlater := @ih (trim e'.1.hugepageSz e'.2 (e'.1.numPages e'.2) tbl) hd' he
      rw [needed, unneeded, hsame] at hlater
      exact hlater

/-- **`unmap_unneeded_hugepages`**: every page that is not needed is unmapped and unlinked once, in order. -/
theorem unmapClasses_eq {unlink : String → Bool} {nrpages : Nat} (hd : Distinct l)
    (hnr : tbl.length ≤ nrpages) (hlt : tbl.length < 2 ^ 32) :
    unmapClasses unlink nrpages l tbl =
      if (l.flatMap (unneeded tbl)).all (unlink ·.filepath) then
        some (trimAll l tbl, l.flatMap (unneeded tbl))
      else none := by
  induction l generalizing tbl with
  | nil => rfl
  | cons e l ih =>
    obtain ⟨hhead, hd'⟩ := List.pairwise_cons.mp hd
    obtain ⟨hpi, socket⟩ := e
    have hlen := length_trim hpi.hugepageSz socket (hpi.numPages socket) tbl
    have hrest : l.flatMap (unneeded (trim hpi.hugepageSz socket (hpi.numPages socket) tbl)) =
        l.flatMap (unneeded tbl) := by
      refine List.flatMap_congr fun e' he' => ?_
      have hsame : pagesOf (trim hpi.hugepageSz socket (hpi.numPages socket) tbl) e' = pagesOf tbl e' :=
        filter_trim_of_ne (hhead e' he')
      rw [unneeded, unneeded, hsame]
    have hpages := @unmapPages_eq hpi.hugepageSz socket tbl unlink (hpi.numPages socket) 0 (Nat.zero_le _)
      (by omega)
    rw [Nat.sub_zero] at hpages
    rw [unmapClasses, List.take_of_length_le hnr, List.drop_of_length_le hnr, hpages, List.flatMap_cons,
      List.all_append]
    have hown : (tbl.filter (·.inClass hpi.hugepageSz socket)).drop (hpi.numPages socket) =
      unneeded tbl (hpi, socket) := rfl
    rw [hown]
    by_cases hu : (unneeded tbl (hpi, socket)).all (unlink ·.filepath) = true
    · rw [if_pos hu, hu, Bool.true_and, Option.bind_some, List.append_nil,
        ih hd' (hlen.le.trans hnr) (by omega), hrest]
      split
      · rfl
      · rfl
    · rw [if_neg hu, eq_false_of_ne_true hu, Bool.false_and, if_neg Bool.false_ne_true, Option.bind_none]

end

/-! ## Counting -/

/-- The table that mapping made: every page is mapped, with a size that is known and on a socket there is. -/
structure PagesMapped (tbl : List HugepageFile) (info : List HugepageInfo) : Prop where
  few : tbl.length < 2 ^ 31
  active : ∀ hp ∈ tbl, hp.active = true
  size : ∀ hp ∈ tbl, ∃ hpi ∈ info, hp.size = hpi.hugepageSz
  socket : ∀ hp ∈ tbl, ∃ s : Socket, hp.socketId = (s.val : Int)
  sizes : (info.map HugepageInfo.hugepageSz).Nodup

/-- `info` with the number of pages of `tbl` added to each class. -/
def addCounts (tbl : List HugepageFile) (hpi : HugepageInfo) : HugepageInfo :=
  { hpi with numPages := fun s => hpi.numPages s + (pagesOf tbl (hpi, s)).length }

theorem foldl_countPage {tbl : List HugepageFile} {info : List HugepageInfo}
    (hlt : ∀ hpi ∈ info, ∀ s, hpi.numPages s + tbl.length < 2 ^ 32) :
    tbl.foldl (fun info hp => info.map (·.countPage hp)) info = info.map (addCounts tbl) := by
  induction tbl generalizing info with
  | nil => exact (List.map_id _).symm
  | cons hp tbl ih =>
    simp only [List.length_cons] at hlt
    have hone : ∀ hpi ∈ info, ∀ s, (hpi.countPage hp).numPages s =
        hpi.numPages s + if hp.inClass hpi.hugepageSz s = true then 1 else 0 := by
      intro hpi hm s
      have hlt := hlt hpi hm s
      rw [HugepageInfo.countPage, HugepageFile.inClass]
      by_cases hsz : hp.size = hpi.hugepageSz
      · rw [if_pos hsz]
        by_cases hs : hp.socketId = (s.val : Int)
        · simp only [hsz, hs, and_self, decide_true, if_true]
          exact Word.add_eq (by omega)
        · simp [hsz, hs]
      · rw [if_neg hsz]
        simp [hsz]
    rw [List.foldl_cons, ih ?_, List.map_map]
    · refine List.map_congr_left fun hpi hm => ?_
      have hsz : (hpi.countPage hp).hugepageSz = hpi.hugepageSz := by
        rw [HugepageInfo.countPage]
        split
        · rfl
        · rfl
      have hdir : (hpi.countPage hp).hugedir = hpi.hugedir := by
        rw [HugepageInfo.countPage]
        split
        · rfl
        · rfl
      simp only [Function.comp, addCounts, HugepageInfo.mk.injEq]
      refine ⟨hsz, hdir, funext fun s => ?_⟩
      simp only [pagesOf, hsz, hone hpi hm s, List.filter_cons]
      split
      · simp only [List.length_cons]
        omega
      · rfl
    · intro hpi' hm' s
      obtain ⟨hpi, hm, rfl⟩ := List.mem_map.mp hm'
      have hlt := hlt hpi hm s
      rw [hone hpi hm s]
      split
      · omega
      · omega

theorem foldl_add {l : List Nat} {n : Nat} (h : n + l.sum < 2 ^ 32) : l.foldl (Word.add 32) n = n + l.sum := by
  induction l generalizing n with
  | nil => rfl
  | cons a l ih =>
    rw [List.sum_cons] at h ⊢
    have hadd : Word.add 32 n a = n + a := Word.add_eq (by omega)
    rw [List.foldl_cons, hadd, ih (by omega)]
    omega

section

variable {tbl : List HugepageFile} {info : List HugepageInfo}

/-- Every class counts its pages. -/
theorem countPages_eq (hlt : tbl.length < 2 ^ 32) : countPages tbl info =
    info.map fun hpi => { hpi with numPages := fun s => (pagesOf tbl (hpi, s)).length } := by
  rw [countPages, foldl_countPage ?_, List.map_map]
  · refine List.map_congr_left fun hpi _ => ?_
    simp only [Function.comp, addCounts, Nat.zero_add]
    rfl
  · intro hpi' hm s
    obtain ⟨hpi, -, rfl⟩ := List.mem_map.mp hm
    simp only
    omega

theorem sum_classes (f : HugepageInfo × Socket → Nat) (info : List HugepageInfo) :
    ((classes info).map f).sum = (info.map fun hpi => ∑ s, f (hpi, s)).sum := by
  induction info with
  | nil => rfl
  | cons hpi info ih =>
    rw [classes, List.flatMap_cons, List.map_append, List.sum_append, List.map_map, List.map_cons, List.sum_cons,
      Fin.sum_univ_def, ← ih]
    rfl

theorem sum_ite_count (k : Nat) (info : List HugepageInfo) :
    (info.map fun hpi => if k = hpi.hugepageSz then 1 else 0).sum = (info.map HugepageInfo.hugepageSz).count k := by
  induction info with
  | nil => rfl
  | cons hpi info ih =>
    rw [List.map_cons, List.sum_cons, ih, List.map_cons, List.count_cons, Nat.add_comm]
    simp only [beq_iff_eq, eq_comm (a := k)]

/-- Every page is in one class. -/
theorem sum_pagesOf (hsz : ∀ hp ∈ tbl, ∃ hpi ∈ info, hp.size = hpi.hugepageSz)
    (hs : ∀ hp ∈ tbl, ∃ s : Socket, hp.socketId = (s.val : Int)) (hnd : (info.map HugepageInfo.hugepageSz).Nodup) :
    (info.map fun hpi => ∑ s, (pagesOf tbl (hpi, s)).length).sum = tbl.length := by
  induction tbl with
  | nil => simp [pagesOf]
  | cons hp tbl ih =>
    obtain ⟨hpi₀, hmem, hsize⟩ := hsz hp List.mem_cons_self
    obtain ⟨s₀, hs₀⟩ := hs hp List.mem_cons_self
    have hone : ∀ hpi : HugepageInfo, ∑ s, (pagesOf (hp :: tbl) (hpi, s)).length =
        (if hp.size = hpi.hugepageSz then 1 else 0) + ∑ s, (pagesOf tbl (hpi, s)).length := by
      intro hpi
      have hlen : ∀ s, (pagesOf (hp :: tbl) (hpi, s)).length =
          (if s₀ = s then (if hp.size = hpi.hugepageSz then 1 else 0) else 0) +
            (pagesOf tbl (hpi, s)).length := by
        intro s
        have hval : (s₀.val : Int) = s.val ↔ s₀ = s := by rw [Int.ofNat_inj, Fin.val_inj]
        rw [pagesOf, List.filter_cons, HugepageFile.inClass, hs₀]
        simp only [decide_eq_true_eq, hval]
        by_cases hsame : s₀ = s
        · by_cases hk : hp.size = hpi.hugepageSz
          · rw [if_pos ⟨hk, hsame⟩, if_pos hsame, if_pos hk, List.length_cons, Nat.add_comm]
            rfl
          · rw [if_neg (fun h => hk h.1), if_pos hsame, if_neg hk, Nat.zero_add]
            rfl
        · rw [if_neg (fun h => hsame h.2), if_neg hsame, Nat.zero_add]
          rfl
      simp only [hlen, Finset.sum_add_distrib, Finset.sum_ite_eq, Finset.mem_univ, if_true]
    have hcount : (info.map HugepageInfo.hugepageSz).count hp.size = 1 :=
      List.count_eq_one_of_mem hnd (hsize ▸ List.mem_map_of_mem hmem)
    simp only [hone, List.sum_map_add, sum_ite_count, hcount]
    rw [ih (fun q hq => hsz q (List.mem_cons_of_mem _ hq)) (fun q hq => hs q (List.mem_cons_of_mem _ hq)),
      List.length_cons, Nat.add_comm]

/-- `nrpages` is the length of the table. -/
theorem nrPages_countPages (h : PagesMapped tbl info) : nrPages (countPages tbl info) = tbl.length := by
  have hfew := h.few
  have hsum : ((classes (countPages tbl info)).map fun e => e.1.numPages e.2).sum = tbl.length := by
    rw [sum_classes (fun e => e.1.numPages e.2), countPages_eq (by omega), List.map_map]
    exact sum_pagesOf h.size h.socket h.sizes
  rw [nrPages, foldl_add (by omega), hsum, Nat.zero_add]

/-- The loops visit different classes. -/
theorem distinct_classes (hnd : (info.map HugepageInfo.hugepageSz).Nodup) : Distinct (classes info) := by
  rw [Distinct, classes, List.pairwise_flatMap]
  refine ⟨fun hpi _ => ?_, ?_⟩
  · rw [List.pairwise_map]
    exact (List.nodup_finRange _).imp fun hne => .inr (Ne.symm hne)
  · rw [List.Nodup, List.pairwise_map] at hnd
    refine hnd.imp fun hne e he e' he' => .inl ?_
    obtain ⟨s, -, rfl⟩ := List.mem_map.mp he
    obtain ⟨s', -, rfl⟩ := List.mem_map.mp he'
    exact Ne.symm hne

theorem mem_classes {hpi : HugepageInfo} {s : Socket} : (hpi, s) ∈ classes info ↔ hpi ∈ info := by
  rw [classes, List.mem_flatMap]
  constructor
  · rintro ⟨hpi', hm, he⟩
    obtain ⟨s', -, he⟩ := List.mem_map.mp he
    exact (Prod.mk.inj he).1 ▸ hm
  · exact fun hm => ⟨hpi, hm, List.mem_map_of_mem (List.mem_finRange s)⟩

/-! ## Choosing keeps the sizes -/

theorem sizeLoop_sizes (socket : Socket) : ∀ (hp : List Entry) (st : PageState),
    (sizeLoop socket hp st).1.map (·.2.hugepageSz) = hp.map (·.2.hugepageSz)
  | [], _ => rfl
  | (info, used) :: rest, st => by
    rw [sizeLoop]
    split
    · rfl
    · dsimp only
      split
      · rfl
      · split
        · rfl
        · rw [List.map_cons, sizeLoop_sizes socket rest]
          rfl

theorem socketLoop_sizes : ∀ (sockets : List Socket) (st : NumPages),
    (socketLoop sockets st).1.hp.map (·.2.hugepageSz) = st.hp.map (·.2.hugepageSz)
  | [], _ => rfl
  | socket :: rest, st => by
    rw [socketLoop]
    split
    · rfl
    · dsimp only
      split
      · exact sizeLoop_sizes socket _ _
      · exact (socketLoop_sizes rest _).trans (sizeLoop_sizes socket _ _)

theorem calcNumPages_sizes (cfg : InternalConfig) (lc : LcoreConfig) (memory : Socket → Nat) (hp : List Entry) :
    (calcNumPagesPerSocket cfg lc memory hp).2.hp.map (·.2.hugepageSz) = hp.map (·.2.hugepageSz) := by
  have hloop := socketLoop_sizes (List.finRange _)
    ⟨(shares cfg lc memory).memory, cfg.memory, 0, (shares cfg lc memory).borrowed, hp⟩
  rw [calcNumPagesPerSocket]
  split
  · rfl
  · dsimp only
    split
    · exact hloop
    · split
      · exact hloop
      · exact hloop

/-! ## The published pages -/

/-- What is mapped of a class after its other pages were unmapped. -/
theorem active_needed {e : HugepageInfo × Socket} (hact : ∀ hp ∈ tbl, hp.active = true) :
    (needed tbl e ++ (unneeded tbl e).map HugepageFile.unmap).filter (·.active) = needed tbl e := by
  have hkept : (needed tbl e).filter (·.active) = needed tbl e :=
    List.filter_eq_self.mpr fun hp hm => hact hp (List.mem_of_mem_filter (List.mem_of_mem_take hm))
  have hgone : ((unneeded tbl e).map HugepageFile.unmap).filter (·.active) = [] := by
    rw [List.filter_eq_nil_iff]
    intro hp hm
    obtain ⟨hp', -, rfl⟩ := List.mem_map.mp hm
    exact Bool.false_ne_true
  rw [List.filter_append, hkept, hgone, List.append_nil]

theorem sum_usedPages (hp : List Entry) : ∑ s, usedPages hp s = (hp.map fun e => ∑ s, e.2.numPages s).sum := by
  induction hp with
  | nil => simp [usedPages]
  | cons e hp ih =>
    rw [List.map_cons, List.sum_cons, ← ih, ← Finset.sum_add_distrib]
    rfl

/-- What is published of a class. -/
theorem pagesOf_active_trimAll {l : List (HugepageInfo × Socket)} {e : HugepageInfo × Socket} (hd : Distinct l)
    (he : e ∈ l) (hact : ∀ hp ∈ tbl, hp.active = true) :
    pagesOf ((trimAll l tbl).filter (·.active)) e = needed tbl e := by
  rw [← active_needed hact, ← pagesOf_trimAll hd he, pagesOf, pagesOf, List.filter_filter, List.filter_filter]
  exact List.filter_congr fun hp _ => Bool.and_comm _ _

/-- The two sides of an entry have the same size, as at the start. -/
theorem used_size {cfg : InternalConfig} {hp : List Entry} (hinfos : hp.map Prod.fst = cfg.hugepageInfo)
    (hsizes : hp.map (·.2.hugepageSz) = (initEntries cfg).map (·.2.hugepageSz)) :
    ∀ e ∈ hp, e.2.hugepageSz = e.1.hugepageSz := by
  have hboth : hp.map (fun e => e.2.hugepageSz) = hp.map fun e => e.1.hugepageSz := by
    rw [hsizes, initEntries, ← hinfos, List.map_map, List.map_map]
    rfl
  exact List.map_inj_left.mp hboth

theorem usedPages_toInt {st : NumPages} (hpages : st.totalNumPages = BitVec.ofNat 32 (∑ s, usedPages st.hp s))
    (hlt : ∑ s, usedPages st.hp s < 2 ^ 31) : st.totalNumPages.toInt = ∑ s, usedPages st.hp s := by
  have hnat : (BitVec.ofNat 32 (∑ s, usedPages st.hp s)).toNat = ∑ s, usedPages st.hp s := by
    rw [BitVec.toNat_ofNat, Nat.mod_eq_of_lt (by omega)]
  rw [hpages, BitVec.toInt_eq_toNat_of_lt (by omega), hnat]

/-- **The pages that `calc_num_pages_per_socket` chose are published.** For every table of mapped pages and
every request without sizes for single sockets: unmapping fails only if `unlink` does, each page that was not
chosen is unmapped and unlinked once, and the shared table holds exactly the chosen numbers of pages of each
size and socket, the first ones in the order of the table, with zero entries behind them. -/
theorem hugepages_published {cfg : InternalConfig} {lc : LcoreConfig} (unlink : String → Bool)
    (hm : PagesMapped tbl info) (hcount : cfg.hugepageInfo = countPages tbl info) (h : Request cfg lc) :
    let r := calcNumPagesPerSocket cfg lc (fun _ => 0) (initEntries cfg)
    let used := r.2.hp.map Prod.snd
    let rest := (classes used).flatMap (unneeded tbl)
    ∃ tbl' pages k,
      unmapUnneededHugepages unlink cfg.hugepageInfo used tbl =
        (if rest.all (unlink ·.filepath) then some (tbl', rest) else none) ∧
      copyHugepagesToSharedMem (List.replicate tbl.length .zero) tbl' =
        some (pages ++ List.replicate k .zero) ∧
      pages.Sublist tbl ∧ (0 ≤ r.1 → r.1 = pages.length) ∧
      ∀ hpi ∈ used, ∀ s, pagesOf pages (hpi, s) = needed tbl (hpi, s) ∧
        (pagesOf pages (hpi, s)).length = hpi.numPages s := by
  obtain ⟨st, hcode, hpicked⟩ := calcNumPages_eq h
  have hsizes := calcNumPages_sizes cfg lc (fun _ => 0) (initEntries cfg)
  rw [hcode] at hsizes ⊢
  dsimp only at hsizes ⊢
  have hfew := hm.few
  have hinfos : st.hp.map Prod.fst = cfg.hugepageInfo := hpicked.infos.trans (initEntries_fst cfg)
  have hpair := used_size hinfos hsizes
  have hused : (st.hp.map Prod.snd).map HugepageInfo.hugepageSz = info.map HugepageInfo.hugepageSz := by
    rw [List.map_map]
    refine hsizes.trans ?_
    rw [initEntries, hcount, countPages_eq (by omega), List.map_map, List.map_map]
    rfl
  have hnd : ((st.hp.map Prod.snd).map HugepageInfo.hugepageSz).Nodup := hused ▸ hm.sizes
  have hd := distinct_classes hnd
  have hnr : tbl.length ≤ nrPages cfg.hugepageInfo := by rw [hcount, nrPages_countPages hm]
  have hclass : ∀ hpi ∈ st.hp.map Prod.snd, ∀ s,
      pagesOf ((trimAll (classes (st.hp.map Prod.snd)) tbl).filter (·.active)) (hpi, s) =
        needed tbl (hpi, s) := fun hpi hmem s => pagesOf_active_trimAll hd (mem_classes.mpr hmem) hm.active
  -- no more pages of a class were chosen than it has
  have hnum : ∀ hpi ∈ st.hp.map Prod.snd, ∀ s, (needed tbl (hpi, s)).length = hpi.numPages s := by
    intro hpi hmem s
    obtain ⟨e, he, rfl⟩ := List.mem_map.mp hmem
    have hle := (hpicked.served s (List.mem_finRange s)).le e he
    have hin : e.1 ∈ countPages tbl info := hcount ▸ hinfos ▸ List.mem_map_of_mem he
    rw [countPages_eq (by omega)] at hin
    obtain ⟨hpi, -, hcounted⟩ := List.mem_map.mp hin
    have havail : (pagesOf tbl (e.2, s)).length = e.1.numPages s := by
      rw [pagesOf, hpair e he, ← hcounted]
      rfl
    rw [needed, List.length_take, havail]
    exact Nat.min_eq_left hle
  have hsub : ((trimAll (classes (st.hp.map Prod.snd)) tbl).filter (·.active)).Sublist tbl := by
    have hkept := @active_trimAll_sublist (classes (st.hp.map Prod.snd)) tbl
    rwa [List.filter_eq_self.mpr hm.active] at hkept
  have hlen : ((trimAll (classes (st.hp.map Prod.snd)) tbl).filter (·.active)).length =
      ∑ s, usedPages st.hp s := by
    rw [← sum_pagesOf (fun hp hmem => ?_) (fun hp hmem => hm.socket hp (hsub.subset hmem)) hnd,
      sum_usedPages, List.map_map]
    · refine congrArg List.sum (List.map_congr_left fun e he => ?_)
      have hmem : e.2 ∈ st.hp.map Prod.snd := List.mem_map_of_mem he
      exact Finset.sum_congr rfl fun s _ => by rw [hclass e.2 hmem s, hnum e.2 hmem s]
    · obtain ⟨hpi, hmem', hsz⟩ := hm.size hp (hsub.subset hmem)
      have hin : hp.size ∈ (st.hp.map Prod.snd).map HugepageInfo.hugepageSz :=
        hused ▸ hsz ▸ List.mem_map_of_mem hmem'
      obtain ⟨hpi', hmem'', hsz'⟩ := List.mem_map.mp hin
      exact ⟨hpi', hmem'', hsz'.symm⟩
  refine ⟨_, _, _, unmapClasses_eq hd hnr (by omega), copyHugepages_eq _ (length_trimAll _ tbl).le, hsub, ?_,
    fun hpi hmem s => ⟨hclass hpi hmem s, by rw [hclass hpi hmem s, hnum hpi hmem s]⟩⟩
  have hpages : st.totalNumPages = BitVec.ofNat 32 (∑ s, usedPages st.hp s) := by
    rw [hpicked.pages, Fin.sum_univ_def]
    exact BitVec.zero_add _
  have hle := hsub.length_le
  have hint := usedPages_toInt hpages (by omega)
  rw [hlen]
  split_ifs
  · exact fun _ => hint
  · exact fun hneg => absurd hneg (by decide)

end

/-- Two pages on the first socket, of the only size. -/
def twoPages : List HugepageFile :=
  [⟨2 ^ 30, 2 ^ 31, 2 ^ 21, 0, 0, "/mnt/huge/rtemap_0"⟩,
    ⟨2 ^ 30 + 2 ^ 21, 2 ^ 31 + 2 ^ 21, 2 ^ 21, 0, 0, "/mnt/huge/rtemap_1"⟩]

/-- One page is asked for. -/
def onePage : InternalConfig where
  memory := 2 ^ 21
  forceSockets := 0
  hugepageInfo := countPages twoPages [⟨2 ^ 21, some "/mnt/huge", fun _ => 0⟩]

/-- One page is published. -/
theorem hugepages_published_twoPages : ∃ pages : List HugepageFile, pages.Sublist twoPages ∧ pages.length = 1 := by
  have hmapped : PagesMapped twoPages [⟨2 ^ 21, some "/mnt/huge", fun _ => 0⟩] :=
    ⟨by decide, by decide, by decide, by decide, by decide⟩
  have hreq : Request onePage oneLcore :=
    ⟨rfl, by decide, by decide, by decide, by decide, by decide, by decide, by decide, by decide⟩
  obtain ⟨-, pages, -, -, -, hsub, hret, -⟩ := hugepages_published (fun _ => true) hmapped rfl hreq
  have hone : (calcNumPagesPerSocket onePage oneLcore (fun _ => 0) (initEntries onePage)).1 = 1 := by decide
  rw [hone] at hret
  exact ⟨pages, hsub, Int.ofNat.inj (hret (by decide)).symm⟩

end EalMemory
