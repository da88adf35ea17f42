import RteDemo.Eal.HugepageSort
import RteDemo.Eal.Strsplit

/-!
# The locks on the hugepage directories

`eal_hugepage_info_init` opens and locks the mount point of every page size that has one, and records
the descriptor in the slot of that size. `eal_hugedirs_unlock` goes over all slots and skips those with a
negative descriptor. No slot starts with one: the configuration is static, and a slot that was not used
holds descriptor `0`. So all `MAX_HUGEPAGE_SIZES` slots are unlocked and closed, and these are the
descriptors that were opened exactly when every slot was used (`hugedirs_unlock_iff`).

The directory entries, the mount table and the kernel are inputs; the mount point of a size is read out
of the mount table as the source does it.
-/

namespace EalMemory

open RteDemo EalTailqs EalString

/-! ## Reading sizes and mount points -/

/-- `isspace` -/
def isspace (c : UInt8) : Bool := c == 32 || (9 ≤ c && c ≤ 13)

/-- The value of a digit, in any base. -/
def digitValue (c : UInt8) : Nat :=
  if 48 ≤ c ∧ c ≤ 57 then c.toNat - 48
  else if 97 ≤ c ∧ c ≤ 122 then c.toNat - 87
  else if 65 ≤ c ∧ c ≤ 90 then c.toNat - 55
  else 36

/-- The digits of a number, and what follows them. -/
def takeDigits (base : Nat) : Nat → List UInt8 → Nat × List UInt8
  | acc, [] => (acc, [])
  | acc, c :: cs =>
    if digitValue c < base then takeDigits base (acc * base + digitValue c) cs else (acc, c :: cs)

/-- `strtoull` in base 0, of a string without leading blanks and minus: `none` sets `errno`. -/
def strtoull (str : List UInt8) : Option Nat × List UInt8 :=
  let digits := if str.head? = some 43 then str.tail else str
  let (base, digits) :=
    match digits with
    | 48 :: x :: c :: rest =>
      if (x = 120 ∨ x = 88) ∧ digitValue c < 16 then (16, c :: rest) else (8, 48 :: x :: c :: rest)
    | 48 :: rest => (8, 48 :: rest)
    | rest => (10, rest)
  match digits with
  | [] => (some 0, str)
  | c :: rest =>
    if digitValue c < base then
      let (n, rest) := takeDigits base 0 (c :: rest)
      (if n < 2 ^ 64 then some n else none, rest)
    else (some 0, str)

/-- The number of times that the `switch` of `rte_str_to_size` multiplies. -/
def unitSteps : List UInt8 → Nat
  | c :: _ =>
    if c = 71 ∨ c = 103 then 3 else if c = 77 ∨ c = 109 then 2 else if c = 75 ∨ c = 107 then 1 else 0
  | [] => 0

/-- `rte_str_to_size` -/
def rteStrToSize (str : List UInt8) : Nat :=
  let str := str.dropWhile isspace
  if str.head? = some 45 then 0
  else
    match strtoull str with
    | (none, _) => 0
    | (some size, endptr) =>
      -- one blank is allowed
      let endptr := if endptr.head? = some 32 then endptr.tail else endptr
      (fun size => Word.mul 64 size 1024)^[unitSteps endptr] size

/-- `"hugetlbfs"` -/
def hugetlbfsStr : List UInt8 := [104, 117, 103, 101, 116, 108, 98, 102, 115]

/-- `"pagesize="` -/
def pagesizeOpt : List UInt8 := [112, 97, 103, 101, 115, 105, 122, 101, 61]

/-- `strstr` -/
def strstr (str pat : List UInt8) : Option (List UInt8) := str.tails.find? pat.isPrefixOf

/-- The mount table as `fgets` reads it, `internal_config.hugepage_dir`, and what
`get_default_hp_size` returns. -/
structure Mounts where
  lines : List (List UInt8)
  hugepageDir : Option (List UInt8)
  defaultSize : Nat

/-- `get_hugepage_dir`, on the lines from here on. -/
def getHugepageDir (m : Mounts) (hugepageSz : Nat) : List (List UInt8) → Option (List UInt8)
  | [] => none
  | buf :: rest =>
    match rteStrsplit (some (buf ++ [0])) 8192 true 4 32 with
    | none => none
    | some r =>
      if r.tokens.length ≠ 4 then none
      else
        let mountpt := cstr r.string (r.tokens.getD 1 0)
        let fstype := cstr r.string (r.tokens.getD 2 0)
        let options := cstr r.string (r.tokens.getD 3 0)
        if m.hugepageDir.isSome ∧ m.hugepageDir ≠ some mountpt then getHugepageDir m hugepageSz rest
        else if strncmpEqual fstype hugetlbfsStr hugetlbfsStr.length = true then
          let pagesz :=
            match strstr options pagesizeOpt with
            | none => m.defaultSize
            | some pageszStr => rteStrToSize (pageszStr.drop pagesizeOpt.length)
          if pagesz = hugepageSz then some mountpt else getHugepageDir m hugepageSz rest
        else getHugepageDir m hugepageSz rest

/-- The bytes of a name -/
def toBytes (text : String) : List UInt8 := text.toList.map fun c => UInt8.ofNat c.toNat

/-- The name of some bytes -/
def ofBytes (bytes : List UInt8) : String := String.ofList (bytes.map fun c => Char.ofNat c.toNat)

/-- A system with this mount table. -/
def mountSys (m : Mounts) (flock clearHugedir : String → Bool) (getNumHugepages : String → Nat) :
    HugepageSys where
  strToSize text := rteStrToSize (toBytes text)
  getHugepageDir hugepageSz := (getHugepageDir m hugepageSz m.lines).map ofBytes
  flock := flock
  clearHugedir := clearHugedir
  getNumHugepages := getNumHugepages

/-! ## Locking -/

/-- A slot of `internal_config.hugepage_info`. -/
structure HugepageSlot where
  info : HugepageInfo
  lockDescriptor : Int

/-- What `eal_hugepage_info_init` changes: the slots, `num_sizes`, and the descriptors that it opened. -/
structure LockState where
  slots : List HugepageSlot
  numSizes : Nat
  opened : List Int

/-- A slot of the static configuration -/
def zeroSlot : HugepageSlot := ⟨⟨0, none, fun _ => 0⟩, 0⟩

/-- The static configuration -/
def startLocks : LockState := ⟨List.replicate maxHugepageSizes zeroSlot, 0, []⟩

/-- A directory entry is that of a page size. -/
def isSizeEntry (dName : String) : Bool := "hugepages-".isPrefixOf dName

/-- `&dirent->d_name[dirent_start_len]` -/
def sizeText (dName : String) : String := (dName.drop "hugepages-".length).toString

section

variable (sys : HugepageSys) (openDir : List Int → String → Int)

/-- The loop of `eal_hugepage_info_init`, with the locks; `none` if it breaks. `open` may depend on what is
open, and `flock` fails on what is not a descriptor. -/
def lockHugepageDirs (st : LockState) : List String → Option LockState
  | [] => some st
  | dName :: rest =>
    if isSizeEntry dName = false then lockHugepageDirs st rest
    else if maxHugepageSizes ≤ st.numSizes then none
    else
      let slot := st.slots.getD st.numSizes zeroSlot
      let hugepageSz := sys.strToSize (sizeText dName)
      let info := { slot.info with hugepageSz := hugepageSz, hugedir := sys.getHugepageDir hugepageSz }
      match sys.getHugepageDir hugepageSz with
      | none => lockHugepageDirs { st with slots := st.slots.set st.numSizes ⟨info, slot.lockDescriptor⟩ } rest
      | some hugedir =>
        let lock := openDir st.opened hugedir
        if lock < 0 ∨ sys.flock hugedir = false then none
        else if sys.clearHugedir hugedir = false then none
        else
          -- all pages go to socket 0 for now
          let info := { info with
            numPages := Function.update info.numPages socketZero (sys.getNumHugepages dName) }
          lockHugepageDirs ⟨st.slots.set st.numSizes ⟨info, lock⟩, st.numSizes + 1, lock :: st.opened⟩ rest

/-- A `qsort` of the slots. -/
abbrev SlotSort := (HugepageSlot → HugepageSlot → Int) → List HugepageSlot → List HugepageSlot

/-- `eal_hugepage_info_init`; `none` is the result `-1`. -/
def ealHugepageInfoInitLocks (qsort : SlotSort) (dirents : List String) : Option LockState :=
  match lockHugepageDirs sys openDir startLocks dirents with
  | none => none
  | some st =>
    let sorted := qsort (fun a b => compareHpi a.info b.info) (st.slots.take st.numSizes)
    if sorted.any fun s => s.info.hugedir.isSome && decide (0 < s.info.numPages socketZero) then
      some { st with slots := sorted ++ st.slots.drop st.numSizes }
    else none

end

/-- A system call of `eal_hugedirs_unlock`: `flock(fd, LOCK_UN)` or `close(fd)`. -/
inductive UnlockCall
  | unlock (fd : Int)
  | close (fd : Int)
  deriving DecidableEq, Repr

/-- `eal_hugedirs_unlock`: the slots and the calls. -/
def ealHugedirsUnlock (slots : List HugepageSlot) : List HugepageSlot × List UnlockCall :=
  (slots.map fun s => if s.lockDescriptor < 0 then s else { s with lockDescriptor := -1 },
    slots.flatMap fun s => if s.lockDescriptor < 0 then [] else
      [.unlock s.lockDescriptor, .close s.lockDescriptor])

/-- The descriptors unlocked -/
def unlocked (calls : List UnlockCall) : List Int :=
  calls.filterMap fun | .unlock fd => some fd | .close _ => none

/-- The descriptors closed -/
def closed (calls : List UnlockCall) : List Int :=
  calls.filterMap fun | .unlock _ => none | .close fd => some fd

/-- The descriptors that were opened and are in a slot. -/
def recorded (st : LockState) : List Int :=
  st.opened.filter fun fd => st.slots.any fun s => s.lockDescriptor == fd

/-- The unlocking unlocks and closes what is recorded, each once, and nothing else. -/
structure ReleasedOnce (st : LockState) : Prop where
  unlocked : (unlocked (ealHugedirsUnlock st.slots).2).Perm (recorded st)
  closed : (closed (ealHugedirsUnlock st.slots).2).Perm (recorded st)

/-! ## The loop -/

/-- A page size with a mount point -/
def mounted (sys : HugepageSys) (dName : String) : Bool :=
  isSizeEntry dName && (sys.getHugepageDir (sys.strToSize (sizeText dName))).isSome

/-- The used slots hold what was opened, the others descriptor `0` and no pages. -/
structure LockInv (st : LockState) : Prop where
  slots : st.slots.length = maxHugepageSizes
  used : (st.slots.take st.numSizes).map HugepageSlot.lockDescriptor = st.opened.reverse
  rest : ∀ s ∈ st.slots.drop st.numSizes, s.lockDescriptor = 0 ∧ s.info.numPages = fun _ => 0
  sizes : st.opened.length = st.numSizes
  valid : ∀ fd ∈ st.opened, 0 ≤ fd
  le : st.numSizes ≤ maxHugepageSizes

theorem startLocks_inv : LockInv startLocks where
  slots := rfl
  used := rfl
  rest := by
    intro s hs
    rw [List.eq_of_mem_replicate hs]
    exact ⟨rfl, rfl⟩
  sizes := rfl
  valid := fun fd hfd => nomatch hfd
  le := Nat.zero_le _

section

variable {sys : HugepageSys} {openDir : List Int → String → Int} {st st' : LockState}

/-- The next slot is one of those not used. -/
theorem LockInv.next (h : LockInv st) (hlt : st.numSizes < maxHugepageSizes) :
    st.slots.getD st.numSizes zeroSlot ∈ st.slots.drop st.numSizes := by
  have hin : st.numSizes < st.slots.length := by rw [h.slots]; exact hlt
  rw [List.getD_eq_getElem _ _ hin, List.drop_eq_getElem_cons hin]
  exact List.mem_cons_self

/-- An entry without a mount point leaves the descriptor of its slot alone. -/
theorem LockInv.skip (h : LockInv st) (hlt : st.numSizes < maxHugepageSizes) (info : HugepageInfo)
    (hinfo : info.numPages = (st.slots.getD st.numSizes zeroSlot).info.numPages) :
    LockInv { st with
      slots := st.slots.set st.numSizes ⟨info, (st.slots.getD st.numSizes zeroSlot).lockDescriptor⟩ } where
  slots := (List.length_set ..).trans h.slots
  used := by
    simp only [List.take_set_of_le (Nat.le_refl _)]
    exact h.used
  rest := by
    obtain ⟨hlock, hpages⟩ := h.rest _ (h.next hlt)
    intro s hs
    simp only [List.drop_set, Nat.lt_irrefl, if_false, Nat.sub_self] at hs
    rcases List.mem_or_eq_of_mem_set hs with hold | rfl
    · exact h.rest s hold
    · exact ⟨hlock, hinfo.trans hpages⟩
  sizes := h.sizes
  valid := h.valid
  le := h.le

/-- An entry with a mount point records its descriptor. -/
theorem LockInv.lock (h : LockInv st) (hlt : st.numSizes < maxHugepageSizes) {fd : Int} (hfd : ¬fd < 0)
    (info : HugepageInfo) :
    LockInv ⟨st.slots.set st.numSizes ⟨info, fd⟩, st.numSizes + 1, fd :: st.opened⟩ where
  slots := (List.length_set ..).trans h.slots
  used := by
    have hin : st.numSizes < (st.slots.set st.numSizes ⟨info, fd⟩).length := by
      rw [List.length_set, h.slots]
      exact hlt
    simp only
    rw [List.take_succ_eq_append_getElem hin, List.getElem_set_self, List.map_append,
      List.take_set_of_le (Nat.le_refl _), h.used, List.reverse_cons]
    rfl
  rest := by
    intro s hs
    simp only [List.drop_set, Nat.lt_succ_self, if_true] at hs
    refine h.rest s (List.mem_of_mem_drop (i := 1) ?_)
    rwa [List.drop_drop]
  sizes := congrArg (· + 1) h.sizes
  valid := by
    intro x hx
    rcases List.mem_cons.mp hx with rfl | hx
    · exact Int.not_lt.mp hfd
    · exact h.valid x hx
  le := hlt

/-- The loop keeps the invariant and uses a slot for every size with a mount point. -/
theorem lockHugepageDirs_inv {dirents : List String} (h : LockInv st)
    (hrun : lockHugepageDirs sys openDir st dirents = some st') :
    LockInv st' ∧ st'.numSizes = st.numSizes + dirents.countP (mounted sys) := by
  induction dirents generalizing st with
  | nil =>
    cases hrun
    exact ⟨h, rfl⟩
  | cons dName rest ih =>
    rw [lockHugepageDirs] at hrun
    rw [List.countP_cons]
    by_cases hentry : isSizeEntry dName = false
    · have hno : mounted sys dName = false := by rw [mounted, hentry]; rfl
      rw [if_pos hentry] at hrun
      rw [hno]
      exact ih h hrun
    rw [if_neg hentry] at hrun
    rw [Bool.not_eq_false] at hentry
    by_cases hfull : maxHugepageSizes ≤ st.numSizes
    · rw [if_pos hfull] at hrun
      cases hrun
    rw [if_neg hfull] at hrun
    simp only at hrun
    have hlt := Nat.lt_of_not_le hfull
    cases hdir : sys.getHugepageDir (sys.strToSize (sizeText dName)) with
    | none =>
      have hno : mounted sys dName = false := by rw [mounted, hdir, hentry]; rfl
      rw [hdir] at hrun
      have hnext := ih (h.skip hlt ⟨_, none, _⟩ rfl) hrun
      rw [hno]
      exact hnext
    | some hugedir =>
      have hyes : mounted sys dName = true := by rw [mounted, hdir, hentry]; rfl
      rw [hdir] at hrun
      simp only at hrun
      by_cases hlock : openDir st.opened hugedir < 0 ∨ sys.flock hugedir = false
      · rw [if_pos hlock] at hrun
        cases hrun
      rw [if_neg hlock] at hrun
      split_ifs at hrun
      obtain ⟨hinv, hsizes⟩ := ih (h.lock hlt (fun hneg => hlock (.inl hneg)) _) hrun
      refine ⟨hinv, ?_⟩
      rw [hsizes, hyes]
      simp only [if_true]
      omega

/-- The loop finds the sizes that it finds without the locks. -/
theorem lockHugepageDirs_infos {dirents : List String} (h : LockInv st)
    (hrun : lockHugepageDirs sys openDir st dirents = some st') :
    readHugepageDirs sys ((st.slots.take st.numSizes).map HugepageSlot.info) dirents =
      some ((st'.slots.take st'.numSizes).map HugepageSlot.info) := by
  induction dirents generalizing st with
  | nil =>
    cases hrun
    rfl
  | cons dName rest ih =>
    have hfound : ((st.slots.take st.numSizes).map HugepageSlot.info).length = st.numSizes := by
      rw [List.length_map, List.length_take_of_le (by rw [h.slots]; exact h.le)]
    rw [lockHugepageDirs] at hrun
    rw [readHugepageDirs, hfound]
    by_cases hentry : isSizeEntry dName = false
    · rw [if_pos hentry] at hrun
      rw [if_pos (show "hugepages-".isPrefixOf dName = false from hentry)]
      exact ih h hrun
    rw [if_neg hentry] at hrun
    rw [if_neg (show ¬"hugepages-".isPrefixOf dName = false from hentry)]
    by_cases hfull : maxHugepageSizes ≤ st.numSizes
    · rw [if_pos hfull] at hrun
      cases hrun
    rw [if_neg hfull] at hrun
    rw [if_neg hfull]
    simp only at hrun ⊢
    have hlt := Nat.lt_of_not_le hfull
    change (match sys.getHugepageDir (sys.strToSize (sizeText dName)) with | none => _ | some hugedir => _) = _
    cases hdir : sys.getHugepageDir (sys.strToSize (sizeText dName)) with
    | none =>
      rw [hdir] at hrun
      have hnext := ih (h.skip hlt ⟨_, none, _⟩ rfl) hrun
      simp only [List.take_set_of_le (Nat.le_refl _)] at hnext
      exact hnext
    | some hugedir =>
      rw [hdir] at hrun
      simp only at hrun
      by_cases hlock : openDir st.opened hugedir < 0 ∨ sys.flock hugedir = false
      · rw [if_pos hlock] at hrun
        cases hrun
      rw [if_neg hlock] at hrun
      split_ifs at hrun with hclear
      have hflock : ¬sys.flock hugedir = false := fun hf => hlock (.inr hf)
      have hnext := ih (h.lock hlt (fun hneg => hlock (.inl hneg)) _) hrun
      have hin : st.numSizes < st.slots.length := by rw [h.slots]; exact hlt
      have hpages : Function.update (st.slots.getD st.numSizes zeroSlot).info.numPages socketZero
          (sys.getNumHugepages dName) = fun socket => if socket = socketZero then sys.getNumHugepages dName else 0 := by
        rw [(h.rest _ (h.next hlt)).2]
        funext socket
        rw [Function.update_apply]
      simp only [if_neg hflock, if_neg hclear]
      rw [List.take_succ_eq_append_getElem (by rwa [List.length_set]), List.getElem_set_self,
        List.take_set_of_le (Nat.le_refl _), List.map_append, List.map_singleton, hpages] at hnext
      exact hnext

end

/-! ## Unlocking -/

section

variable {qsort : SlotSort} {sys : HugepageSys} {openDir : List Int → String → Int} {st : LockState}

theorem closed_unlock {slots : List HugepageSlot} (h : ∀ s ∈ slots, 0 ≤ s.lockDescriptor) :
    closed (ealHugedirsUnlock slots).2 = slots.map HugepageSlot.lockDescriptor ∧
      unlocked (ealHugedirsUnlock slots).2 = slots.map HugepageSlot.lockDescriptor := by
  induction slots with
  | nil => exact ⟨rfl, rfl⟩
  | cons s slots ih =>
    obtain ⟨hclosed, hunlocked⟩ := ih fun x hx => h x (List.mem_cons_of_mem s hx)
    have hs : ¬s.lockDescriptor < 0 := Int.not_lt.mpr (h s List.mem_cons_self)
    simp only [ealHugedirsUnlock, closed, unlocked, List.flatMap_cons, if_neg hs,
      List.filterMap_append] at hclosed hunlocked ⊢
    rw [hclosed, hunlocked]
    exact ⟨rfl, rfl⟩

/-- The descriptors in the slots are those opened and a `0` for every unused slot. -/
theorem init_locks (hq : ∀ cmp l, (qsort cmp l).Perm l) {dirents : List String}
    (hinit : ealHugepageInfoInitLocks sys openDir qsort dirents = some st) :
    (st.slots.map HugepageSlot.lockDescriptor).Perm
        (st.opened ++ List.replicate (maxHugepageSizes - st.opened.length) 0) ∧
      (∀ fd ∈ st.opened, 0 ≤ fd) ∧ st.opened.length = dirents.countP (mounted sys) ∧
      st.opened.length ≤ maxHugepageSizes := by
  rw [ealHugepageInfoInitLocks] at hinit
  cases hrun : lockHugepageDirs sys openDir startLocks dirents with
  | none =>
    rw [hrun] at hinit
    cases hinit
  | some found =>
    rw [hrun] at hinit
    simp only at hinit
    split_ifs at hinit
    cases hinit
    obtain ⟨hinv, hsizes⟩ := lockHugepageDirs_inv startLocks_inv hrun
    have hle : found.opened.length ≤ maxHugepageSizes := by
      rw [hinv.sizes]
      exact hinv.le
    refine ⟨?_, hinv.valid, ?_, hle⟩
    · have hrest : (found.slots.drop found.numSizes).map HugepageSlot.lockDescriptor =
          List.replicate (maxHugepageSizes - found.opened.length) 0 := by
        rw [List.eq_replicate_iff]
        refine ⟨?_, fun x hx => ?_⟩
        · rw [List.length_map, List.length_drop, hinv.slots, hinv.sizes]
        · obtain ⟨s, hs, rfl⟩ := List.mem_map.mp hx
          exact (hinv.rest s hs).1
      rw [List.map_append, hrest]
      refine List.Perm.append_right _ (((hq _ _).map _).trans ?_)
      rw [hinv.used]
      exact List.reverse_perm _
    · rw [hinv.sizes, hsizes, startLocks, Nat.zero_add]

/-- The directories are released once each, and nothing else is closed, exactly when as many page sizes
have a mount point as there are slots. -/
theorem released_iff (hq : ∀ cmp l, (qsort cmp l).Perm l) {dirents : List String}
    (hinit : ealHugepageInfoInitLocks sys openDir qsort dirents = some st) :
    ReleasedOnce st ↔ dirents.countP (mounted sys) = maxHugepageSizes := by
  obtain ⟨hperm, hvalid, hcount, hle⟩ := init_locks hq hinit
  have hlocks : ∀ s ∈ st.slots, 0 ≤ s.lockDescriptor := by
    intro s hs
    have hmem := hperm.subset (List.mem_map_of_mem hs)
    rcases List.mem_append.mp hmem with hopen | hzero
    · exact hvalid _ hopen
    · rw [List.eq_of_mem_replicate hzero]
  obtain ⟨hclosed, hunlocked⟩ := closed_unlock hlocks
  rw [← hcount]
  constructor
  · intro h
    -- all slots are closed, and no more than what was opened is recorded
    have hlen := h.closed.length_eq
    have hslots := hperm.length_eq
    have hfew : (recorded st).length ≤ st.opened.length := List.length_filter_le _ _
    rw [hclosed] at hlen
    rw [List.length_append, List.length_replicate] at hslots
    omega
  · intro hall
    rw [hall, Nat.sub_self, List.replicate_zero, List.append_nil] at hperm
    have hrec : recorded st = st.opened := by
      rw [recorded, List.filter_eq_self]
      intro fd hfd
      obtain ⟨s, hs, hfd⟩ := List.mem_map.mp (hperm.symm.subset hfd)
      exact List.any_eq_true.mpr ⟨s, hs, by rw [hfd, BEq.rfl]⟩
    refine ⟨?_, ?_⟩
    · rw [hunlocked, hrec]
      exact hperm
    · rw [hclosed, hrec]
      exact hperm

/-- **The hugepage directories**, for every listing and every mount table: they are released once each, and
nothing else is closed, exactly when as many page sizes have a mount point as there are slots. -/
theorem hugedirs_unlock_iff (hq : ∀ cmp l, (qsort cmp l).Perm l) {m : Mounts}
    {flock clearHugedir : String → Bool} {getNumHugepages : String → Nat} {dirents : List String}
    (hinit : ealHugepageInfoInitLocks (mountSys m flock clearHugedir getNumHugepages) openDir qsort dirents =
      some st) :
    ReleasedOnce st ↔
      dirents.countP (mounted (mountSys m flock clearHugedir getNumHugepages)) = maxHugepageSizes :=
  released_iff hq hinit

end

/-! ## Machines with three sizes and with one -/

/-- A sort by insertion -/
def insertSlots : SlotSort := fun cmp l => l.insertionSort fun a b => cmp a b ≤ 0

theorem insertSlots_perm (cmp : HugepageSlot → HugepageSlot → Int) (l : List HugepageSlot) :
    (insertSlots cmp l).Perm l := List.perm_insertionSort _ _

/-- A mount for each of three sizes, of eight free pages each; the lock succeeds. -/
def threeMounts : HugepageSys :=
  mountSys ⟨[toBytes "nodev /mnt/huge hugetlbfs rw,pagesize=2M 0 0",
    toBytes "nodev /mnt/huge1G hugetlbfs rw,pagesize=1024M 0 0",
    toBytes "nodev /mnt/huge16M hugetlbfs rw,pagesize=16384K 0 0"], none, 2 ^ 21⟩
    (fun _ => true) (fun _ => true) fun _ => 8

/-- The lowest descriptor from `5` on that is free. -/
def nextDescriptor (opened : List Int) (_ : String) : Int := 5 + opened.length

example : threeMounts.getHugepageDir (2 ^ 24) = some "/mnt/huge16M" := by decide +kernel

theorem hugedirs_unlock_iff_three : ∃ st,
    ealHugepageInfoInitLocks threeMounts nextDescriptor insertSlots
        ["hugepages-2048kB", "hugepages-1048576kB", "hugepages-16384kB"] = some st ∧
      (ReleasedOnce st ↔ ["hugepages-2048kB", "hugepages-1048576kB", "hugepages-16384kB"].countP
        (mounted threeMounts) = maxHugepageSizes) := by
  obtain ⟨st, hst⟩ := Option.isSome_iff_exists.mp (show (ealHugepageInfoInitLocks threeMounts nextDescriptor
    insertSlots ["hugepages-2048kB", "hugepages-1048576kB", "hugepages-16384kB"]).isSome = true by
      decide +kernel)
  exact ⟨st, hst, hugedirs_unlock_iff insertSlots_perm hst⟩

/-- One size, and the unlocking closes descriptor `0` for the other two slots. -/
theorem not_hugedirs_unlock : ∃ st,
    ealHugepageInfoInitLocks threeMounts nextDescriptor insertSlots ["hugepages-2048kB"] = some st ∧
      ¬ReleasedOnce st ∧ 0 ∈ closed (ealHugedirsUnlock st.slots).2 ∧ 0 ∉ st.opened := by
  obtain ⟨st, hst⟩ := Option.isSome_iff_exists.mp (show (ealHugepageInfoInitLocks threeMounts nextDescriptor
    insertSlots ["hugepages-2048kB"]).isSome = true by decide +kernel)
  have hone : ["hugepages-2048kB"].countP (mounted threeMounts) = 1 := by decide +kernel
  have hcalls : (ealHugepageInfoInitLocks threeMounts nextDescriptor insertSlots ["hugepages-2048kB"]).map
      (fun st => (closed (ealHugedirsUnlock st.slots).2, st.opened)) = some ([5, 0, 0], [5]) := by
    decide +kernel
  rw [hst, Option.map_some, Option.some_inj, Prod.mk.injEq] at hcalls
  refine ⟨st, hst, ?_, ?_, ?_⟩
  · rw [released_iff insertSlots_perm hst, hone]
    decide
  · rw [hcalls.1]
    decide
  · rw [hcalls.2]
    decide

end EalMemory
