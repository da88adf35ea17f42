import RteDemo.Common
import Mathlib.Algebra.BigOperators.Fin
import Mathlib.Algebra.Order.BigOperators.Group.Finset

/-!
# Choosing the hugepages of each socket

`calc_num_pages_per_socket` shares the requested memory out between the sockets, first in proportion
to their lcores and then from one socket after the other, and picks pages for each share, going
through the page sizes once.

The sharing leaves nothing over that a socket could still give (`shares_spec`). The pass over the
sizes always finds the pages for a share that the socket has memory for, because it moves on to the
next size only when the sizes left can cover what is missing (`sizeLoop_spec`).
-/

namespace EalMemory

open RteDemo

abbrev Socket := Fin rteMaxNumaNodes

/-- `struct hugepage_info` -/
structure HugepageInfo where
  hugepageSz : Nat
  hugedir : Option String
  numPages : Socket → Nat

/-- The fields of `struct internal_config` that matter here; the list is the part of `hugepage_info`
in use. -/
structure InternalConfig where
  memory : Nat
  forceSockets : Nat
  hugepageInfo : List HugepageInfo

/-- The enabled lcores, the sockets they are on, and `rte_lcore_count()`. -/
structure LcoreConfig where
  isEnabled : Nat → Bool
  socketId : Nat → Socket
  lcoreCount : Nat

/-- `RTE_MAX_LCORE` -/
@[simp] def rteMaxLcore : Nat := 128

/-- The lcores that `RTE_LCORE_FOREACH` goes through. -/
def lcoreForeach (lc : LcoreConfig) : List Nat := (List.range rteMaxLcore).filter lc.isEnabled

/-- `cpu_per_socket` -/
def cpuPerSocket (lc : LcoreConfig) : Socket → Nat :=
  (lcoreForeach lc).foldl
    (fun cpu lcoreId => Function.update cpu (lc.socketId lcoreId) (cpu (lc.socketId lcoreId) + 1))
    fun _ => 0

/-- `size += hpi->hugepage_sz * hpi->num_pages[socket]` -/
def addPages (socket : Socket) (size : Nat) (hpi : HugepageInfo) : Nat :=
  Word.add 64 size (Word.mul 64 hpi.hugepageSz (hpi.numPages socket))

/-- `get_socket_mem_size` -/
def getSocketMemSize (cfg : InternalConfig) (socket : Socket) : Nat :=
  cfg.hugepageInfo.foldl (fun size hpi => if hpi.hugedir.isSome then addPages socket size hpi else size)
    0

/-! ## Sharing the memory out -/

/-- The variables of the first two loops. `borrowed` is set by a subtraction that wraps. -/
structure ShareState where
  memory : Socket → Nat
  totalSize : Nat
  borrowed : Bool

/-- A loop over the sockets that ends when `total_size` is zero. -/
def forSockets (body : Socket → ShareState → ShareState) : List Socket → ShareState → ShareState
  | [], st => st
  | socket :: rest, st => if st.totalSize = 0 then st else forSockets body rest (body socket st)

/-- The body of the first loop: the part of the lcores of this socket. -/
def spreadBody (cfg : InternalConfig) (lc : LcoreConfig) (socket : Socket) (st : ShareState) :
    ShareState :=
  let defaultSize := min (Word.mul 64 cfg.memory (cpuPerSocket lc socket) / lc.lcoreCount)
    (getSocketMemSize cfg socket)
  { memory := Function.update st.memory socket defaultSize
    totalSize := Word.sub 64 st.totalSize defaultSize
    borrowed := st.borrowed || decide (st.totalSize < defaultSize) }

/-- The body of the second loop: whatever is left on this socket. -/
def topUpBody (cfg : InternalConfig) (socket : Socket) (st : ShareState) : ShareState :=
  let available := getSocketMemSize cfg socket
  let defaultSize := min (Word.sub 64 available (st.memory socket)) st.totalSize
  { memory := Function.update st.memory socket (Word.add 64 (st.memory socket) defaultSize)
    totalSize := Word.sub 64 st.totalSize defaultSize
    borrowed := st.borrowed || decide (available < st.memory socket) ||
      decide (st.totalSize < defaultSize) }

/-- `memory` after the first half of `calc_num_pages_per_socket`. -/
def shares (cfg : InternalConfig) (lc : LcoreConfig) (memory : Socket → Nat) : ShareState :=
  if cfg.forceSockets = 0 then
    forSockets (topUpBody cfg) (List.finRange _)
      (forSockets (spreadBody cfg lc) (List.finRange _) ⟨memory, cfg.memory, false⟩)
  else ⟨memory, 0, false⟩

/-! ## Picking the pages -/

/-- `hp_info[i]` and `hp_used[i]`. -/
abbrev Entry := HugepageInfo × HugepageInfo

/-- What the pass over the sizes changes besides `hp_used`; `memory` is `memory[socket]`. -/
structure PageState where
  memory : Nat
  totalMem : Nat
  totalNumPages : BitVec 32
  borrowed : Bool

/-- `memory[socket] -= cur_mem`, `total_mem -= cur_mem`, and the pages counted. -/
def PageState.use (st : PageState) (pages curMem : Nat) : PageState where
  memory := Word.sub 64 st.memory curMem
  totalMem := Word.sub 64 st.totalMem curMem
  totalNumPages := st.totalNumPages + BitVec.ofNat 32 pages
  borrowed := st.borrowed || decide (st.memory < curMem) || decide (st.totalMem < curMem)

def HugepageInfo.setPages (hp : HugepageInfo) (socket : Socket) (pages : Nat) : HugepageInfo :=
  { hp with numPages := Function.update hp.numPages socket pages }

/-- `remaining_mem` -/
def remainingMem (socket : Socket) (rest : List Entry) : Nat :=
  (rest.map Prod.fst).foldl (addPages socket) 0

/-- The loop over the page sizes, on the entries from `i` on. -/
def sizeLoop (socket : Socket) : List Entry → PageState → List Entry × PageState
  | [], st => ([], st)
  | (info, used) :: rest, st =>
    if st.memory = 0 then ((info, used) :: rest, st)
    else
      let pages := min (st.memory / info.hugepageSz) (info.numPages socket)
      let used := { used with hugedir := info.hugedir }.setPages socket pages
      let st := st.use pages (Word.mul 64 pages used.hugepageSz)
      if st.memory = 0 then ((info, used) :: rest, st)
      else if pages ≠ info.numPages socket ∧ remainingMem socket rest < st.memory then
        -- the smaller pages do not suffice: one more of these, and done with this socket
        ((info, used.setPages socket (Word.add 32 pages 1)) :: rest,
          st.use 1 (min st.memory info.hugepageSz))
      else ((info, used) :: (sizeLoop socket rest st).1, (sizeLoop socket rest st).2)

/-- The variables of the second half of `calc_num_pages_per_socket`. -/
structure NumPages where
  memory : Socket → Nat
  totalMem : Nat
  totalNumPages : BitVec 32
  borrowed : Bool
  hp : List Entry

/-- The loop over the sockets, and whether a share was not met. -/
def socketLoop : List Socket → NumPages → NumPages × Bool
  | [], st => (st, false)
  | socket :: rest, st =>
    if st.totalMem = 0 then (st, false)
    else
      let r := sizeLoop socket st.hp ⟨st.memory socket, st.totalMem, st.totalNumPages, st.borrowed⟩
      let st : NumPages :=
        ⟨Function.update st.memory socket r.2.memory, r.2.totalMem, r.2.totalNumPages, r.2.borrowed, r.1⟩
      if 0 < r.2.memory then (st, true) else socketLoop rest st

/-- `calc_num_pages_per_socket`: the value returned and the variables at the end. The entries are
`hp_info` beside `hp_used`. -/
def calcNumPagesPerSocket (cfg : InternalConfig) (lc : LcoreConfig) (memory : Socket → Nat)
    (hp : List Entry) : Int × NumPages :=
  if hp.isEmpty then (-1, ⟨memory, cfg.memory, 0, false, hp⟩)
  else
    let st := shares cfg lc memory
    let r := socketLoop (List.finRange _) ⟨st.memory, cfg.memory, 0, st.borrowed, hp⟩
    if r.2 then (-1, r.1)
    else if 0 < r.1.totalMem then (-1, r.1)
    else (r.1.totalNumPages.toInt, r.1)

/-- The entries as `rte_eal_hugepage_init` hands them over: `used_hp` zero-filled but for the sizes. -/
def initEntries (cfg : InternalConfig) : List Entry :=
  cfg.hugepageInfo.map fun info => (info, ⟨info.hugepageSz, none, fun _ => 0⟩)

/-! ## The memory of a socket -/

/-- The bytes that a list of page sizes has on a socket. -/
def sumBytes (infos : List HugepageInfo) (socket : Socket) : Nat :=
  (infos.map fun info => info.hugepageSz * info.numPages socket).sum

/-- What is available on a socket: the bytes of its pages of the sizes that are mounted. -/
def mountedBytes (cfg : InternalConfig) (socket : Socket) : Nat :=
  sumBytes (cfg.hugepageInfo.filter (·.hugedir.isSome)) socket

theorem sumBytes_cons (info : HugepageInfo) (infos : List HugepageInfo) (socket : Socket) :
    sumBytes (info :: infos) socket =
      info.hugepageSz * info.numPages socket + sumBytes infos socket := rfl

theorem sumBytes_filter_le (p : HugepageInfo → Bool) (infos : List HugepageInfo) (socket : Socket) :
    sumBytes (infos.filter p) socket ≤ sumBytes infos socket := by
  induction infos with
  | nil => exact Nat.le_refl _
  | cons info infos ih =>
    rw [List.filter_cons, sumBytes_cons]
    split
    · rw [sumBytes_cons]
      omega
    · omega

theorem foldl_addPages (socket : Socket) (infos : List HugepageInfo) (size : Nat)
    (h : size + sumBytes infos socket < 2 ^ 64) :
    infos.foldl (addPages socket) size = size + sumBytes infos socket := by
  induction infos generalizing size with
  | nil => rfl
  | cons info infos ih =>
    rw [sumBytes_cons] at h ⊢
    have hadd : addPages socket size info = size + info.hugepageSz * info.numPages socket := by
      rw [addPages, Word.mul_eq (by omega), Word.add_eq (by omega)]
    rw [List.foldl_cons, hadd, ih _ (by omega)]
    omega

/-- Only the sizes that are mounted count. -/
theorem getSocketMemSize_eq {cfg : InternalConfig} {socket : Socket}
    (h : sumBytes cfg.hugepageInfo socket < 2 ^ 64) :
    getSocketMemSize cfg socket = mountedBytes cfg socket := by
  have hle := sumBytes_filter_le (·.hugedir.isSome) cfg.hugepageInfo socket
  rw [getSocketMemSize, ← List.foldl_filter, foldl_addPages _ _ _ (by omega), Nat.zero_add, mountedBytes]

theorem getSocketMemSize_le {cfg : InternalConfig} {socket : Socket}
    (h : sumBytes cfg.hugepageInfo socket < 2 ^ 64) :
    getSocketMemSize cfg socket ≤ sumBytes cfg.hugepageInfo socket :=
  getSocketMemSize_eq h ▸ sumBytes_filter_le _ _ _

/-! ## The lcores of a socket -/

theorem sum_update (f : Socket → Nat) (socket : Socket) (v : Nat) :
    ∑ s, Function.update f socket v s + f socket = ∑ s, f s + v := by
  rw [Finset.sum_update_of_mem (Finset.mem_univ socket), Finset.sdiff_singleton_eq_erase,
    ← Finset.add_sum_erase Finset.univ f (Finset.mem_univ socket)]
  omega

theorem sum_cpuPerSocket (lc : LcoreConfig) :
    ∑ s, cpuPerSocket lc s = (lcoreForeach lc).length := by
  have hfold : ∀ (l : List Nat) (cpu : Socket → Nat), ∑ s, l.foldl (fun cpu lcoreId =>
      Function.update cpu (lc.socketId lcoreId) (cpu (lc.socketId lcoreId) + 1)) cpu s =
        ∑ s, cpu s + l.length := by
    intro l
    induction l with
    | nil => exact fun _ => rfl
    | cons i l ih =>
      intro cpu
      have hone := sum_update cpu (lc.socketId i) (cpu (lc.socketId i) + 1)
      rw [List.foldl_cons, ih, List.length_cons]
      omega
  have hall := hfold (lcoreForeach lc) fun _ => 0
  rwa [Finset.sum_const_zero, Nat.zero_add] at hall

/-- Proportional parts, rounded down, add up to no more than the whole. -/
theorem sum_div_le (total count : Nat) (cpu : Socket → Nat) (h : ∑ s, cpu s = count)
    (hpos : 0 < count) : ∑ s, total * cpu s / count ≤ total := by
  have hmul : count * ∑ s, total * cpu s / count ≤ count * total :=
    calc count * ∑ s, total * cpu s / count = ∑ s, count * (total * cpu s / count) :=
          Finset.mul_sum ..
      _ ≤ ∑ s, total * cpu s := Finset.sum_le_sum fun s _ => Nat.mul_div_le _ _
      _ = total * ∑ s, cpu s := (Finset.mul_sum ..).symm
      _ = count * total := by rw [h, Nat.mul_comm]
  exact Nat.le_of_mul_le_mul_left hmul hpos

/-! ## What the shares are -/

/-- The shares so far: nothing has wrapped, no share exceeds its socket, and nothing is lost. -/
structure Shared (cfg : InternalConfig) (st : ShareState) : Prop where
  borrowed : st.borrowed = false
  le : ∀ s, st.memory s ≤ getSocketMemSize cfg s
  sum : ∑ s, st.memory s + st.totalSize = cfg.memory

section

variable {cfg : InternalConfig} {lc : LcoreConfig}

/-- The loop leaves the sockets outside its list alone. -/
theorem forSockets_memory {body : Socket → ShareState → ShareState}
    (hbody : ∀ s st t, t ≠ s → (body s st).memory t = st.memory t) (sockets : List Socket)
    (st : ShareState) {t : Socket} (ht : t ∉ sockets) :
    (forSockets body sockets st).memory t = st.memory t := by
  induction sockets generalizing st with
  | nil => rfl
  | cons s rest ih =>
    rw [List.mem_cons, not_or] at ht
    rw [forSockets]
    split
    · rfl
    · rw [ih _ ht.2, hbody s st t ht.1]

theorem topUpBody_memory (s : Socket) (st : ShareState) (t : Socket) (h : t ≠ s) :
    (topUpBody cfg s st).memory t = st.memory t := Function.update_of_ne h _ _

/-- A share that is still there to give can be given. -/
theorem Shared.give {st : ShareState} (h : Shared cfg st) (hmem : cfg.memory < 2 ^ 64) {s : Socket}
    {d : Nat} (hd : d ≤ st.totalSize) (hle : st.memory s + d ≤ getSocketMemSize cfg s) :
    Shared cfg
      ⟨Function.update st.memory s (st.memory s + d), Word.sub 64 st.totalSize d, st.borrowed⟩ where
  borrowed := h.borrowed
  le t := by
    dsimp only
    by_cases ht : t = s
    · rw [ht, Function.update_self]
      exact hle
    · rw [Function.update_of_ne ht]
      exact h.le t
  sum := by
    have hsum := h.sum
    have hupd := sum_update st.memory s (st.memory s + d)
    dsimp only
    rw [Word.sub_eq hd (by omega)]
    omega

theorem Shared.spread {st : ShareState} (h : Shared cfg st) (hmem : cfg.memory < 2 ^ 64)
    (hprod : ∀ s, cfg.memory * cpuPerSocket lc s < 2 ^ 64) (sockets : List Socket)
    (hnodup : sockets.Nodup) (hzero : ∀ s ∈ sockets, st.memory s = 0)
    (hpart : (sockets.map fun s => cfg.memory * cpuPerSocket lc s / lc.lcoreCount).sum ≤ st.totalSize) :
    Shared cfg (forSockets (spreadBody cfg lc) sockets st) := by
  induction sockets generalizing st with
  | nil => exact h
  | cons s rest ih =>
    rw [List.map_cons, List.sum_cons] at hpart
    obtain ⟨hs, hrest⟩ := List.nodup_cons.mp hnodup
    rw [forSockets]
    split
    · exact h
    have hstep : ∃ d, d ≤ cfg.memory * cpuPerSocket lc s / lc.lcoreCount ∧
        d ≤ getSocketMemSize cfg s ∧ spreadBody cfg lc s st =
          ⟨Function.update st.memory s (st.memory s + d), Word.sub 64 st.totalSize d, st.borrowed⟩ := by
      refine ⟨min (cfg.memory * cpuPerSocket lc s / lc.lcoreCount) (getSocketMemSize cfg s),
        Nat.min_le_left _ _, Nat.min_le_right _ _, ?_⟩
      have hfits : ¬st.totalSize < min (cfg.memory * cpuPerSocket lc s / lc.lcoreCount)
          (getSocketMemSize cfg s) := by
        have hmin := Nat.min_le_left (cfg.memory * cpuPerSocket lc s / lc.lcoreCount)
          (getSocketMemSize cfg s)
        omega
      rw [spreadBody, Word.mul_eq (hprod s), hzero s List.mem_cons_self, Nat.zero_add,
        decide_eq_false hfits, Bool.or_false]
    obtain ⟨d, hd, hdsize, hbody⟩ := hstep
    have hz := hzero s List.mem_cons_self
    have hsum := h.sum
    rw [hbody]
    refine ih (h.give hmem (by omega) (by omega)) hrest (fun t ht => ?_) ?_
    · rw [← hzero t (List.mem_cons_of_mem s ht)]
      exact Function.update_of_ne (fun he : t = s => hs (he ▸ ht)) _ _
    · dsimp only
      rw [Word.sub_eq (by omega) (by omega)]
      omega

/-- After the second loop either everything has been shared out or every socket gives all it has. -/
theorem Shared.topUp {st : ShareState} (h : Shared cfg st) (hmem : cfg.memory < 2 ^ 64)
    (hfit : ∀ s, getSocketMemSize cfg s < 2 ^ 64) (sockets : List Socket) (hnodup : sockets.Nodup) :
    Shared cfg (forSockets (topUpBody cfg) sockets st) ∧
      ((forSockets (topUpBody cfg) sockets st).totalSize = 0 ∨
        ∀ s ∈ sockets, (forSockets (topUpBody cfg) sockets st).memory s = getSocketMemSize cfg s) := by
  induction sockets generalizing st with
  | nil => exact ⟨h, .inr fun s hs => absurd hs List.not_mem_nil⟩
  | cons s rest ih =>
    obtain ⟨hs, hrest⟩ := List.nodup_cons.mp hnodup
    rw [forSockets]
    split
    · exact ⟨h, .inl ‹_›⟩
    have hle := h.le s
    have hsize := hfit s
    have hsum := h.sum
    have hsub : Word.sub 64 (getSocketMemSize cfg s) (st.memory s) =
        getSocketMemSize cfg s - st.memory s := Word.sub_eq hle hsize
    obtain ⟨d, hd⟩ : ∃ d, d = min (getSocketMemSize cfg s - st.memory s) st.totalSize := ⟨_, rfl⟩
    have hbody : topUpBody cfg s st =
        ⟨Function.update st.memory s (st.memory s + d), Word.sub 64 st.totalSize d, st.borrowed⟩ := by
      rw [topUpBody, hsub, ← hd, Word.add_eq (by omega),
        decide_eq_false (show ¬getSocketMemSize cfg s < st.memory s by omega),
        decide_eq_false (show ¬st.totalSize < d by omega), Bool.or_false, Bool.or_false]
    have hgive := h.give (s := s) (d := d) hmem (by omega) (by omega)
    rw [hbody]
    obtain ⟨hshared, hdone⟩ := ih hgive hrest
    refine ⟨hshared, ?_⟩
    by_cases hall : d = st.totalSize
    · -- nothing is left, and the rest of the loop does nothing
      left
      have hzero : Word.sub 64 st.totalSize d = 0 := by
        rw [Word.sub_eq (by omega) (by omega)]
        omega
      cases rest with
      | nil => exact hzero
      | cons t rest => rwa [forSockets, if_pos hzero]
    · refine hdone.imp_right fun hrestall t ht => ?_
      rcases List.mem_cons.mp ht with rfl | ht
      · rw [forSockets_memory topUpBody_memory rest _ hs]
        dsimp only
        rw [Function.update_self]
        omega
      · exact hrestall t ht

/-- The shares of a call that starts from zeros. -/
theorem shares_spec (hforce : cfg.forceSockets = 0) (hmem : cfg.memory < 2 ^ 64)
    (hprod : ∀ s, cfg.memory * cpuPerSocket lc s < 2 ^ 64)
    (hfit : ∀ s, getSocketMemSize cfg s < 2 ^ 64)
    (hcount : lc.lcoreCount = (lcoreForeach lc).length) (hpos : 1 ≤ lc.lcoreCount) :
    Shared cfg (shares cfg lc fun _ => 0) ∧
      ((shares cfg lc fun _ => 0).totalSize = 0 ∨
        ∀ s, (shares cfg lc fun _ => 0).memory s = getSocketMemSize cfg s) := by
  have hinit : Shared cfg ⟨fun _ => 0, cfg.memory, false⟩ :=
    ⟨rfl, fun _ => Nat.zero_le _, by rw [Finset.sum_const_zero, Nat.zero_add]⟩
  have hpart := sum_div_le cfg.memory lc.lcoreCount (cpuPerSocket lc)
    ((sum_cpuPerSocket lc).trans hcount.symm) hpos
  rw [Fin.sum_univ_def] at hpart
  have hspread := hinit.spread hmem hprod (List.finRange _) (List.nodup_finRange _) (fun _ _ => rfl)
    hpart
  obtain ⟨hshared, hdone⟩ := hspread.topUp hmem hfit (List.finRange _) (List.nodup_finRange _)
  rw [shares, if_pos hforce]
  exact ⟨hshared, hdone.imp_right fun h s => h s (List.mem_finRange s)⟩

/-- What is not shared out is what the sockets do not have. -/
theorem shares_totalSize (hforce : cfg.forceSockets = 0) (hmem : cfg.memory < 2 ^ 64)
    (hprod : ∀ s, cfg.memory * cpuPerSocket lc s < 2 ^ 64)
    (hfit : ∀ s, getSocketMemSize cfg s < 2 ^ 64)
    (hcount : lc.lcoreCount = (lcoreForeach lc).length) (hpos : 1 ≤ lc.lcoreCount) :
    (shares cfg lc fun _ => 0).totalSize = cfg.memory - ∑ s, getSocketMemSize cfg s := by
  obtain ⟨hshared, hdone⟩ := shares_spec hforce hmem hprod hfit hcount hpos
  have hsum := hshared.sum
  rcases hdone with hzero | hall
  · have hle : ∑ s, (shares cfg lc fun _ => 0).memory s ≤ ∑ s, getSocketMemSize cfg s :=
      Finset.sum_le_sum fun s _ => hshared.le s
    omega
  · have hgiven : ∑ s, (shares cfg lc fun _ => 0).memory s = ∑ s, getSocketMemSize cfg s :=
      Finset.sum_congr rfl fun s _ => hall s
    omega

end

/-! ## What a pass over the sizes picks -/

/-- The pages taken on a socket. -/
def usedPages (hp : List Entry) (socket : Socket) : Nat := (hp.map fun e => e.2.numPages socket).sum

/-- Their bytes. -/
def usedBytes (hp : List Entry) (socket : Socket) : Nat :=
  (hp.map fun e => e.1.hugepageSz * e.2.numPages socket).sum

/-- The pages taken on a socket serve its share. -/
structure Served (hp : List Entry) (socket : Socket) (share : Nat) : Prop where
  le : ∀ e ∈ hp, e.2.numPages socket ≤ e.1.numPages socket
  cover : share ≤ usedBytes hp socket
  surplus : ∃ e ∈ hp, usedBytes hp socket < share + e.1.hugepageSz ∧
    (share < usedBytes hp socket → 0 < e.1.numPages socket)

/-- The sizes are positive, and the counts are 32-bit words. -/
def Sizes (hp : List Entry) : Prop :=
  ∀ e ∈ hp, 0 < e.1.hugepageSz ∧ e.2.hugepageSz = e.1.hugepageSz ∧ ∀ s, e.1.numPages s < 2 ^ 32

/-- The sizes and the pages taken on one socket. -/
def view (hp : List Entry) (socket : Socket) : List (HugepageInfo × Nat) :=
  hp.map fun e => (e.1, e.2.numPages socket)

section

variable {hp hp' : List Entry} {socket : Socket}

theorem usedPages_eq (hp : List Entry) (socket : Socket) :
    usedPages hp socket = ((view hp socket).map Prod.snd).sum := by
  rw [view, List.map_map]
  rfl

theorem usedBytes_eq (hp : List Entry) (socket : Socket) :
    usedBytes hp socket = ((view hp socket).map fun v => v.1.hugepageSz * v.2).sum := by
  rw [view, List.map_map]
  rfl

theorem exists_of_view (h : view hp' socket = view hp socket) {e : Entry} (he : e ∈ hp') :
    ∃ e' ∈ hp, e'.1 = e.1 ∧ e'.2.numPages socket = e.2.numPages socket := by
  have hv : (e.1, e.2.numPages socket) ∈ view hp socket := h ▸ List.mem_map.mpr ⟨e, he, rfl⟩
  obtain ⟨e', he', heq⟩ := List.mem_map.mp hv
  exact ⟨e', he', Prod.mk.inj heq⟩

theorem Served.congr {share : Nat} (h : view hp' socket = view hp socket)
    (hs : Served hp socket share) : Served hp' socket share := by
  have hbytes : usedBytes hp' socket = usedBytes hp socket := by rw [usedBytes_eq, usedBytes_eq, h]
  refine ⟨fun e he => ?_, hbytes ▸ hs.cover, ?_⟩
  · obtain ⟨e', he', h1, h2⟩ := exists_of_view h he
    rw [← h1, ← h2]
    exact hs.le e' he'
  · obtain ⟨e, he, hlt, hpages⟩ := hs.surplus
    obtain ⟨e', he', h1, -⟩ := exists_of_view h.symm he
    exact ⟨e', he', by rwa [hbytes, h1], by rwa [hbytes, h1]⟩

theorem usedBytes_eq_zero (h : ∀ e ∈ hp, e.2.numPages socket = 0) : usedBytes hp socket = 0 := by
  rw [usedBytes, List.sum_eq_zero]
  intro x hx
  obtain ⟨e, he, rfl⟩ := List.mem_map.mp hx
  rw [h e he, Nat.mul_zero]

theorem usedPages_eq_zero (h : ∀ e ∈ hp, e.2.numPages socket = 0) : usedPages hp socket = 0 := by
  rw [usedPages, List.sum_eq_zero]
  intro x hx
  obtain ⟨e, he, rfl⟩ := List.mem_map.mp hx
  exact h e he

/-- Nothing is taken for an empty share. -/
theorem served_zero (hne : hp ≠ []) (hsizes : Sizes hp) (h : ∀ e ∈ hp, e.2.numPages socket = 0) :
    Served hp socket 0 := by
  obtain ⟨e, he⟩ := List.exists_mem_of_ne_nil hp hne
  have hbytes := usedBytes_eq_zero h
  refine ⟨fun e he => h e he ▸ Nat.zero_le _, Nat.zero_le _, e, he, ?_, fun hlt => ?_⟩
  · rw [hbytes, Nat.zero_add]
    exact (hsizes e he).1
  · omega

/-- Subtracting no more than there is. -/
theorem PageState.use_eq {st : PageState} {pages curMem : Nat} (h : curMem ≤ st.memory)
    (hle : st.memory ≤ st.totalMem) (htot : st.totalMem < 2 ^ 64) (hb : st.borrowed = false) :
    st.use pages curMem = ⟨st.memory - curMem, st.totalMem - curMem,
      st.totalNumPages + BitVec.ofNat 32 pages, false⟩ := by
  rw [PageState.use, Word.sub_eq h (by omega), Word.sub_eq (by omega) htot, hb,
    decide_eq_false (show ¬st.memory < curMem by omega),
    decide_eq_false (show ¬st.totalMem < curMem by omega)]
  rfl

theorem sizeLoop_of_zero (st : PageState) (h : st.memory = 0) : sizeLoop socket hp st = (hp, st) := by
  cases hp with
  | nil => rfl
  | cons e rest => rw [sizeLoop, if_pos h]

/-- What one pass over the sizes does for a share that the socket has memory for. -/
structure Picked (socket : Socket) (hp : List Entry) (st : PageState) (hp' : List Entry)
    (st' : PageState) : Prop where
  memory : st'.memory = 0
  totalMem : st'.totalMem = st.totalMem - st.memory
  borrowed : st'.borrowed = false
  pages : st'.totalNumPages = st.totalNumPages + BitVec.ofNat 32 (usedPages hp' socket)
  infos : hp'.map Prod.fst = hp.map Prod.fst
  sizes : Sizes hp'
  frame : ∀ t, t ≠ socket → view hp' t = view hp t
  served : Served hp' socket st.memory

/-- The pages of the first size, and what the rest of the pass picks. -/
theorem Picked.cons {info used used' : HugepageInfo} {rest rest' : List Entry} {st st' : PageState}
    {pages : Nat} (hb : st'.borrowed = false) (hmem : st'.memory = 0)
    (htot : st'.totalMem = st.totalMem - st.memory)
    (hpages : st'.totalNumPages =
      st.totalNumPages + BitVec.ofNat 32 (pages + usedPages rest' socket))
    (hsz : 0 < info.hugepageSz ∧ used'.hugepageSz = info.hugepageSz ∧ ∀ s, info.numPages s < 2 ^ 32)
    (hused : used'.numPages = Function.update used.numPages socket pages)
    (hinfos : rest'.map Prod.fst = rest.map Prod.fst) (hsizes : Sizes rest')
    (hframe : ∀ t, t ≠ socket → view rest' t = view rest t) (hle : pages ≤ info.numPages socket)
    (hrest : ∀ e ∈ rest', e.2.numPages socket ≤ e.1.numPages socket)
    (hcover : st.memory ≤ info.hugepageSz * pages + usedBytes rest' socket)
    (hsurplus : ∃ e ∈ (info, used') :: rest',
      info.hugepageSz * pages + usedBytes rest' socket < st.memory + e.1.hugepageSz ∧
        (st.memory < info.hugepageSz * pages + usedBytes rest' socket → 0 < e.1.numPages socket)) :
    Picked socket ((info, used) :: rest) st ((info, used') :: rest') st' := by
  have hself : used'.numPages socket = pages := by rw [hused, Function.update_self]
  have hp : usedPages ((info, used') :: rest') socket = pages + usedPages rest' socket :=
    congrArg (· + usedPages rest' socket) hself
  have hbytes : usedBytes ((info, used') :: rest') socket =
      info.hugepageSz * pages + usedBytes rest' socket :=
    congrArg (info.hugepageSz * · + usedBytes rest' socket) hself
  refine ⟨hmem, htot, hb, hp ▸ hpages, by rw [List.map_cons, List.map_cons, hinfos], ?_, fun t ht => ?_,
    ?_, ?_, ?_⟩
  · intro e he
    rcases List.mem_cons.mp he with rfl | he
    · exact hsz
    · exact hsizes e he
  · have hother : used'.numPages t = used.numPages t := by rw [hused, Function.update_of_ne ht]
    exact congrArg₂ (fun n l => (info, n) :: l) hother (hframe t ht)
  · intro e he
    rcases List.mem_cons.mp he with rfl | he
    · exact hself ▸ hle
    · exact hrest e he
  · rw [hbytes]
    exact hcover
  · rw [hbytes]
    exact hsurplus

theorem sizeLoop_spec : ∀ {hp : List Entry} {st : PageState}, Sizes hp →
    (∀ e ∈ hp, e.2.numPages socket = 0) → sumBytes (hp.map Prod.fst) socket < 2 ^ 64 →
    0 < st.memory → st.memory ≤ sumBytes (hp.map Prod.fst) socket → st.memory ≤ st.totalMem →
    st.totalMem < 2 ^ 64 → st.borrowed = false →
    Picked socket hp st (sizeLoop socket hp st).1 (sizeLoop socket hp st).2
  | [], st, _, _, _, hpos, hle, _, _, _ => absurd hle (Nat.not_le.mpr hpos)
  | (info, used) :: rest, st, hsizes, hzero, hfit, hpos, hle, htot, h64, hb => by
    obtain ⟨hsz, husz, h32⟩ := hsizes (info, used) List.mem_cons_self
    have hrsizes : Sizes rest := fun e he => hsizes e (List.mem_cons_of_mem _ he)
    have hrzero : ∀ e ∈ rest, e.2.numPages socket = 0 := fun e he =>
      hzero e (List.mem_cons_of_mem _ he)
    rw [List.map_cons, sumBytes_cons] at hfit hle
    dsimp only at hsz husz h32 hfit hle
    -- `n` whole pages of this size
    obtain ⟨n, hn⟩ : ∃ n, n = min (st.memory / info.hugepageSz) (info.numPages socket) := ⟨_, rfl⟩
    have hnc : n ≤ info.numPages socket := hn ▸ Nat.min_le_right _ _
    have hmul : info.hugepageSz * n ≤ st.memory :=
      (Nat.mul_le_mul_left _ (hn ▸ Nat.min_le_left _ _)).trans (Nat.mul_div_le _ _)
    have hcur : Word.mul 64 n info.hugepageSz = info.hugepageSz * n := by
      rw [Nat.mul_comm, Word.mul_eq (by rw [Nat.mul_comm]; omega), Nat.mul_comm]
    have hlast : n < info.numPages socket → st.memory < info.hugepageSz * (n + 1) := by
      intro hlt
      have hdiv : n = st.memory / info.hugepageSz := by omega
      rw [hdiv]
      exact Nat.lt_mul_div_succ st.memory hsz
    rw [Nat.mul_succ] at hlast
    have hfull : n = info.numPages socket → info.hugepageSz * info.numPages socket =
        info.hugepageSz * n := fun h => h ▸ rfl
    have hrem : remainingMem socket rest = sumBytes (rest.map Prod.fst) socket := by
      rw [remainingMem, foldl_addPages _ _ _ (by omega), Nat.zero_add]
    have huse : st.use n (info.hugepageSz * n) = ⟨st.memory - info.hugepageSz * n,
        st.totalMem - info.hugepageSz * n, st.totalNumPages + BitVec.ofNat 32 n, false⟩ :=
      PageState.use_eq hmul htot h64 hb
    have hrbytes := usedBytes_eq_zero hrzero
    have hrpages := usedPages_eq_zero hrzero
    rw [sizeLoop, if_neg (by omega)]
    simp only [HugepageInfo.setPages, ← hn, husz, hcur, huse, hrem]
    split_ifs with hdone hextra
    · -- the share is met exactly
      refine Picked.cons rfl hdone ?_ ?_ ⟨hsz, rfl, h32⟩ rfl rfl hrsizes (fun _ _ => rfl) hnc
        (fun e he => hrzero e he ▸ Nat.zero_le _) ?_ ⟨_, List.mem_cons_self, ?_⟩
      · dsimp only
        omega
      · rw [hrpages, Nat.add_zero]
      · omega
      · dsimp only
        rw [hrbytes]
        omega
    · -- the sizes left cannot meet it
      have hlt := hlast (by omega)
      have hone : Word.add 32 n 1 = n + 1 := Word.add_eq (by have := h32 socket; omega)
      have hmin : min (st.memory - info.hugepageSz * n) info.hugepageSz =
          st.memory - info.hugepageSz * n := Nat.min_eq_left (by omega)
      rw [hmin, PageState.use_eq (Nat.le_refl _) (by dsimp only; omega) (by dsimp only; omega) rfl, hone]
      have hnext : info.hugepageSz * (n + 1) = info.hugepageSz * n + info.hugepageSz := Nat.mul_succ _ _
      refine Picked.cons rfl (Nat.sub_self _) ?_ ?_ ⟨hsz, rfl, h32⟩ (Function.update_idem _ _ _) rfl
        hrsizes (fun _ _ => rfl) (by omega) (fun e he => hrzero e he ▸ Nat.zero_le _) ?_
        ⟨_, List.mem_cons_self, ?_⟩
      · dsimp only
        omega
      · dsimp only
        rw [hrpages, Nat.add_zero, BitVec.ofNat_add, BitVec.add_assoc]
      · omega
      · dsimp only
        rw [hrbytes]
        omega
    · have hrest : st.memory - info.hugepageSz * n ≤ sumBytes (rest.map Prod.fst) socket := by
        by_cases hall : n = info.numPages socket
        · have := hfull hall
          omega
        · exact Nat.le_of_not_lt fun h => hextra ⟨hall, h⟩
      have ih : Picked socket rest ⟨st.memory - info.hugepageSz * n, st.totalMem - info.hugepageSz * n,
          st.totalNumPages + BitVec.ofNat 32 n, false⟩ _ _ :=
        sizeLoop_spec hrsizes hrzero (by omega) (by dsimp only; omega) hrest (by dsimp only; omega)
          (by dsimp only; omega) rfl
      have hcover := ih.served.cover
      obtain ⟨e, he, hsur, hav⟩ := ih.served.surplus
      have hmem := ih.totalMem
      dsimp only at hcover hsur hav hmem
      refine Picked.cons ih.borrowed ih.memory ?_ ?_ ⟨hsz, rfl, h32⟩ rfl ih.infos ih.sizes ih.frame
        hnc ih.served.le ?_ ⟨e, List.mem_cons_of_mem _ he, ?_, fun hlt => hav ?_⟩
      · dsimp only
        omega
      · rw [ih.pages, BitVec.ofNat_add, BitVec.add_assoc]
      · omega
      · omega
      · omega

/-- What the loop over the sockets does for shares that the sockets have memory for. -/
structure PickedAll (sockets : List Socket) (st st' : NumPages) : Prop where
  totalMem : st'.totalMem + (sockets.map st.memory).sum = st.totalMem
  borrowed : st'.borrowed = false
  pages : st'.totalNumPages =
    st.totalNumPages + BitVec.ofNat 32 (sockets.map (usedPages st'.hp)).sum
  infos : st'.hp.map Prod.fst = st.hp.map Prod.fst
  frame : ∀ t, t ∉ sockets → view st'.hp t = view st.hp t
  served : ∀ s ∈ sockets, Served st'.hp s (st.memory s)

/-- Nothing happens for empty shares. -/
theorem PickedAll.refl {sockets : List Socket} {st : NumPages} (hne : st.hp ≠ [])
    (hsizes : Sizes st.hp) (hzero : ∀ s ∈ sockets, ∀ e ∈ st.hp, e.2.numPages s = 0)
    (hb : st.borrowed = false) (h : ∀ s ∈ sockets, st.memory s = 0) : PickedAll sockets st st := by
  refine ⟨?_, hb, ?_, rfl, fun _ _ => rfl, fun s hs => h s hs ▸ served_zero hne hsizes (hzero s hs)⟩
  · rw [List.sum_eq_zero, Nat.add_zero]
    intro x hx
    obtain ⟨s, hs, rfl⟩ := List.mem_map.mp hx
    exact h s hs
  · have hpages : (sockets.map (usedPages st.hp)).sum = 0 := by
      rw [List.sum_eq_zero]
      intro x hx
      obtain ⟨s, hs, rfl⟩ := List.mem_map.mp hx
      exact usedPages_eq_zero (hzero s hs)
    rw [hpages]
    exact (BitVec.add_zero _).symm

/-- One socket more. -/
theorem PickedAll.cons {s : Socket} {rest : List Socket} {st st' : NumPages} {hp : List Entry}
    {ps : PageState} (hnot : s ∉ rest) (hle : st.memory s ≤ st.totalMem)
    (hpick : Picked s st.hp ⟨st.memory s, st.totalMem, st.totalNumPages, st.borrowed⟩ hp ps)
    (h : PickedAll rest ⟨Function.update st.memory s ps.memory, ps.totalMem, ps.totalNumPages,
      ps.borrowed, hp⟩ st') : PickedAll (s :: rest) st st' := by
  have hmem : ∀ t ∈ rest, Function.update st.memory s ps.memory t = st.memory t := fun t ht =>
    Function.update_of_ne (fun he : t = s => hnot (he ▸ ht)) _ _
  have hview := h.frame s hnot
  have htot := h.totalMem
  have hptot := hpick.totalMem
  dsimp only at hview htot hptot
  refine ⟨?_, h.borrowed, ?_, h.infos.trans hpick.infos, fun t ht => ?_, fun t ht => ?_⟩
  · rw [List.map_congr_left hmem] at htot
    rw [List.map_cons, List.sum_cons]
    omega
  · have hused : usedPages st'.hp s = usedPages hp s := by rw [usedPages_eq, usedPages_eq, hview]
    rw [h.pages, hpick.pages, List.map_cons, List.sum_cons, hused, BitVec.ofNat_add, BitVec.add_assoc]
  · rw [List.mem_cons, not_or] at ht
    exact (h.frame t ht.2).trans (hpick.frame t ht.1)
  · rcases List.mem_cons.mp ht with rfl | ht
    · exact hpick.served.congr hview
    · have hserved := h.served t ht
      dsimp only at hserved
      rwa [hmem t ht] at hserved

theorem socketLoop_spec : ∀ {sockets : List Socket} {st : NumPages}, sockets.Nodup → st.hp ≠ [] →
    Sizes st.hp → (∀ s ∈ sockets, ∀ e ∈ st.hp, e.2.numPages s = 0) →
    (∀ s, sumBytes (st.hp.map Prod.fst) s < 2 ^ 64) →
    (∀ s ∈ sockets, st.memory s ≤ sumBytes (st.hp.map Prod.fst) s) →
    (sockets.map st.memory).sum ≤ st.totalMem → st.totalMem < 2 ^ 64 → st.borrowed = false →
    (socketLoop sockets st).2 = false ∧ PickedAll sockets st (socketLoop sockets st).1
  | [], st, _, hne, hsizes, hzero, _, _, _, _, hb =>
    ⟨rfl, PickedAll.refl hne hsizes hzero hb fun s hs => absurd hs List.not_mem_nil⟩
  | s :: rest, st, hnodup, hne, hsizes, hzero, hfit, hshare, hsum, h64, hb => by
    obtain ⟨hs, hrest⟩ := List.nodup_cons.mp hnodup
    rw [List.map_cons, List.sum_cons] at hsum
    rw [socketLoop]
    split
    · -- every share left is empty
      refine ⟨rfl, PickedAll.refl hne hsizes hzero hb fun t ht => ?_⟩
      have hle := List.single_le_sum (l := (s :: rest).map st.memory) (fun _ _ => Nat.zero_le _)
        (st.memory t) (List.mem_map_of_mem ht)
      rw [List.map_cons, List.sum_cons] at hle
      omega
    have hpick : Picked s st.hp ⟨st.memory s, st.totalMem, st.totalNumPages, st.borrowed⟩
        (sizeLoop s st.hp ⟨st.memory s, st.totalMem, st.totalNumPages, st.borrowed⟩).1
        (sizeLoop s st.hp ⟨st.memory s, st.totalMem, st.totalNumPages, st.borrowed⟩).2 := by
      have hz := hzero s List.mem_cons_self
      rcases Nat.eq_zero_or_pos (st.memory s) with h0 | hpos
      · rw [sizeLoop_of_zero _ h0]
        refine ⟨h0, ?_, hb, ?_, rfl, hsizes, fun _ _ => rfl, ?_⟩
        · dsimp only
          omega
        · rw [usedPages_eq_zero hz]
          exact (BitVec.add_zero _).symm
        · dsimp only
          rw [h0]
          exact served_zero hne hsizes hz
      · exact sizeLoop_spec hsizes hz (hfit s) hpos (hshare s List.mem_cons_self)
          (by dsimp only; omega) h64 hb
    generalize hr : sizeLoop s st.hp ⟨st.memory s, st.totalMem, st.totalNumPages, st.borrowed⟩ = r
      at hpick
    have hdone : ¬0 < r.2.memory := by
      rw [hpick.memory]
      exact Nat.lt_irrefl 0
    have hmem : ∀ t ∈ rest, Function.update st.memory s r.2.memory t = st.memory t := fun t ht =>
      Function.update_of_ne (fun he : t = s => hs (he ▸ ht)) _ _
    have hptot := hpick.totalMem
    dsimp only at hptot ⊢
    rw [if_neg hdone]
    have hinfos := hpick.infos
    have hne' : r.1 ≠ [] := fun hnil => hne (List.map_eq_nil_iff.mp (by rw [← hinfos, hnil, List.map_nil]))
    have hzero' : ∀ t ∈ rest, ∀ e ∈ r.1, e.2.numPages t = 0 := fun t ht e he => by
      obtain ⟨e', he', -, heq⟩ := exists_of_view (hpick.frame t fun h : t = s => hs (h ▸ ht)) he
      rw [← heq]
      exact hzero t (List.mem_cons_of_mem _ ht) e' he'
    have hshare' : ∀ t ∈ rest,
        Function.update st.memory s r.2.memory t ≤ sumBytes (r.1.map Prod.fst) t := fun t ht => by
      rw [hmem t ht, hinfos]
      exact hshare t (List.mem_cons_of_mem _ ht)
    have hsum' : (rest.map (Function.update st.memory s r.2.memory)).sum ≤ r.2.totalMem := by
      rw [List.map_congr_left hmem]
      omega
    have ih := @socketLoop_spec rest ⟨Function.update st.memory s r.2.memory, r.2.totalMem,
      r.2.totalNumPages, r.2.borrowed, r.1⟩ hrest hne' hpick.sizes hzero'
      (fun t => by dsimp only; rw [hinfos]; exact hfit t) hshare' hsum' (by dsimp only; omega)
      hpick.borrowed
    exact ⟨ih.1, PickedAll.cons hs (by omega) hpick ih.2⟩

end

/-! ## The whole function -/

/-- Without a request for each socket, and with products that fit their words. -/
structure Request (cfg : InternalConfig) (lc : LcoreConfig) : Prop where
  force : cfg.forceSockets = 0
  sizes : ∀ info ∈ cfg.hugepageInfo, 0 < info.hugepageSz
  nonempty : cfg.hugepageInfo ≠ []
  pages : ∀ info ∈ cfg.hugepageInfo, ∀ s, info.numPages s < 2 ^ 32
  memory : cfg.memory < 2 ^ 64
  product : ∀ s, cfg.memory * cpuPerSocket lc s < 2 ^ 64
  fit : ∀ s, sumBytes cfg.hugepageInfo s < 2 ^ 64
  count : lc.lcoreCount = (lcoreForeach lc).length
  lcores : 1 ≤ lc.lcoreCount

section

variable {cfg : InternalConfig} {lc : LcoreConfig}

theorem initEntries_fst (cfg : InternalConfig) : (initEntries cfg).map Prod.fst = cfg.hugepageInfo := by
  rw [initEntries, List.map_map]
  exact List.map_id _

/-- The call, once the shares are known. -/
theorem calcNumPages_eq (h : Request cfg lc) : ∃ st : NumPages,
    calcNumPagesPerSocket cfg lc (fun _ => 0) (initEntries cfg) =
      (if cfg.memory ≤ ∑ s, getSocketMemSize cfg s then st.totalNumPages.toInt else -1, st) ∧
    PickedAll (List.finRange _) ⟨(shares cfg lc fun _ => 0).memory, cfg.memory, 0,
      (shares cfg lc fun _ => 0).borrowed, initEntries cfg⟩ st := by
  have hsize : ∀ s, getSocketMemSize cfg s < 2 ^ 64 := fun s =>
    (getSocketMemSize_le (h.fit s)).trans_lt (h.fit s)
  obtain ⟨hshared, -⟩ := shares_spec h.force h.memory h.product hsize h.count h.lcores
  have hleft := shares_totalSize h.force h.memory h.product hsize h.count h.lcores
  have hsum := hshared.sum
  have hne : initEntries cfg ≠ [] := fun hnil => h.nonempty (by rw [← initEntries_fst, hnil, List.map_nil])
  have hsizes : Sizes (initEntries cfg) := by
    intro e he
    obtain ⟨info, hinfo, rfl⟩ := List.mem_map.mp he
    exact ⟨h.sizes info hinfo, rfl, h.pages info hinfo⟩
  have hzero : ∀ s ∈ List.finRange rteMaxNumaNodes, ∀ e ∈ initEntries cfg, e.2.numPages s = 0 := by
    intro s _ e he
    obtain ⟨info, -, rfl⟩ := List.mem_map.mp he
    rfl
  rw [Fin.sum_univ_def] at hsum
  obtain ⟨hok, hpicked⟩ := @socketLoop_spec (List.finRange _) ⟨(shares cfg lc fun _ => 0).memory,
    cfg.memory, 0, (shares cfg lc fun _ => 0).borrowed, initEntries cfg⟩ (List.nodup_finRange _) hne
    hsizes hzero (fun s => by dsimp only; rw [initEntries_fst]; exact h.fit s)
    (fun s _ => by
      dsimp only
      rw [initEntries_fst]
      exact (hshared.le s).trans (getSocketMemSize_le (h.fit s)))
    (by dsimp only; omega) h.memory hshared.borrowed
  refine ⟨_, ?_, hpicked⟩
  have htot := hpicked.totalMem
  dsimp only at htot
  rw [calcNumPagesPerSocket, if_neg (by rwa [List.isEmpty_iff])]
  dsimp only
  rw [hok, if_neg Bool.false_ne_true]
  by_cases hall : cfg.memory ≤ ∑ s, getSocketMemSize cfg s
  · rw [if_pos hall, if_neg (by omega)]
  · rw [if_neg hall, if_pos (by omega)]

/-- No more pages are taken than there are. -/
theorem usedPages_le {hp : List Entry} {socket : Socket}
    (h : ∀ e ∈ hp, e.2.numPages socket ≤ e.1.numPages socket) :
    usedPages hp socket ≤ ((hp.map Prod.fst).map (·.numPages socket)).sum := by
  rw [usedPages, List.map_map]
  exact List.sum_le_sum h

/-- **Hugepages are chosen exactly.** The call fails when the mounted sizes have less memory than requested.
Otherwise every socket's pages cover its share with less than a page to spare; the value returned is
their number, in an `int`. -/
theorem calcNumPages_exact {cfg : InternalConfig} {lc : LcoreConfig} (h : Request cfg lc) :
    let r := calcNumPagesPerSocket cfg lc (fun _ => 0) (initEntries cfg)
    let share := (shares cfg lc fun _ => 0).memory
    r.2.borrowed = false ∧
    (∑ s, mountedBytes cfg s < cfg.memory → r.1 = -1) ∧
    (cfg.memory ≤ ∑ s, mountedBytes cfg s →
      r.1 = (BitVec.ofNat 32 (∑ s, usedPages r.2.hp s)).toInt ∧
      r.2.hp.map Prod.fst = cfg.hugepageInfo ∧ ∑ s, share s = cfg.memory ∧
      ∀ s, Served r.2.hp s (share s)) ∧
    (∑ s, (cfg.hugepageInfo.map (·.numPages s)).sum < 2 ^ 31 →
      (0 ≤ r.1 ↔ cfg.memory ≤ ∑ s, mountedBytes cfg s) ∧
      (0 ≤ r.1 → r.1 = ∑ s, usedPages r.2.hp s)) := by
  obtain ⟨st, hcode, hpicked⟩ := calcNumPages_eq h
  have hsize : ∀ s, getSocketMemSize cfg s < 2 ^ 64 := fun s =>
    (getSocketMemSize_le (h.fit s)).trans_lt (h.fit s)
  obtain ⟨hshared, -⟩ := shares_spec h.force h.memory h.product hsize h.count h.lcores
  have hleft := shares_totalSize h.force h.memory h.product hsize h.count h.lcores
  have hsum := hshared.sum
  have hserved : ∀ s, Served st.hp s ((shares cfg lc fun _ => 0).memory s) := fun s =>
    hpicked.served s (List.mem_finRange s)
  have hinfos : st.hp.map Prod.fst = cfg.hugepageInfo := hpicked.infos.trans (initEntries_fst cfg)
  have hpages : st.totalNumPages = BitVec.ofNat 32 (∑ s, usedPages st.hp s) := by
    rw [hpicked.pages, Fin.sum_univ_def]
    exact BitVec.zero_add _
  have havail : ∀ s, getSocketMemSize cfg s = mountedBytes cfg s := fun s => getSocketMemSize_eq (h.fit s)
  simp only [havail] at hcode hleft
  rw [hcode]
  dsimp only
  refine ⟨hpicked.borrowed, fun hlt => if_neg (Nat.not_le.mpr hlt), fun hle => ?_, fun hoffer => ?_⟩
  · exact ⟨by rw [if_pos hle, hpages], hinfos, by omega, hserved⟩
  · have hused : ∑ s, usedPages st.hp s < 2 ^ 31 :=
      (Finset.sum_le_sum fun s _ => hinfos ▸ usedPages_le (hserved s).le).trans_lt hoffer
    have hint : st.totalNumPages.toInt = ∑ s, usedPages st.hp s := by
      have hnat : (BitVec.ofNat 32 (∑ s, usedPages st.hp s)).toNat = ∑ s, usedPages st.hp s := by
        rw [BitVec.toNat_ofNat, Nat.mod_eq_of_lt (by omega)]
      rw [hpages, BitVec.toInt_eq_toNat_of_lt (by omega), hnat]
    rw [hint]
    split_ifs with hall
    · exact ⟨⟨fun _ => hall, fun _ => Int.natCast_nonneg _⟩, fun _ => rfl⟩
    · exact ⟨⟨fun hneg => absurd hneg (by decide), fun h => absurd h hall⟩,
        fun hneg => absurd hneg (by decide)⟩

end

/-- Two sizes: ten pages of 2 MB on the first socket and one page of 1 GB on the second. -/
def twoSizes : InternalConfig where
  memory := 2 ^ 25
  forceSockets := 0
  hugepageInfo := [⟨2 ^ 30, some "/mnt/huge1G", fun s => if s.val = 1 then 1 else 0⟩,
    ⟨2 ^ 21, some "/mnt/huge", fun s => if s.val = 0 then 10 else 0⟩]

/-- One lcore on each of two sockets. -/
def twoLcores : LcoreConfig :=
  ⟨fun i => i < 2, fun i => if i = 0 then ⟨0, by decide⟩ else ⟨1, by decide⟩, 2⟩

/-- 32 MB take eight pages of one socket and the big page of the other. -/
theorem calcNumPages_exact_twoSizes :
    0 ≤ (calcNumPagesPerSocket twoSizes twoLcores (fun _ => 0) (initEntries twoSizes)).1 := by
  have hreq : Request twoSizes twoLcores :=
    ⟨rfl, by decide, by decide, by decide, by decide, by decide, by decide, by decide, by decide⟩
  exact ((calcNumPages_exact hreq).2.2.2 (by decide)).1.mpr (by decide)

/-- Pages of one byte, `2 ^ 31` of them on each socket. -/
def tinyPages : InternalConfig where
  memory := 2 ^ 31
  forceSockets := 0
  hugepageInfo := [⟨1, some "/mnt/huge", fun _ => 2 ^ 31⟩]

def oneLcore : LcoreConfig := ⟨fun i => i = 0, fun _ => ⟨0, by decide⟩, 1⟩

/-- There are enough of them, and their number is negative as an `int`. -/
theorem not_calcNumPages_exact : Request tinyPages oneLcore ∧
    tinyPages.memory ≤ ∑ s, mountedBytes tinyPages s ∧
      (calcNumPagesPerSocket tinyPages oneLcore (fun _ => 0) (initEntries tinyPages)).1 = -(2 ^ 31) := by
  have hreq : Request tinyPages oneLcore :=
    ⟨rfl, by decide, by decide, by decide, by decide, by decide, by decide, by decide, by decide⟩
  exact ⟨hreq, by decide, by decide⟩

end EalMemory
