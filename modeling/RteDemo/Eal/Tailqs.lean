import RteDemo.Common
import Mathlib.Data.Finset.Card
import Mathlib.Data.List.Nodup

/-!
# Tail queues shared by name

A library registers a tail queue by name; the primary process creates its head in a table in shared
memory, and a secondary finds the head there by the name. `eal_common_tailqs.c` compares names over 32
bytes in the local list and over 31 in the table, where it has stored at most 30.

The processes agree exactly when no name is longer than that (`tailqs_agree_iff`).
-/

namespace EalTailqs

open RteDemo

/-- `RTE_TAILQ_NAMESIZE` -/
@[simp] def rteTailqNamesize : Nat := 32
/-- `RTE_MAX_TAILQ` -/
@[simp] def rteMaxTailq : Nat := 32

/-- A string by its bytes before the terminator. -/
structure CString where
  bytes : List UInt8
  noNul : 0 ∉ bytes
  deriving DecidableEq

namespace CString

def empty : CString := ⟨[], List.not_mem_nil⟩

def length (s : CString) : Nat := s.bytes.length

/-- The string that `snprintf` with `"%s"` writes into `n + 1` bytes. -/
def trunc (n : Nat) (s : CString) : CString := ⟨s.bytes.take n, fun h => s.noNul (List.mem_of_mem_take h)⟩

theorem ext {s t : CString} (h : s.bytes = t.bytes) : s = t := by
  cases s
  cases t
  cases h
  rfl

theorem trunc_eq {n : Nat} {s : CString} (h : s.length ≤ n) : s.trunc n = s :=
  ext (List.take_of_length_le h)

theorem length_trunc_le (n : Nat) (s : CString) : (s.trunc n).length ≤ n := List.length_take_le n s.bytes

end CString

/-- `strncmp(s, t, n) == 0`; the ends of the lists stand for the terminators. -/
def strncmpEqual : List UInt8 → List UInt8 → Nat → Bool
  | _, _, 0 => true
  | [], [], _ + 1 => true
  | a :: s, b :: t, n + 1 => a == b && strncmpEqual s t n
  | _, _, _ + 1 => false

/-- `struct rte_tailq_head` -/
structure RteTailqHead where
  tailqHead : List Nat
  name : CString

/-- `mcfg->tailq_head`; a head is its index. -/
abbrev Table := Fin rteMaxTailq → RteTailqHead

/-- A `struct rte_tailq_elem *`. -/
abbrev Elem := Nat

/-- The static variables of a process: the local list, `rte_tailqs_count`, and the `head` field of the
elements. -/
structure Process where
  isPrimary : Bool
  elemHead : List Elem
  tailqsCount : Int
  head : Elem → Option (Fin rteMaxTailq)

/-- A process and the shared table. -/
structure Sys where
  proc : Process
  table : Table

/-- `rte_eal_tailq_lookup` -/
def rteEalTailqLookup (table : Table) (name : Option CString) : Option (Fin rteMaxTailq) :=
  match name with
  | none => none
  | some name => (List.finRange rteMaxTailq).find? fun i =>
      strncmpEqual name.bytes (table i).name.bytes (rteTailqNamesize - 1)

/-- `rte_eal_tailq_create` -/
def rteEalTailqCreate (name : CString) (s : Sys) : Option (Fin rteMaxTailq) × Sys :=
  if h : rteEalTailqLookup s.table (some name) = none ∧ s.proc.tailqsCount + 1 < rteMaxTailq then
    let head : Fin rteMaxTailq := ⟨s.proc.tailqsCount.toNat, by have := h.2; simp at this ⊢; omega⟩
    (some head,
      { proc := { s.proc with tailqsCount := s.proc.tailqsCount + 1 }
        table := Function.update s.table head ⟨[], name.trunc (rteTailqNamesize - 2)⟩ })
  else (none, s)

def Process.setHead (p : Process) (t : Elem) (head : Option (Fin rteMaxTailq)) : Process :=
  { p with head := Function.update p.head t head }

section

-- the `name` field of each element
variable (name : Elem → CString)

/-- `rte_eal_tailq_local_register`; the result is `0` or `-1`. -/
def rteEalTailqLocalRegister (t : Elem) (p : Process) : Int × Process :=
  if p.elemHead.any fun temp => strncmpEqual (name t).bytes (name temp).bytes rteTailqNamesize then (-1, p)
  else (0, { p with elemHead := p.elemHead ++ [t] })

/-- `rte_eal_tailq_update` -/
def rteEalTailqUpdate (t : Elem) (s : Sys) : Sys :=
  if s.proc.isPrimary then
    let r := rteEalTailqCreate (name t) s
    ⟨r.2.proc.setHead t r.1, r.2.table⟩
  else ⟨s.proc.setHead t (rteEalTailqLookup s.table (some (name t))), s.table⟩

/-- `rte_eal_tailq_register` -/
def rteEalTailqRegister (t : Elem) (s : Sys) : Int × Sys :=
  let r := rteEalTailqLocalRegister name t s.proc
  if r.1 < 0 then (-1, ⟨r.2.setHead t none, s.table⟩)
  else if 0 ≤ r.2.tailqsCount then
    let s := rteEalTailqUpdate name t ⟨r.2, s.table⟩
    if s.proc.head t = none then
      (-1, ⟨{ s.proc with elemHead := s.proc.elemHead.erase t }.setHead t none, s.table⟩)
    else (0, s)
  else (0, ⟨r.2, s.table⟩)

/-- The loop of `rte_eal_tailqs_init` over the elements from `t` on. -/
def initLoop : List Elem → Sys → Int × Sys
  | [], s => (0, s)
  | t :: rest, s =>
    if (rteEalTailqUpdate name t s).proc.head t = none then (-1, rteEalTailqUpdate name t s)
    else initLoop rest (rteEalTailqUpdate name t s)

/-- `rte_eal_tailqs_init` -/
def rteEalTailqsInit (s : Sys) : Int × Sys :=
  initLoop name s.proc.elemHead ⟨{ s.proc with tailqsCount := 0 }, s.table⟩

/-! ## Runs of the primary process -/

/-- One registration after the other. -/
def registerAll (l : List Elem) (s : Sys) : Sys := l.foldl (fun s t => (rteEalTailqRegister name t s).2) s

/-- The primary process at its start, with the table zero-filled. -/
def start : Sys := ⟨⟨true, [], -1, fun _ => none⟩, fun _ => ⟨[], CString.empty⟩⟩

/-- After the registrations before `rte_eal_tailqs_init`, and that call. -/
def afterInit (early : List Elem) : Sys := (rteEalTailqsInit name (registerAll name early start)).2

/-- After the later registrations too. -/
def afterAll (early late : List Elem) : Sys := registerAll name late (afterInit name early)

/-- What `rte_eal_tailq_lookup` finds at the end, in any process. -/
def found (early late : List Elem) (t : Elem) : Option (Fin rteMaxTailq) :=
  rteEalTailqLookup (afterAll name early late).table (some (name t))

/-- A call of `rte_eal_tailq_register` after the elements `done`: a new name is taken, and a name
registered before is refused and changes neither the list nor the table. -/
def CallOK (done : List Elem) (t : Elem) (s : Sys) : Prop :=
  (name t ∉ done.map name → (rteEalTailqRegister name t s).1 = 0) ∧
  (name t ∈ done.map name → (rteEalTailqRegister name t s).1 = -1 ∧
    (rteEalTailqRegister name t s).2.proc.elemHead = s.proc.elemHead ∧
    (rteEalTailqRegister name t s).2.table = s.table)

/-- The processes agree on the tail queues of a run. -/
structure Agree (early late : List Elem) : Prop where
  init : (rteEalTailqsInit name (registerAll name early start)).1 = 0
  /-- Every name registered is found, and different names at different heads. -/
  found : ∀ t ∈ early ++ late, ∃ i, found name early late t = some i
  injective : ∀ t ∈ early ++ late, ∀ u ∈ early ++ late,
    EalTailqs.found name early late t = EalTailqs.found name early late u → name t = name u
  /-- The head that an element gets is the one found later. -/
  earlyCall : ∀ l₁ t l₂, early = l₁ ++ t :: l₂ → CallOK name l₁ t (registerAll name l₁ start)
  earlyHead : ∀ t ∈ (registerAll name early start).proc.elemHead,
    (afterInit name early).proc.head t = EalTailqs.found name early late t
  lateCall : ∀ l₁ t l₂, late = l₁ ++ t :: l₂ → CallOK name (early ++ l₁) t (afterAll name early l₁)
  lateHead : ∀ l₁ t l₂, late = l₁ ++ t :: l₂ → name t ∉ (early ++ l₁).map name →
    (rteEalTailqRegister name t (afterAll name early l₁)).2.proc.head t =
      EalTailqs.found name early late t
  /-- A secondary process that registers the name gets that head too, and writes nothing. -/
  secondary : ∀ (p : Process) (name' : Elem → CString) (u : Elem), p.isPrimary = false →
    0 ≤ p.tailqsCount →
    (∀ temp ∈ p.elemHead, strncmpEqual (name' u).bytes (name' temp).bytes rteTailqNamesize = false) →
    ∀ t ∈ early ++ late, name' u = name t → ∃ p',
      rteEalTailqRegister name' u ⟨p, (afterAll name early late).table⟩ =
        (0, ⟨p', (afterAll name early late).table⟩) ∧ p'.head u = EalTailqs.found name early late t

end

/-! ## Comparing names -/

theorem strncmpEqual_iff : ∀ {s t : List UInt8} {n : Nat},
    strncmpEqual s t n = true ↔ s.take n = t.take n
  | s, t, 0 => by simp [strncmpEqual]
  | [], [], n + 1 => by simp [strncmpEqual]
  | a :: s, b :: t, n + 1 => by
    rw [strncmpEqual, Bool.and_eq_true, beq_iff_eq, strncmpEqual_iff, List.take_succ_cons,
      List.take_succ_cons, List.cons.injEq]
  | [], b :: t, n + 1 => by simp [strncmpEqual]
  | a :: s, [], n + 1 => by simp [strncmpEqual]

/-- Strings that fit are compared whole. -/
theorem strncmpEqual_iff_eq {s t : CString} {n : Nat} (hs : s.length ≤ n) (ht : t.length ≤ n) :
    strncmpEqual s.bytes t.bytes n = true ↔ s = t := by
  rw [strncmpEqual_iff, List.take_of_length_le hs, List.take_of_length_le ht]
  exact ⟨CString.ext, congrArg _⟩

/-- A string with room for its terminator is compared whole with any other. -/
theorem strncmpEqual_iff_of_lt {s t : CString} {n : Nat} (ht : t.length < n) :
    strncmpEqual s.bytes t.bytes n = true ↔ s = t := by
  rw [strncmpEqual_iff, List.take_of_length_le ht.le]
  refine ⟨fun h => ?_, ?_⟩
  swap
  · rintro rfl
    exact List.take_of_length_le ht.le
  have hlen := congrArg List.length h
  rw [List.length_take] at hlen
  change min n s.bytes.length = t.length at hlen
  rw [List.take_of_length_le (by omega)] at h
  exact CString.ext h

/-- `l` is the names of the heads created so far, none of them cut. -/
structure Stored (table : Table) (l : List CString) : Prop where
  name : ∀ j : Fin rteMaxTailq, (table j).name = (l[j.val]?).getD CString.empty
  nodup : l.Nodup
  len : ∀ n ∈ l, 1 ≤ n.length ∧ n.length ≤ 30

namespace Stored

variable {table : Table} {l : List CString}

theorem length_name_le (h : Stored table l) (j : Fin rteMaxTailq) : (table j).name.length ≤ 30 := by
  rw [h.name]
  cases hj : l[j.val]? with
  | none => exact Nat.zero_le _
  | some n => exact (h.len n (List.mem_of_getElem? hj)).2

theorem lookup_iff (h : Stored table l) {n : CString} (hpos : 1 ≤ n.length) (hlen : n.length ≤ 31)
    (j : Fin rteMaxTailq) : rteEalTailqLookup table (some n) = some j ↔ l[j.val]? = some n := by
  have hcmp : ∀ i : Fin rteMaxTailq,
      strncmpEqual n.bytes (table i).name.bytes (rteTailqNamesize - 1) = true ↔ l[i.val]? = some n := by
    intro i
    have hcut : n.length ≤ rteTailqNamesize - 1 := hlen
    rw [strncmpEqual_iff_eq hcut ((h.length_name_le i).trans (by decide)), h.name]
    cases hi : l[i.val]? with
    | none => exact ⟨fun he => by rw [he] at hpos; exact absurd hpos (by decide), fun he => nomatch he⟩
    | some m => exact ⟨fun he => congrArg some he.symm, fun he => (Option.some.inj he).symm⟩
  rw [rteEalTailqLookup]
  constructor
  · intro hfind
    have hj := List.find?_some (p := fun i =>
      strncmpEqual n.bytes (table i).name.bytes (rteTailqNamesize - 1)) hfind
    exact (hcmp j).mp hj
  · intro hj
    cases hfind : (List.finRange rteMaxTailq).find? fun i =>
        strncmpEqual n.bytes (table i).name.bytes (rteTailqNamesize - 1) with
    | none => exact absurd ((hcmp j).mpr hj) (List.find?_eq_none.mp hfind j (List.mem_finRange j))
    | some i =>
      have hi := (hcmp i).mp (List.find?_some (p := fun i =>
        strncmpEqual n.bytes (table i).name.bytes (rteTailqNamesize - 1)) hfind)
      obtain ⟨hilt, hieq⟩ := List.getElem?_eq_some_iff.mp hi
      obtain ⟨hjlt, hjeq⟩ := List.getElem?_eq_some_iff.mp hj
      exact congrArg some (Fin.ext ((h.nodup.getElem_inj_iff).mp (hieq.trans hjeq.symm)))

theorem lookup_none (h : Stored table l) {n : CString} (hpos : 1 ≤ n.length) (hlen : n.length ≤ 31)
    (hn : n ∉ l) : rteEalTailqLookup table (some n) = none := by
  cases hfind : rteEalTailqLookup table (some n) with
  | none => rfl
  | some j => exact absurd (List.mem_of_getElem? ((h.lookup_iff hpos hlen j).mp hfind)) hn

theorem lookup_some (h : Stored table l) (hlong : l.length ≤ rteMaxTailq) {n : CString} (hn : n ∈ l) :
    ∃ j, rteEalTailqLookup table (some n) = some j ∧ l[j.val]? = some n := by
  obtain ⟨j, hj, heq⟩ := List.getElem_of_mem hn
  have hlen := h.len n hn
  have hget : l[j]? = some n := List.getElem?_eq_some_iff.mpr ⟨hj, heq⟩
  exact ⟨⟨j, hj.trans_le hlong⟩, (h.lookup_iff hlen.1 (by omega) _).mpr hget, hget⟩

/-- A longer list finds the old names where they were. -/
theorem lookup_append {table' : Table} {l' : List CString} (h : Stored table l)
    (h' : Stored table' (l ++ l')) (hlong : l.length ≤ rteMaxTailq) {n : CString} (hn : n ∈ l) :
    rteEalTailqLookup table' (some n) = rteEalTailqLookup table (some n) := by
  obtain ⟨j, hj, hget⟩ := h.lookup_some hlong hn
  have hlen := h.len n hn
  obtain ⟨hlt, -⟩ := List.getElem?_eq_some_iff.mp hget
  rw [hj, h'.lookup_iff hlen.1 (by omega), List.getElem?_append_left hlt, hget]

/-- The head created for a new name. -/
theorem create (h : Stored table l) {p : Process} (hcount : p.tailqsCount = l.length) {n : CString}
    (hpos : 1 ≤ n.length) (hlen : n.length ≤ 30) (hn : n ∉ l) (hroom : l.length + 1 < rteMaxTailq) :
    ∃ (j : Fin rteMaxTailq) (table' : Table), j.val = l.length ∧
      rteEalTailqCreate n ⟨p, table⟩ =
        (some j, ⟨{ p with tailqsCount := (l.length + 1 : Nat) }, table'⟩) ∧
      Stored table' (l ++ [n]) := by
  refine ⟨⟨l.length, by omega⟩, Function.update table ⟨l.length, by omega⟩ ⟨[], n⟩, rfl, ?_, ?_, ?_, ?_⟩
  · have hnone := h.lookup_none hpos (by omega) hn
    rw [rteEalTailqCreate, dif_pos ⟨hnone, by dsimp only; rw [hcount]; exact_mod_cast hroom⟩]
    simp only [hcount, Int.toNat_natCast]
    have hcut : n.trunc (rteTailqNamesize - 2) = n := CString.trunc_eq hlen
    rw [hcut]
    rfl
  · intro j
    by_cases hj : j.val = l.length
    · have heq : j = ⟨l.length, by omega⟩ := Fin.ext hj
      rw [heq, Function.update_self, List.getElem?_append_right (Nat.le_refl _), Nat.sub_self]
      rfl
    · rw [Function.update_of_ne fun he => hj (congrArg Fin.val he), h.name]
      by_cases hlt : j.val < l.length
      · rw [List.getElem?_append_left hlt]
      · rw [List.getElem?_eq_none (by omega), List.getElem?_eq_none (by rw [List.length_append]; simp; omega)]
  · exact List.nodup_append.mpr ⟨h.nodup, List.nodup_singleton n, fun a ha b hb hab =>
      hn (by rw [← List.mem_singleton.mp hb, ← hab]; exact ha)⟩
  · intro m hm
    rcases List.mem_append.mp hm with hm | hm
    · exact h.len m hm
    · rw [List.mem_singleton.mp hm]
      exact ⟨hpos, hlen⟩

end Stored

/-! ## One call -/

section

variable {name : Elem → CString} {t : Elem} {p : Process} {table : Table}

theorem localRegister_eq (ht : (name t).length ≤ 32) (hp : ∀ u ∈ p.elemHead, (name u).length ≤ 32) :
    rteEalTailqLocalRegister name t p =
      if name t ∈ p.elemHead.map name then (-1, p) else (0, { p with elemHead := p.elemHead ++ [t] }) := by
  have hany : (p.elemHead.any fun temp =>
      strncmpEqual (name t).bytes (name temp).bytes rteTailqNamesize) = true ↔
        name t ∈ p.elemHead.map name := by
    rw [List.any_eq_true, List.mem_map]
    constructor
    · intro ⟨u, hu, heq⟩
      exact ⟨u, hu, ((strncmpEqual_iff_eq ht (hp u hu)).mp heq).symm⟩
    · intro ⟨u, hu, heq⟩
      exact ⟨u, hu, (strncmpEqual_iff_eq ht (hp u hu)).mpr heq.symm⟩
  rw [rteEalTailqLocalRegister]
  by_cases h : name t ∈ p.elemHead.map name
  · rw [if_pos h, if_pos (hany.mpr h)]
  · rw [if_neg h, if_neg (mt hany.mp h)]

theorem register_refused (ht : (name t).length ≤ 32) (hp : ∀ u ∈ p.elemHead, (name u).length ≤ 32)
    (h : name t ∈ p.elemHead.map name) :
    rteEalTailqRegister name t ⟨p, table⟩ = (-1, ⟨p.setHead t none, table⟩) := by
  rw [rteEalTailqRegister, localRegister_eq ht hp, if_pos h]
  rfl

theorem register_early (ht : (name t).length ≤ 32) (hp : ∀ u ∈ p.elemHead, (name u).length ≤ 32)
    (h : name t ∉ p.elemHead.map name) (hcount : p.tailqsCount < 0) :
    rteEalTailqRegister name t ⟨p, table⟩ =
      (0, ⟨{ p with elemHead := p.elemHead ++ [t] }, table⟩) := by
  rw [rteEalTailqRegister, localRegister_eq ht hp, if_neg h]
  exact if_neg (Int.not_le.mpr hcount)

theorem update_primary (hprim : p.isPrimary = true) {l : List CString} (hstored : Stored table l)
    (hcount : p.tailqsCount = l.length) (hpos : 1 ≤ (name t).length) (hlen : (name t).length ≤ 30)
    (hnew : name t ∉ l) (hroom : l.length + 1 < rteMaxTailq) :
    ∃ (j : Fin rteMaxTailq) (table' : Table), j.val = l.length ∧
      rteEalTailqUpdate name t ⟨p, table⟩ =
        ⟨{ p with tailqsCount := (l.length + 1 : Nat) }.setHead t (some j), table'⟩ ∧
      Stored table' (l ++ [name t]) := by
  obtain ⟨j, table', hj, hcreate, hstored'⟩ := hstored.create hcount hpos hlen hnew hroom
  refine ⟨j, table', hj, ?_, hstored'⟩
  rw [rteEalTailqUpdate, if_pos hprim, hcreate]

theorem register_late (hprim : p.isPrimary = true) (hp : ∀ u ∈ p.elemHead, (name u).length ≤ 32)
    (hstored : Stored table (p.elemHead.map name)) (hcount : p.tailqsCount = p.elemHead.length)
    (hpos : 1 ≤ (name t).length) (hlen : (name t).length ≤ 30) (hnew : name t ∉ p.elemHead.map name)
    (hroom : p.elemHead.length + 1 < rteMaxTailq) :
    ∃ (j : Fin rteMaxTailq) (table' : Table), j.val = p.elemHead.length ∧
      rteEalTailqRegister name t ⟨p, table⟩ = (0, ⟨{ p with
        elemHead := p.elemHead ++ [t]
        tailqsCount := (p.elemHead.length + 1 : Nat) }.setHead t (some j), table'⟩) ∧
      Stored table' ((p.elemHead ++ [t]).map name) := by
  have hlength : (p.elemHead.map name).length = p.elemHead.length := List.length_map _
  obtain ⟨j, table', hj, hupd, hstored'⟩ :=
    @update_primary name t { p with elemHead := p.elemHead ++ [t] } table hprim _ hstored
      (hlength ▸ hcount) hpos hlen hnew (hlength ▸ hroom)
  rw [hlength] at hj hupd
  refine ⟨j, table', hj, ?_, by rwa [List.map_append]⟩
  have hself : ({ p with
      elemHead := p.elemHead ++ [t]
      tailqsCount := (p.elemHead.length + 1 : Nat) }.setHead t (some j)).head t = some j :=
    Function.update_self ..
  rw [rteEalTailqRegister, localRegister_eq (by omega) hp, if_neg hnew]
  dsimp only
  rw [if_neg (by decide), if_pos (by rw [hcount]; exact Int.natCast_nonneg _), hupd]
  dsimp only
  rw [hself, if_neg (by exact fun h => nomatch h)]

theorem update_secondary (hsec : p.isPrimary = false) {j : Fin rteMaxTailq}
    (hj : rteEalTailqLookup table (some (name t)) = some j) :
    rteEalTailqUpdate name t ⟨p, table⟩ = ⟨p.setHead t (some j), table⟩ := by
  have hprim : ¬p.isPrimary = true := by
    rw [hsec]
    exact Bool.false_ne_true
  rw [rteEalTailqUpdate, if_neg hprim, hj]

/-- In a secondary process nothing is created. -/
theorem register_secondary (hsec : p.isPrimary = false) (hcount : 0 ≤ p.tailqsCount)
    (hnew : ∀ temp ∈ p.elemHead, strncmpEqual (name t).bytes (name temp).bytes rteTailqNamesize = false)
    {j : Fin rteMaxTailq} (hj : rteEalTailqLookup table (some (name t)) = some j) :
    rteEalTailqRegister name t ⟨p, table⟩ =
      (0, ⟨{ p with elemHead := p.elemHead ++ [t] }.setHead t (some j), table⟩) := by
  have hany : ¬(p.elemHead.any fun temp =>
      strncmpEqual (name t).bytes (name temp).bytes rteTailqNamesize) = true := by
    rw [List.any_eq_true]
    intro ⟨u, hu, heq⟩
    rw [hnew u hu] at heq
    exact Bool.false_ne_true heq
  have hself : ({ p with elemHead := p.elemHead ++ [t] }.setHead t (some j)).head t = some j :=
    Function.update_self ..
  have hupd : rteEalTailqUpdate name t ⟨{ p with elemHead := p.elemHead ++ [t] }, table⟩ =
      ⟨{ p with elemHead := p.elemHead ++ [t] }.setHead t (some j), table⟩ :=
    @update_secondary name t { p with elemHead := p.elemHead ++ [t] } table hsec j hj
  rw [rteEalTailqRegister, rteEalTailqLocalRegister, if_neg hany]
  dsimp only
  rw [if_neg (by decide), if_pos hcount, hupd]
  dsimp only
  rw [hself, if_neg (by exact fun h => nomatch h)]

end

/-! ## Runs -/

theorem length_le_card {names : Finset CString} {l : List CString} (hnodup : l.Nodup)
    (hsub : ∀ m ∈ l, m ∈ names) : l.length ≤ names.card := by
  have hcard := Finset.card_le_card fun m hm => hsub m (List.mem_toFinset.mp hm)
  rwa [List.toFinset_card_of_nodup hnodup] at hcard

theorem length_lt_card {names : Finset CString} {l : List CString} {n : CString} (hnodup : l.Nodup)
    (hsub : ∀ m ∈ l, m ∈ names) (hnew : n ∉ l) (hn : n ∈ names) : l.length + 1 ≤ names.card := by
  refine length_le_card (List.nodup_cons.mpr ⟨hnew, hnodup⟩) fun m hm => ?_
  rcases List.mem_cons.mp hm with rfl | hm
  · exact hn
  · exact hsub m hm

/-- The primary process before `rte_eal_tailqs_init`, after registering `done`. -/
structure Early (name : Elem → CString) (done : List Elem) (s : Sys) : Prop where
  primary : s.proc.isPrimary = true
  count : s.proc.tailqsCount = -1
  table : s.table = start.table
  nodup : (s.proc.elemHead.map name).Nodup
  mem : ∀ n, n ∈ s.proc.elemHead.map name ↔ n ∈ done.map name

/-- The primary process afterwards. -/
structure Late (name : Elem → CString) (done : List Elem) (s : Sys) : Prop where
  primary : s.proc.isPrimary = true
  count : s.proc.tailqsCount = s.proc.elemHead.length
  stored : Stored s.table (s.proc.elemHead.map name)
  mem : ∀ n, n ∈ s.proc.elemHead.map name ↔ n ∈ done.map name

section

variable {name : Elem → CString} {names : Finset CString} {done : List Elem} {s : Sys}

theorem mem_map_append {t : Elem} {l : List CString} (h : ∀ n, n ∈ l ↔ n ∈ done.map name) (n : CString) :
    n ∈ l ++ [name t] ↔ n ∈ (done ++ [t]).map name := by
  rw [List.mem_append, List.map_append, List.mem_append, h n]
  rfl

theorem mem_map_append_of_mem {t : Elem} {l : List CString} (h : ∀ n, n ∈ l ↔ n ∈ done.map name)
    (ht : name t ∈ l) (n : CString) : n ∈ l ↔ n ∈ (done ++ [t]).map name := by
  rw [List.map_append, List.mem_append, ← h n]
  constructor
  · exact Or.inl
  · intro hn
    rcases hn with hn | hn
    · exact hn
    · exact List.mem_singleton.mp hn ▸ ht

theorem Early.register (h : Early name done s) {t : Elem}
    (hlen : ∀ u ∈ done ++ [t], (name u).length ≤ 31) :
    CallOK name done t s ∧ Early name (done ++ [t]) (rteEalTailqRegister name t s).2 := by
  obtain ⟨p, table⟩ := s
  have ht : (name t).length ≤ 32 :=
    (hlen t (List.mem_append_right _ List.mem_cons_self)).trans (by decide)
  have hp : ∀ u ∈ p.elemHead, (name u).length ≤ 32 := by
    intro u hu
    obtain ⟨v, hv, heq⟩ := List.mem_map.mp ((h.mem (name u)).mp (List.mem_map_of_mem hu))
    rw [← heq]
    exact (hlen v (List.mem_append_left _ hv)).trans (by decide)
  by_cases hold : name t ∈ p.elemHead.map name
  · have hcode := @register_refused name t p table ht hp hold
    refine ⟨⟨fun hn => absurd ((h.mem _).mp hold) hn, fun _ => ?_⟩, ?_⟩
    · rw [hcode]
      exact ⟨rfl, rfl, rfl⟩
    · rw [hcode]
      exact ⟨h.primary, h.count, h.table, h.nodup, mem_map_append_of_mem h.mem hold⟩
  · have hcount : p.tailqsCount < 0 := by
      rw [show p.tailqsCount = -1 from h.count]
      decide
    have hcode := @register_early name t p table ht hp hold hcount
    refine ⟨⟨fun _ => by rw [hcode], fun hn => absurd ((h.mem _).mpr hn) hold⟩, ?_⟩
    rw [hcode]
    refine ⟨h.primary, h.count, h.table, ?_, ?_⟩
    · rw [List.map_append]
      exact List.nodup_append.mpr ⟨h.nodup, List.nodup_singleton _, fun a ha b hb hab =>
        hold (List.mem_singleton.mp hb ▸ hab ▸ ha)⟩
    · intro n
      dsimp only
      rw [List.map_append]
      exact mem_map_append h.mem n

theorem Early.registerAll (h : Early name done s) (l : List Elem)
    (hlen : ∀ u ∈ done ++ l, (name u).length ≤ 31) :
    Early name (done ++ l) (registerAll name l s) := by
  induction l generalizing done s with
  | nil => rwa [List.append_nil]
  | cons t l ih =>
    rw [List.append_cons] at hlen ⊢
    have hstep := (h.register fun u hu => hlen u (List.mem_append_left _ hu)).2
    exact ih hstep hlen

theorem early_start : Early name [] start := ⟨rfl, rfl, rfl, List.nodup_nil, fun _ => Iff.rfl⟩

/-- What a late call does, with the names found later where they are found now. -/
theorem Late.register (h : Late name done s) {t : Elem} (hcard : names.card < rteMaxTailq)
    (hnames : ∀ n ∈ names, 1 ≤ n.length ∧ n.length ≤ 30) (hmem : ∀ u ∈ done ++ [t], name u ∈ names) :
    CallOK name done t s ∧ Late name (done ++ [t]) (rteEalTailqRegister name t s).2 ∧
      (∃ more, (rteEalTailqRegister name t s).2.proc.elemHead = s.proc.elemHead ++ more) ∧
      (name t ∉ done.map name → (rteEalTailqRegister name t s).2.proc.head t =
        rteEalTailqLookup (rteEalTailqRegister name t s).2.table (some (name t))) := by
  obtain ⟨p, table⟩ := s
  have ht := hmem t (List.mem_append_right _ List.mem_cons_self)
  have htlen := hnames _ ht
  have hsub : ∀ m ∈ p.elemHead.map name, m ∈ names := by
    intro m hm
    obtain ⟨v, hv, rfl⟩ := List.mem_map.mp ((h.mem m).mp hm)
    exact hmem v (List.mem_append_left _ hv)
  have hp : ∀ u ∈ p.elemHead, (name u).length ≤ 32 := fun u hu =>
    (hnames _ (hsub _ (List.mem_map_of_mem hu))).2.trans (by decide)
  by_cases hold : name t ∈ p.elemHead.map name
  · have hcode := @register_refused name t p table (by omega) hp hold
    have hdone := (h.mem _).mp hold
    rw [CallOK, hcode]
    exact ⟨⟨fun hn => absurd hdone hn, fun _ => ⟨rfl, rfl, rfl⟩⟩,
      ⟨h.primary, h.count, h.stored, mem_map_append_of_mem h.mem hold⟩,
      ⟨[], (List.append_nil _).symm⟩, fun hn => absurd hdone hn⟩
  · have hroom := length_lt_card h.stored.nodup hsub hold ht
    rw [List.length_map] at hroom
    obtain ⟨j, table', hj, hcode, hstored⟩ :=
      register_late h.primary hp h.stored h.count htlen.1 htlen.2 hold (hroom.trans_lt hcard)
    rw [CallOK, hcode]
    refine ⟨⟨fun _ => rfl, fun hn => absurd ((h.mem _).mpr hn) hold⟩, ⟨h.primary, ?_, hstored, ?_⟩,
      ⟨[t], rfl⟩, fun _ => ?_⟩
    · dsimp only [Process.setHead]
      rw [List.length_append, List.length_singleton]
    · intro n
      dsimp only [Process.setHead]
      rw [List.map_append]
      exact mem_map_append h.mem n
    · have hself : ({ p with
          elemHead := p.elemHead ++ [t]
          tailqsCount := (p.elemHead.length + 1 : Nat) }.setHead t (some j)).head t = some j :=
        Function.update_self ..
      have hget : ((p.elemHead ++ [t]).map name)[j.val]? = some (name t) := by
        rw [List.map_append, List.getElem?_append_right (by rw [List.length_map]; exact hj.ge),
          List.length_map, hj]
        dsimp only
        rw [Nat.sub_self]
        rfl
      rw [hself]
      exact ((hstored.lookup_iff htlen.1 (by omega) j).mpr hget).symm

theorem Late.registerAll (h : Late name done s) (hcard : names.card < rteMaxTailq)
    (hnames : ∀ n ∈ names, 1 ≤ n.length ∧ n.length ≤ 30) (l : List Elem)
    (hmem : ∀ u ∈ done ++ l, name u ∈ names) :
    Late name (done ++ l) (registerAll name l s) ∧
      ∃ more, (registerAll name l s).proc.elemHead = s.proc.elemHead ++ more := by
  induction l generalizing done s with
  | nil => exact ⟨by rwa [List.append_nil], [], (List.append_nil _).symm⟩
  | cons t l ih =>
    rw [List.append_cons] at hmem ⊢
    obtain ⟨-, hstep, ⟨m₁, h₁⟩, -⟩ :=
      h.register hcard hnames fun u hu => hmem u (List.mem_append_left _ hu)
    obtain ⟨hall, m₂, h₂⟩ := ih hstep hmem
    exact ⟨hall, m₁ ++ m₂, h₂.trans (by rw [h₁, List.append_assoc])⟩

theorem Late.length_le (h : Late name done s) (hcard : names.card < rteMaxTailq)
    (hmem : ∀ u ∈ done, name u ∈ names) : (s.proc.elemHead.map name).length ≤ rteMaxTailq := by
  refine (length_le_card h.stored.nodup fun m hm => ?_).trans hcard.le
  obtain ⟨v, hv, rfl⟩ := List.mem_map.mp ((h.mem m).mp hm)
  exact hmem v hv

/-- Later registrations do not move what can be found. -/
theorem Late.lookup_registerAll (h : Late name done s) (hcard : names.card < rteMaxTailq)
    (hnames : ∀ n ∈ names, 1 ≤ n.length ∧ n.length ≤ 30) (l : List Elem)
    (hmem : ∀ u ∈ done ++ l, name u ∈ names) {t : Elem} (ht : t ∈ done) :
    rteEalTailqLookup (EalTailqs.registerAll name l s).table (some (name t)) =
      rteEalTailqLookup s.table (some (name t)) := by
  obtain ⟨hall, more, hmore⟩ := h.registerAll hcard hnames l hmem
  have hstored := hall.stored
  rw [hmore, List.map_append] at hstored
  exact h.stored.lookup_append hstored
    (h.length_le hcard fun u hu => hmem u (List.mem_append_left _ hu))
    ((h.mem _).mpr (List.mem_map_of_mem ht))

/-- `rte_eal_tailqs_init` gives every element a head, and the names are found there. -/
theorem initLoop_spec {rest : List Elem} {l : List CString} (hprim : s.proc.isPrimary = true)
    (hcount : s.proc.tailqsCount = l.length) (hstored : Stored s.table l)
    (hnodup : (l ++ rest.map name).Nodup)
    (hlen : ∀ t ∈ rest, 1 ≤ (name t).length ∧ (name t).length ≤ 30)
    (hroom : (l ++ rest.map name).length < rteMaxTailq) : ∃ s',
    initLoop name rest s = (0, s') ∧ s'.proc.isPrimary = true ∧ s'.proc.elemHead = s.proc.elemHead ∧
      s'.proc.tailqsCount = (l ++ rest.map name).length ∧ Stored s'.table (l ++ rest.map name) ∧
      (∀ t ∈ rest, s'.proc.head t = rteEalTailqLookup s'.table (some (name t))) ∧
      ∀ u, name u ∉ rest.map name → s'.proc.head u = s.proc.head u := by
  induction rest generalizing l s with
  | nil =>
    have hnil : l ++ List.map name [] = l := List.append_nil l
    exact ⟨s, rfl, hprim, rfl, by rw [hnil, hcount], by rwa [hnil],
      fun t ht => absurd ht List.not_mem_nil, fun _ _ => rfl⟩
  | cons t rest ih =>
    obtain ⟨p, table⟩ := s
    rw [List.map_cons, List.append_cons] at hnodup hroom ⊢
    obtain ⟨htpos, htlen⟩ := hlen t List.mem_cons_self
    obtain ⟨hnodup', hrestnodup, hdisj⟩ := List.nodup_append.mp hnodup
    have hnew : name t ∉ l := fun h =>
      (List.nodup_append.mp hnodup').2.2 _ h _ (List.mem_singleton_self _) rfl
    have hnext : name t ∉ rest.map name := fun h =>
      hdisj _ (List.mem_append_right l (List.mem_singleton_self _)) _ h rfl
    have hroom' : l.length + 1 < rteMaxTailq := by
      rw [List.length_append, List.length_append, List.length_singleton] at hroom
      exact (Nat.le_add_right _ _).trans_lt hroom
    obtain ⟨j, table', hj, hupd, hstored'⟩ :=
      update_primary hprim hstored hcount htpos htlen hnew hroom'
    have hself : ({ p with tailqsCount := (l.length + 1 : Nat) }.setHead t (some j)).head t = some j :=
      Function.update_self ..
    have hcount' : ((l.length + 1 : Nat) : Int) = ((l ++ [name t]).length : Nat) := by
      rw [List.length_append, List.length_singleton]
    obtain ⟨s', hcode, hprim', helem, hcnt, hst, hhead, hframe⟩ :=
      @ih ⟨{ p with tailqsCount := (l.length + 1 : Nat) }.setHead t (some j), table'⟩ _ hprim hcount'
        hstored' hnodup (fun u hu => hlen u (List.mem_cons_of_mem _ hu)) hroom
    refine ⟨s', ?_, hprim', helem, hcnt, hst, fun u hu => ?_, fun u hu => ?_⟩
    · rw [initLoop, hupd]
      dsimp only
      rw [hself, if_neg (by exact fun h => nomatch h), hcode]
    · rcases List.mem_cons.mp hu with rfl | hu
      · have hget : (l ++ [name u] ++ rest.map name)[j.val]? = some (name u) := by
          rw [List.getElem?_append_left (by rw [List.length_append, List.length_singleton]; omega),
            List.getElem?_append_right hj.ge, hj, Nat.sub_self]
          rfl
        rw [hframe u hnext, hself]
        exact ((hst.lookup_iff htpos (by omega) j).mpr hget).symm
      · exact hhead u hu
    · rw [List.mem_cons, not_or] at hu
      rw [hframe u hu.2]
      exact Function.update_of_ne (fun he => hu.1 (congrArg name he)) _ _

theorem stored_start : Stored start.table [] :=
  ⟨fun _ => rfl, List.nodup_nil, fun _ h => absurd h List.not_mem_nil⟩

/-- `rte_eal_tailqs_init` after the registrations `done`. -/
theorem Early.init (h : Early name done s) (hcard : names.card < rteMaxTailq)
    (hnames : ∀ n ∈ names, 1 ≤ n.length ∧ n.length ≤ 30) (hmem : ∀ u ∈ done, name u ∈ names) :
    (rteEalTailqsInit name s).1 = 0 ∧ Late name done (rteEalTailqsInit name s).2 ∧
      ∀ t ∈ s.proc.elemHead, (rteEalTailqsInit name s).2.proc.head t =
        rteEalTailqLookup (rteEalTailqsInit name s).2.table (some (name t)) := by
  have hsub : ∀ m ∈ s.proc.elemHead.map name, m ∈ names := by
    intro m hm
    obtain ⟨v, hv, rfl⟩ := List.mem_map.mp ((h.mem m).mp hm)
    exact hmem v hv
  have hroom := (length_le_card h.nodup hsub).trans_lt hcard
  obtain ⟨s', hcode, hprim, helem, hcount, hstored, hhead, -⟩ :=
    @initLoop_spec name ⟨{ s.proc with tailqsCount := 0 }, s.table⟩ s.proc.elemHead [] h.primary rfl
      (h.table ▸ stored_start) h.nodup (fun t ht => hnames _ (hsub _ (List.mem_map_of_mem ht))) hroom
  rw [List.nil_append] at hcount hstored
  rw [List.length_map] at hcount
  dsimp only at helem
  rw [rteEalTailqsInit, hcode]
  exact ⟨rfl, ⟨hprim, by rw [hcount, helem], by rwa [helem], fun n => by rw [helem]; exact h.mem n⟩,
    hhead⟩

end

/-! ## Names that do not fit -/

/-- No stored name is longer than `snprintf` leaves it. -/
def Short (table : Table) : Prop := ∀ j, (table j).name.length ≤ 30

section

variable {name : Elem → CString} {s : Sys}

theorem short_create (n : CString) (h : Short s.table) : Short (rteEalTailqCreate n s).2.table := by
  rw [rteEalTailqCreate]
  split_ifs with hroom
  · intro j
    dsimp only
    by_cases hj : j = ⟨s.proc.tailqsCount.toNat, by have := hroom.2; simp at this ⊢; omega⟩
    · rw [hj, Function.update_self]
      exact CString.length_trunc_le 30 n
    · rw [Function.update_of_ne hj]
      exact h j
  · exact h

theorem short_update (t : Elem) (h : Short s.table) : Short (rteEalTailqUpdate name t s).table := by
  rw [rteEalTailqUpdate]
  split_ifs
  · exact short_create (name t) h
  · exact h

theorem short_register (t : Elem) (h : Short s.table) : Short (rteEalTailqRegister name t s).2.table := by
  rw [rteEalTailqRegister]
  dsimp only
  split_ifs
  · exact h
  · exact @short_update name ⟨_, s.table⟩ t h
  · exact @short_update name ⟨_, s.table⟩ t h
  · exact h

theorem short_initLoop (l : List Elem) (h : Short s.table) : Short (initLoop name l s).2.table := by
  induction l generalizing s with
  | nil => exact h
  | cons t l ih =>
    rw [initLoop]
    split_ifs
    · exact short_update t h
    · exact ih (short_update t h)

theorem short_registerAll (l : List Elem) (h : Short s.table) :
    Short (registerAll name l s).table := by
  induction l generalizing s with
  | nil => exact h
  | cons t l ih => exact ih (short_register t h)

theorem short_afterAll (early late : List Elem) : Short (afterAll name early late).table :=
  short_registerAll late (short_initLoop _ (short_registerAll early fun _ => Nat.zero_le _))

/-- Only a name that was stored whole can be found. -/
theorem length_le_of_lookup {table : Table} (h : Short table) {n : CString} {j : Fin rteMaxTailq}
    (hj : rteEalTailqLookup table (some n) = some j) : n.length ≤ 30 := by
  have heq := strncmpEqual_iff.mp (List.find?_some (p := fun i =>
    strncmpEqual n.bytes (table i).name.bytes (rteTailqNamesize - 1)) hj)
  have hlen := congrArg List.length heq
  have hshort : (table j).name.bytes.length ≤ 30 := h j
  rw [List.length_take, List.length_take] at hlen
  rw [CString.length]
  simp only [rteTailqNamesize] at hlen
  omega

end

/-- **The processes agree on the tail queues of a run exactly when every name has at most 30 bytes**,
one less than fits the field. -/
theorem tailqs_agree_iff (name : Elem → CString) (early late : List Elem)
    (hpos : ∀ t ∈ early ++ late, 1 ≤ (name t).length)
    (hcard : ((early ++ late).map name).toFinset.card ≤ rteMaxTailq - 1) :
    Agree name early late ↔ ∀ t ∈ early ++ late, (name t).length ≤ 30 := by
  constructor
  · intro h t ht
    obtain ⟨j, hj⟩ := h.found t ht
    exact length_le_of_lookup (short_afterAll early late) hj
  intro hlen
  have hlt : ((early ++ late).map name).toFinset.card < rteMaxTailq := hcard.trans_lt (by decide)
  have hnames : ∀ n ∈ ((early ++ late).map name).toFinset, 1 ≤ n.length ∧ n.length ≤ 30 := by
    intro n hn
    obtain ⟨t, ht, rfl⟩ := List.mem_map.mp (List.mem_toFinset.mp hn)
    exact ⟨hpos t ht, hlen t ht⟩
  have hmem : ∀ t ∈ early ++ late, name t ∈ ((early ++ late).map name).toFinset := fun t ht =>
    List.mem_toFinset.mpr (List.mem_map_of_mem ht)
  have hearly := early_start.registerAll early fun t ht =>
    (hlen t (List.mem_append_left late ht)).trans (by decide)
  rw [List.nil_append] at hearly
  obtain ⟨hinit, hlate, hheads⟩ :=
    hearly.init hlt hnames fun t ht => hmem t (List.mem_append_left late ht)
  obtain ⟨hend, -⟩ := hlate.registerAll hlt hnames late hmem
  have hlook : ∀ t ∈ early ++ late, ∃ j, found name early late t = some j ∧
      ((afterAll name early late).proc.elemHead.map name)[j.val]? = some (name t) := fun t ht =>
    hend.stored.lookup_some (hend.length_le hlt hmem) ((hend.mem _).mpr (List.mem_map_of_mem ht))
  refine ⟨hinit, fun t ht => ?_, fun t ht u hu heq => ?_, fun l₁ t l₂ hsplit => ?_, fun t ht => ?_,
    fun l₁ t l₂ hsplit => ?_, fun l₁ t l₂ hsplit hnew => ?_, fun p name' u hsec hcount hnew t ht hname => ?_⟩
  · obtain ⟨j, hj, -⟩ := hlook t ht
    exact ⟨j, hj⟩
  · obtain ⟨j, hj, hgetj⟩ := hlook t ht
    obtain ⟨k, hk, hgetk⟩ := hlook u hu
    have hjk : j = k := Option.some.inj (hj.symm.trans (heq.trans hk))
    rw [hjk] at hgetj
    exact Option.some.inj (hgetj.symm.trans hgetk)
  · have hle : ∀ u ∈ l₁ ++ [t], (name u).length ≤ 31 := fun u hu =>
      (hlen u (List.mem_append_left _ (by
        rw [hsplit, List.append_cons]
        exact List.mem_append_left _ hu))).trans (by decide)
    have hpre := early_start.registerAll l₁ fun u hu => hle u (List.mem_append_left _ hu)
    exact (hpre.register hle).1
  · obtain ⟨u, hu, heq⟩ := List.mem_map.mp ((hearly.mem (name t)).mp (List.mem_map_of_mem ht))
    have hkeep := hlate.lookup_registerAll hlt hnames late hmem hu
    rw [heq] at hkeep
    exact (hheads t ht).trans hkeep.symm
  · have hsub : ∀ u ∈ early ++ l₁ ++ [t], name u ∈ ((early ++ late).map name).toFinset := fun u hu =>
      hmem u (by
        rw [hsplit, List.append_cons, ← List.append_assoc, ← List.append_assoc]
        exact List.mem_append_left _ hu)
    obtain ⟨hmid, -⟩ := hlate.registerAll hlt hnames l₁ fun u hu => hsub u (List.mem_append_left _ hu)
    exact (hmid.register hlt hnames hsub).1
  · have hassoc : early ++ l₁ ++ [t] ++ l₂ = early ++ late := by
      rw [hsplit, List.append_cons l₁ t l₂, ← List.append_assoc, ← List.append_assoc]
    have hsub : ∀ u ∈ early ++ l₁ ++ [t] ++ l₂, name u ∈ ((early ++ late).map name).toFinset :=
      hassoc ▸ hmem
    have hsub' := fun u hu => hsub u (List.mem_append_left l₂ hu)
    obtain ⟨hmid, -⟩ := hlate.registerAll hlt hnames l₁ fun u hu => hsub' u (List.mem_append_left _ hu)
    obtain ⟨-, hafter, -, hhead⟩ := hmid.register hlt hnames hsub'
    have hkeep := hafter.lookup_registerAll hlt hnames l₂ hsub
      (List.mem_append_right _ (List.mem_singleton_self t))
    have hrun : afterAll name early late = registerAll name l₂
        (rteEalTailqRegister name t (registerAll name l₁ (afterInit name early))).2 := by
      rw [afterAll, hsplit, registerAll, List.foldl_append, List.foldl_cons]
      rfl
    rw [found, hrun]
    exact (hhead hnew).trans hkeep.symm
  · obtain ⟨j, hj, -⟩ := hlook t ht
    rw [hj]
    rw [found, ← hname] at hj
    exact ⟨_, register_secondary hsec hcount hnew hj, Function.update_self ..⟩

/-- A name for every element: as many bytes as the argument says. -/
def nameOfLength (n : Nat) : CString :=
  ⟨List.replicate n 97, fun h => absurd (List.eq_of_mem_replicate h) (by decide)⟩

/-- Two early tail queues and a later one, with a name of 30 bytes among them. -/
theorem tailqs_agree_iff_three : Agree nameOfLength [3, 30] [5] :=
  (tailqs_agree_iff nameOfLength [3, 30] [5] (by decide) (by decide)).mpr (by decide)

/-- A name of 31 bytes fits the field with its terminator, gets a head and is not found. -/
theorem not_tailqs_agree : (nameOfLength 31).length + 1 = rteTailqNamesize ∧
    (afterInit nameOfLength [31]).proc.head 31 = some ⟨0, by decide⟩ ∧
      found nameOfLength [31] [] 31 = none ∧ ¬Agree nameOfLength [31] [] := by
  have hnone : found nameOfLength [31] [] 31 = none := by decide
  refine ⟨by decide, by decide, hnone, fun h => ?_⟩
  obtain ⟨j, hj⟩ := h.found 31 List.mem_cons_self
  rw [hnone] at hj
  exact nomatch hj

end EalTailqs
