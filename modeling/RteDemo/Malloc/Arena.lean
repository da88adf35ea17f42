import RteDemo.Malloc.Heap
import RteDemo.Lib.Tiling

/-!
# What the element headers of a memseg stand for

The elements of a memseg are described without memory by their sizes and uses in address order.
`Chain` says that the headers from an address on describe a list of elements, `Tail` that the end
marker follows them.

An element is on the free lists, in use by a caller, or `detached`: its header says `ELEM_FREE`
but it is on no list. Detached elements exist only inside an operation.
-/

namespace RteDemo

open Bytes Tiling

/-- What an element is used for. -/
inductive Use
  | free
  | detached
  /-- Held by a caller, with `pad` bytes between the header and the header in front of the data. -/
  | busy (pad : Nat)
  deriving DecidableEq

structure Elem where
  size : Nat
  use : Use
  deriving DecidableEq

/-- Sizes are whole cache lines with room for the header; padding is less than two lines. -/
def Elem.OK (e : Elem) : Prop :=
  64 ∣ e.size ∧ 64 ≤ e.size ∧
    match e.use with
    | .busy pad => 64 ∣ pad ∧ pad + 64 ≤ e.size ∧ pad < 128
    | _ => True

theorem Elem.OK.dvd {e : Elem} (h : e.OK) : 64 ∣ e.size := h.1
theorem Elem.OK.le {e : Elem} (h : e.OK) : 64 ≤ e.size := h.2.1

theorem dvd_total {L : List Elem} (h : ∀ e ∈ L, e.OK) : 64 ∣ total Elem.size L := by
  induction L with
  | nil => simp
  | cons e L ih =>
    rw [total_cons]
    exact Nat.dvd_add (h e List.mem_cons_self).dvd (ih fun e' he' => h e' (List.mem_cons_of_mem _ he'))

theorem total_pos {L : List Elem} (h : ∀ e ∈ L, e.OK) (hL : L ≠ []) : 64 ≤ total Elem.size L := by
  cases L with
  | nil => exact absurd rfl hL
  | cons e L =>
    have := (h e List.mem_cons_self).le
    rw [total_cons]
    omega

/-! ## Headers -/

/-- The header fields that depend on the use; a padded element has a second, dummy header. -/
def UseRep (m : Mem) (a : Nat) : Use → Prop
  | .busy pad =>
    mallocElem.get .state m a = ElemState.busy.val ∧ mallocElem.get .pad m a = pad ∧
      (pad ≠ 0 → mallocElem.get .state m (a + pad) = ElemState.pad.val ∧
        mallocElem.get .pad m (a + pad) = pad)
  | _ => mallocElem.get .state m a = ElemState.free.val

/-- The header at `a` describes `e`. -/
structure HdrRep (m : Mem) (heap ms prev a : Nat) (e : Elem) : Prop where
  heap : mallocElem.get .heap m a = heap
  ms : mallocElem.get .ms m a = ms
  prev : mallocElem.get .prev m a = prev
  size : mallocElem.get .size m a = e.size
  use : UseRep m a e.use

/-- The header at `a` is an end marker. -/
structure EndRep (m : Mem) (prev a : Nat) : Prop where
  prev : mallocElem.get .prev m a = prev
  size : mallocElem.get .size m a = 0
  state : mallocElem.get .state m a = ElemState.busy.val

/-- The headers from `a` on describe `L`; `prev` is the element before `a`. -/
def Chain (m : Mem) (heap ms : Nat) : Nat → Nat → List Elem → Prop
  | _, _, [] => True
  | prev, a, e :: L => HdrRep m heap ms prev a e ∧ Chain m heap ms a (a + e.size) L

/-- The headers from `a` on describe `L`, followed by the end marker. -/
def Tail (m : Mem) (heap ms prev a : Nat) (L : List Elem) : Prop :=
  Chain m heap ms prev a L ∧ EndRep m (lastStart Elem.size prev a L) (a + total Elem.size L)

theorem chain_append {m : Mem} {heap ms : Nat} {L R : List Elem} :
    ∀ {prev a : Nat}, Chain m heap ms prev a (L ++ R) ↔ Chain m heap ms prev a L ∧
      Chain m heap ms (lastStart Elem.size prev a L) (a + total Elem.size L) R := by
  induction L with
  | nil => simp [Chain]
  | cons e L ih =>
    intro prev a
    simp [Chain, ih, and_assoc, Nat.add_assoc]

theorem tail_append {m : Mem} {heap ms prev a : Nat} {L R : List Elem} :
    Tail m heap ms prev a (L ++ R) ↔ Chain m heap ms prev a L ∧
      Tail m heap ms (lastStart Elem.size prev a L) (a + total Elem.size L) R := by
  simp only [Tail, chain_append, lastStart_append, total_append, and_assoc, Nat.add_assoc]

/-! ## What the headers depend on -/

/-- A use is read from the header and, when padded, from the dummy header. -/
theorem UseRep.congr {m m' : Mem} {a : Nat} {e : Elem} (hok : e.OK) (h : UseRep m a e.use)
    (hhdr : Agree m m' (a + 40) (a + 48)) (hin : Agree m m' (a + 64) (a + e.size)) :
    UseRep m' a e.use := by
  have hst : mallocElem.get .state m' a = mallocElem.get .state m a :=
    mallocElem.get_agree hhdr (Nat.le_refl _) (by change a + 44 ≤ _; omega)
  have hpd : mallocElem.get .pad m' a = mallocElem.get .pad m a :=
    mallocElem.get_agree hhdr (by change _ ≤ a + 44; omega) (Nat.le_refl _)
  obtain ⟨size, use⟩ := e
  cases use with
  | busy pad =>
    obtain ⟨-, -, hdvd, hpad, -⟩ := hok
    obtain ⟨h1, h2, hdummy⟩ := h
    refine ⟨hst.trans h1, hpd.trans h2, fun hne => ?_⟩
    have hle : 64 ≤ pad := Nat.le_of_dvd (Nat.pos_of_ne_zero hne) hdvd
    simp only at hpad hin
    exact ⟨(mallocElem.get_agree hin (by change _ ≤ a + pad + 40; omega)
        (by change a + pad + 44 ≤ _; omega)).trans (hdummy hne).1,
      (mallocElem.get_agree hin (by change _ ≤ a + pad + 44; omega)
        (by change a + pad + 48 ≤ _; omega)).trans (hdummy hne).2⟩
  | free => exact hst.trans h
  | detached => exact hst.trans h

/-- A header with a new size; padding stays inside the element. -/
theorem HdrRep.resize {m m' : Mem} {heap ms prev a n : Nat} {e : Elem}
    (hok : (Elem.mk n e.use).OK) (h : HdrRep m heap ms prev a e) (hlo : Agree m m' a (a + 48))
    (hin : Agree m m' (a + 64) (a + n)) (hsize : mallocElem.get .size m' a = n) :
    HdrRep m' heap ms prev a ⟨n, e.use⟩ where
  heap := (mallocElem.get_agree hlo (Nat.le_refl _) (by change a + 8 ≤ _; omega)).trans h.heap
  ms := (mallocElem.get_agree hlo (by change a ≤ a + 32; omega)
    (by change a + 40 ≤ _; omega)).trans h.ms
  prev := (mallocElem.get_agree hlo (by change a ≤ a + 8; omega)
    (by change a + 16 ≤ _; omega)).trans h.prev
  size := hsize
  use := UseRep.congr (e := ⟨n, e.use⟩) hok h.use (hlo.mono (by omega) (Nat.le_refl _)) hin

/-- A header whose `prev` field alone may have been rewritten. -/
theorem HdrRep.setPrev {m m' : Mem} {heap ms prev prev' a : Nat} {e : Elem} (hok : e.OK)
    (h : HdrRep m heap ms prev a e) (hlo : Agree m m' a (a + 8))
    (hhi : Agree m m' (a + 16) (a + e.size)) (hprev : mallocElem.get .prev m' a = prev') :
    HdrRep m' heap ms prev' a e := by
  have hsz := hok.le
  exact {
    heap := (mallocElem.get_agree hlo (Nat.le_refl _) (Nat.le_refl _)).trans h.heap
    ms := (mallocElem.get_agree hhi (by change a + 16 ≤ a + 32; omega)
      (by change a + 40 ≤ _; omega)).trans h.ms
    prev := hprev
    size := (mallocElem.get_agree hhi (by change a + 16 ≤ a + 48; omega)
      (by change a + 56 ≤ _; omega)).trans h.size
    use := h.use.congr hok (hhi.mono (by omega) (by omega)) (hhi.mono (by omega) (Nat.le_refl _)) }

theorem HdrRep.congr {m m' : Mem} {heap ms prev a : Nat} {e : Elem} (hok : e.OK)
    (h : HdrRep m heap ms prev a e) (hag : Agree m m' a (a + e.size)) :
    HdrRep m' heap ms prev a e := by
  have hsz := hok.le
  refine h.setPrev hok (hag.mono (Nat.le_refl a) (by omega)) (hag.mono (by omega) (Nat.le_refl _)) ?_
  exact (mallocElem.get_agree hag (by change a ≤ a + 8; omega)
    (by change a + 16 ≤ _; omega)).trans h.prev

theorem Chain.congr {m m' : Mem} {heap ms : Nat} {L : List Elem} (hok : ∀ e ∈ L, e.OK) :
    ∀ {prev a : Nat}, Chain m heap ms prev a L → Agree m m' a (a + total Elem.size L) →
      Chain m' heap ms prev a L := by
  induction L with
  | nil => exact fun _ _ => trivial
  | cons e L ih =>
    intro prev a ⟨he, hL⟩ hag
    simp only [total_cons] at hag
    refine ⟨he.congr (hok e List.mem_cons_self) (hag.mono (Nat.le_refl a) (by omega)), ?_⟩
    exact ih (fun e' he' => hok e' (List.mem_cons_of_mem _ he')) hL
      (hag.mono (by omega) (by omega))

theorem EndRep.agree {m m' : Mem} {prev a : Nat} (h : EndRep m prev a)
    (hag : Agree m m' a (a + 64)) : EndRep m' prev a where
  prev := (mallocElem.get_agree hag (by change a ≤ a + 8; omega)
    (by change a + 16 ≤ _; omega)).trans h.prev
  size := (mallocElem.get_agree hag (by change a ≤ a + 48; omega)
    (by change a + 56 ≤ _; omega)).trans h.size
  state := (mallocElem.get_agree hag (by change a ≤ a + 40; omega)
    (by change a + 44 ≤ _; omega)).trans h.state

/-- An end marker whose `prev` field alone may have been rewritten. -/
theorem EndRep.setPrev {m m' : Mem} {prev prev' a : Nat} (h : EndRep m prev a)
    (hag : Agree m m' (a + 16) (a + 64)) (hprev : mallocElem.get .prev m' a = prev') :
    EndRep m' prev' a where
  prev := hprev
  size := (mallocElem.get_agree hag (by change a + 16 ≤ a + 48; omega)
    (by change a + 56 ≤ a + 64; omega)).trans h.size
  state := (mallocElem.get_agree hag (by change a + 16 ≤ a + 40; omega)
    (by change a + 44 ≤ a + 64; omega)).trans h.state

/-- After a write to the `prev` field of its first header, a tail continues a different list. -/
theorem Tail.setPrev {m m' : Mem} {heap ms prev prev' a : Nat} {L : List Elem}
    (hok : ∀ e ∈ L, e.OK) (h : Tail m heap ms prev a L) (hlo : Agree m m' a (a + 8))
    (hhi : Agree m m' (a + 16) (a + total Elem.size L + 64))
    (hprev : mallocElem.get .prev m' a = prev') : Tail m' heap ms prev' a L := by
  cases L with
  | nil => exact ⟨trivial, EndRep.setPrev h.2 (by simpa using hhi) (by simpa using hprev)⟩
  | cons e L =>
    have he := hok e List.mem_cons_self
    have hok' : ∀ e' ∈ L, e'.OK := fun e' he' => hok e' (List.mem_cons_of_mem _ he')
    obtain ⟨⟨hh, hc⟩, hend⟩ := h
    have hsz := he.le
    simp only [total_cons] at hhi hend
    refine ⟨⟨hh.setPrev he hlo (hhi.mono (Nat.le_refl _) (by omega)) hprev,
      hc.congr hok' (hhi.mono (by omega) (by omega))⟩, ?_⟩
    have hpos : a + e.size ≤ a + (e.size + total Elem.size L) := by omega
    have hag : Agree m m' (a + (e.size + total Elem.size L)) (a + (e.size + total Elem.size L) + 64) :=
      hhi.mono (by omega) (Nat.le_refl _)
    refine EndRep.setPrev (by simpa using hend) (hag.mono (by simp) (by simp)) ?_
    simp only [total_cons]
    exact (mallocElem.get_agree hag (by change _ ≤ _ + 8; omega)
      (by change _ + 16 ≤ _; omega)).trans hend.prev

end RteDemo
