import RteDemo.Eal.Names
import Mathlib.Data.Nat.Digits.Lemmas

/-!
# The zones of a pool

`rte_mempool_create` reserves a zone for the header of a pool, one for its ring and one for each chunk of
objects, the last under the name of the pool with a number. All names are in one table: a pool whose
name is that of another one with the number of a chunk does not go with it (`zone_taken_iff`), and the
second to be created gets `EEXIST`.
-/

namespace MempoolZones

open RteDemo EalTailqs EalMemzone EalNames

/-! ## The names of the zones -/

/-- The digits of a number, the last first. -/
def digits (n : Nat) : List Nat := if n = 0 then [0] else Nat.digits 10 n

/-- `"%d"`, for a number below `2 ^ 31`: a pool has at most `RTE_MAX_MEMZONE` chunks. -/
def decimal (n : Nat) : List UInt8 := (digits n).reverse.map fun d => 48 + UInt8.ofNat d

theorem digits_lt {n d : Nat} (h : d ∈ digits n) : d < 10 := by
  unfold digits at h
  split at h
  · rw [List.mem_singleton.mp h]
    decide
  · exact Nat.digits_lt_base (by decide) h

theorem ofDigits_digits (n : Nat) : Nat.ofDigits 10 (digits n) = n := by
  unfold digits
  split
  · rename_i h
    rw [h]
    rfl
  · exact Nat.ofDigits_digits 10 n

theorem mem_decimal {n : Nat} {c : UInt8} (h : c ∈ decimal n) : ∃ d < 10, c = 48 + UInt8.ofNat d := by
  obtain ⟨d, hd, rfl⟩ := List.mem_map.mp h
  exact ⟨d, digits_lt (List.mem_reverse.mp hd), rfl⟩

theorem digit_ne {d : Nat} (hd : d < 10) : 48 + UInt8.ofNat d ≠ 0 ∧ 48 + UInt8.ofNat d ≠ 95 := by
  interval_cases d <;> decide

theorem digit_inj {d e : Nat} (hd : d < 10) (he : e < 10) (h : 48 + UInt8.ofNat d = 48 + UInt8.ofNat e) :
    d = e := by
  interval_cases d <;> interval_cases e <;> first | rfl | exact absurd h (by decide)

theorem not_mem_decimal (n : Nat) : 0 ∉ decimal n ∧ 95 ∉ decimal n := by
  constructor
  · intro h
    obtain ⟨d, hd, hc⟩ := mem_decimal h
    exact (digit_ne hd).1 hc.symm
  · intro h
    obtain ⟨d, hd, hc⟩ := mem_decimal h
    exact (digit_ne hd).2 hc.symm

/-- `name_k` -/
def numbered (name : CString) (k : Nat) : CString :=
  append name ⟨95 :: decimal k, by
    rw [List.mem_cons, not_or]
    exact ⟨by decide, (not_mem_decimal k).1⟩⟩

/-- What a pool reserves a zone for. -/
inductive Zone
  | header
  | ring
  | chunk (mzId : Nat)
  deriving DecidableEq

/-- The names that `rte_mempool_create_empty`, `common_ring_alloc` with `rte_ring_create`, and
`rte_mempool_populate_default` write. -/
def zoneName (name : CString) : Zone → CString
  | .header => append rteMempoolMzPrefix name
  | .ring => append rteRingMzPrefix (append rteMempoolMzPrefix name)
  | .chunk mzId => append rteMempoolMzPrefix (numbered name mzId)

/-- The order in which they are reserved: the ring is created when the first chunk is there. -/
def order : Nat → Zone
  | 0 => .header
  | 1 => .chunk 0
  | 2 => .ring
  | i + 3 => .chunk (i + 1)

/-! ## Creating pools -/

/-- The first `i` zones of the pool have been reserved. -/
inductive Creating (name : CString) : Nat → MemzoneTable → MemzoneTable → Prop
  | start (memzone : MemzoneTable) : Creating name 0 memzone memzone
  | next {i mz : Nat} {memzone memzone' memzone'' : MemzoneTable} (before : Creating name i memzone memzone')
      (code : Reserves memzone' memzone'' (zoneName name (order i)) mz) : Creating name (i + 1) memzone memzone''

/-- A pool with the number of its zones. -/
structure PoolZones where
  name : CString
  zones : Nat

/-- Pools of different names that have been created, with a header each, and populated. A pool of no objects
has no other zone. -/
inductive Populated : List PoolZones → MemzoneTable → Prop
  | start : Populated [] fun _ => RteMemzone.zero
  | create {pools : List PoolZones} {memzone memzone' : MemzoneTable} {p : PoolZones}
      (before : Populated pools memzone) (new : ∀ q ∈ pools, q.name ≠ p.name)
      (fits : (append rteMempoolMzPrefix p.name).length < rteRingNamesize) (header : 1 ≤ p.zones)
      (code : Creating p.name p.zones memzone memzone') : Populated (p :: pools) memzone'

/-- A reservation under the name fails with `EEXIST`. -/
def Taken (memzone : MemzoneTable) (name : CString) : Prop := memzoneLookupThreadUnsafe memzone name ≠ none

theorem reserve_of_taken {env : MemzoneEnv} {cfg : MemConfig} {name : CString} {len flags align bound : Nat}
    {socketId : Int} (h : Taken cfg.memzone name) (hcnt : cfg.memzoneCnt < rteMaxMemzone)
    (hlen : name.length < rteMemzoneNamesize) :
    memzoneReserveAlignedThreadUnsafe env cfg name len socketId flags align bound = (cfg, .error .eexist) := by
  have hshort : ¬name.length > rteMemzoneNamesize - 1 := by
    simp only [rteMemzoneNamesize] at hlen ⊢
    omega
  unfold Taken at h
  rw [memzoneReserveAlignedThreadUnsafe, if_neg (Nat.not_le.mpr hcnt), if_neg hshort, if_pos h]

/-- The zone of `name` has the name of a zone of the pool `p`: one of the two names is the other with
the number of a chunk. -/
def Collides (p : PoolZones) (name : CString) (zone : Zone) : Prop :=
  (zone = .header ∧ ∃ j < p.zones, ∃ k, order j = .chunk k ∧ name = numbered p.name k) ∨
    ∃ k, zone = .chunk k ∧ p.name = numbered name k

/-! ## Which names are equal -/

/-- The last underscore tells the name from the number. -/
theorem split_last {s t a b : List UInt8} {c : UInt8} (ha : c ∉ a) (hb : c ∉ b) (h : s ++ c :: a = t ++ c :: b) :
    s = t ∧ a = b := by
  rcases List.append_eq_append_iff.mp h with ⟨u, rfl, hu⟩ | ⟨u, rfl, hu⟩
  · cases u with
    | nil => exact ⟨by simp, (List.cons.inj hu).2⟩
    | cons x u =>
      rw [(List.cons.inj hu).2] at ha
      exact absurd (List.mem_append_right u List.mem_cons_self) ha
  · cases u with
    | nil => exact ⟨by simp, (List.cons.inj hu).2.symm⟩
    | cons x u =>
      rw [(List.cons.inj hu).2] at hb
      exact absurd (List.mem_append_right u List.mem_cons_self) hb

theorem map_digit_inj : ∀ {k l : List Nat}, (∀ d ∈ k, d < 10) → (∀ d ∈ l, d < 10) →
    k.map (fun d => 48 + UInt8.ofNat d) = l.map (fun d => 48 + UInt8.ofNat d) → k = l
  | [], [], _, _, _ => rfl
  | [], _ :: _, _, _, h => by simp at h
  | _ :: _, [], _, _, h => by simp at h
  | d :: k, e :: l, hk, hl, h => by
    rw [List.forall_mem_cons] at hk hl
    obtain ⟨hd, hrest⟩ := List.cons.inj h
    rw [digit_inj hk.1 hl.1 hd, map_digit_inj hk.2 hl.2 hrest]

theorem decimal_inj {m n : Nat} (h : decimal m = decimal n) : m = n := by
  have hdigits : (digits m).reverse = (digits n).reverse :=
    map_digit_inj (fun d hd => digits_lt (List.mem_reverse.mp hd)) (fun d hd => digits_lt (List.mem_reverse.mp hd)) h
  rw [← ofDigits_digits m, ← ofDigits_digits n, List.reverse_injective hdigits]

theorem numbered_inj {s t : CString} {m n : Nat} (h : numbered s m = numbered t n) : s = t ∧ m = n := by
  obtain ⟨hname, hnum⟩ := split_last (not_mem_decimal m).2 (not_mem_decimal n).2 (congrArg CString.bytes h)
  exact ⟨CString.ext hname, decimal_inj hnum⟩

/-- Names of rings begin with another letter. -/
theorem zoneName_ring {s t : CString} {z : Zone} (h : zoneName s z = zoneName t .ring) : z = .ring := by
  cases z with
  | header => exact absurd h.symm (append_prefix_ne _ _)
  | ring => rfl
  | chunk k => exact absurd h.symm (append_prefix_ne _ _)

theorem zoneName_eq_iff {s t : CString} {y z : Zone} (hne : s ≠ t) : zoneName s y = zoneName t z ↔
    (∃ k, y = .chunk k ∧ z = .header ∧ t = numbered s k) ∨ ∃ k, y = .header ∧ z = .chunk k ∧ s = numbered t k := by
  constructor
  · intro h
    cases z with
    | ring =>
      obtain rfl := zoneName_ring h
      exact absurd (append_inj (append_inj h)) hne
    | header =>
      cases y with
      | ring => exact absurd (zoneName_ring h.symm) (by decide)
      | header => exact absurd (append_inj h) hne
      | chunk k => exact .inl ⟨k, rfl, rfl, (append_inj h).symm⟩
    | chunk k =>
      cases y with
      | ring => exact absurd (zoneName_ring h.symm) (by simp)
      | header => exact .inr ⟨k, rfl, rfl, append_inj h⟩
      | chunk l => exact absurd (numbered_inj (append_inj h)).1 hne
  · rintro (⟨k, rfl, rfl, rfl⟩ | ⟨k, rfl, rfl, rfl⟩)
    · rfl
    · rfl

theorem numbered_ne (name : CString) (k : Nat) : name ≠ numbered name k := by
  intro h
  have hlen := congrArg CString.length h
  rw [numbered, length_append] at hlen
  simp only [CString.length, List.length_cons] at hlen
  omega

/-- The zones of one pool have different names. -/
theorem zoneName_inj {s : CString} {y z : Zone} (h : zoneName s y = zoneName s z) : y = z := by
  cases z with
  | ring => exact zoneName_ring h
  | header =>
    cases y with
    | ring => exact (zoneName_ring h.symm).symm
    | header => rfl
    | chunk k => exact absurd (append_inj h).symm (numbered_ne s k)
  | chunk k =>
    cases y with
    | ring => exact (zoneName_ring h.symm).symm
    | header => exact absurd (append_inj h) (numbered_ne s k)
    | chunk l => rw [(numbered_inj (append_inj h)).2]

theorem order_inj {i j : Nat} (h : order i = order j) : i = j := by
  unfold order at h
  split at h <;> split at h <;> simp_all

/-! ## What is in the table -/

/-- A zone of the name is reserved. -/
def InUse (memzone : MemzoneTable) (name : CString) : Prop := ∃ i, Reserved memzone i ∧ (memzone i).name = name

theorem taken_iff {memzone : MemzoneTable} (hok : TableOK memzone) {name : CString} :
    Taken memzone name ↔ InUse memzone name := by
  rw [Taken, Option.ne_none_iff_exists']
  exact exists_congr fun i => memzoneLookup_eq_some hok

theorem Reserves.inUse_iff {memzone memzone' : MemzoneTable} {name : CString} {mz : Nat}
    (h : Reserves memzone memzone' name mz) (name' : CString) :
    InUse memzone' name' ↔ InUse memzone name' ∨ name' = name := by
  obtain ⟨-, hfree, zone, rfl, hname, haddr⟩ := h.filled
  obtain ⟨hlt, hzero⟩ := getNextFreeMemzone_some hfree
  have hself := Function.update_self mz zone memzone
  constructor
  · rintro ⟨i, hi, hi'⟩
    by_cases heq : i = mz
    · rw [heq, hself] at hi'
      exact .inr (hi'.symm.trans hname)
    · rw [Function.update_of_ne heq] at hi'
      exact .inl ⟨i, (Reserved.update heq).mp hi, hi'⟩
  · rintro (⟨i, hi, hi'⟩ | rfl)
    · have hne : i ≠ mz := fun heq => hi.2 (heq ▸ hzero)
      exact ⟨i, (Reserved.update hne).mpr hi, by rw [Function.update_of_ne hne, hi']⟩
    · exact ⟨mz, ⟨hlt, by rwa [hself]⟩, by rw [hself, hname]⟩

theorem Creating.inUse_iff {name : CString} {i : Nat} {memzone memzone' : MemzoneTable}
    (h : Creating name i memzone memzone') (hok : TableOK memzone) : TableOK memzone' ∧ ∀ name',
      InUse memzone' name' ↔ InUse memzone name' ∨ ∃ j < i, name' = zoneName name (order j) := by
  induction h with
  | start => exact ⟨hok, fun name' => by simp⟩
  | @next i mz _ _ _ before code ih =>
    obtain ⟨hok', hnames⟩ := ih hok
    refine ⟨code.tableOK hok', fun name' => ?_⟩
    rw [Reserves.inUse_iff code, hnames, or_assoc]
    refine or_congr_right ⟨?_, ?_⟩
    · rintro (⟨j, hj, heq⟩ | heq)
      · exact ⟨j, by omega, heq⟩
      · exact ⟨i, by omega, heq⟩
    · rintro ⟨j, hj, heq⟩
      rcases Nat.lt_or_eq_of_le (show j ≤ i by omega) with hlt | rfl
      · exact .inl ⟨j, hlt, heq⟩
      · exact .inr heq

/-- The zones in use are those of the pools. -/
theorem Populated.inUse_iff {pools : List PoolZones} {memzone : MemzoneTable} (h : Populated pools memzone) :
    TableOK memzone ∧ ∀ name,
      InUse memzone name ↔ ∃ p ∈ pools, ∃ j < p.zones, name = zoneName p.name (order j) := by
  induction h with
  | start =>
    refine ⟨tableOK_zero, fun name => ⟨?_, ?_⟩⟩
    · rintro ⟨i, hi, -⟩
      exact absurd rfl hi.2
    · rintro ⟨p, hp, -⟩
      exact absurd hp List.not_mem_nil
  | @create pools _ _ p _ _ _ _ code ih =>
    obtain ⟨hok, hnames⟩ := ih
    obtain ⟨hok', hnames'⟩ := code.inUse_iff hok
    refine ⟨hok', fun name => ?_⟩
    rw [hnames', hnames]
    simp only [List.mem_cons, exists_eq_or_imp]
    exact or_comm

/-- Every pool has a header. -/
theorem Populated.pos {pools : List PoolZones} {memzone : MemzoneTable} (h : Populated pools memzone)
    {p : PoolZones} (hp : p ∈ pools) : 0 < p.zones := by
  induction h with
  | start => exact absurd hp List.not_mem_nil
  | create _ _ _ hheader _ ih =>
    rcases List.mem_cons.mp hp with rfl | hp
    · exact hheader
    · exact ih hp

/-- **A further pool** meets a zone that is taken exactly where one name is the other with the number of
a chunk. -/
theorem zone_taken_iff {pools : List PoolZones} {memzone memzone' : MemzoneTable} (h : Populated pools memzone)
    {name : CString} (hnew : ∀ p ∈ pools, p.name ≠ name) {i : Nat} (hc : Creating name i memzone memzone') :
    Taken memzone' (zoneName name (order i)) ↔ ∃ p ∈ pools, Collides p name (order i) := by
  obtain ⟨hok, hnames⟩ := h.inUse_iff
  obtain ⟨hok', hnames'⟩ := hc.inUse_iff hok
  rw [taken_iff hok', hnames', hnames]
  constructor
  · rintro (⟨p, hp, j, hj, heq⟩ | ⟨j, hj, heq⟩)
    · refine ⟨p, hp, ?_⟩
      rcases (zoneName_eq_iff (hnew p hp)).mp heq.symm with ⟨k, hk, hz, hname⟩ | ⟨k, -, hz, hname⟩
      · exact .inl ⟨hz, j, hj, k, hk, hname⟩
      · exact .inr ⟨k, hz, hname⟩
    · have hsame := order_inj (zoneName_inj heq)
      omega
  · rintro ⟨p, hp, ⟨hz, j, hj, k, hk, hname⟩ | ⟨k, hz, hname⟩⟩
    · exact .inl ⟨p, hp, j, hj, ((zoneName_eq_iff (hnew p hp)).mpr (.inl ⟨k, hk, hz, hname⟩)).symm⟩
    · have hpos := h.pos hp
      exact .inl ⟨p, hp, 0, hpos, ((zoneName_eq_iff (hnew p hp)).mpr (.inr ⟨k, rfl, hz, hname⟩)).symm⟩

/-! ## The pools `"p"` and `"p_0"` -/

def poolP : CString := ⟨[112], by decide⟩

/-- The first zones of the pool `"p"` can be reserved in an empty table. -/
theorem exists_creating : ∀ i ≤ 3, ∃ memzone, Creating poolP i (fun _ => RteMemzone.zero) memzone ∧
    ∀ j, Reserved memzone j ↔ j < i
  | 0, _ => ⟨_, .start _, fun j => iff_of_false (fun h => absurd rfl h.2) (Nat.not_lt_zero j)⟩
  | i + 1, hi => by
    obtain ⟨memzone, hc, hres⟩ := exists_creating i (by omega)
    obtain ⟨hok, hnames⟩ := hc.inUse_iff tableOK_zero
    have hlen : (zoneName poolP (order i)).length < rteMemzoneNamesize := by
      have hall : ∀ k < 3, (zoneName poolP (order k)).length < rteMemzoneNamesize := by decide
      exact hall i (by omega)
    have hfree : NameFree memzone (zoneName poolP (order i)) := by
      refine nameFree_of_ne hok hlen fun j hj hname => ?_
      rcases (hnames _).mp ⟨j, hj, hname⟩ with ⟨k, hk, -⟩ | ⟨k, hk, heq⟩
      · exact absurd rfl hk.2
      · have hsame := order_inj (zoneName_inj heq)
        omega
    have hlt : i < rteMaxMemzone := Nat.lt_of_lt_of_le (show i < 3 by omega) (by decide)
    have hnext : getNextFreeMemzone memzone = some i := by
      refine getNextFreeMemzone_eq hlt ?_ fun j hj => ((hres j).mpr hj).2
      by_contra haddr
      exact absurd ((hres i).mp ⟨hlt, haddr⟩) (Nat.lt_irrefl i)
    obtain ⟨memzone', hcode⟩ := exists_reserves hfree hnext
    refine ⟨memzone', hc.next hcode, fun j => ?_⟩
    obtain ⟨-, -, zone, rfl, -, haddr⟩ := hcode.filled
    by_cases hji : j = i
    · have hself : Reserved (Function.update memzone i zone) i := ⟨hlt, by rwa [Function.update_self]⟩
      rw [hji]
      exact iff_of_true hself (by omega)
    · rw [Reserved.update hji, hres]
      omega

theorem exists_poolP : ∃ memzone, Populated [⟨poolP, 3⟩] memzone := by
  obtain ⟨memzone, hc, -⟩ := exists_creating 3 (Nat.le_refl 3)
  exact ⟨memzone, .create .start (fun _ h => absurd h List.not_mem_nil) (by decide) (by decide) hc⟩

/-- The pool `"q"` finds no zone taken. -/
theorem zone_taken_iff_q : ∃ memzone, Populated [⟨poolP, 3⟩] memzone ∧
    ¬Taken memzone (zoneName ⟨[113], by decide⟩ .header) := by
  obtain ⟨memzone, h⟩ := exists_poolP
  refine ⟨memzone, h, fun htaken => ?_⟩
  have hne : ∀ p ∈ [PoolZones.mk poolP 3], p.name ≠ ⟨[113], by decide⟩ := by decide
  obtain ⟨p, hp, hcol⟩ := (zone_taken_iff h hne (.start memzone)).mp htaken
  rw [List.mem_singleton.mp hp] at hcol
  rcases hcol with ⟨-, j, hj, k, -, hname⟩ | ⟨k, hz, -⟩
  · have hlen := congrArg CString.length hname
    rw [numbered, length_append] at hlen
    simp [CString.length, poolP] at hlen
  · cases hz

/-- The header of the pool `"p_0"` has the name of the first chunk of `"p"`. -/
theorem not_zones_apart : ∃ memzone, Populated [⟨poolP, 3⟩] memzone ∧ poolP ≠ numbered poolP 0 ∧
    (append rteMempoolMzPrefix (numbered poolP 0)).length < rteRingNamesize ∧
      Taken memzone (zoneName (numbered poolP 0) .header) := by
  obtain ⟨memzone, h⟩ := exists_poolP
  refine ⟨memzone, h, by decide, by decide, ?_⟩
  obtain ⟨hok, hnames⟩ := h.inUse_iff
  exact (taken_iff hok).mpr ((hnames _).mpr ⟨_, List.mem_cons_self, 1, by decide, rfl⟩)

end MempoolZones
