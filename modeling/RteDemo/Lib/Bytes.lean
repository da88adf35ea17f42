import Mathlib.Algebra.Group.Nat.Defs
import Mathlib.Tactic.Common

/-!
# Byte-addressed memory and records in it

**Memory** (`Mem`) gives every address a byte. `load` and `store` move little-endian numbers of
any width, `fill` and `copy` are the block operations.

**Records** (`Layout`). A layout places named fields at fixed offsets inside `size` bytes, with
the proof that the fields stay inside and do not overlap. `get` and `set` access one field of
the record at an address. Writing one field leaves the others alone (`get_set_ne`), and so does
writing to a record elsewhere (`get_set_far`).

What an operation may have changed is stated with `Agree m m' lo hi`: the two memories hold the
same bytes from `lo` up to `hi`.
-/

namespace Bytes

abbrev Mem := Nat → UInt8

/-- The `n`-byte little-endian number at `a`. -/
def load (m : Mem) (a : Nat) : Nat → Nat
  | 0 => 0
  | n + 1 => (m a).toNat + 256 * load m (a + 1) n

/-- Write the low `n` bytes of `v` at `a`. -/
def store (m : Mem) (a n v : Nat) : Mem := fun x =>
  if a ≤ x ∧ x < a + n then UInt8.ofNat (v / 256 ^ (x - a)) else m x

/-- Set `n` bytes from `a` to `b`. -/
def fill (m : Mem) (a n : Nat) (b : UInt8) : Mem := fun x =>
  if a ≤ x ∧ x < a + n then b else m x

/-- Copy `n` bytes from `src` to `dst`. -/
def copy (m : Mem) (dst src n : Nat) : Mem := fun x =>
  if dst ≤ x ∧ x < dst + n then m (src + (x - dst)) else m x

/-- The two memories hold the same bytes from `lo` up to `hi`. -/
def Agree (m m' : Mem) (lo hi : Nat) : Prop := ∀ x, lo ≤ x → x < hi → m' x = m x

theorem Agree.mono {m m' : Mem} {lo hi lo' hi' : Nat} (h : Agree m m' lo hi) (hlo : lo ≤ lo')
    (hhi : hi' ≤ hi) : Agree m m' lo' hi' :=
  fun x hx hx' => h x (Nat.le_trans hlo hx) (Nat.lt_of_lt_of_le hx' hhi)

theorem Agree.refl (m : Mem) (lo hi : Nat) : Agree m m lo hi := fun _ _ _ => rfl

theorem Agree.trans {m m' m'' : Mem} {lo hi : Nat} (h : Agree m m' lo hi)
    (h' : Agree m' m'' lo hi) : Agree m m'' lo hi :=
  fun x hx hx' => (h' x hx hx').trans (h x hx hx')

theorem Agree.symm {m m' : Mem} {lo hi : Nat} (h : Agree m m' lo hi) : Agree m' m lo hi :=
  fun x hx hx' => (h x hx hx').symm

/-! ## Loads and stores -/

theorem load_congr {m m' : Mem} :
    ∀ {n a : Nat}, Agree m m' a (a + n) → load m' a n = load m a n
  | 0, _, _ => rfl
  | n + 1, a, h => by
    have ih : load m' (a + 1) n = load m (a + 1) n :=
      load_congr (h.mono (by omega) (by omega))
    rw [load, load, ih, h a (Nat.le_refl a) (by omega)]

theorem load_lt (m : Mem) : ∀ n a, load m a n < 256 ^ n
  | 0, _ => by simp [load]
  | n + 1, a => by
    have ih := load_lt m n (a + 1)
    have hb := (m a).toNat_lt
    rw [load, Nat.pow_succ]
    omega

theorem store_out {m : Mem} {a n v x : Nat} (h : x < a ∨ a + n ≤ x) : store m a n v x = m x :=
  if_neg (by omega)

theorem fill_in {m : Mem} {a n x : Nat} {b : UInt8} (h : a ≤ x) (h' : x < a + n) :
    fill m a n b x = b := if_pos ⟨h, h'⟩

theorem fill_out {m : Mem} {a n x : Nat} {b : UInt8} (h : x < a ∨ a + n ≤ x) :
    fill m a n b x = m x :=
  if_neg (by omega)

theorem copy_in {m : Mem} {dst src n x : Nat} (h : dst ≤ x) (h' : x < dst + n) :
    copy m dst src n x = m (src + (x - dst)) := if_pos ⟨h, h'⟩

theorem copy_out {m : Mem} {dst src n x : Nat} (h : x < dst ∨ dst + n ≤ x) :
    copy m dst src n x = m x :=
  if_neg (by omega)

/-- Reading from inside a stored number: byte by byte, the digits of `v`. -/
theorem load_store_digits (m : Mem) (a n v : Nat) :
    ∀ k j, j + k = n → load (store m a n v) (a + j) k = v / 256 ^ j % 256 ^ k
  | 0, j, _ => by simp [load, Nat.mod_one]
  | k + 1, j, h => by
    have ih := load_store_digits m a n v k (j + 1) (by omega)
    rw [load, Nat.add_assoc, ih, store, if_pos (by omega), UInt8.toNat_ofNat',
      Nat.add_sub_cancel_left, Nat.pow_succ 256 j, ← Nat.div_div_eq_div_mul,
      Nat.pow_succ 256 k, Nat.mul_comm (256 ^ k), Nat.mod_mul]

theorem load_store_self (m : Mem) (a n v : Nat) : load (store m a n v) a n = v % 256 ^ n := by
  simpa using load_store_digits m a n v n 0 (by omega)

theorem load_store_apart {m : Mem} {a n b k v : Nat} (h : a + n ≤ b ∨ b + k ≤ a) :
    load (store m b k v) a n = load m a n :=
  load_congr fun _ hx hx' => store_out (by omega)

theorem load_zero {m : Mem} : ∀ {n a : Nat}, (∀ x, a ≤ x → x < a + n → m x = 0) → load m a n = 0
  | 0, _, _ => rfl
  | n + 1, a, h => by
    have ih : load m (a + 1) n = 0 := load_zero fun x hx hx' => h x (by omega) (by omega)
    rw [load, ih, h a (Nat.le_refl a) (by omega)]
    rfl

/-! ## Records -/

/-- Named fields at fixed offsets, inside `size` bytes and pairwise disjoint. -/
structure Layout (F : Type) where
  size : Nat
  off : F → Nat
  width : F → Nat
  inside : ∀ f, off f + width f ≤ size
  apart : ∀ f g, f ≠ g → off f + width f ≤ off g ∨ off g + width g ≤ off f

namespace Layout

variable {F : Type} (L : Layout F)

/-- The value of field `f` of the record at `a`. -/
def get (f : F) (m : Mem) (a : Nat) : Nat := load m (a + L.off f) (L.width f)

/-- Write field `f` of the record at `a`. -/
def set (f : F) (m : Mem) (a v : Nat) : Mem := store m (a + L.off f) (L.width f) v

theorem get_lt (f : F) (m : Mem) (a : Nat) : L.get f m a < 256 ^ L.width f := load_lt m _ _

theorem get_set_self (f : F) (m : Mem) (a v : Nat) :
    L.get f (L.set f m a v) a = v % 256 ^ L.width f := load_store_self m _ _ v

theorem get_set_ne {f g : F} (h : f ≠ g) (m : Mem) (a v : Nat) :
    L.get f (L.set g m a v) a = L.get f m a :=
  load_store_apart (by have := L.apart f g h; omega)

theorem get_set_far {f g : F} {m : Mem} {a b v : Nat} (h : a + L.size ≤ b ∨ b + L.size ≤ a) :
    L.get f (L.set g m b v) a = L.get f m a :=
  load_store_apart (by have := L.inside f; have := L.inside g; omega)

theorem get_congr {f : F} {m m' : Mem} {a : Nat} (h : Agree m m' a (a + L.size)) :
    L.get f m' a = L.get f m a :=
  load_congr (h.mono (by omega) (by have := L.inside f; omega))

/-- A field only depends on its own bytes. -/
theorem get_agree {f : F} {m m' : Mem} {a lo hi : Nat} (h : Agree m m' lo hi)
    (hlo : lo ≤ a + L.off f) (hhi : a + L.off f + L.width f ≤ hi) : L.get f m' a = L.get f m a :=
  load_congr (h.mono hlo hhi)

theorem get_zero {f : F} {m : Mem} {a : Nat} (h : ∀ x, a ≤ x → x < a + L.size → m x = 0) :
    L.get f m a = 0 :=
  load_zero fun x hx hx' => h x (by omega) (by have := L.inside f; omega)

theorem set_out {f : F} {m : Mem} {a v x : Nat} (h : x < a + L.off f ∨ a + L.off f + L.width f ≤ x) :
    L.set f m a v x = m x := store_out h

/-- A write to a record leaves the bytes outside the record alone. -/
theorem set_out_record {f : F} {m : Mem} {a v x : Nat} (h : x < a ∨ a + L.size ≤ x) :
    L.set f m a v x = m x :=
  store_out (by have := L.inside f; omega)

end Layout

end Bytes
