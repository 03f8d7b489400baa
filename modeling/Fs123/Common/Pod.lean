import Fs123.Common.Bytes
import Mathlib.Data.Int.Init
import Mathlib.Tactic.Positivity

/-!
# Plain data in memory

How a little-endian machine lays out integers and arrays of characters. A `Pod` is a type of plain data: how
many bytes it takes, and how a value is put there and got back. The members of a structure without padding
make one by `Pod.prod`.
-/

namespace Cxx

/-! ## Little-endian numbers -/

/-- The low `w` bytes of a number. -/
def leBytes : ℕ → ℕ → Bytes
  | 0, _ => []
  | w + 1, n => UInt8.ofNat (n % 256) :: leBytes w (n / 256)

/-- The number that some bytes hold. -/
def ofLe (b : Bytes) : ℕ := Nat.ofDigits 256 (b.map UInt8.toNat)

@[simp] theorem leBytes_length (w n : ℕ) : (leBytes w n).length = w := by
  induction w generalizing n with
  | zero => rfl
  | succ w ih => rw [leBytes, List.length_cons, ih]

theorem ofLe_leBytes (w n : ℕ) : ofLe (leBytes w n) = n % 256 ^ w := by
  induction w generalizing n with
  | zero => simp [leBytes, ofLe, Nat.mod_one]
  | succ w ih =>
    have hbyte : n % 256 % 2 ^ 8 = n % 256 := Nat.mod_eq_of_lt (by omega)
    unfold ofLe at ih ⊢
    rw [leBytes, List.map_cons, Nat.ofDigits_cons, ih, UInt8.toNat_ofNat', hbyte, pow_succ', Nat.mod_mul]

theorem ofLe_lt (b : Bytes) : ofLe b < 256 ^ b.length := by
  unfold ofLe
  rw [← List.length_map UInt8.toNat]
  apply Nat.ofDigits_lt_base_pow_length (by decide)
  intro d hd
  obtain ⟨c, -, rfl⟩ := List.mem_map.mp hd
  exact UInt8.toNat_lt c

/-! ## Plain data -/

/-- A type of plain data. -/
structure Pod (α : Type*) where
  size : ℕ
  put : α → Bytes
  get : Bytes → α
  /-- The values that the type has. -/
  Fits : α → Prop
  put_length : ∀ {a}, Fits a → (put a).length = size
  get_put : ∀ {a}, Fits a → get (put a) = a

namespace Pod

variable {α β : Type*}

/-- An unsigned integer of `w` bytes. -/
def uint (w : ℕ) : Pod ℕ where
  size := w
  put n := leBytes w n
  get := ofLe
  Fits n := n < 256 ^ w
  put_length _ := leBytes_length w _
  get_put h := by rw [ofLe_leBytes, Nat.mod_eq_of_lt h]

/-- A number that is put into `w` bytes is taken modulo their range. -/
theorem ofLe_leBytes_bmod (w : ℕ) (z : ℤ) :
    (ofLe (leBytes w (z % (256 ^ w : ℕ)).toNat) : ℤ).bmod (256 ^ w) = z.bmod (256 ^ w) := by
  have hpos : (0 : ℤ) ≤ z % (256 ^ w : ℕ) := Int.emod_nonneg _ (by positivity)
  rw [ofLe_leBytes, Int.natCast_mod, Int.toNat_of_nonneg hpos, Int.emod_emod_of_dvd _ (dvd_refl _),
    Int.emod_bmod]

/-- A signed integer of `w` bytes. -/
def int (w : ℕ) : Pod ℤ where
  size := w
  put z := leBytes w (z % (256 ^ w : ℕ)).toNat
  get b := (ofLe b : ℤ).bmod (256 ^ w)
  Fits z := z.bmod (256 ^ w) = z
  put_length _ := leBytes_length w _
  get_put h := (ofLe_leBytes_bmod w _).trans h

instance (w n : ℕ) : Decidable ((uint w).Fits n) := inferInstanceAs (Decidable (n < 256 ^ w))

instance (w : ℕ) (z : ℤ) : Decidable ((int w).Fits z) := inferInstanceAs (Decidable (z.bmod (256 ^ w) = z))

/-- An array of characters. -/
def chars (n : ℕ) : Pod Bytes where
  size := n
  put a := a
  get b := b
  Fits a := a.length = n
  put_length h := h
  get_put _ := rfl

/-- Two members, one after the other. -/
def prod (p : Pod α) (q : Pod β) : Pod (α × β) where
  size := p.size + q.size
  put a := p.put a.1 ++ q.put a.2
  get b := (p.get (b.take p.size), q.get (b.drop p.size))
  Fits a := p.Fits a.1 ∧ q.Fits a.2
  put_length h := by rw [List.length_append, p.put_length h.1, q.put_length h.2]
  get_put h := by
    rw [List.take_left' (p.put_length h.1), List.drop_left' (p.put_length h.1), p.get_put h.1, q.get_put h.2]

end Pod

end Cxx
