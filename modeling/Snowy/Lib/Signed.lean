import Mathlib.Algebra.Order.Group.Int
import Mathlib.Data.Int.Notation
import Mathlib.Order.Lattice

/-!
# Signed arithmetic that may overflow

Machine integers are integers with a range. The operations of this file are partial: a result that
does not fit has no value.

## Main definitions

* `Signed.Fits` : the range of a signed number of the given width.
* `Signed.add`, `Signed.sub` : addition and subtraction, undefined on overflow.
-/

namespace Signed

variable {bits : ℕ} {x y : ℤ}

/-- The integer is a signed number with the given number of bits. -/
def Fits (bits : ℕ) (x : ℤ) : Prop := -2 ^ (bits - 1) ≤ x ∧ x < 2 ^ (bits - 1)

instance (bits : ℕ) (x : ℤ) : Decidable (Fits bits x) := inferInstanceAs (Decidable (_ ∧ _))

/-- Addition, undefined on overflow. -/
def add (bits : ℕ) (x y : ℤ) : Option ℤ := if Fits bits (x + y) then some (x + y) else none

/-- Subtraction, undefined on overflow. -/
def sub (bits : ℕ) (x y : ℤ) : Option ℤ := if Fits bits (x - y) then some (x - y) else none

theorem add_eq_some (h : Fits bits (x + y)) : add bits x y = some (x + y) := if_pos h

theorem sub_eq_some (h : Fits bits (x - y)) : sub bits x y = some (x - y) := if_pos h

theorem sub_eq_none_iff : sub bits x y = none ↔ ¬Fits bits (x - y) := by
  rw [sub]
  split_ifs with h
  · exact iff_of_false nofun (not_not_intro h)
  · exact iff_of_true rfl h

/-- A difference of numbers, the second of which is not negative, is not too large. -/
theorem fits_sub (hx : Fits bits x) (hy : 0 ≤ y) (h : -2 ^ (bits - 1) ≤ x - y) :
    Fits bits (x - y) :=
  ⟨h, (Int.sub_le_self x hy).trans_lt hx.2⟩

end Signed
