/- Module: Mewa/Lib/Bits
   digest: Numbers that are put into the bits of another one, and taken out of them again. -/

import Mathlib.Data.Int.Bitwise

set_option autoImplicit false
set_option relaxedAutoImplicit false

namespace Mewa.Lib

theorem lor_shifted {a b : Int} {n : Nat} (front : 0 ≤ a) (back : 0 ≤ b) (low : b < 2 ^ n) :
    Int.lor (a * 2 ^ n) b = a * 2 ^ n + b := by
  obtain ⟨a, rfl⟩ := Int.eq_ofNat_of_zero_le front
  obtain ⟨b, rfl⟩ := Int.eq_ofNat_of_zero_le back
  have low : b < 2 ^ n := by exact_mod_cast low
  have or_eq : a * 2 ^ n ||| b = a * 2 ^ n + b := by
    rw [← Nat.shiftLeft_eq, Nat.shiftLeft_add_eq_or_of_lt low]
  have cast : ((a : Int) * 2 ^ n) = ((a * 2 ^ n : Nat) : Int) := by push_cast; rfl
  rw [cast]
  show ((a * 2 ^ n ||| b : Nat) : Int) = _
  rw [or_eq]
  push_cast
  rfl

theorem land_mask {a : Int} (positive : 0 ≤ a) (n : Nat) :
    Int.land a ((2 ^ n - 1 : Nat) : Int) = a % 2 ^ n := by
  obtain ⟨a, rfl⟩ := Int.eq_ofNat_of_zero_le positive
  show ((a &&& (2 ^ n - 1) : Nat) : Int) = _
  rw [Nat.and_two_pow_sub_one_eq_mod]
  push_cast
  rfl

end Mewa.Lib
