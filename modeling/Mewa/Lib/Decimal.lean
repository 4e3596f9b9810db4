/- Module: Mewa/Lib/Decimal
   digest: The characters of numbers in decimal notation. -/

import Mathlib

set_option autoImplicit false
set_option relaxedAutoImplicit false

namespace Mewa.Lib

theorem digits_of_nonneg {n : Int} (nonneg : 0 ≤ n) :
    (toString n).toList = Nat.toDigits 10 n.toNat := by
  obtain ⟨n, rfl⟩ := Int.eq_ofNat_of_zero_le nonneg
  show (Nat.repr n).toList = _
  exact Nat.toList_repr

theorem digits_of_nat (n : Nat) : (toString n).toList = Nat.toDigits 10 n := Nat.toList_repr

theorem digits_of_neg {n : Int} (neg : n < 0) :
    (toString n).toList = '-' :: Nat.toDigits 10 (-n).toNat := by
  obtain ⟨m, rfl⟩ : ∃ m : Nat, n = Int.negSucc m := ⟨(-n - 1).toNat, by omega⟩
  show ("-" ++ Nat.repr (m + 1)).toList = _
  rw [String.toList_append, Nat.toList_repr]
  rfl

theorem isDigit_of_mem {n : Nat} {ch : Char} (mem : ch ∈ Nat.toDigits 10 n) :
    '0' ≤ ch ∧ ch ≤ '9' := by
  have digit := Nat.isDigit_of_mem_toDigits (by omega) (by omega) mem
  simp only [Char.isDigit, ge_iff_le, Bool.and_eq_true, decide_eq_true_eq] at digit
  exact digit

theorem digit_or_sign {n : Int} {ch : Char} (mem : ch ∈ (toString n).toList) :
    ch = '-' ∨ '0' ≤ ch ∧ ch ≤ '9' := by
  rcases lt_or_ge n 0 with neg | nonneg
  · rw [digits_of_neg neg] at mem
    rcases List.mem_cons.mp mem with sign | mem
    · exact Or.inl sign
    · exact Or.inr (isDigit_of_mem mem)
  · rw [digits_of_nonneg nonneg] at mem
    exact Or.inr (isDigit_of_mem mem)

theorem not_mem_number {n : Int} {ch : Char} (no_sign : ch ≠ '-')
    (no_digit : ¬ ('0' ≤ ch ∧ ch ≤ '9')) : ch ∉ (toString n).toList := fun mem =>
  (digit_or_sign mem).elim no_sign no_digit

theorem number_ne_nil (n : Int) : (toString n).toList ≠ [] := by
  rcases lt_or_ge n 0 with neg | nonneg
  · rw [digits_of_neg neg]
    exact List.cons_ne_nil _ _
  · rw [digits_of_nonneg nonneg]
    exact Nat.toDigits_ne_nil

theorem number_injective {n m : Int} (same : (toString n).toList = (toString m).toList) : n = m :=
  Int.repr_injective (String.toList_inj.mp same)

end Mewa.Lib
