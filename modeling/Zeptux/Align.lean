import Zeptux.Common

/-! Rounding with masks is rounding with division. -/

namespace Zeptux

open Word

theorem align_eq {number bits : Nat} (bound : number < 2 ^ 64) (small : bits ≤ 64) :
    align number (2 ^ bits) = number / 2 ^ bits * 2 ^ bits :=
  and_not64_low bound small

theorem alignUp_eq {number bits : Nat} (bound : number + (2 ^ bits - 1) < 2 ^ 64)
    (small : bits ≤ 64) :
    alignUp number (2 ^ bits) = (number + (2 ^ bits - 1)) / 2 ^ bits * 2 ^ bits := by
  have positive : 0 < 2 ^ bits := Nat.two_pow_pos bits
  have sum : sub64 (add64 number (2 ^ bits)) 1 = number + (2 ^ bits - 1) := by
    by_cases wraps : number + 2 ^ bits = 2 ^ 64
    · rw [add64, wraps, sub64]
      omega
    · rw [add64_eq (by omega), sub64_eq (by omega) (by omega), Nat.add_sub_assoc positive]
  rw [alignUp, sum, align_eq bound small]

theorem bytesToPages_eq {bytes : Nat} (bound : bytes + 2 ^ 12 < 2 ^ 64) :
    bytesToPages bytes = (bytes + 4095) / 2 ^ 12 := by
  rw [bytesToPages, pageSize, pageShift, alignUp_eq (by omega) (by omega), Nat.shiftRight_eq_div_pow,
    Nat.mul_div_cancel _ (Nat.two_pow_pos 12)]
  rfl

theorem isAligned_iff (number bits : Nat) :
    isAligned number (2 ^ bits) = true ↔ 2 ^ bits ∣ number := by
  rw [isAligned, beq_iff_eq, Nat.and_two_pow_sub_one_eq_mod, Nat.dvd_iff_mod_eq_zero]

end Zeptux
