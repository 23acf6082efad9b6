import Mathlib.Data.Nat.Bitwise

/-! Unsigned machine arithmetic on natural numbers, with the wrap-around written out. -/

namespace Word

def add64 (left right : Nat) : Nat := (left + right) % 2 ^ 64

def sub64 (left right : Nat) : Nat := (left + (2 ^ 64 - right)) % 2 ^ 64

def not64 (word : Nat) : Nat := word ^^^ (2 ^ 64 - 1)

def toInt32 (value : Int) : Int := value.bmod (2 ^ 32)

def toUint64 (value : Int) : Nat := (value % 2 ^ 64).toNat

theorem add64_eq {left right : Nat} (bound : left + right < 2 ^ 64) :
    add64 left right = left + right := Nat.mod_eq_of_lt bound

theorem sub64_eq {left right : Nat} (order : right ≤ left) (bound : left < 2 ^ 64) :
    sub64 left right = left - right := by
  unfold sub64
  omega

theorem sub64_add64 {left right offset : Nat} (fits : sub64 left right + offset < 2 ^ 64) :
    sub64 (add64 left offset) right = sub64 left right + offset := by
  unfold sub64 add64 at *
  omega

theorem toInt32_of_bounds {value : Int} (low : -2 ^ 31 ≤ value) (high : value < 2 ^ 31) :
    toInt32 value = value := by
  unfold toInt32
  rw [Int.bmod_eq_of_le] <;> omega

theorem toInt32_eq {value : Nat} (small : value < 2 ^ 31) : toInt32 value = value :=
  toInt32_of_bounds (by omega) (by omega)

theorem toInt32_large {value : Nat} (large : 2 ^ 31 ≤ value) (word : value < 2 ^ 32) :
    toInt32 value = value - 2 ^ 32 := by
  rw [toInt32, Int.bmod_def]
  split_ifs <;> omega

theorem and_not64_low {word bits : Nat} (bound : word < 2 ^ 64) (small : bits ≤ 64) :
    word &&& not64 (2 ^ bits - 1) = word / 2 ^ bits * 2 ^ bits := by
  apply Nat.eq_of_testBit_eq
  intro index
  have shape : word / 2 ^ bits * 2 ^ bits = word >>> bits <<< bits := by
    rw [Nat.shiftRight_eq_div_pow, Nat.shiftLeft_eq]
  rw [shape, Nat.testBit_and, not64, Nat.testBit_xor, Nat.testBit_two_pow_sub_one,
    Nat.testBit_two_pow_sub_one, Nat.testBit_shiftLeft, Nat.testBit_shiftRight]
  by_cases low : index < bits
  · have inside : index < 64 := by omega
    simp [low, inside]
  · have high : bits ≤ index := by omega
    rw [Nat.add_sub_cancel' high]
    by_cases inside : index < 64
    · simp [low, inside, high]
    · have zero : word.testBit index = false :=
        Nat.testBit_lt_two_pow (Nat.lt_of_lt_of_le bound (Nat.pow_le_pow_right (by omega) (by omega)))
      simp [zero]

end Word
