import Mathlib.Algebra.Group.Nat.Defs
import Mathlib.Data.List.Basic

/-! Memory as a function from addresses to bytes. -/

abbrev ByteMemory := Nat → UInt8

namespace ByteMemory

/-- The number that `count` bytes from `index` on stand for, the lowest first. -/
def littleEndian (bytes : ByteMemory) (index : Nat) : Nat → Nat
  | 0 => 0
  | count + 1 => (bytes index).toNat + 256 * littleEndian bytes (index + 1) count

theorem littleEndian_congr {bytes other : ByteMemory} {count : Nat} : ∀ {index : Nat},
    (∀ offset < count, bytes (index + offset) = other (index + offset)) →
      littleEndian bytes index count = littleEndian other index count := by
  induction count with
  | zero => exact fun _ => rfl
  | succ count ih =>
      intro index same
      have first := same 0 (Nat.succ_pos count)
      have rest : littleEndian bytes (index + 1) count = littleEndian other (index + 1) count := by
        refine ih fun offset inside => ?_
        have later := same (offset + 1) (by omega)
        rwa [show index + (offset + 1) = index + 1 + offset by omega] at later
      rw [littleEndian, littleEndian, rest]
      rw [Nat.add_zero] at first
      rw [first]

theorem littleEndian_of_shift {bytes other : ByteMemory} {count index place : Nat}
    (same : ∀ offset < count, bytes (index + offset) = other (place + offset)) :
    littleEndian bytes index count = littleEndian other place count := by
  induction count generalizing index place with
  | zero => rfl
  | succ count ih =>
      have first := same 0 (Nat.succ_pos count)
      have rest : littleEndian bytes (index + 1) count = littleEndian other (place + 1) count := by
        refine ih fun offset inside => ?_
        have later := same (offset + 1) (by omega)
        rwa [show index + (offset + 1) = index + 1 + offset by omega,
          show place + (offset + 1) = place + 1 + offset by omega] at later
      rw [littleEndian, littleEndian, rest]
      rw [Nat.add_zero, Nat.add_zero] at first
      rw [first]

def overwrite (bytes : ByteMemory) (start length : Nat) (source : Nat → UInt8) : ByteMemory := fun index =>
  if start ≤ index ∧ index < start + length then source (index - start) else bytes index

theorem overwrite_inside {bytes : ByteMemory} {start length : Nat} {source : Nat → UInt8} {index : Nat}
    (after : start ≤ index) (before : index < start + length) :
    overwrite bytes start length source index = source (index - start) := if_pos ⟨after, before⟩

theorem overwrite_outside {bytes : ByteMemory} {start length : Nat} {source : Nat → UInt8} {index : Nat}
    (outside : index < start ∨ start + length ≤ index) :
    overwrite bytes start length source index = bytes index := if_neg (by omega)

theorem overwrite_overwrite (bytes : ByteMemory) (start first second : Nat) (source : Nat → UInt8) :
    overwrite (overwrite bytes start first source) (start + first) second
        (fun offset => source (first + offset)) =
      overwrite bytes start (first + second) source := by
  funext index
  by_cases inside : start ≤ index ∧ index < start + (first + second)
  · rw [overwrite_inside inside.1 inside.2]
    by_cases late : start + first ≤ index
    · rw [overwrite_inside late (by omega)]
      congr 1
      omega
    · rw [overwrite_outside (by omega), overwrite_inside inside.1 (by omega)]
  · rw [overwrite_outside (by omega), overwrite_outside (by omega), overwrite_outside (by omega)]

def store (bytes : ByteMemory) (address : Nat) (val : UInt8) : ByteMemory := fun index =>
  if index = address then val else bytes index

/-- `memset`, byte by byte. -/
def fill (bytes : ByteMemory) (start : Nat) (val : UInt8) : Nat → ByteMemory
  | 0 => bytes
  | count + 1 => fill (bytes.store start val) (start + 1) val count

/-- `memcpy`, byte by byte from the lowest address on. -/
def copyForward (bytes : ByteMemory) (dest src : Nat) : Nat → ByteMemory
  | 0 => bytes
  | count + 1 => copyForward (bytes.store dest (bytes src)) (dest + 1) (src + 1) count

theorem overwrite_nil (bytes : ByteMemory) (start : Nat) (source : Nat → UInt8) :
    overwrite bytes start 0 source = bytes := by
  funext index
  exact overwrite_outside (by omega)

theorem overwrite_store (bytes : ByteMemory) (start count : Nat) (source : Nat → UInt8) :
    overwrite (bytes.store start (source 0)) (start + 1) count (fun offset => source (offset + 1)) =
      overwrite bytes start (count + 1) source := by
  funext index
  by_cases first : index = start
  · subst first
    rw [overwrite_outside (by omega), overwrite_inside (by omega) (by omega), Nat.sub_self, store,
      if_pos rfl]
  · by_cases inside : start ≤ index ∧ index < start + (count + 1)
    · rw [overwrite_inside (by omega) (by omega), overwrite_inside inside.1 inside.2]
      congr 1
      omega
    · rw [overwrite_outside (by omega), overwrite_outside (by omega), store, if_neg first]

theorem overwrite_congr {bytes : ByteMemory} {start length : Nat} {source other : Nat → UInt8}
    (same : ∀ offset < length, source offset = other offset) :
    overwrite bytes start length source = overwrite bytes start length other := by
  funext index
  by_cases inside : start ≤ index ∧ index < start + length
  · rw [overwrite_inside inside.1 inside.2, overwrite_inside inside.1 inside.2]
    exact same (index - start) (by omega)
  · rw [overwrite_outside (by omega), overwrite_outside (by omega)]

theorem fill_eq (bytes : ByteMemory) (start : Nat) (val : UInt8) (count : Nat) :
    fill bytes start val count = overwrite bytes start count fun _ => val := by
  induction count generalizing bytes start with
  | zero => exact (overwrite_nil _ _ _).symm
  | succ count ih =>
      rw [fill, ih]
      exact overwrite_store bytes start count fun _ => val

theorem copyForward_eq (bytes : ByteMemory) (dest src count : Nat)
    (order : dest ≤ src ∨ src + count ≤ dest) :
    copyForward bytes dest src count = overwrite bytes dest count fun offset => bytes (src + offset) := by
  induction count generalizing bytes dest src with
  | zero => exact (overwrite_nil _ _ _).symm
  | succ count ih =>
      rw [copyForward, ih _ _ _ (by omega), ← overwrite_store]
      refine overwrite_congr fun offset inside => ?_
      rw [store, if_neg (by omega)]
      congr 1
      omega

/-! ## Numbers in memory -/

def storeLittleEndian (bytes : ByteMemory) (address count val : Nat) : ByteMemory :=
  overwrite bytes address count fun offset => UInt8.ofNat (val / 256 ^ offset)

theorem littleEndian_lt (bytes : ByteMemory) (index count : Nat) :
    littleEndian bytes index count < 256 ^ count := by
  induction count generalizing index with
  | zero => exact Nat.zero_lt_one
  | succ count ih =>
      have rest := ih (index + 1)
      have first := (bytes index).toNat_lt
      rw [littleEndian, Nat.pow_succ]
      omega

theorem littleEndian_add (bytes : ByteMemory) (index first second : Nat) :
    littleEndian bytes index (first + second) =
      littleEndian bytes index first + 256 ^ first * littleEndian bytes (index + first) second := by
  induction first generalizing index with
  | zero => simp [littleEndian]
  | succ first ih =>
      rw [Nat.succ_add, littleEndian, littleEndian, ih, Nat.pow_succ, Nat.mul_add,
        Nat.add_assoc index 1 first, Nat.add_comm 1 first]
      simp only [Nat.add_assoc, Nat.mul_comm, Nat.mul_left_comm]

theorem littleEndian_of_digits {bytes : ByteMemory} {count index val : Nat}
    (digits : ∀ offset < count, bytes (index + offset) = UInt8.ofNat (val / 256 ^ offset)) :
    littleEndian bytes index count = val % 256 ^ count := by
  induction count generalizing index val with
  | zero => simp [littleEndian, Nat.mod_one]
  | succ count ih =>
      have first : (bytes index).toNat = val % 256 := by
        simpa using congrArg UInt8.toNat (digits 0 (by omega))
      have rest : littleEndian bytes (index + 1) count = val / 256 % 256 ^ count := by
        refine ih fun offset inside => ?_
        have digit := digits (offset + 1) (by omega)
        rwa [Nat.pow_succ', ← Nat.div_div_eq_div_mul, Nat.add_comm offset, ← Nat.add_assoc] at digit
      rw [littleEndian, first, rest, Nat.pow_succ', Nat.mod_mul]

theorem littleEndian_stored (bytes : ByteMemory) (address count val : Nat) :
    littleEndian (storeLittleEndian bytes address count val) address count = val % 256 ^ count := by
  refine littleEndian_of_digits fun offset inside => ?_
  rw [storeLittleEndian, overwrite_inside (by omega) (by omega), Nat.add_sub_cancel_left]

theorem littleEndian_elsewhere {bytes : ByteMemory} {address count val index length : Nat}
    (apart : index + length ≤ address ∨ address + count ≤ index) :
    littleEndian (storeLittleEndian bytes address count val) index length =
      littleEndian bytes index length :=
  littleEndian_congr fun offset inside => overwrite_outside (by omega)

theorem littleEndian_zeros {bytes : ByteMemory} {index count : Nat}
    (zeros : ∀ offset < count, bytes (index + offset) = 0) : littleEndian bytes index count = 0 := by
  have digits : littleEndian bytes index count = 0 % 256 ^ count := by
    refine littleEndian_of_digits fun offset inside => ?_
    rw [zeros offset inside, Nat.zero_div]
    rfl
  rw [digits, Nat.zero_mod]

-- The loops are known by these equations, and are not to be run by unification.
attribute [irreducible] fill copyForward

end ByteMemory
