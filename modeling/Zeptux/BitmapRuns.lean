import Mathlib.Data.Nat.Find
import Zeptux.Bitmap

/-! When `bitmap_zero_string_longer_than` finds the first run of clear bits. -/

namespace Zeptux.Bitmap

open Word

def RunAt (bitmap : Bitmap) (n start : Nat) : Prop :=
  start + n ≤ bitmap.numBits ∧ bitmap.ClearRun n start

def FirstRun (bitmap : Bitmap) (n start : Nat) : Prop :=
  bitmap.RunAt n start ∧ ∀ lower < start, ¬bitmap.RunAt n lower

/-- The first run is returned, and `-1` exactly when there is none. -/
def FindsFirstRun (bitmap : Bitmap) (n : Nat) : Prop :=
  (∀ start, bitmap.FirstRun n start → bitmap.zeroStringLongerThan n = start) ∧
    (bitmap.zeroStringLongerThan n = -1 ↔ ∀ start, ¬bitmap.RunAt n start)

section

variable {bitmap : Bitmap} {n : Nat}

theorem RunAt.first {start : Nat} (run : bitmap.RunAt n start) :
    ∃ first, bitmap.FirstRun n first := by
  classical
  have found : ∃ place, bitmap.RunAt n place := ⟨start, run⟩
  exact ⟨Nat.find found, Nat.find_spec found, fun _ order => Nat.find_min found order⟩

theorem FirstRun.not_boundary {start : Nat} (first : bitmap.FirstRun n start)
    (inside : start % 64 ≠ 0) : ¬bitmap.ClearRun n (start / 64 * 64) := by
  intro run
  have fits := first.1.1
  exact first.2 (start / 64 * 64) (by omega) ⟨by omega, run⟩

theorem zeroStringLongerThan_large (positive : 0 < n) (short : n ≤ 64)
    (large : 2 ^ 31 ≤ bitmap.numBits) (word : bitmap.numBits < 2 ^ 32)
    (words : bitmap.numWords * 64 ≤ 2 ^ 32) :
    bitmap.zeroStringLongerThan n < 0 ∧
      ((∀ start, ¬bitmap.RunAt n start) → bitmap.zeroStringLongerThan n = -1) := by
  rw [zeroStringLongerThan_eq bitmap short, toInt32_large large word]
  rcases zeroSearch_cases positive words with ⟨bit, result, inside, run, _⟩ | ⟨result, _⟩
  · rw [result]
    by_cases low : bit < 2 ^ 31
    · rw [toInt32_eq low, if_pos (by omega)]
      exact ⟨by decide, fun _ => rfl⟩
    · rw [toInt32_large (by omega) (by omega),
        toInt32_of_bounds (by omega : -2 ^ 31 ≤ (bit : Int) - 2 ^ 32 + n) (by omega)]
      refine ⟨by split <;> omega, fun nothing => if_pos ?_⟩
      have outside : ¬bit + n ≤ bitmap.numBits := fun fits => nothing bit ⟨fits, run⟩
      omega
  · rw [result, if_pos (Or.inl (by rw [show toInt32 (-1) = -1 by rfl]; omega))]
    exact ⟨by decide, fun _ => rfl⟩

/-- No run of the words comes before one whose end wraps around; it does not begin a word. -/
def WrapsFirst (bitmap : Bitmap) (n : Nat) : Prop :=
  ∃ bit, bitmap.Wraps n bit ∧ bitmap.ClearRun n bit ∧ bit % 64 ≠ 0 ∧
    ∀ lower < bit, ¬bitmap.ClearRun n lower

theorem not_findsFirstRun_of_wraps {bit : Nat} (bits : bitmap.numBits < 2 ^ 31)
    (result : bitmap.zeroStringLongerThan n = bit) (wraps : bitmap.Wraps n bit) :
    ¬bitmap.FindsFirstRun n := by
  intro finds
  have outside := wraps.1
  have some : ¬∀ start, ¬bitmap.RunAt n start := by
    intro none
    have absent := finds.2.mpr none
    omega
  obtain ⟨start, run⟩ := not_forall_not.mp some
  obtain ⟨first, isFirst⟩ := run.first
  have found := finds.1 first isFirst
  have fits := isFirst.1.1
  omega

theorem wrapsFirst_of_wraps {bit : Nat} (short : n ≤ 64) (bits : bitmap.numBits < 2 ^ 31)
    (wraps : bitmap.Wraps n bit) (run : bitmap.ClearRun n bit)
    (notFirst : ¬bitmap.ClearRun n (bit / 64 * 64))
    (before : ∀ lower < bit, bitmap.ClearRun n lower → bitmap.ClearRun n (lower / 64 * 64))
    (inner : ∀ start, bitmap.FirstRun n start → bitmap.numBits < 2 ^ 31 ∧ start % 64 ≠ 0) :
    bitmap.WrapsFirst n := by
  obtain ⟨outside, started⟩ := wraps
  refine ⟨bit, ⟨outside, started⟩, run, fun boundary => notFirst ?_, fun lower order runs => ?_⟩
  · rwa [show bit / 64 * 64 = bit by omega]
  · have boundary := before lower order runs
    by_cases fits : lower / 64 * 64 + n ≤ bitmap.numBits
    · obtain ⟨first, isFirst⟩ := RunAt.first ⟨fits, boundary⟩
      have least : first ≤ lower / 64 * 64 := by
        by_contra later
        exact isFirst.2 _ (Nat.lt_of_not_le later) ⟨fits, boundary⟩
      exact isFirst.not_boundary (inner first isFirst).2
        (before first (by omega) isFirst.1.2)
    · -- Only the last word reaches as far as the bitmap.
      exact notFirst (by rwa [show bit / 64 * 64 = lower / 64 * 64 by omega])

/-- A run at the beginning of a word is missed, and one whose end wraps around is taken for
a run of the bitmap. -/
theorem findsFirstRun_iff (positive : 0 < n) (short : n ≤ 64) (word : bitmap.numBits < 2 ^ 32)
    (words : bitmap.numWords = calcWords bitmap.numBits) :
    bitmap.FindsFirstRun n ↔
      (∀ start, bitmap.FirstRun n start → bitmap.numBits < 2 ^ 31 ∧ start % 64 ≠ 0) ∧
        ¬bitmap.WrapsFirst n := by
  rw [calcWords_eq (by omega)] at words
  by_cases large : 2 ^ 31 ≤ bitmap.numBits
  · obtain ⟨negative, none⟩ := zeroStringLongerThan_large positive short large word (by omega)
    constructor
    · intro finds
      have nothing : ∀ start, ¬bitmap.FirstRun n start := by
        intro start first
        have found := finds.1 start first
        omega
      refine ⟨fun start first => absurd first (nothing start), ?_⟩
      rintro ⟨bit, ⟨outside, _⟩, run, _⟩
      obtain ⟨first, isFirst⟩ := RunAt.first ⟨by omega, run⟩
      exact nothing first isFirst
    · rintro ⟨small, _⟩
      have nothing : ∀ start, ¬bitmap.RunAt n start := by
        intro start run
        obtain ⟨first, isFirst⟩ := run.first
        have bits := (small first isFirst).1
        omega
      exact ⟨fun start first => absurd first.1 (nothing start), iff_of_true (none nothing) nothing⟩
  · have bits : bitmap.numBits < 2 ^ 31 := Nat.lt_of_not_le large
    rcases zeroStringLongerThan_cases positive short (by omega : bitmap.numBits ≤ _) bits
      (by omega) with
      ⟨bit, result, fits | wraps, run, notFirst, before⟩ | ⟨result, nothing, passed⟩
    · constructor
      · intro finds
        refine ⟨fun start first => ?_, ?_⟩
        · have found := finds.1 start first
          refine ⟨bits, fun boundary => notFirst ?_⟩
          rwa [show bit / 64 * 64 = bit by omega]
        · rintro ⟨last, ⟨outside, _⟩, _, _, none⟩
          exact none bit (by omega) run
      · rintro ⟨inner, _⟩
        refine ⟨?_, iff_of_false (by omega) fun none => none bit ⟨fits, run⟩⟩
        intro start first
        have noEarlier := first.not_boundary (inner start first).2
        have same : start = bit := by
          rcases Nat.lt_trichotomy start bit with earlier | same | later
          · exact absurd (before start earlier first.1.2) noEarlier
          · exact same
          · exact absurd ⟨fits, run⟩ (first.2 bit later)
        rw [result, same]
    · refine iff_of_false (not_findsFirstRun_of_wraps bits result wraps) ?_
      rintro ⟨inner, notWraps⟩
      exact notWraps (wrapsFirst_of_wraps short bits wraps run notFirst before inner)
    · constructor
      · intro finds
        refine ⟨fun start first => absurd first.1 (finds.2.mp result start), ?_⟩
        rintro ⟨last, wraps, run, inner, none⟩
        rcases passed last wraps run with boundary | ⟨lower, order, earlier⟩
        · exact none (last / 64 * 64) (by omega) boundary
        · exact none lower order earlier
      · rintro ⟨inner, _⟩
        have none : ∀ start, ¬bitmap.RunAt n start := by
          intro start run
          obtain ⟨first, isFirst⟩ := run.first
          exact isFirst.not_boundary (inner first isFirst).2 (nothing first isFirst.1.1 isFirst.1.2)
        exact ⟨fun start first => absurd first.1 (none start), iff_of_true result none⟩

end

def hundredClear : Bitmap := init ⟨0, 0, fun _ => 0⟩ 100

theorem second_bit_found : (hundredClear.setBit 0).FindsFirstRun 3 := by
  have noWrap : ¬(hundredClear.setBit 0).WrapsFirst 3 := by
    rintro ⟨bit, ⟨outside, inside⟩, _⟩
    have bits : (hundredClear.setBit 0).numBits = 100 := rfl
    omega
  refine (findsFirstRun_iff (by decide) (by decide) (by decide) (by decide)).mpr ⟨?_, noWrap⟩
  rintro start ⟨⟨_, _, clear⟩, first⟩
  refine ⟨by decide, fun boundary => ?_⟩
  rcases Nat.eq_zero_or_pos start with rfl | positive
  · exact absurd (clear 0 (by decide)) (by decide)
  · refine first 1 (by omega) ⟨by decide, by decide, ?_⟩
    decide

theorem first_bit_missed :
    hundredClear.zeroStringLongerThan 3 = -1 ∧ hundredClear.FirstRun 3 0 ∧
      ¬hundredClear.FindsFirstRun 3 := by
  have missed : hundredClear.zeroStringLongerThan 3 = -1 := by decide +kernel
  have run : hundredClear.RunAt 3 0 :=
    ⟨by decide, by decide, fun _ _ => isSet_init _ fun _ => rfl⟩
  refine ⟨missed, ⟨run, fun _ lower => absurd lower (Nat.not_lt_zero _)⟩, fun finds => ?_⟩
  exact finds.2.mp missed 0 run

end Zeptux.Bitmap
