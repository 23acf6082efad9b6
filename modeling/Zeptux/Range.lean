import Mathlib.Order.Interval.Set.Nat
import Mathlib.Order.CompletePartialOrder
import Zeptux.E820Core

/-!
What `range_compare` says of two ranges. The end of the last range of 64-bit values has no
successor there, and the addition that looks for one wraps around to the first value.
-/

namespace Zeptux

open Word

structure RangePair.Valid (range : RangePair) : Prop where
  order : range.lower ≤ range.upper
  bound : range.upper < 2 ^ 64

def RangePair.values (range : RangePair) : Set Nat := Set.Icc range.lower range.upper

def Neighbours (a b : RangePair) : Prop := a.upper + 1 = b.lower ∨ b.upper + 1 = a.lower

/-- The four answers mean what their comments say, whichever range comes first. -/
structure ComparedExactly (a b : RangePair) : Prop where
  symm : rangeCompare a b = rangeCompare b a
  coincide : rangeCompare a b = .coincide ↔ a.values ⊆ b.values ∨ b.values ⊆ a.values
  overlap : rangeCompare a b = .overlap ↔ (a.values ∩ b.values).Nonempty ∧
    ¬(a.values ⊆ b.values ∨ b.values ⊆ a.values)
  adjacent : rangeCompare a b = .adjacent ↔ Disjoint a.values b.values ∧ Neighbours a b
  separate : rangeCompare a b = .separate ↔ Disjoint a.values b.values ∧ ¬Neighbours a b

def Ends (a b : RangePair) : Prop :=
  a.upper = 2 ^ 64 - 1 ∧ b.lower = 0 ∨ b.upper = 2 ^ 64 - 1 ∧ a.lower = 0

section Values

variable {a b : RangePair}

theorem values_subset_iff (valid : a.Valid) :
    a.values ⊆ b.values ↔ b.lower ≤ a.lower ∧ a.upper ≤ b.upper :=
  Set.Icc_subset_Icc_iff valid.order

theorem values_meet_iff (valid : a.Valid) (validB : b.Valid) :
    (a.values ∩ b.values).Nonempty ↔ a.lower ≤ b.upper ∧ b.lower ≤ a.upper := by
  have order := valid.order
  have orderB := validB.order
  rw [RangePair.values, RangePair.values, Set.Icc_inter_Icc, Set.nonempty_Icc]
  change max a.lower b.lower ≤ min a.upper b.upper ↔ _
  omega

theorem values_disjoint_iff (valid : a.Valid) (validB : b.Valid) :
    Disjoint a.values b.values ↔ a.upper < b.lower ∨ b.upper < a.lower := by
  rw [Set.disjoint_iff_inter_eq_empty, ← Set.not_nonempty_iff_eq_empty,
    values_meet_iff valid validB]
  omega

theorem rangeCompare_cases (valid : a.Valid) (validB : b.Valid) :
    (rangeCompare a b = .coincide ∧
      (b.lower ≤ a.lower ∧ a.upper ≤ b.upper ∨ a.lower ≤ b.lower ∧ b.upper ≤ a.upper)) ∨
    (rangeCompare a b = .overlap ∧ (a.lower ≤ b.upper ∧ b.lower ≤ a.upper) ∧
      ¬(b.lower ≤ a.lower ∧ a.upper ≤ b.upper ∨ a.lower ≤ b.lower ∧ b.upper ≤ a.upper)) ∨
    (rangeCompare a b = .adjacent ∧ (a.upper < b.lower ∨ b.upper < a.lower) ∧
      (Neighbours a b ∨ Ends a b)) ∨
    (rangeCompare a b = .separate ∧ (a.upper < b.lower ∨ b.upper < a.lower) ∧
      ¬(Neighbours a b ∨ Ends a b)) := by
  have order := valid.order
  have orderB := validB.order
  have bound := valid.bound
  have boundB := validB.bound
  unfold rangeCompare rangeWithin Neighbours Ends add64
  simp only [ge_iff_le, Bool.or_eq_true, Bool.and_eq_true, decide_eq_true_eq, beq_iff_eq]
  split_ifs
  · exact Or.inl ⟨rfl, by omega⟩
  · exact Or.inr (Or.inl ⟨rfl, by omega, by omega⟩)
  · exact Or.inr (Or.inr (Or.inl ⟨rfl, by omega, by omega⟩))
  · exact Or.inr (Or.inr (Or.inr ⟨rfl, by omega, by omega⟩))

theorem rangeCompare_symm (valid : a.Valid) (validB : b.Valid) :
    rangeCompare a b = rangeCompare b a := by
  have order := valid.order
  have orderB := validB.order
  unfold rangeCompare rangeWithin
  simp only [ge_iff_le, Bool.or_eq_true, Bool.and_eq_true, decide_eq_true_eq, beq_iff_eq]
  split_ifs <;> first | rfl | omega

end Values

/-- Only two ranges at the opposite ends of the 64-bit values, with a gap between them, get a
wrong answer: they are called adjacent. -/
theorem comparedExactly_iff (a b : RangePair) (valid : a.Valid) (validB : b.Valid) :
    ComparedExactly a b ↔ ¬(Ends a b ∧ Disjoint a.values b.values ∧ ¬Neighbours a b) := by
  have order := valid.order
  have orderB := validB.order
  have cases := rangeCompare_cases valid validB
  constructor
  · rintro exactly ⟨ends, disjoint, gap⟩
    have separate := exactly.separate.mpr ⟨disjoint, gap⟩
    rw [values_disjoint_iff valid validB] at disjoint
    rw [separate] at cases
    simp only [reduceCtorEq, false_and, true_and, false_or] at cases
    exact cases.2 (Or.inr ends)
  · intro condition
    rw [values_disjoint_iff valid validB] at condition
    refine ⟨rangeCompare_symm valid validB, ?_, ?_, ?_, ?_⟩
    · rw [values_subset_iff valid, values_subset_iff validB]
      rcases cases with ⟨answer, _⟩ | ⟨answer, _⟩ | ⟨answer, _⟩ | ⟨answer, _⟩ <;>
        rw [answer] <;> simp only [reduceCtorEq, true_iff, false_iff] <;> omega
    · rw [values_subset_iff valid, values_subset_iff validB, values_meet_iff valid validB]
      rcases cases with ⟨answer, _⟩ | ⟨answer, _⟩ | ⟨answer, _⟩ | ⟨answer, _⟩ <;>
        rw [answer] <;> simp only [reduceCtorEq, true_iff, false_iff] <;> omega
    · rw [values_disjoint_iff valid validB]
      rcases cases with ⟨answer, _⟩ | ⟨answer, _⟩ | ⟨answer, apart, near⟩ | ⟨answer, _, far⟩
      · simp only [answer, reduceCtorEq, false_iff]
        omega
      · simp only [answer, reduceCtorEq, false_iff]
        omega
      · refine iff_of_true answer ⟨apart, ?_⟩
        by_contra gap
        exact condition ⟨near.resolve_left gap, apart, gap⟩
      · simp only [answer, reduceCtorEq, false_iff]
        exact fun both => far (Or.inl both.2)
    · rw [values_disjoint_iff valid validB]
      rcases cases with ⟨answer, _⟩ | ⟨answer, _⟩ | ⟨answer, apart, near⟩ | ⟨answer, apart, far⟩
      · simp only [answer, reduceCtorEq, false_iff]
        omega
      · simp only [answer, reduceCtorEq, false_iff]
        omega
      · simp only [answer, reduceCtorEq, false_iff]
        rintro ⟨_, gap⟩
        exact condition ⟨near.resolve_left gap, apart, gap⟩
      · exact iff_of_true answer ⟨apart, fun near => far (Or.inl near)⟩

theorem neighbours_comparedExactly : ComparedExactly ⟨0x1000, 0x1fff⟩ ⟨0x2000, 0x2fff⟩ := by
  refine (comparedExactly_iff _ _ ⟨by decide, by decide⟩ ⟨by decide, by decide⟩).mpr ?_
  rintro ⟨_, _, gap⟩
  exact gap (Or.inl rfl)

theorem opposite_ends_adjacent :
    RangePair.Valid ⟨0, 0⟩ ∧ RangePair.Valid ⟨2 ^ 64 - 1, 2 ^ 64 - 1⟩ ∧
      rangeCompare ⟨0, 0⟩ ⟨2 ^ 64 - 1, 2 ^ 64 - 1⟩ = .adjacent ∧
      ¬ComparedExactly ⟨0, 0⟩ ⟨2 ^ 64 - 1, 2 ^ 64 - 1⟩ := by
  have answer : rangeCompare ⟨0, 0⟩ ⟨2 ^ 64 - 1, 2 ^ 64 - 1⟩ = .adjacent := by decide
  refine ⟨⟨by decide, by decide⟩, ⟨by decide, by decide⟩, answer, fun exactly => ?_⟩
  have near := (exactly.adjacent.mp answer).2
  simp [Neighbours] at near

end Zeptux
