import Mathlib.Data.Nat.Bitwise
import Mathlib.Data.Nat.Find

/-!
Naturally aligned blocks of `2 ^ order` numbers. A block and its buddy are the two
halves of the block of the next order, and two blocks that share a number are
nested. The last theorem is the counting-free core of buddy allocation: a family
of disjoint blocks with no complete buddy pair inside an aligned run covers the
run by one block.
-/

namespace Dyadic

def buddy (head order : Nat) : Nat := head ^^^ 2 ^ order

def Covers (head order number : Nat) : Prop := head ≤ number ∧ number < head + 2 ^ order

instance (head order number : Nat) : Decidable (Covers head order number) :=
  inferInstanceAs (Decidable (_ ∧ _))

theorem covers_head (head order : Nat) : Covers head order head :=
  ⟨Nat.le_refl _, Nat.lt_add_of_pos_right (Nat.two_pow_pos order)⟩

theorem le_of_lt_add_of_dvd {size left right : Nat} (leftAligned : size ∣ left)
    (rightAligned : size ∣ right) (below : left < right + size) : left ≤ right := by
  obtain ⟨leftIndex, rfl⟩ := leftAligned
  obtain ⟨rightIndex, rfl⟩ := rightAligned
  have smaller : size * leftIndex < size * (rightIndex + 1) := by rwa [Nat.mul_succ]
  exact Nat.mul_le_mul_left size (Nat.le_of_lt_succ (Nat.lt_of_mul_lt_mul_left smaller))

theorem buddy_scaled (order index : Nat) :
    buddy (2 ^ order * index) order = 2 ^ order * (index ^^^ 1) := by
  have shift := Nat.shiftLeft_xor_distrib (i := order) (a := index) (b := 1)
  simp only [Nat.shiftLeft_eq, Nat.one_mul] at shift
  rw [buddy, Nat.mul_comm, Nat.mul_comm _ (index ^^^ 1), shift]

theorem buddy_of_even {order head : Nat} (aligned : 2 ^ (order + 1) ∣ head) :
    buddy head order = head + 2 ^ order := by
  obtain ⟨index, rfl⟩ := aligned
  have even : Even (2 * index) := ⟨index, by omega⟩
  rw [Nat.pow_succ, Nat.mul_assoc, buddy_scaled, Nat.xor_one_of_even even, Nat.mul_succ]

theorem buddy_of_odd {order head : Nat} (aligned : 2 ^ order ∣ head)
    (odd : ¬2 ^ (order + 1) ∣ head) :
    2 ^ (order + 1) ∣ head - 2 ^ order ∧ 2 ^ order ≤ head ∧
      buddy head order = head - 2 ^ order := by
  obtain ⟨index, rfl⟩ := aligned
  have indexOdd : index % 2 = 1 := by
    by_contra even
    apply odd
    rw [Nat.pow_succ]
    exact Nat.mul_dvd_mul_left _ (by omega)
  have positive : 1 ≤ index := by omega
  have shape : 2 ^ order * index - 2 ^ order = 2 ^ order * (index - 1) := by
    rw [Nat.mul_sub, Nat.mul_one]
  refine ⟨?_, Nat.le_mul_of_pos_right _ positive, ?_⟩
  · rw [shape, Nat.pow_succ]
    exact Nat.mul_dvd_mul_left _ (by omega)
  · rw [buddy_scaled, Nat.xor_one_of_odd (Nat.odd_iff.mpr indexOdd), shape]

theorem buddy_buddy (head order : Nat) : buddy (buddy head order) order = head := by
  simp [buddy]

theorem buddy_ne (head order : Nat) : buddy head order ≠ head := by
  intro same
  have cancel := congrArg (head ^^^ ·) same
  simp [buddy] at cancel

theorem buddy_cases {order head : Nat} (aligned : 2 ^ order ∣ head) :
    (2 ^ (order + 1) ∣ head ∧ buddy head order = head + 2 ^ order) ∨
      (2 ^ (order + 1) ∣ buddy head order ∧ head = buddy head order + 2 ^ order) := by
  by_cases even : 2 ^ (order + 1) ∣ head
  · exact Or.inl ⟨even, buddy_of_even even⟩
  · obtain ⟨parent, bound, shape⟩ := buddy_of_odd aligned even
    refine Or.inr ⟨shape ▸ parent, ?_⟩
    omega

theorem buddy_aligned {order head : Nat} (aligned : 2 ^ order ∣ head) :
    2 ^ order ∣ buddy head order := by
  rcases buddy_cases aligned with ⟨_, shape⟩ | ⟨parent, _⟩
  · rw [shape]
    exact Nat.dvd_add aligned (Nat.dvd_refl _)
  · exact Nat.dvd_trans (Nat.pow_dvd_pow 2 (Nat.le_succ order)) parent

theorem covers_nested {small large head other number : Nat} (order : small ≤ large)
    (headAligned : 2 ^ small ∣ head) (otherAligned : 2 ^ large ∣ other)
    (inHead : Covers head small number) (inOther : Covers other large number) :
    other ≤ head ∧ head + 2 ^ small ≤ other + 2 ^ large := by
  have fine : 2 ^ small ∣ 2 ^ large := Nat.pow_dvd_pow 2 order
  have otherFine : 2 ^ small ∣ other := Nat.dvd_trans fine otherAligned
  constructor
  · apply le_of_lt_add_of_dvd otherFine headAligned
    exact Nat.lt_of_le_of_lt inOther.1 inHead.2
  · apply le_of_lt_add_of_dvd (Nat.dvd_add headAligned (Nat.dvd_refl _))
      (Nat.dvd_add otherFine fine)
    have below := Nat.lt_of_le_of_lt inHead.1 inOther.2
    omega

theorem buddy_nested {small large head run : Nat} (order : small < large)
    (headAligned : 2 ^ small ∣ head) (runAligned : 2 ^ large ∣ run)
    (inside : Covers run large head) :
    run ≤ buddy head small ∧ buddy head small + 2 ^ small ≤ run + 2 ^ large := by
  have step : 2 ^ (small + 1) = 2 ^ small + 2 ^ small := by omega
  rcases buddy_cases headAligned with ⟨parent, shape⟩ | ⟨parent, shape⟩
  · have bounds := covers_nested order parent runAligned (covers_head head (small + 1)) inside
    omega
  · have inParent : Covers (buddy head small) (small + 1) head := by
      have positive := Nat.two_pow_pos small
      exact ⟨by omega, by omega⟩
    have bounds := covers_nested order parent runAligned inParent inside
    omega

section Coalesced

variable (Free : Nat → Nat → Prop)

/-- If disjoint aligned blocks cover an aligned run, and no two of them inside the
run are buddies, then one block covers the whole run. -/
theorem exists_cover_of_run {run order : Nat} (runAligned : 2 ^ order ∣ run)
    (aligned : ∀ head small, Free head small → 2 ^ small ∣ head)
    (unique : ∀ head small other large number, Free head small → Free other large →
      Covers head small number → Covers other large number → head = other ∧ small = large)
    (coalesced : ∀ head small, small < order → run ≤ head → head + 2 ^ small ≤ run + 2 ^ order →
      Free head small → ¬Free (buddy head small) small)
    (covered : ∀ number, Covers run order number →
      ∃ head small, Free head small ∧ Covers head small number) :
    ∃ head large, order ≤ large ∧ Free head large ∧
      head ≤ run ∧ run + 2 ^ order ≤ head + 2 ^ large := by
  by_contra missing
  have smaller : ∀ number head small, Covers run order number → Free head small →
      Covers head small number → small < order := by
    intro number head small inRun free inHead
    by_contra large
    have bounds := covers_nested (by omega) runAligned (aligned head small free) inRun inHead
    exact missing ⟨head, small, by omega, free, bounds⟩
  -- A block of least order inside the run has its buddy in the family.
  let Candidate (small : Nat) : Prop :=
    ∃ number head, Covers run order number ∧ Free head small ∧ Covers head small number
  obtain ⟨firstHead, firstOrder, firstFree, firstCovers⟩ := covered run (covers_head run order)
  have candidate : ∃ small, Candidate small :=
    ⟨firstOrder, run, firstHead, covers_head run order, firstFree, firstCovers⟩
  classical
  obtain ⟨number, head, inRun, free, inHead⟩ := Nat.find_spec candidate
  have least : ∀ other, Candidate other → Nat.find candidate ≤ other :=
    fun other found => Nat.find_min' candidate found
  generalize Nat.find candidate = small at free inHead least
  have below := smaller number head small inRun free inHead
  have headAligned := aligned head small free
  have bounds := covers_nested (Nat.le_of_lt below) headAligned runAligned inHead inRun
  have headInRun : Covers run order head := by
    have positive := Nat.two_pow_pos small
    exact ⟨bounds.1, by omega⟩
  have buddyBounds := buddy_nested below headAligned runAligned headInRun
  have buddyInRun : Covers run order (buddy head small) := by
    have positive := Nat.two_pow_pos small
    exact ⟨buddyBounds.1, by omega⟩
  obtain ⟨other, large, otherFree, otherCovers⟩ := covered _ buddyInRun
  have atLeast := least large ⟨_, other, buddyInRun, otherFree, otherCovers⟩
  have buddyAligned := buddy_aligned headAligned
  rcases Nat.eq_or_lt_of_le atLeast with same | longer
  · subst large
    have otherBounds := covers_nested (Nat.le_refl _) buddyAligned (aligned _ _ otherFree)
      (covers_head _ _) otherCovers
    have equal : other = buddy head small := by omega
    subst other
    exact coalesced head small below bounds.1 bounds.2 free otherFree
  · have back := buddy_nested longer buddyAligned (aligned _ _ otherFree) otherCovers
    rw [buddy_buddy] at back
    have positive := Nat.two_pow_pos small
    have equal := unique other large head small head otherFree free ⟨back.1, by omega⟩
      (covers_head head small)
    omega

end Coalesced

end Dyadic
