import Mathlib.Data.Finset.Erase
import Mathlib.Data.Finset.Range
import Zeptux.Bitmap

/-! Bitmaps as finite sets, over sequences of operations. -/

namespace Zeptux.Bitmap

inductive SetOp where
  | set (bit : Nat)
  | clear (bit : Nat)
  | setAll
  | clearAll
deriving DecidableEq, Repr

namespace SetOp

def apply (bitmap : Bitmap) : SetOp → Bitmap
  | set bit => bitmap.setBit bit
  | clear bit => bitmap.clearBit bit
  | setAll => bitmap.setAll
  | clearAll => bitmap.clearAll

def onMembers (numBits : Nat) (members : Finset Nat) : SetOp → Finset Nat
  | set bit => insert bit members
  | clear bit => members.erase bit
  | setAll => Finset.range numBits
  | clearAll => ∅

def Below (numBits : Nat) : SetOp → Prop
  | set bit => bit < numBits
  | clear bit => bit < numBits
  | setAll => True
  | clearAll => True

end SetOp

def applyAll (bitmap : Bitmap) (ops : List SetOp) : Bitmap := ops.foldl SetOp.apply bitmap

def membersAfter (numBits : Nat) (ops : List SetOp) : Finset Nat :=
  ops.foldl (SetOp.onMembers numBits) ∅

def First (wanted : Nat → Prop) (bit : Nat) : Prop :=
  wanted bit ∧ ∀ lower < bit, ¬wanted lower

def Answers (wanted : Nat → Prop) (answer : Int) : Prop :=
  (∃ bit : Nat, answer = bit ∧ First wanted bit) ∨ answer = -1 ∧ ∀ bit, ¬wanted bit

def Missing (numBits : Nat) (members : Finset Nat) (bit : Nat) : Prop :=
  bit < numBits ∧ bit ∉ members

structure Represents (bitmap : Bitmap) (numBits : Nat) (members : Finset Nat) : Prop where
  member : ∀ bit < numBits, bitmap.isSet bit = true ↔ bit ∈ members
  padding : ∀ bit, numBits ≤ bit → bit < (numBits + 63) / 64 * 64 → bitmap.isSet bit = false
  firstSet : Answers (· ∈ members) bitmap.firstSet
  firstClear : Answers (Missing numBits members) bitmap.firstClear

/-- After `bitmap_init` in any memory, the bitmap stands for the set at every point. -/
def BehavesAsSet (numBits : Nat) (ops : List SetOp) : Prop :=
  ∀ memory : Bitmap, ∀ front back, ops = front ++ back →
    ((memory.init numBits).applyAll front).Represents numBits (membersAfter numBits front)

/-! ## Answers -/

theorem First.unique {wanted : Nat → Prop} {left right : Nat} (leftFirst : First wanted left)
    (rightFirst : First wanted right) : left = right := by
  rcases Nat.lt_trichotomy left right with order | same | order
  · exact absurd leftFirst.1 (rightFirst.2 left order)
  · exact same
  · exact absurd rightFirst.1 (leftFirst.2 right order)

theorem First.answers_iff {wanted : Nat → Prop} {bit : Nat} (first : First wanted bit)
    (answer : Int) : Answers wanted answer ↔ answer = bit := by
  constructor
  · rintro (⟨found, rfl, other⟩ | ⟨_, nothing⟩)
    · rw [other.unique first]
    · exact absurd first.1 (nothing bit)
  · intro same
    exact Or.inl ⟨bit, same, first⟩

/-! ## Operations -/

theorem isSet_clearAll (bitmap : Bitmap) {bit : Nat} (inside : bit < bitmap.numWords * 64) :
    bitmap.clearAll.isSet bit = false := by
  have within : bit / 64 < bitmap.numWords := by
    rw [Nat.div_lt_iff_lt_mul (by decide)]
    exact inside
  rw [isSet_eq, clearAll]
  simp [within]

theorem maskBelow_getLsbD {count index : Nat} (small : count < 64) :
    (1#64 <<< count - 1#64).getLsbD index = decide (index < count) := by
  have below : 2 ^ count < 2 ^ 64 := Nat.pow_lt_pow_right (by decide) small
  have positive : 0 < 2 ^ count := Nat.two_pow_pos count
  have value : (1#64 <<< count - 1#64).toNat = 2 ^ count - 1 := by
    rw [BitVec.toNat_sub, BitVec.toNat_shiftLeft, BitVec.toNat_ofNat, Nat.shiftLeft_eq]
    omega
  rw [BitVec.getLsbD, value, Nat.testBit_two_pow_sub_one]

theorem maskBelow_eq_zero {count : Nat} (small : count < 64) :
    1#64 <<< count - 1#64 = 0#64 ↔ count = 0 := by
  constructor
  · intro zero
    by_contra positive
    have low : (1#64 <<< count - 1#64).getLsbD 0 = decide (0 < count) := maskBelow_getLsbD small
    rw [zero, decide_eq_true (Nat.pos_of_ne_zero positive)] at low
    simp at low
  · rintro rfl
    rfl

theorem isSet_setAll {bitmap : Bitmap} {numBits bit : Nat}
    (bits : bitmap.numBits % 64 = numBits % 64) (words : bitmap.numWords = (numBits + 63) / 64)
    (small : bitmap.numWords < 2 ^ 32) (inside : bit < bitmap.numWords * 64) :
    bitmap.setAll.isSet bit = decide (bit < numBits) := by
  have within : bit / 64 < bitmap.numWords := by omega
  have low : bit % 64 < 64 := Nat.mod_lt _ (by decide)
  have empty := maskBelow_eq_zero (Nat.mod_lt numBits (by decide : 0 < 64))
  rw [isSet_eq, setAll, bits]
  simp only
  have final : (bitmap.numWords + (2 ^ 32 - 1)) % 2 ^ 32 = bitmap.numWords - 1 := by omega
  by_cases whole : numBits % 64 = 0
  · rw [if_neg (fun more => more (empty.mpr whole))]
    simp only [within, ↓reduceIte]
    rw [getLsbD_not low]
    simp
    omega
  · have partly : 1#64 <<< (numBits % 64) - 1#64 ≠ 0 := fun zero => whole (empty.mp zero)
    rw [if_pos partly, final]
    by_cases last : bit / 64 = bitmap.numWords - 1
    · simp only [last, ↓reduceIte]
      rw [if_pos (by omega), BitVec.getLsbD_and, getLsbD_not low,
        maskBelow_getLsbD (Nat.mod_lt _ (by decide))]
      simp
      omega
    · simp only [last, within, ↓reduceIte]
      rw [getLsbD_not low]
      simp
      omega

/-! ## Runs -/

/-- All words are in use, and their bits are the members. -/
structure Holds (bitmap : Bitmap) (numBits : Nat) (members : Finset Nat) : Prop where
  bits : bitmap.numBits = numBits % 2 ^ 32
  words : bitmap.numWords = (numBits + 63) / 64
  small : bitmap.numWords < 2 ^ 32
  isSet : ∀ bit < bitmap.numWords * 64, bitmap.isSet bit = true ↔ bit ∈ members
  inside : ∀ bit ∈ members, bit < numBits

/-- What the searches can answer: their index is taken modulo `2 ^ 32`, and so is `num_bits`. -/
structure FirstsFit (numBits : Nat) (members : Finset Nat) : Prop where
  set : ∀ bit, First (· ∈ members) bit → bit < 2 ^ 32
  clear : ∀ bit, First (Missing numBits members) bit → bit < numBits % 2 ^ 32

section

variable {bitmap : Bitmap} {numBits : Nat} {members : Finset Nat}

theorem FirstsFit.of_small (small : numBits < 2 ^ 32) (inside : ∀ bit ∈ members, bit < numBits) :
    FirstsFit numBits members := by
  refine ⟨?_, ?_⟩
  · intro bit first
    have low := inside bit first.1
    omega
  · intro bit first
    rw [Nat.mod_eq_of_lt small]
    exact first.1.1

theorem init_holds (memory : Bitmap) (fits : numBits ≤ 64 * (2 ^ 32 - 1)) :
    (memory.init numBits).Holds numBits ∅ := by
  have words : calcWords numBits % 2 ^ 32 = (numBits + 63) / 64 := by
    rw [calcWords_eq (by omega)]
    omega
  refine ⟨rfl, words, ?_, ?_, ?_⟩
  · exact Nat.mod_lt _ (by decide)
  · intro bit inside
    have clear : (memory.init numBits).isSet bit = false := isSet_clearAll _ inside
    simp [clear]
  · intro bit member
    simp at member

theorem Holds.step {op : SetOp} (holds : bitmap.Holds numBits members) (below : op.Below numBits)
    (member : ∀ bit, op = .clear bit → bit ∈ members) :
    (op.apply bitmap).Holds numBits (op.onMembers numBits members) := by
  obtain ⟨bits, words, small, isSet, inside⟩ := holds
  cases op with
  | set bit =>
      refine ⟨bits, words, small, ?_, ?_⟩
      · intro other range
        rw [SetOp.apply, isSet_setBit, SetOp.onMembers, Finset.mem_insert, Bool.or_eq_true,
          decide_eq_true_eq, isSet other range]
      · intro other found
        rcases Finset.mem_insert.mp found with rfl | old
        · exact below
        · exact inside other old
  | clear bit =>
      refine ⟨bits, words, small, ?_, fun other found => inside other (Finset.mem_of_mem_erase found)⟩
      intro other range
      rw [SetOp.apply, isSet_toggled, SetOp.onMembers, Finset.mem_erase]
      by_cases same : other = bit
      · subst same
        have old := (isSet other range).mpr (member other rfl)
        simp [old]
      · simp [same, isSet other range]
  | setAll =>
      have sameBits : bitmap.numBits % 64 = numBits % 64 := by omega
      have fields : bitmap.setAll.numBits = bitmap.numBits ∧
          bitmap.setAll.numWords = bitmap.numWords := by
        unfold setAll
        simp only
        split <;> exact ⟨rfl, rfl⟩
      refine ⟨fields.1.trans bits, fields.2.trans words, fields.2.symm ▸ small, ?_, ?_⟩
      · intro other range
        rw [SetOp.apply, fields.2] at range
        rw [SetOp.apply, isSet_setAll sameBits words small range, SetOp.onMembers,
          Finset.mem_range, decide_eq_true_eq]
      · intro other found
        exact Finset.mem_range.mp found
  | clearAll =>
      refine ⟨bits, words, small, ?_, ?_⟩
      · intro other range
        rw [SetOp.apply, isSet_clearAll bitmap range]
        simp [SetOp.onMembers]
      · intro other found
        simp [SetOp.onMembers] at found

theorem Holds.firstSet_iff (holds : bitmap.Holds numBits members) :
    Answers (· ∈ members) bitmap.firstSet ↔
      ∀ bit, First (· ∈ members) bit → bit < 2 ^ 32 := by
  have words := holds.words
  rw [firstSet]
  rcases setSearch_finds.first bitmap with ⟨bit, result, inside, isSet, below⟩ | ⟨result, all⟩
  · have first : First (· ∈ members) bit := by
      refine ⟨(holds.isSet bit inside).mp isSet, ?_⟩
      intro lower order member
      have clear := below lower order
      rw [(holds.isSet lower (by omega)).mpr member] at clear
      cases clear
    rw [result, first.answers_iff]
    constructor
    · intro same other otherFirst
      rw [otherFirst.unique first]
      omega
    · intro fits
      have low := fits bit first
      omega
  · have nothing : ∀ bit, bit ∉ members := by
      intro bit member
      have low := holds.inside bit member
      have clear := all bit (by omega)
      rw [(holds.isSet bit (by omega)).mpr member] at clear
      cases clear
    exact iff_of_true (Or.inr ⟨result, nothing⟩) fun bit first => absurd first.1 (nothing bit)

theorem Holds.firstClear_iff (holds : bitmap.Holds numBits members) :
    Answers (Missing numBits members) bitmap.firstClear ↔
      ∀ bit, First (Missing numBits members) bit → bit < numBits % 2 ^ 32 := by
  have words := holds.words
  rw [firstClear, holds.bits]
  simp only
  rcases clearSearch_finds.first bitmap with ⟨bit, result, inside, clear, below⟩ | ⟨result, all⟩
  · have lowers : ∀ lower < bit, lower ∈ members := by
      intro lower order
      exact (holds.isSet lower (by omega)).mp (below lower order)
    have absent : bit ∉ members := by
      intro member
      rw [(holds.isSet bit inside).mpr member] at clear
      cases clear
    rw [result]
    by_cases low : bit < numBits
    · have first : First (Missing numBits members) bit :=
        ⟨⟨low, absent⟩, fun lower order missing => missing.2 (lowers lower order)⟩
      rw [first.answers_iff]
      constructor
      · intro same other otherFirst
        rw [otherFirst.unique first]
        split at same <;> omega
      · intro fits
        have small := fits bit first
        rw [if_neg (by omega)]
        omega
    · have nothing : ∀ lower, ¬Missing numBits members lower := by
        rintro lower ⟨inside, missing⟩
        exact missing (lowers lower (by omega))
      -- the padding bit found lies in the last word, so it wraps as `num_bits` does
      have sameWord : bit / 64 = numBits / 64 := by omega
      rw [if_pos (by omega)]
      exact iff_of_true (Or.inr ⟨rfl, nothing⟩) fun bit first => absurd first.1 (nothing bit)
  · have nothing : ∀ bit, ¬Missing numBits members bit := by
      rintro bit ⟨low, missing⟩
      exact missing ((holds.isSet bit (by omega)).mp (all bit (by omega)))
    rw [result, if_neg (by omega)]
    exact iff_of_true (Or.inr ⟨rfl, nothing⟩) fun bit first => absurd first.1 (nothing bit)

theorem Holds.represents_iff (holds : bitmap.Holds numBits members) :
    bitmap.Represents numBits members ↔ FirstsFit numBits members := by
  have words := holds.words
  constructor
  · intro represents
    exact ⟨holds.firstSet_iff.mp represents.firstSet, holds.firstClear_iff.mp represents.firstClear⟩
  · intro fits
    refine ⟨?_, ?_, holds.firstSet_iff.mpr fits.set, holds.firstClear_iff.mpr fits.clear⟩
    · intro bit low
      exact holds.isSet bit (by omega)
    · intro bit high low
      rw [← Bool.not_eq_true, holds.isSet bit (by omega)]
      intro member
      have inside := holds.inside bit member
      omega

end

theorem membersAfter_append (numBits : Nat) (front : List SetOp) (op : SetOp) :
    membersAfter numBits (front ++ [op]) = op.onMembers numBits (membersAfter numBits front) := by
  simp [membersAfter]

theorem applyAll_append (bitmap : Bitmap) (front : List SetOp) (op : SetOp) :
    bitmap.applyAll (front ++ [op]) = op.apply (bitmap.applyAll front) := by
  simp [applyAll]

/-- `bitmap_clear` is only used on a member. -/
def ClearsMembers (numBits : Nat) (ops : List SetOp) : Prop :=
  ∀ front bit back, ops = front ++ .clear bit :: back → bit ∈ membersAfter numBits front

theorem holds_after (memory : Bitmap) {numBits : Nat} {ops : List SetOp}
    (fits : numBits ≤ 64 * (2 ^ 32 - 1)) (below : ∀ op ∈ ops, op.Below numBits)
    (clears : ClearsMembers numBits ops) {front back : List SetOp} (split : ops = front ++ back) :
    ((memory.init numBits).applyAll front).Holds numBits (membersAfter numBits front) := by
  induction front using List.reverseRecOn generalizing back with
  | nil => exact init_holds memory fits
  | append_singleton front op ih =>
      rw [List.append_assoc] at split
      rw [applyAll_append, membersAfter_append]
      refine (ih split).step (below op ?_) ?_
      · rw [split]
        simp
      · rintro bit rfl
        exact clears front bit back split

theorem not_represents_clear {bitmap : Bitmap} {numBits bit : Nat} {members : Finset Nat}
    (before : bitmap.Represents numBits members) (low : bit < numBits) (absent : bit ∉ members) :
    ¬(bitmap.clearBit bit).Represents numBits (members.erase bit) := by
  intro after
  have clear : bitmap.isSet bit = false := by
    rw [← Bool.not_eq_true, before.member bit low]
    exact absent
  have set : (bitmap.clearBit bit).isSet bit = true := by
    simp [isSet_toggled, clear]
  exact Finset.notMem_erase bit members ((after.member bit low).mp set)

/-- `init` leaves memory behind the words it counts, which a longer bitmap still has. -/
theorem not_represents_long {numBits : Nat} (long : 64 * (2 ^ 32 - 1) < numBits) :
    ∃ memory : Bitmap, ¬(memory.init numBits).Represents numBits ∅ := by
  refine ⟨⟨0, 0, fun _ => ~~~0#64⟩, fun represents => ?_⟩
  let words := calcWords numBits % 2 ^ 32
  have few : words < 2 ^ 32 := Nat.mod_lt _ (by decide)
  have left := (represents.member (words * 64) (by omega)).mp ?_
  · simp at left
  · rw [isSet_eq, init, clearAll]
    simp only [Nat.mul_div_cancel words (by decide : 0 < 64), Nat.mul_mod_left]
    rw [if_neg (Nat.lt_irrefl _)]
    rfl

/-- A bitmap behaves as a set as long as only members are cleared; from `2 ^ 32` bits on, the first
member and the first missing bit have to be found too. -/
theorem behavesAsSet_iff {numBits : Nat} {ops : List SetOp}
    (below : ∀ op ∈ ops, op.Below numBits) :
    BehavesAsSet numBits ops ↔
      numBits ≤ 64 * (2 ^ 32 - 1) ∧ ClearsMembers numBits ops ∧
        ∀ front back, ops = front ++ back → FirstsFit numBits (membersAfter numBits front) := by
  constructor
  · intro behaves
    have fits : numBits ≤ 64 * (2 ^ 32 - 1) := by
      by_contra long
      obtain ⟨memory, wrong⟩ := not_represents_long (Nat.lt_of_not_le long)
      exact wrong (behaves memory [] ops rfl)
    have clears : ClearsMembers numBits ops := by
      intro front bit back split
      by_contra absent
      have before := behaves ⟨0, 0, fun _ => 0⟩ front _ split
      have after := behaves ⟨0, 0, fun _ => 0⟩ (front ++ [.clear bit]) back (by simp [split])
      rw [applyAll_append, membersAfter_append] at after
      have low : bit < numBits := below (.clear bit) (by simp [split])
      exact not_represents_clear before low absent after
    refine ⟨fits, clears, ?_⟩
    intro front back split
    have holds := holds_after ⟨0, 0, fun _ => 0⟩ fits below clears split
    exact holds.represents_iff.mp (behaves _ front back split)
  · rintro ⟨fits, clears, firsts⟩ memory front back split
    exact (holds_after memory fits below clears split).represents_iff.mpr (firsts front back split)

theorem seventy_bits_behave : BehavesAsSet 70 [.set 65, .clear 65, .setAll] := by
  have below : ∀ op ∈ [.set 65, .clear 65, .setAll], SetOp.Below 70 op := by
    simp [SetOp.Below]
  have clears : ClearsMembers 70 [.set 65, .clear 65, .setAll] := by
    intro front bit back split
    rcases front with _ | ⟨first, _ | ⟨second, _ | ⟨third, rest⟩⟩⟩
    · simp at split
    · obtain ⟨rfl, rfl, _⟩ : .set 65 = first ∧ 65 = bit ∧ [.setAll] = back := by simpa using split
      decide
    · simp at split
    · simp at split
  refine (behavesAsSet_iff below).mpr ⟨by decide, clears, ?_⟩
  intro front back split
  exact FirstsFit.of_small (by decide)
    (holds_after ⟨0, 0, fun _ => 0⟩ (by decide) below clears split).inside

theorem clear_of_clear_sets : SetOp.Below 1 (.clear 0) ∧ ¬BehavesAsSet 1 [.clear 0] := by
  refine ⟨Nat.one_pos, fun behaves => ?_⟩
  have after := (behaves ⟨0, 0, fun _ => 0⟩ [.clear 0] [] rfl).member 0 (by decide)
  revert after
  decide

end Zeptux.Bitmap
