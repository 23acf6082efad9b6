import Zeptux.E820Core

/-!
The first pass over the e820 entries: the insertion sort. Entries that compare equal end up
in the opposite of the order they came in.
-/

namespace Zeptux.Early

def Among (entries : Nat → E820Entry) (count : Nat) (entry : E820Entry) : Prop :=
  ∃ index < count, entries index = entry

def Sorted (entries : Nat → E820Entry) (count : Nat) : Prop :=
  ∀ first second, first < second → second < count →
    less (entries second) (entries first) = false

theorem less_eq_false_iff (a b : E820Entry) :
    less a b = false ↔ b.base < a.base ∨ (b.base = a.base ∧ b.size ≤ a.size) := by
  simp only [less, Bool.or_eq_false_iff, Bool.and_eq_false_iff, decide_eq_false_iff_not,
    beq_eq_false_iff_ne]
  omega

theorem less_eq_true_iff (a b : E820Entry) :
    less a b = true ↔ a.base < b.base ∨ (a.base = b.base ∧ a.size < b.size) := by
  simp only [less, Bool.or_eq_true, Bool.and_eq_true, decide_eq_true_eq, beq_iff_eq]

theorem update_below {entries : Nat → E820Entry} {count index : Nat} {entry : E820Entry}
    (below : index < count) : Function.update entries count entry index = entries index :=
  Function.update_of_ne (by omega) _ _

def Precedes (entries : Nat → E820Entry) (first second : Nat) : Prop :=
  less (entries first) (entries second) = true ∨
    less (entries second) (entries first) = false ∧ second < first

instance (entries : Nat → E820Entry) (first second : Nat) :
    Decidable (Precedes entries first second) :=
  inferInstanceAs (Decidable (_ ∨ _))

section Precedes

variable {entries : Nat → E820Entry} {first second third : Nat}

theorem Precedes.not_less (before : Precedes entries first second) :
    less (entries second) (entries first) = false := by
  rcases before with lesser | ⟨notLess, _⟩
  · rw [less_eq_true_iff] at lesser
    rw [less_eq_false_iff]
    omega
  · exact notLess

theorem Precedes.asymm (before : Precedes entries first second) :
    ¬Precedes entries second first := by
  have notLess := before.not_less
  rintro (lesser | ⟨other, earlier⟩)
  · rw [lesser] at notLess
    cases notLess
  · rcases before with lesser | ⟨_, later⟩
    · rw [lesser] at other
      cases other
    · omega

theorem Precedes.irrefl (place : Nat) : ¬Precedes entries place place := fun before =>
  before.asymm before

theorem precedes_later (later : first < second) :
    (Precedes entries first second ↔ less (entries first) (entries second) = true) ∧
      (Precedes entries second first ↔ less (entries first) (entries second) = false) := by
  simp only [Precedes, less_eq_true_iff, less_eq_false_iff]
  omega

end Precedes

theorem insertKey_shape (key : E820Entry) (count : Nat) (entries : Nat → E820Entry) :
    ∃ place ≤ count,
      (∀ index, 0 < place → index + 1 = place → less (entries index) key = true) ∧
      (∀ index, place ≤ index → index < count → less (entries index) key = false) ∧
      ∀ index, insertKey key count entries index =
        if index < place then entries index
        else if index = place then key
        else if index ≤ count then entries (index - 1)
        else entries index := by
  induction count generalizing entries with
  | zero =>
      refine ⟨0, Nat.le_refl _, by omega, by omega, fun index => ?_⟩
      rw [insertKey, if_neg (by omega)]
      by_cases first : index = 0
      · rw [if_pos first, first, Function.update_self]
      · rw [if_neg first, if_neg (by omega), Function.update_of_ne first]
  | succ j ih =>
      by_cases lesser : less (entries j) key = true
      · refine ⟨j + 1, Nat.le_refl _, ?_, by omega, fun index => ?_⟩
        · intro index _ last
          rwa [Nat.succ.inj last]
        · rw [insertKey, if_pos lesser]
          by_cases below : index < j + 1
          · rw [if_pos below, update_below below]
          · by_cases here : index = j + 1
            · rw [if_neg below, if_pos here, here, Function.update_self]
            · rw [if_neg below, if_neg here, if_neg (by omega), Function.update_of_ne here]
      · obtain ⟨place, bound, before, after, shape⟩ :=
          ih (Function.update entries (j + 1) (entries j))
        refine ⟨place, by omega, ?_, ?_, fun index => ?_⟩
        · intro index positive last
          have kept := before index positive last
          rwa [update_below (by omega)] at kept
        · intro index low high
          by_cases last : index = j
          · simpa [last] using lesser
          · have kept := after index low (by omega)
            rwa [update_below (by omega)] at kept
        · rw [insertKey, if_neg lesser, shape]
          by_cases below : index < place
          · rw [if_pos below, if_pos below, update_below (by omega)]
          · rw [if_neg below, if_neg below]
            by_cases here : index = place
            · rw [if_pos here, if_pos here]
            · rw [if_neg here, if_neg here]
              by_cases inside : index ≤ j
              · rw [if_pos inside, if_pos (by omega), update_below (by omega)]
              · rw [if_neg inside]
                by_cases top : index = j + 1
                · rw [if_pos (by omega), top, Function.update_self, Nat.add_sub_cancel]
                · rw [if_neg (by omega), Function.update_of_ne top]

/-- The first `count` entries are those of before, in order; `place` says where each one was. -/
structure Arranged (before after : Nat → E820Entry) (count : Nat) (place : Nat → Nat) : Prop where
  inside : ∀ index < count, place index < count
  onto : ∀ source < count, ∃ index < count, place index = source
  same : ∀ index < count, after index = before (place index)
  order : ∀ first second, first < second → second < count →
    Precedes before (place first) (place second)
  beyond : ∀ index, count ≤ index → after index = before index

section Arranged

variable {before after : Nat → E820Entry} {count : Nat} {place : Nat → Nat}

theorem Arranged.precedes_iff (arranged : Arranged before after count place) {first second : Nat}
    (firstInside : first < count) (secondInside : second < count) :
    Precedes before (place first) (place second) ↔ first < second := by
  constructor
  · intro precedes
    by_contra later
    by_cases same : first = second
    · rw [same] at precedes
      exact precedes.irrefl _
    · exact precedes.asymm (arranged.order second first (by omega) firstInside)
  · intro order
    exact arranged.order first second order secondInside

theorem Arranged.sorted (arranged : Arranged before after count place) : Sorted after count := by
  intro first second order inside
  rw [arranged.same first (by omega), arranged.same second inside]
  exact (arranged.order first second order inside).not_less

theorem Arranged.among_eq (arranged : Arranged before after count place) :
    Among after count = Among before count := by
  funext entry
  apply propext
  constructor
  · rintro ⟨index, inside, rfl⟩
    exact ⟨place index, arranged.inside index inside, (arranged.same index inside).symm⟩
  · rintro ⟨source, inside, rfl⟩
    obtain ⟨index, bound, rfl⟩ := arranged.onto source inside
    exact ⟨index, bound, arranged.same index bound⟩

theorem Arranged.insert (arranged : Arranged before after count place) :
    ∃ next, Arranged before (insertKey (after count) count after) (count + 1) next := by
  obtain ⟨spot, bound, less, notLess, shape⟩ := insertKey_shape (after count) count after
  have key : after count = before count := arranged.beyond count (Nat.le_refl _)
  -- All entries before the spot are less, as the last of them is.
  have lower : ∀ index < spot, Precedes before (place index) count := by
    intro index below
    rw [(precedes_later (arranged.inside index (by omega))).1, ← arranged.same index (by omega),
      ← key, less_eq_true_iff]
    have last := less (spot - 1) (by omega) (by omega)
    rw [less_eq_true_iff] at last
    by_cases here : index = spot - 1
    · rw [here]
      exact last
    · have order := arranged.sorted index (spot - 1) (by omega) (by omega)
      rw [less_eq_false_iff] at order
      omega
  have upper : ∀ index, spot ≤ index → index < count → Precedes before count (place index) := by
    intro index low inside
    rw [(precedes_later (arranged.inside index inside)).2, ← arranged.same index inside, ← key]
    exact notLess index low inside
  refine ⟨fun index => if index < spot then place index else if index = spot then count
    else place (index - 1), ?_, ?_, ?_, ?_, ?_⟩
  · intro index inside
    by_cases below : index < spot
    · have old := arranged.inside index (by omega)
      simp only [if_pos below]
      omega
    · by_cases here : index = spot
      · simp only [if_neg below, if_pos here]
        omega
      · have old := arranged.inside (index - 1) (by omega)
        simp only [if_neg below, if_neg here]
        omega
  · intro source inside
    by_cases last : source = count
    · refine ⟨spot, by omega, ?_⟩
      simp only [Nat.lt_irrefl, if_false, if_true, last]
    · obtain ⟨index, old, rfl⟩ := arranged.onto source (by omega)
      by_cases below : index < spot
      · exact ⟨index, by omega, by simp only [if_pos below]⟩
      · refine ⟨index + 1, by omega, ?_⟩
        simp only [if_neg (by omega : ¬index + 1 < spot), if_neg (by omega : index + 1 ≠ spot),
          Nat.add_sub_cancel]
  · intro index inside
    rw [shape]
    by_cases below : index < spot
    · simp only [if_pos below]
      exact arranged.same index (by omega)
    · by_cases here : index = spot
      · simp only [if_neg below, if_pos here]
        exact key
      · simp only [if_neg below, if_neg here, if_pos (by omega : index ≤ count)]
        exact arranged.same (index - 1) (by omega)
  · intro first second order inside
    by_cases firstBelow : first < spot
    · simp only [if_pos firstBelow]
      by_cases secondBelow : second < spot
      · simp only [if_pos secondBelow]
        exact arranged.order first second order (by omega)
      · by_cases secondHere : second = spot
        · simp only [if_neg secondBelow, if_pos secondHere]
          exact lower first firstBelow
        · simp only [if_neg secondBelow, if_neg secondHere]
          exact arranged.order first (second - 1) (by omega) (by omega)
    · have secondBeyond : ¬second < spot := by omega
      have secondPast : second ≠ spot := by omega
      simp only [if_neg firstBelow, if_neg secondBeyond, if_neg secondPast]
      by_cases firstHere : first = spot
      · simp only [if_pos firstHere]
        exact upper (second - 1) (by omega) (by omega)
      · simp only [if_neg firstHere]
        exact arranged.order (first - 1) (second - 1) (by omega) (by omega)
  · intro index beyond
    rw [shape, if_neg (by omega), if_neg (by omega), if_neg (by omega)]
    exact arranged.beyond index (by omega)

end Arranged

theorem sortFrom_arranged {before after : Nat → E820Entry} {i : Nat} {place : Nat → Nat}
    (remaining : Nat) (arranged : Arranged before after i place) :
    ∃ final, Arranged before (sortFrom remaining i after) (i + remaining) final := by
  induction remaining generalizing i after place with
  | zero => exact ⟨place, arranged⟩
  | succ remaining ih =>
      obtain ⟨next, inserted⟩ := arranged.insert
      obtain ⟨final, rest⟩ := ih inserted
      rw [Nat.add_right_comm, Nat.add_assoc] at rest
      exact ⟨final, rest⟩

theorem earlySortE820_arranged (info : BootInfo) (nonempty : 0 < info.numE820Entries) :
    ∃ place, Arranged info.e820Entries (earlySortE820 info).e820Entries info.numE820Entries
      place := by
  have one : Arranged info.e820Entries info.e820Entries 1 id :=
    ⟨fun _ inside => inside, fun source inside => ⟨source, inside, rfl⟩, fun _ _ => rfl,
      by omega, fun _ _ => rfl⟩
  obtain ⟨place, arranged⟩ := sortFrom_arranged (info.numE820Entries - 1) one
  rw [Nat.add_sub_cancel' nonempty] at arranged
  exact ⟨place, arranged⟩

end Zeptux.Early
