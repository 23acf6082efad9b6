import Zeptux.E820Sort

/-!
The second pass over the e820 entries: merging. It goes through the sorted entries run by
run, a run being a stretch without an entry of another type, and merges nothing across
runs. Of several entries of a run with one base the sort puts the shortest first, and
`early_merge_e820` takes the longer ones for contained in it, so they are lost unless an
entry of the run further down already reached that base.
-/

namespace Zeptux.Early

open Word

def E820Entry.Holds (entry : E820Entry) (address : Nat) : Prop :=
  entry.base ≤ address ∧ address < entry.base + entry.size

/-- What the boot code and the firmware promise of the entries. -/
structure EntriesOk (member : E820Entry → Prop) : Prop where
  nonempty : ∀ entry, member entry → 0 < entry.size
  bounded : ∀ entry, member entry → entry.base + entry.size ≤ 2 ^ 48
  typesApart : ∀ entry, member entry → ∀ other, member other → entry.type ≠ other.type →
    entry.base + entry.size ≤ other.base ∨ other.base + other.size ≤ entry.base

/-- What the passes themselves rely on: no empty entry and none past the last address. -/
structure EntriesSized (member : E820Entry → Prop) : Prop where
  nonempty : ∀ entry, member entry → 0 < entry.size
  bounded : ∀ entry, member entry → entry.base + entry.size < 2 ^ 64

theorem EntriesOk.sized {member : E820Entry → Prop} (ok : EntriesOk member) :
    EntriesSized member := by
  refine ⟨ok.nonempty, fun entry inside => ?_⟩
  have bound := ok.bounded entry inside
  omega

/-- The merged entries cover this one: it is the shortest of its base and type, or it
starts inside, or right after, one of them that is covered and starts further down. -/
inductive Reached (member : E820Entry → Prop) : E820Entry → Prop
  | shortest {entry : E820Entry} : member entry →
      (∀ other, member other → other.type = entry.type → other.base = entry.base →
        entry.size ≤ other.size) → Reached member entry
  | touching {entry lower : E820Entry} : Reached member lower → member entry →
      lower.type = entry.type → lower.base < entry.base →
      entry.base ≤ lower.base + lower.size → Reached member entry

theorem Reached.member {members : E820Entry → Prop} {entry : E820Entry}
    (reached : Reached members entry) : members entry := by
  cases reached with
  | shortest member _ => exact member
  | touching _ member _ _ _ => exact member

/-! ## Runs -/

/-- In the order `before`, no entry of another type is between the two or one of them. -/
def SameRun (before : Nat → Nat → Prop) (entries : Nat → E820Entry) (count first second : Nat) :
    Prop :=
  (entries second).type = (entries first).type ∧
    ∀ between < count, before first between ∧ before between second ∨
      before second between ∧ before between first → (entries between).type = (entries first).type

instance (before : Nat → Nat → Prop) [DecidableRel before] (entries : Nat → E820Entry)
    (count first second : Nat) : Decidable (SameRun before entries count first second) :=
  inferInstanceAs (Decidable (_ ∧ _))

def RunOf (before : Nat → Nat → Prop) (entries : Nat → E820Entry) (count index : Nat)
    (entry : E820Entry) : Prop :=
  ∃ other < count, SameRun before entries count index other ∧ entries other = entry

def Kept (before : Nat → Nat → Prop) (entries : Nat → E820Entry) (count index : Nat) : Prop :=
  Reached (RunOf before entries count index) (entries index)

section Runs

variable {sorted : Nat → E820Entry} {count first second third : Nat}

theorem sameRun_iff (firstInside : first < count) (secondInside : second < count) :
    SameRun (· < ·) sorted count first second ↔
      ∀ index, min first second ≤ index → index ≤ max first second →
        (sorted index).type = (sorted first).type := by
  constructor
  · rintro ⟨type, between⟩ index low high
    by_cases atFirst : index = first
    · rw [atFirst]
    · by_cases atSecond : index = second
      · rw [atSecond, type]
      · exact between index (by omega) (by omega)
  · intro all
    exact ⟨all second (by omega) (by omega), fun between _ inside => all between (by omega) (by omega)⟩

theorem SameRun.refl (before : Nat → Nat → Prop) (asymm : ∀ left right, before left right →
    ¬before right left) (index : Nat) : SameRun before sorted count index index :=
  ⟨rfl, fun between _ inside => by
    rcases inside with ⟨below, above⟩ | ⟨below, above⟩
    · exact absurd above (asymm _ _ below)
    · exact absurd above (asymm _ _ below)⟩

theorem SameRun.self (index : Nat) : SameRun (· < ·) sorted count index index :=
  .refl _ (fun _ _ => Nat.lt_asymm) index

theorem SameRun.symm {before : Nat → Nat → Prop}
    (same : SameRun before sorted count first second) :
    SameRun before sorted count second first :=
  ⟨same.1.symm, fun between inside order => (same.2 between inside order.symm).trans same.1.symm⟩

theorem SameRun.trans (same : SameRun (· < ·) sorted count first second)
    (next : SameRun (· < ·) sorted count second third) (firstInside : first < count)
    (secondInside : second < count) (thirdInside : third < count) :
    SameRun (· < ·) sorted count first third := by
  rw [sameRun_iff (by assumption) (by assumption)] at same next ⊢
  have middle := same second (by omega) (by omega)
  intro index low high
  by_cases inside : min first second ≤ index ∧ index ≤ max first second
  · exact same index inside.1 inside.2
  · rw [next index (by omega) (by omega), middle]

theorem SameRun.between (same : SameRun (· < ·) sorted count first second)
    (firstInside : first < count) (secondInside : second < count) (low : first ≤ third)
    (high : third ≤ second) : SameRun (· < ·) sorted count third second := by
  rw [sameRun_iff firstInside secondInside] at same
  rw [sameRun_iff (by omega) secondInside]
  intro index above below
  rw [same index (by omega) (by omega), same third (by omega) (by omega)]

theorem runOf_congr (same : SameRun (· < ·) sorted count first second)
    (firstInside : first < count) (secondInside : second < count) :
    RunOf (· < ·) sorted count first = RunOf (· < ·) sorted count second := by
  funext entry
  apply propext
  constructor
  · rintro ⟨other, inside, run, rfl⟩
    exact ⟨other, inside, same.symm.trans run secondInside firstInside inside, rfl⟩
  · rintro ⟨other, inside, run, rfl⟩
    exact ⟨other, inside, same.trans run firstInside secondInside inside, rfl⟩

end Runs

/-! ## Comparing -/

theorem E820Entry.range_upper {entry : E820Entry} (nonempty : 0 < entry.size)
    (bounded : entry.base + entry.size < 2 ^ 64) :
    entry.range.upper = entry.base + entry.size - 1 := by
  rw [E820Entry.range, add64_eq bounded, sub64_eq (by omega) (by omega)]

theorem rangeCompare_ordered {curr entry : E820Entry} (order : curr.base ≤ entry.base)
    (currSize : 0 < curr.size) (size : 0 < entry.size)
    (currBound : curr.base + curr.size < 2 ^ 64) (bound : entry.base + entry.size < 2 ^ 64) :
    rangeCompare curr.range entry.range =
      if curr.base = entry.base ∨ entry.base + entry.size ≤ curr.base + curr.size then .coincide
      else if entry.base < curr.base + curr.size then .overlap
      else if curr.base + curr.size = entry.base then .adjacent
      else .separate := by
  have currLower : curr.range.lower = curr.base := rfl
  have lower : entry.range.lower = entry.base := rfl
  have currUpper := E820Entry.range_upper currSize currBound
  have upper := E820Entry.range_upper size bound
  unfold rangeCompare rangeWithin
  simp only [ge_iff_le, Bool.or_eq_true, Bool.and_eq_true, decide_eq_true_eq, beq_iff_eq]
  rw [add64_eq (by omega), add64_eq (by omega)]
  split_ifs <;> first | rfl | omega

theorem sorted_base {sorted : Nat → E820Entry} {count first second : Nat}
    (order : Sorted sorted count) (le : first ≤ second) (inside : second < count) :
    (sorted first).base ≤ (sorted second).base := by
  by_cases same : first = second
  · rw [same]
  · have ordered := order first second (by omega) inside
    rw [less_eq_false_iff] at ordered
    omega

/-! ## The loop -/

/-- The entries up to the write index when entry `i` is next; each of them starts where the
one at its origin does, and is made of entries of that run. -/
structure Merging (sorted : Nat → E820Entry) (count i currIndex : Nat)
    (entries : Nat → E820Entry) (origin : Nat → Nat) : Prop where
  behind : currIndex < i
  inside : i ≤ count
  rest : ∀ index, i ≤ index → entries index = sorted index
  origins : ∀ place ≤ currIndex, origin place < i
  ordered : ∀ first second, first < second → second ≤ currIndex → origin first < origin second
  types : ∀ place ≤ currIndex, (entries place).type = (sorted (origin place)).type
  bases : ∀ place ≤ currIndex, (entries place).base = (sorted (origin place)).base
  nonempty : ∀ place ≤ currIndex, 0 < (entries place).size
  currRun : SameRun (· < ·) sorted count (origin currIndex) (i - 1)
  currFinish : (sorted (i - 1)).base < (entries currIndex).base + (entries currIndex).size
  apart : ∀ first second, first < second → second ≤ currIndex →
    SameRun (· < ·) sorted count (origin first) (origin second) →
    (entries first).base + (entries first).size < (entries second).base
  sound : ∀ place ≤ currIndex, ∀ address, (entries place).Holds address →
    ∃ source < i, SameRun (· < ·) sorted count (origin place) source ∧
      Kept (· < ·) sorted count source ∧ (sorted source).Holds address
  complete : ∀ index < i, Kept (· < ·) sorted count index →
    ∃ place ≤ currIndex, SameRun (· < ·) sorted count (origin place) index ∧
      (entries place).base ≤ (sorted index).base ∧
      (sorted index).base + (sorted index).size ≤ (entries place).base + (entries place).size

section Merging

variable {sorted entries : Nat → E820Entry} {count i currIndex : Nat} {origin : Nat → Nat}

theorem Merging.bounded (merging : Merging sorted count i currIndex entries origin)
    (sized : EntriesSized (Among sorted count)) {place : Nat} (kept : place ≤ currIndex) :
    (entries place).base + (entries place).size < 2 ^ 64 := by
  have positive := merging.nonempty place kept
  obtain ⟨source, bound, _, _, holds⟩ := merging.sound place kept
    ((entries place).base + (entries place).size - 1) ⟨by omega, by omega⟩
  have inside := merging.inside
  have limit := sized.bounded (sorted source) ⟨source, by omega, rfl⟩
  have last := holds.2
  omega

theorem Merging.base_le (merging : Merging sorted count i currIndex entries origin)
    (order : Sorted sorted count) {index : Nat} (reached : i - 1 ≤ index) (inside : index < count) :
    (entries currIndex).base ≤ (sorted index).base := by
  have bound := merging.origins currIndex (Nat.le_refl _)
  rw [merging.bases currIndex (Nat.le_refl _)]
  exact sorted_base order (by omega) inside

theorem Merging.nextRun (merging : Merging sorted count i currIndex entries origin)
    (inside : i < count) (type : (sorted i).type = (entries currIndex).type) :
    SameRun (· < ·) sorted count (origin currIndex) i := by
  have behind := merging.behind
  have bound := merging.origins currIndex (Nat.le_refl _)
  have run := (sameRun_iff (by omega) (by omega)).mp merging.currRun
  rw [sameRun_iff (by omega) inside]
  intro index low high
  by_cases last : index = i
  · rw [last, type, merging.types currIndex (Nat.le_refl _)]
  · exact run index (by omega) (by omega)

theorem Merging.curr_of_run (merging : Merging sorted count i currIndex entries origin)
    (inside : i < count) {index : Nat} (before : index < i)
    (run : SameRun (· < ·) sorted count index i) :
    SameRun (· < ·) sorted count (origin currIndex) i := by
  have behind := merging.behind
  have bound := merging.origins currIndex (Nat.le_refl _)
  have last := run.between (by omega) inside (by omega : index ≤ i - 1) (by omega)
  exact merging.currRun.trans last (by omega) (by omega) inside

theorem Merging.kept_of_gap (merging : Merging sorted count i currIndex entries origin)
    (order : Sorted sorted count) (inside : i < count)
    (gap : SameRun (· < ·) sorted count (origin currIndex) i →
      (entries currIndex).base + (entries currIndex).size < (sorted i).base) :
    Kept (· < ·) sorted count i := by
  refine .shortest ⟨i, inside, .self i, rfl⟩ ?_
  rintro other ⟨index, bound, run, rfl⟩ _ base
  by_cases later : i ≤ index
  · by_cases same : i = index
    · rw [same]
    · have ordered := order i index (by omega) bound
      rw [less_eq_false_iff] at ordered
      omega
  · have beyond := gap (merging.curr_of_run inside (by omega) run.symm)
    have low := sorted_base order (by omega : index ≤ i - 1) (by omega)
    have reach := merging.currFinish
    omega

theorem Merging.kept_of_touch (merging : Merging sorted count i currIndex entries origin)
    (inside : i < count) (type : (sorted i).type = (entries currIndex).type)
    (above : (entries currIndex).base < (sorted i).base)
    (touches : (sorted i).base ≤ (entries currIndex).base + (entries currIndex).size) :
    Kept (· < ·) sorted count i := by
  have run := merging.nextRun inside type
  have originBound := merging.origins currIndex (Nat.le_refl _)
  obtain ⟨source, bound, sourceRun, kept, holds⟩ :=
    merging.sound currIndex (Nat.le_refl _) ((sorted i).base - 1) ⟨by omega, by omega⟩
  have together := sourceRun.symm.trans run (by omega) (by omega) inside
  have low := holds.1
  have high := holds.2
  rw [Kept, runOf_congr together (by omega) inside] at kept
  exact .touching kept ⟨i, inside, .self i, rfl⟩ together.1.symm (by omega) (by omega)

theorem Merging.keep (merging : Merging sorted count i currIndex entries origin)
    (sized : EntriesSized (Among sorted count)) (order : Sorted sorted count) (inside : i < count)
    (gap : ∀ place ≤ currIndex, SameRun (· < ·) sorted count (origin place) i →
      (entries place).base + (entries place).size < (sorted i).base) :
    Merging sorted count (i + 1) (currIndex + 1)
      (Function.update entries (currIndex + 1) (sorted i))
      (Function.update origin (currIndex + 1) i) := by
  have behind := merging.behind
  have below : ∀ place ≤ currIndex,
      Function.update entries (currIndex + 1) (sorted i) place = entries place :=
    fun place kept => update_below (by omega)
  have belowOrigin : ∀ place ≤ currIndex,
      Function.update origin (currIndex + 1) i place = origin place :=
    fun place kept => Function.update_of_ne (by omega) _ _
  have reached := merging.kept_of_gap order inside (gap currIndex (Nat.le_refl _))
  have size := sized.nonempty (sorted i) ⟨i, inside, rfl⟩
  constructor
  case behind => omega
  case inside => exact inside
  case rest =>
    intro index bound
    rw [Function.update_of_ne (by omega)]
    exact merging.rest index (by omega)
  case origins =>
    intro place kept
    by_cases last : place = currIndex + 1
    · rw [last, Function.update_self]
      omega
    · have old := merging.origins place (by omega)
      rw [belowOrigin place (by omega)]
      omega
  case ordered =>
    intro first second before kept
    rw [belowOrigin first (by omega)]
    by_cases last : second = currIndex + 1
    · rw [last, Function.update_self]
      exact merging.origins first (by omega)
    · rw [belowOrigin second (by omega)]
      exact merging.ordered first second before (by omega)
  case types =>
    intro place kept
    by_cases last : place = currIndex + 1
    · rw [last, Function.update_self, Function.update_self]
    · rw [below place (by omega), belowOrigin place (by omega)]
      exact merging.types place (by omega)
  case bases =>
    intro place kept
    by_cases last : place = currIndex + 1
    · rw [last, Function.update_self, Function.update_self]
    · rw [below place (by omega), belowOrigin place (by omega)]
      exact merging.bases place (by omega)
  case nonempty =>
    intro place kept
    by_cases last : place = currIndex + 1
    · rw [last, Function.update_self]
      exact size
    · rw [below place (by omega)]
      exact merging.nonempty place (by omega)
  case currRun =>
    rw [Function.update_self, Nat.add_sub_cancel]
    exact .self i
  case currFinish =>
    rw [Function.update_self, Nat.add_sub_cancel]
    omega
  case apart =>
    intro first second before kept run
    rw [belowOrigin first (by omega)] at run
    rw [below first (by omega)]
    by_cases last : second = currIndex + 1
    · rw [last, Function.update_self] at run ⊢
      exact gap first (by omega) run
    · rw [belowOrigin second (by omega)] at run
      rw [below second (by omega)]
      exact merging.apart first second before (by omega) run
  case sound =>
    intro place kept address holds
    by_cases last : place = currIndex + 1
    · rw [last, Function.update_self] at holds ⊢
      exact ⟨i, by omega, .self i, reached, holds⟩
    · rw [below place (by omega)] at holds
      rw [belowOrigin place (by omega)]
      obtain ⟨source, bound, found⟩ := merging.sound place (by omega) address holds
      exact ⟨source, by omega, found⟩
  case complete =>
    intro index bound covered
    by_cases last : index = i
    · subst index
      refine ⟨currIndex + 1, Nat.le_refl _, ?_⟩
      rw [Function.update_self, Function.update_self]
      exact ⟨.self i, Nat.le_refl _, Nat.le_refl _⟩
    · obtain ⟨place, kept, found⟩ := merging.complete index (by omega) covered
      refine ⟨place, by omega, ?_⟩
      rw [below place kept, belowOrigin place kept]
      exact found

theorem Merging.extend (merging : Merging sorted count i currIndex entries origin)
    (inside : i < count)
    (type : (sorted i).type = (entries currIndex).type)
    (above : (entries currIndex).base < (sorted i).base)
    (touches : (sorted i).base ≤ (entries currIndex).base + (entries currIndex).size)
    {size : Nat}
    (grown : (entries currIndex).base + size = (sorted i).base + (sorted i).size)
    (grows : (entries currIndex).size < size) :
    Merging sorted count (i + 1) currIndex
      (Function.update entries currIndex { entries currIndex with size := size }) origin := by
  have behind := merging.behind
  have run := merging.nextRun inside type
  have below : ∀ place, place < currIndex →
      Function.update entries currIndex { entries currIndex with size := size } place =
        entries place :=
    fun place kept => update_below kept
  have reached := merging.kept_of_touch inside type above touches
  constructor
  case behind => omega
  case inside => exact inside
  case rest =>
    intro index bound
    rw [Function.update_of_ne (by omega)]
    exact merging.rest index (by omega)
  case origins =>
    intro place kept
    exact Nat.lt_succ_of_lt (merging.origins place kept)
  case ordered => exact merging.ordered
  case types =>
    intro place kept
    by_cases last : place = currIndex
    · rw [last, Function.update_self]
      exact merging.types currIndex (Nat.le_refl _)
    · rw [below place (by omega)]
      exact merging.types place kept
  case bases =>
    intro place kept
    by_cases last : place = currIndex
    · rw [last, Function.update_self]
      exact merging.bases currIndex (Nat.le_refl _)
    · rw [below place (by omega)]
      exact merging.bases place kept
  case nonempty =>
    intro place kept
    by_cases last : place = currIndex
    · rw [last, Function.update_self]
      change 0 < size
      omega
    · rw [below place (by omega)]
      exact merging.nonempty place kept
  case currRun => exact run
  case currFinish =>
    rw [Function.update_self, Nat.add_sub_cancel]
    change (sorted i).base < (entries currIndex).base + size
    omega
  case apart =>
    intro first second before kept same
    rw [below first (by omega)]
    by_cases last : second = currIndex
    · rw [last, Function.update_self]
      rw [last] at before same
      exact merging.apart first currIndex before (Nat.le_refl _) same
    · rw [below second (by omega)]
      exact merging.apart first second before kept same
  case sound =>
    intro place kept address holds
    by_cases last : place = currIndex
    · rw [last, Function.update_self] at holds
      rw [last]
      by_cases old : address < (entries currIndex).base + (entries currIndex).size
      · obtain ⟨source, bound, found⟩ := merging.sound currIndex (Nat.le_refl _) address
          ⟨holds.1, old⟩
        exact ⟨source, by omega, found⟩
      · have high : address < (entries currIndex).base + size := holds.2
        exact ⟨i, by omega, run, reached, by omega, by omega⟩
    · rw [below place (by omega)] at holds
      obtain ⟨source, bound, found⟩ := merging.sound place kept address holds
      exact ⟨source, by omega, found⟩
  case complete =>
    intro index bound covered
    by_cases last : index = i
    · subst index
      refine ⟨currIndex, Nat.le_refl _, run, ?_⟩
      rw [Function.update_self]
      exact ⟨Nat.le_of_lt above, Nat.le_of_eq grown.symm⟩
    · obtain ⟨place, kept, same, low, high⟩ := merging.complete index (by omega) covered
      refine ⟨place, kept, same, ?_⟩
      by_cases here : place = currIndex
      · rw [here, Function.update_self]
        rw [here] at low high
        refine ⟨low, ?_⟩
        change (sorted index).base + (sorted index).size ≤ (entries currIndex).base + size
        omega
      · rw [below place (by omega)]
        exact ⟨low, high⟩

theorem Merging.contains_kept (merging : Merging sorted count i currIndex entries origin)
    (order : Sorted sorted count) (inside : i < count)
    (run : SameRun (· < ·) sorted count (origin currIndex) i)
    (base : (entries currIndex).base = (sorted i).base)
    (reached : Kept (· < ·) sorted count i) :
    (sorted i).base + (sorted i).size ≤ (entries currIndex).base + (entries currIndex).size := by
  have positive := merging.nonempty currIndex (Nat.le_refl _)
  have originBound := merging.origins currIndex (Nat.le_refl _)
  -- A kept entry of this run that holds or touches the base from below is in the current one.
  have inCurr : ∀ index < i, Kept (· < ·) sorted count index →
      SameRun (· < ·) sorted count index i →
      (sorted i).base ≤ (sorted index).base + (sorted index).size →
      (entries currIndex).base ≤ (sorted index).base ∧
        (sorted index).base + (sorted index).size ≤
          (entries currIndex).base + (entries currIndex).size := by
    intro index bound covered together touches
    obtain ⟨place, kept, placeRun, low, high⟩ := merging.complete index bound covered
    have placeBound := merging.origins place kept
    by_cases here : place = currIndex
    · rw [here] at low high
      exact ⟨low, high⟩
    · have same := (placeRun.trans together (by omega) (by omega) inside).trans run.symm
        (by omega) inside (by omega)
      have separate := merging.apart place currIndex (by omega) (Nat.le_refl _) same
      omega
  cases reached with
  | shortest member least =>
      obtain ⟨source, bound, sourceRun, covered, low, high⟩ :=
        merging.sound currIndex (Nat.le_refl _) (entries currIndex).base ⟨by omega, by omega⟩
      have together := sourceRun.symm.trans run (by omega) (by omega) inside
      obtain ⟨start, finish⟩ := inCurr source bound covered together (by omega)
      have longer := least (sorted source) ⟨source, by omega, together.symm, rfl⟩ together.1.symm
        (by omega)
      omega
  | @touching _ lower covered member sameType below touches =>
      obtain ⟨index, bound, together, rfl⟩ := covered.member
      have earlier : index < i := by
        by_contra later
        have order := sorted_base order (by omega : i ≤ index) bound
        omega
      rw [runOf_congr together inside bound] at covered
      have start := (inCurr index earlier covered together.symm touches).1
      omega

theorem Merging.drop (merging : Merging sorted count i currIndex entries origin)
    (order : Sorted sorted count) (inside : i < count)
    (type : (sorted i).type = (entries currIndex).type)
    (start : (entries currIndex).base ≤ (sorted i).base)
    (finish : (sorted i).base < (entries currIndex).base + (entries currIndex).size)
    (coincide : (entries currIndex).base = (sorted i).base ∨
      (sorted i).base + (sorted i).size ≤ (entries currIndex).base + (entries currIndex).size) :
    Merging sorted count (i + 1) currIndex entries origin := by
  have behind := merging.behind
  have run := merging.nextRun inside type
  refine ⟨by omega, inside, fun index bound => merging.rest index (by omega),
    fun place kept => Nat.lt_succ_of_lt (merging.origins place kept), merging.ordered,
    merging.types, merging.bases, merging.nonempty, run, finish, merging.apart, ?_, ?_⟩
  · intro place kept address holds
    obtain ⟨source, bound, found⟩ := merging.sound place kept address holds
    exact ⟨source, by omega, found⟩
  · intro index bound covered
    by_cases last : index = i
    · subst index
      refine ⟨currIndex, Nat.le_refl _, run, start, ?_⟩
      rcases coincide with base | contained
      · exact merging.contains_kept order inside run base covered
      · exact contained
    · exact merging.complete index (by omega) covered

theorem merging_first (sized : EntriesSized (Among sorted count)) (order : Sorted sorted count)
    (nonempty : 0 < count) : Merging sorted count 1 0 sorted id := by
  have size := sized.nonempty (sorted 0) ⟨0, nonempty, rfl⟩
  have run : SameRun (· < ·) sorted count 0 0 := .self 0
  have reached : Kept (· < ·) sorted count 0 := by
    refine .shortest ⟨0, nonempty, run, rfl⟩ ?_
    rintro other ⟨index, bound, _, rfl⟩ _ base
    by_cases same : index = 0
    · rw [same]
    · have ordered := order 0 index (by omega) bound
      rw [less_eq_false_iff] at ordered
      omega
  refine ⟨by omega, nonempty, fun _ _ => rfl, fun place kept => Nat.lt_succ_of_le kept, by omega,
    fun _ _ => rfl, fun _ _ => rfl, ?_, run, by simpa using size, by omega, ?_, ?_⟩
  · intro place kept
    rw [Nat.le_zero.mp kept]
    exact size
  · intro place kept address holds
    rw [Nat.le_zero.mp kept] at holds ⊢
    exact ⟨0, by omega, run, reached, holds⟩
  · intro index bound _
    rw [Nat.lt_one_iff.mp bound]
    exact ⟨0, Nat.le_refl _, run, Nat.le_refl _, Nat.le_refl _⟩

theorem mergeFrom_merging (sized : EntriesSized (Among sorted count)) (order : Sorted sorted count)
    (remaining : Nat) (total : i + remaining = count)
    (merging : Merging sorted count i currIndex entries origin) :
    ∃ final, Merging sorted count count (mergeFrom remaining i currIndex entries).1
      (mergeFrom remaining i currIndex entries).2 final := by
  induction remaining generalizing i currIndex entries origin with
  | zero =>
      rw [Nat.add_zero] at total
      subst count
      exact ⟨origin, merging⟩
  | succ remaining ih =>
      have inside : i < count := by omega
      have member : Among sorted count (sorted i) := ⟨i, inside, rfl⟩
      have entryIs := merging.rest i (Nat.le_refl _)
      have size := sized.nonempty _ member
      have bound := sized.bounded _ member
      have currSize := merging.nonempty currIndex (Nat.le_refl _)
      have currBound := merging.bounded sized (Nat.le_refl currIndex)
      have start := merging.base_le order (by omega : i - 1 ≤ i) inside
      have advance := sorted_base order (by omega : i - 1 ≤ i) inside
      have finish := merging.currFinish
      have moved : (if currIndex + 1 ≠ i then Function.update entries (currIndex + 1) (sorted i)
          else entries) = Function.update entries (currIndex + 1) (sorted i) := by
        split
        · rfl
        · rename_i same
          rw [not_not.mp same, ← entryIs, Function.update_eq_self]
      have grown : add64 (entries currIndex).size
          (sub64 (sorted i).range.upper (entries currIndex).range.upper) =
            (entries currIndex).size + ((sorted i).base + (sorted i).size -
              ((entries currIndex).base + (entries currIndex).size)) ∨
          (sorted i).base + (sorted i).size <
            (entries currIndex).base + (entries currIndex).size := by
        rw [E820Entry.range_upper size bound, E820Entry.range_upper currSize currBound]
        by_cases longer : (sorted i).base + (sorted i).size <
            (entries currIndex).base + (entries currIndex).size
        · exact Or.inr longer
        · rw [sub64_eq (by omega) (by omega), add64_eq (by omega)]
          exact Or.inl (by omega)
      simp only [mergeFrom, entryIs, moved]
      split
      · rename_i other
        refine ih (by omega) (merging.keep sized order inside fun place kept run => ?_)
        have curr := merging.curr_of_run inside (merging.origins place kept) run
        rw [merging.types currIndex (Nat.le_refl _)] at other
        exact absurd curr.1 other
      · rename_i type
        rw [ne_eq, not_not] at type
        rw [rangeCompare_ordered start currSize size currBound bound]
        split_ifs with coincide overlap adjacent
        · exact ih (by omega) (merging.drop order inside type start (by omega) coincide)
        · exact ih (by omega) (merging.extend inside type (by omega) (by omega) (by omega) (by omega))
        · exact ih (by omega) (merging.extend inside type (by omega) (by omega) (by omega) (by omega))
        · refine ih (by omega) (merging.keep sized order inside fun place kept run => ?_)
          have placeBound := merging.origins place kept
          have currOrigin := merging.origins currIndex (Nat.le_refl _)
          by_cases last : place = currIndex
          · rw [last]
            omega
          · have curr := merging.nextRun inside type
            have separate := merging.apart place currIndex (by omega) (Nat.le_refl _)
              (run.trans curr.symm (by omega) inside (by omega))
            omega

end Merging

end Zeptux.Early
