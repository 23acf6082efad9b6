import Mathlib.Algebra.BigOperators.Group.Finset.Basic
import Mathlib.Data.Nat.ModEq
import Zeptux.PageOverlap

/-!
Which leaves a range gets in an empty table. Each page goes under the largest leaf whose
chunk lies in the range, provided the two start addresses agree modulo its size, and the
tables that are allocated are the ones this shape needs.
-/

namespace Zeptux.Page

open Word X86Paging

/-! ## The shape of a range -/

structure Request where
  startVa : Nat
  startPa : Nat
  numPages : Nat
deriving DecidableEq, Repr

namespace Request

/-- The chunk around the address that an entry of the level maps lies in the range, and the
start addresses agree modulo its size. -/
def Fits (request : Request) (level address : Nat) : Prop :=
  request.startVa % entrySize level = request.startPa % entrySize level ∧
    request.startVa ≤ region level address * entrySize level ∧
    (region level address + 1) * entrySize level ≤ request.startVa + 2 ^ 12 * request.numPages

instance (request : Request) (level address : Nat) : Decidable (request.Fits level address) :=
  inferInstanceAs (Decidable (_ ∧ _))

def leafLevel (request : Request) (address : Nat) : Nat :=
  if request.Fits 2 address then 2 else if request.Fits 1 address then 1 else 0

/-- The tables of a level needed for some pages, each by the number of its region: those with
a page that no larger leaf maps. -/
def tablesFor (request : Request) (level first pages : Nat) : Finset Nat :=
  ((Finset.range pages).filter fun page => request.leafLevel (first + 2 ^ 12 * page) ≤ level).image
    fun page => region (level + 1) (first + 2 ^ 12 * page)

def needed (request : Request) (level first pages : Nat) : Nat :=
  ∑ lower ∈ Finset.range level, (request.tablesFor lower first pages).card

variable {request : Request} {level address other : Nat}

theorem fits_congr (same : region level address = region level other) :
    request.Fits level address ↔ request.Fits level other := by
  rw [Fits, Fits, same]

theorem leafLevel_le (none : ∀ larger, level < larger → larger ≤ 2 → ¬request.Fits larger address) :
    request.leafLevel address ≤ level := by
  unfold leafLevel
  split
  · rename_i fits
    by_contra above
    exact none 2 (by omega) (by omega) fits
  · split
    · rename_i fits
      by_contra above
      exact none 1 (by omega) (by omega) fits
    · exact Nat.zero_le level

theorem leafLevel_eq (small : level ≤ 2) (fits : request.Fits level address)
    (none : ∀ larger, level < larger → larger ≤ 2 → ¬request.Fits larger address) :
    request.leafLevel address = level := by
  apply Nat.le_antisymm (leafLevel_le none)
  have levels : level = 0 ∨ level = 1 ∨ level = 2 := by omega
  unfold leafLevel
  rcases levels with rfl | rfl | rfl
  · exact Nat.zero_le _
  · rw [if_neg (none 2 (by omega) (by omega)), if_pos fits]
  · rw [if_pos fits]

/-! ## Counting tables -/

theorem card_image_append {test : Nat → Prop} [DecidablePred test] {number : Nat → Nat}
    {pages bound : Nat} (more : Nat) (low : ∀ page < pages, number page < bound)
    (high : ∀ page, bound ≤ number (pages + page)) :
    (((Finset.range (pages + more)).filter test).image number).card =
      (((Finset.range pages).filter test).image number).card +
        (((Finset.range more).filter fun page => test (pages + page)).image
          fun page => number (pages + page)).card := by
  rw [← Finset.card_union_of_disjoint]
  · congr 1
    ext value
    simp only [Finset.mem_image, Finset.mem_filter, Finset.mem_range, Finset.mem_union]
    constructor
    · rintro ⟨page, ⟨inside, holds⟩, same⟩
      by_cases first : page < pages
      · exact Or.inl ⟨page, ⟨first, holds⟩, same⟩
      · refine Or.inr ⟨page - pages, ⟨by omega, ?_⟩, ?_⟩
        · rwa [Nat.add_sub_cancel' (by omega)]
        · rwa [Nat.add_sub_cancel' (by omega)]
    · rintro (⟨page, ⟨inside, holds⟩, same⟩ | ⟨page, ⟨inside, holds⟩, same⟩)
      · exact ⟨page, ⟨by omega, holds⟩, same⟩
      · exact ⟨pages + page, ⟨by omega, holds⟩, same⟩
  · rw [Finset.disjoint_left]
    intro value
    simp only [Finset.mem_image, Finset.mem_filter, Finset.mem_range]
    rintro ⟨page, ⟨inside, _⟩, rfl⟩ ⟨later, _, same⟩
    have below := low page inside
    have above := high later
    omega

theorem needed_append {first pages : Nat} (more : Nat)
    (aligned : entrySize level ∣ first + 2 ^ 12 * pages) :
    request.needed level first (pages + more) =
      request.needed level first pages + request.needed level (first + 2 ^ 12 * pages) more := by
  unfold needed
  rw [← Finset.sum_add_distrib]
  apply Finset.sum_congr rfl
  intro lower member
  have below := Finset.mem_range.mp member
  obtain ⟨number, stop⟩ : entrySize (lower + 1) ∣ first + 2 ^ 12 * pages :=
    (Nat.pow_dvd_pow 2 (by omega)).trans aligned
  have size := entrySize_pos (lower + 1)
  rw [Nat.mul_comm (entrySize (lower + 1))] at stop
  have low : ∀ page < pages, region (lower + 1) (first + 2 ^ 12 * page) < number := by
    intro page inside
    rw [region, Nat.div_lt_iff_lt_mul size, ← stop]
    omega
  have high : ∀ page, number ≤ region (lower + 1) (first + 2 ^ 12 * (pages + page)) := by
    intro page
    rw [region, Nat.le_div_iff_mul_le size, ← stop]
    omega
  unfold tablesFor
  rw [card_image_append more low high]
  simp only [Nat.mul_add, Nat.add_assoc]

theorem needed_leaf {first pages : Nat}
    (leaves : ∀ page < pages, request.leafLevel (first + 2 ^ 12 * page) = level) :
    request.needed level first pages = 0 := by
  apply Finset.sum_eq_zero
  intro lower member
  have below := Finset.mem_range.mp member
  rw [tablesFor, Finset.filter_false_of_mem, Finset.image_empty, Finset.card_empty]
  intro page inside
  rw [leaves page (Finset.mem_range.mp inside)]
  omega

theorem needed_lower {first pages number : Nat} (positive : 0 < pages)
    (small : ∀ page < pages, request.leafLevel (first + 2 ^ 12 * page) ≤ level)
    (together : ∀ page < pages, region (level + 1) (first + 2 ^ 12 * page) = number) :
    request.needed (level + 1) first pages = request.needed level first pages + 1 := by
  have one : request.tablesFor level first pages = {number} := by
    ext value
    simp only [tablesFor, Finset.mem_image, Finset.mem_filter, Finset.mem_range,
      Finset.mem_singleton]
    constructor
    · rintro ⟨page, ⟨inside, _⟩, rfl⟩
      exact together page inside
    · rintro rfl
      exact ⟨0, ⟨positive, small 0 positive⟩, together 0 positive⟩
  rw [needed, Finset.sum_range_succ, one, Finset.card_singleton]
  rfl

end Request

/-! ## The cursor on its way through the range -/

section

variable {σ : Type} {owned : Stock σ} {flags : Nat} {request : Request}
variable {level table count pages : Nat} {before after : PageMapState σ}

/-- The cursor has come from the start of the range, over whole entries of the level, and no
leaf larger than these fits where it stands. -/
structure OnCourse (request : Request) (level : Nat) (state : PageMapState σ) (count : Nat) :
    Prop where
  aligned : 2 ^ 12 ∣ request.startVa ∧ 2 ^ 12 ∣ request.startPa
  moved : ∃ done, state.va = request.startVa + 2 ^ 12 * done ∧
    state.pa = (request.startPa + 2 ^ 12 * done) % 2 ^ 64 ∧ done + count = request.numPages
  whole : state.va = request.startVa ∨ entrySize level ∣ state.va
  small : ∀ larger, level < larger → larger ≤ 2 → ∀ address,
    region (level + 1) address = region (level + 1) state.va → ¬request.Fits larger address

def Blank (level table : Nat) (state : PageMapState σ) : Prop :=
  ∀ index < 512, indexAt level state.va ≤ index → ¬Present (entryAt state.mem table index)

theorem OnCourse.page (course : OnCourse request level before count) : before.page = before.va := by
  obtain ⟨done, place, _⟩ := course.moved
  apply pageStart_of_dvd
  rw [place]
  exact Nat.dvd_add course.aligned.1 (Nat.dvd_mul_right _ _)

theorem OnCourse.frame (course : OnCourse request level before count) :
    before.frame = before.pa := by
  obtain ⟨done, _, place, _⟩ := course.moved
  apply pageStart_of_dvd
  rw [place]
  exact (Nat.dvd_mod_iff (by decide : 2 ^ 12 ∣ 2 ^ 64)).mpr
    (Nat.dvd_add course.aligned.2 (Nat.dvd_mul_right _ _))

theorem OnCourse.agree_iff (course : OnCourse request level before count) {size : Nat}
    (divides : size ∣ 2 ^ 64) (vaAligned : size ∣ before.va) :
    size ∣ before.pa ↔ request.startVa % size = request.startPa % size := by
  obtain ⟨done, va, pa, _⟩ := course.moved
  rw [pa, Nat.dvd_mod_iff divides]
  rw [va] at vaAligned
  have zero : request.startVa + 2 ^ 12 * done ≡ 0 [MOD size] :=
    Nat.modEq_zero_iff_dvd.mpr vaAligned
  constructor
  · intro paAligned
    have same := zero.trans (Nat.modEq_zero_iff_dvd.mpr paAligned).symm
    exact Nat.ModEq.add_right_cancel' _ same
  · intro agree
    have moved : request.startVa + 2 ^ 12 * done ≡ request.startPa + 2 ^ 12 * done [MOD size] :=
      Nat.ModEq.add_right _ agree
    exact Nat.modEq_zero_iff_dvd.mp (moved.symm.trans zero)

theorem OnCourse.fits_iff (course : OnCourse request level before count) (bound : level ≤ 4) :
    request.Fits level before.va ↔
      entrySize level ∣ before.va ∧ entrySize level ∣ before.pa ∧ entryPages level ≤ count := by
  obtain ⟨done, va, _, total⟩ := course.moved
  have size := entrySize_eq level
  have positive := entrySize_pos level
  have start := Nat.div_mul_le_self before.va (entrySize level)
  have atStart : entrySize level ∣ before.va →
      region level before.va * entrySize level = before.va := Nat.div_mul_cancel
  constructor
  · rintro ⟨agree, low, high⟩
    have vaAligned : entrySize level ∣ before.va := by
      rcases course.whole with first | aligned
      · have here : region level before.va * entrySize level = before.va := by
          rw [region] at low ⊢
          omega
        rw [← here]
        exact Nat.dvd_mul_left _ _
      · exact aligned
    refine ⟨vaAligned, (course.agree_iff (entrySize_dvd bound) vaAligned).mpr agree, ?_⟩
    rw [Nat.add_mul, atStart vaAligned, Nat.one_mul, size] at high
    omega
  · rintro ⟨vaAligned, paAligned, room⟩
    refine ⟨(course.agree_iff (entrySize_dvd bound) vaAligned).mp paAligned, ?_, ?_⟩
    · rw [atStart vaAligned]
      omega
    · rw [Nat.add_mul, atStart vaAligned, Nat.one_mul, size]
      omega

structure Shaped (request : Request) (level table scope : Nat) (before after : PageMapState σ)
    (pages : Nat) : Prop where
  levels : ∀ address, InRange before pages address →
    (walkFrom after.mem level table address).map Leaf.level = some (request.leafLevel address)
  counted : after.numPagetablesAllocated =
    before.numPagetablesAllocated + request.needed level before.page pages
  others : scope = level → ∀ index < 512, index ≠ indexAt level before.va →
    entryAt after.mem table index = entryAt before.mem table index

theorem inRange_page (state : PageMapState σ) {page : Nat} (inside : page < pages) :
    InRange state pages (state.page + 2 ^ 12 * page) := ⟨by omega, by omega⟩

theorem OnCourse.congr (course : OnCourse request level before count) (va : after.va = before.va)
    (pa : after.pa = before.pa) : OnCourse request level after count := by
  refine ⟨course.aligned, ?_, ?_, ?_⟩
  · rw [va, pa]
    exact course.moved
  · rw [va]
    exact course.whole
  · rw [va]
    exact course.small

theorem shaped_leaf {bits : Nat} (course : OnCourse request level before count) (small : level ≤ 2)
    (flagBits : FlagBits bits) (huge : level = 0 ∨ bits / 2 ^ 7 % 2 = 1)
    (vaAligned : entrySize level ∣ before.page) (paAligned : entrySize level ∣ before.frame)
    (room : entryPages level ≤ count) :
    Shaped request level table level before (leafWritten level table bits before)
      (entryPages level) := by
  have entry := atEntry vaAligned
  rw [course.page] at vaAligned
  rw [course.frame] at paAligned
  have fits : request.Fits level before.va :=
    (course.fits_iff (by omega)).mpr ⟨vaAligned, paAligned, room⟩
  have leaves : ∀ address, InRange before (entryPages level) address →
      request.leafLevel address = level := by
    intro address inside
    have same := entry.together address inside
    apply Request.leafLevel_eq small ((Request.fits_congr same).mpr fits)
    intro larger above bound
    apply course.small larger above bound
    rw [region_succ, region_succ, same]
  refine ⟨?_, ?_, ?_⟩
  · intro address inside
    rw [walkFrom_leafWritten small flagBits huge (entry.together address inside),
      leaves address inside]
    rfl
  · rw [Request.needed_leaf fun page inside => leaves _ (inRange_page before inside)]
    rfl
  · intro _ index _ different
    rw [leafWritten_mem, entryAt_setEntry_index different]

theorem OnCourse.descend (course : OnCourse request (level + 1) before count)
    (bound : level + 1 ≤ 4)
    (unfit : level + 1 ≤ 2 → ¬(entrySize (level + 1) ∣ before.va ∧
      entrySize (level + 1) ∣ before.pa ∧ entryPages (level + 1) ≤ count)) :
    OnCourse request level before count := by
  refine ⟨course.aligned, course.moved, ?_, ?_⟩
  · rcases course.whole with first | aligned
    · exact Or.inl first
    · right
      exact (Nat.pow_dvd_pow 2 (by omega)).trans aligned
  · intro larger above small address same
    by_cases next : larger = level + 1
    · subst next
      rw [Request.fits_congr same, course.fits_iff bound]
      exact unfit small
    · apply course.small larger (by omega) small
      rw [region_succ (level + 1), region_succ (level + 1), same]

theorem shaped_lower {lower : Nat} {middle : PageMapState σ}
    (cursor : Cursor owned (level + 1) table before count)
    (entered : Entered owned level table (indexAt (level + 1) before.va) before (lower, middle))
    (passed : Passed owned flags level lower (level + 1) middle after count pages)
    (course : OnCourse request level middle count)
    (absent : ¬Present (entryAt before.mem table (indexAt (level + 1) before.va)))
    (shaped : Shaped request level lower (level + 1) middle after pages) :
    Shaped request (level + 1) table (level + 1) before after pages := by
  have va : middle.va = before.va := entered.va
  have page : middle.page = before.page := congrArg pageStart va
  have below := entered.below
  rw [← entered.va] at below
  have entries := passed.entries (entered.cursor cursor).sound below
  have still := passed.still (entered.cursor cursor).sound below
  have range : ∀ address, InRange before pages address → InRange middle pages address := by
    intro address inside
    rw [InRange, page]
    exact inside
  refine ⟨?_, ?_, ?_⟩
  · intro address inside
    have there := range address inside
    have index : indexAt (level + 1) address = indexAt (level + 1) middle.va := by
      rw [indexAt_eq, indexAt_eq, passed.together address there]
    rw [← index] at still
    rw [walkFrom_child still]
    exact shaped.levels address there
  · have added : middle.numPagetablesAllocated = before.numPagetablesAllocated + 1 :=
      (entered.fresh absent).1
    have small : ∀ number < pages,
        request.leafLevel (before.page + 2 ^ 12 * number) ≤ level := by
      intro number inside
      apply Request.leafLevel_le
      intro larger above most
      apply course.small larger above most
      rw [← page]
      exact passed.together _ (inRange_page middle inside)
    have together : ∀ number < pages,
        region (level + 1) (before.page + 2 ^ 12 * number) = region (level + 1) middle.va := by
      intro number inside
      rw [← page]
      exact passed.together _ (inRange_page middle inside)
    rw [Request.needed_lower passed.positive small together, shaped.counted, added, page]
    omega
  · intro _ index inside different
    rw [entries index inside]
    exact entered.others index inside different

theorem OnCourse.next {middle : PageMapState σ} (course : OnCourse request level before count)
    (cursor : Cursor owned level table before count)
    (step : Passed owned flags level table level before middle count pages) (more : pages < count)
    (together : region (level + 1) middle.va = region (level + 1) before.va) :
    OnCourse request level middle (count - pages) ∧
      entrySize level ∣ before.page + 2 ^ 12 * pages ∧
      indexAt level before.va < indexAt level middle.va := by
  have stop := step.stops.resolve_left (by omega)
  have vaBound := cursor.vaBound
  have place : middle.va = before.page + 2 ^ 12 * pages := by
    rw [step.va, Nat.mod_eq_of_lt (by omega)]
  have whole : entrySize level ∣ before.page + 2 ^ 12 * pages := by
    rw [stop]
    exact Nat.dvd_mul_left _ _
  obtain ⟨done, va, pa, total⟩ := course.moved
  refine ⟨⟨course.aligned, ⟨done + pages, ?_, ?_, by omega⟩, Or.inr (place ▸ whole), ?_⟩, whole, ?_⟩
  · rw [place, course.page, va]
    omega
  · rw [step.pa, course.frame, pa]
    omega
  · rw [together]
    exact course.small
  · have next : region level middle.va = region level before.va + 1 := by
      rw [place, stop, region_of_end]
    rw [region_succ, region_succ, next] at together
    rw [indexAt_eq, indexAt_eq, next]
    omega

theorem shaped_append {middle : PageMapState σ} {more : Nat}
    (step : Passed owned flags level table level before middle count pages)
    (place : middle.page = before.page + 2 ^ 12 * pages)
    (whole : entrySize level ∣ before.page + 2 ^ 12 * pages)
    (together : region (level + 1) middle.va = region (level + 1) before.va)
    (rest : Passed owned flags level table (level + 1) middle after (count - pages) more)
    (first : Shaped request level table level before middle pages)
    (second : Shaped request level table (level + 1) middle after more) :
    Shaped request level table (level + 1) before after (pages + more) := by
  refine ⟨?_, ?_, fun wrong => by omega⟩
  · rintro address ⟨low, high⟩
    by_cases early : address < before.page + 2 ^ 12 * pages
    · have inside : InRange before pages address := ⟨low, early⟩
      have same : region (level + 1) address = region (level + 1) middle.va := by
        rw [together, region_succ, region_succ, step.together address inside]
      rw [rest.outside address same fun wrong => by have := wrong.1; omega]
      exact first.levels address inside
    · exact second.levels address ⟨by omega, by omega⟩
  · rw [second.counted, first.counted, place, Request.needed_append more whole]
    omega

theorem Visited.shaped {scope : Nat}
    (visited : Visited owned flags level table scope before after count pages)
    (bound : level ≤ 3) (course : OnCourse request level before count)
    (blank : Blank level table before) : Shaped request level table scope before after pages := by
  induction visited with
  | leaf _ small _ flagBits _ huge vaAligned paAligned room =>
      exact shaped_leaf course small flagBits huge vaAligned paAligned room
  | skip _ isPresent _ => exact absurd isPresent (blank _ (indexAt_lt _ _) (Nat.le_refl _))
  | lower cursor entered unfit visited ih =>
      have absent := blank _ (indexAt_lt _ _) (Nat.le_refl _)
      have lowerCourse := (course.descend (by omega) (unfit absent)).congr entered.va entered.pa
      refine shaped_lower cursor entered visited.passed lowerCourse absent
        (ih (by omega) lowerCourse ?_)
      intro index inside _
      have empty := (entered.fresh absent).2 index inside
      simp only at empty
      rw [empty]
      decide
  | last _ _ ih =>
      have shaped := ih bound course blank
      exact ⟨shaped.levels, shaped.counted, fun wrong => by omega⟩
  | append cursor visited more together rest first second =>
      have step := visited.passed
      have here := first bound course blank
      obtain ⟨nextCourse, whole, later⟩ := course.next cursor step more together
      refine shaped_append step (step.place cursor more).1 whole together rest.passed here
        (second bound nextCourse ?_)
      intro index inside beyond
      rw [here.others rfl index inside (by omega)]
      exact blank index inside (by omega)

end

theorem mapPageRange_greedy {σ : Type} {alloc : PageAllocators σ} {owned : Stock σ}
    (supplies : SuppliesTables owned alloc) {flags : Nat} (valid : ValidMapFlags flags)
    {pgd startVa startPa numPages : Nat} {mem : Memory} {allocState : σ}
    (vaAligned : 2 ^ 12 ∣ startVa) (paAligned : 2 ^ 12 ∣ startPa) (paWord : startPa < 2 ^ 64)
    (half : InOneHalf startVa numPages) (isTable : IsTable pgd) (ok : owned.ok allocState)
    (unused : pgd ∉ owned allocState)
    (empty : ∀ index < 512, ¬Present (entryAt mem pgd index))
    (enough : mapPageRange alloc flags pgd startVa startPa numPages mem allocState ≠
      .error .exhausted) :
    ∃ after, mapPageRange alloc flags pgd startVa startPa numPages mem allocState = .ok after ∧
      (∀ page < numPages, ∃ leaf, walk after.mem pgd (startVa + 2 ^ 12 * page) = some leaf ∧
        leaf.level = Request.leafLevel ⟨startVa, startPa, numPages⟩ (startVa + 2 ^ 12 * page)) ∧
      after.numPagetablesAllocated =
        (Request.tablesFor ⟨startVa, startPa, numPages⟩ 2 startVa numPages).card +
        (Request.tablesFor ⟨startVa, startPa, numPages⟩ 1 startVa numPages).card +
        (Request.tablesFor ⟨startVa, startPa, numPages⟩ 0 startVa numPages).card := by
  by_cases none : numPages = 0
  · subst none
    exact ⟨_, rfl, fun page inside => by omega, rfl⟩
  have start := pageStart_of_dvd vaAligned
  have sound : Sound owned 3 pgd (rangeStart startVa startPa numPages mem allocState) := by
    refine ⟨ok, wellFormed_absent 3 isTable empty, ?_⟩
    change Disjoint (tables mem 3 pgd) (owned allocState)
    rw [tables_absent 3 empty, Set.disjoint_singleton_left]
    exact unused
  have visits := mapPageRange_visits supplies valid (by omega) (by rwa [start]) paWord sound
  have passable : RangePassable flags pgd (pageStart startVa) numPages mem := by
    intro address low high leaf found
    rw [walk, walkFrom_absent (empty _ (indexAt_lt 3 address)), ite_self] at found
    cases found
  obtain ⟨after, returned, visited⟩ := (visits.returns_iff enough).mpr passable
  have course : OnCourse ⟨startVa, startPa, numPages⟩ 3
      (rangeStart startVa startPa numPages mem allocState) numPages := by
    refine ⟨⟨vaAligned, paAligned⟩, ⟨0, rfl, (Nat.mod_eq_of_lt paWord).symm, Nat.zero_add _⟩,
      Or.inl rfl, ?_⟩
    intro larger above small
    omega
  have shaped := visited.shaped (Nat.le_refl 3) course fun index inside _ => empty index inside
  refine ⟨after, returned, ?_, ?_⟩
  · intro page inside
    have level := shaped.levels (startVa + 2 ^ 12 * page) (by
      change pageStart startVa ≤ _ ∧ _ < pageStart startVa + _
      rw [start]
      omega)
    rw [walk, if_pos (half.canonical (by omega) (by omega))]
    exact Option.map_eq_some_iff.mp level
  · have counted : after.numPagetablesAllocated =
        0 + Request.needed ⟨startVa, startPa, numPages⟩ 3 (pageStart startVa) numPages :=
      shaped.counted
    rw [counted, start, Request.needed, Finset.sum_range_succ, Finset.sum_range_succ,
      Finset.sum_range_one]
    omega

theorem small_and_large_page_greedy :
    ∃ after, mapSmallAndLarge = .ok after ∧
      (∃ leaf, walk after.mem 0x1000 0x1ff000 = some leaf ∧ leaf.level = 0) ∧
      (∃ leaf, walk after.mem 0x1000 0x3ff000 = some leaf ∧ leaf.level = 1) ∧
      after.numPagetablesAllocated = 3 := by
  have ok : mapSmallAndLarge.isOk = true := by decide +kernel
  have sound : Sound bumpPages 3 0x1000 (rangeStart 0x1ff000 0x3ff000 513 (fun _ => 0) 2) :=
    bump_sound
  have unused : 0x1000 ∉ bumpPages 2 :=
    Set.disjoint_left.mp sound.unused (table_mem_tables _ _ _)
  obtain ⟨after, returned, levels, counted⟩ := mapPageRange_greedy bumpAllocators_supplies
    (Or.inl (by decide) : ValidMapFlags mapKernel) (by decide) (by decide) (by decide)
    (Or.inl (by decide)) sound.wellFormed.isTable sound.ok unused (fun _ _ => absent_of_zero rfl)
    (not_error_of_isOk ok .exhausted)
  refine ⟨after, returned, ?_, ?_, ?_⟩
  · obtain ⟨leaf, found, level⟩ := levels 0 (by decide)
    exact ⟨leaf, found, level.trans (by decide)⟩
  · obtain ⟨leaf, found, level⟩ := levels 512 (by decide)
    exact ⟨leaf, found, level.trans (by decide)⟩
  · rw [counted]
    decide +kernel

end Zeptux.Page
