import Zeptux.PageEntries

/-!
What the loops of `mm/page.c` do to the tables. A mapper of some level works on one table:
it maps pages from the cursor on, up to the end of the range or of the table, and leaves
every other translation as it was.
-/

namespace Zeptux.Page

open Word X86Paging

/-- The call returned, or an allocator did not. -/
def Outcome {α : Type} (post : α → Prop) : Except MapStop α → Prop
  | .ok value => post value
  | .error .exhausted => True
  | .error _ => False

theorem Outcome.bind {α β : Type} {post : α → Prop} {final : β → Prop}
    {first : Except MapStop α} {rest : α → Except MapStop β} (outcome : Outcome post first)
    (next : ∀ value, post value → Outcome final (rest value)) : Outcome final (first >>= rest) := by
  cases first with
  | ok value => exact next value outcome
  | error stop =>
      cases stop with
      | exhausted => trivial
      | panic _ => exact outcome
      | outOfFuel => exact outcome

theorem Outcome.mono {α : Type} {post final : α → Prop} {result : Except MapStop α}
    (outcome : Outcome post result) (weaker : ∀ value, post value → final value) :
    Outcome final result := by
  cases result with
  | ok value => exact weaker value outcome
  | error stop =>
      cases stop with
      | exhausted => trivial
      | panic _ => exact outcome
      | outOfFuel => exact outcome

theorem Outcome.returns {α : Type} {post : α → Prop} {result : Except MapStop α}
    (outcome : Outcome post result) (supplied : result ≠ .error .exhausted) :
    ∃ value, result = .ok value ∧ post value := by
  cases result with
  | ok value => exact ⟨value, rfl, outcome⟩
  | error stop =>
      cases stop with
      | exhausted => exact absurd rfl supplied
      | panic _ => exact absurd outcome id
      | outOfFuel => exact absurd outcome id

/-- The run returns if `fits` holds and panics if it does not, unless memory runs out. -/
def Settles {α : Type} (fits : Prop) (post : α → Prop) : Except MapStop α → Prop
  | .ok value => fits ∧ post value
  | .error .exhausted => True
  | .error (.panic _) => ¬fits
  | .error .outOfFuel => False

theorem Settles.bind {α β : Type} {fits more : Prop} {post : α → Prop} {final : β → Prop}
    {first : Except MapStop α} {rest : α → Except MapStop β} (settles : Settles fits post first)
    (next : ∀ value, fits → post value → Settles more final (rest value)) :
    Settles (fits ∧ more) final (first >>= rest) := by
  cases first with
  | ok value =>
      have tail := next value settles.1 settles.2
      change Settles (fits ∧ more) final (rest value)
      cases result : rest value with
      | ok value =>
          rw [result] at tail
          exact ⟨⟨settles.1, tail.1⟩, tail.2⟩
      | error stop =>
          rw [result] at tail
          cases stop with
          | panic _ => exact fun both => tail both.2
          | exhausted => trivial
          | outOfFuel => exact tail
  | error stop =>
      cases stop with
      | panic _ => exact fun both => settles both.1
      | exhausted => trivial
      | outOfFuel => exact settles

theorem Settles.iff {α : Type} {fits same : Prop} {post final : α → Prop}
    {result : Except MapStop α} (settles : Settles fits post result) (iff : fits ↔ same)
    (weaker : ∀ value, post value → final value) : Settles same final result := by
  cases result with
  | ok value => exact ⟨iff.mp settles.1, weaker value settles.2⟩
  | error stop =>
      cases stop with
      | panic _ => exact fun holds => settles (iff.mpr holds)
      | exhausted => trivial
      | outOfFuel => exact settles

theorem Settles.of_outcome {α : Type} {fits : Prop} {post : α → Prop} {result : Except MapStop α}
    (holds : fits) (outcome : Outcome post result) : Settles fits post result := by
  cases result with
  | ok value => exact ⟨holds, outcome⟩
  | error stop =>
      cases stop with
      | panic _ => exact absurd outcome id
      | exhausted => trivial
      | outOfFuel => exact outcome

theorem Settles.outcome {α : Type} {fits : Prop} {post : α → Prop} {result : Except MapStop α}
    (settles : Settles fits post result) (holds : fits) : Outcome post result := by
  cases result with
  | ok value => exact settles.2
  | error stop =>
      cases stop with
      | panic _ => exact absurd holds settles
      | exhausted => trivial
      | outOfFuel => exact settles

theorem Settles.of_ok {α : Type} {fits : Prop} {post : α → Prop} {result : Except MapStop α}
    (settles : Settles fits post result) {value : α} (returned : result = .ok value) :
    fits ∧ post value := by
  rw [returned] at settles
  exact settles

theorem Settles.returns_iff {α : Type} {fits : Prop} {post : α → Prop} {result : Except MapStop α}
    (settles : Settles fits post result) (enough : result ≠ .error .exhausted) :
    (∃ after, result = .ok after ∧ post after) ↔ fits := by
  cases result with
  | ok value => exact ⟨fun _ => settles.1, fun _ => ⟨value, rfl, settles.2⟩⟩
  | error stop =>
      cases stop with
      | panic _ =>
          constructor
          · rintro ⟨after, returned, _⟩
            cases returned
          · exact fun holds => absurd holds settles
      | exhausted => exact absurd rfl enough
      | outOfFuel => exact absurd settles id

section

variable {σ : Type}

/-- What the allocators keep: an invariant of their state, and the pages left to hand out. -/
structure Stock (σ : Type) where
  ok : σ → Prop
  pages : σ → Set Nat

instance : CoeFun (Stock σ) fun _ => σ → Set Nat := ⟨Stock.pages⟩

/-- What is assumed of a call that returns: a page of the allocator's own, zeroed, with no
other table touched. -/
structure Supplied (owned : Stock σ) (before : σ) (mem : Memory) (page : Nat) (after : σ)
    (mem' : Memory) : Prop where
  ok : owned.ok after
  owns : page ∈ owned before
  given : page ∉ owned after
  fewer : owned after ⊆ owned before
  isTable : IsTable page
  zeroed : ∀ index < 512, entryAt mem' page index = 0
  others : ∀ other, IsTable other → other ≠ page → ∀ index < 512,
    entryAt mem' other index = entryAt mem other index

def Supplies (owned : Stock σ) (allocator : PageAllocator σ) : Prop :=
  ∀ before mem page after mem', owned.ok before → allocator before mem = some (page, after, mem') →
    Supplied owned before mem page after mem'

theorem entryAt_zeroPage_self (mem : Memory) (page : Nat) {index : Nat} (inside : index < 512) :
    entryAt (zeroPage mem page) page index = 0 :=
  if_pos ⟨by omega, by rw [pageSize, pageShift]; omega⟩

theorem entryAt_zeroPage_other {page other : Nat} (isPage : IsTable page) (isOther : IsTable other)
    (different : other ≠ page) (mem : Memory) {index : Nat} (inside : index < 512) :
    entryAt (zeroPage mem page) other index = entryAt mem other index := by
  have pageAligned := isPage.1
  have otherAligned := isOther.1
  apply if_neg
  rw [pageSize, pageShift]
  omega

variable (owned : Stock σ)

structure Extends (level table : Nat) (before after : PageMapState σ) : Prop where
  ok : owned.ok after.alloc
  wellFormed : WellFormed after.mem level table
  grown : tables after.mem level table ⊆
    tables before.mem level table ∪ (owned before.alloc \ owned after.alloc)
  fewer : owned after.alloc ⊆ owned before.alloc
  frame : ∀ page, IsTable page → page ∉ tables before.mem level table →
    page ∉ owned before.alloc \ owned after.alloc → ∀ index < 512,
      entryAt after.mem page index = entryAt before.mem page index
  permissive : Permissive before.mem level table → Permissive after.mem level table
  counted : ∃ pages, after.taken = before.taken ++ pages ∧
    after.numPagetablesAllocated = before.numPagetablesAllocated + pages.length ∧
    pages.Nodup ∧ ∀ page ∈ pages, page ∈ owned before.alloc \ owned after.alloc

/-- The tables are in order, and the allocators own none of them. -/
structure Sound (level table : Nat) (state : PageMapState σ) : Prop where
  ok : owned.ok state.alloc
  wellFormed : WellFormed state.mem level table
  unused : Disjoint (tables state.mem level table) (owned state.alloc)

variable {owned}

theorem Extends.sound {level table : Nat} {before after : PageMapState σ}
    (change : Extends owned level table before after) (sound : Sound owned level table before) :
    Sound owned level table after := by
  refine ⟨change.ok, change.wellFormed, Set.disjoint_left.mpr ?_⟩
  intro page used free
  rcases change.grown used with old | new
  · exact Set.disjoint_left.mp sound.unused old (change.fewer free)
  · exact new.2 free

theorem Extends.trans {level table : Nat} {before middle after : PageMapState σ}
    (first : Extends owned level table before middle)
    (second : Extends owned level table middle after) :
    Extends owned level table before after := by
  refine ⟨second.ok, second.wellFormed, ?_, second.fewer.trans first.fewer, ?_,
    fun start => second.permissive (first.permissive start), ?_⟩
  · intro page member
    rcases second.grown member with old | new
    · rcases first.grown old with older | newer
      · exact Or.inl older
      · exact Or.inr ⟨newer.1, fun free => newer.2 (second.fewer free)⟩
    · exact Or.inr ⟨first.fewer new.1, new.2⟩
  · intro page isTable notUsed notNew index inside
    have notFirst : page ∉ owned before.alloc \ owned middle.alloc := fun new =>
      notNew ⟨new.1, fun free => new.2 (second.fewer free)⟩
    have notMiddle : page ∉ tables middle.mem level table := by
      intro used
      rcases first.grown used with old | new
      · exact notUsed old
      · exact notFirst new
    have notSecond : page ∉ owned middle.alloc \ owned after.alloc := fun new =>
      notNew ⟨first.fewer new.1, new.2⟩
    rw [second.frame page isTable notMiddle notSecond index inside,
      first.frame page isTable notUsed notFirst index inside]
  · obtain ⟨pages, taken, counted, distinct, fresh⟩ := first.counted
    obtain ⟨more, moreTaken, moreCounted, moreDistinct, moreFresh⟩ := second.counted
    refine ⟨pages ++ more, ?_, ?_, ?_, ?_⟩
    · rw [moreTaken, taken, List.append_assoc]
    · rw [moreCounted, counted, List.length_append, Nat.add_assoc]
    · refine List.nodup_append.mpr ⟨distinct, moreDistinct, ?_⟩
      rintro page early other late rfl
      exact (fresh page early).2 (moreFresh page late).1
    · intro page member
      rcases List.mem_append.mp member with early | late
      · exact ⟨(fresh page early).1, fun free => (fresh page early).2 (second.fewer free)⟩
      · exact ⟨first.fewer (moreFresh page late).1, (moreFresh page late).2⟩

def LeafAt (flags pa : Nat) (leaf : Leaf) : Prop :=
  leaf.pa = pa ∧ leaf.flags =
    if leaf.level = 0 then mapFlagsToPageFlags flags
    else mapFlagsToPageFlags flags ||| pageFlagPse

/-- What an address of the range translates to before and after: it has been mapped, or it
was, and has been skipped. -/
def Filled (flags pa : Nat) : Option Leaf → Option Leaf → Prop
  | none, after => ∃ leaf, after = some leaf ∧ LeafAt flags pa leaf
  | some leaf, after => after = some leaf ∧ isMaskSet flags mapSkipIfMapped = true

/-- As `Filled`, but where an entry cannot hold the physical address nothing is said of it. -/
def Reached (flags pa : Nat) : Option Leaf → Option Leaf → Prop
  | none, after => ∃ leaf, after = some leaf ∧ (pa < 2 ^ 48 → LeafAt flags pa leaf)
  | some leaf, after => after = some leaf ∧ isMaskSet flags mapSkipIfMapped = true

theorem Reached.filled {flags pa : Nat} {before after : Option Leaf}
    (reached : Reached flags pa before after) (bound : pa < 2 ^ 48) :
    Filled flags pa before after := by
  cases before with
  | none =>
      obtain ⟨leaf, found, shape⟩ := reached
      exact ⟨leaf, found, shape bound⟩
  | some leaf => exact reached

theorem Reached.address {flags pa other : Nat} {before after : Option Leaf}
    (reached : Reached flags other before after) (same : pa < 2 ^ 48 → other = pa) :
    Reached flags pa before after := by
  cases before with
  | none =>
      obtain ⟨leaf, found, shape⟩ := reached
      refine ⟨leaf, found, fun bound => ?_⟩
      rw [same bound] at shape
      exact shape bound
  | some leaf => exact reached

def PageMapState.page (state : PageMapState σ) : Nat := pageStart state.va

def PageMapState.frame (state : PageMapState σ) : Nat := pageStart state.pa

def InRange (state : PageMapState σ) (pages address : Nat) : Prop :=
  state.page ≤ address ∧ address < state.page + 2 ^ 12 * pages

/-- The cursor has passed over pages of the range, up to its end or to that of the cursor's
region of the level `scope`. -/
structure Passed (owned : Stock σ) (flags level table scope : Nat)
    (before after : PageMapState σ) (count pages : Nat) : Prop where
  positive : 0 < pages
  within : pages ≤ count
  remaining : after.numRemainingPages = (count : Int) - pages
  va : after.va = (before.page + 2 ^ 12 * pages) % 2 ^ 64
  pa : after.pa = (before.frame + 2 ^ 12 * pages) % 2 ^ 64
  together : ∀ address, InRange before pages address →
    region scope address = region scope before.va
  stops : pages = count ∨
    before.page + 2 ^ 12 * pages = (region scope before.va + 1) * entrySize scope
  change : Extends owned level table before after
  inside : ∀ address, InRange before pages address →
    Reached flags (before.frame + (address - before.page))
      (walkFrom before.mem level table address) (walkFrom after.mem level table address)
  outside : ∀ address, region (level + 1) address = region (level + 1) before.va →
    ¬InRange before pages address →
      walkFrom after.mem level table address = walkFrom before.mem level table address

structure Cursor (owned : Stock σ) (level table : Nat) (state : PageMapState σ)
    (count : Nat) : Prop where
  remaining : state.numRemainingPages = count
  positive : 0 < count
  vaBound : state.page + 2 ^ 12 * count ≤ 2 ^ 64
  paWord : state.pa < 2 ^ 64
  sound : Sound owned level table state

/-- Nothing stands in the way of the range in the cursor's region of the level `scope`: what
is mapped there is mapped by small pages, and these may be skipped. -/
def Passable (flags scope level table : Nat) (state : PageMapState σ) (count : Nat) : Prop :=
  ∀ address, region scope address = region scope state.va → InRange state count address →
    ∀ leaf, walkFrom state.mem level table address = some leaf →
      isMaskSet flags mapSkipIfMapped = true ∧ leaf.level = 0

section Steps

variable {flags level table count pages : Nat} {before after : PageMapState σ}

theorem region_of_end (level number : Nat) : region level (number * entrySize level) = number :=
  Nat.mul_div_cancel _ (entrySize_pos level)

theorem region_page (level : Nat) (state : PageMapState σ) :
    region level state.page = region level state.va := by
  induction level with
  | zero =>
      have size : entrySize 0 = 2 ^ 12 := rfl
      rw [region, region, size, PageMapState.page, pageStart, Nat.mul_div_cancel _ (Nat.two_pow_pos 12)]
  | succ level ih => rw [region_succ, region_succ, ih]

theorem page_inRange (cursor : Cursor owned level table before count) :
    InRange before count (before.page) := by
  have positive := cursor.positive
  exact ⟨Nat.le_refl _, by omega⟩

theorem Passed.widen (step : Passed owned flags level table level before after count pages)
    (last : pages = count ∨ indexAt level before.va = 511) :
    Passed owned flags level table (level + 1) before after count pages := by
  refine ⟨step.positive, step.within, step.remaining, step.va, step.pa, ?_, ?_, step.change,
    step.inside, step.outside⟩
  · intro address inside
    rw [region_succ, region_succ, step.together address inside]
  · rcases last with all | index
    · exact Or.inl all
    · rcases step.stops with all | stop
      · exact Or.inl all
      · right
        have next : region level before.va + 1 = (region level before.va / 512 + 1) * 512 := by
          rw [indexAt_eq] at index
          omega
        rw [stop, region_succ, entrySize_succ, next, Nat.mul_assoc, Nat.mul_comm 512]

theorem Passed.next_va (cursor : Cursor owned level table before count)
    (step : Passed owned flags level table level before after count pages)
    (more : pages < count) (notLast : indexAt level before.va ≠ 511) :
    region (level + 1) after.va = region (level + 1) before.va := by
  have bound := cursor.vaBound
  rcases step.stops with all | stop
  · omega
  · rw [indexAt_eq] at notLast
    rw [step.va, Nat.mod_eq_of_lt (by omega), stop, region_succ, region_succ, region_of_end]
    omega

theorem Passed.place {scope : Nat} (cursor : Cursor owned level table before count)
    (step : Passed owned flags level table scope before after count pages)
    (more : pages < count) :
    after.page = before.page + 2 ^ 12 * pages ∧
      after.frame = (before.frame + 2 ^ 12 * pages) % 2 ^ 64 := by
  have bound := cursor.vaBound
  have aligned : 2 ^ 12 ∣ before.page := dvd_pageStart before.va
  have frameAligned : 2 ^ 12 ∣ before.frame := dvd_pageStart before.pa
  constructor
  · rw [PageMapState.page, step.va, Nat.mod_eq_of_lt (by omega), pageStart_of_dvd (by omega)]
  · rw [PageMapState.frame, step.pa, pageStart_of_dvd (by omega)]

theorem Passed.cursor (cursor : Cursor owned level table before count)
    (step : Passed owned flags level table level before after count pages)
    (more : pages < count) : Cursor owned level table after (count - pages) := by
  have vaBound := cursor.vaBound
  obtain ⟨place, _⟩ := step.place cursor more
  refine ⟨?_, by omega, ?_, ?_, step.change.sound cursor.sound⟩
  · rw [step.remaining]
    omega
  · rw [place]
    omega
  · rw [step.pa]
    exact Nat.mod_lt _ (Nat.two_pow_pos 64)

theorem Passed.append {middle : PageMapState σ} {more : Nat}
    (step : Passed owned flags level table level before middle count pages)
    (place : middle.page = before.page + 2 ^ 12 * pages)
    (framed : middle.frame = (before.frame + 2 ^ 12 * pages) % 2 ^ 64)
    (together : region (level + 1) middle.va = region (level + 1) before.va)
    (rest : Passed owned flags level table (level + 1) middle after (count - pages) more) :
    Passed owned flags level table (level + 1) before after count (pages + more) := by
  have within := step.within
  have restWithin := rest.within
  have positive := step.positive
  have split : ∀ address, InRange before (pages + more) address →
      InRange before pages address ∨ InRange middle more address := by
    rintro address ⟨low, high⟩
    by_cases first : address < before.page + 2 ^ 12 * pages
    · exact Or.inl ⟨low, first⟩
    · exact Or.inr ⟨by omega, by omega⟩
  refine ⟨by omega, by omega, ?_, ?_, ?_, ?_, ?_, step.change.trans rest.change, ?_, ?_⟩
  · rw [rest.remaining]
    omega
  · rw [rest.va, place, Nat.mul_add, Nat.add_assoc]
  · rw [rest.pa, framed]
    omega
  · intro address inside
    rcases split address inside with first | second
    · rw [region_succ, region_succ, step.together address first]
    · rw [rest.together address second, together]
  · rcases rest.stops with all | stop
    · exact Or.inl (by omega)
    · right
      rw [together, place] at stop
      omega
  · intro address inside
    by_cases first : InRange before pages address
    · have same : region (level + 1) address = region (level + 1) middle.va := by
        rw [together, region_succ, region_succ, step.together address first]
      have notSecond : ¬InRange middle more address := fun wrong => by
        have := wrong.1
        have := first.2
        omega
      rw [rest.outside address same notSecond]
      exact step.inside address first
    · have second := (split address inside).resolve_left first
      have same : region (level + 1) address = region (level + 1) before.va := by
        rw [rest.together address second, together]
      have low := second.1
      rw [← step.outside address same first]
      apply (rest.inside address second).address
      intro bound
      omega
  · intro address same notInside
    have low : ¬InRange before pages address := fun wrong =>
      notInside ⟨wrong.1, by have := wrong.2; omega⟩
    have high : ¬InRange middle more address := fun wrong =>
      notInside ⟨by have := wrong.1; omega, by have := wrong.2; omega⟩
    rw [rest.outside address (same.trans together.symm) high, step.outside address same low]

theorem Passed.passable_last (step : Passed owned flags level table level before after count pages)
    (last : pages = count ∨ indexAt level before.va = 511)
    (here : Passable flags level level table before count) :
    Passable flags (level + 1) level table before count := by
  intro address same inside
  have reached : InRange before pages address := by
    rcases (step.widen last).stops with all | stop
    · rw [all]
      exact inside
    · refine ⟨inside.1, ?_⟩
      rw [stop, ← same]
      have size := entrySize_pos (level + 1)
      rw [region, Nat.add_mul, Nat.one_mul]
      exact Nat.lt_div_mul_add size
  exact here address (step.together address reached) inside

theorem Passed.passable_iff (step : Passed owned flags level table level before after count pages)
    (place : after.page = before.page + 2 ^ 12 * pages)
    (together : region (level + 1) after.va = region (level + 1) before.va)
    (here : Passable flags level level table before count) :
    Passable flags (level + 1) level table after (count - pages) ↔
      Passable flags (level + 1) level table before count := by
  have within := step.within
  have beyond : ∀ address, region (level + 1) address = region (level + 1) before.va →
      InRange after (count - pages) address →
        walkFrom after.mem level table address = walkFrom before.mem level table address := by
    intro address same inside
    apply step.outside address same
    intro wrong
    have low := inside.1
    have high := wrong.2
    omega
  constructor
  · intro rest address same inside
    by_cases first : InRange before pages address
    · exact here address (step.together address first) inside
    · have second : InRange after (count - pages) address := by
        have low := inside.1
        have high := inside.2
        have notFirst : ¬address < before.page + 2 ^ 12 * pages := fun wrong => first ⟨low, wrong⟩
        exact ⟨by omega, by omega⟩
      rw [← beyond address same second]
      exact rest address (same.trans together.symm) second
  · intro whole address same inside
    have low := inside.1
    have high := inside.2
    rw [together] at same
    rw [beyond address same inside]
    exact whole address same ⟨by omega, by omega⟩

/-! ## One entry -/

def entryPages (level : Nat) : Nat := 2 ^ (9 * level)

theorem entrySize_eq (level : Nat) : entrySize level = 2 ^ 12 * entryPages level := by
  rw [entrySize, entryPages, Nat.pow_add]

theorem extends_setEntry {entry : Nat} (sound : Sound owned level table before)
    {index : Nat} (inside : index < 512) (advanced : PageMapState σ)
    (mem : advanced.mem = setEntry before.mem table index entry)
    (alloc : advanced.alloc = before.alloc) (taken : advanced.taken = before.taken)
    (counted : advanced.numPagetablesAllocated = before.numPagetablesAllocated)
    (noChild : ∀ lower, level = lower + 1 → child advanced.mem lower table index = none) :
    Extends owned level table before advanced ∧
      ∀ address, indexAt level address ≠ index →
        walkFrom advanced.mem level table address = walkFrom before.mem level table address := by
  have isTable := sound.wellFormed.isTable
  have elsewhere : ∀ page, IsTable page → page ≠ table → ∀ other < 512,
      entryAt advanced.mem page other = entryAt before.mem page other := by
    intro page isPage different other otherInside
    rw [mem, entryAt_setEntry_table isTable isPage different inside otherInside]
  have here : ∀ other, other ≠ index →
      entryAt advanced.mem table other = entryAt before.mem table other := by
    intro other different
    rw [mem, entryAt_setEntry_index different]
  have frame : ∀ page, IsTable page → page ∉ tables before.mem level table →
      page ∉ owned before.alloc \ owned advanced.alloc → ∀ other < 512,
        entryAt advanced.mem page other = entryAt before.mem page other := by
    intro page isPage notUsed _
    exact elsewhere page isPage fun same => notUsed (same ▸ table_mem_tables _ _ _)
  have counts : ∃ pages, advanced.taken = before.taken ++ pages ∧
      advanced.numPagetablesAllocated = before.numPagetablesAllocated + pages.length ∧
      pages.Nodup ∧ ∀ page ∈ pages, page ∈ owned before.alloc \ owned advanced.alloc :=
    ⟨[], by rw [taken, List.append_nil], counted, List.nodup_nil, by simp⟩
  have ok : owned.ok advanced.alloc := by
    rw [alloc]
    exact sound.ok
  cases level with
  | zero =>
      refine ⟨⟨ok, isTable, fun page member => Or.inl member, by rw [alloc], frame,
        fun _ => trivial, counts⟩, ?_⟩
      intro address different
      simp only [walkFrom, here _ different]
  | succ level =>
      have replaces : Replaces before.mem advanced.mem level table index ∅ := by
        refine ⟨inside, fun other _ different => here other different, ?_, ?_, ?_,
          Set.disjoint_empty _⟩
        · intro other otherInside _ page below
          have used : page ∈ tables before.mem (level + 1) table :=
            mem_tables_succ.mpr (Or.inr ⟨other, otherInside, below⟩)
          apply elsewhere page (sound.wellFormed.tables_isTable used)
          rintro rfl
          exact sound.wellFormed.2.2.1 other otherInside below
        · intro lower found
          rw [noChild level rfl] at found
          cases found
        · rintro page ⟨lower, found, _⟩
          rw [noChild level rfl] at found
          cases found
      refine ⟨⟨ok, replaces.wellFormed sound.wellFormed, ?_, by rw [alloc], frame,
        replaces.permissive ?_, counts⟩, ?_⟩
      · intro page member
        rcases replaces.tables_subset member with old | new
        · exact Or.inl old
        · exact absurd new (Set.notMem_empty page)
      · intro lower found
        rw [noChild level rfl] at found
        cases found
      · intro address different
        exact replaces.walkFrom_other different

theorem Extends.refl (sound : Sound owned level table before) :
    Extends owned level table before before :=
  ⟨sound.ok, sound.wellFormed, fun _ member => Or.inl member, fun _ member => member,
    fun _ _ _ _ _ _ => rfl, id, [], by rw [List.append_nil], rfl, List.nodup_nil, by simp⟩

def leafWritten (level table bits : Nat) (state : PageMapState σ) : PageMapState σ :=
  let entry := state.frame ||| bits
  let mem := setEntry state.mem table (indexAt level state.va) entry
  { state with mem := mem }.advance (entryPages level)

structure AtEntry (level : Nat) (state : PageMapState σ) : Prop where
  together : ∀ address, InRange state (entryPages level) address →
    region level address = region level state.va
  stops : state.page + 2 ^ 12 * entryPages level = (region level state.va + 1) * entrySize level
  offset : ∀ address, InRange state (entryPages level) address →
    address % entrySize level = address - state.page
  inRange : ∀ address, region level address = region level state.va →
    InRange state (entryPages level) address

theorem atEntry (aligned : entrySize level ∣ before.page) : AtEntry level before := by
  obtain ⟨number, start⟩ := aligned
  have size := entrySize_eq level
  have regionIs : region level before.va = number := by
    rw [← region_page, start, Nat.mul_comm]
    exact region_of_end level number
  refine ⟨?_, ?_, ?_, ?_⟩
  · rintro address ⟨low, high⟩
    rw [regionIs, region]
    rw [start] at low high
    rw [← size] at high
    apply Nat.div_eq_of_lt_le
    · rw [Nat.mul_comm]
      exact low
    · rw [Nat.add_mul, Nat.one_mul, Nat.mul_comm number]
      exact high
  · rw [regionIs, start, ← size, Nat.add_mul, Nat.one_mul, Nat.mul_comm]
  · rintro address ⟨low, high⟩
    rw [← size] at high
    obtain ⟨rest, rfl⟩ := Nat.exists_eq_add_of_le low
    rw [Nat.add_lt_add_iff_left] at high
    rw [Nat.add_sub_cancel_left, start, Nat.mul_add_mod, Nat.mod_eq_of_lt high]
  · intro address same
    rw [regionIs, region] at same
    have low := Nat.div_mul_le_self address (entrySize level)
    have high : address < address / entrySize level * entrySize level + entrySize level :=
      Nat.lt_div_mul_add (entrySize_pos level)
    rw [same, Nat.mul_comm, ← start] at low high
    refine ⟨low, ?_⟩
    rw [← size]
    exact high

theorem walkFrom_absent {mem : Memory} {address : Nat}
    (absent : ¬Present (entryAt mem table (indexAt level address))) :
    walkFrom mem level table address = none := by
  cases level with
  | zero => simp only [walkFrom, absent, ↓reduceIte]
  | succ level => simp only [walkFrom, absent, not_false_eq_true, ↓reduceIte]

section Leaf

variable {bits : Nat}

theorem leafWritten_mem (level table bits : Nat) (state : PageMapState σ) :
    (leafWritten level table bits state).mem =
      setEntry state.mem table (indexAt level state.va) (state.frame ||| bits) := by
  rw [leafWritten, PageMapState.advance_mem]

theorem leafEntry_isLeaf (before : PageMapState σ) (small : level ≤ 2) (flagBits : FlagBits bits)
    (huge : level = 0 ∨ bits / 2 ^ 7 % 2 = 1) :
    Present (before.frame ||| bits) ∧
      ∀ lower, level = lower + 1 → Huge (lower + 1) (before.frame ||| bits) := by
  have frameAligned : 2 ^ 12 ∣ before.frame := dvd_pageStart before.pa
  obtain ⟨isPresent, pse⟩ := leafEntry_low frameAligned flagBits
  refine ⟨isPresent, ?_⟩
  rintro lower rfl
  refine ⟨by omega, ?_⟩
  rw [PageSize, pse]
  exact huge.resolve_left (by omega)

theorem walkFrom_leafWritten (small : level ≤ 2) (flagBits : FlagBits bits)
    (huge : level = 0 ∨ bits / 2 ^ 7 % 2 = 1) {address : Nat}
    (same : region level address = region level before.va) :
    walkFrom (leafWritten level table bits before).mem level table address =
      some (leafOf level (before.frame ||| bits) address) := by
  obtain ⟨isPresent, isLeaf⟩ := leafEntry_isLeaf before small flagBits huge
  have index : indexAt level address = indexAt level before.va := by
    rw [indexAt_eq, indexAt_eq, same]
  rw [leafWritten_mem]
  cases level with
  | zero => simp only [walkFrom, index, entryAt_setEntry_self, if_pos isPresent]
  | succ level =>
      simp only [walkFrom, index, entryAt_setEntry_self, isPresent, not_true_eq_false,
        if_pos (isLeaf level rfl), ↓reduceIte]

theorem passed_leaf (cursor : Cursor owned level table before count) (small : level ≤ 2)
    (absent : ¬Present (entryAt before.mem table (indexAt level before.va)))
    (flagBits : FlagBits bits)
    (shape : bits = if level = 0 then mapFlagsToPageFlags flags
      else mapFlagsToPageFlags flags ||| pageFlagPse)
    (huge : level = 0 ∨ bits / 2 ^ 7 % 2 = 1)
    (vaAligned : entrySize level ∣ before.page) (paAligned : entrySize level ∣ before.frame)
    (room : entryPages level ≤ count) :
    Passed owned flags level table level before
      (leafWritten level table bits before) count (entryPages level) := by
  have entry := atEntry vaAligned
  have noChild : ∀ lower, level = lower + 1 →
      child (leafWritten level table bits before).mem lower table (indexAt level before.va) =
        none := by
    intro lower same
    rw [leafWritten_mem, child, entryAt_setEntry_self]
    exact if_neg fun both => both.2 ((leafEntry_isLeaf before small flagBits huge).2 lower same)
  obtain ⟨change, others⟩ := extends_setEntry cursor.sound (indexAt_lt level before.va)
    (leafWritten level table bits before) (leafWritten_mem level table bits before)
    (by rw [leafWritten, PageMapState.advance_alloc])
    (by rw [leafWritten, PageMapState.advance_taken])
    (by rw [leafWritten, PageMapState.advance_numPagetablesAllocated]) noChild
  refine ⟨Nat.two_pow_pos _, room, ?_, ?_, ?_, entry.together, Or.inr entry.stops, change, ?_, ?_⟩
  · simp only [leafWritten, PageMapState.advance, cursor.remaining]
  · exact offsetPages_pageStart before.va (entryPages level)
  · exact offsetPages_pageStart before.pa (entryPages level)
  · intro address inside
    have same := entry.together address inside
    have index : indexAt level address = indexAt level before.va := by
      rw [indexAt_eq, indexAt_eq, same]
    rw [← index] at absent
    rw [walkFrom_absent absent]
    refine ⟨_, walkFrom_leafWritten small flagBits huge same, fun bound => ?_⟩
    obtain ⟨frame, entryFlags⟩ := leafEntry_facts paAligned small (by omega) flagBits
    constructor
    · simp only [leafOf, frame]
      rw [entry.offset address inside]
    · simp only [leafOf, entryFlags]
      exact shape
  · intro address same notInside
    apply others
    intro index
    exact notInside (entry.inRange address ((indexAt_eq_iff same).mp index))

end Leaf

theorem Extends.advance (change : Extends owned level table before after) (pages : Nat) :
    Extends owned level table before (after.advance pages) := by
  obtain ⟨ok, wellFormed, grown, fewer, frame, permissive, counted⟩ := change
  constructor <;> simp only [PageMapState.advance_mem, PageMapState.advance_alloc,
    PageMapState.advance_taken, PageMapState.advance_numPagetablesAllocated]
  · exact ok
  · exact wellFormed
  · exact grown
  · exact fewer
  · exact frame
  · exact permissive
  · exact counted

theorem passed_skip (cursor : Cursor owned 0 table before count)
    (isPresent : Present (entryAt before.mem table (indexAt 0 before.va)))
    (skip : isMaskSet flags mapSkipIfMapped = true) :
    Passed owned flags 0 table 0 before (before.advance 1) count 1 := by
  have entry : AtEntry 0 before := atEntry (dvd_pageStart before.va)
  have counted := cursor.positive
  refine ⟨by omega, by omega, ?_, ?_, ?_, entry.together, Or.inr entry.stops,
    (Extends.refl cursor.sound).advance 1, ?_, fun _ _ _ => by rw [PageMapState.advance_mem]⟩
  · simp only [PageMapState.advance, cursor.remaining]
  · exact offsetPages_pageStart before.va 1
  · exact offsetPages_pageStart before.pa 1
  · intro address inside
    have index : indexAt 0 address = indexAt 0 before.va := by
      rw [indexAt_eq, indexAt_eq, entry.together address inside]
    have found : walkFrom before.mem 0 table address =
        some (leafOf 0 (entryAt before.mem table (indexAt 0 before.va)) address) := by
      simp only [walkFrom, index, if_pos isPresent]
    rw [PageMapState.advance_mem, found]
    exact ⟨rfl, skip⟩

/-! ## Going down one level -/

/-- The entry leads to the table `result.1`, and no translation has changed. -/
structure Entered (owned : Stock σ) (level table index : Nat) (before : PageMapState σ)
    (result : Nat × PageMapState σ) : Prop where
  below : child result.2.mem level table index = some result.1
  change : Extends owned (level + 1) table before result.2
  walks : ∀ address, walkFrom result.2.mem (level + 1) table address =
    walkFrom before.mem (level + 1) table address
  va : result.2.va = before.va
  pa : result.2.pa = before.pa
  remaining : result.2.numRemainingPages = before.numRemainingPages
  others : ∀ other < 512, other ≠ index →
    entryAt result.2.mem table other = entryAt before.mem table other
  same : ∀ other < 512, other ≠ index →
    SameOn before.mem result.2.mem (tablesBelow before.mem level table other)
  kept : Present (entryAt before.mem table index) → result.2.mem = before.mem
  fresh : ¬Present (entryAt before.mem table index) →
    result.2.numPagetablesAllocated = before.numPagetablesAllocated + 1 ∧
      ∀ other < 512, entryAt result.2.mem result.1 other = 0

theorem entered_present {index : Nat} (sound : Sound owned (level + 1) table before)
    (isPresent : Present (entryAt before.mem table index))
    (notHuge : ¬Huge (level + 1) (entryAt before.mem table index)) :
    Entered owned level table index before (entryTable (entryAt before.mem table index), before) := by
  refine ⟨?_, .refl sound, fun _ => rfl, rfl, rfl, rfl, fun _ _ _ => rfl,
    fun _ _ _ _ _ _ _ => rfl, fun _ => rfl, fun absent => absurd isPresent absent⟩
  rw [entryTable_eq]
  exact if_pos ⟨isPresent, notHuge⟩

theorem entered_absent {index page : Nat} {alloc : σ} {mem : Memory}
    (sound : Sound owned (level + 1) table before) (inside : index < 512)
    (absent : ¬Present (entryAt before.mem table index))
    (supplied : Supplied owned before.alloc before.mem page alloc mem) :
    Entered owned level table index before
      (page, { before with
        numPagetablesAllocated := before.numPagetablesAllocated + 1
        mem := assignTable mem table index page
        alloc := alloc
        taken := before.taken ++ [page] }) := by
  have isTable := sound.wellFormed.isTable
  have notOwned : ∀ other, other ∈ tables before.mem (level + 1) table → other ≠ page := by
    rintro other used rfl
    exact Set.disjoint_left.mp sound.unused used supplied.owns
  have different : page ≠ table := (notOwned table (table_mem_tables _ _ _)).symm
  have written : assignTable mem table index page = setEntry mem table index (page + 3) := by
    rw [assignTable, tableEntry_eq supplied.isTable]
  obtain ⟨isPresent, notPse, leads⟩ := tableEntry_facts supplied.isTable
  rw [written]
  generalize assigned : setEntry mem table index (page + 3) = final
  have self : entryAt final table index = page + 3 := by
    rw [← assigned, entryAt_setEntry_self]
  have zeros : ∀ other < 512, entryAt final page other = 0 := by
    intro other otherInside
    rw [← assigned, entryAt_setEntry_table isTable supplied.isTable different inside otherInside]
    exact supplied.zeroed other otherInside
  have elsewhere : ∀ other, IsTable other → other ≠ page → other ≠ table → ∀ slot < 512,
      entryAt final other slot = entryAt before.mem other slot := by
    intro other isOther notPage notTable slot slotInside
    rw [← assigned, entryAt_setEntry_table isTable isOther notTable inside slotInside]
    exact supplied.others other isOther notPage slot slotInside
  have below : child final level table index = some page := by
    rw [child, self]
    exact (if_pos ⟨isPresent, fun huge => notPse huge.2⟩).trans (by rw [leads])
  have replaces : Replaces before.mem final level table index
      (owned before.alloc \ owned alloc) := by
    refine ⟨inside, ?_, ?_, ?_, ?_, ?_⟩
    · intro other otherInside otherDifferent
      rw [← assigned, entryAt_setEntry_index otherDifferent]
      exact supplied.others table isTable (Ne.symm different) other otherInside
    · intro other otherInside _ lower isBelow
      have used : lower ∈ tables before.mem (level + 1) table :=
        mem_tables_succ.mpr (Or.inr ⟨other, otherInside, isBelow⟩)
      apply elsewhere lower (sound.wellFormed.tables_isTable used) (notOwned lower used)
      rintro rfl
      exact sound.wellFormed.2.2.1 other otherInside isBelow
    · intro lower found
      rw [below] at found
      cases found
      exact wellFormed_empty level supplied.isTable zeros
    · rintro lower ⟨found, isBelow, deeper⟩
      rw [below] at isBelow
      cases isBelow
      rw [tables_empty level zeros, Set.mem_singleton_iff] at deeper
      rw [deeper]
      exact Or.inr ⟨supplied.owns, supplied.given⟩
    · exact sound.unused.mono_right fun _ new => new.1
  refine ⟨below, ⟨supplied.ok, replaces.wellFormed sound.wellFormed, replaces.tables_subset,
    supplied.fewer, ?_, replaces.permissive ?_, [page], rfl, rfl, by simp, ?_⟩, ?_, rfl, rfl, rfl,
    replaces.others, replaces.same, fun isPresent => absurd isPresent absent, fun _ => ⟨rfl, zeros⟩⟩
  · intro other isOther notUsed notNew slot slotInside
    apply elsewhere other isOther _ _ slot slotInside
    · rintro rfl
      exact notNew ⟨supplied.owns, supplied.given⟩
    · rintro rfl
      exact notUsed (table_mem_tables _ _ _)
  · intro lower found
    rw [below] at found
    cases found
    rw [self]
    exact ⟨tableEntry_open supplied.isTable, permissive_empty level zeros⟩
  · intro other member
    rw [List.mem_singleton.mp member]
    exact ⟨supplied.owns, supplied.given⟩
  · intro address
    by_cases here : indexAt (level + 1) address = index
    · rw [← here] at below absent
      rw [walkFrom_child below, walkFrom_empty level zeros]
      simp only [walkFrom, absent, not_false_eq_true, ↓reduceIte]
    · exact replaces.walkFrom_other here

theorem outcome_lowerTable {allocator : PageAllocator σ} (supplies : Supplies owned allocator)
    {index : Nat} (sound : Sound owned (level + 1) table before) (inside : index < 512)
    (notHuge : Present (entryAt before.mem table index) →
      ¬Huge (level + 1) (entryAt before.mem table index)) :
    Outcome (Entered owned level table index before) (before.lowerTable allocator table index) := by
  unfold PageMapState.lowerTable
  by_cases isPresent : Present (entryAt before.mem table index)
  · simp only [(entryPresent_iff _).mpr isPresent, Bool.not_true, Bool.false_eq_true, ↓reduceIte]
    exact entered_present sound isPresent (notHuge isPresent)
  · have absent : entryPresent (entryAt before.mem table index) = false := by
      rw [← Bool.not_eq_true, entryPresent_iff]
      exact isPresent
    simp only [absent, Bool.not_false, ↓reduceIte, PageMapState.allocate]
    cases call : allocator before.alloc before.mem with
    | none => trivial
    | some supplied =>
        obtain ⟨page, alloc, mem⟩ := supplied
        exact entered_absent sound inside isPresent (supplies _ _ _ _ _ sound.ok call)

section Lower

variable {lower : Nat}

theorem Cursor.descend (cursor : Cursor owned (level + 1) table before count)
    (below : child before.mem level table (indexAt (level + 1) before.va) = some lower) :
    Cursor owned level lower before count := by
  have subset := tables_below_subset (indexAt_lt (level + 1) before.va) below
  exact ⟨cursor.remaining, cursor.positive, cursor.vaBound, cursor.paWord, ⟨cursor.sound.ok,
      cursor.sound.wellFormed.2.1 _ (indexAt_lt _ _) lower below,
      cursor.sound.unused.mono_left subset⟩⟩

theorem passable_descend
    (below : child before.mem level table (indexAt (level + 1) before.va) = some lower) :
    Passable flags (level + 1) level lower before count ↔
      Passable flags (level + 1) (level + 1) table before count := by
  have walks : ∀ address, region (level + 1) address = region (level + 1) before.va →
      walkFrom before.mem (level + 1) table address = walkFrom before.mem level lower address := by
    intro address same
    have index : indexAt (level + 1) address = indexAt (level + 1) before.va := by
      rw [indexAt_eq, indexAt_eq, same]
    rw [← index] at below
    exact walkFrom_child below
  constructor
  · intro passable address same inside
    rw [walks address same]
    exact passable address same inside
  · intro passable address same inside
    rw [← walks address same]
    exact passable address same inside

theorem Passed.entries (sound : Sound owned (level + 1) table before)
    (below : child before.mem level table (indexAt (level + 1) before.va) = some lower)
    (passed : Passed owned flags level lower (level + 1) before after count pages) :
    ∀ index < 512, entryAt after.mem table index = entryAt before.mem table index := by
  apply passed.change.frame table sound.wellFormed.isTable
  · exact fun used => sound.wellFormed.2.2.1 _ (indexAt_lt _ _) ⟨lower, below, used⟩
  · exact fun new => Set.disjoint_left.mp sound.unused (table_mem_tables _ _ _) new.1

theorem Passed.still (sound : Sound owned (level + 1) table before)
    (below : child before.mem level table (indexAt (level + 1) before.va) = some lower)
    (passed : Passed owned flags level lower (level + 1) before after count pages) :
    child after.mem level table (indexAt (level + 1) before.va) = some lower := by
  rw [child_congr (passed.entries sound below _ (indexAt_lt _ _))]
  exact below

theorem Passed.replaces (sound : Sound owned (level + 1) table before)
    (below : child before.mem level table (indexAt (level + 1) before.va) = some lower)
    (passed : Passed owned flags level lower (level + 1) before after count pages) :
    Replaces before.mem after.mem level table (indexAt (level + 1) before.va)
      (owned before.alloc \ owned after.alloc) := by
  have indexInside := indexAt_lt (level + 1) before.va
  have apart := sound.wellFormed.2.2.2
  have notNew : ∀ page, page ∈ tables before.mem (level + 1) table →
      page ∉ owned before.alloc \ owned after.alloc := fun page used new =>
    Set.disjoint_left.mp sound.unused used new.1
  have entries := passed.entries sound below
  have still := passed.still sound below
  refine ⟨indexInside, fun other otherInside _ => entries other otherInside, ?_, ?_, ?_, ?_⟩
  · intro other otherInside different page isBelow
    have used : page ∈ tables before.mem (level + 1) table :=
      mem_tables_succ.mpr (Or.inr ⟨other, otherInside, isBelow⟩)
    apply passed.change.frame page (sound.wellFormed.tables_isTable used) _ (notNew page used)
    intro deeper
    exact Set.disjoint_left.mp (apart other otherInside _ indexInside different) isBelow
      ⟨lower, below, deeper⟩
  · intro other found
    rw [still] at found
    cases found
    exact passed.change.wellFormed
  · rintro page ⟨other, found, deeper⟩
    rw [still] at found
    cases found
    rcases passed.change.grown deeper with old | new
    · exact Or.inl ⟨lower, below, old⟩
    · exact Or.inr new
  · exact sound.unused.mono_right fun _ new => new.1

theorem Passed.upper (sound : Sound owned (level + 1) table before)
    (below : child before.mem level table (indexAt (level + 1) before.va) = some lower)
    (passed : Passed owned flags level lower (level + 1) before after count pages) :
    Passed owned flags (level + 1) table (level + 1) before after count pages := by
  have indexInside := indexAt_lt (level + 1) before.va
  have entries := passed.entries sound below
  have still := passed.still sound below
  have replaces := passed.replaces sound below
  have change : Extends owned (level + 1) table before after := by
    refine ⟨passed.change.ok, replaces.wellFormed sound.wellFormed, replaces.tables_subset,
      passed.change.fewer, ?_, ?_, passed.change.counted⟩
    · intro page isPage notUsed
      exact passed.change.frame page isPage fun deeper =>
        notUsed (tables_below_subset indexInside below deeper)
    · intro start
      refine replaces.permissive (fun other found => ?_) start
      rw [still] at found
      cases found
      obtain ⟨isOpen, deeper⟩ := start _ indexInside lower below
      rw [entries _ indexInside]
      exact ⟨isOpen, passed.change.permissive deeper⟩
  refine ⟨passed.positive, passed.within, passed.remaining, passed.va, passed.pa, passed.together,
    passed.stops, change, ?_, ?_⟩
  · intro address inside
    have index : indexAt (level + 1) address = indexAt (level + 1) before.va := by
      rw [indexAt_eq, indexAt_eq, passed.together address inside]
    rw [← index] at still below
    rw [walkFrom_child still, walkFrom_child below]
    exact passed.inside address inside
  · intro address same notInside
    by_cases index : indexAt (level + 1) address = indexAt (level + 1) before.va
    · have together := (indexAt_eq_iff same).mp index
      rw [← index] at still below
      rw [walkFrom_child still, walkFrom_child below]
      exact passed.outside address together notInside
    · exact replaces.walkFrom_other index

end Lower

theorem Entered.cursor {index lower : Nat} {middle : PageMapState σ}
    (entered : Entered owned level table index before (lower, middle))
    (cursor : Cursor owned (level + 1) table before count) :
    Cursor owned (level + 1) table middle count := by
  have va := entered.va
  have pa := entered.pa
  have remaining := entered.remaining
  simp only at va pa remaining
  refine ⟨by rw [remaining]; exact cursor.remaining, cursor.positive, ?_, ?_,
    entered.change.sound cursor.sound⟩
  · rw [PageMapState.page, va]
    exact cursor.vaBound
  · rw [pa]
    exact cursor.paWord

theorem Entered.passable {index lower scope : Nat} {middle : PageMapState σ}
    (entered : Entered owned level table index before (lower, middle)) :
    Passable flags scope (level + 1) table middle count ↔
      Passable flags scope (level + 1) table before count := by
  have va := entered.va
  simp only at va
  simp only [Passable, InRange, PageMapState.page, va, entered.walks]

theorem Entered.passed {index lower scope : Nat} {middle : PageMapState σ}
    (entered : Entered owned level table index before (lower, middle))
    (passed : Passed owned flags (level + 1) table scope middle after count pages) :
    Passed owned flags (level + 1) table scope before after count pages := by
  have va := entered.va
  have pa := entered.pa
  simp only at va pa
  have page : middle.page = before.page := congrArg pageStart va
  have frame : middle.frame = before.frame := congrArg pageStart pa
  have range : ∀ address, InRange before pages address ↔ InRange middle pages address := by
    intro address
    rw [InRange, InRange, page]
  refine ⟨passed.positive, passed.within, passed.remaining, by rw [passed.va, page],
    by rw [passed.pa, frame], ?_, by rw [← va, ← page]; exact passed.stops,
    entered.change.trans passed.change, ?_, ?_⟩
  · intro address inside
    rw [← va]
    exact passed.together address ((range address).mp inside)
  · intro address inside
    rw [← page, ← frame, ← entered.walks]
    exact passed.inside address ((range address).mp inside)
  · intro address same notInside
    rw [← va] at same
    rw [passed.outside address same fun wrong => notInside ((range address).mpr wrong),
      entered.walks]

/-! ## How the tables are visited -/

/-- How the loops went through the entries of a table: one by one, until the range ends or
the table does. -/
inductive Visited (owned : Stock σ) (flags : Nat) : Nat → Nat → Nat →
    PageMapState σ → PageMapState σ → Nat → Nat → Prop
  | leaf {level table count bits : Nat} {before : PageMapState σ} :
      Cursor owned level table before count → level ≤ 2 →
      ¬Present (entryAt before.mem table (indexAt level before.va)) → FlagBits bits →
      (bits = if level = 0 then mapFlagsToPageFlags flags
        else mapFlagsToPageFlags flags ||| pageFlagPse) →
      (level = 0 ∨ bits / 2 ^ 7 % 2 = 1) → entrySize level ∣ before.page →
      entrySize level ∣ before.frame → entryPages level ≤ count →
      Visited owned flags level table level before (leafWritten level table bits before) count
        (entryPages level)
  | skip {table count : Nat} {before : PageMapState σ} :
      Cursor owned 0 table before count →
      Present (entryAt before.mem table (indexAt 0 before.va)) →
      isMaskSet flags mapSkipIfMapped = true →
      Visited owned flags 0 table 0 before (before.advance 1) count 1
  | lower {level table count pages lower : Nat} {before middle after : PageMapState σ} :
      Cursor owned (level + 1) table before count →
      Entered owned level table (indexAt (level + 1) before.va) before (lower, middle) →
      (¬Present (entryAt before.mem table (indexAt (level + 1) before.va)) → level + 1 ≤ 2 →
        ¬(entrySize (level + 1) ∣ before.va ∧ entrySize (level + 1) ∣ before.pa ∧
          entryPages (level + 1) ≤ count)) →
      Visited owned flags level lower (level + 1) middle after count pages →
      Visited owned flags (level + 1) table (level + 1) before after count pages
  | last {level table count pages : Nat} {before after : PageMapState σ} :
      Visited owned flags level table level before after count pages →
      (pages = count ∨ indexAt level before.va = 511) →
      Visited owned flags level table (level + 1) before after count pages
  | append {level table count pages more : Nat} {before middle after : PageMapState σ} :
      Cursor owned level table before count →
      Visited owned flags level table level before middle count pages → pages < count →
      region (level + 1) middle.va = region (level + 1) before.va →
      Visited owned flags level table (level + 1) middle after (count - pages) more →
      Visited owned flags level table (level + 1) before after count (pages + more)

theorem Visited.passed {scope : Nat}
    (visited : Visited owned flags level table scope before after count pages) :
    Passed owned flags level table scope before after count pages := by
  induction visited with
  | leaf cursor small absent flagBits shape huge vaAligned paAligned room =>
      exact passed_leaf cursor small absent flagBits shape huge vaAligned paAligned room
  | skip cursor isPresent skip => exact passed_skip cursor isPresent skip
  | lower cursor entered _ _ ih =>
      have below := entered.below
      rw [← entered.va] at below
      exact entered.passed (ih.upper (entered.cursor cursor).sound below)
  | last _ last ih => exact ih.widen last
  | append cursor _ more together _ first second =>
      obtain ⟨place, framed⟩ := first.place cursor more
      exact first.append place framed together second

def Passes (owned : Stock σ) (flags level : Nat)
    (mapper : Nat → PageMapState σ → Except MapStop (PageMapState σ)) : Prop :=
  ∀ table state count, Cursor owned level table state count →
    Settles (Passable flags (level + 1) level table state count)
      (fun after => ∃ pages, Visited owned flags level table (level + 1) state after count pages)
      (mapper table state)

theorem Visited.next (cursor : Cursor owned level table before count)
    (visited : Visited owned flags level table level before after count pages)
    (here : Passable flags level level table before count)
    {loop : PageMapState σ → Except MapStop (PageMapState σ)}
    (done : indexAt level before.va ≠ 511 → after.numRemainingPages = 0 → loop after = .ok after)
    (goes : indexAt level before.va ≠ 511 → indexAt level after.va = indexAt level before.va + 1 →
      Cursor owned level table after (count - pages) →
      Settles (Passable flags (level + 1) level table after (count - pages))
        (fun final => ∃ more, Visited owned flags level table (level + 1) after final
          (count - pages) more) (loop after)) :
    Settles (Passable flags (level + 1) level table before count)
      (fun final => ∃ total, Visited owned flags level table (level + 1) before final count total)
      (if indexAt level before.va = 511 then pure after else loop after) := by
  have step := visited.passed
  have within := step.within
  split
  · rename_i last
    exact ⟨step.passable_last (Or.inr last) here, pages, .last visited (Or.inr last)⟩
  · rename_i notLast
    by_cases all : pages = count
    · rw [done notLast (by rw [step.remaining]; omega)]
      exact ⟨step.passable_last (Or.inl all) here, pages, .last visited (Or.inl all)⟩
    · have more : pages < count := by omega
      have together := step.next_va cursor more notLast
      obtain ⟨place, _⟩ := step.place cursor more
      have advanced : indexAt level after.va = indexAt level before.va + 1 := by
        have stop := step.stops.resolve_left all
        have bound := indexAt_lt level before.va
        rw [indexAt_eq] at bound notLast ⊢
        rw [← region_page, place, stop, indexAt_eq, region_of_end]
        omega
      apply (goes notLast advanced (step.cursor cursor more)).iff
        (step.passable_iff place together here)
      rintro final ⟨rest, visitedRest⟩
      exact ⟨pages + rest, .append cursor visited more together visitedRest⟩

end Steps

end

end Zeptux.Page
