import Zeptux.PageTheorems
import Zeptux.PageWalk

/-!
When mapping a range panics. Without `MAP_SKIP_IF_MAPPED` it does so exactly if a page of
the range is mapped, and with it exactly if one is mapped by a large page. The panics about
unassigned pages cannot happen: a loop gives back control with pages left only at the end of
its table.
-/

namespace Zeptux.Page

open Word X86Paging

/-! ## Pages unassigned -/

def unassignedTexts : List String :=
  ["%lu pages unassigned under PMD for VA 0x%lx", "%lu pages unassigned under PUD for VA 0x%lx",
    "%lu pages unassigned under PGD for VA 0x%lx"]

section

variable {σ : Type} {level : Nat} {before after : PageMapState σ}

def Behind (level : Nat) (before after : PageMapState σ) : Prop :=
  after.numRemainingPages > 0 →
    after.va = (region level before.va + 1) * entrySize level % 2 ^ 64

/-- No complaint about unassigned pages, whatever the tables and the flags are. -/
def Orderly (level : Nat) (before : PageMapState σ) : Except MapStop (PageMapState σ) → Prop
  | .ok after => Behind (level + 1) before after
  | .error (.panic reason) => reason.fmt ∉ unassignedTexts
  | .error _ => True

theorem region_last {address : Nat} (last : indexAt level address = 511) :
    (region level address + 1) * entrySize level =
      (region (level + 1) address + 1) * entrySize (level + 1) := by
  have next : region level address + 1 = (region (level + 1) address + 1) * 512 := by
    rw [region_succ]
    rw [indexAt_eq] at last
    omega
  rw [next, entrySize_succ, Nat.mul_assoc, Nat.mul_comm 512]

theorem entrySize_dvd (small : level ≤ 4) : entrySize level ∣ 2 ^ 64 :=
  Nat.pow_dvd_pow 2 (by omega)

theorem Behind.next (small : level ≤ 3) (word : before.va < 2 ^ 64)
    (behind : Behind level before after) (more : after.numRemainingPages > 0)
    (notLast : indexAt level before.va ≠ 511) :
    after.va < 2 ^ 64 ∧ region (level + 1) after.va = region (level + 1) before.va := by
  obtain ⟨regions, total⟩ := entrySize_dvd (by omega : level + 1 ≤ 4)
  rw [entrySize_succ, Nat.mul_assoc] at total
  have inside : region level before.va < 512 * regions := by
    rw [region, Nat.div_lt_iff_lt_mul (entrySize_pos level), Nat.mul_comm, ← total]
    exact word
  rw [indexAt_eq] at notLast
  have bound : (region level before.va + 1) * entrySize level < 2 ^ 64 := by
    rw [total, Nat.mul_comm]
    exact Nat.mul_lt_mul_of_pos_left (by omega) (entrySize_pos level)
  rw [behind more, Nat.mod_eq_of_lt bound]
  refine ⟨bound, ?_⟩
  rw [region_succ, region_succ, region_of_end]
  omega

theorem Behind.orderly (small : level ≤ 3) (word : before.va < 2 ^ 64)
    (behind : Behind level before after)
    {loop : PageMapState σ → Except MapStop (PageMapState σ)}
    (done : after.numRemainingPages ≤ 0 → Orderly level before (loop after))
    (goes : after.va < 2 ^ 64 → Orderly level after (loop after)) :
    Orderly level before
      (if indexAt level before.va = numPageTableEntries - 1 then pure after else loop after) := by
  by_cases last : indexAt level before.va = numPageTableEntries - 1
  · rw [if_pos last]
    intro more
    rw [behind more, region_last last]
  · rw [if_neg last]
    by_cases more : after.numRemainingPages > 0
    · obtain ⟨wordNext, together⟩ := behind.next small word more last
      have rest := goes wordNext
      cases result : loop after with
      | error stop =>
          rw [result] at rest
          cases stop with
          | panic reason => exact rest
          | exhausted => trivial
          | outOfFuel => trivial
      | ok final =>
          rw [result] at rest
          intro left
          rw [rest left, together]
    · exact done (by omega)

theorem Orderly.bind_ok {first : Except MapStop (PageMapState σ)}
    {rest : PageMapState σ → Except MapStop (PageMapState σ)} {scope : Nat}
    {start : PageMapState σ} (orderly : Orderly level before first)
    (next : ∀ after, Behind (level + 1) before after → Orderly scope start (rest after)) :
    Orderly scope start (first >>= rest) := by
  cases first with
  | ok after => exact next after orderly
  | error stop =>
      cases stop with
      | panic reason => exact orderly
      | exhausted => trivial
      | outOfFuel => trivial

def Assigned : Except MapStop (PageMapState σ) → Prop
  | .error (.panic reason) => reason.fmt ∉ unassignedTexts
  | _ => True

theorem Orderly.bind_assigned {first : Except MapStop (PageMapState σ)}
    {rest : PageMapState σ → Except MapStop (PageMapState σ)} (orderly : Orderly level before first)
    (next : ∀ after, Behind (level + 1) before after → Assigned (rest after)) :
    Assigned (first >>= rest) := by
  cases first with
  | ok after => exact next after orderly
  | error stop =>
      cases stop with
      | panic reason => exact orderly
      | exhausted => trivial
      | outOfFuel => trivial

theorem lowerTable_va (allocator : PageAllocator σ) (table index : Nat) (state : PageMapState σ) :
    (∃ lower after, state.lowerTable allocator table index = .ok (lower, after) ∧
        after.va = state.va) ∨
      state.lowerTable allocator table index = .error .exhausted := by
  unfold PageMapState.lowerTable PageMapState.allocate
  by_cases present : entryPresent (entryAt state.mem table index) = true
  · simp only [present, Bool.not_true, Bool.false_eq_true, ↓reduceIte]
    exact Or.inl ⟨_, _, rfl, rfl⟩
  · simp only [present, Bool.not_false, ↓reduceIte]
    cases allocator state.alloc state.mem with
    | none => exact Or.inr rfl
    | some supplied =>
        obtain ⟨page, alloc, mem⟩ := supplied
        exact Or.inl ⟨_, _, rfl, rfl⟩

theorem mapPageRangePtdFrom_orderly (flags ptd rounds : Nat) (state : PageMapState σ)
    (word : state.va < 2 ^ 64) :
    Orderly 0 state (mapPageRangePtdFrom flags ptd rounds state) := by
  induction rounds generalizing state with
  | zero => trivial
  | succ rounds ih =>
      have index : virtIndex pageShift state.va = indexAt 0 state.va := virtIndex_eq 0 state.va
      by_cases more : state.numRemainingPages > 0
      · rw [mapPageRangePtdFrom, if_pos more]
        simp only [index]
        have next : ∀ mapped : PageMapState σ, mapped.va = state.va →
            Orderly 0 state
              (if indexAt 0 state.va = numPageTableEntries - 1 then pure (mapped.advance 1)
              else mapPageRangePtdFrom flags ptd rounds (mapped.advance 1)) := by
          intro mapped same
          have behind : Behind 0 state (mapped.advance 1) := by
            intro _
            have moved : (mapped.advance 1).va = (pageStart state.va + 2 ^ 12 * 1) % 2 ^ 64 := by
              rw [← same]
              exact offsetPages_pageStart mapped.va 1
            have size : entrySize 0 = 2 ^ 12 := rfl
            rw [moved, pageStart, region, size, Nat.add_mul, Nat.one_mul, Nat.mul_one]
          refine behind.orderly (by omega) word ?_ fun wordNext => ih _ wordNext
          intro none
          cases rounds with
          | zero => trivial
          | succ rounds =>
              rw [mapPageRangePtdFrom, if_neg (by omega)]
              intro wrong
              omega
        split
        · split
          · exact next state rfl
          · change "Trying to map VA 0x%lx to PA 0x%lx but already mapped to 0x%lx" ∉ unassignedTexts
            decide
        · exact next _ rfl
      · rw [mapPageRangePtdFrom, if_neg more]
        exact fun wrong => absurd wrong more

theorem mapPageRangeDirectory_orderly {directory : Directory σ} (small : level + 1 ≤ 3)
    (shift : directory.shift = 12 + 9 * (level + 1))
    (numPages : directory.numPages = entryPages (level + 1))
    (mapped : directory.mappedText ∉ unassignedTexts)
    (lower : ∀ table (state : PageMapState σ), state.va < 2 ^ 64 →
      Orderly level state (directory.mapLower table state))
    (flags table rounds : Nat) (state : PageMapState σ) (word : state.va < 2 ^ 64) :
    Orderly (level + 1) state (mapPageRangeDirectory directory flags table rounds state) := by
  induction rounds generalizing state with
  | zero => trivial
  | succ rounds ih =>
      have index : virtIndex directory.shift state.va = indexAt (level + 1) state.va := by
        rw [shift]
        exact virtIndex_eq (level + 1) state.va
      have aligned : ∀ number, isAligned number (2 ^ directory.shift) = true ↔
          entrySize (level + 1) ∣ number := by
        intro number
        rw [shift]
        exact isAligned_iff number _
      by_cases more : state.numRemainingPages > 0
      · rw [mapPageRangeDirectory, if_pos more]
        simp only [index]
        have next : ∀ after, Behind (level + 1) state after →
            Orderly (level + 1) state
              (if indexAt (level + 1) state.va = numPageTableEntries - 1 then pure after
              else mapPageRangeDirectory directory flags table rounds after) := by
          intro after behind
          refine behind.orderly small word ?_ fun wordNext => ih _ wordNext
          intro none
          cases rounds with
          | zero => trivial
          | succ rounds =>
              rw [mapPageRangeDirectory, if_neg (by omega)]
              intro wrong
              omega
        split
        · rename_i large
          simp only [Bool.and_eq_true, aligned] at large
          apply next
          intro _
          have whole : 2 ^ 12 ∣ entrySize (level + 1) := Nat.pow_dvd_pow 2 (by omega)
          have moved : offsetPages state.va directory.numPages =
              (state.va + 2 ^ 12 * directory.numPages) % 2 ^ 64 :=
            offsetPages_eq (whole.trans large.1.1.2) directory.numPages
          change offsetPages state.va directory.numPages = _
          rw [moved, numPages, ← entrySize_eq, Nat.add_mul, Nat.one_mul, region,
            Nat.div_mul_cancel large.1.1.2]
        · split
          · exact mapped
          · rcases lowerTable_va directory.alloc table (indexAt (level + 1) state.va) state with
              ⟨page, entered, leads, same⟩ | exhausted
            · rw [leads]
              have run := lower page entered (by omega)
              apply run.bind_ok
              intro after behind
              by_cases left : after.numRemainingPages ≤ 0
              · rw [if_pos left]
                intro wrong
                omega
              · rw [if_neg left]
                have place := behind (by omega)
                rw [same] at place
                have isAlignedNow : isAligned after.va (2 ^ directory.shift) = true := by
                  rw [aligned, place]
                  exact (Nat.dvd_mod_iff (entrySize_dvd (by omega))).mpr (Nat.dvd_mul_left _ _)
                simp only [isAlignedNow, Bool.not_true, Bool.false_eq_true, ↓reduceIte]
                exact next after fun _ => place
            · rw [exhausted]
              trivial
      · rw [mapPageRangeDirectory, if_neg more]
        exact fun wrong => absurd wrong more

variable (alloc : PageAllocators σ) (flags : Nat)

theorem mapPageRangePud_orderly (pud : Nat) (state : PageMapState σ) (word : state.va < 2 ^ 64) :
    Orderly 2 state (mapPageRangePud alloc flags pud state) := by
  have pmd : ∀ table (state : PageMapState σ), state.va < 2 ^ 64 →
      Orderly 1 state (mapPageRangePmd alloc flags table state) := by
    intro table state word
    apply mapPageRangeDirectory_orderly (by omega) rfl rfl _ _ _ _ _ _ word
    · simp only [pmdDirectory]
      decide
    · exact fun table state word => mapPageRangePtdFrom_orderly flags table _ state word
  apply mapPageRangeDirectory_orderly (by omega) rfl rfl _ pmd _ _ _ _ word
  simp only [pudDirectory]
  decide

theorem mapPageRangePgdFrom_assigned (pgd rounds : Nat) (state : PageMapState σ)
    (word : state.va < 2 ^ 64) : Assigned (mapPageRangePgdFrom alloc flags pgd rounds state) := by
  induction rounds generalizing state with
  | zero => trivial
  | succ rounds ih =>
      by_cases more : state.numRemainingPages > 0
      · rw [mapPageRangePgdFrom, if_pos more]
        rcases lowerTable_va alloc.pud pgd (virtIndex pgdShift state.va) state with
          ⟨page, entered, leads, same⟩ | exhausted
        · simp only [leads]
          apply (mapPageRangePud_orderly alloc flags page entered (by omega)).bind_assigned
          intro after behind
          by_cases left : after.numRemainingPages ≤ 0
          · rw [if_pos left]
            trivial
          · rw [if_neg left]
            have place := behind (by omega)
            have isAlignedNow : isAligned after.va (2 ^ pgdShift) = true := by
              rw [isAligned_iff, place]
              exact (Nat.dvd_mod_iff (entrySize_dvd (by omega : 3 ≤ 4))).mpr
                (Nat.dvd_mul_left _ _)
            simp only [isAlignedNow, Bool.not_true, Bool.false_eq_true, ↓reduceIte]
            refine ih after ?_
            rw [place]
            exact Nat.mod_lt _ (Nat.two_pow_pos 64)
        · simp only [exhausted]
          trivial
      · rw [mapPageRangePgdFrom, if_neg more]
        trivial

end

/-! ## Pages in the way -/

section

variable {σ : Type} {alloc : PageAllocators σ} {owned : Stock σ} {flags : Nat}
variable {pgd startVa startPa numPages : Nat} {mem : Memory} {allocState : σ}

theorem Settles.panics_iff {α : Type} {fits : Prop} {post : α → Prop} {result : Except MapStop α}
    (settles : Settles fits post result) (enough : result ≠ .error .exhausted) :
    ((∃ reason, result = .error (.panic reason)) ↔ ¬fits) ∧ ((∃ after, result = .ok after) ↔ fits) := by
  cases result with
  | ok after =>
      refine ⟨⟨?_, fun wrong => absurd settles.1 wrong⟩, fun _ => settles.1, fun _ => ⟨after, rfl⟩⟩
      rintro ⟨reason, same⟩
      cases same
  | error stop =>
      cases stop with
      | panic reason =>
          refine ⟨⟨fun _ => settles, fun _ => ⟨reason, rfl⟩⟩, ?_, fun holds => absurd holds settles⟩
          rintro ⟨after, same⟩
          cases same
      | exhausted => exact absurd rfl enough
      | outOfFuel => exact absurd settles id

theorem walk_page_none {address : Nat} (low : pageStart startVa ≤ address)
    (high : address < pageStart startVa + 2 ^ 12 * numPages) :
    ∃ page < numPages, (walk mem pgd (pageStart startVa + 2 ^ 12 * page)).map Leaf.level =
      (walk mem pgd address).map Leaf.level := by
  have aligned := dvd_pageStart startVa
  refine ⟨(address - pageStart startVa) / 2 ^ 12, by omega, walk_level_congr mem pgd ?_⟩
  have size : entrySize 0 = 2 ^ 12 := rfl
  rw [region, region, size]
  omega

theorem rangePassable_iff (noSkip : isMaskSet flags mapSkipIfMapped = false) :
    RangePassable flags pgd (pageStart startVa) numPages mem ↔
      ∀ page < numPages, walk mem pgd (pageStart startVa + 2 ^ 12 * page) = none := by
  constructor
  · intro passable page inside
    cases found : walk mem pgd (pageStart startVa + 2 ^ 12 * page) with
    | none => rfl
    | some leaf =>
        have skips := (passable _ (by omega) (by omega) leaf found).1
        rw [noSkip] at skips
        cases skips
  · intro unmapped address low high leaf found
    obtain ⟨page, inside, same⟩ := walk_page_none low high
    rw [unmapped page inside, found] at same
    cases same

theorem mapPageRange_overlap_exact :
    (∀ {σ : Type} {alloc : PageAllocators σ} {owned : Stock σ} {flags pgd : Nat}
      {startVa startPa numPages : Nat} {mem : Memory} {allocState : σ},
      SuppliesTables owned alloc → ValidMapFlags flags →
      isMaskSet flags mapSkipIfMapped = false → InOneHalf (pageStart startVa) numPages →
      startPa < 2 ^ 64 → Sound owned 3 pgd (rangeStart startVa startPa numPages mem allocState) →
      mapPageRange alloc flags pgd startVa startPa numPages mem allocState ≠ .error .exhausted →
      ((∃ reason, mapPageRange alloc flags pgd startVa startPa numPages mem allocState =
          .error (.panic reason)) ↔
        ∃ page < numPages, ∃ leaf, walk mem pgd (pageStart startVa + 2 ^ 12 * page) = some leaf) ∧
      ((∃ after, mapPageRange alloc flags pgd startVa startPa numPages mem allocState =
          .ok after) ↔
        ∀ page < numPages, walk mem pgd (pageStart startVa + 2 ^ 12 * page) = none)) ∧
    ∀ {σ : Type} (alloc : PageAllocators σ) (flags pgd startVa startPa : Nat) (numPages : Int)
      (mem : Memory) (allocState : σ) (reason : Panic), startVa < 2 ^ 64 →
      mapPageRange alloc flags pgd startVa startPa numPages mem allocState =
        .error (.panic reason) → reason.fmt ∉ unassignedTexts := by
  constructor
  · intro σ alloc owned flags pgd startVa startPa numPages mem allocState supplies valid noSkip half
      paWord sound enough
    have passable : RangePassable flags pgd (pageStart startVa) numPages mem ↔
        ∀ page < numPages, walk mem pgd (pageStart startVa + 2 ^ 12 * page) = none :=
      rangePassable_iff noSkip
    have settles : Settles (RangePassable flags pgd (pageStart startVa) numPages mem)
        (fun _ => True) (mapPageRange alloc flags pgd startVa startPa numPages mem allocState) := by
      by_cases empty : numPages = 0
      · subst empty
        exact ⟨fun address low high => by omega, trivial⟩
      · exact (mapPageRange_settles supplies valid (by omega) half paWord sound).iff Iff.rfl
          fun _ _ => trivial
    obtain ⟨panics, returns⟩ := settles.panics_iff enough
    refine ⟨panics.trans ?_, returns.trans passable⟩
    rw [passable]
    simp only [not_forall, exists_prop, ← Option.isSome_iff_exists, Option.ne_none_iff_isSome,
      ← ne_eq]
  · intro σ alloc flags pgd startVa startPa numPages mem allocState reason word stopped
    have assigned : Assigned (mapPageRange alloc flags pgd startVa startPa numPages mem allocState) :=
      mapPageRangePgdFrom_assigned alloc flags pgd _ _ word
    rw [stopped] at assigned
    exact assigned

theorem walkFrom_pa_lt {level table address : Nat} {leaf : Leaf} (small : level ≤ 3)
    (found : walkFrom mem level table address = some leaf) : leaf.pa < 2 ^ 48 := by
  have bound : ∀ level ≤ 2, ∀ entry, (leafOf level entry address).pa < 2 ^ 48 := by
    intro level small entry
    have offset : address % entrySize level < entrySize level :=
      Nat.mod_lt _ (entrySize_pos level)
    have frames : entry / entrySize level % 2 ^ (36 - 9 * level) < 2 ^ (36 - 9 * level) :=
      Nat.mod_lt _ (Nat.two_pow_pos _)
    have total : 2 ^ (36 - 9 * level) * entrySize level = 2 ^ 48 := by
      rw [entrySize, ← Nat.pow_add]
      congr 1
      omega
    have whole := Nat.mul_le_mul_right (entrySize level) (Nat.succ_le_of_lt frames)
    rw [total, Nat.succ_mul] at whole
    simp only [leafOf, frameOf]
    omega
  induction level generalizing table with
  | zero =>
      simp only [walkFrom] at found
      split at found
      · cases found
        exact bound 0 (by omega) _
      · cases found
  | succ level ih =>
      simp only [walkFrom] at found
      split at found
      · cases found
      · split at found
        · rename_i huge
          cases found
          exact bound (level + 1) (by have := huge.1; omega) _
        · exact ih (by omega) found

theorem walk_pa_lt {address : Nat} {leaf : Leaf} (found : walk mem pgd address = some leaf) :
    leaf.pa < 2 ^ 48 := by
  unfold walk at found
  split at found
  · exact walkFrom_pa_lt (Nat.le_refl 3) found
  · cases found

def Fillable (pa : Nat) : Option Leaf → Prop
  | some leaf => leaf.level = 0
  | none => pa < 2 ^ 48

theorem mapPageRange_skip_iff (supplies : SuppliesTables owned alloc) (valid : ValidMapFlags flags)
    (skip : isMaskSet flags mapSkipIfMapped = true) (half : InOneHalf (pageStart startVa) numPages)
    (paWord : startPa < 2 ^ 64)
    (sound : Sound owned 3 pgd (rangeStart startVa startPa numPages mem allocState))
    (enough : mapPageRange alloc flags pgd startVa startPa numPages mem allocState ≠
      .error .exhausted) :
    (∃ after, mapPageRange alloc flags pgd startVa startPa numPages mem allocState = .ok after ∧
      ∀ offset < 2 ^ 12 * numPages,
        Filled flags (pageStart startPa + offset) (walk mem pgd (pageStart startVa + offset))
          (walk after.mem pgd (pageStart startVa + offset))) ↔
      ∀ offset < 2 ^ 12 * numPages,
        Fillable (pageStart startPa + offset) (walk mem pgd (pageStart startVa + offset)) := by
  by_cases empty : numPages = 0
  · subst empty
    exact ⟨fun _ offset inside => by omega, fun _ => ⟨_, rfl, fun offset inside => by omega⟩⟩
  have settles := mapPageRange_settles supplies valid (by omega) half paWord sound
  constructor
  · rintro ⟨after, returned, filled⟩ offset inside
    have passable := (settles.of_ok returned).1
    have here := filled offset inside
    cases found : walk mem pgd (pageStart startVa + offset) with
    | some leaf => exact (passable _ (by omega) (by omega) leaf found).2
    | none =>
        rw [found] at here
        obtain ⟨leaf, mapped, place, _⟩ := here
        have bound := walk_pa_lt mapped
        rw [place] at bound
        exact bound
  · intro fillable
    have passable : RangePassable flags pgd (pageStart startVa) numPages mem := by
      intro address low high leaf found
      have here := fillable (address - pageStart startVa) (by omega)
      rw [Nat.add_sub_cancel' low, found] at here
      exact ⟨skip, here⟩
    obtain ⟨after, returned, passed⟩ := (settles.returns_iff enough).mpr passable
    refine ⟨after, returned, fun offset inside => ?_⟩
    have reached := passed.walk_reached half inside
    have here := fillable offset inside
    cases found : walk mem pgd (pageStart startVa + offset) with
    | some leaf =>
        rw [found] at reached
        exact reached
    | none =>
        rw [found] at reached here
        exact reached.filled here

end

/-! ## Mapping again -/

def panicked {α : Type} : Except MapStop α → Bool
  | .error (.panic _) => true
  | _ => false

theorem panicked_iff {α : Type} {result : Except MapStop α} :
    panicked result = true ↔ ∃ reason, result = .error (.panic reason) := by
  cases result with
  | ok value => simp [panicked]
  | error stop => cases stop <;> simp [panicked]

theorem mapSmallAndLarge_sound {after : PageMapState Nat} {va pa numPages : Nat}
    (returned : mapSmallAndLarge = .ok after) :
    Sound bumpPages 3 0x1000 (rangeStart va pa numPages after.mem after.alloc) := by
  obtain ⟨other, same, passed, _⟩ := mapSmallAndLarge_passed
  rw [returned] at same
  cases same
  have sound := passed.change.sound bump_sound
  exact ⟨sound.ok, sound.wellFormed, sound.unused⟩

/-- A second mapping of the last byte of a page inside the large page. -/
theorem large_page_overlap_panics :
    ∃ after reason, mapSmallAndLarge = .ok after ∧
      mapPageRange bumpAllocators mapKernel 0x1000 0x201fff 0 (1 : Nat) after.mem after.alloc =
        .error (.panic reason) ∧
      ∃ page < 1, ∃ leaf, walk after.mem 0x1000 (pageStart 0x201fff + 2 ^ 12 * page) = some leaf := by
  obtain ⟨after, returned, _⟩ := mapSmallAndLarge_passed
  have computed : panicked (mapSmallAndLarge >>= fun after =>
      mapPageRange bumpAllocators mapKernel 0x1000 0x201fff 0 (1 : Nat) after.mem after.alloc) =
        true := by
    decide +kernel
  rw [returned] at computed
  obtain ⟨reason, panics⟩ := panicked_iff.mp computed
  have panics : mapPageRange bumpAllocators mapKernel 0x1000 0x201fff 0 (1 : Nat) after.mem
      after.alloc = .error (.panic reason) := panics
  refine ⟨after, reason, returned, panics, ?_⟩
  refine (mapPageRange_overlap_exact.1 bumpAllocators_supplies (Or.inl (by decide)) (by decide)
    (Or.inl (by decide)) (by decide) (mapSmallAndLarge_sound returned) ?_).1.mp ⟨reason, panics⟩
  rw [panics]
  intro same
  cases same

theorem large_page_not_skipped :
    ∃ after reason leaf, mapSmallAndLarge = .ok after ∧ WellFormed after.mem 3 0x1000 ∧
      walk after.mem 0x1000 0x200000 = some leaf ∧
      mapPageRange bumpAllocators (mapKernel ||| mapSkipIfMapped) 0x1000 0x200000 0x400000 (1 : Nat)
        after.mem after.alloc = .error (.panic reason) := by
  obtain ⟨after, returned, passed, _, level⟩ := mapSmallAndLarge_passed
  have computed : panicked (mapSmallAndLarge >>= fun after =>
      mapPageRange bumpAllocators (mapKernel ||| mapSkipIfMapped) 0x1000 0x200000 0x400000 (1 : Nat)
        after.mem after.alloc) = true := by
    decide +kernel
  rw [returned] at computed
  obtain ⟨reason, panics⟩ := panicked_iff.mp computed
  obtain ⟨leaf, found, _⟩ := Option.map_eq_some_iff.mp level
  refine ⟨after, reason, leaf, returned, passed.change.wellFormed, ?_, panics⟩
  rw [walk, if_pos (by decide)]
  exact found

theorem small_page_skipped :
    ∃ after again, mapSmallAndLarge = .ok after ∧
      mapPageRange bumpAllocators (mapKernel ||| mapSkipIfMapped) 0x1000 0x1ff000 0x5000 (1 : Nat)
        after.mem after.alloc = .ok again ∧
      walk again.mem 0x1000 0x1ff123 = walk after.mem 0x1000 0x1ff123 := by
  obtain ⟨after, returned, _⟩ := mapSmallAndLarge_passed
  have computed : (mapSmallAndLarge >>= fun after =>
      mapPageRange bumpAllocators (mapKernel ||| mapSkipIfMapped) 0x1000 0x1ff000 0x5000 (1 : Nat)
        after.mem after.alloc).isOk = true := by
    decide +kernel
  have small : (match mapSmallAndLarge with
      | .ok after => (walk after.mem 0x1000 0x1ff000).map Leaf.level == some 0
      | .error _ => false) = true := by
    decide +kernel
  rw [returned] at computed small
  have level : (walk after.mem 0x1000 0x1ff000).map Leaf.level = some 0 := by simpa using small
  have start : pageStart 0x1ff000 = 0x1ff000 := by decide
  have mapped : ∀ offset < 2 ^ 12 * 1, ∃ leaf,
      walk after.mem 0x1000 (pageStart 0x1ff000 + offset) = some leaf ∧ leaf.level = 0 := by
    intro offset inside
    have page : region 0 (pageStart 0x1ff000 + offset) = region 0 0x1ff000 := by
      have size : entrySize 0 = 2 ^ 12 := rfl
      rw [start, region, region, size]
      omega
    rw [← walk_level_congr after.mem 0x1000 page] at level
    exact Option.map_eq_some_iff.mp level
  have fillable : ∀ offset < 2 ^ 12 * 1, Fillable (pageStart 0x5000 + offset)
      (walk after.mem 0x1000 (pageStart 0x1ff000 + offset)) := by
    intro offset inside
    obtain ⟨leaf, found, here⟩ := mapped offset inside
    rw [found]
    exact here
  have enough : mapPageRange bumpAllocators (mapKernel ||| mapSkipIfMapped) 0x1000 0x1ff000 0x5000
      (1 : Nat) after.mem after.alloc ≠ .error .exhausted := not_error_of_isOk computed .exhausted
  obtain ⟨again, second, filled⟩ := (mapPageRange_skip_iff bumpAllocators_supplies
    (Or.inl (by decide) : ValidMapFlags (mapKernel ||| mapSkipIfMapped)) (by decide)
    (Or.inl (by decide)) (by decide) (mapSmallAndLarge_sound returned) enough).mpr fillable
  refine ⟨after, again, returned, second, ?_⟩
  obtain ⟨leaf, found, _⟩ := mapped 0x123 (by decide)
  have kept := filled 0x123 (by decide)
  rw [found] at kept
  rw [start] at kept found
  rw [kept.1, found]

end Zeptux.Page
