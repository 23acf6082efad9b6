import Zeptux.PageMap

/-! Mapping a range of pages, from the PTD up. -/

namespace Zeptux.Page

open Word X86Paging

section

variable {σ : Type} {owned : Stock σ} {flags : Nat}

theorem entryPresent_false {entry : Nat} (absent : ¬Present entry) : entryPresent entry = false := by
  rw [← Bool.not_eq_true, entryPresent_iff]
  exact absent

theorem passable_absent {level table count : Nat} {state : PageMapState σ}
    (absent : ¬Present (entryAt state.mem table (indexAt level state.va))) :
    Passable flags level level table state count := by
  intro address same _ leaf found
  have index : indexAt level address = indexAt level state.va := by
    rw [indexAt_eq, indexAt_eq, same]
  rw [← index] at absent
  rw [walkFrom_absent absent] at found
  cases found

/-! ## The PTD -/

theorem mapPageRangePtdFrom_passes (valid : ValidMapFlags flags) {ptd : Nat} (rounds : Nat)
    (state : PageMapState σ) (count : Nat) (cursor : Cursor owned 0 ptd state count)
    (enough : 513 ≤ rounds + indexAt 0 state.va) :
    Settles (Passable flags 1 0 ptd state count)
      (fun after => ∃ pages, Visited owned flags 0 ptd 1 state after count pages)
      (mapPageRangePtdFrom flags ptd rounds state) := by
  induction rounds generalizing state count with
  | zero =>
      have bound := indexAt_lt 0 state.va
      omega
  | succ rounds ih =>
      have positive := cursor.positive
      have bound := indexAt_lt 0 state.va
      have more : state.numRemainingPages > 0 := by
        rw [cursor.remaining]
        omega
      have index : virtIndex pageShift state.va = indexAt 0 state.va := virtIndex_eq 0 state.va
      -- After one entry the loop goes on as `Visited.next` says.
      have next : ∀ after pages, Visited owned flags 0 ptd 0 state after count pages →
          Passable flags 0 0 ptd state count →
          Settles (Passable flags 1 0 ptd state count)
            (fun final => ∃ pages, Visited owned flags 0 ptd 1 state final count pages)
            (if indexAt 0 state.va = 511 then pure after
            else mapPageRangePtdFrom flags ptd rounds after) := by
        intro after pages step here
        apply step.next cursor here
        · intro notLast done
          cases rounds with
          | zero => omega
          | succ rounds =>
              rw [mapPageRangePtdFrom, if_neg (by omega)]
              rfl
        · intro notLast advanced cursorNext
          exact ih _ _ cursorNext (by omega)
      rw [mapPageRangePtdFrom, if_pos more]
      simp only [index]
      by_cases present : Present (entryAt state.mem ptd (indexAt 0 state.va))
      · have found : ∀ address, region 0 address = region 0 state.va →
            walkFrom state.mem 0 ptd address =
              some (leafOf 0 (entryAt state.mem ptd (indexAt 0 state.va)) address) := by
          intro address same
          rw [walkFrom, indexAt_eq, same, ← indexAt_eq]
          exact if_pos present
        simp only [(entryPresent_iff _).mpr present, ↓reduceIte]
        by_cases skip : isMaskSet flags mapSkipIfMapped = true
        · simp only [skip, ↓reduceIte, pure_bind]
          apply next _ 1 (Visited.skip cursor present skip)
          intro address same _ leaf leads
          rw [found address same] at leads
          cases leads
          exact ⟨skip, rfl⟩
        · simp only [skip, Bool.false_eq_true, ↓reduceIte]
          intro passable
          have here := region_page 0 state
          exact skip (passable state.page (region_page 1 state) (page_inRange cursor) _
            (found state.page here)).1
      · have written : PageMapState.advance
            { state with mem := assignData state.mem ptd (indexAt 0 state.va) state.pa flags } 1 =
              leafWritten 0 ptd (mapFlagsToPageFlags flags) state := by
          rw [assignData, dataEntry_eq cursor.paWord]
          rfl
        simp only [entryPresent_false present, Bool.false_eq_true, ↓reduceIte, pure_bind, written]
        apply next _ (entryPages 0) _ (passable_absent present)
        exact .leaf cursor (by omega) present valid.flagBits.1 rfl (Or.inl rfl)
          (dvd_pageStart state.va) (dvd_pageStart state.pa) positive

theorem mapPageRangePtd_passes (valid : ValidMapFlags flags) :
    Passes owned flags 0 (mapPageRangePtd flags) :=
  fun _ state count cursor => mapPageRangePtdFrom_passes valid 513 state count cursor (by omega)

/-! ## The directories -/

structure DirectoryOk (owned : Stock σ) (flags level : Nat) (directory : Directory σ) :
    Prop where
  shift : directory.shift = 12 + 9 * (level + 1)
  numPages : directory.numPages = entryPages (level + 1)
  supplies : Supplies owned directory.alloc
  passesLower : Passes owned flags level directory.mapLower

theorem passes_lower {level table count : Nat} {state : PageMapState σ}
    {allocator : PageAllocator σ} (supplies : Supplies owned allocator)
    {mapper : Nat → PageMapState σ → Except MapStop (PageMapState σ)}
    (passes : Passes owned flags level mapper) (cursor : Cursor owned (level + 1) table state count)
    (notHuge : Present (entryAt state.mem table (indexAt (level + 1) state.va)) →
      ¬Huge (level + 1) (entryAt state.mem table (indexAt (level + 1) state.va)))
    {whole : Prop} {final : PageMapState σ → Prop}
    {rest : PageMapState σ → Except MapStop (PageMapState σ)}
    (narrower : whole → Passable flags (level + 1) (level + 1) table state count)
    (small : ¬Present (entryAt state.mem table (indexAt (level + 1) state.va)) → level + 1 ≤ 2 →
      ¬(entrySize (level + 1) ∣ state.va ∧ entrySize (level + 1) ∣ state.pa ∧
        entryPages (level + 1) ≤ count))
    (next : ∀ after pages, Visited owned flags (level + 1) table (level + 1) state after count pages →
      Passable flags (level + 1) (level + 1) table state count → Settles whole final (rest after)) :
    Settles whole final (do
      let (lower, state) ← state.lowerTable allocator table (indexAt (level + 1) state.va)
      let state ← mapper lower state
      rest state) := by
  have enter := outcome_lowerTable supplies cursor.sound (indexAt_lt (level + 1) state.va) notHuge
  refine Settles.iff ((Settles.of_outcome trivial enter).bind ?_) (iff_of_eq (true_and whole))
    fun _ holds => holds
  rintro ⟨lower, middle⟩ _ entered
  have cursorMiddle := entered.cursor cursor
  have below := entered.below
  rw [← entered.va] at below
  have run := passes lower middle count (cursorMiddle.descend below)
  have here : Passable flags (level + 1) level lower middle count ↔
      Passable flags (level + 1) (level + 1) table state count :=
    (passable_descend below).trans entered.passable
  have both := (run.iff here fun _ holds => holds).bind fun after fits ⟨pages, visited⟩ =>
    next after pages (.lower cursor entered small visited) fits
  exact both.iff ⟨fun holds => holds.2, fun holds => ⟨narrower holds, holds⟩⟩ fun _ holds => holds

theorem visited_assignHuge {level table count : Nat} {directory : Directory σ}
    {state : PageMapState σ} (valid : ValidMapFlags flags)
    (ok : DirectoryOk owned flags level directory) (small : level + 1 ≤ 2)
    (cursor : Cursor owned (level + 1) table state count)
    (absent : ¬Present (entryAt state.mem table (indexAt (level + 1) state.va)))
    (vaAligned : entrySize (level + 1) ∣ state.va) (paAligned : entrySize (level + 1) ∣ state.pa)
    (room : entryPages (level + 1) ≤ count) :
    Visited owned flags (level + 1) table (level + 1) state
      (PageMapState.advance
        { state with
          mem :=
            assignHuge directory.shift state.mem table (indexAt (level + 1) state.va) state.pa flags }
        directory.numPages) count (entryPages (level + 1)) := by
  obtain ⟨bits, clear⟩ := valid.flagBits
  have whole : 2 ^ 12 ∣ entrySize (level + 1) := Nat.pow_dvd_pow 2 (by omega)
  have page : state.page = state.va := pageStart_of_dvd (whole.trans vaAligned)
  have frame : state.frame = state.pa := pageStart_of_dvd (whole.trans paAligned)
  have written : PageMapState.advance
      { state with
        mem :=
          assignHuge directory.shift state.mem table (indexAt (level + 1) state.va) state.pa flags }
      directory.numPages =
        leafWritten (level + 1) table (mapFlagsToPageFlags flags + 2 ^ 7) state := by
    rw [assignHuge, ok.shift, hugeEntry_eq paAligned small cursor.paWord clear, ok.numPages,
      leafWritten, frame]
  rw [written]
  rw [← page] at vaAligned
  rw [← frame] at paAligned
  apply Visited.leaf cursor small absent (pse_flagBits bits clear) _ _ vaAligned paAligned room
  · rw [if_neg (by omega), Nat.or_comm, pse_or clear]
  · right
    omega

theorem not_passable_huge {upper level table count : Nat} {state : PageMapState σ}
    (cursor : Cursor owned (level + 1) table state count)
    (isPresent : Present (entryAt state.mem table (indexAt (level + 1) state.va)))
    (isHuge : Huge (level + 1) (entryAt state.mem table (indexAt (level + 1) state.va))) :
    ¬Passable flags upper (level + 1) table state count := by
  intro passable
  have here : indexAt (level + 1) state.page = indexAt (level + 1) state.va := by
    rw [indexAt_eq, indexAt_eq, region_page]
  have found : walkFrom state.mem (level + 1) table state.page =
      some (leafOf (level + 1) (entryAt state.mem table (indexAt (level + 1) state.va))
        state.page) := by
    simp only [walkFrom, here, isPresent, isHuge, not_true_eq_false, ↓reduceIte]
  have blocks := passable state.page (region_page _ state) (page_inRange cursor) _ found
  exact absurd blocks.2 (Nat.succ_ne_zero level)

theorem mapPageRangeDirectory_passes {level : Nat} {directory : Directory σ}
    (valid : ValidMapFlags flags) (ok : DirectoryOk owned flags level directory)
    (small : level + 1 ≤ 2) {table : Nat} (rounds : Nat) (state : PageMapState σ) (count : Nat)
    (cursor : Cursor owned (level + 1) table state count)
    (enough : 513 ≤ rounds + indexAt (level + 1) state.va) :
    Settles (Passable flags (level + 1 + 1) (level + 1) table state count)
      (fun after => ∃ pages, Visited owned flags (level + 1) table (level + 1 + 1) state after
        count pages) (mapPageRangeDirectory directory flags table rounds state) := by
  induction rounds generalizing state count with
  | zero =>
      have bound := indexAt_lt (level + 1) state.va
      omega
  | succ rounds ih =>
      have positive := cursor.positive
      have bound := indexAt_lt (level + 1) state.va
      have more : state.numRemainingPages > 0 := by
        rw [cursor.remaining]
        omega
      have index : virtIndex directory.shift state.va = indexAt (level + 1) state.va := by
        rw [ok.shift]
        exact virtIndex_eq (level + 1) state.va
      have aligned : ∀ number, isAligned number (2 ^ directory.shift) = true ↔
          entrySize (level + 1) ∣ number := by
        intro number
        rw [ok.shift]
        exact isAligned_iff number _
      -- After one entry the loop goes on as `Visited.next` says.
      have next : ∀ after pages,
          Visited owned flags (level + 1) table (level + 1) state after count pages →
          Passable flags (level + 1) (level + 1) table state count →
          Settles (Passable flags (level + 1 + 1) (level + 1) table state count)
            (fun final => ∃ pages, Visited owned flags (level + 1) table (level + 1 + 1) state
              final count pages)
            (if indexAt (level + 1) state.va = 511 then pure after
            else mapPageRangeDirectory directory flags table rounds after) := by
        intro after pages step here
        apply step.next cursor here
        · intro notLast done
          cases rounds with
          | zero => omega
          | succ rounds =>
              rw [mapPageRangeDirectory, if_neg (by omega)]
              rfl
        · intro notLast advanced cursorNext
          exact ih _ _ cursorNext (by omega)
      rw [mapPageRangeDirectory, if_pos more]
      simp only [index]
      split
      · rename_i large
        simp only [Bool.and_eq_true, Bool.not_eq_true', decide_eq_true_eq, aligned] at large
        obtain ⟨⟨⟨notPresent, vaAligned⟩, paAligned⟩, room⟩ := large
        rw [cursor.remaining, ok.numPages] at room
        have absent : ¬Present (entryAt state.mem table (indexAt (level + 1) state.va)) := by
          rw [← entryPresent_iff, notPresent]
          exact Bool.false_ne_true
        apply next _ (entryPages (level + 1)) _ (passable_absent absent)
        exact visited_assignHuge valid ok small cursor absent vaAligned paAligned (by omega)
      · rename_i notLarge
        split
        · rename_i huge
          simp only [Bool.and_eq_true, entryPresent_iff, entryPse_iff] at huge
          exact not_passable_huge cursor huge.1 ⟨by omega, huge.2⟩
        · rename_i notHuge
          refine passes_lower ok.supplies ok.passesLower cursor ?_ ?_ ?_ ?_
          · intro isPresent huge
            apply notHuge
            rw [(entryPresent_iff _).mpr isPresent, (entryPse_iff _).mpr huge.2]
            rfl
          · intro passable address same
            refine passable address ?_
            rw [region_succ (level + 1), region_succ (level + 1), same]
          · rintro absent _ ⟨vaAligned, paAligned, room⟩
            apply notLarge
            simp only [Bool.and_eq_true, Bool.not_eq_true', decide_eq_true_eq, aligned]
            refine ⟨⟨⟨entryPresent_false absent, vaAligned⟩, paAligned⟩, ?_⟩
            rw [cursor.remaining, ok.numPages]
            omega
          · intro after pages visited here
            have step := visited.passed
            have within := step.within
            by_cases all : pages = count
            · rw [if_pos (by rw [step.remaining]; omega)]
              exact ⟨step.passable_last (Or.inl all) here, pages, .last visited (Or.inl all)⟩
            · have vaBound := cursor.vaBound
              have place : after.va = (region (level + 1) state.va + 1) * entrySize (level + 1) := by
                rw [step.va, Nat.mod_eq_of_lt (by omega)]
                exact step.stops.resolve_left all
              have isAlignedNow : isAligned after.va (2 ^ directory.shift) = true := by
                rw [aligned, place]
                exact Nat.dvd_mul_left _ _
              rw [if_neg (by rw [step.remaining]; omega)]
              simp only [isAlignedNow, Bool.not_true, Bool.false_eq_true, ↓reduceIte]
              exact next after pages visited here

structure SuppliesTables (owned : Stock σ) (alloc : PageAllocators σ) : Prop where
  pud : Supplies owned alloc.pud
  pmd : Supplies owned alloc.pmd
  ptd : Supplies owned alloc.ptd

variable {alloc : PageAllocators σ}

theorem mapPageRangePmd_passes (valid : ValidMapFlags flags)
    (supplies : SuppliesTables owned alloc) :
    Passes owned flags 1 (mapPageRangePmd alloc flags) := by
  have ok : DirectoryOk owned flags 0 (pmdDirectory alloc flags) :=
    ⟨rfl, rfl, supplies.ptd, mapPageRangePtd_passes valid⟩
  exact fun _ state count cursor =>
    mapPageRangeDirectory_passes valid ok (by omega) 513 state count cursor (by omega)

theorem mapPageRangePud_passes (valid : ValidMapFlags flags)
    (supplies : SuppliesTables owned alloc) :
    Passes owned flags 2 (mapPageRangePud alloc flags) := by
  have ok : DirectoryOk owned flags 1 (pudDirectory alloc flags) :=
    ⟨rfl, rfl, supplies.pmd, mapPageRangePmd_passes valid supplies⟩
  exact fun _ state count cursor =>
    mapPageRangeDirectory_passes valid ok (by omega) 513 state count cursor (by omega)

/-! ## The PGD -/

theorem mapPageRangePgdFrom_passes (valid : ValidMapFlags flags)
    (supplies : SuppliesTables owned alloc) {pgd : Nat} (rounds : Nat) (state : PageMapState σ)
    (count : Nat) (cursor : Cursor owned 3 pgd state count)
    (half : ∀ address, InRange state count address → region 4 address = region 4 state.va)
    (enough : count < rounds) :
    Settles (Passable flags 4 3 pgd state count)
      (fun after => Visited owned flags 3 pgd 4 state after count count)
      (mapPageRangePgdFrom alloc flags pgd rounds state) := by
  induction rounds generalizing state count with
  | zero => omega
  | succ rounds ih =>
      have positive := cursor.positive
      have more : state.numRemainingPages > 0 := by
        rw [cursor.remaining]
        omega
      have index : virtIndex pgdShift state.va = indexAt 3 state.va := virtIndex_eq 3 state.va
      rw [mapPageRangePgdFrom, if_pos more]
      simp only [index]
      refine passes_lower supplies.pud (mapPageRangePud_passes valid supplies) cursor
        (fun _ huge => absurd huge.1 (by omega)) ?_ (fun _ wrong => by omega) ?_
      · intro passable address same inside
        exact passable address (half address inside) inside
      · intro after pages visited here
        have step := visited.passed
        have within := step.within
        have taken := step.positive
        by_cases all : pages = count
        · rw [if_pos (by rw [step.remaining]; omega)]
          rw [all] at step visited
          exact ⟨step.passable_last (Or.inl rfl) here, .last visited (Or.inl rfl)⟩
        · have vaBound := cursor.vaBound
          obtain ⟨place, _⟩ := step.place cursor (by omega)
          have isAlignedNow : isAligned after.va (2 ^ pgdShift) = true := by
            have stop := step.stops.resolve_left all
            rw [isAligned_iff, step.va, Nat.mod_eq_of_lt (by omega), stop]
            exact Nat.dvd_mul_left _ _
          have together : region 4 after.va = region 4 state.va := by
            rw [← region_page]
            exact half after.page ⟨by omega, by omega⟩
          have rest := ih after (count - pages) (step.cursor cursor (by omega))
            (by
              rintro address ⟨low, high⟩
              rw [half address ⟨by omega, by omega⟩, together])
            (by omega)
          rw [if_neg (by rw [step.remaining]; omega)]
          simp only [isAlignedNow, Bool.not_true, Bool.false_eq_true, ↓reduceIte]
          apply rest.iff (step.passable_iff place together here)
          intro final tail
          have joined := Visited.append cursor visited (by omega) together tail
          rwa [Nat.add_sub_cancel' within] at joined

end

/-! ## The pages handed out -/

section

variable {σ : Type} {alloc : PageAllocators σ} {flags : Nat} {start : σ}

/-- Calls that take the state of the allocators from one to the other, with the page of each
call. Memory is written between them. -/
inductive HandsOut (alloc : PageAllocators σ) (start : σ) : List Nat → σ → Prop
  | none : HandsOut alloc start [] start
  | next {pages : List Nat} {before after : σ} {page : Nat} {allocator : PageAllocator σ}
      {mem mem' : Memory} (earlier : HandsOut alloc start pages before)
      (own : allocator = alloc.pud ∨ allocator = alloc.pmd ∨ allocator = alloc.ptd)
      (call : allocator before mem = some (page, after, mem')) :
      HandsOut alloc start (pages ++ [page]) after

def PageMapState.Drawn (alloc : PageAllocators σ) (start : σ) (state : PageMapState σ) : Prop :=
  HandsOut alloc start state.taken state.alloc

theorem PageMapState.Drawn.advance {state : PageMapState σ} (drawn : state.Drawn alloc start)
    (pages : Nat) : (state.advance pages).Drawn alloc start := by
  rw [Drawn, advance_taken, advance_alloc]
  exact drawn

theorem PageMapState.Drawn.write {state : PageMapState σ} (drawn : state.Drawn alloc start)
    (mem : Memory) : PageMapState.Drawn alloc start { state with mem := mem } :=
  drawn

/-- The mapper takes table pages from the allocators only. -/
def Draws (alloc : PageAllocators σ) (start : σ)
    (mapper : PageMapState σ → Except MapStop (PageMapState σ)) : Prop :=
  ∀ state after, state.Drawn alloc start → mapper state = .ok after → after.Drawn alloc start

theorem lowerTable_draws {allocator : PageAllocator σ}
    (own : allocator = alloc.pud ∨ allocator = alloc.pmd ∨ allocator = alloc.ptd)
    {table index lower : Nat} {state after : PageMapState σ} (drawn : state.Drawn alloc start)
    (entered : state.lowerTable allocator table index = .ok (lower, after)) :
    after.Drawn alloc start := by
  simp only [PageMapState.lowerTable] at entered
  split at entered
  · obtain ⟨⟨page, middle⟩, allocated, rest⟩ := bind_ok entered
    rw [PageMapState.allocate] at allocated
    split at allocated
    · cases allocated
    · rename_i call
      cases allocated
      cases rest
      exact .next drawn own call
  · cases entered
    exact drawn

theorem mapPageRangePtdFrom_draws (ptd rounds : Nat) :
    Draws alloc start (mapPageRangePtdFrom flags ptd rounds) := by
  induction rounds with
  | zero =>
      intro state after _ returned
      cases returned
  | succ rounds ih =>
      intro state after drawn returned
      have next : ∀ mapped : PageMapState σ, mapped.Drawn alloc start →
          ∀ index, (if index = numPageTableEntries - 1 then return mapped.advance 1
            else mapPageRangePtdFrom flags ptd rounds (mapped.advance 1)) = .ok after →
          after.Drawn alloc start := by
        intro mapped drawn index rest
        split at rest
        · cases rest
          exact drawn.advance 1
        · exact ih _ after (drawn.advance 1) rest
      simp only [mapPageRangePtdFrom] at returned
      split at returned
      · split at returned
        · split at returned
          · exact next state drawn _ returned
          · cases returned
        · exact next _ (drawn.write _) _ returned
      · cases returned
        exact drawn

theorem mapPageRangeDirectory_draws {directory : Directory σ}
    (own : directory.alloc = alloc.pud ∨ directory.alloc = alloc.pmd ∨ directory.alloc = alloc.ptd)
    (lower : ∀ table, Draws alloc start (directory.mapLower table)) (table rounds : Nat) :
    Draws alloc start (mapPageRangeDirectory directory flags table rounds) := by
  induction rounds with
  | zero =>
      intro state after _ returned
      cases returned
  | succ rounds ih =>
      intro state after drawn returned
      -- Both ways of mapping an entry end in the rest of the loop.
      have next : ∀ mapped : PageMapState σ, mapped.Drawn alloc start →
          ∀ index, (if index = numPageTableEntries - 1 then return mapped
            else mapPageRangeDirectory directory flags table rounds mapped) = .ok after →
          after.Drawn alloc start := by
        intro mapped drawn index rest
        split at rest
        · cases rest
          exact drawn
        · exact ih mapped after drawn rest
      simp only [mapPageRangeDirectory] at returned
      split at returned
      · split at returned
        · exact next _ ((drawn.write _).advance _) _ returned
        · split at returned
          · cases returned
          · obtain ⟨⟨page, entered⟩, call, rest⟩ := bind_ok returned
            obtain ⟨mapped, mapping, rest⟩ := bind_ok rest
            have below := lower page entered mapped (lowerTable_draws own drawn call) mapping
            split at rest
            · cases rest
              exact below
            · split at rest
              · cases rest
              · exact next mapped below _ rest
      · cases returned
        exact drawn

theorem mapPageRangePud_draws (pud : Nat) :
    Draws alloc start (mapPageRangePud alloc flags pud) :=
  mapPageRangeDirectory_draws (.inr (.inl rfl))
    (fun pmd => mapPageRangeDirectory_draws (.inr (.inr rfl))
      (fun ptd => mapPageRangePtdFrom_draws ptd _) pmd _) pud _

theorem mapPageRangePgdFrom_draws (pgd rounds : Nat) :
    Draws alloc start (mapPageRangePgdFrom alloc flags pgd rounds) := by
  induction rounds with
  | zero =>
      intro state after _ returned
      cases returned
  | succ rounds ih =>
      intro state after drawn returned
      simp only [mapPageRangePgdFrom] at returned
      split at returned
      · obtain ⟨⟨pud, entered⟩, call, rest⟩ := bind_ok returned
        obtain ⟨mapped, mapping, rest⟩ := bind_ok rest
        have below := mapPageRangePud_draws pud entered mapped
          (lowerTable_draws (.inl rfl) drawn call) mapping
        split at rest
        · cases rest
          exact below
        · split at rest
          · cases rest
          · exact ih mapped after below rest
      · cases returned
        exact drawn

theorem mapPageRange_handsOut {pgd startVa startPa : Nat} {numPages : Int} {mem : Memory}
    {after : PageMapState σ}
    (returned : mapPageRange alloc flags pgd startVa startPa numPages mem start = .ok after) :
    HandsOut alloc start after.taken after.alloc := by
  have drawn : PageMapState.Drawn alloc start
      ⟨startVa, startPa, numPages, 0, mem, start, []⟩ := HandsOut.none
  exact mapPageRangePgdFrom_draws pgd _ _ after drawn returned

end

def InOneHalf (startVa numPages : Nat) : Prop :=
  startVa + 2 ^ 12 * numPages ≤ 2 ^ 47 ∨
    2 ^ 64 - 2 ^ 47 ≤ startVa ∧ startVa + 2 ^ 12 * numPages ≤ 2 ^ 64

theorem InOneHalf.canonical {startVa numPages address : Nat} (half : InOneHalf startVa numPages)
    (low : startVa ≤ address) (high : address < startVa + 2 ^ 12 * numPages) :
    Canonical address := by
  rcases half with lower | upper
  · exact Or.inl (by omega)
  · exact Or.inr ⟨by omega, by omega⟩

/-- A canonical address sees the same tables as one next to the range. -/
theorem InOneHalf.alias {startVa numPages address : Nat} (half : InOneHalf startVa numPages)
    (positive : 1 ≤ numPages) (canonical : Canonical address)
    (outside : ¬(startVa ≤ address ∧ address < startVa + 2 ^ 12 * numPages)) :
    ∃ other, other % 2 ^ 48 = address % 2 ^ 48 ∧ other / 2 ^ 48 = startVa / 2 ^ 48 ∧
      ¬(startVa ≤ other ∧ other < startVa + 2 ^ 12 * numPages) := by
  refine ⟨startVa / 2 ^ 48 * 2 ^ 48 + address % 2 ^ 48, by omega, by omega, ?_⟩
  rcases half with lower | upper
  · rcases canonical with low | high
    · omega
    · omega
  · rcases canonical with low | high
    · omega
    · omega

section

variable {σ : Type} {alloc : PageAllocators σ} {owned : Stock σ} {flags : Nat}
variable {pgd startVa startPa numPages : Nat} {mem : Memory} {allocState : σ}

def rangeStart (startVa startPa numPages : Nat) (mem : Memory) (allocState : σ) :
    PageMapState σ :=
  ⟨startVa, startPa, numPages, 0, mem, allocState, []⟩

def RangePassable (flags pgd startVa numPages : Nat) (mem : Memory) : Prop :=
  ∀ address, startVa ≤ address → address < startVa + 2 ^ 12 * numPages →
    ∀ leaf, walk mem pgd address = some leaf →
      isMaskSet flags mapSkipIfMapped = true ∧ leaf.level = 0

theorem mapPageRange_visits (supplies : SuppliesTables owned alloc) (valid : ValidMapFlags flags)
    (positive : 1 ≤ numPages) (half : InOneHalf (pageStart startVa) numPages)
    (paWord : startPa < 2 ^ 64)
    (sound : Sound owned 3 pgd (rangeStart startVa startPa numPages mem allocState)) :
    Settles (RangePassable flags pgd (pageStart startVa) numPages mem)
      (fun after => Visited owned flags 3 pgd 4
        (rangeStart startVa startPa numPages mem allocState) after numPages numPages)
      (mapPageRange alloc flags pgd startVa startPa numPages mem allocState) := by
  have vaBound : pageStart startVa + 2 ^ 12 * numPages ≤ 2 ^ 64 := by
    rcases half with lower | upper <;> omega
  have size : entrySize 4 = 2 ^ 48 := rfl
  have cursor : Cursor owned 3 pgd (rangeStart startVa startPa numPages mem allocState) numPages :=
    ⟨rfl, positive, vaBound, paWord, sound⟩
  have oneRegion : ∀ address,
      InRange (rangeStart startVa startPa numPages mem allocState) numPages address →
        region 4 address = region 4 startVa := by
    rintro address ⟨low, high⟩
    have start : region 4 (pageStart startVa) = region 4 startVa :=
      region_page 4 (rangeStart startVa startPa numPages mem allocState)
    change pageStart startVa ≤ address at low
    change address < pageStart startVa + 2 ^ 12 * numPages at high
    rw [← start, region, region, size]
    rcases half with lower | upper <;> omega
  apply (mapPageRangePgdFrom_passes valid supplies _ _ _ cursor oneRegion (by omega)).iff _
    fun _ holds => holds
  constructor
  · intro passable address low high leaf found
    rw [walk, if_pos (half.canonical low high)] at found
    exact passable address (oneRegion address ⟨low, high⟩) ⟨low, high⟩ leaf found
  · intro passable address _ inside leaf found
    apply passable address inside.1 inside.2 leaf
    rw [walk, if_pos (half.canonical inside.1 inside.2)]
    exact found

theorem mapPageRange_settles (supplies : SuppliesTables owned alloc) (valid : ValidMapFlags flags)
    (positive : 1 ≤ numPages) (half : InOneHalf (pageStart startVa) numPages)
    (paWord : startPa < 2 ^ 64)
    (sound : Sound owned 3 pgd (rangeStart startVa startPa numPages mem allocState)) :
    Settles (RangePassable flags pgd (pageStart startVa) numPages mem)
      (fun after => Passed owned flags 3 pgd 4
        (rangeStart startVa startPa numPages mem allocState) after numPages numPages)
      (mapPageRange alloc flags pgd startVa startPa numPages mem allocState) :=
  (mapPageRange_visits supplies valid positive half paWord sound).iff Iff.rfl
    fun _ visited => visited.passed

theorem mapPageRange_maps (supplies : SuppliesTables owned alloc) (valid : ValidMapFlags flags)
    (positive : 1 ≤ numPages) (vaAligned : 2 ^ 12 ∣ startVa)
    (half : InOneHalf startVa numPages) (paBound : startPa + 2 ^ 12 * numPages ≤ 2 ^ 48)
    (sound : Sound owned 3 pgd (rangeStart startVa startPa numPages mem allocState))
    (unmapped : ∀ address, startVa ≤ address → address < startVa + 2 ^ 12 * numPages →
      walk mem pgd address = none) :
    Outcome (fun after => Passed owned flags 3 pgd 4
        (rangeStart startVa startPa numPages mem allocState) after numPages numPages)
      (mapPageRange alloc flags pgd startVa startPa numPages mem allocState) := by
  have vaStart := pageStart_of_dvd vaAligned
  apply (mapPageRange_settles supplies valid positive (by rwa [vaStart]) (by omega) sound).outcome
  intro address low high leaf found
  rw [vaStart] at low high
  rw [unmapped address low high] at found
  cases found

section

variable {after : PageMapState σ}
variable (passed : Passed owned flags 3 pgd 4
  (rangeStart startVa startPa numPages mem allocState) after numPages numPages)
include passed

theorem Passed.walk_reached (half : InOneHalf (pageStart startVa) numPages) {offset : Nat}
    (inside : offset < 2 ^ 12 * numPages) :
    Reached flags (pageStart startPa + offset) (walk mem pgd (pageStart startVa + offset))
      (walk after.mem pgd (pageStart startVa + offset)) := by
  have high := Nat.add_lt_add_left inside (pageStart startVa)
  have reached : Reached flags
      (pageStart startPa + (pageStart startVa + offset - pageStart startVa))
      (walkFrom mem 3 pgd (pageStart startVa + offset))
      (walkFrom after.mem 3 pgd (pageStart startVa + offset)) :=
    passed.inside (pageStart startVa + offset) ⟨Nat.le_add_right _ _, high⟩
  have canonical := half.canonical (Nat.le_add_right (pageStart startVa) offset) high
  rw [Nat.add_sub_cancel_left] at reached
  rw [walk, walk, if_pos canonical, if_pos canonical]
  exact reached

theorem Passed.walk_filled (half : InOneHalf (pageStart startVa) numPages) {offset : Nat}
    (inside : offset < 2 ^ 12 * numPages) (bound : pageStart startPa + offset < 2 ^ 48) :
    Filled flags (pageStart startPa + offset) (walk mem pgd (pageStart startVa + offset))
      (walk after.mem pgd (pageStart startVa + offset)) :=
  (passed.walk_reached half inside).filled bound

theorem Passed.walk_outside (half : InOneHalf (pageStart startVa) numPages) {address : Nat}
    (outside : ¬(pageStart startVa ≤ address ∧ address < pageStart startVa + 2 ^ 12 * numPages)) :
    walk after.mem pgd address = walk mem pgd address := by
  have size : entrySize 4 = 2 ^ 48 := rfl
  have start : pageStart startVa / entrySize 4 = startVa / entrySize 4 :=
    region_page 4 (rangeStart startVa startPa numPages mem allocState)
  unfold walk
  split
  · rename_i canonical
    obtain ⟨other, low, same, away⟩ := half.alias passed.positive canonical outside
    rw [← size] at low same
    rw [← walkFrom_mod after.mem pgd low, ← walkFrom_mod mem pgd low]
    exact passed.outside other (same.trans start) away
  · rfl

theorem Passed.walk_inside (vaAligned : 2 ^ 12 ∣ startVa) (paAligned : 2 ^ 12 ∣ startPa)
    (half : InOneHalf startVa numPages) {offset : Nat} (inside : offset < 2 ^ 12 * numPages)
    (bound : startPa + offset < 2 ^ 48) (unmapped : walk mem pgd (startVa + offset) = none) :
    ∃ leaf, walk after.mem pgd (startVa + offset) = some leaf ∧
      LeafAt flags (startPa + offset) leaf := by
  have vaStart := pageStart_of_dvd vaAligned
  have paStart := pageStart_of_dvd paAligned
  have filled := passed.walk_filled (by rwa [vaStart]) inside (by rwa [paStart])
  rw [vaStart, paStart, unmapped] at filled
  exact filled

theorem Passed.walk_apart (vaAligned : 2 ^ 12 ∣ startVa) (half : InOneHalf startVa numPages)
    {address : Nat} (outside : ¬(startVa ≤ address ∧ address < startVa + 2 ^ 12 * numPages)) :
    walk after.mem pgd address = walk mem pgd address := by
  have vaStart := pageStart_of_dvd vaAligned
  exact passed.walk_outside (by rwa [vaStart]) (by rwa [vaStart])

end

end

theorem mapPageRange_correct {σ : Type} {alloc : PageAllocators σ} {owned : Stock σ}
    (supplies : SuppliesTables owned alloc) {flags : Nat} (valid : ValidMapFlags flags)
    {pgd startVa startPa numPages : Nat} {mem : Memory} {allocState : σ}
    (positive : 1 ≤ numPages) (vaAligned : 2 ^ 12 ∣ startVa) (paAligned : 2 ^ 12 ∣ startPa)
    (half : InOneHalf startVa numPages) (paBound : startPa + 2 ^ 12 * numPages ≤ 2 ^ 48)
    (wellFormed : WellFormed mem 3 pgd) (ok : owned.ok allocState)
    (unused : Disjoint (tables mem 3 pgd) (owned allocState))
    (unmapped : ∀ address, startVa ≤ address → address < startVa + 2 ^ 12 * numPages →
      walk mem pgd address = none)
    (supplied : mapPageRange alloc flags pgd startVa startPa numPages mem allocState ≠
      .error .exhausted) :
    ∃ after, mapPageRange alloc flags pgd startVa startPa numPages mem allocState = .ok after ∧
      WellFormed after.mem 3 pgd ∧
      (∀ offset < 2 ^ 12 * numPages, ∃ leaf,
        walk after.mem pgd (startVa + offset) = some leaf ∧
          LeafAt flags (startPa + offset) leaf) ∧
      (∀ address, ¬(startVa ≤ address ∧ address < startVa + 2 ^ 12 * numPages) →
        walk after.mem pgd address = walk mem pgd address) ∧
      HandsOut alloc allocState after.taken after.alloc ∧
      after.numPagetablesAllocated = after.taken.length ∧ after.taken.Nodup ∧
      ∀ page ∈ after.taken, page ∈ owned allocState ∧ page ∉ owned after.alloc := by
  have outcome := mapPageRange_maps supplies valid positive vaAligned half paBound
    ⟨ok, wellFormed, unused⟩ unmapped
  obtain ⟨after, returned, passed⟩ := outcome.returns supplied
  refine ⟨after, returned, passed.change.wellFormed, ?_,
    fun _ outside => passed.walk_apart vaAligned half outside,
    mapPageRange_handsOut returned, ?_⟩
  · intro offset inside
    exact passed.walk_inside vaAligned paAligned half inside (by omega)
      (unmapped _ (by omega) (by omega))
  obtain ⟨pages, taken, counted, distinct, fresh⟩ := passed.change.counted
  have all : after.taken = pages := taken
  have number : after.numPagetablesAllocated = 0 + pages.length := counted
  rw [all, number, Nat.zero_add]
  exact ⟨rfl, distinct, fresh⟩

/-! ## An allocator -/

def bumpAllocator : PageAllocator Nat := fun next mem =>
  if next < 2 ^ 36 then some (2 ^ 12 * next, next + 1, zeroPage mem (2 ^ 12 * next)) else none

def bumpPages : Stock Nat where
  ok := fun _ => True
  pages := fun next => {page | ∃ number, next ≤ number ∧ page = 2 ^ 12 * number}

theorem bumpAllocator_supplies : Supplies bumpPages bumpAllocator := by
  intro before mem page after mem' _ call
  unfold bumpAllocator at call
  split at call
  · rename_i room
    cases call
    have isTable : IsTable (2 ^ 12 * before) := ⟨Nat.dvd_mul_right _ _, by omega⟩
    refine ⟨trivial, ⟨before, Nat.le_refl _, rfl⟩, ?_, ?_, isTable,
      fun _ inside => entryAt_zeroPage_self mem _ inside,
      fun _ isOther different _ inside =>
        entryAt_zeroPage_other isTable isOther different mem inside⟩
    · rintro ⟨number, later, same⟩
      omega
    · rintro other ⟨number, later, same⟩
      exact ⟨number, by omega, same⟩
  · cases call

def bumpAllocators : PageAllocators Nat := ⟨bumpAllocator, bumpAllocator, bumpAllocator⟩

theorem bumpAllocators_supplies : SuppliesTables bumpPages bumpAllocators :=
  ⟨bumpAllocator_supplies, bumpAllocator_supplies, bumpAllocator_supplies⟩

theorem emptyMemory_unmapped (pgd address : Nat) : walk (fun _ => 0) pgd address = none := by
  rw [walk, walkFrom_empty 3 fun _ _ => rfl, ite_self]

theorem bump_sound {startVa startPa numPages : Nat} :
    Sound bumpPages 3 0x1000 (rangeStart startVa startPa numPages (fun _ => 0) 2) := by
  have zeros : ∀ index < 512, entryAt (fun _ => 0) 0x1000 index = 0 := fun _ _ => rfl
  refine ⟨trivial, wellFormed_empty 3 ⟨by decide, by decide⟩ zeros, ?_⟩
  change Disjoint (tables (fun _ => 0) 3 0x1000) (bumpPages 2)
  rw [tables_empty 3 zeros, Set.disjoint_singleton_left]
  rintro ⟨number, later, same⟩
  omega

theorem not_error_of_isOk {ε α : Type} {result : Except ε α} (ok : result.isOk = true) (stop : ε) :
    result ≠ .error stop := by
  rintro rfl
  cases ok

theorem small_and_large_page_mapped :
    ∃ after, mapPageRange bumpAllocators mapKernel 0x1000 0x1ff000 0x3ff000 (513 : Nat)
        (fun _ => 0) 2 = .ok after ∧
      (∃ leaf, walk after.mem 0x1000 0x1ff123 = some leaf ∧ LeafAt mapKernel 0x3ff123 leaf) ∧
      (∃ leaf, walk after.mem 0x1000 0x3fffff = some leaf ∧ LeafAt mapKernel 0x5fffff leaf) ∧
      walk after.mem 0x1000 0x400000 = none := by
  have ok : (mapPageRange bumpAllocators mapKernel 0x1000 0x1ff000 0x3ff000 (513 : Nat)
      (fun _ => 0) 2).isOk = true := by decide +kernel
  have sound : Sound bumpPages 3 0x1000 (rangeStart 0x1ff000 0x3ff000 513 (fun _ => 0) 2) :=
    bump_sound
  obtain ⟨after, returned, _, inside, outside, _⟩ := mapPageRange_correct bumpAllocators_supplies
    (Or.inl (by decide) : ValidMapFlags mapKernel) (by decide) (by decide) (by decide)
    (Or.inl (by decide)) (by decide) sound.wellFormed sound.ok sound.unused
    (fun address _ _ => emptyMemory_unmapped 0x1000 address) (not_error_of_isOk ok .exhausted)
  refine ⟨after, returned, inside 0x123 (by decide), inside 0x200fff (by decide), ?_⟩
  rw [outside 0x400000 (by decide)]
  exact emptyMemory_unmapped 0x1000 0x400000

end Zeptux.Page
