import Zeptux.PhysReachable

/-!
What holds of the allocator in every reachable state: the partition of the spans into
blocks, coalescing and the exact condition for running out of memory, and which pages
stand for their block.
-/

namespace Zeptux.Phys

open Dyadic IntrusiveRing LockProgram Word Footprint

/-! ## The handover -/

theorem handover_returns {early : Early.PageAllocState} (ok : Early.SpansOk early.spans)
    (links : Links Node) :
    ∃ state, run (handover early) (idle (PhysState.zeroed links)) = .returned () (idle state) ∧
      state.spans = early.spans.map (·.toPhys) ∧
      Settled (plannedRecord early.spans) state (managedPages (early.spans.map (·.toPhys)))
        (early.spans.map (·.numPages)).sum := by
  have spec : wp (whole.contract fun _ => False) (handover early) (PhysState.zeroed links) ∅
      fun _ after held => held = ∅ ∧ after.spans = early.spans.map (·.toPhys) ∧
        Settled (plannedRecord early.spans) after (managedPages (early.spans.map (·.toPhys)))
          (early.spans.map (·.numPages)).sum :=
    wp_handover ok fun after spans settled => ⟨rfl, spans, settled⟩
  obtain ⟨_, after, held, same, rfl, rest⟩ := run_returns spec
  exact ⟨after, same, rest⟩

def countPages (spans : List Early.PageAllocSpan) (test : Early.PageAllocSpan → Nat → Bool) :
    Nat :=
  (spans.map fun span => (List.range span.numPages).countP (test span)).sum

def preserved (span : Early.PageAllocSpan) (index : Nat) : Bool :=
  span.allocBitmap.isSet index && !span.ephemeralBitmap.isSet index

theorem record_kind (span : Early.PageAllocSpan) (index : Nat) :
    (span.record index).kind = if preserved span index then
        if span.pagetableBitmap.isSet index then physblockPagetable
        else if span.physblockBitmap.isSet index then physblockPhysblock else physblockKernel
      else physblockUnmanaged := by
  have test : (span.allocBitmap.isSet index ∧ ¬span.ephemeralBitmap.isSet index) ↔
      preserved span index = true := by
    simp [preserved]
  cases shape : span.pageType index with
  | none =>
      simp only [Early.PageAllocSpan.record, shape, Physblock.kind]
      simp only [Early.PageAllocSpan.pageType, test, ite_eq_right_iff, reduceCtorEq, imp_false]
        at shape
      rw [if_neg shape]
      decide
  | some type =>
      have live := pageType_live shape
      simp only [Early.PageAllocSpan.record, shape, Physblock.kind]
      simp only [Early.PageAllocSpan.pageType, test, Option.ite_none_right_eq_some] at shape
      rw [if_pos shape.1]
      exact live.2

theorem Settled.mem_freePages_iff {spans : List Early.PageAllocSpan} (ok : Early.SpansOk spans)
    {state : PhysState} {total : Nat} (shape : state.spans = spans.map (·.toPhys))
    (settled : Settled (plannedRecord spans) state (managedPages state.spans) total)
    {span : Early.PageAllocSpan} (member : span ∈ spans) {index : Nat}
    (inside : index < span.numPages) :
    span.pfn index ∈ freePages state ↔ preserved span index = false := by
  have managed : Managed state.spans (span.pfn index) := by
    rw [shape, managed_toPhys]
    exact ⟨span, member, index, inside, rfl⟩
  rw [settled.pages, Finset.mem_filter, mem_managedPages, plannedRecord_eq ok member inside,
    record_kind]
  cases isPreserved : preserved span index with
  | false => simp [managed]
  | true =>
      simp only [↓reduceIte, Bool.true_eq_false, iff_false, not_and]
      intro _
      split
      · decide
      · split <;> decide

theorem card_planned {spans : List Early.PageAllocSpan} (ok : Early.SpansOk spans)
    {kind : Nat} {test : Early.PageAllocSpan → Nat → Bool}
    (agree : ∀ span index, (span.record index).kind = kind ↔ test span index = true) :
    ((managedPages (spans.map (·.toPhys))).filter fun pfn =>
      (plannedRecord spans pfn).kind = kind).card = countPages spans test := by
  rw [card_filter_managedPages (toPhys_spansOk ok).apart, List.map_map, countPages]
  congr 1
  apply List.map_congr_left
  intro span member
  apply List.countP_congr
  intro index inside
  have planned := plannedRecord_eq ok member (List.mem_range.mp inside)
  simp only [Early.PageAllocSpan.pfn] at planned
  simp only [Early.PageAllocSpan.toPhys, planned, decide_eq_true_eq]
  exact agree span index

theorem handover_settles_every_page (early : Early.PageAllocState)
    (ok : Early.SpansOk early.spans) (links : Links Node) :
    ∃ state, run (handover early) (idle (PhysState.zeroed links)) = .returned () (idle state) ∧
      (∀ span ∈ early.spans, ∀ index, index < span.numPages →
        ((∃ head order, IsFree state head order ∧ Covers head order (span.pfn index)) ↔
          span.allocBitmap.isSet index = false ∨ span.ephemeralBitmap.isSet index = true) ∧
        (span.allocBitmap.isSet index = true → span.ephemeralBitmap.isSet index = false →
          IsBlock state (span.pfn index) 0 ∧
          (state.physblocks (span.pfn index)).refcount = 1 ∧
          (state.physblocks (span.pfn index)).type =
            if span.pagetableBitmap.isSet index then physblockPagetable
            else if span.physblockBitmap.isSet index then physblockPhysblock
            else physblockKernel ||| physblockMovable)) ∧
      state.stats.num4kPages = (early.spans.map (·.numPages)).sum ∧
      (∃ pages : Finset Nat, state.stats.numFree4kPages = pages.card ∧ ∀ pfn, pfn ∈ pages ↔
        ∃ head order, IsFree state head order ∧ Covers head order pfn) ∧
      state.stats.numPagetablePages = countPages early.spans (fun span index =>
        preserved span index && span.pagetableBitmap.isSet index) ∧
      state.stats.numPhysblockPages = countPages early.spans (fun span index =>
        preserved span index && !span.pagetableBitmap.isSet index &&
          span.physblockBitmap.isSet index) := by
  obtain ⟨state, returned, spans, settled⟩ := handover_returns ok links
  obtain ⟨heads, rep⟩ := settled.rep
  refine ⟨state, returned, ?_, settled.num4kPages,
    ⟨freePages state, rep.freeCount, fun pfn => mem_freePages_iff rep.covered⟩, ?_, ?_⟩
  · intro span member index inside
    have managed : Managed state.spans (span.pfn index) := by
      rw [spans, managed_toPhys]
      exact ⟨span, member, index, inside, rfl⟩
    have planned := plannedRecord_eq ok member inside
    have settledAll := settled
    rw [← spans] at settledAll
    have freeIff := settledAll.mem_freePages_iff ok spans member inside
    refine ⟨?_, ?_⟩
    · rw [← mem_freePages_iff rep.covered, freeIff, preserved]
      cases span.allocBitmap.isSet index <;> cases span.ephemeralBitmap.isSet index <;> decide
    · intro allocated notEphemeral
      have isPreserved : preserved span index = true := by
        simp [preserved, allocated, notEphemeral]
      have kept : state.physblocks (span.pfn index) = span.record index := by
        rw [settled.kept, planned]
        rw [freeIff, isPreserved]
        decide
      refine ⟨settled.isBlock managed (by rw [kept, planned]), ?_, ?_⟩
      · rw [kept]
        simp [Early.PageAllocSpan.record, Early.PageAllocSpan.pageType, allocated, notEphemeral]
      · rw [kept]
        simp [Early.PageAllocSpan.record, Early.PageAllocSpan.pageType, allocated, notEphemeral]
  · rw [settled.pagetables]
    apply card_planned ok
    intro span index
    rw [record_kind]
    cases preserved span index <;> cases span.pagetableBitmap.isSet index <;>
      cases span.physblockBitmap.isSet index <;> decide
  · rw [settled.physblocks]
    apply card_planned ok
    intro span index
    rw [record_kind]
    cases preserved span index <;> cases span.pagetableBitmap.isSet index <;>
      cases span.physblockBitmap.isSet index <;> decide

/-- Page 0 holds a page table, page 1 is ephemeral, page 2 was never handed out. -/
def mixedEarlyState : Early.PageAllocState :=
  ⟨3, 2, 1, 1, 0, [⟨0, 3, 2, ⟨3, 1, fun _ => 3#64⟩, ⟨3, 1, fun _ => 2#64⟩, ⟨3, 1, fun _ => 1#64⟩,
    ⟨3, 1, fun _ => 0#64⟩⟩]⟩

theorem mixed_handover :
    ∃ state, run (handover mixedEarlyState) (idle (PhysState.zeroed ⟨id, id⟩)) =
        .returned () (idle state) ∧
      state.stats.num4kPages = 3 ∧ state.stats.numPagetablePages = 1 ∧
      (state.physblocks 0).type = physblockPagetable ∧
      ∃ head order, IsFree state head order ∧ Covers head order 1 := by
  have ok : Early.SpansOk mixedEarlyState.spans := by
    constructor
    · simp [mixedEarlyState]
    · simp [mixedEarlyState, pageSize, pageShift]
  obtain ⟨state, returned, pages, total, _, pagetables, _⟩ :=
    handover_settles_every_page mixedEarlyState ok ⟨id, id⟩
  refine ⟨state, returned, total, ?_, ?_, ?_⟩
  · rw [pagetables]
    decide
  · exact ((pages _ (List.mem_singleton_self _) 0 (by decide)).2 (by decide) (by decide)).2.2
  · exact (pages _ (List.mem_singleton_self _) 1 (by decide)).1.mpr (Or.inr (by decide))

/-! ## The partition into blocks -/

structure WellFormed (state : PhysState) : Prop where
  partition : ∀ pfn, Managed state.spans pfn →
    ∃! block : Nat × Nat, IsBlock state block.1 block.2 ∧ Covers block.1 block.2 pfn
  freeLists : ∃ heads : Nat → List Nat, ∀ order, order ≤ maxOrder →
    Ring state.links (.freeList order) ((heads order).map .physblock) ∧
      ∀ head, head ∈ heads order ↔
        IsBlock state head order ∧ (state.physblocks head).type = physblockFree
  references : ∀ head order, IsBlock state head order →
    if (state.physblocks head).kind = physblockFree then (state.physblocks head).refcount = 0
    else 1 ≤ (state.physblocks head).refcount

theorem Ready.wellFormed {state : PhysState} (ready : Ready state) : WellFormed state := by
  obtain ⟨heads, rep⟩ := ready.rep
  constructor
  · intro pfn managed
    obtain ⟨head, order, block, covers⟩ := rep.covered pfn managed
    refine ⟨(head, order), ⟨block, covers⟩, ?_⟩
    rintro ⟨other, large⟩ ⟨otherBlock, otherCovers⟩
    obtain ⟨rfl, rfl⟩ := block.unique otherBlock covers otherCovers
    rfl
  · refine ⟨heads, fun order bound => ⟨rep.lists.ring _ ⟨order, bound, rfl⟩, ?_⟩⟩
    intro head
    rw [rep.listed order bound head]
    exact ⟨fun free => ⟨free.toIsBlock, free.headType⟩, fun parts => ⟨parts.1, parts.2⟩⟩
  · intro head order block
    rcases ready.head_cases block with free | live
    · rw [if_pos (free_kind free.1)]
      exact free.2
    · rw [if_neg live.1]
      omega

theorem reachable_wellFormed {machine : PhysMachine} (reachable : Reachable machine) :
    WellFormed machine.data := by
  obtain ⟨state, rfl, ready⟩ := reachable.ready
  exact ready.wellFormed

def unusedSpan (start numPages : Nat) : Early.PageAllocSpan :=
  let bitmap : Bitmap := ⟨numPages, Bitmap.calcWords numPages, fun _ => 0⟩
  ⟨start, numPages, 0, bitmap, bitmap, bitmap, bitmap⟩

def unusedEarlyState (numPages : Nat) : Early.PageAllocState :=
  ⟨numPages, 0, 0, 0, 0, [unusedSpan 0 numPages]⟩

theorem unusedEarlyState_ok {numPages : Nat} (small : numPages ≤ 2 ^ 52) :
    Early.SpansOk (unusedEarlyState numPages).spans := by
  constructor
  · simp [unusedEarlyState]
  · intro span member
    simp only [unusedEarlyState, List.mem_singleton] at member
    rw [member]
    simp only [unusedSpan, pageSize, pageShift]
    omega

theorem two_pages_wellFormed :
    ∃ machine, Reachable machine ∧ machine.data.spans = [⟨0, 2⟩] ∧ WellFormed machine.data := by
  have ok := unusedEarlyState_ok (by decide : 2 ≤ 2 ^ 52)
  obtain ⟨state, returned, spans, _⟩ := handover_returns ok ⟨id, id⟩
  have reachable : Reachable (idle state) := .init ok returned
  exact ⟨idle state, reachable, spans, reachable_wellFormed reachable⟩

/-! ## Running out of memory -/

/-- A naturally aligned run of free pages inside one span. -/
structure FreeRun (state : PhysState) (first order : Nat) : Prop where
  aligned : 2 ^ order ∣ first
  inside : ∃ span ∈ state.spans, span.Contains first (2 ^ order)
  free : ∀ pfn, Covers first order pfn →
    ∃ head large, IsFree state head large ∧ Covers head large pfn

theorem FreeRun.cover {state : PhysState} {first order : Nat} (freeRun : FreeRun state first order)
    (coalesced : Coalesced state) (bound : order ≤ maxOrder) :
    ∃ head large, order ≤ large ∧ IsFree state head large ∧
      head ≤ first ∧ first + 2 ^ order ≤ head + 2 ^ large := by
  apply exists_cover_of_run (IsFree state) freeRun.aligned
  · exact fun head small free => free.aligned
  · exact fun head small other large number left right inLeft inRight =>
      left.toIsBlock.unique right.toIsBlock inLeft inRight
  · intro head small below lower upper left right
    have positive := Nat.two_pow_pos small
    have nested := buddy_nested below left.aligned freeRun.aligned ⟨lower, by omega⟩
    obtain ⟨span, member, bounds⟩ := freeRun.inside
    simp only [PhysAllocSpan.Contains] at bounds
    refine coalesced head small ⟨by omega, ⟨span, member, ?_, ?_⟩, left, right⟩
    · simp only [PhysAllocSpan.Contains]
      omega
    · simp only [PhysAllocSpan.Contains]
      omega
  · exact freeRun.free

theorem available_iff {state : PhysState} {heads : Nat → List Nat} {order : Nat}
    (rep : Rep state heads) (coalesced : Coalesced state) (bound : order ≤ maxOrder) :
    Available heads order ↔ ∃ first, FreeRun state first order := by
  constructor
  · rintro ⟨found, lower, upper, inhabited⟩
    obtain ⟨head, member⟩ := List.exists_mem_of_ne_nil _ inhabited
    have free := (rep.listed found upper head).mp member
    have smaller : 2 ^ order ≤ 2 ^ found := Nat.pow_le_pow_right (by omega) lower
    obtain ⟨span, spanMember, bounds⟩ := free.inside
    simp only [PhysAllocSpan.Contains] at bounds
    refine ⟨head, Nat.dvd_trans (Nat.pow_dvd_pow 2 lower) free.aligned,
      ⟨span, spanMember, ?_⟩, ?_⟩
    · simp only [PhysAllocSpan.Contains]
      omega
    · intro pfn covers
      simp only [Covers] at covers
      exact ⟨head, found, free, by simp only [Covers]; omega⟩
  · rintro ⟨first, freeRun⟩
    obtain ⟨head, large, lower, free, _⟩ := freeRun.cover coalesced bound
    refine ⟨large, lower, free.bounded, ?_⟩
    exact List.ne_nil_of_mem ((rep.listed large free.bounded head).mpr free)

theorem Ready.alloc_returns {state : PhysState} {order flags fuel : Nat} (ready : Ready state)
    (bound : order ≤ maxOrder) (valid : ValidFlags flags) (enough : maxOrder < fuel)
    (freeRun : ∃ first, FreeRun state first order) :
    ∃ block after type, run (physAllocBlock fuel order flags) (idle state) =
        .returned block (idle after) ∧ allocFlagsToPhysblockType flags = .ok type ∧
      Allocated state after block order type := by
  obtain ⟨heads, rep⟩ := ready.rep
  obtain ⟨type, flagsOk⟩ := valid.type
  have spec : wp (whole.contract fun _ => False) (physAllocBlock fuel order flags) state ∅
      fun block after held => held = ∅ ∧ Allocated state after block order type :=
    wp_physAllocBlock rep bound (Or.inl enough)
      ((available_iff rep ready.coalesced bound).mpr freeRun) flagsOk
      fun block after allocated => ⟨rfl, allocated⟩
  obtain ⟨block, after, held, same, rfl, allocated⟩ := run_returns spec
  exact ⟨block, after, type, same, flagsOk, allocated⟩

theorem Ready.alloc_panics {state : PhysState} {order flags fuel : Nat} (ready : Ready state)
    (bound : order ≤ maxOrder) (enough : maxOrder < fuel)
    (noRun : ¬∃ first, FreeRun state first order) :
    ∃ reason, run (physAllocBlock fuel order flags) (idle state) = .failed (.panic reason) := by
  obtain ⟨heads, rep⟩ := ready.rep
  have spec : wp (whole.contract fun stop => ∃ reason, stop = .panic reason)
      (physAllocBlock fuel order flags) state ∅ fun _ _ _ => False :=
    wp_physAllocBlock_panics rep bound (Or.inl (by omega))
      (fun available => noRun ((available_iff rep ready.coalesced bound).mp available))
      fun reason => ⟨reason, rfl⟩
  rcases run_of_wp (describes_self _ _) spec with ⟨_, _, _, _, wrong⟩ | ⟨_, same, reason, rfl⟩
  · exact absurd wrong id
  · exact ⟨reason, same⟩

theorem reachable_coalesced_and_panics_iff {machine : PhysMachine}
    (reachable : Reachable machine) :
    (∀ head order, order < maxOrder → IsFree machine.data head order →
      IsFree machine.data (head ^^^ 2 ^ order) order →
      ¬SameSpan machine.data.spans head (head ^^^ 2 ^ order)) ∧
    ∀ order flags fuel, order ≤ maxOrder → ValidFlags flags → maxOrder < fuel →
      ((∃ reason, run (physAllocBlock fuel order flags) machine = .failed (.panic reason)) ↔
        ¬∃ first, FreeRun machine.data first order) ∧
      ((∃ first, FreeRun machine.data first order) →
        ∃ block after, run (physAllocBlock fuel order flags) machine =
          .returned block after) := by
  obtain ⟨state, rfl, ready⟩ := reachable.ready
  refine ⟨?_, ?_⟩
  · intro head order below left right together
    exact ready.coalesced head order ⟨below, together, left, right⟩
  · intro order flags fuel bound valid enough
    refine ⟨⟨?_, ready.alloc_panics bound enough⟩, ?_⟩
    · rintro ⟨reason, failed⟩ freeRun
      obtain ⟨block, after, _, returned, _⟩ := ready.alloc_returns bound valid enough freeRun
      rw [failed] at returned
      cases returned
    · intro freeRun
      obtain ⟨block, after, _, returned, _⟩ := ready.alloc_returns bound valid enough freeRun
      exact ⟨block, idle after, returned⟩

theorem two_pages_panics_iff :
    ∃ machine, Reachable machine ∧ machine.data.spans = [⟨0, 2⟩] ∧
      ∀ order flags fuel, order ≤ maxOrder → ValidFlags flags → maxOrder < fuel →
        ((∃ reason, run (physAllocBlock fuel order flags) machine = .failed (.panic reason)) ↔
          ¬∃ first, FreeRun machine.data first order) := by
  have ok := unusedEarlyState_ok (by decide : 2 ≤ 2 ^ 52)
  obtain ⟨state, returned, spans, _⟩ := handover_returns ok ⟨id, id⟩
  have reachable : Reachable (idle state) := .init ok returned
  refine ⟨idle state, reachable, spans, ?_⟩
  intro order flags fuel bound valid enough
  exact ((reachable_coalesced_and_panics_iff reachable).2 order flags fuel bound valid enough).1

/-! ## Pages that stand for their block -/

/-- The page leads to the head of its block, and freeing it frees the block. -/
def StandsForBlock (machine : PhysMachine) (head pfn : Nat) : Prop :=
  (∃ after, run (pfnToPhysblockLock pfn) machine = .returned head after) ∧
  ((machine.data.physblocks head).kind ≠ physblockFree →
    run (physFreePfn pfn) machine = run (physFreePfn head) machine)

theorem run_pfnToPhysblockLock (state : PhysState) (pfn : Nat) :
    run (pfnToPhysblockLock pfn) (idle state) =
      .returned (state.headOf pfn)
        (Machine.holding state {.physblock (state.headOf pfn)}) := by
  have spec : wp (whole.contract fun _ => False) (pfnToPhysblockLock pfn) state ∅
      fun block after held => block = state.headOf pfn ∧ after = state ∧
        held = {.physblock (state.headOf pfn)} :=
    wp_pfnToPhysblockLock trivial trivial (by simp) (by simp) ⟨rfl, rfl, rfl⟩
  obtain ⟨_, _, _, same, rfl, rfl, rfl⟩ := run_returns spec
  exact same

theorem run_physFreePfn_congr {state : PhysState} {pfn other : Nat}
    (same : state.headOf pfn = state.headOf other) :
    run (physFreePfn pfn) (idle state) = run (physFreePfn other) (idle state) := by
  rw [physFreePfn, physFreePfn, run_bind, run_bind, run_pfnToPhysblockLock,
    run_pfnToPhysblockLock, same]

section StandsForBlock

variable {state : PhysState} {head order pfn : Nat}

theorem Ready.free_far (ready : Ready state) (block : IsBlock state head order)
    (covers : Covers head order pfn) (far : 2 ^ 8 ≤ pfn - head) :
    run (physFreePfn pfn) (idle state) = .returned () (idle state) := by
  obtain ⟨heads, rep⟩ := ready.rep
  have spec : wp (whole.contract fun _ => False) (physFreePfn pfn) state ∅
      fun _ after held => after = state ∧ held = ∅ :=
    wp_physFreePfn_unused (headOf_far rep block covers far).2.2 ⟨rfl, rfl⟩
  obtain ⟨_, _, _, same, rfl, rfl⟩ := run_returns spec
  exact same

theorem Ready.free_head (ready : Ready state) (block : IsBlock state head order)
    (allocated : (state.physblocks head).kind ≠ physblockFree) :
    ∃ after, run (physFreePfn head) (idle state) = .returned () (idle after) ∧
      head ∈ freePages after := by
  have near : head - head < 2 ^ 8 := by omega
  have spec : wp (whole.contract fun _ => False) (physFreePfn head) state ∅
      fun _ after held => held = ∅ ∧ head ∈ freePages after := by
    apply wp_physFreePfn_last ready block (covers_head head order) near allocated
    intro after compacted
    refine ⟨rfl, ?_⟩
    rw [compacted.pages]
    exact (freed_isFree block).subset_freePages (covers_head head order)
  obtain ⟨_, after, _, same, rfl, free⟩ := run_returns spec
  exact ⟨after, same, free⟩

theorem Ready.standsForBlock_iff (ready : Ready state) (block : IsBlock state head order)
    (covers : Covers head order pfn) :
    StandsForBlock (idle state) head pfn ↔ pfn - head < 2 ^ 8 := by
  obtain ⟨heads, rep⟩ := ready.rep
  constructor
  · rintro ⟨⟨after, leads⟩, _⟩
    by_contra far
    rw [run_pfnToPhysblockLock] at leads
    cases leads
    exact (headOf_far rep block covers (by omega)).1 rfl
  · intro near
    have lead := headOf_near rep block covers near
    have headLead := headOf_near rep block (covers_head head order) (by omega)
    refine ⟨⟨Machine.holding state {.physblock head}, ?_⟩, fun _ => ?_⟩
    · rw [run_pfnToPhysblockLock, lead]
    · exact run_physFreePfn_congr (lead.trans headLead.symm)

/-- The second half of `StandsForBlock` alone already fails for the far pages. -/
theorem Ready.free_same_iff (ready : Ready state) (block : IsBlock state head order)
    (covers : Covers head order pfn)
    (allocated : (state.physblocks head).kind ≠ physblockFree) :
    run (physFreePfn pfn) (idle state) = run (physFreePfn head) (idle state) ↔
      pfn - head < 2 ^ 8 := by
  constructor
  · intro same
    by_contra far
    obtain ⟨heads, rep⟩ := ready.rep
    obtain ⟨after, returned, free⟩ := ready.free_head block allocated
    rw [ready.free_far block covers (by omega), returned] at same
    injection same with _ equal
    have unchanged : state = after := congrArg Machine.data equal
    subst after
    have type := (block.freePage_iff (covers_head head order)).mp (Finset.mem_filter.mp free).2
    exact allocated (free_kind type)
  · intro near
    exact ((ready.standsForBlock_iff block covers).mpr near).2 allocated

end StandsForBlock

theorem reachable_standsForBlock_iff {machine : PhysMachine} (reachable : Reachable machine)
    {head order pfn : Nat} (block : IsBlock machine.data head order)
    (covers : Covers head order pfn) :
    (StandsForBlock machine head pfn ↔ pfn - head < 2 ^ 8) ∧
      ((machine.data.physblocks head).kind ≠ physblockFree →
        (run (physFreePfn pfn) machine = run (physFreePfn head) machine ↔
          pfn - head < 2 ^ 8)) := by
  obtain ⟨state, rfl, ready⟩ := reachable.ready
  exact ⟨ready.standsForBlock_iff block covers, ready.free_same_iff block covers⟩

theorem unused_freePages {numPages : Nat} {state : PhysState} {total : Nat}
    (ok : Early.SpansOk (unusedEarlyState numPages).spans)
    (settled : Settled (plannedRecord (unusedEarlyState numPages).spans) state
      (managedPages [⟨0, numPages⟩]) total) :
    freePages state = Finset.Ico 0 numPages := by
  rw [settled.pages]
  ext pfn
  rw [Finset.mem_filter, mem_managedPages, Finset.mem_Ico]
  constructor
  · rintro ⟨⟨span, member, bounds⟩, _⟩
    simp only [List.mem_singleton] at member
    rw [member] at bounds
    simp only [PhysAllocSpan.Contains] at bounds
    omega
  · intro bounds
    refine ⟨⟨_, List.mem_singleton_self _, ?_⟩, ?_⟩
    · simp only [PhysAllocSpan.Contains]
      omega
    · have atPage : (unusedSpan 0 numPages).pfn pfn = pfn := by
        simp [Early.PageAllocSpan.pfn, unusedSpan, physToPfn]
      have planned := plannedRecord_eq ok (List.mem_singleton_self (unusedSpan 0 numPages))
        (by simpa [unusedSpan] using bounds.2 : pfn < (unusedSpan 0 numPages).numPages)
      rw [atPage] at planned
      rw [planned]
      simp [Early.PageAllocSpan.record, Early.PageAllocSpan.pageType, unusedSpan, Bitmap.isSet,
        Physblock.kind, physblockUnmanaged]

theorem unused_handover {numPages : Nat} (small : numPages ≤ 2 ^ 52) :
    ∃ state, run (handover (unusedEarlyState numPages)) (idle (PhysState.zeroed ⟨id, id⟩)) =
        .returned () (idle state) ∧
      state.spans = [⟨0, numPages⟩] ∧ freePages state = Finset.Ico 0 numPages := by
  have ok := unusedEarlyState_ok small
  obtain ⟨state, returned, spans, settled⟩ := handover_returns ok ⟨id, id⟩
  have shape : (unusedEarlyState numPages).spans.map (·.toPhys) = [⟨0, numPages⟩] := by
    simp [unusedEarlyState, unusedSpan, Early.PageAllocSpan.toPhys, physToPfn]
  rw [shape] at spans settled
  exact ⟨state, returned, spans, unused_freePages ok settled⟩

theorem Reachable.idle_ready {state : PhysState} (reachable : Reachable (idle state)) :
    Ready state := by
  obtain ⟨_, same, ready⟩ := reachable.ready
  cases congrArg Machine.data same
  exact ready

theorem unused_reachable {numPages : Nat} (small : numPages ≤ 2 ^ 52) :
    ∃ state, Reachable (idle state) ∧ Ready state ∧ state.spans = [⟨0, numPages⟩] ∧
      freePages state = Finset.Ico 0 numPages := by
  obtain ⟨state, returned, spans, pages⟩ := unused_handover small
  have reachable : Reachable (idle state) := .init (unusedEarlyState_ok small) returned
  exact ⟨state, reachable, reachable.idle_ready, spans, pages⟩

theorem unused_freeRun {state : PhysState} {numPages order : Nat} (ready : Ready state)
    (spans : state.spans = [⟨0, numPages⟩]) (pages : freePages state = Finset.Ico 0 numPages)
    (fits : 2 ^ order ≤ numPages) : FreeRun state 0 order := by
  obtain ⟨heads, rep⟩ := ready.rep
  refine ⟨Nat.dvd_zero _, ⟨⟨0, numPages⟩, by simp [spans], by simp [PhysAllocSpan.Contains, fits]⟩, ?_⟩
  intro pfn covers
  rw [← mem_freePages_iff rep.covered, pages, Finset.mem_Ico]
  simp only [Covers] at covers
  omega

theorem Allocated.eq_zero {before after : PhysState} {block order type : Nat}
    (allocated : Allocated before after block order type)
    (pages : freePages before = Finset.Ico 0 (2 ^ order)) : block = 0 := by
  have subset := allocated.wasFree
  have positive := Nat.two_pow_pos order
  rw [pages] at subset
  have last := subset (Finset.mem_Ico.mpr ⟨by omega, by omega⟩ : block + (2 ^ order - 1) ∈ _)
  rw [Finset.mem_Ico] at last
  omega

theorem reachable_order_nine :
    ∃ machine, Reachable machine ∧ IsBlock machine.data 0 9 ∧
      (machine.data.physblocks 0).kind ≠ physblockFree := by
  obtain ⟨state, reachable, ready, spans, pages⟩ := unused_reachable (by decide : 512 ≤ 2 ^ 52)
  have freeRun : FreeRun state 0 9 := unused_freeRun ready spans pages (by decide)
  have valid : ValidFlags allocKernel := Or.inl (by decide)
  obtain ⟨block, after, type, allocReturned, _, allocated⟩ :=
    ready.alloc_returns (by decide) valid (by decide : maxOrder < 13) ⟨0, freeRun⟩
  obtain rfl := allocated.eq_zero pages
  refine ⟨idle after, .alloc reachable (by decide) valid allocReturned, allocated.isBlock, ?_⟩
  intro free
  have notFree : 0 ∉ freePages after := by
    rw [allocated.pages]
    simp
  obtain ⟨newHeads, newRep⟩ := allocated.rep
  have type := (newRep.headsOk 0 9 allocated.isBlock).free_iff.mp free
  exact notFree (IsFree.subset_freePages ⟨allocated.isBlock, type⟩ (covers_head 0 9))

theorem far_page_not_standsForBlock :
    ∃ machine, Reachable machine ∧ IsBlock machine.data 0 9 ∧ Covers 0 9 256 ∧
      (machine.data.physblocks 0).kind ≠ physblockFree ∧
      (¬∃ after, run (pfnToPhysblockLock 256) machine = .returned 0 after) ∧
      run (physFreePfn 256) machine ≠ run (physFreePfn 0) machine := by
  obtain ⟨machine, reachable, block, allocated⟩ := reachable_order_nine
  obtain ⟨state, rfl, ready⟩ := reachable.ready
  have covers : Covers 0 9 256 := by decide
  have far : ¬256 - 0 < 2 ^ 8 := by decide
  obtain ⟨heads, rep⟩ := ready.rep
  refine ⟨idle state, reachable, block, covers, allocated, ?_, ?_⟩
  · rintro ⟨after, leads⟩
    rw [run_pfnToPhysblockLock] at leads
    injection leads with same _
    exact (headOf_far rep block covers (by decide)).1 same
  · exact fun same => far ((ready.free_same_iff block covers allocated).mp same)

theorem order_nine_standsForBlock_iff :
    ∃ machine, Reachable machine ∧ IsBlock machine.data 0 9 ∧
      ∀ pfn, Covers 0 9 pfn → (StandsForBlock machine 0 pfn ↔ pfn - 0 < 2 ^ 8) := by
  obtain ⟨machine, reachable, block, _⟩ := reachable_order_nine
  exact ⟨machine, reachable, block, fun pfn covers =>
    (reachable_standsForBlock_iff reachable block covers).1⟩

end Zeptux.Phys
