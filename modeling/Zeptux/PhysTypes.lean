import Mathlib.Algebra.BigOperators.Group.Finset.Piecewise
import Zeptux.PhysCalls
import Zeptux.PhysOwned

/-!
The counters of page table and physblock pages. They count the blocks of a type, not their
4 KiB pages: `Tallied` is what holds in every reachable state, and `TypesCounted` what the
statistics are documented to say.
-/

namespace Zeptux.Phys

open Dyadic IntrusiveRing LockProgram Word Footprint

def recordsOf (state : PhysState) (kind : Nat) : Finset Nat :=
  (managedPages state.spans).filter fun pfn => (state.physblocks pfn).kind = kind

structure Tallied (state : PhysState) : Prop where
  pagetables : state.stats.numPagetablePages = (recordsOf state physblockPagetable).card
  physblocks : state.stats.numPhysblockPages = (recordsOf state physblockPhysblock).card

def Counted (kind : Nat) : Prop := kind ≠ physblockFree ∧ kind ≠ physblockTail

theorem counted_pagetable : Counted physblockPagetable := by
  constructor <;> decide

theorem counted_physblock : Counted physblockPhysblock := by
  constructor <;> decide

section Records

variable {before after : PhysState} {heads : Nat → List Nat} {kind pfn : Nat}

theorem mem_recordsOf {state : PhysState} :
    pfn ∈ recordsOf state kind ↔
      Managed state.spans pfn ∧ (state.physblocks pfn).kind = kind := by
  rw [recordsOf, Finset.mem_filter, mem_managedPages]

theorem Rep.free_not_recordsOf (rep : Rep before heads) (counted : Counted kind)
    (free : pfn ∈ freePages before) : pfn ∉ recordsOf before kind := by
  obtain ⟨head, order, isFree, covers⟩ := (mem_freePages_iff rep.covered).mp free
  intro member
  obtain ⟨_, same⟩ := mem_recordsOf.mp member
  rcases isFree.toIsBlock.head_or_tail covers with rfl | tail
  · exact counted.1 (same.symm.trans (free_kind isFree.headType))
  · exact counted.2 (same.symm.trans tail.kind)

theorem recordsOf_congr {sequences : Nat → List Nat} (rep : Rep before heads)
    (afterRep : Rep after sequences) (counted : Counted kind)
    (spans : after.spans = before.spans) (pages : freePages after = freePages before)
    (outside : ∀ pfn, pfn ∉ freePages before → after.physblocks pfn = before.physblocks pfn) :
    recordsOf after kind = recordsOf before kind := by
  ext pfn
  by_cases free : pfn ∈ freePages before
  · exact iff_of_false (afterRep.free_not_recordsOf counted (pages ▸ free))
      (rep.free_not_recordsOf counted free)
  · rw [mem_recordsOf, mem_recordsOf, spans, outside pfn free]

theorem Rep.recordsOf_card_le (rep : Rep before heads) :
    (recordsOf before kind).card ≤ 2 ^ 52 :=
  Nat.le_trans (Finset.card_le_card (Finset.filter_subset _ _)) (managedPages_card_le rep.spansOk)

/-! ## The calls keep the tally -/

theorem Allocated.not_recorded {block order type : Nat} (rep : Rep before heads)
    (counted : Counted kind) (allocated : Allocated before after block order type) :
    block ∉ recordsOf before kind :=
  rep.free_not_recordsOf counted
    (allocated.wasFree (Finset.mem_Ico.mpr (covers_head block order)))

theorem Allocated.recordsOf_eq {block order type : Nat} (rep : Rep before heads)
    (counted : Counted kind) (allocated : Allocated before after block order type) :
    recordsOf after kind =
      if type &&& physblockTypeMask = kind then insert block (recordsOf before kind)
      else recordsOf before kind := by
  obtain ⟨sequences, afterRep⟩ := allocated.rep
  have atBlock : block ∈ recordsOf after kind ↔ type &&& physblockTypeMask = kind := by
    rw [mem_recordsOf, Physblock.kind, allocated.headType]
    exact and_iff_right (allocated.isBlock.managed (covers_head block order))
  have elsewhere : ∀ pfn, pfn ≠ block → (pfn ∈ recordsOf after kind ↔ pfn ∈ recordsOf before kind) := by
    intro pfn different
    by_cases wasFree : pfn ∈ freePages before
    · refine iff_of_false ?_ (rep.free_not_recordsOf counted wasFree)
      by_cases inside : pfn ∈ Finset.Ico block (block + 2 ^ order)
      · have tail := (allocated.isBlock.head_or_tail (Finset.mem_Ico.mp inside)).resolve_left different
        exact fun member => counted.2 ((mem_recordsOf.mp member).2.symm.trans tail.kind)
      · apply afterRep.free_not_recordsOf counted
        rw [allocated.pages]
        exact Finset.mem_sdiff.mpr ⟨wasFree, inside⟩
    · rw [mem_recordsOf, mem_recordsOf, allocated.spans, allocated.outside pfn wasFree]
  have fresh := allocated.not_recorded rep counted
  ext pfn
  by_cases same : pfn = block
  · subst same
    rw [atBlock]
    split
    · simp [*]
    · simp [*]
  · rw [elsewhere pfn same]
    split
    · simp [same]
    · rfl

theorem Compacted.recordsOf_eq {head order : Nat} (rep : Rep before heads)
    (block : IsBlock before head order) (notFree : (before.physblocks head).type ≠ physblockFree)
    (counted : Counted kind) (compacted : Compacted (before.freed head) after head) :
    recordsOf after kind = (recordsOf before kind).erase head := by
  obtain ⟨sequences, afterRep⟩ := compacted.rep
  rw [recordsOf_congr (freed_rep rep block notFree) afterRep counted compacted.spans
    compacted.pages compacted.outside]
  ext pfn
  have spans : (before.freed head).spans = before.spans := rfl
  rw [Finset.mem_erase, mem_recordsOf, mem_recordsOf, freed_physblocks, spans]
  by_cases same : pfn = head
  · have free : (Physblock.mk (before.physblocks head).headOffset (before.physblocks head).order
        physblockFree 0).kind ≠ kind := fun wrong => counted.1 (wrong.symm.trans (free_kind rfl))
    simp [same, free]
  · simp [same]

theorem countFreedType_numPagetablePages (type : Nat) (stats : PhysAllocStats) :
    (countFreedType type stats).numPagetablePages =
      if type = physblockPagetable then sub64 stats.numPagetablePages 1
      else stats.numPagetablePages := by
  unfold countFreedType
  split
  · rfl
  · split <;> rfl

theorem countFreedType_numPhysblockPages (type : Nat) (stats : PhysAllocStats) :
    (countFreedType type stats).numPhysblockPages =
      if type = physblockPhysblock then sub64 stats.numPhysblockPages 1
      else stats.numPhysblockPages := by
  unfold countFreedType
  split
  · next pagetable =>
    rw [if_neg]
    rintro rfl
    exact absurd pagetable (by decide)
  · split <;> rfl

theorem Allocated.card_recordsOf {block order type : Nat} (rep : Rep before heads)
    (counted : Counted kind) (allocated : Allocated before after block order type) :
    (recordsOf after kind).card =
      if type &&& physblockTypeMask = kind then add64 (recordsOf before kind).card 1
      else (recordsOf before kind).card := by
  have limit : (recordsOf before kind).card ≤ 2 ^ 52 := rep.recordsOf_card_le
  rw [allocated.recordsOf_eq rep counted]
  split
  · rw [Finset.card_insert_of_notMem (allocated.not_recorded rep counted), add64_eq (by omega)]
  · rfl

theorem Compacted.card_recordsOf {head order : Nat} (rep : Rep before heads)
    (block : IsBlock before head order) (notFree : (before.physblocks head).type ≠ physblockFree)
    (counted : Counted kind) (compacted : Compacted (before.freed head) after head) :
    (recordsOf after kind).card =
      if (before.physblocks head).kind = kind then sub64 (recordsOf before kind).card 1
      else (recordsOf before kind).card := by
  have limit : (recordsOf before kind).card ≤ 2 ^ 52 := rep.recordsOf_card_le
  have managed := block.managed (covers_head head order)
  rw [compacted.recordsOf_eq rep block notFree counted]
  split
  · next same =>
    have member := mem_recordsOf.mpr ⟨managed, same⟩
    have positive := Finset.card_pos.mpr ⟨head, member⟩
    rw [Finset.card_erase_of_mem member, sub64_eq positive (by omega)]
  · next different =>
    rw [Finset.erase_eq_of_notMem fun member => different (mem_recordsOf.mp member).2]

theorem Allocated.tallied {block order type : Nat} (rep : Rep before heads)
    (tallied : Tallied before) (allocated : Allocated before after block order type) :
    Tallied after := by
  obtain ⟨_, pagetables, physblocks⟩ := allocated.usage
  constructor
  · rw [pagetables, countPreservedType_numPagetablePages, tallied.pagetables,
      allocated.card_recordsOf rep counted_pagetable]
  · rw [physblocks, countPreservedType_numPhysblockPages, tallied.physblocks,
      allocated.card_recordsOf rep counted_physblock]

theorem Compacted.tallied {head order : Nat} (rep : Rep before heads)
    (block : IsBlock before head order) (notFree : (before.physblocks head).type ≠ physblockFree)
    (tallied : Tallied before) (compacted : Compacted (before.freed head) after head) :
    Tallied after := by
  obtain ⟨_, pagetables, physblocks⟩ := compacted.usage
  constructor
  · rw [pagetables, compacted.card_recordsOf rep block notFree counted_pagetable,
      ← tallied.pagetables]
    exact countFreedType_numPagetablePages _ _
  · rw [physblocks, compacted.card_recordsOf rep block notFree counted_physblock,
      ← tallied.physblocks]
    exact countFreedType_numPhysblockPages _ _

theorem FreedPage.tallied (ready : Ready before) (tallied : Tallied before)
    (freed : FreedPage before pfn after) : Tallied after := by
  obtain ⟨heads, rep⟩ := ready.rep
  cases freed with
  | unused _ => exact tallied
  | last block _ _ allocated compacted =>
      exact compacted.tallied rep block (fun free => allocated (free_kind free)) tallied

end Records

theorem Settled.tallied {plan : Nat → Physblock} {state : PhysState} {total : Nat}
    (settled : Settled plan state (managedPages state.spans) total) : Tallied state := by
  obtain ⟨heads, rep⟩ := settled.rep
  have same : ∀ kind, Counted kind → kind ≠ physblockUnmanaged →
      recordsOf state kind =
        (managedPages state.spans).filter fun pfn => (plan pfn).kind = kind := by
    intro kind counted managed
    ext pfn
    by_cases free : pfn ∈ freePages state
    · refine iff_of_false (rep.free_not_recordsOf counted free) fun planned => ?_
      rw [settled.pages] at free
      exact managed ((Finset.mem_filter.mp planned).2.symm.trans (Finset.mem_filter.mp free).2)
    · rw [recordsOf, Finset.mem_filter, Finset.mem_filter, settled.kept pfn free]
  constructor
  · rw [settled.pagetables, same _ counted_pagetable (by decide)]
  · rw [settled.physblocks, same _ counted_physblock (by decide)]

theorem Reachable.tallied {machine : PhysMachine} (reachable : Reachable machine) :
    Tallied machine.data := by
  induction reachable with
  | init ok returned =>
      obtain ⟨after, rfl, _, settled⟩ := handover_ok ok returned
      exact settled.tallied
  | alloc earlier bound valid returned ih =>
      obtain ⟨state, rfl, ready⟩ := earlier.ready
      obtain ⟨heads, rep⟩ := ready.rep
      obtain ⟨after, type, rfl, _, allocated⟩ := ready.alloc_ok bound valid returned
      exact allocated.tallied rep ih
  | free earlier managed returned ih =>
      obtain ⟨state, rfl, ready⟩ := earlier.ready
      obtain ⟨after, rfl, freed⟩ := ready.free_ok managed returned
      exact freed.tallied ready ih

/-! ## What the statistics are documented to say -/

/-- `count` is the number of 4 KiB pages in the blocks of some types. -/
def PagesCounted (state : PhysState) (Kind : Nat → Prop) (count : Nat) : Prop :=
  ∃ pages : Finset Nat, pages.card = count ∧ ∀ pfn, pfn ∈ pages ↔
    ∃ head order, IsBlock state head order ∧ Kind (state.physblocks head).kind ∧
      Covers head order pfn

/-- What `prelude` prints as `rest`. -/
def PhysAllocStats.rest (stats : PhysAllocStats) : Nat :=
  sub64 (sub64 (sub64 stats.num4kPages stats.numFree4kPages) stats.numPagetablePages)
    stats.numPhysblockPages

def RestKind (kind : Nat) : Prop :=
  kind ≠ physblockFree ∧ kind ≠ physblockPagetable ∧ kind ≠ physblockPhysblock

instance : DecidablePred RestKind := fun _ => inferInstanceAs (Decidable (_ ∧ _ ∧ _))

structure TypesCounted (state : PhysState) : Prop where
  pagetables : PagesCounted state (· = physblockPagetable) state.stats.numPagetablePages
  physblocks : PagesCounted state (· = physblockPhysblock) state.stats.numPhysblockPages
  rest : PagesCounted state RestKind state.stats.rest

/-- Every block that holds page tables or physblocks is a single page. -/
def SinglePages (state : PhysState) : Prop :=
  ∀ head order, IsBlock state head order →
    (state.physblocks head).kind = physblockPagetable ∨
      (state.physblocks head).kind = physblockPhysblock → order = 0

section Pages

variable {state : PhysState} {heads : Nat → List Nat} {kind pfn count : Nat}

def pagesOf (state : PhysState) (Kind : Nat → Prop) [DecidablePred Kind] : Finset Nat :=
  (managedPages state.spans).filter fun pfn =>
    Kind (state.physblocks (pfn - (state.physblocks pfn).headOffset)).kind

theorem Rep.mem_pagesOf (rep : Rep state heads) {Kind : Nat → Prop} [DecidablePred Kind] :
    pfn ∈ pagesOf state Kind ↔ ∃ head order, IsBlock state head order ∧
      Kind (state.physblocks head).kind ∧ Covers head order pfn := by
  rw [pagesOf, Finset.mem_filter, mem_managedPages]
  constructor
  · rintro ⟨managed, kind⟩
    obtain ⟨head, order, block, covers⟩ := rep.covered pfn managed
    have offset := block.offset covers
    rw [show pfn - (state.physblocks pfn).headOffset = head by omega] at kind
    exact ⟨head, order, block, kind, covers⟩
  · rintro ⟨head, order, block, kind, covers⟩
    have offset := block.offset covers
    rw [show pfn - (state.physblocks pfn).headOffset = head by omega]
    exact ⟨block.managed covers, kind⟩

theorem Rep.pagesCounted_iff (rep : Rep state heads) {Kind : Nat → Prop} [DecidablePred Kind] :
    PagesCounted state Kind count ↔ (pagesOf state Kind).card = count := by
  constructor
  · rintro ⟨pages, rfl, member⟩
    congr 1
    ext pfn
    rw [rep.mem_pagesOf, member]
  · intro card
    exact ⟨pagesOf state Kind, card, fun pfn => rep.mem_pagesOf⟩

theorem Rep.recordsOf_subset (rep : Rep state heads) (counted : Counted kind) :
    recordsOf state kind ⊆ pagesOf state (· = kind) := by
  intro pfn member
  obtain ⟨managed, same⟩ := mem_recordsOf.mp member
  obtain ⟨head, order, block, covers⟩ := rep.covered pfn managed
  rcases block.head_or_tail covers with rfl | tail
  · exact rep.mem_pagesOf.mpr ⟨pfn, order, block, same, covers⟩
  · exact absurd (same.symm.trans tail.kind) counted.2

theorem Rep.card_recordsOf_iff (rep : Rep state heads) (counted : Counted kind) :
    (pagesOf state (· = kind)).card = (recordsOf state kind).card ↔
      ∀ head order, IsBlock state head order → (state.physblocks head).kind = kind →
        order = 0 := by
  constructor
  · intro card head order block same
    by_contra compound
    have covers : Covers head order (head + 1) := by
      have pair : 2 ^ 1 ≤ 2 ^ order := Nat.pow_le_pow_right (by omega) (by omega)
      exact ⟨by omega, by omega⟩
    have member : head + 1 ∈ recordsOf state kind := by
      rw [Finset.eq_of_subset_of_card_le (rep.recordsOf_subset counted) (Nat.le_of_eq card)]
      exact rep.mem_pagesOf.mpr ⟨head, order, block, same, covers⟩
    have tail := (block.head_or_tail covers).resolve_left (by omega)
    exact counted.2 ((mem_recordsOf.mp member).2.symm.trans tail.kind)
  · intro single
    congr 1
    refine Finset.Subset.antisymm (fun pfn member => ?_) (rep.recordsOf_subset counted)
    obtain ⟨head, order, block, same, covers⟩ := rep.mem_pagesOf.mp member
    obtain rfl := single head order block same
    have atHead : pfn = head := by
      simp only [Covers] at covers
      omega
    rw [atHead]
    exact mem_recordsOf.mpr ⟨block.managed (covers_head head 0), same⟩

theorem Rep.freePage_iff (rep : Rep state heads) (managed : Managed state.spans pfn) :
    FreePage state pfn ↔
      (state.physblocks (pfn - (state.physblocks pfn).headOffset)).kind = physblockFree := by
  obtain ⟨head, order, block, covers⟩ := rep.covered pfn managed
  have offset := block.offset covers
  rw [block.freePage_iff covers, show pfn - (state.physblocks pfn).headOffset = head by omega]
  exact (rep.headsOk head order block).free_iff.symm

theorem Rep.rest_card (rep : Rep state heads) :
    (freePages state).card + (pagesOf state (· = physblockPagetable)).card +
        (pagesOf state (· = physblockPhysblock)).card + (pagesOf state RestKind).card =
      (managedPages state.spans).card := by
  simp only [freePages, pagesOf, Finset.card_filter]
  rw [← Finset.sum_add_distrib, ← Finset.sum_add_distrib, ← Finset.sum_add_distrib,
    Finset.card_eq_sum_ones]
  apply Finset.sum_congr rfl
  intro pfn member
  rw [mem_managedPages] at member
  simp only [rep.freePage_iff member]
  generalize (state.physblocks (pfn - (state.physblocks pfn).headOffset)).kind = kind
  by_cases free : kind = physblockFree
  · subst free
    decide
  · by_cases pagetable : kind = physblockPagetable
    · subst pagetable
      decide
    · by_cases physblock : kind = physblockPhysblock
      · subst physblock
        decide
      · simp [free, pagetable, physblock, RestKind]

theorem Ready.rest_eq (ready : Ready state) (tallied : Tallied state) :
    state.stats.rest + (recordsOf state physblockPagetable).card +
      (recordsOf state physblockPhysblock).card + (freePages state).card =
        (managedPages state.spans).card := by
  obtain ⟨heads, rep⟩ := ready.rep
  have total := rep.rest_card
  have pagetables := Finset.card_le_card (rep.recordsOf_subset counted_pagetable)
  have physblocks := Finset.card_le_card (rep.recordsOf_subset counted_physblock)
  have limit := managedPages_card_le rep.spansOk
  have used : sub64 (managedPages state.spans).card (freePages state).card =
      (managedPages state.spans).card - (freePages state).card := sub64_eq (by omega) (by omega)
  rw [PhysAllocStats.rest, ready.num4kPages, rep.freeCount, tallied.pagetables, tallied.physblocks,
    used]
  generalize (managedPages state.spans).card = managed at *
  generalize (freePages state).card = free at *
  have others : sub64 (managed - free) (recordsOf state physblockPagetable).card =
      managed - free - (recordsOf state physblockPagetable).card :=
    sub64_eq (by omega) (by omega)
  rw [others, sub64_eq (by omega) (by omega)]
  omega

theorem Ready.typesCounted_iff (ready : Ready state) (tallied : Tallied state) :
    TypesCounted state ↔ SinglePages state := by
  obtain ⟨heads, rep⟩ := ready.rep
  have pagetables := rep.card_recordsOf_iff counted_pagetable
  have physblocks := rep.card_recordsOf_iff counted_physblock
  constructor
  · intro counted head order block kind
    have manyPagetables := rep.pagesCounted_iff.mp counted.pagetables
    have manyPhysblocks := rep.pagesCounted_iff.mp counted.physblocks
    rw [tallied.pagetables] at manyPagetables
    rw [tallied.physblocks] at manyPhysblocks
    rcases kind with same | same
    · exact pagetables.mp manyPagetables head order block same
    · exact physblocks.mp manyPhysblocks head order block same
  · intro single
    have onePagetable := pagetables.mpr fun head order block same =>
      single head order block (Or.inl same)
    have onePhysblock := physblocks.mpr fun head order block same =>
      single head order block (Or.inr same)
    refine ⟨rep.pagesCounted_iff.mpr ?_, rep.pagesCounted_iff.mpr ?_, rep.pagesCounted_iff.mpr ?_⟩
    · rw [tallied.pagetables]
      exact onePagetable
    · rw [tallied.physblocks]
      exact onePhysblock
    · have total := rep.rest_card
      have printed := ready.rest_eq tallied
      omega

end Pages

/-! ## Runs -/

theorem allocFlagsToPhysblockType_single {flags type : Nat}
    (valid : allocFlagsToPhysblockType flags = .ok type) :
    (type &&& physblockTypeMask = physblockPagetable ∨
        type &&& physblockTypeMask = physblockPhysblock) ↔
      (flags &&& allocTypeMask = allocPagetable ∨ flags &&& allocTypeMask = allocPhysblock) := by
  rcases allocFlagsToPhysblockType_kind valid with
    ⟨request, kind⟩ | ⟨request, kind⟩ | ⟨request, kind⟩ | ⟨request, kind⟩ <;>
  · rw [request, kind]
    decide

section Single

variable {before after : PhysState} {pfn : Nat}

theorem SinglePages.of_live (single : ∀ head order, Live after head order →
      (after.physblocks head).kind = physblockPagetable ∨
        (after.physblocks head).kind = physblockPhysblock → order = 0) : SinglePages after := by
  intro head order block kind
  refine single head order ⟨block, ?_⟩ kind
  rcases kind with same | same
  · rw [same]
    decide
  · rw [same]
    decide

theorem Settled.singlePages {plan : Nat → Physblock} {total : Nat}
    (settled : Settled plan after (managedPages after.spans) total) : SinglePages after := by
  apply SinglePages.of_live
  intro head order live _
  have used := live.not_mem_freePages (covers_head head order)
  have managed := live.isBlock.managed (covers_head head order)
  have single := settled.isBlock managed (settled.kept head used)
  exact (live.isBlock.unique single (covers_head _ _) (covers_head _ _)).2

theorem Allocated.singlePages {block large flags type : Nat} (single : SinglePages before)
    (valid : allocFlagsToPhysblockType flags = .ok type)
    (allocated : Allocated before after block large type)
    (condition : flags &&& allocTypeMask = allocPagetable ∨
      flags &&& allocTypeMask = allocPhysblock → large = 0) : SinglePages after := by
  apply SinglePages.of_live
  intro head order live kind
  rcases (allocated.live_iff (allocFlagsToPhysblockType_live valid)).mp live with
    ⟨rfl, rfl⟩ | old
  · rw [Physblock.kind, allocated.headType] at kind
    exact condition ((allocFlagsToPhysblockType_single valid).mp kind)
  · rw [allocated.outside_block old (covers_head head order)] at kind
    exact single head order old.isBlock kind

theorem FreedPage.singlePages (ready : Ready before) (single : SinglePages before)
    (freed : FreedPage before pfn after) : SinglePages after := by
  apply SinglePages.of_live
  intro head order live kind
  obtain ⟨old, other⟩ := (freed.live_iff ready).mp live
  rw [freed.outside_block ready old other (covers_head head order)] at kind
  exact single head order old.isBlock kind

end Single

/-- A run in which every block requested for page tables or physblocks is a single page. -/
inductive SinglePageRun : PhysMachine → Prop
  | init {early : Early.PageAllocState} {links : Links Node} {machine : PhysMachine} :
      Early.SpansOk early.spans →
      run (handover early) (idle (PhysState.zeroed links)) = .returned () machine →
      SinglePageRun machine
  | alloc {machine after : PhysMachine} {fuel order flags block : Nat} :
      SinglePageRun machine → order ≤ maxOrder → ValidFlags flags →
      (flags &&& allocTypeMask = allocPagetable ∨ flags &&& allocTypeMask = allocPhysblock →
        order = 0) →
      run (physAllocBlock fuel order flags) machine = .returned block after → SinglePageRun after
  | free {machine after : PhysMachine} {pfn : Nat} :
      SinglePageRun machine → Managed machine.data.spans pfn →
      run (physFreePfn pfn) machine = .returned () after → SinglePageRun after

theorem SinglePageRun.reachable {machine : PhysMachine} (singles : SinglePageRun machine) :
    Reachable machine := by
  induction singles with
  | init ok returned => exact .init ok returned
  | alloc _ bound valid _ returned ih => exact .alloc ih bound valid returned
  | free _ managed returned ih => exact .free ih managed returned

theorem SinglePageRun.singlePages {machine : PhysMachine} (singles : SinglePageRun machine) :
    SinglePages machine.data := by
  induction singles with
  | init ok returned =>
      obtain ⟨after, rfl, _, settled⟩ := handover_ok ok returned
      exact settled.singlePages
  | alloc earlier bound valid condition returned ih =>
      obtain ⟨state, rfl, ready⟩ := earlier.reachable.ready
      obtain ⟨after, type, rfl, flagsOk, allocated⟩ := ready.alloc_ok bound valid returned
      exact allocated.singlePages ih flagsOk condition
  | free earlier managed returned ih =>
      obtain ⟨state, rfl, ready⟩ := earlier.reachable.ready
      obtain ⟨after, rfl, freed⟩ := ready.free_ok managed returned
      exact freed.singlePages ready ih

/-- The counters are right along every run of single pages, and wrong right after the first
step that asks for more. -/
theorem typesCounted_iff_singlePages (machine : PhysMachine) :
    (SinglePageRun machine → TypesCounted machine.data) ∧
    (Reachable machine →
      (TypesCounted machine.data ↔ SinglePages machine.data) ∧
      ∀ fuel order flags block after, order ≤ maxOrder → order ≠ 0 →
        flags &&& allocTypeMask = allocPagetable ∨ flags &&& allocTypeMask = allocPhysblock →
        run (physAllocBlock fuel order flags) machine = .returned block after →
        ¬TypesCounted after.data) := by
  have documented : ∀ machine, Reachable machine →
      (TypesCounted machine.data ↔ SinglePages machine.data) := by
    intro machine reachable
    have tallied := reachable.tallied
    obtain ⟨state, rfl, ready⟩ := reachable.ready
    exact ready.typesCounted_iff tallied
  refine ⟨fun singles => (documented machine singles.reachable).mpr singles.singlePages, ?_⟩
  intro reachable
  refine ⟨documented machine reachable, ?_⟩
  intro fuel order flags block after bound compound request returned counted
  have valid : ValidFlags flags := Or.inr (Or.inr request)
  have single := (documented after (.alloc reachable bound valid returned)).mp counted
  obtain ⟨state, rfl, ready⟩ := reachable.ready
  obtain ⟨after, type, rfl, flagsOk, allocated⟩ := ready.alloc_ok bound valid returned
  have kind : (after.physblocks block).kind = type &&& physblockTypeMask := by
    rw [Physblock.kind, allocated.headType]
  have counts := (allocFlagsToPhysblockType_single flagsOk).mpr request
  rw [← kind] at counts
  exact compound (single block order allocated.isBlock counts)

theorem one_pagetable_counted :
    ∃ machine after block, SinglePageRun machine ∧ machine.data.spans = [⟨0, 2⟩] ∧
      run (physAllocBlock 13 0 allocPagetable) machine = .returned block after ∧
      TypesCounted after.data := by
  have small : 2 ≤ 2 ^ 52 := by decide
  obtain ⟨state, returned, spans, pages⟩ := unused_handover small
  have singles : SinglePageRun (idle state) := .init (unusedEarlyState_ok small) returned
  have ready := singles.reachable.idle_ready
  have valid : ValidFlags allocPagetable := Or.inr (Or.inr (Or.inl (by decide)))
  obtain ⟨block, after, _, allocReturned, _⟩ := ready.alloc_returns (by decide) valid
    (by decide : maxOrder < 13) ⟨0, unused_freeRun ready spans pages (by decide : 2 ^ 0 ≤ 2)⟩
  exact ⟨idle state, idle after, block, singles, spans, allocReturned,
    (typesCounted_iff_singlePages _).1 (.alloc singles (by decide) valid (fun _ => rfl) allocReturned)⟩

theorem two_pagetables_not_counted :
    ∃ machine after, Reachable machine ∧ machine.data.spans = [⟨0, 2⟩] ∧
      run (physAllocBlock 13 1 allocPagetable) machine = .returned 0 after ∧ Reachable after ∧
      after.data.stats.numPagetablePages = 1 ∧
      PagesCounted after.data (· = physblockPagetable) 2 ∧ ¬TypesCounted after.data := by
  obtain ⟨state, reachable, ready, spans, pages⟩ := unused_reachable (by decide : 2 ≤ 2 ^ 52)
  have valid : ValidFlags allocPagetable := Or.inr (Or.inr (Or.inl (by decide)))
  obtain ⟨block, after, _, returned, _⟩ := ready.alloc_returns (by decide) valid
    (by decide : maxOrder < 13) ⟨0, unused_freeRun ready spans pages (by decide : 2 ^ 1 ≤ 2)⟩
  obtain ⟨_, type, same, flagsOk, allocated⟩ := ready.alloc_ok (by decide) valid returned
  cases congrArg Machine.data same
  cases flagsOk
  obtain rfl := allocated.eq_zero pages
  obtain ⟨heads, rep⟩ := ready.rep
  have unused : recordsOf state physblockPagetable = ∅ := by
    rw [Finset.eq_empty_iff_forall_notMem]
    intro pfn member
    refine rep.free_not_recordsOf counted_pagetable ?_ member
    obtain ⟨⟨span, spanMember, bounds⟩, _⟩ := mem_recordsOf.mp member
    rw [spans, List.mem_singleton] at spanMember
    subst spanMember
    simp only [PhysAllocSpan.Contains] at bounds
    rw [pages, Finset.mem_Ico]
    omega
  have one : after.stats.numPagetablePages = 1 := by
    rw [(allocated.tallied rep reachable.tallied).pagetables,
      allocated.card_recordsOf rep counted_pagetable, unused]
    decide
  have members : ∀ pfn, pfn ∈ Finset.Ico 0 2 ↔ ∃ head order, IsBlock after head order ∧
      (after.physblocks head).kind = physblockPagetable ∧ Covers head order pfn := by
    intro pfn
    rw [Finset.mem_Ico]
    constructor
    · intro inside
      refine ⟨0, 1, allocated.isBlock, ?_, inside⟩
      rw [Physblock.kind, allocated.headType]
      decide
    · rintro ⟨head, order, block, _, covers⟩
      obtain ⟨span, member, bounds⟩ := block.managed covers
      rw [allocated.spans, spans, List.mem_singleton] at member
      subst member
      simp only [PhysAllocSpan.Contains] at bounds
      omega
  refine ⟨idle state, idle after, reachable, spans, returned,
    .alloc reachable (by decide) valid returned, one, ⟨Finset.Ico 0 2, rfl, members⟩, ?_⟩
  intro counted
  obtain ⟨counts, card, same⟩ := counted.pagetables
  have equal : counts = Finset.Ico 0 2 := by
    ext pfn
    rw [same, members]
    rfl
  rw [equal] at card
  exact absurd (card.trans one) (by decide)

end Zeptux.Phys
