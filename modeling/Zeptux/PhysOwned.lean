import Zeptux.PhysTheorems

/-!
The blocks in use along a run. Allocation adds a block made of free pages, freeing takes
one away, and neither touches the records of the other blocks.
-/

namespace Zeptux.Phys

open Dyadic IntrusiveRing LockProgram Word Footprint

structure Live (state : PhysState) (head order : Nat) : Prop where
  isBlock : IsBlock state head order
  used : (state.physblocks head).kind ≠ physblockFree

def StandsFor (block : Nat × Nat) (pfn : Nat) : Prop :=
  Covers block.1 block.2 pfn ∧ pfn - block.1 < 2 ^ 8

def preservedBlocks (spans : List Early.PageAllocSpan) : Set (Nat × Nat) :=
  {block | ∃ span ∈ spans, ∃ index < span.numPages, preserved span index = true ∧
    block = (span.pfn index, 0)}

/-- The blocks handed out and not freed since. The pages that the early allocator preserves
are in use from the start. Freeing a page far from its head does nothing, so that the block
stays in use. -/
inductive Allotted : PhysMachine → Set (Nat × Nat) → Prop
  | init {early : Early.PageAllocState} {links : Links Node} {machine : PhysMachine} :
      Early.SpansOk early.spans →
      run (handover early) (idle (PhysState.zeroed links)) = .returned () machine →
      Allotted machine (preservedBlocks early.spans)
  | alloc {machine after : PhysMachine} {blocks : Set (Nat × Nat)} {fuel order flags block : Nat} :
      Allotted machine blocks → order ≤ maxOrder → ValidFlags flags →
      run (physAllocBlock fuel order flags) machine = .returned block after →
      Allotted after (insert (block, order) blocks)
  | free {machine after : PhysMachine} {blocks : Set (Nat × Nat)} {pfn : Nat} :
      Allotted machine blocks → Managed machine.data.spans pfn →
      run (physFreePfn pfn) machine = .returned () after →
      Allotted after {block ∈ blocks | ¬StandsFor block pfn}

section

variable {state after : PhysState} {head order pfn : Nat}

theorem Live.not_mem_freePages (live : Live state head order) (covers : Covers head order pfn) :
    pfn ∉ freePages state := by
  intro free
  have type := (live.isBlock.freePage_iff covers).mp (Finset.mem_filter.mp free).2
  exact live.used (free_kind type)

theorem Live.congr {changed : PhysState} (live : Live state head order)
    (spans : changed.spans = state.spans)
    (same : ∀ pfn, Covers head order pfn → changed.physblocks pfn = state.physblocks pfn) :
    Live changed head order := by
  refine ⟨live.isBlock.congr spans same, ?_⟩
  rw [same head (covers_head head order)]
  exact live.used

/-! ## The first state -/

theorem Settled.live_iff {spans : List Early.PageAllocSpan} (ok : Early.SpansOk spans)
    (shape : state.spans = spans.map (·.toPhys))
    {total : Nat} (settled : Settled (plannedRecord spans) state (managedPages state.spans) total) :
    (head, order) ∈ preservedBlocks spans ↔ Live state head order := by
  constructor
  · rintro ⟨span, member, index, inside, isPreserved, same⟩
    cases same
    have managed : Managed state.spans (span.pfn index) := by
      rw [shape, managed_toPhys]
      exact ⟨span, member, index, inside, rfl⟩
    have used : span.pfn index ∉ freePages state := by
      rw [settled.mem_freePages_iff ok shape member inside, isPreserved]
      decide
    have kept := settled.kept _ used
    refine ⟨settled.isBlock managed kept, ?_⟩
    rw [kept, plannedRecord_eq ok member inside, record_kind, if_pos isPreserved]
    split
    · decide
    · split <;> decide
  · intro live
    have managed := live.isBlock.managed (covers_head head order)
    rw [shape, managed_toPhys] at managed
    obtain ⟨span, member, index, inside, rfl⟩ := managed
    have used := live.not_mem_freePages (covers_head _ _)
    have single := settled.isBlock (live.isBlock.managed (covers_head _ _)) (settled.kept _ used)
    obtain ⟨_, rfl⟩ := live.isBlock.unique single (covers_head _ _) (covers_head _ _)
    rw [settled.mem_freePages_iff ok shape member inside, Bool.not_eq_false] at used
    exact ⟨span, member, index, inside, used, rfl⟩

/-! ## Allocating -/

theorem Allocated.outside_block {block large type : Nat}
    (allocated : Allocated state after block large type) (live : Live state head order)
    (covers : Covers head order pfn) : after.physblocks pfn = state.physblocks pfn :=
  allocated.outside pfn (live.not_mem_freePages covers)

theorem Allocated.live_iff {block large type : Nat} (isLive : LiveType type)
    (allocated : Allocated state after block large type) :
    Live after head order ↔ (head = block ∧ order = large) ∨ Live state head order := by
  constructor
  · intro live
    by_cases meets : ∃ pfn, Covers head order pfn ∧ Covers block large pfn
    · obtain ⟨pfn, covers, blockCovers⟩ := meets
      exact Or.inl (live.isBlock.unique allocated.isBlock covers blockCovers)
    · refine Or.inr (live.congr allocated.spans.symm fun pfn covers => ?_)
      refine (allocated.outside pfn fun wasFree => ?_).symm
      apply live.not_mem_freePages covers
      rw [allocated.pages, Finset.mem_sdiff, Finset.mem_Ico]
      exact ⟨wasFree, fun inside => meets ⟨pfn, covers, inside⟩⟩
  · rintro (⟨rfl, rfl⟩ | live)
    · refine ⟨allocated.isBlock, ?_⟩
      rw [Physblock.kind, allocated.headType]
      exact isLive.notFree
    · exact live.congr allocated.spans fun pfn covers => allocated.outside_block live covers

/-! ## Freeing -/

theorem FreedPage.outside_block (ready : Ready state) {page : Nat} (freed : FreedPage state pfn after)
    (live : Live state head order) (other : ¬StandsFor (head, order) pfn)
    (covers : Covers head order page) : after.physblocks page = state.physblocks page := by
  cases freed with
  | unused _ => rfl
  | @last _ freedHead large block freedCovers near allocated compacted =>
      obtain ⟨heads, rep⟩ := ready.rep
      have outside : ¬Covers freedHead large page := by
        intro inside
        obtain ⟨rfl, rfl⟩ := live.isBlock.unique block covers inside
        exact other ⟨freedCovers, near⟩
      have notFree : page ∉ freePages (state.freed freedHead) := by
        rw [freed_freePages rep block fun free => allocated (free_kind free), Finset.mem_union,
          Finset.mem_Ico]
        rintro (free | inside)
        · exact live.not_mem_freePages covers free
        · exact outside inside
      have different : page ≠ freedHead := by
        rintro rfl
        exact outside (covers_head _ _)
      rw [compacted.outside page notFree, freed_physblocks, if_neg different]

theorem FreedPage.spans (freed : FreedPage state pfn after) : after.spans = state.spans := by
  cases freed with
  | unused _ => rfl
  | last _ _ _ _ compacted => exact compacted.spans

theorem FreedPage.live_iff (ready : Ready state) (freed : FreedPage state pfn after) :
    Live after head order ↔ Live state head order ∧ ¬StandsFor (head, order) pfn := by
  refine ⟨?_, fun ⟨live, other⟩ => live.congr freed.spans fun page covers =>
    freed.outside_block ready live other covers⟩
  intro live
  cases freed with
  | unused free =>
      refine ⟨live, fun stands => live.used (free_kind ?_)⟩
      exact free head order live.isBlock stands.1 stands.2
  | @last _ freedHead large block freedCovers near allocated compacted =>
      have freeHead := (freed_isFree block).subset_freePages (covers_head freedHead large)
      have away : ∀ page, Covers head order page → page ∉ freePages (state.freed freedHead) := by
        intro page covers
        rw [← compacted.pages]
        exact live.not_mem_freePages covers
      have before : Live state head order := by
        refine live.congr compacted.spans.symm fun page covers => ?_
        have different : page ≠ freedHead := by
          rintro rfl
          exact away _ covers freeHead
        rw [compacted.outside page (away page covers), freed_physblocks, if_neg different]
      refine ⟨before, fun stands => ?_⟩
      obtain ⟨rfl, rfl⟩ := before.isBlock.unique block stands.1 freedCovers
      exact away _ (covers_head _ _) freeHead

end

/-! ## Runs -/

theorem Allotted.reachable {machine : PhysMachine} {blocks : Set (Nat × Nat)}
    (allotted : Allotted machine blocks) : Reachable machine := by
  induction allotted with
  | init ok returned => exact .init ok returned
  | alloc _ bound valid returned ih => exact .alloc ih bound valid returned
  | free _ managed returned ih => exact .free ih managed returned

theorem Reachable.allotted {machine : PhysMachine} (reachable : Reachable machine) :
    ∃ blocks, Allotted machine blocks := by
  induction reachable with
  | init ok returned => exact ⟨_, .init ok returned⟩
  | alloc _ bound valid returned ih =>
      obtain ⟨blocks, allotted⟩ := ih
      exact ⟨_, .alloc allotted bound valid returned⟩
  | free _ managed returned ih =>
      obtain ⟨blocks, allotted⟩ := ih
      exact ⟨_, .free allotted managed returned⟩

theorem Allotted.live_iff {machine : PhysMachine} {blocks : Set (Nat × Nat)}
    (allotted : Allotted machine blocks) (head order : Nat) :
    (head, order) ∈ blocks ↔ Live machine.data head order := by
  induction allotted generalizing head order with
  | init ok returned =>
      obtain ⟨after, rfl, spans, settled⟩ := handover_ok ok returned
      exact settled.live_iff ok spans
  | alloc allotted bound valid returned ih =>
      obtain ⟨state, rfl, ready⟩ := allotted.reachable.ready
      obtain ⟨after, type, rfl, flagsOk, allocated⟩ := ready.alloc_ok bound valid returned
      rw [Set.mem_insert_iff, ih, Prod.mk.injEq]
      exact (allocated.live_iff (allocFlagsToPhysblockType_live flagsOk)).symm
  | free allotted managed returned ih =>
      obtain ⟨state, rfl, ready⟩ := allotted.reachable.ready
      obtain ⟨after, rfl, freed⟩ := ready.free_ok managed returned
      rw [Set.mem_ofPred_eq, ih]
      exact (freed.live_iff ready).symm

/-- A new block is made of free pages, and the blocks in use stay as they are. -/
structure Exclusive (before after : PhysState) (blocks : Set (Nat × Nat)) (block order : Nat) :
    Prop where
  aligned : 2 ^ order ∣ block
  inside : ∃ span ∈ before.spans, span.Contains block (2 ^ order)
  wasFree : ∀ pfn, Covers block order pfn →
    ∃ head large, IsFree before head large ∧ Covers head large pfn
  fresh : ∀ other ∈ blocks, ∀ pfn, Covers block order pfn → ¬Covers other.1 other.2 pfn
  framed : ∀ other ∈ blocks, ∀ pfn, Covers other.1 other.2 pfn →
    after.physblocks pfn = before.physblocks pfn

theorem allotted_exclusive_and_framed {machine : PhysMachine} {blocks : Set (Nat × Nat)}
    (allotted : Allotted machine blocks) :
    (∀ head order, (head, order) ∈ blocks ↔ Live machine.data head order) ∧
    (∀ fuel order flags block after, order ≤ maxOrder → ValidFlags flags →
      run (physAllocBlock fuel order flags) machine = .returned block after →
      Exclusive machine.data after.data blocks block order) ∧
    ∀ pfn after, Managed machine.data.spans pfn →
      run (physFreePfn pfn) machine = .returned () after →
      ∀ other ∈ blocks, ¬StandsFor other pfn → ∀ page, Covers other.1 other.2 page →
        after.data.physblocks page = machine.data.physblocks page := by
  have known := allotted.live_iff
  obtain ⟨state, rfl, ready⟩ := allotted.reachable.ready
  obtain ⟨heads, rep⟩ := ready.rep
  refine ⟨known, ?_, ?_⟩
  · intro fuel order flags block machine bound valid returned
    obtain ⟨after, type, rfl, _, allocated⟩ := ready.alloc_ok bound valid returned
    have free : ∀ pfn, Covers block order pfn → pfn ∈ freePages state :=
      fun pfn covers => allocated.wasFree (Finset.mem_Ico.mpr covers)
    have inside := allocated.isBlock.inside
    rw [allocated.spans] at inside
    refine ⟨allocated.isBlock.aligned, inside, ?_, ?_, ?_⟩
    · intro pfn covers
      exact (mem_freePages_iff rep.covered).mp (free pfn covers)
    · intro other member pfn covers otherCovers
      exact ((known _ _).mp member).not_mem_freePages otherCovers (free pfn covers)
    · intro other member pfn covers
      exact allocated.outside_block ((known _ _).mp member) covers
  · intro pfn machine managed returned other member apart page covers
    obtain ⟨after, rfl, freed⟩ := ready.free_ok managed returned
    exact freed.outside_block ready ((known _ _).mp member) apart covers

theorem order_nine_allotted :
    ∃ machine blocks, Allotted machine blocks ∧ (0, 9) ∈ blocks ∧
      ∀ pfn after, Managed machine.data.spans pfn →
        run (physFreePfn pfn) machine = .returned () after → 2 ^ 8 ≤ pfn →
        ∀ page < 512, after.data.physblocks page = machine.data.physblocks page := by
  obtain ⟨machine, reachable, block, used⟩ := reachable_order_nine
  obtain ⟨blocks, allotted⟩ := reachable.allotted
  obtain ⟨live, _, framed⟩ := allotted_exclusive_and_framed allotted
  have member : (0, 9) ∈ blocks := (live 0 9).mpr ⟨block, used⟩
  refine ⟨machine, blocks, allotted, member, ?_⟩
  intro pfn after managed returned far page inside
  refine framed pfn after managed returned (0, 9) member ?_ page ⟨by omega, by omega⟩
  exact fun stands => absurd stands.2 (by omega)

end Zeptux.Phys
