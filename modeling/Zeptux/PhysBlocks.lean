import Mathlib.Data.Finset.Card
import Mathlib.Order.Interval.Finset.Nat
import Zeptux.Lib.Dyadic
import Zeptux.PhysCore

/-!
Blocks of the physblock array: what the records of a head and of its tails say,
and how an update that rewrites the records of one run of pages moves the blocks.
-/

namespace Zeptux.Phys

open Dyadic

def Physblock.kind (block : Physblock) : Nat := block.type &&& physblockTypeMask

def PhysAllocSpan.Contains (span : PhysAllocSpan) (first size : Nat) : Prop :=
  span.startPfn ≤ first ∧ first + size ≤ span.startPfn + span.numPages

def Managed (spans : List PhysAllocSpan) (pfn : Nat) : Prop :=
  ∃ span ∈ spans, span.Contains pfn 1

structure IsTail (block : Physblock) (offset : Nat) : Prop where
  type : block.type = physblockTail
  headOffset : block.headOffset = offset
  order : block.order = 0
  refcount : block.refcount = 0

theorem IsTail.kind {block : Physblock} {offset : Nat} (tail : IsTail block offset) :
    block.kind = physblockTail := by
  rw [Physblock.kind, tail.type]
  decide

structure IsBlock (state : PhysState) (head order : Nat) : Prop where
  bounded : order ≤ maxOrder
  aligned : 2 ^ order ∣ head
  inside : ∃ span ∈ state.spans, span.Contains head (2 ^ order)
  headOffset : (state.physblocks head).headOffset = 0
  notTail : (state.physblocks head).kind ≠ physblockTail
  headOrder : (state.physblocks head).order = order
  tails : ∀ offset, 0 < offset → offset < 2 ^ order →
    IsTail (state.physblocks (head + offset)) offset

structure IsFree (state : PhysState) (head order : Nat) : Prop extends
    IsBlock state head order where
  headType : (state.physblocks head).type = physblockFree

theorem IsBlock.managed {state : PhysState} {head order pfn : Nat}
    (block : IsBlock state head order) (covers : Covers head order pfn) :
    Managed state.spans pfn := by
  obtain ⟨span, member, bounds⟩ := block.inside
  simp only [PhysAllocSpan.Contains, Covers] at bounds covers
  exact ⟨span, member, by simp only [PhysAllocSpan.Contains]; omega⟩

theorem IsBlock.head_or_tail {state : PhysState} {head order pfn : Nat}
    (block : IsBlock state head order) (covers : Covers head order pfn) :
    pfn = head ∨ IsTail (state.physblocks pfn) (pfn - head) := by
  obtain ⟨lower, upper⟩ := covers
  by_cases same : pfn = head
  · exact Or.inl same
  · have tail := block.tails (pfn - head) (by omega) (by omega)
    rw [Nat.add_sub_cancel' lower] at tail
    exact Or.inr tail

theorem IsBlock.offset {state : PhysState} {head order pfn : Nat}
    (block : IsBlock state head order) (covers : Covers head order pfn) :
    head + (state.physblocks pfn).headOffset = pfn := by
  rcases block.head_or_tail covers with rfl | tail
  · rw [block.headOffset, Nat.add_zero]
  · rw [tail.headOffset, Nat.add_sub_cancel' covers.1]

theorem IsBlock.unique {state : PhysState} {head order other large pfn : Nat}
    (block : IsBlock state head order) (otherBlock : IsBlock state other large)
    (covers : Covers head order pfn) (otherCovers : Covers other large pfn) :
    head = other ∧ order = large := by
  have first := block.offset covers
  have second := otherBlock.offset otherCovers
  have same : head = other := by omega
  subst other
  exact ⟨rfl, block.headOrder.symm.trans otherBlock.headOrder⟩

theorem IsBlock.congr {state changed : PhysState} {head order : Nat}
    (block : IsBlock state head order) (spans : changed.spans = state.spans)
    (same : ∀ pfn, Covers head order pfn → changed.physblocks pfn = state.physblocks pfn) :
    IsBlock changed head order := by
  have atHead := same head (covers_head head order)
  refine ⟨block.bounded, block.aligned, spans ▸ block.inside, ?_, ?_, ?_, ?_⟩
  · rw [atHead, block.headOffset]
  · rw [atHead]
    exact block.notTail
  · rw [atHead, block.headOrder]
  · intro offset positive bound
    rw [same (head + offset) ⟨by omega, by omega⟩]
    exact block.tails offset positive bound

theorem IsFree.congr {state changed : PhysState} {head order : Nat}
    (free : IsFree state head order) (spans : changed.spans = state.spans)
    (same : ∀ pfn, Covers head order pfn → changed.physblocks pfn = state.physblocks pfn) :
    IsFree changed head order := by
  refine ⟨free.toIsBlock.congr spans same, ?_⟩
  rw [same head (covers_head head order), free.headType]

/-! ## Rewriting the records of one run of pages -/

/-- `changed` differs from `state` only inside `[first, first + size)`, and there both
are cut into whole blocks. -/
structure Rewrites (state changed : PhysState) (first size : Nat) : Prop where
  spans : changed.spans = state.spans
  outside : ∀ pfn, ¬(first ≤ pfn ∧ pfn < first + size) →
    changed.physblocks pfn = state.physblocks pfn
  before : ∀ pfn, first ≤ pfn → pfn < first + size → ∃ head order, IsBlock state head order ∧
    Covers head order pfn ∧ first ≤ head ∧ head + 2 ^ order ≤ first + size
  after : ∀ pfn, first ≤ pfn → pfn < first + size → ∃ head order, IsBlock changed head order ∧
    Covers head order pfn ∧ first ≤ head ∧ head + 2 ^ order ≤ first + size

namespace Rewrites

variable {state changed : PhysState} {first size head order : Nat}

theorem symm (rewrites : Rewrites state changed first size) :
    Rewrites changed state first size where
  spans := rewrites.spans.symm
  outside := fun pfn outside => (rewrites.outside pfn outside).symm
  before := rewrites.after
  after := rewrites.before

theorem apart (rewrites : Rewrites state changed first size)
    (block : IsBlock state head order) :
    (first ≤ head ∧ head + 2 ^ order ≤ first + size) ∨
      (∀ pfn, Covers head order pfn → ¬(first ≤ pfn ∧ pfn < first + size)) := by
  by_cases meets : ∃ pfn, Covers head order pfn ∧ first ≤ pfn ∧ pfn < first + size
  · obtain ⟨pfn, covers, lower, upper⟩ := meets
    obtain ⟨other, large, otherBlock, otherCovers, bounds⟩ := rewrites.before pfn lower upper
    obtain ⟨rfl, rfl⟩ := block.unique otherBlock covers otherCovers
    exact Or.inl bounds
  · exact Or.inr fun pfn covers inside => meets ⟨pfn, covers, inside⟩

theorem keep (rewrites : Rewrites state changed first size)
    (block : IsBlock state head order)
    (outside : ∀ pfn, Covers head order pfn → ¬(first ≤ pfn ∧ pfn < first + size)) :
    IsBlock changed head order :=
  block.congr rewrites.spans fun pfn covers => rewrites.outside pfn (outside pfn covers)

theorem covered (rewrites : Rewrites state changed first size)
    (all : ∀ pfn, Managed state.spans pfn →
      ∃ head order, IsBlock state head order ∧ Covers head order pfn) :
    ∀ pfn, Managed changed.spans pfn →
      ∃ head order, IsBlock changed head order ∧ Covers head order pfn := by
  intro pfn managed
  by_cases inside : first ≤ pfn ∧ pfn < first + size
  · obtain ⟨head, order, block, covers, _⟩ := rewrites.after pfn inside.1 inside.2
    exact ⟨head, order, block, covers⟩
  · rw [rewrites.spans] at managed
    obtain ⟨head, order, block, covers⟩ := all pfn managed
    rcases rewrites.apart block with bounds | outside
    · simp only [Covers] at covers
      exact absurd ⟨by omega, by omega⟩ inside
    · exact ⟨head, order, rewrites.keep block outside, covers⟩

theorem isFree_iff (rewrites : Rewrites state changed first size) :
    IsFree changed head order ↔
      (IsFree changed head order ∧ first ≤ head ∧ head + 2 ^ order ≤ first + size) ∨
      (IsFree state head order ∧
        ∀ pfn, Covers head order pfn → ¬(first ≤ pfn ∧ pfn < first + size)) := by
  constructor
  · intro free
    rcases rewrites.symm.apart free.toIsBlock with bounds | outside
    · exact Or.inl ⟨free, bounds⟩
    · exact Or.inr ⟨free.congr rewrites.spans.symm fun pfn covers =>
        (rewrites.outside pfn (outside pfn covers)).symm, outside⟩
  · rintro (⟨free, _⟩ | ⟨free, outside⟩)
    · exact free
    · exact free.congr rewrites.spans fun pfn covers =>
        rewrites.outside pfn (outside pfn covers)

end Rewrites

/-! ## Free pages -/

def managedPages (spans : List PhysAllocSpan) : Finset Nat :=
  spans.toFinset.biUnion fun span => Finset.Ico span.startPfn (span.startPfn + span.numPages)

def FreePage (state : PhysState) (pfn : Nat) : Prop :=
  (state.physblocks (pfn - (state.physblocks pfn).headOffset)).type = physblockFree

instance (state : PhysState) (pfn : Nat) : Decidable (FreePage state pfn) :=
  inferInstanceAs (Decidable (_ = _))

def freePages (state : PhysState) : Finset Nat :=
  (managedPages state.spans).filter (FreePage state)

theorem mem_managedPages {spans : List PhysAllocSpan} {pfn : Nat} :
    pfn ∈ managedPages spans ↔ Managed spans pfn := by
  simp only [managedPages, Finset.mem_biUnion, List.mem_toFinset, Finset.mem_Ico, Managed,
    PhysAllocSpan.Contains]
  constructor
  · rintro ⟨span, member, bounds⟩
    exact ⟨span, member, by omega⟩
  · rintro ⟨span, member, bounds⟩
    exact ⟨span, member, by omega⟩

theorem IsBlock.freePage_iff {state : PhysState} {head order pfn : Nat}
    (block : IsBlock state head order) (covers : Covers head order pfn) :
    FreePage state pfn ↔ (state.physblocks head).type = physblockFree := by
  have offset := block.offset covers
  rw [FreePage, show pfn - (state.physblocks pfn).headOffset = head by omega]

theorem IsFree.subset_freePages {state : PhysState} {head order pfn : Nat}
    (free : IsFree state head order) (covers : Covers head order pfn) :
    pfn ∈ freePages state := by
  rw [freePages, Finset.mem_filter, mem_managedPages]
  exact ⟨free.managed covers, (free.toIsBlock.freePage_iff covers).mpr free.headType⟩

theorem mem_freePages_iff {state : PhysState}
    (all : ∀ pfn, Managed state.spans pfn →
      ∃ head order, IsBlock state head order ∧ Covers head order pfn) {pfn : Nat} :
    pfn ∈ freePages state ↔ ∃ head order, IsFree state head order ∧ Covers head order pfn := by
  constructor
  · intro member
    rw [freePages, Finset.mem_filter, mem_managedPages] at member
    obtain ⟨head, order, block, covers⟩ := all pfn member.1
    exact ⟨head, order, ⟨block, (block.freePage_iff covers).mp member.2⟩, covers⟩
  · rintro ⟨head, order, free, covers⟩
    exact free.subset_freePages covers

theorem Rewrites.mem_freePages {state changed : PhysState} {first size : Nat}
    (rewrites : Rewrites state changed first size)
    (all : ∀ pfn, Managed state.spans pfn →
      ∃ head order, IsBlock state head order ∧ Covers head order pfn) {pfn : Nat}
    (outside : ¬(first ≤ pfn ∧ pfn < first + size)) :
    pfn ∈ freePages changed ↔ pfn ∈ freePages state := by
  rw [mem_freePages_iff all, mem_freePages_iff (rewrites.covered all)]
  constructor
  · rintro ⟨head, order, free, covers⟩
    rcases rewrites.isFree_iff.mp free with ⟨_, bounds⟩ | ⟨old, _⟩
    · simp only [Covers] at covers
      exact absurd ⟨by omega, by omega⟩ outside
    · exact ⟨head, order, old, covers⟩
  · rintro ⟨head, order, free, covers⟩
    rcases rewrites.apart free.toIsBlock with bounds | away
    · simp only [Covers] at covers
      exact absurd ⟨by omega, by omega⟩ outside
    · exact ⟨head, order, rewrites.isFree_iff.mpr (Or.inr ⟨free, away⟩), covers⟩

end Zeptux.Phys
