import Mathlib.Algebra.Order.BigOperators.Group.Finset
import Zeptux.PhysTheorems

/-!
The statistics of the allocator in every reachable state: the counters count the free
lists, the free pages and the pages of all spans, and no update lets one of them wrap.
-/

namespace Zeptux.Phys

open Dyadic IntrusiveRing LockProgram Word Footprint

section

variable {state : PhysState} {heads : Nat → List Nat}

def pagesOfOrder (heads : Nat → List Nat) (order : Nat) : Finset Nat :=
  (heads order).toFinset.biUnion fun head => Finset.Ico head (head + 2 ^ order)

theorem Rep.mem_pagesOfOrder (rep : Rep state heads) {order pfn : Nat} (bound : order ≤ maxOrder) :
    pfn ∈ pagesOfOrder heads order ↔ ∃ head, IsFree state head order ∧ Covers head order pfn := by
  simp only [pagesOfOrder, Finset.mem_biUnion, List.mem_toFinset, rep.listed order bound,
    Finset.mem_Ico, Covers]

theorem Rep.card_pagesOfOrder (rep : Rep state heads) {order : Nat} (bound : order ≤ maxOrder) :
    (pagesOfOrder heads order).card = 2 ^ order * state.stats.order order := by
  have apart : ∀ head ∈ (heads order).toFinset, ∀ other ∈ (heads order).toFinset, head ≠ other →
      Disjoint (Finset.Ico head (head + 2 ^ order)) (Finset.Ico other (other + 2 ^ order)) := by
    intro head member other otherMember different
    rw [List.mem_toFinset, rep.listed order bound] at member otherMember
    rw [Finset.disjoint_left]
    intro pfn covers otherCovers
    rw [Finset.mem_Ico] at covers otherCovers
    exact different (member.toIsBlock.unique otherMember.toIsBlock covers otherCovers).1
  have length := List.toFinset_card_of_nodup (freeLists_nodup rep.lists bound)
  have size : ∀ head ∈ (heads order).toFinset,
      (Finset.Ico head (head + 2 ^ order)).card = 2 ^ order := by
    intro head _
    rw [Nat.card_Ico, Nat.add_sub_cancel_left]
  rw [pagesOfOrder, Finset.card_biUnion apart, Finset.sum_const_nat size, length,
    rep.counts order bound, Nat.mul_comm]

theorem Rep.sum_counts (rep : Rep state heads) :
    state.stats.numFree4kPages =
      ∑ order ∈ Finset.range (maxOrder + 1), 2 ^ order * state.stats.order order := by
  have apart : ∀ order ∈ Finset.range (maxOrder + 1), ∀ other ∈ Finset.range (maxOrder + 1),
      order ≠ other → Disjoint (pagesOfOrder heads order) (pagesOfOrder heads other) := by
    intro order member other otherMember different
    rw [Finset.mem_range, Nat.lt_succ_iff] at member otherMember
    rw [Finset.disjoint_left]
    intro pfn inside otherInside
    obtain ⟨head, free, covers⟩ := (rep.mem_pagesOfOrder member).mp inside
    obtain ⟨otherHead, otherFree, otherCovers⟩ := (rep.mem_pagesOfOrder otherMember).mp otherInside
    exact different (free.toIsBlock.unique otherFree.toIsBlock covers otherCovers).2
  have pages : freePages state =
      (Finset.range (maxOrder + 1)).biUnion (pagesOfOrder heads) := by
    ext pfn
    rw [mem_freePages_iff rep.covered, Finset.mem_biUnion]
    constructor
    · rintro ⟨head, order, free, covers⟩
      exact ⟨order, Finset.mem_range.mpr (Nat.lt_succ_of_le free.bounded),
        (rep.mem_pagesOfOrder free.bounded).mpr ⟨head, free, covers⟩⟩
    · rintro ⟨order, member, inside⟩
      have bound := Nat.lt_succ_iff.mp (Finset.mem_range.mp member)
      obtain ⟨head, free, covers⟩ := (rep.mem_pagesOfOrder bound).mp inside
      exact ⟨head, order, free, covers⟩
  rw [rep.freeCount, pages, Finset.card_biUnion apart]
  apply Finset.sum_congr rfl
  intro order member
  exact rep.card_pagesOfOrder (Nat.lt_succ_iff.mp (Finset.mem_range.mp member))

theorem Rep.mem_usedPages (rep : Rep state heads) {pfn : Nat} :
    pfn ∈ managedPages state.spans \ freePages state ↔
      ∃ head order, IsBlock state head order ∧ (state.physblocks head).kind ≠ physblockFree ∧
        Covers head order pfn := by
  rw [Finset.mem_sdiff, mem_managedPages]
  constructor
  · rintro ⟨managed, used⟩
    obtain ⟨head, order, block, covers⟩ := rep.covered pfn managed
    refine ⟨head, order, block, ?_, covers⟩
    intro free
    exact used (IsFree.subset_freePages
      ⟨block, (rep.headsOk head order block).free_iff.mp free⟩ covers)
  · rintro ⟨head, order, block, notFree, covers⟩
    refine ⟨block.managed covers, ?_⟩
    intro free
    have type := (block.freePage_iff covers).mp (Finset.mem_filter.mp free).2
    exact notFree (free_kind type)

end

structure StatsConserved (state : PhysState) : Prop where
  orders : ∃ heads : Nat → List Nat, ∀ order, order ≤ maxOrder →
    Ring state.links (.freeList order) ((heads order).map .physblock) ∧
      state.stats.order order = (heads order).length
  free : state.stats.numFree4kPages =
    ∑ order ∈ Finset.range (maxOrder + 1), 2 ^ order * state.stats.order order
  total : ∃ used : Finset Nat,
    (∀ pfn, pfn ∈ used ↔ ∃ head order, IsBlock state head order ∧
      (state.physblocks head).kind ≠ physblockFree ∧ Covers head order pfn) ∧
    state.stats.numFree4kPages + used.card = state.stats.num4kPages

theorem Ready.statsConserved {state : PhysState} (ready : Ready state) : StatsConserved state := by
  obtain ⟨heads, rep⟩ := ready.rep
  refine ⟨⟨heads, fun order bound => ⟨rep.lists.ring _ ⟨order, bound, rfl⟩, rep.counts order bound⟩⟩,
    rep.sum_counts, managedPages state.spans \ freePages state, fun pfn => rep.mem_usedPages, ?_⟩
  have inside : freePages state ⊆ managedPages state.spans := Finset.filter_subset _ _
  have few := Finset.card_le_card inside
  rw [Finset.card_sdiff_of_subset inside, rep.freeCount, ready.num4kPages]
  omega

/-- The calls, each with the updates that it makes on the way. -/
theorem reachable_statsConserved :
    (∀ (early : Early.PageAllocState) (links : Links Node), Early.SpansOk early.spans →
      ∀ pair ∈ updates (handover early) (idle (PhysState.zeroed links)),
        pair.1.stats.NoWrap pair.2.stats) ∧
    ∀ machine, Reachable machine →
      StatsConserved machine.data ∧
      (∀ fuel order flags, order ≤ maxOrder → ValidFlags flags →
        ∀ pair ∈ updates (physAllocBlock fuel order flags) machine,
          pair.1.stats.NoWrap pair.2.stats) ∧
      ∀ pfn, Managed machine.data.spans pfn → ∀ pair ∈ updates (physFreePfn pfn) machine,
        pair.1.stats.NoWrap pair.2.stats := by
  constructor
  · intro early links ok pair member
    have spec : wp (whole.contract fun _ => False) (handover early) (PhysState.zeroed links) ∅
        fun _ _ _ => True := wp_handover ok fun _ _ _ => trivial
    exact (keeps_of_wp (describes_self _ _) spec pair member).2.2
  · intro machine reachable
    obtain ⟨state, rfl, ready⟩ := reachable.ready
    refine ⟨ready.statsConserved, ?_, ?_⟩
    · intro fuel order flags bound valid pair member
      have spec : wp (whole.contract fun _ => True) (physAllocBlock fuel order flags) state ∅
          fun _ _ _ => True :=
        wp_physAllocBlock_ready ready bound valid fun _ _ _ _ _ => trivial
      exact (keeps_of_wp (describes_self _ _) spec pair member).2.2
    · intro pfn managed pair member
      have spec : wp (whole.contract fun _ => False) (physFreePfn pfn) state ∅
          fun _ _ _ => True := wp_physFreePfn ready managed fun _ _ => trivial
      exact (keeps_of_wp (describes_self _ _) spec pair member).2.2

theorem order_nine_statsConserved :
    ∃ machine, Reachable machine ∧ IsBlock machine.data 0 9 ∧
      (machine.data.physblocks 0).kind ≠ physblockFree ∧ StatsConserved machine.data := by
  obtain ⟨machine, reachable, block, allocated⟩ := reachable_order_nine
  exact ⟨machine, reachable, block, allocated, (reachable_statsConserved.2 machine reachable).1⟩

end Zeptux.Phys
