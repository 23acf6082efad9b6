import Mathlib.Data.List.Basic
import Zeptux.PhysBlocks

/-!
The representation invariant of the allocator state. `heads order` is the sequence
of free list `order`, made explicit so that each operation can say what it does to
every list. `Rep` ties the records, the rings and the statistics together;
`Rep.rewrite` is the one way the operations re-establish it.
-/

namespace Zeptux.Phys

open Dyadic IntrusiveRing

def IsFreeListHead (node : Node) : Prop := ∃ order, order ≤ maxOrder ∧ node = .freeList order

def freeSequence (heads : Nat → List Nat) : Node → List Node
  | .freeList order => (heads order).map .physblock
  | .physblock _ => []

structure SpansOk (spans : List PhysAllocSpan) : Prop where
  apart : spans.Pairwise fun first second =>
    first.startPfn + first.numPages ≤ second.startPfn ∨
      second.startPfn + second.numPages ≤ first.startPfn
  bounded : ∀ span ∈ spans, span.startPfn + span.numPages ≤ 2 ^ 52

def HeadOk (block : Physblock) : Prop :=
  (block.type = physblockFree ∧ block.refcount = 0) ∨
  (block.kind = physblockUnmanaged ∧ block.refcount = 0) ∨
  (block.kind ≠ physblockFree ∧ block.kind ≠ physblockUnmanaged ∧ block.refcount = 1)

structure Rep (state : PhysState) (heads : Nat → List Nat) : Prop where
  spansOk : SpansOk state.spans
  covered : ∀ pfn, Managed state.spans pfn →
    ∃ head order, IsBlock state head order ∧ Covers head order pfn
  headsOk : ∀ head order, IsBlock state head order → HeadOk (state.physblocks head)
  lists : Family state.links IsFreeListHead (freeSequence heads)
  listed : ∀ order, order ≤ maxOrder → ∀ head, head ∈ heads order ↔ IsFree state head order
  counts : ∀ order, order ≤ maxOrder → state.stats.order order = (heads order).length
  freeCount : state.stats.numFree4kPages = (freePages state).card

theorem free_kind {block : Physblock} (free : block.type = physblockFree) :
    block.kind = physblockFree := by
  simp [Physblock.kind, free, physblockFree, physblockTypeMask]

theorem HeadOk.free_iff {block : Physblock} (ok : HeadOk block) :
    block.kind = physblockFree ↔ block.type = physblockFree := by
  refine ⟨fun kind => ?_, free_kind⟩
  rcases ok with ⟨type, _⟩ | ⟨unmanaged, _⟩ | ⟨other, _⟩
  · exact type
  · rw [kind] at unmanaged
    simp [physblockFree, physblockUnmanaged] at unmanaged
  · exact absurd kind other

theorem HeadOk.refcount_free {block : Physblock} (ok : HeadOk block)
    (free : block.type = physblockFree) : block.refcount = 0 := by
  rcases ok with ⟨_, zero⟩ | ⟨_, zero⟩ | ⟨other, _⟩
  · exact zero
  · exact zero
  · exact absurd (free_kind free) other

/-! ## Spans -/

theorem span_unique {spans : List PhysAllocSpan} {first second : PhysAllocSpan} {pfn : Nat}
    (apart : spans.Pairwise fun first second =>
      first.startPfn + first.numPages ≤ second.startPfn ∨
        second.startPfn + second.numPages ≤ first.startPfn)
    (firstMember : first ∈ spans) (secondMember : second ∈ spans)
    (inFirst : first.Contains pfn 1) (inSecond : second.Contains pfn 1) : first = second := by
  simp only [PhysAllocSpan.Contains] at inFirst inSecond
  induction spans with
  | nil => simp at firstMember
  | cons span spans ih =>
      rw [List.pairwise_cons] at apart
      rcases List.mem_cons.mp firstMember with rfl | firstLater
      · rcases List.mem_cons.mp secondMember with rfl | secondLater
        · rfl
        · have disjoint := apart.1 second secondLater
          omega
      · rcases List.mem_cons.mp secondMember with rfl | secondLater
        · have disjoint := apart.1 first firstLater
          omega
        · exact ih apart.2 firstLater secondLater

theorem findIdx?_agree {α : Type} {items : List α} {first second : α → Bool}
    (agree : ∀ item ∈ items, first item = second item) :
    items.findIdx? first = items.findIdx? second := by
  induction items with
  | nil => rfl
  | cons item items ih =>
      rw [List.findIdx?_cons, List.findIdx?_cons, agree item (by simp),
        ih fun other member => agree other (List.mem_cons_of_mem _ member)]

def SameSpan (spans : List PhysAllocSpan) (first second : Nat) : Prop :=
  ∃ span ∈ spans, span.Contains first 1 ∧ span.Contains second 1

theorem SameSpan.symm {spans : List PhysAllocSpan} {first second : Nat}
    (same : SameSpan spans first second) : SameSpan spans second first := by
  obtain ⟨span, member, inFirst, inSecond⟩ := same
  exact ⟨span, member, inSecond, inFirst⟩

/-- The index comparison of `physblock_to_buddy_lock` asks for one common span. -/
theorem pfnToSpanLocked_same {spans : List PhysAllocSpan} (ok : SpansOk spans)
    (first second : Nat) :
    ¬(pfnToSpanLocked spans first = none ∨
        pfnToSpanLocked spans first ≠ pfnToSpanLocked spans second) ↔
      SameSpan spans first second := by
  have contains : ∀ (span : PhysAllocSpan) (pfn : Nat),
      (decide (span.startPfn ≤ pfn) && decide (pfn < span.startPfn + span.numPages)) = true ↔
        span.Contains pfn 1 := by
    intro span pfn
    simp only [Bool.and_eq_true, decide_eq_true_eq, PhysAllocSpan.Contains]
    omega
  constructor
  · intro found
    simp only [not_or, ne_eq, not_not] at found
    obtain ⟨index, at_first⟩ := Option.ne_none_iff_exists'.mp found.1
    have at_second := found.2 ▸ at_first
    simp only [pfnToSpanLocked, List.findIdx?_eq_some_iff_getElem] at at_first at_second
    obtain ⟨bound, inFirst, _⟩ := at_first
    obtain ⟨_, inSecond, _⟩ := at_second
    exact ⟨spans[index], List.getElem_mem bound, (contains _ _).mp inFirst,
      (contains _ _).mp inSecond⟩
  · rintro ⟨span, member, inFirst, inSecond⟩
    have onlyFirst : ∀ other ∈ spans, other.Contains first 1 ↔ other = span :=
      fun other otherMember =>
        ⟨fun inOther => span_unique ok.apart otherMember member inOther inFirst,
          fun same => same ▸ inFirst⟩
    have onlySecond : ∀ other ∈ spans, other.Contains second 1 ↔ other = span :=
      fun other otherMember =>
        ⟨fun inOther => span_unique ok.apart otherMember member inOther inSecond,
          fun same => same ▸ inSecond⟩
    have equal : pfnToSpanLocked spans first = pfnToSpanLocked spans second := by
      apply findIdx?_agree
      intro other otherMember
      rw [Bool.eq_iff_iff, contains, contains, onlyFirst other otherMember,
        onlySecond other otherMember]
    rw [not_or]
    refine ⟨?_, not_not.mpr equal⟩
    intro none
    rw [pfnToSpanLocked, List.findIdx?_eq_none_iff] at none
    have absent := none span member
    rw [(contains span first).mpr inFirst] at absent
    simp at absent

theorem managedPages_card_le {spans : List PhysAllocSpan} (ok : SpansOk spans) :
    (managedPages spans).card ≤ 2 ^ 52 := by
  have subset : managedPages spans ⊆ Finset.range (2 ^ 52) := by
    intro pfn member
    obtain ⟨span, spanMember, bounds⟩ := mem_managedPages.mp member
    have bound := ok.bounded span spanMember
    simp only [PhysAllocSpan.Contains] at bounds
    rw [Finset.mem_range]
    omega
  simpa using Finset.card_le_card subset

/-! ## Free lists -/

theorem freeSequence_update (heads : Nat → List Nat) (order : Nat) (items : List Nat) :
    freeSequence (Function.update heads order items) =
      Function.update (freeSequence heads) (.freeList order) (items.map .physblock) := by
  funext node
  cases node with
  | freeList other =>
      by_cases same : other = order
      · simp [freeSequence, same]
      · have different : Node.freeList other ≠ .freeList order := by simpa using same
        simp [freeSequence, Function.update_of_ne same, Function.update_of_ne different]
  | physblock pfn => simp [freeSequence]

theorem freeLists_push {links : Links Node} {heads : Nat → List Nat} {order pfn : Nat}
    (lists : Family links IsFreeListHead (freeSequence heads)) (bound : order ≤ maxOrder)
    (fresh : ∀ other, other ≤ maxOrder → pfn ∉ heads other) :
    Family (links.insertBefore (.freeList order) (.physblock pfn)) IsFreeListHead
      (freeSequence (Function.update heads order (heads order ++ [pfn]))) := by
  rw [freeSequence_update, List.map_append]
  apply lists.pushBack ⟨order, bound, rfl⟩
  rintro other ⟨otherOrder, otherBound, rfl⟩
  simpa [freeSequence] using fresh otherOrder otherBound

theorem freeLists_detach {links : Links Node} {heads : Nat → List Nat} {order pfn : Nat}
    (lists : Family links IsFreeListHead (freeSequence heads)) (bound : order ≤ maxOrder)
    (member : pfn ∈ heads order) :
    Family (links.detach (.physblock pfn)) IsFreeListHead
      (freeSequence (Function.update heads order ((heads order).erase pfn))) := by
  have injective : Function.Injective Node.physblock := fun _ _ same => Node.physblock.inj same
  rw [freeSequence_update, List.map_erase injective]
  apply lists.detach ⟨order, bound, rfl⟩
  simpa [freeSequence] using member

theorem freeLists_nodup {links : Links Node} {heads : Nat → List Nat} {order : Nat}
    (lists : Family links IsFreeListHead (freeSequence heads)) (bound : order ≤ maxOrder) :
    (heads order).Nodup := by
  have ring := lists.ring (.freeList order) ⟨order, bound, rfl⟩
  exact List.Nodup.of_map _ (List.nodup_cons.mp ring.nodup).2

theorem Rep.listEmpty_iff {state : PhysState} {heads : Nat → List Nat} (rep : Rep state heads)
    {order : Nat} (bound : order ≤ maxOrder) :
    state.listEmpty order = true ↔ heads order = [] := by
  have ring := rep.lists.ring (.freeList order) ⟨order, bound, rfl⟩
  rw [PhysState.listEmpty_eq, decide_eq_true_eq, ring.empty_iff]
  simp [freeSequence]

theorem Rep.listFirstElement_eq {state : PhysState} {heads : Nat → List Nat}
    (rep : Rep state heads) {order first : Nat} {rest : List Nat} (bound : order ≤ maxOrder)
    (shape : heads order = first :: rest) : state.listFirstElement order = some first := by
  have ring := rep.lists.ring (.freeList order) ⟨order, bound, rfl⟩
  rw [freeSequence, shape] at ring
  rw [PhysState.listFirstElement, ring.first]

/-! ## Re-establishing the invariant -/

theorem Rep.rewrite {state changed : PhysState} {heads newHeads : Nat → List Nat}
    {first size : Nat} (rep : Rep state heads) (rewrites : Rewrites state changed first size)
    (headsOk : ∀ head order, IsBlock changed head order → first ≤ head →
      head + 2 ^ order ≤ first + size → HeadOk (changed.physblocks head))
    (lists : Family changed.links IsFreeListHead (freeSequence newHeads))
    (listed : ∀ order, order ≤ maxOrder → ∀ head,
      head ∈ newHeads order ↔ IsFree changed head order)
    (counts : ∀ order, order ≤ maxOrder → changed.stats.order order = (newHeads order).length)
    (freeCount : changed.stats.numFree4kPages = (freePages changed).card) :
    Rep changed newHeads where
  spansOk := rewrites.spans ▸ rep.spansOk
  covered := rewrites.covered rep.covered
  headsOk := by
    intro head order block
    rcases rewrites.symm.apart block with bounds | outside
    · exact headsOk head order block bounds.1 bounds.2
    · have old := rewrites.symm.keep block outside
      rw [rewrites.outside head (outside head (covers_head head order))]
      exact rep.headsOk head order old
  lists := lists
  listed := listed
  counts := counts
  freeCount := freeCount

theorem freePages_card_le {state : PhysState} (ok : SpansOk state.spans) :
    (freePages state).card ≤ 2 ^ 52 :=
  Nat.le_trans (Finset.card_le_card (Finset.filter_subset _ _)) (managedPages_card_le ok)

theorem Rep.heads_length_le {state : PhysState} {heads : Nat → List Nat} (rep : Rep state heads)
    {order : Nat} (bound : order ≤ maxOrder) : (heads order).length ≤ 2 ^ 52 := by
  have subset : (heads order).toFinset ⊆ freePages state := by
    intro head member
    rw [List.mem_toFinset] at member
    exact ((rep.listed order bound head).mp member).subset_freePages (covers_head head order)
  have card := Finset.card_le_card subset
  rw [List.toFinset_card_of_nodup (freeLists_nodup rep.lists bound)] at card
  exact Nat.le_trans card (freePages_card_le rep.spansOk)

end Zeptux.Phys
