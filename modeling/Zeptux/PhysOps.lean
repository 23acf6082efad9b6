import Zeptux.PhysInvariant

/-!
The state changes of the allocator, without their locks: freeing a block, joining
two buddies, splitting a block and handing one out. Each is the composition of the
writes its function makes, and each keeps `Rep`.
-/

namespace Zeptux.Phys

open Dyadic IntrusiveRing Word

namespace PhysState

def withTails (state : PhysState) (start first count : Nat) : PhysState :=
  { state with
    physblocks := fun pfn =>
      if start + first ≤ pfn ∧ pfn < start + first + count then
        markTail (pfn - start) (state.physblocks pfn)
      else state.physblocks pfn }

def freed (state : PhysState) (block : Nat) : PhysState :=
  let order := (state.physblocks block).order
  let marked := ((state.setPhysblock block fun block => { block with refcount := 0 }).setStats
    (countFreedType (state.physblocks block).kind)).setPhysblock block
      fun block => { block with type := physblockFree }
  ((marked.listPushBack order block).setStats fun stats =>
    { stats with numFree4kPages := add64 stats.numFree4kPages (1 <<< order) }).setOrderStats
      order fun count => add64 count 1

def joined (state : PhysState) (head tail order : Nat) : PhysState :=
  let moved := (((state.setPhysblock head fun block => { block with order := order }).listDetach
    head).listDetach tail).listPushBack order head
  ((moved.withTails head 1 (2 ^ order - 1)).setOrderStats (order - 1)
    fun count => sub64 count 2).setOrderStats order fun count => add64 count 1

def split (state : PhysState) (block newOrder : Nat) : PhysState :=
  let buddy := pfnToBuddyPfn block newOrder
  let cut := ((state.setPhysblock block fun block => { block with order := newOrder }).setPhysblock
    buddy fun block => { block with order := newOrder, type := physblockFree, headOffset := 0 }
    ).withTails buddy 1 (2 ^ newOrder - 1)
  ((((cut.listDetach block).listPushBack newOrder block).listPushBack newOrder buddy).setOrderStats
    (newOrder + 1) fun count => sub64 count 1).setOrderStats newOrder fun count => add64 count 2

def allocated (state : PhysState) (block order type flags : Nat) : PhysState :=
  let taken := (state.listDetach block).setPhysblock block fun block =>
    { block with type := type, refcount := (block.refcount + 1) % 2 ^ 32 }
  ((taken.setStats fun stats =>
    { stats with numFree4kPages := sub64 stats.numFree4kPages (1 <<< order) }).setOrderStats
      order fun count => sub64 count 1).setStats (countAllocatedType (flags &&& allocTypeMask))

end PhysState

theorem pfnToBuddyPfn_eq (pfn order : Nat) : pfnToBuddyPfn pfn order = buddy pfn order := by
  rw [pfnToBuddyPfn, buddy, Nat.one_shiftLeft]

@[simp] theorem countFreedType_order (type : Nat) (stats : PhysAllocStats) :
    (countFreedType type stats).order = stats.order := by
  unfold countFreedType
  split
  · rfl
  · split <;> rfl

@[simp] theorem countFreedType_num4kPages (type : Nat) (stats : PhysAllocStats) :
    (countFreedType type stats).num4kPages = stats.num4kPages := by
  unfold countFreedType
  split
  · rfl
  · split <;> rfl

@[simp] theorem countFreedType_numFree4kPages (type : Nat) (stats : PhysAllocStats) :
    (countFreedType type stats).numFree4kPages = stats.numFree4kPages := by
  unfold countFreedType
  split
  · rfl
  · split <;> rfl

theorem Rep.not_listed {state : PhysState} {heads : Nat → List Nat} (rep : Rep state heads)
    {head : Nat} (notFree : (state.physblocks head).type ≠ physblockFree) :
    ∀ other, other ≤ maxOrder → head ∉ heads other :=
  fun other bound member => notFree ((rep.listed other bound head).mp member).headType

def removeHead (heads : Nat → List Nat) (order head : Nat) : Nat → List Nat :=
  Function.update heads order ((heads order).erase head)

theorem removeHead_mem {heads : Nat → List Nat} {Listed : Nat → Nat → Prop} {order head : Nat}
    (listed : ∀ other, other ≤ maxOrder → ∀ candidate,
      candidate ∈ heads other ↔ Listed candidate other)
    (unique : ∀ candidate first second, Listed candidate first → Listed candidate second →
      first = second)
    (nodup : (heads order).Nodup) (member : Listed head order) :
    ∀ other, other ≤ maxOrder → ∀ candidate,
      candidate ∈ removeHead heads order head other ↔ Listed candidate other ∧ candidate ≠ head := by
  intro other bound candidate
  by_cases same : other = order
  · subst other
    rw [removeHead, Function.update_self, nodup.mem_erase_iff, listed order bound, and_comm]
  · rw [removeHead, Function.update_of_ne same, listed other bound]
    refine ⟨fun found => ⟨found, ?_⟩, fun parts => parts.1⟩
    rintro rfl
    exact same (unique _ _ _ found member)

theorem IsFree.order_unique {state : PhysState} (head first second : Nat)
    (left : IsFree state head first) (right : IsFree state head second) : first = second :=
  left.headOrder.symm.trans right.headOrder

/-! ## Freeing -/

section Freed

variable {state : PhysState} {heads : Nat → List Nat} {head order : Nat}

theorem freed_physblocks (state : PhysState) (head pfn : Nat) :
    (state.freed head).physblocks pfn =
      if pfn = head then
        { state.physblocks head with refcount := 0, type := physblockFree }
      else state.physblocks pfn := by
  by_cases same : pfn = head
  · subst pfn
    simp [PhysState.freed, PhysState.setPhysblock, PhysState.setStats, PhysState.setOrderStats,
      PhysState.listPushBack_eq]
  · simp [PhysState.freed, PhysState.setPhysblock, PhysState.setStats, PhysState.setOrderStats,
      PhysState.listPushBack_eq, same]

theorem freed_isFree (block : IsBlock state head order) :
    IsFree (state.freed head) head order := by
  refine ⟨⟨block.bounded, block.aligned, block.inside, ?_, ?_, ?_, ?_⟩, ?_⟩
  · simp [freed_physblocks, block.headOffset]
  · simp [freed_physblocks, Physblock.kind, physblockFree, physblockTail, physblockTypeMask]
  · simp [freed_physblocks, block.headOrder]
  · intro offset positive bound
    have different : head + offset ≠ head := by omega
    rw [freed_physblocks, if_neg different]
    exact block.tails offset positive bound
  · simp [freed_physblocks]

theorem freed_rewrites (block : IsBlock state head order) :
    Rewrites state (state.freed head) head (2 ^ order) where
  spans := rfl
  outside := by
    intro pfn outside
    have positive := Nat.two_pow_pos order
    rw [freed_physblocks, if_neg (by omega)]
  before := fun pfn lower upper => ⟨head, order, block, ⟨lower, upper⟩, by omega, by omega⟩
  after := fun pfn lower upper =>
    ⟨head, order, (freed_isFree block).toIsBlock, ⟨lower, upper⟩, by omega, by omega⟩

theorem freed_isFree_iff (block : IsBlock state head order)
    (notFree : (state.physblocks head).type ≠ physblockFree) (other large : Nat) :
    IsFree (state.freed head) other large ↔
      IsFree state other large ∨ (other = head ∧ large = order) := by
  have rewrites := freed_rewrites block
  rw [rewrites.isFree_iff]
  constructor
  · rintro (⟨free, lower, upper⟩ | ⟨free, _⟩)
    · have positive := Nat.two_pow_pos large
      exact Or.inr (free.toIsBlock.unique (freed_isFree block).toIsBlock
        (covers_head other large) ⟨lower, by omega⟩)
    · exact Or.inl free
  · rintro (free | ⟨rfl, rfl⟩)
    · refine Or.inr ⟨free, ?_⟩
      intro pfn covers inside
      obtain ⟨rfl, rfl⟩ := free.toIsBlock.unique block covers inside
      exact notFree free.headType
    · exact Or.inl ⟨freed_isFree block, by omega, by omega⟩

theorem freed_freePages (rep : Rep state heads) (block : IsBlock state head order)
    (notFree : (state.physblocks head).type ≠ physblockFree) :
    freePages (state.freed head) = freePages state ∪ Finset.Ico head (head + 2 ^ order) := by
  have rewrites := freed_rewrites block
  ext pfn
  rw [Finset.mem_union, Finset.mem_Ico, mem_freePages_iff rep.covered,
    mem_freePages_iff (rewrites.covered rep.covered)]
  simp only [freed_isFree_iff block notFree]
  constructor
  · rintro ⟨other, large, free | ⟨rfl, rfl⟩, covers⟩
    · exact Or.inl ⟨other, large, free, covers⟩
    · exact Or.inr covers
  · rintro (⟨other, large, free, covers⟩ | covers)
    · exact ⟨other, large, Or.inl free, covers⟩
    · exact ⟨head, order, Or.inr ⟨rfl, rfl⟩, covers⟩

theorem not_free_disjoint (rep : Rep state heads) (block : IsBlock state head order)
    (notFree : (state.physblocks head).type ≠ physblockFree) :
    Disjoint (freePages state) (Finset.Ico head (head + 2 ^ order)) := by
  rw [Finset.disjoint_left]
  intro pfn member inside
  rw [Finset.mem_Ico] at inside
  obtain ⟨other, large, free, covers⟩ := (mem_freePages_iff rep.covered).mp member
  obtain ⟨rfl, rfl⟩ := free.toIsBlock.unique block covers inside
  exact notFree free.headType

theorem freed_rep (rep : Rep state heads) (block : IsBlock state head order)
    (notFree : (state.physblocks head).type ≠ physblockFree) :
    Rep (state.freed head) (Function.update heads order (heads order ++ [head])) := by
  have rewrites := freed_rewrites block
  apply rep.rewrite rewrites
  · intro other large otherBlock lower upper
    have positive := Nat.two_pow_pos large
    obtain ⟨rfl, rfl⟩ := otherBlock.unique (freed_isFree block).toIsBlock
      (covers_head other large) ⟨lower, by omega⟩
    exact Or.inl (by simp [freed_physblocks])
  · have pushed := freeLists_push rep.lists block.bounded (rep.not_listed notFree)
    rw [← block.headOrder] at pushed ⊢
    exact pushed
  · intro other bound candidate
    rw [freed_isFree_iff block notFree]
    by_cases same : other = order
    · subst other
      rw [Function.update_self, List.mem_append, List.mem_singleton,
        rep.listed order bound candidate]
      simp
    · rw [Function.update_of_ne same, rep.listed other bound candidate]
      simp [same]
  · intro other bound
    have shape : (state.freed head).stats.order =
        Function.update state.stats.order order (add64 (state.stats.order order) 1) := by
      simp [PhysState.freed, PhysState.setOrderStats, PhysState.setStats, PhysState.listPushBack_eq,
        PhysState.setPhysblock, block.headOrder]
    rw [shape]
    by_cases same : other = order
    · subst other
      have length := rep.heads_length_le bound
      have counted := rep.counts order bound
      rw [Function.update_self, Function.update_self, List.length_append, counted,
        add64_eq (by omega)]
      rfl
    · rw [Function.update_of_ne same, Function.update_of_ne same, rep.counts other bound]
  · have shape : (state.freed head).stats.numFree4kPages =
        add64 state.stats.numFree4kPages (2 ^ order) := by
      simp [PhysState.freed, PhysState.setOrderStats, PhysState.setStats, PhysState.listPushBack_eq,
        PhysState.setPhysblock, block.headOrder, Nat.one_shiftLeft]
    have total : (freePages (state.freed head)).card = (freePages state).card + 2 ^ order := by
      rw [freed_freePages rep block notFree,
        Finset.card_union_of_disjoint (not_free_disjoint rep block notFree), Nat.card_Ico,
        Nat.add_sub_cancel_left]
    have limit : (freePages (state.freed head)).card ≤ 2 ^ 52 := freePages_card_le rep.spansOk
    rw [shape, rep.freeCount, add64_eq (by omega), total]

end Freed

/-! ## Joining -/

section Joined

variable {state : PhysState} {heads : Nat → List Nat} {head order : Nat}

theorem joined_physblocks (state : PhysState) (head tail order pfn : Nat) :
    (state.joined head tail order).physblocks pfn =
      if pfn = head then { state.physblocks head with order := order }
      else if head < pfn ∧ pfn < head + 2 ^ order then
        markTail (pfn - head) (state.physblocks pfn)
      else state.physblocks pfn := by
  have positive := Nat.two_pow_pos order
  have range : head + 1 ≤ pfn ∧ pfn < head + 1 + (2 ^ order - 1) ↔
      head < pfn ∧ pfn < head + 2 ^ order := by omega
  by_cases same : pfn = head
  · subst pfn
    simp [PhysState.joined, PhysState.withTails, PhysState.setPhysblock, PhysState.setStats,
      PhysState.setOrderStats, PhysState.listPushBack_eq, PhysState.listDetach_eq]
  · simp only [PhysState.joined, PhysState.withTails, PhysState.setPhysblock, PhysState.setStats,
      PhysState.setOrderStats, PhysState.listPushBack_eq, PhysState.listDetach_eq, range,
      Function.update_of_ne same, same, ↓reduceIte]

theorem joined_isFree (rep : Rep state heads) (left : IsFree state head order)
    (right : IsFree state (head + 2 ^ order) order) (parent : 2 ^ (order + 1) ∣ head)
    (bound : order + 1 ≤ maxOrder) (together : SameSpan state.spans head (head + 2 ^ order)) :
    IsFree (state.joined head (head + 2 ^ order) (order + 1)) head (order + 1) := by
  have positive := Nat.two_pow_pos order
  have double : 2 ^ (order + 1) = 2 ^ order + 2 ^ order := by omega
  refine ⟨⟨bound, parent, ?_, ?_, ?_, ?_, ?_⟩, ?_⟩
  · obtain ⟨span, member, inLeft, inRight⟩ := together
    obtain ⟨leftSpan, leftMember, leftBounds⟩ := left.inside
    obtain ⟨rightSpan, rightMember, rightBounds⟩ := right.inside
    simp only [PhysAllocSpan.Contains] at leftBounds rightBounds
    have ownLeft : leftSpan.Contains head 1 := ⟨leftBounds.1, by omega⟩
    have ownRight : rightSpan.Contains (head + 2 ^ order) 1 := ⟨rightBounds.1, by omega⟩
    have leftSame := span_unique rep.spansOk.apart leftMember member ownLeft inLeft
    have rightSame := span_unique rep.spansOk.apart rightMember member ownRight inRight
    subst leftSame rightSame
    exact ⟨_, member, by simp only [PhysAllocSpan.Contains]; omega⟩
  · simp [joined_physblocks, left.headOffset]
  · simpa [joined_physblocks, Physblock.kind] using left.notTail
  · simp [joined_physblocks]
  · intro offset offsetPositive offsetBound
    have different : head + offset ≠ head := by omega
    have inside : head < head + offset ∧ head + offset < head + 2 ^ (order + 1) := by omega
    rw [joined_physblocks, if_neg different, if_pos inside]
    refine ⟨rfl, by simp [markTail], rfl, ?_⟩
    change (state.physblocks (head + offset)).refcount = 0
    rcases Nat.lt_trichotomy offset (2 ^ order) with below | middle | above
    · exact (left.tails offset offsetPositive below).refcount
    · rw [middle]
      exact (rep.headsOk _ _ right.toIsBlock).refcount_free right.headType
    · have tail := right.tails (offset - 2 ^ order) (by omega) (by omega)
      rw [show head + 2 ^ order + (offset - 2 ^ order) = head + offset by omega] at tail
      exact tail.refcount
  · simp [joined_physblocks, left.headType]

theorem joined_rewrites (rep : Rep state heads) (left : IsFree state head order)
    (right : IsFree state (head + 2 ^ order) order) (parent : 2 ^ (order + 1) ∣ head)
    (bound : order + 1 ≤ maxOrder) (together : SameSpan state.spans head (head + 2 ^ order)) :
    Rewrites state (state.joined head (head + 2 ^ order) (order + 1)) head (2 ^ (order + 1)) where
  spans := rfl
  outside := by
    intro pfn outside
    have positive := Nat.two_pow_pos (order + 1)
    rw [joined_physblocks, if_neg (by omega), if_neg (by omega)]
  before := by
    intro pfn lower upper
    have double : 2 ^ (order + 1) = 2 ^ order + 2 ^ order := by omega
    by_cases low : pfn < head + 2 ^ order
    · exact ⟨head, order, left.toIsBlock, ⟨lower, low⟩, by omega, by omega⟩
    · exact ⟨head + 2 ^ order, order, right.toIsBlock, ⟨by omega, by omega⟩, by omega, by omega⟩
  after := fun pfn lower upper => ⟨head, order + 1,
    (joined_isFree rep left right parent bound together).toIsBlock, ⟨lower, upper⟩,
    by omega, by omega⟩

theorem joined_isFree_iff (rep : Rep state heads) (left : IsFree state head order)
    (right : IsFree state (head + 2 ^ order) order) (parent : 2 ^ (order + 1) ∣ head)
    (bound : order + 1 ≤ maxOrder) (together : SameSpan state.spans head (head + 2 ^ order))
    (other large : Nat) :
    IsFree (state.joined head (head + 2 ^ order) (order + 1)) other large ↔
      (IsFree state other large ∧ other ≠ head ∧ other ≠ head + 2 ^ order) ∨
        (other = head ∧ large = order + 1) := by
  have positive := Nat.two_pow_pos order
  have double : 2 ^ (order + 1) = 2 ^ order + 2 ^ order := by omega
  have free := joined_isFree rep left right parent bound together
  rw [(joined_rewrites rep left right parent bound together).isFree_iff]
  constructor
  · rintro (⟨new, lower, upper⟩ | ⟨old, outside⟩)
    · have largePositive := Nat.two_pow_pos large
      exact Or.inr (new.toIsBlock.unique free.toIsBlock (covers_head other large)
        ⟨lower, by omega⟩)
    · have atHead := outside other (covers_head other large)
      exact Or.inl ⟨old, by omega, by omega⟩
  · rintro (⟨old, notLeft, notRight⟩ | ⟨rfl, rfl⟩)
    · refine Or.inr ⟨old, ?_⟩
      intro pfn covers inside
      by_cases low : pfn < head + 2 ^ order
      · exact notLeft (old.toIsBlock.unique left.toIsBlock covers ⟨inside.1, low⟩).1
      · exact notRight (old.toIsBlock.unique right.toIsBlock covers ⟨by omega, by omega⟩).1
    · exact Or.inl ⟨free, by omega, by omega⟩

theorem joined_freePages (rep : Rep state heads) (left : IsFree state head order)
    (right : IsFree state (head + 2 ^ order) order) (parent : 2 ^ (order + 1) ∣ head)
    (bound : order + 1 ≤ maxOrder) (together : SameSpan state.spans head (head + 2 ^ order)) :
    freePages (state.joined head (head + 2 ^ order) (order + 1)) = freePages state := by
  have rewrites := joined_rewrites rep left right parent bound together
  ext pfn
  by_cases inside : head ≤ pfn ∧ pfn < head + 2 ^ (order + 1)
  · have old : pfn ∈ freePages state := by
      by_cases low : pfn < head + 2 ^ order
      · exact left.subset_freePages ⟨inside.1, low⟩
      · exact right.subset_freePages ⟨by omega, by omega⟩
    have new := (joined_isFree rep left right parent bound together).subset_freePages inside
    exact iff_of_true new old
  · exact rewrites.mem_freePages rep.covered inside

def removeHalves (heads : Nat → List Nat) (head order : Nat) : Nat → List Nat :=
  removeHead (removeHead heads order head) order (head + 2 ^ order)

theorem removeHalves_other (heads : Nat → List Nat) (head : Nat) {order other : Nat}
    (different : other ≠ order) : removeHalves heads head order other = heads other := by
  simp [removeHalves, removeHead, Function.update_of_ne different]

theorem removeHalves_spec (rep : Rep state heads) (left : IsFree state head order)
    (right : IsFree state (head + 2 ^ order) order) (orderBound : order ≤ maxOrder) :
    Family ((state.links.detach (.physblock head)).detach (.physblock (head + 2 ^ order)))
        IsFreeListHead (freeSequence (removeHalves heads head order)) ∧
      (∀ other, other ≤ maxOrder → ∀ candidate, candidate ∈ removeHalves heads head order other ↔
        (IsFree state candidate other ∧ candidate ≠ head) ∧ candidate ≠ head + 2 ^ order) ∧
      (removeHalves heads head order order).length + 2 = (heads order).length := by
  have positive := Nat.two_pow_pos order
  have different : head + 2 ^ order ≠ head := by omega
  have leftListed := (rep.listed order orderBound head).mpr left
  have onceMem := removeHead_mem rep.listed IsFree.order_unique
    (freeLists_nodup rep.lists orderBound) left
  have onceLists : Family (state.links.detach (.physblock head)) IsFreeListHead
      (freeSequence (removeHead heads order head)) :=
    freeLists_detach rep.lists orderBound leftListed
  have rightStill := (onceMem order orderBound _).mpr ⟨right, different⟩
  refine ⟨freeLists_detach onceLists orderBound rightStill, ?_, ?_⟩
  · exact removeHead_mem onceMem
      (fun candidate first second found other =>
        IsFree.order_unique candidate first second found.1 other.1)
      (freeLists_nodup onceLists orderBound) ⟨right, different⟩
  · have inner : (removeHead heads order head order).length + 1 = (heads order).length := by
      simpa [removeHead] using List.length_erase_add_one leftListed
    have outer : (removeHalves heads head order order).length + 1 =
        (removeHead heads order head order).length := by
      simpa [removeHalves, removeHead] using List.length_erase_add_one rightStill
    omega

theorem joined_counts (rep : Rep state heads) (left : IsFree state head order)
    (right : IsFree state (head + 2 ^ order) order) (bound : order + 1 ≤ maxOrder) {other : Nat}
    (otherBound : other ≤ maxOrder) :
    (state.joined head (head + 2 ^ order) (order + 1)).stats.order other =
      (Function.update (removeHalves heads head order) (order + 1)
        (removeHalves heads head order (order + 1) ++ [head]) other).length := by
  have orderBound : order ≤ maxOrder := by omega
  have shape : (state.joined head (head + 2 ^ order) (order + 1)).stats.order =
      Function.update (Function.update state.stats.order order
        (sub64 (state.stats.order order) 2)) (order + 1)
        (add64 (state.stats.order (order + 1)) 1) := by
    simp [PhysState.joined, PhysState.setOrderStats, PhysState.setStats,
      PhysState.listPushBack_eq, PhysState.listDetach_eq, PhysState.setPhysblock,
      PhysState.withTails]
  have shorter := (removeHalves_spec rep left right orderBound).2.2
  have limit := rep.heads_length_le orderBound
  rw [shape]
  by_cases top : other = order + 1
  · subst other
    have topLimit := rep.heads_length_le bound
    rw [Function.update_self, Function.update_self, rep.counts _ bound,
      removeHalves_other heads head (by omega), List.length_append, add64_eq (by omega)]
    rfl
  · rw [Function.update_of_ne top, Function.update_of_ne top]
    by_cases low : other = order
    · subst other
      rw [Function.update_self, rep.counts order orderBound, sub64_eq (by omega) (by omega)]
      omega
    · rw [Function.update_of_ne low, rep.counts other otherBound,
        removeHalves_other heads head low]

theorem joined_rep (rep : Rep state heads) (left : IsFree state head order)
    (right : IsFree state (head + 2 ^ order) order) (parent : 2 ^ (order + 1) ∣ head)
    (bound : order + 1 ≤ maxOrder) (together : SameSpan state.spans head (head + 2 ^ order)) :
    ∃ newHeads, Rep (state.joined head (head + 2 ^ order) (order + 1)) newHeads := by
  have free := joined_isFree rep left right parent bound together
  obtain ⟨lists, removedMem, _⟩ := removeHalves_spec rep left right (by omega)
  -- The two halves leave list `order`, and the head is appended to the next one.
  refine ⟨Function.update (removeHalves heads head order) (order + 1)
    (removeHalves heads head order (order + 1) ++ [head]), ?_⟩
  apply rep.rewrite (joined_rewrites rep left right parent bound together)
  · intro other large otherBlock lower upper
    have largePositive := Nat.two_pow_pos large
    obtain ⟨rfl, rfl⟩ := otherBlock.unique free.toIsBlock (covers_head other large)
      ⟨lower, by omega⟩
    refine Or.inl ⟨free.headType, ?_⟩
    rw [joined_physblocks, if_pos rfl]
    exact (rep.headsOk _ _ left.toIsBlock).refcount_free left.headType
  · apply freeLists_push lists bound
    intro other otherBound member
    exact ((removedMem other otherBound head).mp member).1.2 rfl
  · intro other otherBound candidate
    rw [joined_isFree_iff rep left right parent bound together]
    by_cases same : other = order + 1
    · subst other
      rw [Function.update_self, List.mem_append, List.mem_singleton, removedMem _ otherBound]
      simp [and_assoc]
    · rw [Function.update_of_ne same, removedMem other otherBound]
      simp [same, and_assoc]
  · exact fun other otherBound => joined_counts rep left right bound otherBound
  · rw [joined_freePages rep left right parent bound together, ← rep.freeCount]
    simp [PhysState.joined, PhysState.setOrderStats, PhysState.setStats,
      PhysState.listPushBack_eq, PhysState.listDetach_eq, PhysState.setPhysblock, PhysState.withTails]

end Joined

/-! ## Splitting -/

section Split

variable {state : PhysState} {heads : Nat → List Nat} {head order : Nat}

theorem split_physblocks (state : PhysState) {head order : Nat} (parent : 2 ^ (order + 1) ∣ head)
    (pfn : Nat) :
    (state.split head order).physblocks pfn =
      if pfn = head then { state.physblocks head with order := order }
      else if pfn = head + 2 ^ order then
        { state.physblocks pfn with order := order, type := physblockFree, headOffset := 0 }
      else if head + 2 ^ order < pfn ∧ pfn < head + 2 ^ (order + 1) then
        markTail (pfn - (head + 2 ^ order)) (state.physblocks pfn)
      else state.physblocks pfn := by
  have positive := Nat.two_pow_pos order
  have buddyShape : pfnToBuddyPfn head order = head + 2 ^ order := by
    rw [pfnToBuddyPfn_eq, buddy_of_even parent]
  have range : head + 2 ^ order + 1 ≤ pfn ∧ pfn < head + 2 ^ order + 1 + (2 ^ order - 1) ↔
      head + 2 ^ order < pfn ∧ pfn < head + 2 ^ (order + 1) := by omega
  simp only [PhysState.split, buddyShape, PhysState.withTails, PhysState.setPhysblock,
    PhysState.setStats, PhysState.setOrderStats, PhysState.listPushBack_eq, PhysState.listDetach_eq,
    range]
  by_cases atHead : pfn = head
  · subst pfn
    simp [show ¬head + 2 ^ order < head by omega]
  · by_cases atBuddy : pfn = head + 2 ^ order
    · subst pfn
      simp
    · simp only [Function.update_of_ne atHead, Function.update_of_ne atBuddy, atHead, atBuddy,
        ↓reduceIte]

theorem split_isFree_left (free : IsFree state head (order + 1)) :
    IsFree (state.split head order) head order := by
  have positive := Nat.two_pow_pos order
  have parent := free.aligned
  obtain ⟨span, member, bounds⟩ := free.inside
  simp only [PhysAllocSpan.Contains] at bounds
  refine ⟨⟨?_, ?_, ?_, ?_, ?_, ?_, ?_⟩, ?_⟩
  · have := free.bounded
    omega
  · exact Nat.dvd_trans (Nat.pow_dvd_pow 2 (Nat.le_succ order)) parent
  · exact ⟨span, member, by simp only [PhysAllocSpan.Contains]; omega⟩
  · simp [split_physblocks state parent, free.headOffset]
  · simpa [split_physblocks state parent, Physblock.kind] using free.notTail
  · simp [split_physblocks state parent]
  · intro offset offsetPositive offsetBound
    rw [split_physblocks state parent, if_neg (by omega), if_neg (by omega), if_neg (by omega)]
    exact free.tails offset offsetPositive (by omega)
  · simp [split_physblocks state parent, free.headType]

theorem split_isFree_right (free : IsFree state head (order + 1)) :
    IsFree (state.split head order) (head + 2 ^ order) order := by
  have positive := Nat.two_pow_pos order
  have parent := free.aligned
  obtain ⟨span, member, bounds⟩ := free.inside
  simp only [PhysAllocSpan.Contains] at bounds
  have atBuddy := split_physblocks state parent (head + 2 ^ order)
  rw [if_neg (by omega), if_pos rfl] at atBuddy
  refine ⟨⟨?_, ?_, ?_, ?_, ?_, ?_, ?_⟩, ?_⟩
  · have := free.bounded
    omega
  · exact Nat.dvd_add (Nat.dvd_trans (Nat.pow_dvd_pow 2 (Nat.le_succ order)) parent)
      (Nat.dvd_refl _)
  · exact ⟨span, member, by simp only [PhysAllocSpan.Contains]; omega⟩
  · rw [atBuddy]
  · rw [atBuddy]
    simp [Physblock.kind, physblockFree, physblockTail, physblockTypeMask]
  · rw [atBuddy]
  · intro offset offsetPositive offsetBound
    rw [split_physblocks state parent, if_neg (by omega), if_neg (by omega), if_pos (by omega)]
    have tail := free.tails (2 ^ order + offset) (by omega) (by omega)
    rw [← Nat.add_assoc] at tail
    exact ⟨rfl, by simp [markTail], rfl, tail.refcount⟩
  · rw [atBuddy]

theorem split_rewrites (free : IsFree state head (order + 1)) :
    Rewrites state (state.split head order) head (2 ^ (order + 1)) where
  spans := rfl
  outside := by
    intro pfn outside
    have positive := Nat.two_pow_pos order
    rw [split_physblocks state free.aligned, if_neg (by omega), if_neg (by omega),
      if_neg (by omega)]
  before := fun pfn lower upper =>
    ⟨head, order + 1, free.toIsBlock, ⟨lower, upper⟩, by omega, by omega⟩
  after := by
    intro pfn lower upper
    by_cases low : pfn < head + 2 ^ order
    · exact ⟨head, order, (split_isFree_left free).toIsBlock, ⟨lower, low⟩, by omega, by omega⟩
    · exact ⟨head + 2 ^ order, order, (split_isFree_right free).toIsBlock,
        ⟨by omega, by omega⟩, by omega, by omega⟩

theorem split_isFree_iff (free : IsFree state head (order + 1)) (other large : Nat) :
    IsFree (state.split head order) other large ↔
      (IsFree state other large ∧ other ≠ head) ∨
        (large = order ∧ (other = head ∨ other = head + 2 ^ order)) := by
  have positive := Nat.two_pow_pos order
  rw [(split_rewrites free).isFree_iff]
  constructor
  · rintro (⟨new, lower, upper⟩ | ⟨old, outside⟩)
    · have largePositive := Nat.two_pow_pos large
      by_cases low : other < head + 2 ^ order
      · obtain ⟨rfl, rfl⟩ := new.toIsBlock.unique (split_isFree_left free).toIsBlock
          (covers_head other large) ⟨lower, low⟩
        exact Or.inr ⟨rfl, Or.inl rfl⟩
      · obtain ⟨rfl, rfl⟩ := new.toIsBlock.unique (split_isFree_right free).toIsBlock
          (covers_head other large) ⟨by omega, by omega⟩
        exact Or.inr ⟨rfl, Or.inr rfl⟩
    · have atHead := outside other (covers_head other large)
      have wide := Nat.two_pow_pos (order + 1)
      exact Or.inl ⟨old, by omega⟩
  · rintro (⟨old, notHead⟩ | ⟨rfl, rfl | rfl⟩)
    · refine Or.inr ⟨old, ?_⟩
      intro pfn covers inside
      exact notHead (old.toIsBlock.unique free.toIsBlock covers inside).1
    · exact Or.inl ⟨split_isFree_left free, by omega, by omega⟩
    · exact Or.inl ⟨split_isFree_right free, by omega, by omega⟩

theorem split_freePages (rep : Rep state heads) (free : IsFree state head (order + 1)) :
    freePages (state.split head order) = freePages state := by
  ext pfn
  by_cases inside : head ≤ pfn ∧ pfn < head + 2 ^ (order + 1)
  · have new : pfn ∈ freePages (state.split head order) := by
      by_cases low : pfn < head + 2 ^ order
      · exact (split_isFree_left free).subset_freePages ⟨inside.1, low⟩
      · exact (split_isFree_right free).subset_freePages ⟨by omega, by omega⟩
    exact iff_of_true new (free.subset_freePages inside)
  · exact (split_rewrites free).mem_freePages rep.covered inside

def splitHeads (heads : Nat → List Nat) (head order : Nat) : Nat → List Nat :=
  let removed := removeHead heads (order + 1) head
  Function.update removed order (removed order ++ [head] ++ [head + 2 ^ order])

theorem split_lists (rep : Rep state heads) (free : IsFree state head (order + 1)) :
    Family (state.split head order).links IsFreeListHead
      (freeSequence (splitHeads heads head order)) := by
  have positive := Nat.two_pow_pos order
  have topBound := free.bounded
  have bound : order ≤ maxOrder := by omega
  have listed := (rep.listed (order + 1) topBound head).mpr free
  have removedMem := removeHead_mem rep.listed IsFree.order_unique
    (freeLists_nodup rep.lists topBound) free
  have rightNotFree : ∀ other, ¬IsFree state (head + 2 ^ order) other := by
    intro other wrong
    have same := wrong.toIsBlock.unique free.toIsBlock (covers_head _ _) ⟨by omega, by omega⟩
    omega
  have detached : Family (state.links.detach (.physblock head)) IsFreeListHead
      (freeSequence (removeHead heads (order + 1) head)) :=
    freeLists_detach rep.lists topBound listed
  have pushedHead := freeLists_push detached bound fun other otherBound member =>
    ((removedMem other otherBound head).mp member).2 rfl
  have absent : ∀ other, other ≤ maxOrder → head + 2 ^ order ∉
      Function.update (removeHead heads (order + 1) head) order
        (removeHead heads (order + 1) head order ++ [head]) other := by
    intro other otherBound member
    by_cases same : other = order
    · subst other
      rw [Function.update_self, List.mem_append, List.mem_singleton] at member
      rcases member with old | equal
      · exact rightNotFree order ((removedMem order otherBound _).mp old).1
      · omega
    · rw [Function.update_of_ne same] at member
      exact rightNotFree other ((removedMem other otherBound _).mp member).1
  have pushedBuddy : Family (((state.links.detach (.physblock head)).insertBefore
      (.freeList order) (.physblock head)).insertBefore (.freeList order)
        (.physblock (head + 2 ^ order))) IsFreeListHead
        (freeSequence (splitHeads heads head order)) := by
    simpa [splitHeads] using freeLists_push pushedHead bound absent
  have buddyShape : pfnToBuddyPfn head order = head + 2 ^ order := by
    rw [pfnToBuddyPfn_eq, buddy_of_even free.aligned]
  simpa [PhysState.split, PhysState.listPushBack_eq, PhysState.listDetach_eq, PhysState.setPhysblock,
    PhysState.withTails, PhysState.setOrderStats, PhysState.setStats, buddyShape] using
    pushedBuddy

theorem split_listed (rep : Rep state heads) (free : IsFree state head (order + 1)) {other : Nat}
    (otherBound : other ≤ maxOrder) (candidate : Nat) :
    candidate ∈ splitHeads heads head order other ↔
      IsFree (state.split head order) candidate other := by
  have removedMem := removeHead_mem rep.listed IsFree.order_unique
    (freeLists_nodup rep.lists free.bounded) free
  rw [split_isFree_iff free]
  by_cases same : other = order
  · subst other
    rw [splitHeads, Function.update_self, List.mem_append, List.mem_append,
      List.mem_singleton, List.mem_singleton, removedMem _ otherBound]
    simp [or_assoc]
  · rw [splitHeads, Function.update_of_ne same, removedMem other otherBound]
    simp [same]

theorem split_counts (rep : Rep state heads) (free : IsFree state head (order + 1)) {other : Nat}
    (otherBound : other ≤ maxOrder) :
    (state.split head order).stats.order other = (splitHeads heads head order other).length := by
  have topBound := free.bounded
  have bound : order ≤ maxOrder := by omega
  have listed := (rep.listed (order + 1) topBound head).mpr free
  have shape : (state.split head order).stats.order =
      Function.update (Function.update state.stats.order (order + 1)
        (sub64 (state.stats.order (order + 1)) 1)) order
        (add64 (state.stats.order order) 2) := by
    simp [PhysState.split, PhysState.setOrderStats, PhysState.setStats,
      PhysState.listPushBack_eq, PhysState.listDetach_eq, PhysState.setPhysblock,
      PhysState.withTails]
  have topLimit := rep.heads_length_le topBound
  have lowLimit := rep.heads_length_le bound
  have shrunk := List.length_erase_add_one listed
  rw [shape]
  by_cases same : other = order
  · subst other
    rw [Function.update_self, rep.counts _ otherBound, add64_eq (by omega)]
    simp [splitHeads, removeHead]
  · rw [Function.update_of_ne same]
    by_cases top : other = order + 1
    · subst other
      rw [Function.update_self, rep.counts _ topBound, sub64_eq (by omega) (by omega)]
      simp only [splitHeads, removeHead, Function.update_of_ne same, Function.update_self]
      omega
    · rw [Function.update_of_ne top, rep.counts other otherBound]
      simp [splitHeads, removeHead, Function.update_of_ne same, Function.update_of_ne top]

theorem split_rep (rep : Rep state heads) (free : IsFree state head (order + 1)) :
    Rep (state.split head order) (splitHeads heads head order) := by
  have positive := Nat.two_pow_pos order
  apply rep.rewrite (split_rewrites free)
  · intro other large otherBlock lower upper
    have zero : (state.physblocks head).refcount = 0 :=
      (rep.headsOk _ _ free.toIsBlock).refcount_free free.headType
    have largePositive := Nat.two_pow_pos large
    by_cases inLeft : other < head + 2 ^ order
    · obtain ⟨rfl, rfl⟩ := otherBlock.unique (split_isFree_left free).toIsBlock
        (covers_head other large) ⟨lower, inLeft⟩
      exact Or.inl (by simp [split_physblocks state free.aligned, free.headType, zero])
    · obtain ⟨rfl, rfl⟩ := otherBlock.unique (split_isFree_right free).toIsBlock
        (covers_head other large) ⟨by omega, by omega⟩
      have tail := free.tails (2 ^ large) positive (by omega)
      refine Or.inl ⟨(split_isFree_right free).headType, ?_⟩
      rw [split_physblocks state free.aligned, if_neg (by omega), if_pos rfl]
      exact tail.refcount
  · exact split_lists rep free
  · exact fun other otherBound => split_listed rep free otherBound
  · exact fun other otherBound => split_counts rep free otherBound
  · rw [split_freePages rep free, ← rep.freeCount]
    simp [PhysState.split, PhysState.setOrderStats, PhysState.setStats,
      PhysState.listPushBack_eq, PhysState.listDetach_eq, PhysState.setPhysblock, PhysState.withTails]

end Split

/-! ## Allocating -/

section Allocated

variable {state : PhysState} {heads : Nat → List Nat} {head order type flags : Nat}

@[simp] theorem countAllocatedType_order (type : Nat) (stats : PhysAllocStats) :
    (countAllocatedType type stats).order = stats.order := by
  unfold countAllocatedType
  split
  · rfl
  · split <;> rfl

@[simp] theorem countAllocatedType_num4kPages (type : Nat) (stats : PhysAllocStats) :
    (countAllocatedType type stats).num4kPages = stats.num4kPages := by
  unfold countAllocatedType
  split
  · rfl
  · split <;> rfl

@[simp] theorem countAllocatedType_numFree4kPages (type : Nat) (stats : PhysAllocStats) :
    (countAllocatedType type stats).numFree4kPages = stats.numFree4kPages := by
  unfold countAllocatedType
  split
  · rfl
  · split <;> rfl

/-- The types `alloc_flags_to_physblock_type` can produce. -/
structure LiveType (type : Nat) : Prop where
  notFree : type &&& physblockTypeMask ≠ physblockFree
  notUnmanaged : type &&& physblockTypeMask ≠ physblockUnmanaged
  notTail : type &&& physblockTypeMask ≠ physblockTail

theorem LiveType.ne_free (live : LiveType type) : type ≠ physblockFree := by
  rintro rfl
  exact live.notFree (by simp [physblockFree, physblockTypeMask])

theorem allocated_physblocks (state : PhysState) (head order type flags pfn : Nat) :
    (state.allocated head order type flags).physblocks pfn =
      if pfn = head then
        { state.physblocks head with
          type := type, refcount := ((state.physblocks head).refcount + 1) % 2 ^ 32 }
      else state.physblocks pfn := by
  by_cases same : pfn = head
  · subst pfn
    simp [PhysState.allocated, PhysState.setPhysblock, PhysState.setStats,
      PhysState.setOrderStats, PhysState.listDetach_eq]
  · simp [PhysState.allocated, PhysState.setPhysblock, PhysState.setStats,
      PhysState.setOrderStats, PhysState.listDetach_eq, same]

theorem allocated_isBlock (free : IsFree state head order) (live : LiveType type) :
    IsBlock (state.allocated head order type flags) head order := by
  refine ⟨free.bounded, free.aligned, free.inside, ?_, ?_, ?_, ?_⟩
  · simp [allocated_physblocks, free.headOffset]
  · simpa [allocated_physblocks, Physblock.kind] using live.notTail
  · simp [allocated_physblocks, free.headOrder]
  · intro offset positive bound
    rw [allocated_physblocks, if_neg (by omega)]
    exact free.tails offset positive bound

theorem allocated_rewrites (free : IsFree state head order) (live : LiveType type) :
    Rewrites state (state.allocated head order type flags) head (2 ^ order) where
  spans := rfl
  outside := by
    intro pfn outside
    have positive := Nat.two_pow_pos order
    rw [allocated_physblocks, if_neg (by omega)]
  before := fun pfn lower upper =>
    ⟨head, order, free.toIsBlock, ⟨lower, upper⟩, by omega, by omega⟩
  after := fun pfn lower upper =>
    ⟨head, order, allocated_isBlock free live, ⟨lower, upper⟩, by omega, by omega⟩

theorem allocated_isFree_iff (free : IsFree state head order) (live : LiveType type)
    (other large : Nat) :
    IsFree (state.allocated head order type flags) other large ↔
      IsFree state other large ∧ other ≠ head := by
  rw [(allocated_rewrites free live).isFree_iff]
  constructor
  · rintro (⟨new, lower, upper⟩ | ⟨old, outside⟩)
    · have positive := Nat.two_pow_pos large
      obtain ⟨rfl, rfl⟩ := new.toIsBlock.unique (allocated_isBlock free live)
        (covers_head other large) ⟨lower, by omega⟩
      have wrong := new.headType
      rw [allocated_physblocks, if_pos rfl] at wrong
      exact absurd wrong live.ne_free
    · have atHead := outside other (covers_head other large)
      have positive := Nat.two_pow_pos order
      exact ⟨old, by omega⟩
  · rintro ⟨old, different⟩
    refine Or.inr ⟨old, ?_⟩
    intro pfn covers inside
    exact different (old.toIsBlock.unique free.toIsBlock covers inside).1

theorem allocated_freePages (rep : Rep state heads) (free : IsFree state head order)
    (live : LiveType type) :
    freePages (state.allocated head order type flags) =
      freePages state \ Finset.Ico head (head + 2 ^ order) := by
  have rewrites : Rewrites state (state.allocated head order type flags) head (2 ^ order) :=
    allocated_rewrites free live
  ext pfn
  rw [Finset.mem_sdiff, Finset.mem_Ico, mem_freePages_iff rep.covered,
    mem_freePages_iff (rewrites.covered rep.covered)]
  simp only [allocated_isFree_iff free live]
  constructor
  · rintro ⟨other, large, ⟨old, different⟩, covers⟩
    refine ⟨⟨other, large, old, covers⟩, fun inside => ?_⟩
    exact different (old.toIsBlock.unique free.toIsBlock covers inside).1
  · rintro ⟨⟨other, large, old, covers⟩, outside⟩
    refine ⟨other, large, ⟨old, ?_⟩, covers⟩
    rintro rfl
    have same := IsFree.order_unique _ _ _ old free
    subst large
    exact outside covers

theorem allocated_rep (rep : Rep state heads) (free : IsFree state head order)
    (live : LiveType type) :
    Rep (state.allocated head order type flags) (removeHead heads order head) := by
  have bound := free.bounded
  have listed := (rep.listed order bound head).mpr free
  have nodup := freeLists_nodup rep.lists bound
  have zero := (rep.headsOk _ _ free.toIsBlock).refcount_free free.headType
  apply rep.rewrite (allocated_rewrites free live)
  · intro other large otherBlock lower upper
    have positive := Nat.two_pow_pos large
    obtain ⟨rfl, rfl⟩ := otherBlock.unique (allocated_isBlock free live)
      (covers_head other large) ⟨lower, by omega⟩
    refine Or.inr (Or.inr ⟨?_, ?_, ?_⟩)
    · simpa [allocated_physblocks, Physblock.kind] using live.notFree
    · simpa [allocated_physblocks, Physblock.kind] using live.notUnmanaged
    · simp [allocated_physblocks, zero]
  · exact freeLists_detach rep.lists bound listed
  · intro other otherBound candidate
    rw [allocated_isFree_iff free live,
      removeHead_mem rep.listed IsFree.order_unique nodup free other otherBound]
  · intro other otherBound
    have shape : (state.allocated head order type flags).stats.order =
        Function.update state.stats.order order (sub64 (state.stats.order order) 1) := by
      simp [PhysState.allocated, PhysState.setOrderStats, PhysState.setStats,
        PhysState.listDetach_eq, PhysState.setPhysblock]
    have limit := rep.heads_length_le bound
    have shrunk := List.length_erase_add_one listed
    rw [shape]
    by_cases same : other = order
    · subst other
      rw [Function.update_self, removeHead, Function.update_self, rep.counts _ bound,
        sub64_eq (by omega) (by omega)]
      omega
    · rw [Function.update_of_ne same, removeHead, Function.update_of_ne same,
        rep.counts other otherBound]
  · have shape : (state.allocated head order type flags).stats.numFree4kPages =
        sub64 state.stats.numFree4kPages (2 ^ order) := by
      simp [PhysState.allocated, PhysState.setOrderStats, PhysState.setStats,
        PhysState.listDetach_eq, PhysState.setPhysblock, Nat.one_shiftLeft]
    have subset : Finset.Ico head (head + 2 ^ order) ⊆ freePages state := by
      intro pfn member
      exact free.subset_freePages (Finset.mem_Ico.mp member)
    have fewer := Finset.card_le_card subset
    have limit := freePages_card_le rep.spansOk
    rw [Nat.card_Ico, Nat.add_sub_cancel_left] at fewer
    rw [shape, allocated_freePages rep free live, Finset.card_sdiff_of_subset subset, Nat.card_Ico,
      Nat.add_sub_cancel_left, rep.freeCount, sub64_eq fewer (by omega)]

end Allocated

end Zeptux.Phys
