import Zeptux.PhysRun

/-!
Compaction and freeing. `CoalescedBut` is the loop invariant of
`compact_free_blocks_locked`: the block in hand is the only one that may still have
a free buddy. `examinedFrom` lists the buddies the loop looks at, and so locks.
-/

namespace Zeptux.Phys

open Dyadic IntrusiveRing LockProgram Word Footprint

/-- Two free buddies that `compact_free_blocks_locked` would join. -/
structure Paired (state : PhysState) (head order : Nat) : Prop where
  below : order < maxOrder
  together : SameSpan state.spans head (buddy head order)
  left : IsFree state head order
  right : IsFree state (buddy head order) order

def Coalesced (state : PhysState) : Prop := ∀ head order, ¬Paired state head order

def CoalescedBut (state : PhysState) (block : Nat) : Prop :=
  ∀ head order, Paired state head order → head = block ∨ buddy head order = block

theorem Paired.symm {state : PhysState} {head order : Nat} (paired : Paired state head order) :
    Paired state (buddy head order) order where
  below := paired.below
  together := by
    rw [buddy_buddy]
    exact paired.together.symm
  left := paired.right
  right := by
    rw [buddy_buddy]
    exact paired.left

theorem CoalescedBut.coalesced {state : PhysState} {block order : Nat}
    (but : CoalescedBut state block) (free : IsFree state block order)
    (single : ¬Paired state block order) : Coalesced state := by
  intro head other paired
  rcases but head other paired with rfl | rfl
  · have same := IsFree.order_unique _ _ _ paired.left free
    subst other
    exact single paired
  · have same := IsFree.order_unique _ _ _ paired.right free
    subst other
    exact single paired.symm

theorem Rep.buddy_isBlock {state : PhysState} {heads : Nat → List Nat} {block order : Nat}
    (rep : Rep state heads) (isBlock : IsBlock state block order)
    (together : SameSpan state.spans block (buddy block order)) :
    ∃ small, small ≤ order ∧ IsBlock state (buddy block order) small := by
  obtain ⟨span, member, _, inside⟩ := together
  obtain ⟨head, small, buddyBlock, covers⟩ := rep.covered _ ⟨span, member, inside⟩
  have aligned := buddy_aligned isBlock.aligned
  by_cases low : small ≤ order
  · have fine : 2 ^ small ∣ buddy block order :=
      Nat.dvd_trans (Nat.pow_dvd_pow 2 low) aligned
    have upper := le_of_lt_add_of_dvd fine buddyBlock.aligned covers.2
    have same : head = buddy block order := Nat.le_antisymm covers.1 upper
    exact ⟨small, low, same ▸ buddyBlock⟩
  · have nested := buddy_nested (by omega) aligned buddyBlock.aligned covers
    rw [buddy_buddy] at nested
    have positive := Nat.two_pow_pos order
    have same := isBlock.unique buddyBlock (covers_head block order) ⟨nested.1, by omega⟩
    omega

/-! ## The buddies a compaction looks at -/

def examinedFrom (state : PhysState) : Nat → Nat → Nat → List Nat
  | 0, _, _ => []
  | remaining + 1, order, block =>
      let buddy := pfnToBuddyPfn block order
      let span := pfnToSpanLocked state.spans block
      if span = none ∨ span ≠ pfnToSpanLocked state.spans buddy then []
      else if (state.physblocks buddy).kind ≠ physblockFree ∨
          (state.physblocks buddy).order ≠ order then [buddy]
      else buddy :: examinedFrom state remaining (order + 1) (min block buddy)

theorem min_buddy {block order : Nat} (aligned : 2 ^ order ∣ block) :
    2 ^ (order + 1) ∣ min block (buddy block order) ∧
      (∀ pfn, Covers block order pfn → Covers (min block (buddy block order)) (order + 1) pfn) ∧
      ¬Covers block order (buddy block order) := by
  have positive := Nat.two_pow_pos order
  have double : 2 ^ (order + 1) = 2 ^ order + 2 ^ order := by omega
  rcases buddy_cases aligned with ⟨parent, shape⟩ | ⟨parent, shape⟩
  · have lower : min block (buddy block order) = block := by omega
    rw [lower]
    refine ⟨parent, ?_, ?_⟩
    · intro pfn covers
      simp only [Covers] at covers ⊢
      omega
    · simp only [Covers]
      omega
  · have lower : min block (buddy block order) = buddy block order := by omega
    rw [lower]
    refine ⟨parent, ?_, ?_⟩
    · intro pfn covers
      simp only [Covers] at covers ⊢
      omega
    · simp only [Covers]
      omega

theorem examinedFrom_congr {state changed : PhysState} {remaining order block : Nat}
    (spans : changed.spans = state.spans) (aligned : 2 ^ order ∣ block)
    (outside : ∀ pfn, ¬Covers block order pfn →
      changed.physblocks pfn = state.physblocks pfn) :
    examinedFrom changed remaining order block = examinedFrom state remaining order block := by
  induction remaining generalizing order block with
  | zero => rfl
  | succ remaining ih =>
      obtain ⟨parent, wider, apart⟩ := min_buddy aligned
      have same := outside _ apart
      have rest := ih parent fun pfn beyond => outside pfn fun covers => beyond (wider pfn covers)
      simp only [examinedFrom, pfnToBuddyPfn_eq, spans, same, rest]

/-! ## Joining the block in hand with its buddy -/

def PhysAllocStats.SameUsage (before after : PhysAllocStats) : Prop :=
  after.num4kPages = before.num4kPages ∧
  after.numPagetablePages = before.numPagetablePages ∧
  after.numPhysblockPages = before.numPhysblockPages

/-- What compaction may change: free blocks are cut differently, nothing else moves. -/
structure Compacted (before after : PhysState) (block : Nat) : Prop where
  rep : ∃ heads, Rep after heads
  spans : after.spans = before.spans
  pages : freePages after = freePages before
  outside : ∀ pfn, pfn ∉ freePages before → after.physblocks pfn = before.physblocks pfn
  usage : before.stats.SameUsage after.stats
  coalesced : CoalescedBut before block → Coalesced after

def PhysState.joinedWith (state : PhysState) (block order : Nat) : PhysState :=
  state.joined (min block (buddy block order)) (max block (buddy block order)) (order + 1)

section JoinedWith

variable {state : PhysState} {heads : Nat → List Nat} {block order : Nat}

theorem Paired.lower (paired : Paired state block order) :
    max block (buddy block order) = min block (buddy block order) + 2 ^ order ∧
      IsFree state (min block (buddy block order)) order ∧
      IsFree state (min block (buddy block order) + 2 ^ order) order ∧
      2 ^ (order + 1) ∣ min block (buddy block order) ∧
      SameSpan state.spans (min block (buddy block order))
        (min block (buddy block order) + 2 ^ order) := by
  have together := paired.together
  have left := paired.left
  have right := paired.right
  rcases buddy_cases paired.left.aligned with ⟨parent, shape⟩ | ⟨parent, shape⟩
  · have lower : min block (buddy block order) = block := by omega
    rw [lower]
    rw [shape] at right together
    exact ⟨by omega, left, right, parent, together⟩
  · have lower : min block (buddy block order) = buddy block order := by omega
    rw [lower]
    rw [shape] at left
    refine ⟨by omega, right, left, parent, ?_⟩
    rw [← shape]
    exact together.symm

theorem joinedWith_eq (paired : Paired state block order) :
    state.joinedWith block order = state.joined (min block (buddy block order))
      (min block (buddy block order) + 2 ^ order) (order + 1) := by
  rw [PhysState.joinedWith, paired.lower.1]

theorem joinedWith_isFree (rep : Rep state heads) (paired : Paired state block order) :
    IsFree (state.joinedWith block order) (min block (buddy block order)) (order + 1) := by
  obtain ⟨_, left, right, parent, together⟩ := paired.lower
  rw [joinedWith_eq paired]
  exact joined_isFree rep left right parent paired.below together

theorem joinedWith_rep (rep : Rep state heads) (paired : Paired state block order) :
    ∃ newHeads, Rep (state.joinedWith block order) newHeads := by
  obtain ⟨_, left, right, parent, together⟩ := paired.lower
  rw [joinedWith_eq paired]
  exact joined_rep rep left right parent paired.below together

theorem joinedWith_freePages (rep : Rep state heads) (paired : Paired state block order) :
    freePages (state.joinedWith block order) = freePages state := by
  obtain ⟨_, left, right, parent, together⟩ := paired.lower
  rw [joinedWith_eq paired]
  exact joined_freePages rep left right parent paired.below together

theorem joinedWith_outside (rep : Rep state heads) (paired : Paired state block order) :
    ∀ pfn, ¬Covers (min block (buddy block order)) (order + 1) pfn →
      (state.joinedWith block order).physblocks pfn = state.physblocks pfn := by
  obtain ⟨_, left, right, parent, together⟩ := paired.lower
  rw [joinedWith_eq paired]
  exact (joined_rewrites rep left right parent paired.below together).outside

theorem joinedWith_coalescedBut (rep : Rep state heads) (paired : Paired state block order)
    (but : CoalescedBut state block) :
    CoalescedBut (state.joinedWith block order) (min block (buddy block order)) := by
  obtain ⟨_, left, right, parent, together⟩ := paired.lower
  have members : ∀ pfn, pfn = block → pfn = min block (buddy block order) ∨
      pfn = min block (buddy block order) + 2 ^ order := by
    have upper := paired.lower.1
    intro pfn same
    omega
  intro head other joinedPair
  have leftFree := joinedPair.left
  have rightFree := joinedPair.right
  rw [joinedWith_eq paired, joined_isFree_iff rep left right parent paired.below together]
    at leftFree rightFree
  rcases leftFree with ⟨oldLeft, leftNe⟩ | ⟨atHead, _⟩
  · rcases rightFree with ⟨oldRight, rightNe⟩ | ⟨atBuddy, _⟩
    · have old : Paired state head other := ⟨joinedPair.below, joinedPair.together, oldLeft, oldRight⟩
      rcases but head other old with same | same
      · rcases members _ same with wrong | wrong
        · exact absurd wrong leftNe.1
        · exact absurd wrong leftNe.2
      · rcases members _ same with wrong | wrong
        · exact absurd wrong rightNe.1
        · exact absurd wrong rightNe.2
    · exact Or.inr atBuddy
  · exact Or.inl atHead

theorem Rep.paired (rep : Rep state heads) (free : IsFree state block order)
    (below : order < maxOrder) (together : SameSpan state.spans block (buddy block order))
    (kind : (state.physblocks (buddy block order)).kind = physblockFree)
    (sameOrder : (state.physblocks (buddy block order)).order = order) :
    Paired state block order := by
  obtain ⟨small, _, buddyBlock⟩ := rep.buddy_isBlock free.toIsBlock together
  have same : small = order := buddyBlock.headOrder.symm.trans sameOrder
  subst small
  exact ⟨below, together, free, buddyBlock, (rep.headsOk _ _ buddyBlock).free_iff.mp kind⟩

theorem Rep.both_counted (rep : Rep state heads) (paired : Paired state block order) :
    2 ≤ state.stats.order order ∧ state.stats.order order < 2 ^ 64 := by
  have bound : order ≤ maxOrder := Nat.le_of_lt paired.below
  have length := rep.heads_length_le bound
  rw [rep.counts order bound]
  refine ⟨?_, by omega⟩
  have left := (rep.listed order bound _).mpr paired.left
  have right := (rep.listed order bound _).mpr paired.right
  have subset : [block, buddy block order] ⊆ heads order := by simp [left, right]
  have nodup : [block, buddy block order].Nodup := by simp [(buddy_ne block order).symm]
  exact (List.Nodup.subperm nodup subset).length_le

theorem Compacted.of_joinedWith {after : PhysState} (rep : Rep state heads)
    (paired : Paired state block order)
    (compacted : Compacted (state.joinedWith block order) after
      (min block (buddy block order))) : Compacted state after block where
  rep := compacted.rep
  spans := compacted.spans
  pages := compacted.pages.trans (joinedWith_freePages rep paired)
  outside := by
    intro pfn notFree
    have pages := joinedWith_freePages rep paired
    rw [compacted.outside pfn (pages ▸ notFree)]
    apply joinedWith_outside rep paired
    intro covers
    apply notFree
    rw [← pages]
    exact (joinedWith_isFree rep paired).subset_freePages covers
  usage := compacted.usage
  coalesced := fun but => compacted.coalesced (joinedWith_coalescedBut rep paired but)

theorem examinedFrom_isBlock {remaining examined : Nat} (rep : Rep state heads)
    (free : IsFree state block order) (total : order + remaining = maxOrder)
    (member : examined ∈ examinedFrom state remaining order block) :
    ¬Covers block order examined ∧ ∃ small, IsBlock state examined small := by
  induction remaining generalizing state heads order block with
  | zero => cases member
  | succ remaining ih =>
      obtain ⟨parent, wider, apart⟩ := min_buddy free.aligned
      simp only [examinedFrom, pfnToBuddyPfn_eq] at member
      by_cases together : SameSpan state.spans block (buddy block order)
      · rw [if_neg ((pfnToSpanLocked_same rep.spansOk _ _).mpr together)] at member
        obtain ⟨small, _, buddyBlock⟩ := rep.buddy_isBlock free.toIsBlock together
        by_cases stop : (state.physblocks (buddy block order)).kind ≠ physblockFree ∨
            (state.physblocks (buddy block order)).order ≠ order
        · rw [if_pos stop, List.mem_singleton] at member
          exact ⟨member ▸ apart, small, member ▸ buddyBlock⟩
        · rw [if_neg stop, List.mem_cons] at member
          rcases member with first | later
          · exact ⟨first ▸ apart, small, first ▸ buddyBlock⟩
          · simp only [not_or, ne_eq, not_not] at stop
            have paired := rep.paired free (by omega) together stop.1 stop.2
            obtain ⟨newHeads, newRep⟩ := joinedWith_rep rep paired
            have spans : (state.joinedWith block order).spans = state.spans := rfl
            rw [← examinedFrom_congr spans parent (joinedWith_outside rep paired)] at later
            obtain ⟨outside, large, block⟩ :=
              ih newRep (joinedWith_isFree rep paired) (by omega) later
            refine ⟨fun covers => outside (wider _ covers), large, ?_⟩
            obtain ⟨_, leftFree, rightFree, aligned, pair⟩ := paired.lower
            rw [joinedWith_eq paired] at block
            have rewrites := joined_rewrites rep leftFree rightFree aligned paired.below pair
            rcases rewrites.symm.apart block with inside | away
            · have positive := Nat.two_pow_pos large
              exact absurd ⟨inside.1, by omega⟩ outside
            · exact rewrites.symm.keep block away
      · have test := fun same => together ((pfnToSpanLocked_same rep.spansOk _ _).mp same)
        rw [if_pos (not_not.mp test)] at member
        cases member

end JoinedWith

/-! ## The loop -/

section Specs

variable {footprint : Footprint} {fails : Stop → Prop} {view : PhysState}
  {heads : Nat → List Nat} {order block : Nat}

theorem headOf_of_head {state : PhysState} {pfn : Nat}
    (head : (state.physblocks pfn).headOffset = 0) : state.headOf pfn = pfn := by
  simp [PhysState.headOf, head]

theorem join_locks {block order : Nat} (aligned : 2 ^ order ∣ block) :
    (insert (.physblock (buddy block order)) {.physblock block, .allocState} : Finset Lock) \
        tailLocks (min block (buddy block order)) 1 (2 ^ (order + 1) - 1) =
      {.physblock (min block (buddy block order)), .allocState} := by
  have positive := Nat.two_pow_pos order
  have cases := buddy_cases aligned
  ext lock
  cases lock with
  | allocState => simp [allocState_not_mem_tailLocks]
  | physblock pfn =>
      simp only [Finset.mem_sdiff, Finset.mem_insert, Finset.mem_singleton, mem_tailLocks,
        Lock.physblock.injEq, reduceCtorEq, or_false]
      omega

theorem physblockToBuddyLock_none {post : Option Nat → PhysState → Finset Lock → Prop}
    {locks : Finset Lock} (rep : Rep view heads) (lists : footprint.lists)
    (visible : footprint.record block)
    (headOrder : (view.physblocks block).order = order)
    (separate : ¬SameSpan view.spans block (buddy block order))
    (holds : post none view locks) :
    wp (footprint.contract fails) (physblockToBuddyLock block) view locks post := by
  have test : pfnToSpanLocked view.spans block = none ∨
      pfnToSpanLocked view.spans block ≠ pfnToSpanLocked view.spans (buddy block order) :=
    not_not.mp fun same => separate ((pfnToSpanLocked_same rep.spansOk _ _).mp same)
  apply wp_gets_bind fun data described => by rw [described.2 block visible]
  apply wp_gets_bind fun data described => by rw [(described.1 lists).2.2]
  apply wp_gets_bind fun data described => by rw [(described.1 lists).2.2]
  rw [headOrder, pfnToBuddyPfn_eq, if_pos test]
  exact holds

theorem physblockToBuddyLock_some {post : Option Nat → PhysState → Finset Lock → Prop}
    {locks : Finset Lock} (rep : Rep view heads) (lists : footprint.lists)
    (visible : footprint.record block)
    (isBlock : IsBlock view block order)
    (together : SameSpan view.spans block (buddy block order))
    (buddyVisible : footprint.record (buddy block order))
    (free : Lock.physblock (buddy block order) ∉ locks)
    (holds : post (some (buddy block order)) view
      (insert (.physblock (buddy block order)) locks)) :
    wp (footprint.contract fails) (physblockToBuddyLock block) view locks post := by
  obtain ⟨small, _, buddyBlock⟩ := rep.buddy_isBlock isBlock together
  have head := headOf_of_head buddyBlock.headOffset
  apply wp_gets_bind fun data described => by rw [described.2 block visible]
  apply wp_gets_bind fun data described => by rw [(described.1 lists).2.2]
  apply wp_gets_bind fun data described => by rw [(described.1 lists).2.2]
  rw [isBlock.headOrder, pfnToBuddyPfn_eq,
    if_neg ((pfnToSpanLocked_same rep.spansOk _ _).mpr together)]
  apply wp_bind
  apply wp_pfnToPhysblockLock buddyVisible
  · rw [head]
    exact buddyVisible
  · exact free
  · rw [head]
    exact free
  · rw [head]
    exact holds

theorem wp_joinWith {rest : Nat → PhysProgram Nat} {locks : Finset Lock}
    {post : Nat → PhysState → Finset Lock → Prop} (below : order < maxOrder)
    (lists : footprint.lists)
    (visible : ∀ pfn, Covers (min block (buddy block order)) (order + 1) pfn →
      footprint.record pfn)
    (both : 2 ≤ view.stats.order order) (small : view.stats.order order < 2 ^ 64)
    (holds : wp (footprint.contract fails) (rest (min block (buddy block order)))
      (view.joinedWith block order)
      (locks \ tailLocks (min block (buddy block order)) 1 (2 ^ (order + 1) - 1)) post) :
    wp (footprint.contract fails)
      (if buddy block order < block then
        joinPhysblocksLocked (buddy block order) block (order + 1) >>= rest
      else joinPhysblocksLocked block (buddy block order) (order + 1) >>= rest)
      view locks post := by
  rw [PhysState.joinedWith] at holds
  by_cases low : buddy block order < block
  · have lower : min block (buddy block order) = buddy block order := by omega
    have upper : max block (buddy block order) = block := by omega
    rw [lower, upper] at holds
    rw [lower] at visible
    rw [if_pos low]
    exact wp_bind (wp_joinPhysblocksLocked below lists visible both small holds)
  · have lower : min block (buddy block order) = block := by omega
    have upper : max block (buddy block order) = buddy block order := by omega
    rw [lower, upper] at holds
    rw [lower] at visible
    rw [if_neg low]
    exact wp_bind (wp_joinPhysblocksLocked below lists visible both small holds)

theorem Compacted.refl (rep : Rep view heads) (free : IsFree view block order)
    (single : ¬Paired view block order) : Compacted view view block where
  rep := ⟨heads, rep⟩
  spans := rfl
  pages := rfl
  outside := fun _ _ => rfl
  usage := ⟨rfl, rfl, rfl⟩
  coalesced := fun but => but.coalesced free single

theorem wp_compactFreeBlocksFrom {remaining : Nat} {post : Nat → PhysState → Finset Lock → Prop}
    (rep : Rep view heads) (free : IsFree view block order)
    (total : order + remaining = maxOrder) (lists : footprint.lists)
    (visible : ∀ pfn ∈ freePages view, footprint.record pfn)
    (path : ∀ pfn ∈ examinedFrom view remaining order block, footprint.record pfn)
    (holds : ∀ final after, Compacted view after block →
      post final after {.physblock final, .allocState}) :
    wp (footprint.contract fails) (compactFreeBlocksFrom remaining order block) view
      {.physblock block, .allocState} post := by
  induction remaining generalizing view heads order block with
  | zero =>
      apply holds block view
      exact Compacted.refl rep free fun paired => by
        have below := paired.below
        omega
  | succ remaining ih =>
      have ownVisible := visible block (free.subset_freePages (covers_head block order))
      have aligned := free.aligned
      apply wp_bind
      by_cases together : SameSpan view.spans block (buddy block order)
      · have test := (pfnToSpanLocked_same rep.spansOk _ _).mpr together
        have buddyVisible : footprint.record (buddy block order) := by
          apply path
          simp only [examinedFrom, pfnToBuddyPfn_eq]
          rw [if_neg test]
          split <;> simp
        have buddyFree : Lock.physblock (buddy block order) ∉
            ({.physblock block, .allocState} : Finset Lock) := by
          simp [buddy_ne]
        apply physblockToBuddyLock_some rep lists ownVisible free.toIsBlock together buddyVisible
          buddyFree
        apply wp_gets_bind fun data described => by rw [described.2 _ buddyVisible]
        by_cases stop :
            (view.physblocks (buddy block order)).type &&& physblockTypeMask ≠ physblockFree ∨
            (view.physblocks (buddy block order)).order ≠ order
        · rw [if_pos stop]
          apply wp_unlock_bind trivial
          rw [Finset.erase_insert buddyFree]
          apply holds block view
          exact Compacted.refl rep free fun paired => by
            rcases stop with kind | otherOrder
            · exact kind (free_kind paired.right.headType)
            · exact otherOrder paired.right.headOrder
        · rw [if_neg stop]
          simp only [not_or, ne_eq, not_not] at stop
          have paired := rep.paired free (by omega) together stop.1 stop.2
          obtain ⟨newHeads, newRep⟩ := joinedWith_rep rep paired
          have newFree := joinedWith_isFree rep paired
          have pages := joinedWith_freePages rep paired
          have rest : ∀ pfn ∈ examinedFrom (view.joinedWith block order) remaining (order + 1)
              (min block (buddy block order)), footprint.record pfn := by
            intro pfn member
            have spans : (view.joinedWith block order).spans = view.spans := rfl
            rw [examinedFrom_congr spans (min_buddy aligned).1 (joinedWith_outside rep paired)]
              at member
            apply path
            have proceed : ¬((view.physblocks (buddy block order)).kind ≠ physblockFree ∨
                (view.physblocks (buddy block order)).order ≠ order) := by
              simp [Physblock.kind, stop]
            simp only [examinedFrom, pfnToBuddyPfn_eq]
            rw [if_neg test, if_neg proceed]
            exact List.mem_cons_of_mem _ member
          have inner := ih newRep newFree (by omega) (pages ▸ visible) rest
            fun final after compacted => holds final after (compacted.of_joinedWith rep paired)
          have covered : ∀ pfn, Covers (min block (buddy block order)) (order + 1) pfn →
              footprint.record pfn := by
            intro pfn covers
            apply visible
            rw [← pages]
            exact newFree.subset_freePages covers
          rw [← join_locks aligned] at inner
          obtain ⟨both, small⟩ := rep.both_counted paired
          exact wp_joinWith paired.below lists covered both small inner
      · apply physblockToBuddyLock_none rep lists ownVisible free.headOrder together
        apply holds block view
        exact Compacted.refl rep free fun paired => together paired.together

/-! ## Freeing -/

/-- The buddies that freeing a block makes `compact_free_blocks_locked` lock. -/
def compactionPath (state : PhysState) (block : Nat) : List Nat :=
  let order := (state.physblocks block).order
  examinedFrom state (maxOrder - order) order block

theorem wp_freeAndCompact {post : Nat → PhysState → Finset Lock → Prop}
    (notFree : (view.physblocks block).kind ≠ physblockFree)
    (rep : Rep (view.freed block) heads) (free : IsFree (view.freed block) block order)
    (lists : footprint.lists)
    (visible : ∀ pfn ∈ freePages (view.freed block), footprint.record pfn)
    (path : ∀ pfn ∈ compactionPath view block, footprint.record pfn)
    (holds : ∀ final after, Compacted (view.freed block) after block →
      post final after {.physblock final, .allocState}) :
    wp (footprint.contract fails) (freeAndCompact block order)
      (view.setPhysblock block fun block => { block with refcount := 0 })
      {.physblock block, .allocState} post := by
  have own := visible block (free.subset_freePages (covers_head block order))
  have headOrder : (view.physblocks block).order = order := by
    have same := free.headOrder
    rw [freed_physblocks, if_pos rfl] at same
    exact same
  have kind : ((view.setPhysblock block fun block => { block with refcount := 0 }).physblocks
      block).type &&& physblockTypeMask = (view.physblocks block).kind := by
    simp [PhysState.setPhysblock, Physblock.kind]
  have steps : ∀ pfn ∈ examinedFrom (view.freed block) (maxOrder - order) order block,
      footprint.record pfn := by
    intro pfn member
    apply path
    have spans : (view.freed block).spans = view.spans := rfl
    rw [examinedFrom_congr spans free.aligned] at member
    · rw [compactionPath, headOrder]
      exact member
    · intro other outside
      rw [freed_physblocks, if_neg]
      rintro rfl
      exact outside (covers_head _ _)
  apply wp_gets_bind fun data described => by rw [described.2 block own]
  rw [kind, if_pos notFree]
  have size : 1 <<< order < 2 ^ 63 := by
    rw [Nat.one_shiftLeft]
    exact Nat.lt_of_le_of_lt (Nat.pow_le_pow_right (by omega) free.bounded) (by decide)
  refine wp_modify_bind (respects_setStats lists _ ?_) ?_
  · exact .of_same (countFreedType_num4kPages _ _) (countFreedType_numFree4kPages _ _)
      (countFreedType_order _ _)
  apply wp_modify_bind (respects_setPhysblock own _)
  apply wp_modify_bind (respects_listPushBack lists _ _)
  refine wp_modify_bind (respects_setStats lists _ ?_) ?_
  · exact ⟨noWrap_of_le (Nat.le_refl _), noWrap_add64 size, fun _ => noWrap_of_le (Nat.le_refl _)⟩
  refine wp_modify_bind (respects_setOrderStats lists _ _ ?_) ?_
  · exact noWrap_add64 (by omega)
  subst headOrder
  apply wp_gets_bind fun data described => by rw [described.2 block own]
  change wp _ (compactFreeBlocksFrom (maxOrder - ((view.freed block).physblocks block).order)
    ((view.freed block).physblocks block).order block) (view.freed block) _ _
  rw [free.headOrder]
  have bound := free.bounded
  exact wp_compactFreeBlocksFrom rep free (by omega) lists visible steps holds

theorem compactionPath_isBlock {examined : Nat} {sequences : Nat → List Nat}
    (rep : Rep view sequences) (isBlock : IsBlock view block order)
    (notFree : (view.physblocks block).type ≠ physblockFree)
    (member : examined ∈ compactionPath view block) :
    ∃ small, IsBlock view examined small := by
  have rewrites := freed_rewrites isBlock
  have bound := isBlock.bounded
  rw [compactionPath, isBlock.headOrder] at member
  have same : examinedFrom (view.freed block) (maxOrder - order) order block =
      examinedFrom view (maxOrder - order) order block :=
    examinedFrom_congr rfl isBlock.aligned rewrites.outside
  rw [← same] at member
  obtain ⟨outside, small, found⟩ := examinedFrom_isBlock (freed_rep rep isBlock notFree)
    (freed_isFree isBlock) (by omega) member
  refine ⟨small, ?_⟩
  rcases rewrites.symm.apart found with inside | away
  · have positive := Nat.two_pow_pos small
    exact absurd ⟨inside.1, by omega⟩ outside
  · exact rewrites.symm.keep found away

theorem wp_freePhysblockLocked {post : Unit → PhysState → Finset Lock → Prop}
    (last : (view.physblocks block).refcount = 1)
    (notFree : (view.physblocks block).kind ≠ physblockFree)
    (rep : Rep (view.freed block) heads) (free : IsFree (view.freed block) block order)
    (holds : ∀ after, Compacted (view.freed block) after block → post () after ∅) :
    wp (whole.contract fails) (freePhysblockLocked block) view {.physblock block} post := by
  have headOrder : (view.physblocks block).order = order := by
    have same := free.headOrder
    rw [freed_physblocks, if_pos rfl] at same
    exact same
  apply wp_gets_bind fun data described => by rw [described.2 block trivial]
  rw [last, if_neg (by omega), if_neg (by omega)]
  apply wp_modify_bind (respects_setPhysblock trivial _)
  apply wp_gets_bind fun data described => by rw [described.2 block trivial]
  have unchanged : ((view.setPhysblock block fun block => { block with refcount := 0 }).physblocks
      block).order = order := by
    simp [PhysState.setPhysblock, headOrder]
  rw [unchanged]
  apply wp_lock_bind (by simp) trivial
  apply wp_bind
  rw [show (insert Lock.allocState {Lock.physblock block} : Finset Lock) =
    {.physblock block, .allocState} from Finset.pair_comm _ _]
  apply wp_freeAndCompact notFree rep free trivial (fun _ _ => trivial) (fun _ _ => trivial)
  intro final after compacted
  apply wp_unlock_bind trivial
  refine ⟨trivial, ?_⟩
  have none : (({.physblock final, .allocState} : Finset Lock).erase .allocState).erase
      (.physblock final) = ∅ := by
    ext lock
    simp only [Finset.mem_erase, Finset.mem_insert, Finset.mem_singleton, Finset.notMem_empty,
      iff_false]
    tauto
  rw [none]
  exact holds after compacted

theorem wp_freePhysblockLocked_unused {post : Unit → PhysState → Finset Lock → Prop}
    (visible : footprint.record block) (unused : (view.physblocks block).refcount = 0)
    {locks : Finset Lock} (holds : post () view (locks.erase (.physblock block))) :
    wp (footprint.contract fails) (freePhysblockLocked block) view locks post := by
  apply wp_gets_bind fun data described => by rw [described.2 block visible]
  rw [unused, if_pos rfl]
  exact ⟨trivial, holds⟩

end Specs

end Zeptux.Phys
