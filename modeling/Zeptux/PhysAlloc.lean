import Zeptux.PhysFree

/-!
Splitting and allocating. The loop of `split_higher_order_blocks` keeps halving one
block, whose lower half is first in its list each time; `CoalescedBut` that block is
again what holds on the way.
-/

namespace Zeptux.Phys

open Dyadic IntrusiveRing LockProgram Word Footprint

variable {footprint : Footprint} {fails : Stop → Prop} {view : PhysState}
  {heads : Nat → List Nat} {order block : Nat}

/-! ## Splitting one block -/

theorem Rep.pages_counted (rep : Rep view heads) (free : IsFree view block order) :
    2 ^ order ≤ view.stats.numFree4kPages := by
  have subset : Finset.Ico block (block + 2 ^ order) ⊆ freePages view := by
    intro pfn inside
    exact free.subset_freePages (Finset.mem_Ico.mp inside)
  have card := Finset.card_le_card subset
  rw [Nat.card_Ico, Nat.add_sub_cancel_left] at card
  rw [rep.freeCount]
  exact card

theorem Rep.counted (rep : Rep view heads) (free : IsFree view block order) :
    1 ≤ view.stats.order order ∧ view.stats.order order < 2 ^ 64 := by
  have length := rep.heads_length_le free.bounded
  have listed := (rep.listed order free.bounded block).mpr free
  rw [rep.counts order free.bounded]
  exact ⟨List.length_pos_of_mem listed, by omega⟩

theorem wp_splitBlockLocked {post : Unit → PhysState → Finset Lock → Prop}
    (free : IsFree view block (order + 1)) (lists : footprint.lists)
    (visible : ∀ pfn, Covers block (order + 1) pfn → footprint.record pfn)
    (counted : 1 ≤ view.stats.order (order + 1)) (small : view.stats.order (order + 1) < 2 ^ 64)
    (holds : post () (view.split block order) {.allocState}) :
    wp (footprint.contract fails) (splitBlockLocked block) view
      {.physblock block, .allocState} post := by
  have bound := free.bounded
  have positive := Nat.two_pow_pos order
  have double : 2 ^ (order + 1) = 2 ^ order + 2 ^ order := by omega
  have shape : pfnToBuddyPfn block order = block + 2 ^ order := by
    rw [pfnToBuddyPfn_eq, buddy_of_even free.aligned]
  have newOrder : ((view.physblocks block).order + (2 ^ 8 - 1)) % 2 ^ 8 = order := by
    rw [free.headOrder]
    simp only [maxOrder] at bound
    omega
  have own := visible block (covers_head _ _)
  apply wp_gets_bind fun data described => by rw [described.2 block own]
  rw [newOrder]
  apply wp_modify_bind (respects_setPhysblock own _)
  apply wp_modify_bind (respects_setPhysblock (visible _ (by rw [shape]; exact ⟨by omega, by omega⟩)) _)
  apply wp_bind
  apply wp_setTailPhysblocks (by omega)
  · intro pfn lower upper
    rw [shape] at lower upper
    exact visible pfn ⟨by omega, by omega⟩
  · apply wp_modify_bind (respects_listDetach lists _)
    apply wp_modify_bind (respects_listPushBack lists _ _)
    apply wp_modify_bind (respects_listPushBack lists _ _)
    refine wp_modify_bind (respects_setOrderStats lists _ _ ?_) ?_
    · exact noWrap_sub64 counted small
    refine wp_modify_bind (respects_setOrderStats lists _ _ ?_) ?_
    · exact noWrap_add64 (by omega)
    refine ⟨trivial, ?_⟩
    have left : (({.physblock block, .allocState} : Finset Lock) \
        tailLocks (pfnToBuddyPfn block order) 1 (2 ^ order - 1)).erase (.physblock block) =
          {.allocState} := by
      ext lock
      cases lock with
      | allocState => simp [allocState_not_mem_tailLocks]
      | physblock pfn =>
          simp only [Finset.mem_erase, Finset.mem_sdiff, Finset.mem_insert,
            Finset.mem_singleton, ne_eq, Lock.physblock.injEq, reduceCtorEq, or_false, iff_false]
          rintro ⟨different, same, _⟩
          exact different same
    rw [left]
    exact holds

theorem split_coalescedBut (free : IsFree view block (order + 1))
    (but : CoalescedBut view block) : CoalescedBut (view.split block order) block := by
  have shape := buddy_of_even free.aligned
  have back : buddy (block + 2 ^ order) order = block := by
    rw [← shape, buddy_buddy]
  intro head other paired
  have left := paired.left
  have right := paired.right
  rw [split_isFree_iff free] at left right
  rcases left with ⟨oldLeft, leftNe⟩ | ⟨rfl, rfl | rfl⟩
  · rcases right with ⟨oldRight, _⟩ | ⟨rfl, same | same⟩
    · exact but head other ⟨paired.below, paired.together, oldLeft, oldRight⟩
    · exact Or.inr same
    · refine Or.inl ?_
      have cancel := congrArg (buddy · other) same
      rwa [buddy_buddy, back] at cancel
  · exact Or.inl rfl
  · exact Or.inr back

/-! ## Calls that never retry

The functions of the source with both "swiped from under us" branches cut out: a call that
enters one of them fails. -/

def splitBlocksDown (targetOrder : Nat) : Nat → PhysProgram Unit
  | 0 => return ()
  | gap + 1 => do
      let first ← .gets fun state => state.listFirstElement (targetOrder + (gap + 1))
      match first with
      | none => .throw .wildPointer
      | some block =>
          .lock (.physblock block)
          let record ← .gets fun state => state.physblocks block
          if record.type ≠ physblockFree ∨ record.order ≠ targetOrder + (gap + 1) then
            .throw .outOfFuel
          else
            splitBlockLocked block
            splitBlocksDown targetOrder gap

def splitHigherOrderBlocksOnce (targetOrder : Nat) : PhysProgram Unit := do
  let found ← .gets fun state =>
    firstNonEmptyFrom state (maxOrder - targetOrder) (targetOrder + 1)
  match found with
  | none =>
      panic "Out of memory (fragmentation), cannot split pages to obtain one of order %u"
        [targetOrder]
  | some order => splitBlocksDown targetOrder (order - targetOrder)

def splitAndTakeBlockOnce (order flags : Nat) : PhysProgram (Option Nat) := do
  let num4kPages := 1 <<< order
  let available ← .gets fun state => state.stats.numFree4kPages
  if available < num4kPages then
    panic "Out of memory: %lu pages requested, %lu available (order %u)"
      [num4kPages, available, order]
  let empty ← .gets fun state => state.listEmpty order
  if empty then
    splitHigherOrderBlocksOnce order
  takeFirstBlock order flags

def physAllocBlockOnce (order flags : Nat) : PhysProgram Nat := do
  if order > maxOrder then
    panic "Invalid order %u, maximum is %u" [order, maxOrder]
  .lock .allocState
  let found ← splitAndTakeBlockOnce order flags
  .unlock .allocState
  match found with
  | none => .throw .outOfFuel
  | some block => return block

theorem splitBlocksDown_cuts {target gap fuel : Nat} (enough : gap < fuel) :
    Cuts .outOfFuel (splitBlocksDown target gap) (splitBlocksFrom target fuel (target + gap)) := by
  induction gap generalizing fuel with
  | zero =>
      obtain ⟨fuel, rfl⟩ : ∃ less, fuel = less + 1 := ⟨fuel - 1, by omega⟩
      rw [splitBlocksFrom, if_pos (by omega)]
      exact .refl _
  | succ gap ih =>
      obtain ⟨fuel, rfl⟩ : ∃ less, fuel = less + 1 := ⟨fuel - 1, by omega⟩
      rw [splitBlocksFrom, if_neg (by omega), splitBlocksDown]
      refine .after _ fun first => ?_
      cases first with
      | none => exact .refl _
      | some block =>
          refine .after _ fun _ => .after _ fun record => ?_
          by_cases swiped : record.type ≠ physblockFree ∨ record.order ≠ target + (gap + 1)
          · rw [if_pos swiped]
            exact .cut _
          · rw [if_neg swiped, if_neg swiped]
            exact .after _ fun _ => ih (by omega)

theorem firstNonEmptyFrom_bounds {state : PhysState} {remaining order found : Nat}
    (first : firstNonEmptyFrom state remaining order = some found) :
    order ≤ found ∧ found < order + remaining := by
  induction remaining generalizing order with
  | zero => cases first
  | succ remaining ih =>
      rw [firstNonEmptyFrom] at first
      by_cases empty : state.listEmpty order = true
      · rw [if_pos empty] at first
        have bounds := ih first
        omega
      · rw [if_neg empty] at first
        cases first
        omega

theorem splitAndTakeBlockOnce_cuts {fuel flags : Nat} (enough : maxOrder < fuel) :
    Cuts .outOfFuel (splitAndTakeBlockOnce order flags) (splitAndTakeBlock fuel order flags) := by
  have split : Cuts .outOfFuel (splitHigherOrderBlocksOnce order)
      (splitHigherOrderBlocks fuel order) := by
    refine .gets_bind fun data => ?_
    cases first : firstNonEmptyFrom data (maxOrder - order) (order + 1) with
    | none => exact .refl _
    | some found =>
        have bounds := firstNonEmptyFrom_bounds first
        have cuts : Cuts .outOfFuel (splitBlocksDown order (found - order))
            (splitBlocksFrom order fuel (order + (found - order))) :=
          splitBlocksDown_cuts (by omega)
        rw [Nat.add_sub_cancel' (by omega)] at cuts
        exact cuts
  refine .after _ fun available => ?_
  split
  · exact .refl _
  · refine .after _ fun empty => ?_
    split
    · exact split.bind fun _ => .refl _
    · exact .refl _

theorem physAllocBlockOnce_cuts {fuel flags : Nat} (enough : maxOrder < fuel) :
    Cuts .outOfFuel (physAllocBlockOnce order flags) (physAllocBlock fuel order flags) := by
  obtain ⟨fuel, rfl⟩ : ∃ less, fuel = less + 1 := ⟨fuel - 1, by omega⟩
  rw [physAllocBlock, physAllocBlockOnce]
  split
  · exact .refl _
  · refine .after _ fun _ => (splitAndTakeBlockOnce_cuts enough).bind fun found => ?_
    refine .after _ fun _ => ?_
    cases found with
    | none => exact .cut _
    | some block => exact .refl _

theorem splitBlocksFrom_cuts {target order fuel more : Nat} (less : fuel ≤ more) :
    Cuts .outOfFuel (splitBlocksFrom target fuel order) (splitBlocksFrom target more order) := by
  induction fuel generalizing more order with
  | zero => exact .cut _
  | succ fuel ih =>
      obtain ⟨more, rfl⟩ : ∃ less, more = less + 1 := ⟨more - 1, by omega⟩
      rw [splitBlocksFrom, splitBlocksFrom]
      split
      · exact .refl _
      · refine .after _ fun first => ?_
        cases first with
        | none => exact .refl _
        | some block =>
            refine .after _ fun _ => .after _ fun record => ?_
            split
            · exact .after _ fun _ => ih (by omega)
            · exact .after _ fun _ => ih (by omega)

theorem splitAndTakeBlock_cuts {fuel more flags : Nat} (less : fuel ≤ more) :
    Cuts .outOfFuel (splitAndTakeBlock fuel order flags) (splitAndTakeBlock more order flags) := by
  refine .after _ fun available => ?_
  split
  · exact .refl _
  · refine .after _ fun empty => ?_
    split
    · refine Cuts.bind (.after _ fun found => ?_) fun _ => .refl _
      cases found with
      | none => exact .refl _
      | some found => exact splitBlocksFrom_cuts less
    · exact .refl _

theorem physAllocBlock_cuts {fuel more flags : Nat} (less : fuel ≤ more) :
    Cuts .outOfFuel (physAllocBlock fuel order flags) (physAllocBlock more order flags) := by
  induction fuel generalizing more with
  | zero => exact .cut _
  | succ fuel ih =>
      obtain ⟨more, rfl⟩ : ∃ less, more = less + 1 := ⟨more - 1, by omega⟩
      rw [physAllocBlock, physAllocBlock]
      split
      · exact .fail _
      · refine .after _ fun _ => (splitAndTakeBlock_cuts less).bind fun found => ?_
        refine .after _ fun _ => ?_
        cases found with
        | none => exact ih (by omega)
        | some block => exact .refl _

/-! ## The loops over the orders -/

theorem firstNonEmptyFrom_congr {state changed : PhysState} (links : changed.links = state.links)
    (remaining order : Nat) :
    firstNonEmptyFrom changed remaining order = firstNonEmptyFrom state remaining order := by
  induction remaining generalizing order with
  | zero => rfl
  | succ remaining ih =>
      have empty : changed.listEmpty order = state.listEmpty order := by
        rw [PhysState.listEmpty_eq, links, PhysState.listEmpty_eq]
      rw [firstNonEmptyFrom, firstNonEmptyFrom, empty, ih]

theorem firstNonEmptyFrom_none (rep : Rep view heads) {remaining order : Nat}
    (bound : order + remaining ≤ maxOrder + 1)
    (empty : ∀ other, order ≤ other → other < order + remaining → heads other = []) :
    firstNonEmptyFrom view remaining order = none := by
  induction remaining generalizing order with
  | zero => rfl
  | succ remaining ih =>
      have first := (rep.listEmpty_iff (by omega)).mpr (empty order (by omega) (by omega))
      rw [firstNonEmptyFrom, if_pos first]
      exact ih (by omega) fun other lower upper => empty other (by omega) (by omega)

theorem firstNonEmptyFrom_some (rep : Rep view heads) {remaining order found : Nat}
    (bound : order + remaining ≤ maxOrder + 1) (lower : order ≤ found)
    (upper : found < order + remaining) (inhabited : heads found ≠ [])
    (empty : ∀ other, order ≤ other → other < found → heads other = []) :
    firstNonEmptyFrom view remaining order = some found := by
  induction remaining generalizing order with
  | zero => omega
  | succ remaining ih =>
      by_cases here : order = found
      · subst found
        have first : ¬view.listEmpty order = true := fun none =>
          inhabited ((rep.listEmpty_iff (by omega)).mp none)
        rw [firstNonEmptyFrom, if_neg first]
      · have first := (rep.listEmpty_iff (by omega)).mpr (empty order (by omega) (by omega))
        rw [firstNonEmptyFrom, if_pos first]
        exact ih (by omega) (by omega) (by omega)
          fun other low high => empty other (by omega) high

structure SplitTo (before after : PhysState) (heads : Nat → List Nat) (target block : Nat) :
    Prop where
  rep : Rep after heads
  first : ∃ rest, heads target = block :: rest
  spans : after.spans = before.spans
  pages : freePages after = freePages before
  outside : ∀ pfn, pfn ∉ freePages before → after.physblocks pfn = before.physblocks pfn
  usage : before.stats.SameUsage after.stats
  coalescedBut : CoalescedBut before block → CoalescedBut after block

theorem splitHeads_order (heads : Nat → List Nat) (block order : Nat) :
    splitHeads heads block order order = heads order ++ [block] ++ [block + 2 ^ order] := by
  simp [splitHeads, removeHead]

theorem splitHeads_below (heads : Nat → List Nat) {block order other : Nat}
    (below : other < order) : splitHeads heads block order other = heads other := by
  have first : other ≠ order := by omega
  have second : other ≠ order + 1 := by omega
  simp [splitHeads, removeHead, first, second]

theorem wp_splitBlocksDown {target gap : Nat} {rest : List Nat}
    {post : Unit → PhysState → Finset Lock → Prop} (rep : Rep view heads)
    (bound : target + gap ≤ maxOrder) (first : heads (target + gap) = block :: rest)
    (empty : ∀ other, target ≤ other → other < target + gap → heads other = [])
    (lists : footprint.lists) (visible : ∀ pfn ∈ freePages view, footprint.record pfn)
    (holds : ∀ after newHeads, SplitTo view after newHeads target block →
      post () after {.allocState}) :
    wp (footprint.contract fails) (splitBlocksDown target gap) view {.allocState} post := by
  induction gap generalizing view heads rest with
  | zero =>
      exact holds view heads ⟨rep, ⟨rest, first⟩, rfl, rfl, fun _ _ => rfl, ⟨rfl, rfl, rfl⟩, id⟩
  | succ gap ih =>
      have free : IsFree view block (target + gap + 1) :=
        (rep.listed _ (by omega) block).mp (by
          rw [show target + gap + 1 = target + (gap + 1) by omega, first]
          exact List.mem_cons_self)
      have own := visible block (free.subset_freePages (covers_head _ _))
      have element : view.listFirstElement (target + (gap + 1)) = some block :=
        rep.listFirstElement_eq (by omega) first
      have pages := split_freePages rep free
      apply wp_gets_bind fun data described => by
        rw [PhysState.listFirstElement, (described.1 lists).1, PhysState.listFirstElement]
      rw [element]
      apply wp_lock_bind (by simp) own
      apply wp_gets_bind fun data described => by rw [described.2 block own]
      rw [if_neg (by simp [free.headType, free.headOrder, Nat.add_assoc])]
      apply wp_bind
      obtain ⟨counted, small⟩ := rep.counted free
      refine wp_splitBlockLocked free lists (fun pfn covers =>
        visible pfn (free.subset_freePages covers)) counted small ?_
      have head : heads (target + gap) = [] := empty _ (by omega) (by omega)
      apply ih (split_rep rep free) (by omega)
      · rw [splitHeads_order, head]
        rfl
      · intro other lower upper
        rw [splitHeads_below heads upper]
        exact empty other lower (by omega)
      · rw [pages]
        exact visible
      · intro after newHeads split
        apply holds after newHeads
        refine ⟨split.rep, split.first, split.spans, split.pages.trans pages, ?_, split.usage, ?_⟩
        · intro pfn notFree
          rw [split.outside pfn (pages ▸ notFree)]
          apply (split_rewrites free).outside
          intro covers
          exact notFree (free.subset_freePages covers)
        · exact fun but => split.coalescedBut (split_coalescedBut free but)

/-! ## Allocating -/

def withOptions (flags base : Nat) : Nat :=
  let type := if isMaskSet flags allocMovable then base ||| physblockMovable else base
  if isMaskSet flags allocPinned then type ||| physblockPinned else type

theorem withOptions_kind (flags : Nat) {base : Nat}
    (known : base = physblockPagetable ∨ base = physblockPhysblock ∨ base = physblockKernel ∨
      base = physblockUser) : withOptions flags base &&& physblockTypeMask = base := by
  simp only [withOptions]
  rcases known with rfl | rfl | rfl | rfl <;> split <;> split <;> decide

theorem allocFlagsToPhysblockType_kind {flags type : Nat}
    (valid : allocFlagsToPhysblockType flags = .ok type) :
    (flags &&& allocTypeMask = allocPagetable ∧ type &&& physblockTypeMask = physblockPagetable) ∨
    (flags &&& allocTypeMask = allocPhysblock ∧ type &&& physblockTypeMask = physblockPhysblock) ∨
    (flags &&& allocTypeMask = allocKernel ∧ type &&& physblockTypeMask = physblockKernel) ∨
    (flags &&& allocTypeMask = allocUser ∧ type &&& physblockTypeMask = physblockUser) := by
  unfold allocFlagsToPhysblockType at valid
  by_cases kernel : flags &&& allocTypeMask = allocKernel
  · rw [if_pos kernel] at valid
    cases valid
    exact Or.inr (Or.inr (Or.inl ⟨kernel, withOptions_kind flags (by simp)⟩))
  · rw [if_neg kernel] at valid
    by_cases user : flags &&& allocTypeMask = allocUser
    · rw [if_pos user] at valid
      cases valid
      exact Or.inr (Or.inr (Or.inr ⟨user, withOptions_kind flags (by simp)⟩))
    · rw [if_neg user] at valid
      by_cases pagetable : flags &&& allocTypeMask = allocPagetable
      · rw [if_pos pagetable] at valid
        cases valid
        exact Or.inl ⟨pagetable, withOptions_kind flags (by simp)⟩
      · rw [if_neg pagetable] at valid
        by_cases physblock : flags &&& allocTypeMask = allocPhysblock
        · rw [if_pos physblock] at valid
          cases valid
          exact Or.inr (Or.inl ⟨physblock, withOptions_kind flags (by simp)⟩)
        · rw [if_neg physblock] at valid
          cases valid

theorem allocFlagsToPhysblockType_live {flags type : Nat}
    (valid : allocFlagsToPhysblockType flags = .ok type) : LiveType type := by
  rcases allocFlagsToPhysblockType_kind valid with
    ⟨_, kind⟩ | ⟨_, kind⟩ | ⟨_, kind⟩ | ⟨_, kind⟩ <;>
  · constructor <;> rw [kind] <;> decide

/-- `block` was free and is now allocated; free blocks may have been cut on the way. -/
structure Allocated (before after : PhysState) (block order type : Nat) : Prop where
  rep : ∃ heads, Rep after heads
  spans : after.spans = before.spans
  isBlock : IsBlock after block order
  wasFree : Finset.Ico block (block + 2 ^ order) ⊆ freePages before
  pages : freePages after = freePages before \ Finset.Ico block (block + 2 ^ order)
  headType : (after.physblocks block).type = type
  headRefcount : (after.physblocks block).refcount = 1
  outside : ∀ pfn, pfn ∉ freePages before → after.physblocks pfn = before.physblocks pfn
  usage : (countPreservedType (type &&& physblockTypeMask) before.stats).SameUsage after.stats
  coalesced : Coalesced before → Coalesced after

theorem allocated_coalesced {type flags : Nat} (free : IsFree view block order)
    (live : LiveType type) (but : CoalescedBut view block) :
    Coalesced (view.allocated block order type flags) := by
  intro head other paired
  have left := (allocated_isFree_iff free live _ _).mp paired.left
  have right := (allocated_isFree_iff free live _ _).mp paired.right
  rcases but head other ⟨paired.below, paired.together, left.1, right.1⟩ with same | same
  · exact left.2 same
  · exact right.2 same

theorem countAllocatedType_usage {flags type : Nat} {before after : PhysAllocStats}
    (valid : allocFlagsToPhysblockType flags = .ok type) (same : before.SameUsage after) :
    (countPreservedType (type &&& physblockTypeMask) before).SameUsage
      (countAllocatedType (flags &&& allocTypeMask) after) := by
  obtain ⟨total, pagetables, physblocks⟩ := same
  rcases allocFlagsToPhysblockType_kind valid with
    ⟨request, kind⟩ | ⟨request, kind⟩ | ⟨request, kind⟩ | ⟨request, kind⟩
  · rw [request, kind]
    exact ⟨total, congrArg (add64 · 1) pagetables, physblocks⟩
  · rw [request, kind]
    exact ⟨total, pagetables, congrArg (add64 · 1) physblocks⟩
  · rw [request, kind]
    exact ⟨total, pagetables, physblocks⟩
  · rw [request, kind]
    exact ⟨total, pagetables, physblocks⟩

theorem SplitTo.allocated {before after : PhysState} {type flags : Nat}
    (split : SplitTo before after heads order block) (bound : order ≤ maxOrder)
    (valid : allocFlagsToPhysblockType flags = .ok type) :
    Allocated before (after.allocated block order type flags) block order type := by
  have live := allocFlagsToPhysblockType_live valid
  obtain ⟨rest, first⟩ := split.first
  have free : IsFree after block order :=
    (split.rep.listed order bound block).mp (by rw [first]; exact List.mem_cons_self)
  have unused := (split.rep.headsOk _ _ free.toIsBlock).refcount_free free.headType
  refine ⟨⟨_, allocated_rep split.rep free live⟩, split.spans, allocated_isBlock free live, ?_, ?_,
    ?_, ?_, ?_, countAllocatedType_usage valid split.usage, ?_⟩
  · intro pfn member
    rw [← split.pages]
    exact free.subset_freePages (Finset.mem_Ico.mp member)
  · rw [allocated_freePages split.rep free live, split.pages]
  · simp [allocated_physblocks]
  · simp [allocated_physblocks, unused]
  · intro pfn notFree
    have different : pfn ≠ block := by
      rintro rfl
      apply notFree
      rw [← split.pages]
      exact free.subset_freePages (covers_head _ _)
    rw [allocated_physblocks, if_neg different, split.outside pfn notFree]
  · intro coalesced
    apply allocated_coalesced free live
    exact split.coalescedBut fun head other paired => absurd paired (coalesced head other)

theorem wp_takeFirstBlock {flags : Nat} {rest : List Nat}
    {post : Option Nat → PhysState → Finset Lock → Prop} (rep : Rep view heads)
    (bound : order ≤ maxOrder) (first : heads order = block :: rest)
    (lists : footprint.lists) (visible : footprint.record block)
    (invalid : ∀ reason, allocFlagsToPhysblockType flags = .error reason →
      fails (.panic reason))
    (holds : ∀ type, allocFlagsToPhysblockType flags = .ok type →
      post (some block) (view.allocated block order type flags) {.allocState}) :
    wp (footprint.contract fails) (takeFirstBlock order flags) view {.allocState} post := by
  have free : IsFree view block order :=
    (rep.listed order bound block).mp (by rw [first]; exact List.mem_cons_self)
  have released : (insert (.physblock block) {.allocState} : Finset Lock).erase
      (.physblock block) = {.allocState} := Finset.erase_insert (by simp)
  obtain ⟨counted, small⟩ := rep.counted free
  have pages : 1 <<< order ≤ view.stats.numFree4kPages := by
    rw [Nat.one_shiftLeft]
    exact rep.pages_counted free
  have pagesBound : view.stats.numFree4kPages < 2 ^ 64 := by
    have few := freePages_card_le rep.spansOk
    rw [rep.freeCount]
    omega
  apply wp_gets_bind fun data described => by
    rw [PhysState.listFirstElement, (described.1 lists).1, PhysState.listFirstElement]
  rw [rep.listFirstElement_eq bound first]
  apply wp_lock_bind (by simp) visible
  apply wp_gets_bind fun data described => by rw [described.2 block visible]
  rw [if_neg (by simp [free.headType, free.headOrder])]
  apply wp_modify_bind (respects_listDetach lists _)
  cases flagsType : allocFlagsToPhysblockType flags with
  | error reason => exact invalid reason flagsType
  | ok type =>
      apply wp_modify_bind (respects_setPhysblock visible _)
      refine wp_modify_bind (respects_setStats lists _ ?_) ?_
      · exact ⟨noWrap_of_le (Nat.le_refl _), noWrap_sub64 pages pagesBound,
          fun _ => noWrap_of_le (Nat.le_refl _)⟩
      refine wp_modify_bind (respects_setOrderStats lists _ _ ?_) ?_
      · exact noWrap_sub64 counted small
      refine wp_modify_bind (respects_setStats lists _ ?_) ?_
      · exact .of_same (countAllocatedType_num4kPages _ _) (countAllocatedType_numFree4kPages _ _)
          (countAllocatedType_order _ _)
      apply wp_unlock_bind trivial
      rw [released]
      exact holds type flagsType

def Available (heads : Nat → List Nat) (order : Nat) : Prop :=
  ∃ found, order ≤ found ∧ found ≤ maxOrder ∧ heads found ≠ []

theorem Rep.enough_pages (rep : Rep view heads) (available : Available heads order) :
    2 ^ order ≤ view.stats.numFree4kPages := by
  obtain ⟨found, lower, upper, inhabited⟩ := available
  obtain ⟨head, member⟩ := List.exists_mem_of_ne_nil _ inhabited
  have counted := rep.pages_counted ((rep.listed found upper head).mp member)
  exact Nat.le_trans (Nat.pow_le_pow_right (by omega) lower) counted

theorem Available.first (available : Available heads order) :
    ∃ found, order ≤ found ∧ found ≤ maxOrder ∧ heads found ≠ [] ∧
      ∀ other, order ≤ other → other < found → heads other = [] := by
  classical
  have least := Nat.find_spec available
  refine ⟨Nat.find available, least.1, least.2.1, least.2.2, ?_⟩
  intro other lower upper
  by_contra inhabited
  exact Nat.find_min available upper ⟨lower, by omega, inhabited⟩

theorem wp_splitAndTakeBlockOnce {flags : Nat}
    {post : Option Nat → PhysState → Finset Lock → Prop} (rep : Rep view heads)
    (bound : order ≤ maxOrder) (available : Available heads order) (lists : footprint.lists)
    (visible : ∀ pfn ∈ freePages view, footprint.record pfn)
    (invalid : ∀ reason, allocFlagsToPhysblockType flags = .error reason →
      fails (.panic reason))
    (holds : ∀ type, allocFlagsToPhysblockType flags = .ok type → ∀ block after,
      Allocated view after block order type → post (some block) after {.allocState}) :
    wp (footprint.contract fails) (splitAndTakeBlockOnce order flags) view {.allocState}
      post := by
  have finish : ∀ block after newHeads, SplitTo view after newHeads order block →
      wp (footprint.contract fails) (takeFirstBlock order flags) after {.allocState} post := by
    intro block after newHeads split
    obtain ⟨rest, first⟩ := split.first
    have free : IsFree after block order :=
      (split.rep.listed order bound block).mp (by rw [first]; exact List.mem_cons_self)
    have own : footprint.record block := by
      apply visible
      rw [← split.pages]
      exact free.subset_freePages (covers_head _ _)
    apply wp_takeFirstBlock split.rep bound first lists own invalid
    intro type valid
    exact holds type valid _ _ (split.allocated bound valid)
  apply wp_gets_bind fun data described => by rw [(described.1 lists).2.1]
  have pages := rep.enough_pages available
  rw [if_neg (by rw [Nat.one_shiftLeft]; omega)]
  apply wp_gets_bind fun data described => by
    rw [PhysState.listEmpty_eq, (described.1 lists).1, PhysState.listEmpty_eq]
  by_cases empty : heads order = []
  · rw [if_pos ((rep.listEmpty_iff bound).mpr empty)]
    obtain ⟨found, lower, upper, inhabited, below⟩ := available.first
    obtain ⟨block, rest, shape⟩ := List.exists_cons_of_ne_nil inhabited
    have above : order ≠ found := by
      rintro rfl
      exact inhabited empty
    obtain ⟨gap, rfl⟩ := Nat.exists_eq_add_of_le lower
    apply wp_bind
    apply wp_gets_bind fun data described =>
      firstNonEmptyFrom_congr (described.1 lists).1 _ _
    rw [firstNonEmptyFrom_some rep (by omega) (by omega) (by omega) inhabited
      fun other low high => below other (by omega) high]
    simp only [Nat.add_sub_cancel_left]
    exact wp_splitBlocksDown rep upper shape below lists visible
      fun after newHeads split => finish block after newHeads split
  · rw [if_neg fun wrong => empty ((rep.listEmpty_iff bound).mp wrong)]
    obtain ⟨block, rest, shape⟩ := List.exists_cons_of_ne_nil empty
    exact finish block view heads ⟨rep, ⟨rest, shape⟩, rfl, rfl, fun _ _ => rfl,
      ⟨rfl, rfl, rfl⟩, id⟩

theorem wp_splitAndTakeBlockOnce_panics {flags : Nat}
    {post : Option Nat → PhysState → Finset Lock → Prop} (rep : Rep view heads)
    (bound : order ≤ maxOrder) (unavailable : ¬Available heads order) (lists : footprint.lists)
    (panics : ∀ reason, fails (.panic reason)) :
    wp (footprint.contract fails) (splitAndTakeBlockOnce order flags) view {.allocState}
      post := by
  have empty : ∀ other, order ≤ other → other ≤ maxOrder → heads other = [] := by
    intro other lower upper
    by_contra inhabited
    exact unavailable ⟨other, lower, upper, inhabited⟩
  apply wp_gets_bind fun data described => by rw [(described.1 lists).2.1]
  by_cases short : view.stats.numFree4kPages < 1 <<< order
  · rw [if_pos short]
    exact wp_bind (panics _)
  · rw [if_neg short]
    apply wp_gets_bind fun data described => by
      rw [PhysState.listEmpty_eq, (described.1 lists).1, PhysState.listEmpty_eq]
    rw [if_pos ((rep.listEmpty_iff bound).mpr (empty order (by omega) bound))]
    apply wp_bind
    apply wp_gets_bind fun data described =>
      firstNonEmptyFrom_congr (described.1 lists).1 _ _
    rw [firstNonEmptyFrom_none rep (by omega)
      fun other lower upper => empty other (by omega) (by omega)]
    exact panics _

/-- Enough fuel never shows, and too little of it is a failure of its own. -/
theorem wp_of_once {α : Type} {short : PhysProgram α} (program : Nat → PhysProgram α)
    {fuel : Nat} {locks : Finset Lock} {post : α → PhysState → Finset Lock → Prop}
    (whole : ∀ fuel, maxOrder < fuel → Cuts .outOfFuel short (program fuel))
    (grows : ∀ fuel more, fuel ≤ more → Cuts .outOfFuel (program fuel) (program more))
    (enough : maxOrder < fuel ∨ fails .outOfFuel)
    (holds : wp (footprint.contract fun stop => stop ≠ .outOfFuel ∧ fails stop) short view locks
      post) : wp (footprint.contract fails) (program fuel) view locks post := by
  have fueled : ∀ fuel, maxOrder < fuel →
      wp (footprint.contract fails) (program fuel) view locks post := by
    intro fuel large
    have strict : wp (footprint.contract fun stop => stop ≠ .outOfFuel ∧ fails stop)
        (program fuel) view locks post :=
      (whole fuel large).wp_whole (fun failed : _ ∧ _ => failed.1 rfl) holds
    apply wp_contract _ _ _ _ _ strict
    · exact fun _ _ => Iff.rfl
    · exact fun _ _ kept => kept
    · exact fun _ taken => taken
    · exact fun _ dropped => dropped
    · exact fun _ failed => failed.2
  rcases enough with large | short
  · exact fueled fuel large
  · exact (grows fuel (fuel + (maxOrder + 1)) (by omega)).wp_short short
      (fueled _ (by omega))

theorem wp_splitAndTakeBlock {fuel flags : Nat}
    {post : Option Nat → PhysState → Finset Lock → Prop} (rep : Rep view heads)
    (bound : order ≤ maxOrder) (enough : maxOrder < fuel ∨ fails .outOfFuel)
    (available : Available heads order) (lists : footprint.lists)
    (visible : ∀ pfn ∈ freePages view, footprint.record pfn)
    (invalid : ∀ reason, allocFlagsToPhysblockType flags = .error reason →
      fails (.panic reason))
    (holds : ∀ type, allocFlagsToPhysblockType flags = .ok type → ∀ block after,
      Allocated view after block order type → post (some block) after {.allocState}) :
    wp (footprint.contract fails) (splitAndTakeBlock fuel order flags) view {.allocState}
      post := by
  refine wp_of_once (splitAndTakeBlock · order flags) (fun _ => splitAndTakeBlockOnce_cuts)
    (fun _ _ => splitAndTakeBlock_cuts) enough ?_
  apply wp_splitAndTakeBlockOnce rep bound available lists visible
  · intro reason wrong
    exact ⟨Stop.noConfusion, invalid reason wrong⟩
  · exact holds

theorem wp_splitAndTakeBlock_panics {fuel flags : Nat}
    {post : Option Nat → PhysState → Finset Lock → Prop} (rep : Rep view heads)
    (bound : order ≤ maxOrder) (enough : maxOrder < fuel ∨ fails .outOfFuel)
    (unavailable : ¬Available heads order) (lists : footprint.lists)
    (panics : ∀ reason, fails (.panic reason)) :
    wp (footprint.contract fails) (splitAndTakeBlock fuel order flags) view {.allocState}
      post := by
  refine wp_of_once (splitAndTakeBlock · order flags) (fun _ => splitAndTakeBlockOnce_cuts)
    (fun _ _ => splitAndTakeBlock_cuts) enough ?_
  exact wp_splitAndTakeBlockOnce_panics rep bound unavailable lists fun reason =>
    ⟨Stop.noConfusion, panics reason⟩

theorem wp_physAllocBlockOnce {flags : Nat} {post : Nat → PhysState → Finset Lock → Prop}
    (rep : Rep view heads) (bound : order ≤ maxOrder) (available : Available heads order)
    (invalid : ∀ reason, allocFlagsToPhysblockType flags = .error reason →
      fails (.panic reason))
    (holds : ∀ type, allocFlagsToPhysblockType flags = .ok type → ∀ block after,
      Allocated view after block order type → post block after ∅) :
    wp (whole.contract fails) (physAllocBlockOnce order flags) view ∅ post := by
  rw [physAllocBlockOnce, if_neg (by omega)]
  apply wp_lock_bind (by simp) trivial
  apply wp_bind
  apply wp_splitAndTakeBlockOnce rep bound available trivial (fun _ _ => trivial) invalid
  intro type valid block after allocated
  apply wp_unlock_bind trivial
  exact holds type valid block after allocated

theorem wp_physAllocBlockOnce_panics {flags : Nat}
    {post : Nat → PhysState → Finset Lock → Prop} (rep : Rep view heads)
    (bound : order ≤ maxOrder) (unavailable : ¬Available heads order)
    (panics : ∀ reason, fails (.panic reason)) :
    wp (whole.contract fails) (physAllocBlockOnce order flags) view ∅ post := by
  rw [physAllocBlockOnce, if_neg (by omega)]
  apply wp_lock_bind (by simp) trivial
  apply wp_bind
  exact wp_splitAndTakeBlockOnce_panics rep bound unavailable trivial panics

theorem wp_physAllocBlock {fuel flags type : Nat}
    {post : Nat → PhysState → Finset Lock → Prop} (rep : Rep view heads)
    (bound : order ≤ maxOrder) (enough : maxOrder < fuel ∨ fails .outOfFuel)
    (available : Available heads order)
    (valid : allocFlagsToPhysblockType flags = .ok type)
    (holds : ∀ block after, Allocated view after block order type → post block after ∅) :
    wp (whole.contract fails) (physAllocBlock fuel order flags) view ∅ post := by
  refine wp_of_once (physAllocBlock · order flags) (fun _ => physAllocBlockOnce_cuts)
    (fun _ _ => physAllocBlock_cuts) enough ?_
  apply wp_physAllocBlockOnce rep bound available
  · intro reason wrong
    rw [valid] at wrong
    cases wrong
  · intro other same
    rw [valid] at same
    cases same
    exact holds

theorem wp_physAllocBlock_panics {fuel flags : Nat}
    {post : Nat → PhysState → Finset Lock → Prop} (rep : Rep view heads)
    (bound : order ≤ maxOrder) (enough : maxOrder < fuel ∨ fails .outOfFuel)
    (unavailable : ¬Available heads order)
    (panics : ∀ reason, fails (.panic reason)) :
    wp (whole.contract fails) (physAllocBlock fuel order flags) view ∅ post := by
  refine wp_of_once (physAllocBlock · order flags) (fun _ => physAllocBlockOnce_cuts)
    (fun _ _ => physAllocBlock_cuts) enough ?_
  exact wp_physAllocBlockOnce_panics rep bound unavailable fun reason =>
    ⟨Stop.noConfusion, panics reason⟩

end Zeptux.Phys
