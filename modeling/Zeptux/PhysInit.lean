import Zeptux.HandoverCore
import Zeptux.PhysAlloc

/-!
`phys_alloc_init` over an array of order-0 records. `Settled` is what holds after the
pages in `visited` have been looked at: those that were not preserved are free, and
every record outside the free pages is still the one the early allocator left.
-/

namespace Zeptux.Phys

open Dyadic IntrusiveRing LockProgram Word Footprint

def Fresh (record : Physblock) : Prop :=
  record = ⟨0, 0, physblockUnmanaged, 0⟩ ∨ ∃ type, LiveType type ∧ record = ⟨0, 0, type, 1⟩

structure Settled (plan : Nat → Physblock) (state : PhysState) (visited : Finset Nat)
    (total : Nat) : Prop where
  rep : ∃ heads, Rep state heads
  coalesced : Coalesced state
  fresh : ∀ pfn, Managed state.spans pfn → Fresh (plan pfn)
  managed : ∀ pfn ∈ visited, Managed state.spans pfn
  pages : freePages state = visited.filter fun pfn => (plan pfn).kind = physblockUnmanaged
  kept : ∀ pfn, pfn ∉ freePages state → state.physblocks pfn = plan pfn
  num4kPages : state.stats.num4kPages = total
  pagetables : state.stats.numPagetablePages =
    (visited.filter fun pfn => (plan pfn).kind = physblockPagetable).card
  physblocks : state.stats.numPhysblockPages =
    (visited.filter fun pfn => (plan pfn).kind = physblockPhysblock).card

/-! ## Changes that leave the blocks alone -/

theorem isBlock_setStats {state : PhysState} {head order : Nat}
    (change : PhysAllocStats → PhysAllocStats) :
    IsBlock (state.setStats change) head order ↔ IsBlock state head order :=
  ⟨fun block => block.congr rfl fun _ _ => rfl, fun block => block.congr rfl fun _ _ => rfl⟩

theorem isFree_setStats {state : PhysState} {head order : Nat}
    (change : PhysAllocStats → PhysAllocStats) :
    IsFree (state.setStats change) head order ↔ IsFree state head order :=
  ⟨fun free => free.congr rfl fun _ _ => rfl, fun free => free.congr rfl fun _ _ => rfl⟩

theorem Rep.setStats {state : PhysState} {heads : Nat → List Nat} (rep : Rep state heads)
    {change : PhysAllocStats → PhysAllocStats}
    (order : (change state.stats).order = state.stats.order)
    (free : (change state.stats).numFree4kPages = state.stats.numFree4kPages) :
    Rep (state.setStats change) heads where
  spansOk := rep.spansOk
  covered := by
    intro pfn managed
    obtain ⟨head, large, block, covers⟩ := rep.covered pfn managed
    exact ⟨head, large, (isBlock_setStats change).mpr block, covers⟩
  headsOk := fun head large block => rep.headsOk head large ((isBlock_setStats change).mp block)
  lists := rep.lists
  listed := by
    intro large bound head
    rw [rep.listed large bound head]
    exact (isFree_setStats change).symm
  counts := by
    intro large bound
    change (change state.stats).order large = _
    rw [order, rep.counts large bound]
  freeCount := by
    change (change state.stats).numFree4kPages = (freePages state).card
    rw [free, rep.freeCount]

theorem Coalesced.setStats {state : PhysState} (coalesced : Coalesced state)
    (change : PhysAllocStats → PhysAllocStats) : Coalesced (state.setStats change) := by
  intro head order paired
  exact coalesced head order ⟨paired.below, paired.together,
    (isFree_setStats change).mp paired.left, (isFree_setStats change).mp paired.right⟩

theorem freed_coalescedBut {state : PhysState} {head order : Nat} (coalesced : Coalesced state)
    (block : IsBlock state head order)
    (notFree : (state.physblocks head).type ≠ physblockFree) :
    CoalescedBut (state.freed head) head := by
  intro other large paired
  have left := (freed_isFree_iff block notFree _ _).mp paired.left
  have right := (freed_isFree_iff block notFree _ _).mp paired.right
  rcases left with oldLeft | same
  · rcases right with oldRight | same
    · exact absurd ⟨paired.below, paired.together, oldLeft, oldRight⟩ (coalesced other large)
    · exact Or.inr same.1
  · exact Or.inl same.1

/-! ## One page -/

section OnePage

variable {plan : Nat → Physblock} {state : PhysState} {visited : Finset Nat} {total pfn : Nat}
  {fails : Stop → Prop}

theorem Fresh.headOffset {record : Physblock} (fresh : Fresh record) : record.headOffset = 0 := by
  rcases fresh with rfl | ⟨type, _, rfl⟩ <;> rfl

theorem Fresh.order {record : Physblock} (fresh : Fresh record) : record.order = 0 := by
  rcases fresh with rfl | ⟨type, _, rfl⟩ <;> rfl

theorem Settled.unvisited (settled : Settled plan state visited total) (new : pfn ∉ visited) :
    state.physblocks pfn = plan pfn := by
  apply settled.kept
  rw [settled.pages, Finset.mem_filter]
  exact fun member => new member.1

theorem Settled.isBlock (settled : Settled plan state visited total)
    (managed : Managed state.spans pfn) (same : state.physblocks pfn = plan pfn) :
    IsBlock state pfn 0 := by
  obtain ⟨heads, rep⟩ := settled.rep
  have fresh := settled.fresh pfn managed
  obtain ⟨head, order, block, covers⟩ := rep.covered pfn managed
  have offset := block.offset covers
  rw [same, fresh.headOffset] at offset
  have atPage : head = pfn := by omega
  subst head
  have headOrder := block.headOrder
  rw [same, fresh.order] at headOrder
  subst order
  exact block

theorem freed_of_marked (state : PhysState) (block count : Nat) :
    (state.setPhysblock block fun block => { block with refcount := count }).freed block =
      state.freed block := by
  simp [PhysState.freed, PhysState.setPhysblock, PhysState.setStats, PhysState.setOrderStats,
    PhysState.listPushBack_eq, Physblock.kind]

theorem freed_usage {state : PhysState} {block : Nat}
    (unmanaged : (state.physblocks block).kind = physblockUnmanaged) :
    state.stats.SameUsage (state.freed block).stats := by
  simp [PhysState.freed, PhysState.setPhysblock, PhysState.setStats, PhysState.setOrderStats,
    PhysState.listPushBack_eq, PhysAllocStats.SameUsage, countFreedType, unmanaged,
    physblockUnmanaged, physblockPagetable, physblockPhysblock]

theorem Settled.visit_free (settled : Settled plan state visited total) (new : pfn ∉ visited)
    (managed : Managed state.spans pfn) (unmanaged : (plan pfn).kind = physblockUnmanaged)
    {after : PhysState} (compacted : Compacted (state.freed pfn) after pfn) :
    Settled plan after (insert pfn visited) total := by
  obtain ⟨heads, rep⟩ := settled.rep
  have same := settled.unvisited new
  have block := settled.isBlock managed same
  have notFree : (state.physblocks pfn).type ≠ physblockFree := by
    intro free
    have kind := free_kind free
    rw [same, unmanaged] at kind
    simp [physblockUnmanaged, physblockFree] at kind
  have pages : freePages after = insert pfn (freePages state) := by
    rw [compacted.pages, freed_freePages rep block notFree]
    ext other
    have single : pfn ≤ other ∧ other < pfn + 2 ^ 0 ↔ other = pfn := by omega
    rw [Finset.mem_union, Finset.mem_Ico, Finset.mem_insert, single, or_comm]
  have usage : state.stats.SameUsage after.stats := by
    have first := freed_usage (by rw [same]; exact unmanaged : (state.physblocks pfn).kind = _)
    have second := compacted.usage
    exact ⟨second.1.trans first.1, second.2.1.trans first.2.1, second.2.2.trans first.2.2⟩
  have notCounted : ∀ kind, physblockUnmanaged ≠ kind →
      (insert pfn visited).filter (fun pfn => (plan pfn).kind = kind) =
        visited.filter fun pfn => (plan pfn).kind = kind := by
    intro kind different
    rw [Finset.filter_insert, if_neg (by rw [unmanaged]; exact different)]
  have spans : after.spans = state.spans := compacted.spans
  refine ⟨compacted.rep, ?_, ?_, ?_, ?_, ?_, ?_, ?_, ?_⟩
  · exact compacted.coalesced (freed_coalescedBut settled.coalesced block notFree)
  · rw [spans]
    exact settled.fresh
  · intro other member
    rw [spans]
    rcases Finset.mem_insert.mp member with rfl | old
    · exact managed
    · exact settled.managed other old
  · rw [pages, settled.pages, Finset.filter_insert, if_pos unmanaged]
  · intro other outside
    rw [compacted.outside other (compacted.pages ▸ outside)]
    rw [pages, Finset.mem_insert, not_or] at outside
    rw [freed_physblocks, if_neg outside.1]
    exact settled.kept other outside.2
  · rw [usage.1, settled.num4kPages]
  · rw [usage.2.1, settled.pagetables, notCounted _ (by decide)]
  · rw [usage.2.2, settled.physblocks, notCounted _ (by decide)]

theorem countPreservedType_order (type : Nat) (stats : PhysAllocStats) :
    (countPreservedType type stats).order = stats.order := by
  unfold countPreservedType
  split
  · rfl
  · split <;> rfl

theorem countPreservedType_numFree4kPages (type : Nat) (stats : PhysAllocStats) :
    (countPreservedType type stats).numFree4kPages = stats.numFree4kPages := by
  unfold countPreservedType
  split
  · rfl
  · split <;> rfl

theorem countPreservedType_num4kPages (type : Nat) (stats : PhysAllocStats) :
    (countPreservedType type stats).num4kPages = stats.num4kPages := by
  unfold countPreservedType
  split
  · rfl
  · split <;> rfl

theorem countPreservedType_numPagetablePages (type : Nat) (stats : PhysAllocStats) :
    (countPreservedType type stats).numPagetablePages =
      if type = physblockPagetable then add64 stats.numPagetablePages 1
      else stats.numPagetablePages := by
  unfold countPreservedType
  split
  · rfl
  · split <;> rfl

theorem countPreservedType_numPhysblockPages (type : Nat) (stats : PhysAllocStats) :
    (countPreservedType type stats).numPhysblockPages =
      if type = physblockPhysblock then add64 stats.numPhysblockPages 1
      else stats.numPhysblockPages := by
  unfold countPreservedType
  by_cases pagetable : type = physblockPagetable
  · subst type
    simp [physblockPagetable, physblockPhysblock]
  · rw [if_neg pagetable]
    split <;> rfl

theorem Settled.count_insert (settled : Settled plan state visited total) (new : pfn ∉ visited)
    (kind : Nat) :
    ((insert pfn visited).filter fun pfn => (plan pfn).kind = kind).card =
      if (plan pfn).kind = kind then
        add64 (visited.filter fun pfn => (plan pfn).kind = kind).card 1
      else (visited.filter fun pfn => (plan pfn).kind = kind).card := by
  obtain ⟨heads, rep⟩ := settled.rep
  rw [Finset.filter_insert]
  by_cases same : (plan pfn).kind = kind
  · have absent : pfn ∉ visited.filter fun pfn => (plan pfn).kind = kind :=
      fun member => new (Finset.mem_filter.mp member).1
    have subset : (visited.filter fun pfn => (plan pfn).kind = kind) ⊆
        managedPages state.spans := by
      intro other member
      exact mem_managedPages.mpr (settled.managed other (Finset.mem_filter.mp member).1)
    have limit := Nat.le_trans (Finset.card_le_card subset) (managedPages_card_le rep.spansOk)
    rw [if_pos same, if_pos same, Finset.card_insert_of_notMem absent, add64_eq (by omega)]
  · rw [if_neg same, if_neg same]

theorem Settled.visit_kept (settled : Settled plan state visited total) (new : pfn ∉ visited)
    (managed : Managed state.spans pfn) (preserved : (plan pfn).kind ≠ physblockUnmanaged) :
    Settled plan (state.setStats (countPreservedType (plan pfn).kind)) (insert pfn visited)
      total := by
  obtain ⟨heads, rep⟩ := settled.rep
  refine ⟨⟨heads, ?_⟩, settled.coalesced.setStats _, settled.fresh, ?_, ?_, settled.kept, ?_, ?_, ?_⟩
  · exact rep.setStats (countPreservedType_order _ _) (countPreservedType_numFree4kPages _ _)
  · intro other member
    rcases Finset.mem_insert.mp member with rfl | old
    · exact managed
    · exact settled.managed other old
  · rw [Finset.filter_insert, if_neg preserved]
    exact settled.pages
  · change (countPreservedType _ _).num4kPages = _
    rw [countPreservedType_num4kPages, settled.num4kPages]
  · change (countPreservedType _ _).numPagetablePages = _
    rw [countPreservedType_numPagetablePages, settled.count_insert new, settled.pagetables]
  · change (countPreservedType _ _).numPhysblockPages = _
    rw [countPreservedType_numPhysblockPages, settled.count_insert new, settled.physblocks]

end OnePage

/-! ## The loops over the pages and the spans -/

section Loops

variable {plan : Nat → Physblock} {state : PhysState} {visited : Finset Nat} {total : Nat}
  {fails : Stop → Prop}

theorem wp_physAllocInitSpanFrom {remaining pfn : Nat}
    {post : Unit → PhysState → Finset Lock → Prop}
    (settled : Settled plan state visited total)
    (managed : ∀ other, pfn ≤ other → other < pfn + remaining → Managed state.spans other)
    (new : ∀ other, pfn ≤ other → other < pfn + remaining → other ∉ visited)
    (holds : ∀ after, after.spans = state.spans →
      Settled plan after (visited ∪ Finset.Ico pfn (pfn + remaining)) total → post () after ∅) :
    wp (whole.contract fails) (physAllocInitSpanFrom remaining pfn) state ∅ post := by
  induction remaining generalizing pfn state visited with
  | zero =>
      apply holds state rfl
      simpa using settled
  | succ remaining ih =>
      have pfnManaged := managed pfn (by omega) (by omega)
      have pfnNew := new pfn (by omega) (by omega)
      have same := settled.unvisited pfnNew
      have fresh := settled.fresh pfn pfnManaged
      have head : state.headOf pfn = pfn := headOf_of_head (by rw [same, fresh.headOffset])
      -- Both branches leave the page settled and the rest to the induction hypothesis.
      have rest : ∀ after, after.spans = state.spans →
          Settled plan after (insert pfn visited) total →
          wp (whole.contract fails) (physAllocInitSpanFrom remaining (pfn + 1)) after ∅ post := by
        intro after spans next
        apply ih next
        · intro other lower upper
          rw [spans]
          exact managed other (by omega) (by omega)
        · intro other lower upper member
          rcases Finset.mem_insert.mp member with rfl | old
          · omega
          · exact new other (by omega) (by omega) old
        · intro final finalSpans finalSettled
          apply holds final (finalSpans.trans spans)
          have shape : insert pfn visited ∪ Finset.Ico (pfn + 1) (pfn + 1 + remaining) =
              visited ∪ Finset.Ico pfn (pfn + (remaining + 1)) := by
            ext other
            have range : other = pfn ∨ (pfn + 1 ≤ other ∧ other < pfn + 1 + remaining) ↔
                pfn ≤ other ∧ other < pfn + (remaining + 1) := by omega
            rw [Finset.mem_union, Finset.mem_insert, Finset.mem_union, Finset.mem_Ico,
              Finset.mem_Ico, ← range]
            tauto
          rw [← shape]
          exact finalSettled
      apply wp_bind
      apply wp_pfnToPhysblockLock trivial trivial (by simp) (by simp)
      rw [head]
      apply wp_gets_bind fun data described => by rw [described.2 pfn trivial]
      have kind : (state.physblocks pfn).type &&& physblockTypeMask = (plan pfn).kind := by
        rw [same]
        rfl
      rw [kind]
      by_cases unmanaged : (plan pfn).kind = physblockUnmanaged
      · rw [if_pos unmanaged]
        obtain ⟨heads, rep⟩ := settled.rep
        have block := settled.isBlock pfnManaged same
        have notFree : (state.physblocks pfn).kind ≠ physblockFree := by
          rw [same, unmanaged]
          decide
        have freedRep := freed_rep rep block fun free => notFree (free_kind free)
        apply wp_modify_bind (respects_setPhysblock trivial _)
        apply wp_bind
        have isFree := freed_isFree block
        rw [← freed_of_marked state pfn 1] at freedRep isFree
        apply wp_freePhysblockLocked _ _ freedRep isFree
        · intro after compacted
          rw [freed_of_marked] at compacted
          exact rest after compacted.spans
            (settled.visit_free pfnNew pfnManaged unmanaged compacted)
        · simp [PhysState.setPhysblock]
        · simpa [PhysState.setPhysblock, Physblock.kind] using notFree
      · rw [if_neg unmanaged]
        refine wp_modify_bind (respects_setStats trivial _ ?_) ?_
        · exact .of_same (countPreservedType_num4kPages _ _) (countPreservedType_numFree4kPages _ _)
            (countPreservedType_order _ _)
        apply wp_unlock_bind trivial
        have none : (insert (.physblock pfn) ∅ : Finset Lock).erase (.physblock pfn) = ∅ :=
          Finset.erase_insert (by simp)
        rw [none]
        exact rest _ rfl (settled.visit_kept pfnNew pfnManaged unmanaged)

theorem Settled.count_span (settled : Settled plan state visited total) {numPages : Nat}
    (bound : total + numPages < 2 ^ 64) :
    Settled plan (state.setStats fun stats =>
      { stats with num4kPages := add64 stats.num4kPages numPages }) visited
      (total + numPages) := by
  obtain ⟨heads, rep⟩ := settled.rep
  refine ⟨⟨heads, rep.setStats rfl rfl⟩, settled.coalesced.setStats _, settled.fresh,
    settled.managed, settled.pages, settled.kept, ?_, settled.pagetables, settled.physblocks⟩
  change add64 state.stats.num4kPages numPages = _
  rw [settled.num4kPages, add64_eq bound]

theorem managedPages_cons (span : PhysAllocSpan) (spans : List PhysAllocSpan) :
    managedPages (span :: spans) =
      Finset.Ico span.startPfn (span.startPfn + span.numPages) ∪ managedPages spans := by
  ext pfn
  simp [managedPages]

theorem wp_physAllocInitFrom {spans : List PhysAllocSpan}
    {post : Unit → PhysState → Finset Lock → Prop}
    (settled : Settled plan state visited total)
    (members : ∀ span ∈ spans, span ∈ state.spans)
    (apart : spans.Pairwise fun first second =>
      first.startPfn + first.numPages ≤ second.startPfn ∨
        second.startPfn + second.numPages ≤ first.startPfn)
    (new : ∀ pfn ∈ managedPages spans, pfn ∉ visited)
    (bound : total + (spans.map (·.numPages)).sum < 2 ^ 64)
    (holds : ∀ after, after.spans = state.spans →
      Settled plan after (visited ∪ managedPages spans) (total + (spans.map (·.numPages)).sum) →
      post () after ∅) :
    wp (whole.contract fails) (physAllocInitFrom spans) state ∅ post := by
  induction spans generalizing state visited total with
  | nil =>
      apply holds state rfl
      simpa [managedPages] using settled
  | cons span spans ih =>
      rw [List.pairwise_cons] at apart
      rw [List.map_cons, List.sum_cons] at bound holds
      rw [managedPages_cons] at new holds
      have few : span.numPages ≤ 2 ^ 52 := by
        obtain ⟨heads, rep⟩ := settled.rep
        have limit := rep.spansOk.bounded span (members span (by simp))
        omega
      apply wp_bind
      refine wp_modify_bind (respects_setStats trivial _ ?_) ?_
      · exact ⟨noWrap_add64 (by omega), noWrap_of_le (Nat.le_refl _),
          fun _ => noWrap_of_le (Nat.le_refl _)⟩
      apply wp_physAllocInitSpanFrom (settled.count_span (by omega))
      · intro pfn lower upper
        refine ⟨span, members span (by simp), ?_⟩
        simp only [PhysAllocSpan.Contains]
        omega
      · intro pfn lower upper
        apply new
        simp only [Finset.mem_union, Finset.mem_Ico]
        exact Or.inl ⟨lower, upper⟩
      · intro after afterSpans next
        apply ih next
        · intro other member
          rw [afterSpans]
          exact members other (List.mem_cons_of_mem _ member)
        · exact apart.2
        · intro pfn member inVisited
          rcases Finset.mem_union.mp inVisited with old | inSpan
          · exact new pfn (Finset.mem_union_right _ member) old
          · obtain ⟨other, otherMember, bounds⟩ := mem_managedPages.mp member
            have disjoint := apart.1 other otherMember
            rw [Finset.mem_Ico] at inSpan
            simp only [PhysAllocSpan.Contains] at bounds
            omega
        · omega
        · intro final finalSpans finalSettled
          apply holds final (finalSpans.trans afterSpans)
          rw [← Finset.union_assoc, ← Nat.add_assoc]
          exact finalSettled

end Loops

/-! ## Counting pages over disjoint spans -/

theorem card_filter_Ico (start count : Nat) (Counted : Nat → Prop) [DecidablePred Counted] :
    ((Finset.Ico start (start + count)).filter Counted).card =
      (List.range count).countP fun index => decide (Counted (start + index)) := by
  induction count with
  | zero => simp
  | succ count ih =>
      have shape : Finset.Ico start (start + (count + 1)) =
          insert (start + count) (Finset.Ico start (start + count)) := by
        ext pfn
        simp only [Finset.mem_Ico, Finset.mem_insert]
        omega
      rw [List.range_succ, List.countP_append, ← ih, shape, Finset.filter_insert]
      by_cases counted : Counted (start + count)
      · rw [if_pos counted, Finset.card_insert_of_notMem (by simp)]
        simp [counted]
      · rw [if_neg counted]
        simp [counted]

theorem card_filter_managedPages {spans : List PhysAllocSpan}
    (apart : spans.Pairwise fun first second =>
      first.startPfn + first.numPages ≤ second.startPfn ∨
        second.startPfn + second.numPages ≤ first.startPfn)
    (Counted : Nat → Prop) [DecidablePred Counted] :
    ((managedPages spans).filter Counted).card =
      (spans.map fun span => (List.range span.numPages).countP fun index =>
        decide (Counted (span.startPfn + index))).sum := by
  induction spans with
  | nil => simp [managedPages]
  | cons span spans ih =>
      rw [List.pairwise_cons] at apart
      have disjoint : Disjoint
          ((Finset.Ico span.startPfn (span.startPfn + span.numPages)).filter Counted)
          ((managedPages spans).filter Counted) := by
        rw [Finset.disjoint_left]
        intro pfn first second
        obtain ⟨other, member, bounds⟩ := mem_managedPages.mp (Finset.mem_filter.mp second).1
        have separate := apart.1 other member
        have inside := Finset.mem_Ico.mp (Finset.mem_filter.mp first).1
        simp only [PhysAllocSpan.Contains] at bounds
        omega
      rw [managedPages_cons, Finset.filter_union, Finset.card_union_of_disjoint disjoint,
        card_filter_Ico, ih apart.2, List.map_cons, List.sum_cons]

end Zeptux.Phys
