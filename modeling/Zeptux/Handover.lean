import Zeptux.PhysInit

/-!
From the bitmaps of the early allocator to the physblock array: what
`init_physblock_span` writes, and that `phys_alloc_init` then settles every page.
-/

namespace Zeptux

namespace Early

structure SpansOk (spans : List PageAllocSpan) : Prop where
  apart : spans.Pairwise fun first second =>
    first.start + pageSize * first.numPages ≤ second.start ∨
      second.start + pageSize * second.numPages ≤ first.start
  bounded : ∀ span ∈ spans, span.start + pageSize * span.numPages ≤ 2 ^ 64

namespace PageAllocSpan

def pfn (span : PageAllocSpan) (index : Nat) : Nat := physToPfn span.start + index

def toPhys (span : PageAllocSpan) : Phys.PhysAllocSpan := ⟨physToPfn span.start, span.numPages⟩

/-- The type a preserved page is given; `none` for a page that is to be freed. -/
def pageType (span : PageAllocSpan) (index : Nat) : Option Nat :=
  if span.allocBitmap.isSet index ∧ ¬span.ephemeralBitmap.isSet index then
    some <|
      if span.pagetableBitmap.isSet index then Phys.physblockPagetable
      else if span.physblockBitmap.isSet index then Phys.physblockPhysblock
      else Phys.physblockKernel ||| Phys.physblockMovable
  else none

def record (span : PageAllocSpan) (index : Nat) : Phys.Physblock :=
  match span.pageType index with
  | none => ⟨0, 0, Phys.physblockUnmanaged, 0⟩
  | some type => ⟨0, 0, type, 1⟩

end PageAllocSpan

end Early

namespace Phys

open Dyadic IntrusiveRing LockProgram Word Footprint

theorem physToPfn_eq (pa : Nat) : physToPfn pa = pa / 2 ^ 12 := by
  rw [physToPfn, Nat.shiftRight_eq_div_pow, pageShift]

theorem toPhys_spansOk {spans : List Early.PageAllocSpan} (ok : Early.SpansOk spans) :
    SpansOk (spans.map (·.toPhys)) where
  apart := by
    rw [List.pairwise_map]
    refine ok.apart.imp ?_
    intro first second disjoint
    simp only [Early.PageAllocSpan.toPhys, physToPfn_eq, pageSize, pageShift] at disjoint ⊢
    omega
  bounded := by
    intro span member
    obtain ⟨early, earlyMember, rfl⟩ := List.mem_map.mp member
    have bound := ok.bounded early earlyMember
    simp only [Early.PageAllocSpan.toPhys, physToPfn_eq, pageSize, pageShift] at bound ⊢
    omega

theorem physToPfn_spanToPhys {span : Early.PageAllocSpan} {index : Nat}
    (bound : span.start + pageSize * span.numPages ≤ 2 ^ 64) (inside : index < span.numPages) :
    physToPfn (spanToPhys span index) = span.pfn index := by
  simp only [pageSize, pageShift] at bound
  rw [spanToPhys, add64_eq (by simp only [pageSize, pageShift]; omega), physToPfn_eq,
    Early.PageAllocSpan.pfn, physToPfn_eq]
  simp only [pageSize, pageShift]
  omega

theorem pageType_live {span : Early.PageAllocSpan} {index type : Nat}
    (some : span.pageType index = some type) :
    LiveType type ∧ type &&& physblockTypeMask = (if span.pagetableBitmap.isSet index then
        physblockPagetable
      else if span.physblockBitmap.isSet index then physblockPhysblock else physblockKernel) := by
  simp only [Early.PageAllocSpan.pageType, Option.ite_none_right_eq_some, Option.some.injEq]
    at some
  rw [← some.2]
  split
  · exact ⟨⟨by decide, by decide, by decide⟩, by decide⟩
  · split
    · exact ⟨⟨by decide, by decide, by decide⟩, by decide⟩
    · exact ⟨⟨by decide, by decide, by decide⟩, by decide⟩

theorem record_fresh (span : Early.PageAllocSpan) (index : Nat) : Fresh (span.record index) := by
  unfold Early.PageAllocSpan.record
  split
  · exact Or.inl rfl
  · rename_i type found
    exact Or.inr ⟨type, (pageType_live found).1, rfl⟩

/-! ## Filling the records -/

/-- The records of `pages` are now those of the plan, the free list heads are as before. -/
structure Filled (plan : Nat → Physblock) (before after : PhysState) (pages : Finset Nat) :
    Prop where
  records : ∀ pfn ∈ pages, after.physblocks pfn = plan pfn
  outside : ∀ pfn, pfn ∉ pages → after.physblocks pfn = before.physblocks pfn
  stats : after.stats = before.stats
  spans : after.spans = before.spans
  heads : ∀ order, after.links.next (.freeList order) = before.links.next (.freeList order) ∧
    after.links.prev (.freeList order) = before.links.prev (.freeList order)

variable {plan : Nat → Physblock} {fails : Stop → Prop}

theorem Filled.trans {before middle after : PhysState} {first second : Finset Nat}
    (left : Filled plan before middle first) (right : Filled plan middle after second) :
    Filled plan before after (first ∪ second) where
  records := by
    intro pfn member
    by_cases later : pfn ∈ second
    · exact right.records pfn later
    · rw [right.outside pfn later]
      exact left.records pfn ((Finset.mem_union.mp member).resolve_right later)
  outside := by
    intro pfn absent
    rw [Finset.mem_union, not_or] at absent
    rw [right.outside pfn absent.2, left.outside pfn absent.1]
  stats := right.stats.trans left.stats
  spans := right.spans.trans left.spans
  heads := fun order =>
    ⟨(right.heads order).1.trans (left.heads order).1,
      (right.heads order).2.trans (left.heads order).2⟩

theorem Filled.refl (state : PhysState) : Filled plan state state ∅ :=
  ⟨by simp, fun _ _ => rfl, rfl, rfl, fun _ => ⟨rfl, rfl⟩⟩

theorem respects_listNodeInit {view : PhysState} (node : Node) :
    whole.Respects fails (fun state => state.listNodeInit node) view := by
  intro data described
  obtain ⟨lists, records⟩ := described
  refine ⟨⟨fun _ => ?_, records⟩, fun hidden => absurd trivial hidden, fun _ _ => rfl, .refl _⟩
  simp [PhysState.listNodeInit_eq, lists trivial]

theorem filled_one {state after : PhysState} {pfn : Nat}
    (record : after.physblocks = Function.update state.physblocks pfn (plan pfn))
    (links : after.links = state.links.isolate (.physblock pfn))
    (stats : after.stats = state.stats) (spans : after.spans = state.spans) :
    Filled plan state after {pfn} where
  records := by
    intro other member
    rw [Finset.mem_singleton] at member
    rw [record, member, Function.update_self]
  outside := by
    intro other absent
    rw [Finset.mem_singleton] at absent
    rw [record, Function.update_of_ne absent]
  stats := stats
  spans := spans
  heads := by
    intro order
    rw [links]
    simp [Links.isolate, Links.setNext, Links.setPrev]

theorem wp_initPhysblockSpanFrom {span : Early.PageAllocSpan} {remaining index : Nat}
    {state : PhysState} {post : Unit → PhysState → Finset Lock → Prop}
    (bound : span.start + pageSize * span.numPages ≤ 2 ^ 64)
    (range : index + remaining ≤ span.numPages)
    (planned : ∀ other, other < span.numPages → plan (span.pfn other) = span.record other)
    (zeroed : ∀ other, index ≤ other → other < span.numPages →
      state.physblocks (span.pfn other) = ⟨0, 0, 0, 0⟩)
    (holds : ∀ after, Filled plan state after
      (Finset.Ico (span.pfn index) (span.pfn (index + remaining))) → post () after ∅) :
    wp (whole.contract fails) (initPhysblockSpanFrom span remaining index) state ∅ post := by
  induction remaining generalizing index state with
  | zero =>
      apply holds state
      simpa using Filled.refl state
  | succ remaining ih =>
      have inside : index < span.numPages := by omega
      have zero := zeroed index (by omega) inside
      have head : state.headOf (span.pfn index) = span.pfn index :=
        headOf_of_head (by rw [zero])
      have none : (insert (.physblock (span.pfn index)) ∅ : Finset Lock).erase
          (.physblock (span.pfn index)) = ∅ := Finset.erase_insert (by simp)
      have rest : ∀ after, Filled plan state after {span.pfn index} →
          wp (whole.contract fails) (initPhysblockSpanFrom span remaining (index + 1)) after ∅
            post := by
        intro after filled
        apply ih (by omega)
        · intro other lower upper
          rw [filled.outside, zeroed other (by omega) upper]
          simp only [Early.PageAllocSpan.pfn, Finset.mem_singleton]
          omega
        · intro final finalFilled
          apply holds final
          have shape : Finset.Ico (span.pfn index) (span.pfn (index + (remaining + 1))) =
              {span.pfn index} ∪
                Finset.Ico (span.pfn (index + 1)) (span.pfn (index + 1 + remaining)) := by
            ext pfn
            simp only [Early.PageAllocSpan.pfn, Finset.mem_union, Finset.mem_singleton,
              Finset.mem_Ico]
            omega
          rw [shape]
          exact filled.trans finalFilled
      rw [initPhysblockSpanFrom, physToPfn_spanToPhys bound inside]
      apply wp_bind
      apply wp_pfnToPhysblockLock trivial trivial (by simp) (by simp)
      rw [head]
      apply wp_modify_bind (respects_listNodeInit _)
      by_cases preserved : span.allocBitmap.isSet index ∧ ¬span.ephemeralBitmap.isSet index
      · rw [if_pos preserved]
        apply wp_modify_bind (respects_setPhysblock trivial _)
        apply wp_modify_bind (respects_setPhysblock trivial _)
        apply wp_unlock_bind trivial
        rw [none]
        apply rest
        apply filled_one
        · rw [planned index inside, Early.PageAllocSpan.record, Early.PageAllocSpan.pageType,
            if_pos preserved]
          simp [PhysState.setPhysblock, PhysState.listNodeInit_eq, zero]
        · rfl
        · rfl
        · rfl
      · rw [if_neg preserved]
        apply wp_unlock_bind trivial
        rw [none]
        apply rest
        apply filled_one
        · rw [planned index inside, Early.PageAllocSpan.record, Early.PageAllocSpan.pageType,
            if_neg preserved]
          have same : (⟨0, 0, physblockUnmanaged, 0⟩ : Physblock) =
              state.physblocks (span.pfn index) := by
            rw [zero]
            rfl
          rw [same, Function.update_eq_self]
          rfl
        · rfl
        · rfl
        · rfl

def plannedRecord (spans : List Early.PageAllocSpan) (pfn : Nat) : Physblock :=
  match spans.find? fun span => span.pfn 0 ≤ pfn && pfn < span.pfn span.numPages with
  | some span => span.record (pfn - span.pfn 0)
  | none => ⟨0, 0, 0, 0⟩

theorem plannedRecord_eq {spans : List Early.PageAllocSpan} (ok : Early.SpansOk spans)
    {span : Early.PageAllocSpan} (member : span ∈ spans) {index : Nat}
    (inside : index < span.numPages) :
    plannedRecord spans (span.pfn index) = span.record index := by
  have found : spans.find? (fun other =>
      other.pfn 0 ≤ span.pfn index && span.pfn index < other.pfn other.numPages) = some span := by
    have apart := (toPhys_spansOk ok).apart
    rw [List.pairwise_map] at apart
    clear ok
    induction spans with
    | nil => simp at member
    | cons first spans ih =>
        rw [List.pairwise_cons] at apart
        rcases List.mem_cons.mp member with rfl | later
        · rw [List.find?_cons_of_pos]
          simp only [Bool.and_eq_true, decide_eq_true_eq]
          simp only [Early.PageAllocSpan.pfn]
          omega
        · have separate := apart.1 span later
          rw [List.find?_cons_of_neg]
          · exact ih later apart.2
          · simp only [Bool.and_eq_true, decide_eq_true_eq]
            simp only [Early.PageAllocSpan.pfn, Early.PageAllocSpan.toPhys] at separate ⊢
            omega
  rw [plannedRecord, found]
  simp [Early.PageAllocSpan.pfn]

theorem wp_initPhysblockSpans {spans : List Early.PageAllocSpan} {state : PhysState}
    {post : Unit → PhysState → Finset Lock → Prop} (ok : Early.SpansOk spans)
    (planned : ∀ span ∈ spans, ∀ index, index < span.numPages →
      plan (span.pfn index) = span.record index)
    (zeroed : ∀ pfn ∈ managedPages (spans.map (·.toPhys)),
      state.physblocks pfn = ⟨0, 0, 0, 0⟩)
    (holds : ∀ after, Filled plan state after (managedPages (spans.map (·.toPhys))) →
      post () after ∅) :
    wp (whole.contract fails) (initPhysblockSpans spans) state ∅ post := by
  induction spans generalizing state with
  | nil =>
      apply holds state
      exact Filled.refl state
  | cons span spans ih =>
      have physOk := (toPhys_spansOk ok).apart
      rw [List.map_cons, List.pairwise_cons] at physOk
      rw [List.map_cons, managedPages_cons] at zeroed holds
      apply wp_bind
      apply wp_initPhysblockSpanFrom (ok.bounded span (by simp)) (by omega)
        (planned span (by simp))
      · intro other _ upper
        apply zeroed
        simp only [Early.PageAllocSpan.pfn, Early.PageAllocSpan.toPhys, Finset.mem_union,
          Finset.mem_Ico]
        omega
      · intro after filled
        rw [Nat.zero_add] at filled
        apply ih ⟨(List.pairwise_cons.mp ok.apart).2,
          fun other member => ok.bounded other (List.mem_cons_of_mem _ member)⟩
          fun other member => planned other (List.mem_cons_of_mem _ member)
        · intro pfn member
          rw [filled.outside]
          · exact zeroed pfn (Finset.mem_union_right _ member)
          · obtain ⟨other, otherMember, bounds⟩ := mem_managedPages.mp member
            have separate := physOk.1 other otherMember
            simp only [PhysAllocSpan.Contains] at bounds
            simp only [Early.PageAllocSpan.pfn, Early.PageAllocSpan.toPhys, Finset.mem_Ico]
              at separate ⊢
            omega
        · intro final finalFilled
          exact holds final (filled.trans finalFilled)

/-! ## The state before `phys_alloc_init` -/

def EmptyList (links : Links Node) (order : Nat) : Prop :=
  links.next (.freeList order) = .freeList order ∧ links.prev (.freeList order) = .freeList order

theorem wp_listInitFrom {remaining order : Nat} {state : PhysState}
    {post : Unit → PhysState → Finset Lock → Prop}
    (holds : ∀ links, (∀ other, EmptyList state.links other ∨
        (order ≤ other ∧ other < order + remaining) → EmptyList links other) →
      post () { state with links := links } ∅) :
    wp (whole.contract fails) (listInitFrom remaining order) state ∅ post := by
  induction remaining generalizing order state with
  | zero =>
      apply holds state.links
      rintro other (empty | range)
      · exact empty
      · omega
  | succ remaining ih =>
      apply wp_modify_bind (respects_listNodeInit _)
      apply ih
      intro links empty
      apply holds links
      intro other cause
      apply empty
      by_cases same : other = order
      · subst other
        exact Or.inl (by
          simp [EmptyList, PhysState.listNodeInit_eq, Links.isolate, Links.setNext, Links.setPrev])
      · rcases cause with old | range
        · exact Or.inl (by
            simpa [EmptyList, PhysState.listNodeInit_eq, Links.isolate, Links.setNext,
              Links.setPrev, same] using old)
        · exact Or.inr (by omega)

theorem settled_initial {state : PhysState} (spansOk : SpansOk state.spans)
    (fresh : ∀ pfn, Managed state.spans pfn → Fresh (plan pfn))
    (records : ∀ pfn, state.physblocks pfn = plan pfn)
    (lists : ∀ order, order ≤ maxOrder → EmptyList state.links order)
    (stats : state.stats = ⟨0, 0, 0, 0, fun _ => 0⟩) : Settled plan state ∅ 0 := by
  have single : ∀ pfn, Managed state.spans pfn → IsBlock state pfn 0 := by
    intro pfn managed
    obtain ⟨span, member, bounds⟩ := managed
    have ok := fresh pfn ⟨span, member, bounds⟩
    refine ⟨by decide, by simp, ⟨span, member, bounds⟩, ?_, ?_, ?_, ?_⟩
    · rw [records, ok.headOffset]
    · rw [records]
      rcases ok with same | ⟨type, live, same⟩
      · rw [same]
        decide
      · rw [same]
        exact live.notTail
    · rw [records, ok.order]
    · intro offset positive small
      omega
  have headOk : ∀ head order, IsBlock state head order →
      HeadOk (state.physblocks head) ∧ (state.physblocks head).type ≠ physblockFree := by
    intro head order block
    have ok := fresh head (block.managed (covers_head head order))
    rw [records]
    rcases ok with same | ⟨type, live, same⟩
    · rw [same]
      exact ⟨Or.inr (Or.inl ⟨by decide, rfl⟩), by decide⟩
    · rw [same]
      exact ⟨Or.inr (Or.inr ⟨live.notFree, live.notUnmanaged, rfl⟩), live.ne_free⟩
  have noneFree : ∀ head order, ¬IsFree state head order := fun head order free =>
    (headOk head order free.toIsBlock).2 free.headType
  have covered : ∀ pfn, Managed state.spans pfn →
      ∃ head order, IsBlock state head order ∧ Covers head order pfn :=
    fun pfn managed => ⟨pfn, 0, single pfn managed, covers_head pfn 0⟩
  have pages : freePages state = ∅ := by
    apply Finset.eq_empty_of_forall_notMem
    intro pfn member
    obtain ⟨head, order, free, _⟩ := (mem_freePages_iff covered).mp member
    exact noneFree head order free
  have rep : Rep state fun _ => [] := by
    refine ⟨spansOk, covered, fun head order block => (headOk head order block).1, ⟨?_, ?_⟩, ?_, ?_,
      ?_⟩
    · rintro anchor ⟨order, bound, rfl⟩
      exact ⟨lists order bound, by simp [freeSequence]⟩
    · rintro anchor other ⟨order, _, rfl⟩ ⟨otherOrder, _, rfl⟩ different node member
      simp only [freeSequence, List.map_nil, List.mem_singleton] at member ⊢
      rw [member]
      exact different
    · intro order bound head
      simpa using noneFree head order
    · intro order bound
      rw [stats]
      rfl
    · rw [stats, pages]
      rfl
  refine ⟨⟨_, rep⟩, ?_, fresh, by simp, ?_, fun pfn _ => records pfn, ?_, ?_, ?_⟩
  · exact fun head order paired => noneFree head order paired.left
  · rw [pages, Finset.filter_empty]
  · rw [stats]
  · rw [stats]
    rfl
  · rw [stats]
    rfl

/-! ## The whole handover -/

theorem plannedRecord_outside {spans : List Early.PageAllocSpan} {pfn : Nat}
    (outside : pfn ∉ managedPages (spans.map (·.toPhys))) :
    plannedRecord spans pfn = ⟨0, 0, 0, 0⟩ := by
  have none : spans.find? (fun span =>
      span.pfn 0 ≤ pfn && pfn < span.pfn span.numPages) = none := by
    rw [List.find?_eq_none]
    intro span member inside
    apply outside
    rw [mem_managedPages]
    refine ⟨span.toPhys, List.mem_map_of_mem member, ?_⟩
    simp only [Bool.and_eq_true, decide_eq_true_eq] at inside
    simp only [Early.PageAllocSpan.pfn] at inside
    simp only [PhysAllocSpan.Contains, Early.PageAllocSpan.toPhys]
    omega
  rw [plannedRecord, none]

theorem managed_toPhys {spans : List Early.PageAllocSpan} {pfn : Nat} :
    Managed (spans.map (·.toPhys)) pfn ↔
      ∃ span ∈ spans, ∃ index, index < span.numPages ∧ pfn = span.pfn index := by
  constructor
  · rintro ⟨physSpan, member, bounds⟩
    obtain ⟨span, spanMember, rfl⟩ := List.mem_map.mp member
    simp only [PhysAllocSpan.Contains, Early.PageAllocSpan.toPhys] at bounds
    refine ⟨span, spanMember, pfn - physToPfn span.start, by omega, ?_⟩
    simp only [Early.PageAllocSpan.pfn]
    omega
  · rintro ⟨span, member, index, inside, rfl⟩
    refine ⟨span.toPhys, List.mem_map_of_mem member, ?_⟩
    simp only [PhysAllocSpan.Contains, Early.PageAllocSpan.toPhys, Early.PageAllocSpan.pfn]
    omega

theorem sum_numPages_eq {spans : List PhysAllocSpan} (ok : SpansOk spans) :
    (spans.map (·.numPages)).sum = (managedPages spans).card := by
  have count := card_filter_managedPages ok.apart fun _ => True
  simpa using count.symm

theorem wp_handover {early : Early.PageAllocState} {links : Links Node}
    {post : Unit → PhysState → Finset Lock → Prop} (ok : Early.SpansOk early.spans)
    (holds : ∀ after, after.spans = early.spans.map (·.toPhys) →
      Settled (plannedRecord early.spans) after (managedPages (early.spans.map (·.toPhys)))
        ((early.spans.map (·.numPages)).sum) → post () after ∅) :
    wp (whole.contract fails) (handover early) (PhysState.zeroed links) ∅ post := by
  have physOk := toPhys_spansOk ok
  have sums : ((early.spans.map (·.toPhys)).map (·.numPages)) = early.spans.map (·.numPages) := by
    rw [List.map_map]
    rfl
  apply wp_bind
  apply wp_bind
  apply wp_listInitFrom
  intro linked lists
  have respects : whole.Respects fails (fun state => { state with
      spans := early.spans.map fun span => ⟨physToPfn span.start, span.numPages⟩ })
      { PhysState.zeroed links with links := linked } := by
    intro data described
    have known := described.1 trivial
    exact ⟨⟨fun _ => ⟨known.1, known.2.1, rfl⟩, described.2⟩,
      fun hidden => absurd trivial hidden, fun _ _ => rfl, .refl _⟩
  refine ⟨respects, ?_⟩
  apply wp_bind
  apply wp_initPhysblockSpans ok fun span member index inside => plannedRecord_eq ok member inside
  · exact fun _ _ => rfl
  · intro filled shape
    have spans : filled.spans = early.spans.map (·.toPhys) := shape.spans
    have settled : Settled (plannedRecord early.spans) filled ∅ 0 := by
      apply settled_initial
      · rw [spans]
        exact physOk
      · intro pfn managed
        rw [spans] at managed
        obtain ⟨span, member, index, inside, rfl⟩ := managed_toPhys.mp managed
        rw [plannedRecord_eq ok member inside]
        exact record_fresh span index
      · intro pfn
        by_cases managed : pfn ∈ managedPages (early.spans.map (·.toPhys))
        · exact shape.records pfn managed
        · rw [shape.outside pfn managed, plannedRecord_outside managed]
          rfl
      · intro order bound
        have empty := lists order (Or.inr ⟨by omega, by omega⟩)
        have same := shape.heads order
        exact ⟨same.1.trans empty.1, same.2.trans empty.2⟩
      · exact shape.stats
    apply wp_gets_bind fun data described => by rw [(described.1 trivial).2.2]
    rw [spans]
    have total : (early.spans.map (·.numPages)).sum =
        (managedPages (early.spans.map (·.toPhys))).card := by
      rw [← sum_numPages_eq physOk, sums]
    have limit := managedPages_card_le physOk
    apply wp_physAllocInitFrom settled
    · intro span member
      rw [spans]
      exact member
    · exact physOk.apart
    · exact fun _ _ => Finset.notMem_empty _
    · rw [sums]
      omega
    · intro after afterSpans final
      rw [Finset.empty_union, Nat.zero_add, sums] at final
      exact holds after (afterSpans.trans spans) final

end Phys

end Zeptux
