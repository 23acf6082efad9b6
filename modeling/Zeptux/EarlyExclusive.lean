import Zeptux.EarlyRun

/-! The pages that the early allocator returns: first fit, and never a page that is held. -/

namespace Zeptux.Early

open Page Word

/-! ## Allocated pages -/

def pagesIn (layout : List Extent) : Set Nat :=
  {pa | ∃ extent ∈ layout, ∃ offset < extent.numPages, pa = extent.page offset}

section

variable {state : PageAllocState}

theorem free_subset_pagesIn (state : PageAllocState) : state.free ⊆ pagesIn state.layout := by
  rintro pa ⟨index, span, offset, here, inside, _, rfl⟩
  exact ⟨span.extent, List.mem_map_of_mem (List.mem_of_getElem? here), offset, inside, rfl⟩

theorem PageAllocState.Placed.allocated_eq (placed : state.Placed) :
    state.allocated = pagesIn state.layout \ state.free := by
  ext pa
  constructor
  · rintro ⟨index, span, offset, here, inside, isSet, rfl⟩
    refine ⟨⟨span.extent, List.mem_map_of_mem (List.mem_of_getElem? here), offset, inside, rfl⟩, ?_⟩
    rintro ⟨other, next, place, there, nextInside, clear, same⟩
    obtain ⟨rfl, rfl⟩ := placed.page_inj here there inside nextInside same
    rw [here] at there
    cases there
    rw [isSet] at clear
    cases clear
  · rintro ⟨⟨extent, member, offset, inside, rfl⟩, notFree⟩
    obtain ⟨span, isSpan, rfl⟩ := List.mem_map.mp member
    obtain ⟨index, here⟩ := List.getElem?_of_mem isSpan
    cases bit : span.allocBitmap.isSet offset with
    | false => exact absurd ⟨index, span, offset, here, inside, bit, rfl⟩ notFree
    | true => exact ⟨index, span, offset, here, inside, bit, rfl⟩

theorem Takes.allocated {after : PageAllocState} {pages : Set Nat} (placed : state.Placed)
    (taken : Takes state after pages) : after.allocated = state.allocated ∪ pages := by
  rw [taken.placed.allocated_eq, placed.allocated_eq, taken.layout, taken.free]
  ext pa
  have wasFree : pa ∈ pages → pa ∈ state.free := fun member => taken.wereFree member
  have known : pa ∈ state.free → pa ∈ pagesIn state.layout :=
    fun member => free_subset_pagesIn state member
  simp only [Set.mem_union, Set.mem_sdiff]
  tauto

theorem Takes.disjoint_allocated {after : PageAllocState} {pages : Set Nat} (placed : state.Placed)
    (taken : Takes state after pages) : Disjoint state.allocated pages := by
  rw [Set.disjoint_left, placed.allocated_eq]
  rintro pa ⟨_, notFree⟩ member
  exact notFree (taken.wereFree member)

/-! ## Freeing -/

structure Releases (before after : PageAllocState) (page : Nat) : Prop where
  placed : after.Placed
  allocated : after.allocated = before.allocated \ {page}

theorem releases_unmark {index offset : Nat} {span : PageAllocSpan} (placed : state.Placed)
    (here : state.spans[index]? = some span) (inside : offset < span.numPages)
    (isSet : span.allocBitmap.isSet offset = true) :
    Releases state (unmarkPage state index span offset) (span.extent.page offset) := by
  have found : ∀ place, (unmarkPage state index span offset).spans[place]? =
      if index = place then some (span.unmark offset) else state.spans[place]? := by
    intro place
    rw [unmarkPage, List.getElem?_modify]
    split
    · rename_i same
      rw [← same, here]
      rfl
    · exact id_map _
  have layout : (unmarkPage state index span offset).layout = state.layout := by
    apply List.ext_getElem?
    intro place
    rw [PageAllocState.layout, PageAllocState.layout, List.getElem?_map, List.getElem?_map, found]
    split
    · rename_i same
      rw [← same, here, Option.map_some, Option.map_some, PageAllocSpan.unmark_extent]
    · rfl
  refine ⟨⟨?_, ?_, ?_⟩, ?_⟩
  · rw [layout]
    exact placed.extents
  · rw [layout]
    exact placed.apart
  · intro next member
    obtain ⟨place, there⟩ := List.getElem?_of_mem member
    rw [found] at there
    split at there
    · cases there
      have known := placed.sized span (List.mem_of_getElem? here)
      rw [PageAllocSpan.unmark_allocBitmap, PageAllocSpan.unmark_numPages]
      exact ⟨known.numBits, known.room, known.small⟩
    · exact placed.sized next (List.mem_of_getElem? there)
  · ext pa
    constructor
    · rintro ⟨place, next, bit, there, nextInside, nextSet, rfl⟩
      rw [found] at there
      split at there
      · rename_i same
        cases there
        rw [PageAllocSpan.unmark_numPages] at nextInside
        rw [PageAllocSpan.unmark_allocBitmap, Bitmap.isSet_clearBit isSet, Bool.and_eq_true,
          Bool.not_eq_true', decide_eq_false_iff_not] at nextSet
        refine ⟨⟨index, span, bit, here, nextInside, nextSet.2, by simp⟩, ?_⟩
        rw [Set.mem_singleton_iff, PageAllocSpan.unmark_extent]
        exact fun equal => nextSet.1 (placed.page_inj here here nextInside inside equal).2
      · rename_i different
        refine ⟨⟨place, next, bit, there, nextInside, nextSet, rfl⟩, ?_⟩
        rw [Set.mem_singleton_iff]
        exact fun equal => different (placed.page_inj there here nextInside inside equal).1.symm
    · rintro ⟨⟨place, next, bit, there, nextInside, nextSet, rfl⟩, different⟩
      by_cases same : index = place
      · subst same
        rw [here] at there
        cases there
        refine ⟨index, span.unmark offset, bit, by rw [found, if_pos rfl],
          by rwa [PageAllocSpan.unmark_numPages], ?_, by rw [PageAllocSpan.unmark_extent]⟩
        rw [PageAllocSpan.unmark_allocBitmap, Bitmap.isSet_clearBit isSet, nextSet, Bool.and_true,
          Bool.not_eq_true', decide_eq_false_iff_not]
        rintro rfl
        exact different rfl
      · exact ⟨place, next, bit, by rw [found, if_neg same]; exact there, nextInside, nextSet, rfl⟩

theorem earlyPageFree_releases (placed : state.Placed) {pa : Nat} {after : PageAllocState}
    (call : earlyPageFree state pa = .ok after) : Releases state after (pageAt pa) := by
  obtain ⟨index, span, here, low, high, isSet, rfl⟩ := earlyPageFree_ok placed.bounded call
  rw [← placed.page_eq here low]
  exact releases_unmark placed here (by omega) isSet

end

/-! ## Runs -/

structure BootInfo.Aligned (info : BootInfo) : Prop extends info.Disjoint where
  aligned : ∀ entry ∈ info.ramEntries, pageSize ∣ entry.base

theorem E820Entry.extent_end_le (entry : E820Entry) :
    2 ^ 12 * entry.extent.numPages ≤ entry.size := by
  rw [E820Entry.extent, pageShift, Nat.shiftRight_eq_div_pow]
  exact Nat.mul_div_le entry.size (2 ^ 12)

theorem BootInfo.Aligned.layout_placed {info : BootInfo} (aligned : info.Aligned) :
    (∀ extent ∈ info.layout, extent.Placed) ∧ info.layout.Pairwise Extent.Apart := by
  constructor
  · intro extent member
    obtain ⟨entry, isEntry, rfl⟩ := List.mem_map.mp member
    have base := aligned.aligned entry isEntry
    have bounded := aligned.bounded entry isEntry
    have size := E820Entry.extent_end_le entry
    exact ⟨base, by simp only [E820Entry.extent] at size ⊢; omega⟩
  · rw [BootInfo.layout, List.pairwise_map]
    refine aligned.apart.imp ?_
    intro entry other apart
    have size := E820Entry.extent_end_le entry
    have otherSize := E820Entry.extent_end_le other
    simp only [Extent.Apart, E820Entry.extent] at size otherSize ⊢
    omega

structure HoldsAllocated (state : EarlyState) (held : Set Nat) : Prop where
  placed : state.alloc.Placed
  held : held = state.alloc.allocated

theorem HoldsAllocated.step {before after : EarlyState} {held heldAfter : Set Nat}
    (holds : HoldsAllocated before held) (step : Step before held after heldAfter) :
    HoldsAllocated after heldAfter := by
  obtain ⟨placed, rfl⟩ := holds
  cases step with
  | call call pa returned =>
      have taken := call.perform_takes placed returned
      exact ⟨taken.placed, (taken.allocated placed).symm⟩
  | allocAt pa returned =>
      have taken := allocAt_takes_page placed returned
      exact ⟨taken.placed, (taken.allocated placed).symm⟩
  | allocEphemeralAt pa returned =>
      have taken := allocAt_takes_page placed returned
      exact ⟨taken.placed, (taken.allocated placed).symm⟩
  | free pa returned =>
      have released := earlyPageFree_releases placed returned
      exact ⟨released.placed, released.allocated.symm⟩

theorem Reachable.holdsAllocated {info : BootInfo} (aligned : info.Aligned) {state : EarlyState}
    {held : Set Nat} (reachable : Reachable info state held) : HoldsAllocated state held := by
  induction reachable with
  | init mem init =>
      obtain ⟨pages, small, _⟩ := earlyPageAllocInit_ok aligned.toDisjoint init
      have empty : (emptyState (bytesToPages info.totalAvailRamBytes) info.layout).Placed :=
        emptyState_placed aligned.layout_placed.1 aligned.layout_placed.2 small
      exact ⟨allocInitPages_keeps (fun placed call => (allocAt_takes_page placed call).placed) empty
        pages, rfl⟩
  | step _ step ih => exact ih.step step

theorem alloc_panics_iff {state : PageAllocState}
    (sized : ∀ span ∈ state.spans, span.allocBitmap.Sized span.numPages) (type : AllocType) :
    (∃ panic, alloc state type = .error panic) ↔
      ∀ span ∈ state.spans, ∀ bit < span.numPages, span.allocBitmap.isSet bit = true := by
  constructor
  · rintro ⟨panic, call⟩
    exact alloc_panics sized call
  · intro full
    cases call : alloc state type with
    | error panic => exact ⟨panic, rfl⟩
    | ok pair =>
        obtain ⟨index, span, offset, fit, _⟩ := alloc_ok sized call
        have clear := fit.clear
        rw [full span (List.mem_of_getElem? fit.here) offset fit.inside] at clear
        cases clear

/-- What the calls do in a state in which some pages are held. -/
structure Exclusive (state : EarlyState) (held : Set Nat) : Prop where
  firstFit : ∀ call : Call, call.type.isSome → ∀ pa after, call.perform state = .ok (pa, after) →
    ∃ index span offset, FirstFit state.alloc index span offset ∧
      pa = span.start + pageSize * offset ∧ pageSize ∣ pa ∧
      after.alloc.allocated = state.alloc.allocated ∪ {pa}
  panics : ∀ call : Call, call.type.isSome → ((∃ panic, call.perform state = .error panic) ↔
    ∀ span ∈ state.alloc.spans, ∀ bit < span.numPages, span.allocBitmap.isSet bit = true)
  consecutive : ∀ pages, 1 ≤ pages → ∀ pa after,
    (Call.pagesAlloc pages).perform state = .ok (pa, after) →
    ∃ (index : Nat) (span : PageAllocSpan) (offset : Nat),
      state.alloc.spans[index]? = some span ∧
      offset + pages.toNat ≤ span.numPages ∧ pa = span.start + pageSize * offset ∧
      (∀ step < pages.toNat, span.allocBitmap.isSet (offset + step) = false) ∧
      after.alloc.allocated = state.alloc.allocated ∪ pageRun pa pages.toNat
  fresh : ∀ (call : Call) pa after, call.perform state = .ok (pa, after) →
    Disjoint held (pageRun pa call.numPages)
  freshAt : ∀ type pa after, allocAt state.alloc pa type = .ok after → pageAt pa ∉ held

theorem reachable_exclusive {info : BootInfo} (aligned : info.Aligned) {state : EarlyState}
    {held : Set Nat} (reachable : Reachable info state held) : Exclusive state held := by
  obtain ⟨placed, rfl⟩ := reachable.holdsAllocated aligned
  have start : ∀ (index : Nat) (span : PageAllocSpan), state.alloc.spans[index]? = some span →
      pageSize ∣ span.start := fun index span here => (placed.extent here).1
  refine ⟨?_, ?_, ?_, ?_, ?_⟩
  · intro call single pa after returned
    rcases call.perform_ok returned with ⟨type, _, _, inner⟩ | ⟨pages, rfl, _⟩
    · have taken := alloc_takes placed inner
      obtain ⟨index, span, offset, fit, place, _⟩ := alloc_ok placed.sized inner
      rw [spanOffsetToPa_eq (placed.extent fit.here) fit.inside] at place
      refine ⟨index, span, offset, fit, place, ?_, taken.allocated placed⟩
      rw [place]
      exact Nat.dvd_add (start index span fit.here) (Nat.dvd_mul_right _ _)
    · cases single
  · intro call single
    obtain ⟨type, isType⟩ := Option.isSome_iff_exists.mp single
    rw [← alloc_panics_iff placed.sized type]
    rcases call.perform_single isType state with ⟨panic, inner, stops⟩ | ⟨pa, after, inner, returns⟩
    · simp [inner, stops]
    · simp [inner, returns]
  · intro pages positive pa after returned
    rcases Call.perform_ok returned with ⟨type, single, _, _⟩ | ⟨_, same, inner⟩
    · cases single
    · cases same
      have taken := earlyPagesAlloc_takes placed inner
      rcases earlyPagesAlloc_ok placed.sized inner with
        ⟨none, _⟩ | ⟨index, span, offset, here, _, inside, clear, place, _⟩
      · omega
      · rw [spanOffsetToPa_eq (placed.extent here) (by omega)] at place
        exact ⟨index, span, offset, here, inside, place, clear, taken.allocated placed⟩
  · intro call pa after returned
    exact (call.perform_takes placed returned).disjoint_allocated placed
  · intro type pa after returned
    exact Set.disjoint_singleton_right.mp
      ((allocAt_takes_page placed returned).disjoint_allocated placed)

theorem conventionalInfo_exclusive :
    ∃ state held, Reachable conventionalInfo state held ∧ state.alloc.numAllocatedPages = 24 ∧
      Exclusive state held := by
  obtain ⟨state, held, reachable, counted⟩ := conventionalInfo_run
  have normal : conventionalInfo.Normalised :=
    ramBootInfo_normalised (by decide) (by decide) (by decide)
  have aligned : conventionalInfo.Aligned :=
    ⟨normal.toDisjoint, fun entry member => (normal.aligned entry member).base⟩
  exact ⟨state, held, reachable, counted, reachable_exclusive aligned reachable⟩

end Zeptux.Early
