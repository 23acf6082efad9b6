import Mathlib.Data.Set.Basic
import Zeptux.Bitmap
import Zeptux.EarlyCore

/-!
The early allocator as a set of free pages: every call that returns takes pages out of it
and leaves the rest.
-/

namespace Zeptux.Early

open Page Word

structure Extent where
  start : Nat
  numPages : Nat
deriving DecidableEq, Repr

def Extent.Placed (extent : Extent) : Prop :=
  2 ^ 12 ∣ extent.start ∧ extent.start + 2 ^ 12 * extent.numPages ≤ 2 ^ 48

def Extent.Ok (extent : Extent) : Prop :=
  2 ^ 12 ∣ extent.start ∧ 0 < extent.numPages ∧ extent.start + 2 ^ 12 * extent.numPages ≤ 2 ^ 48

instance (extent : Extent) : Decidable extent.Ok := inferInstanceAs (Decidable (_ ∧ _))

def Extent.Apart (extent other : Extent) : Prop :=
  extent.start + 2 ^ 12 * extent.numPages ≤ other.start ∨
    other.start + 2 ^ 12 * other.numPages ≤ extent.start

instance (extent other : Extent) : Decidable (extent.Apart other) :=
  inferInstanceAs (Decidable (_ ∨ _))

def Extent.page (extent : Extent) (offset : Nat) : Nat := extent.start + 2 ^ 12 * offset

def PageAllocSpan.extent (span : PageAllocSpan) : Extent := ⟨span.start, span.numPages⟩

def PageAllocState.layout (state : PageAllocState) : List Extent :=
  state.spans.map PageAllocSpan.extent

/-- Disjoint and page-aligned spans, each with a bitmap of its size. -/
structure PageAllocState.Placed (state : PageAllocState) : Prop where
  extents : ∀ extent ∈ state.layout, extent.Placed
  apart : state.layout.Pairwise Extent.Apart
  sized : ∀ span ∈ state.spans, span.allocBitmap.Sized span.numPages

structure PageAllocState.Ok (state : PageAllocState) : Prop where
  extents : ∀ extent ∈ state.layout, extent.Ok
  apart : state.layout.Pairwise Extent.Apart
  sized : ∀ span ∈ state.spans, span.allocBitmap.Sized span.numPages

theorem Extent.Ok.placed {extent : Extent} (ok : extent.Ok) : extent.Placed := ⟨ok.1, ok.2.2⟩

theorem PageAllocState.Ok.placed {state : PageAllocState} (ok : state.Ok) : state.Placed :=
  ⟨fun extent member => (ok.extents extent member).placed, ok.apart, ok.sized⟩

def PageAllocState.free (state : PageAllocState) : Set Nat :=
  {pa | ∃ (index : Nat) (span : PageAllocSpan) (offset : Nat),
    state.spans[index]? = some span ∧ offset < span.numPages ∧
    span.allocBitmap.isSet offset = false ∧ pa = span.extent.page offset}

def PageAllocState.allocated (state : PageAllocState) : Set Nat :=
  {pa | ∃ (index : Nat) (span : PageAllocSpan) (offset : Nat),
    state.spans[index]? = some span ∧ offset < span.numPages ∧
    span.allocBitmap.isSet offset = true ∧ pa = span.extent.page offset}

@[simp] theorem PageAllocSpan.mark_extent (span : PageAllocSpan) (offset : Nat)
    (type : AllocType) : (span.mark offset type).extent = span.extent := by
  cases type <;> rfl

@[simp] theorem PageAllocSpan.mark_allocBitmap (span : PageAllocSpan) (offset : Nat)
    (type : AllocType) : (span.mark offset type).allocBitmap = span.allocBitmap.setBit offset := by
  cases type <;> rfl

@[simp] theorem PageAllocSpan.mark_numPages (span : PageAllocSpan) (offset : Nat)
    (type : AllocType) : (span.mark offset type).numPages = span.numPages := by
  cases type <;> rfl

@[simp] theorem markPageAllocated_spans (state : PageAllocState) (index offset : Nat)
    (type : AllocType) :
    (markPageAllocated state index offset type).spans =
      state.spans.modify index fun span => span.mark offset type := by
  cases type <;> rfl

@[simp] theorem markPageAllocated_layout (state : PageAllocState) (index offset : Nat)
    (type : AllocType) : (markPageAllocated state index offset type).layout = state.layout := by
  apply List.ext_getElem?
  intro place
  simp only [PageAllocState.layout, markPageAllocated_spans, List.getElem?_map,
    List.getElem?_modify]
  split <;> cases state.spans[place]? <;> simp

theorem firstSpan_some {found : PageAllocSpan → Bool} {index place : Nat}
    {spans : List PageAllocSpan} {span : PageAllocSpan}
    (first : firstSpan found index spans = some (place, span)) :
    index ≤ place ∧ spans[place - index]? = some span ∧ found span = true ∧
      ∀ earlier next, index + earlier < place → spans[earlier]? = some next → found next = false := by
  induction spans generalizing index with
  | nil => cases first
  | cons head spans ih =>
      rw [firstSpan] at first
      split at first
      · rename_i holds
        cases first
        exact ⟨Nat.le_refl _, by rw [Nat.sub_self]; rfl, holds, fun _ _ order => by omega⟩
      · rename_i fails
        obtain ⟨order, here, holds, before⟩ := ih first
        refine ⟨by omega, ?_, holds, ?_⟩
        · rwa [show place - index = place - (index + 1) + 1 by omega, List.getElem?_cons_succ]
        · intro earlier next low there
          rcases earlier with _ | earlier
          · cases there
            simpa using fails
          · exact before earlier next (by omega) there

theorem firstSpan_none {found : PageAllocSpan → Bool} {index : Nat} {spans : List PageAllocSpan}
    (first : firstSpan found index spans = none) : ∀ span ∈ spans, found span = false := by
  induction spans generalizing index with
  | nil => simp
  | cons head spans ih =>
      rw [firstSpan] at first
      split at first
      · cases first
      · rename_i fails
        intro span member
        rcases List.mem_cons.mp member with rfl | later
        · simpa using fails
        · exact ih first span later

section

variable {state : PageAllocState} {index other offset place : Nat} {span next : PageAllocSpan}

theorem PageAllocState.Placed.extent (placed : state.Placed) (here : state.spans[index]? = some span) :
    span.extent.Placed :=
  placed.extents _ (List.mem_map_of_mem (List.mem_of_getElem? here))

theorem PageAllocState.Placed.page_inj (placed : state.Placed) (here : state.spans[index]? = some span)
    (there : state.spans[other]? = some next) (inside : offset < span.numPages)
    (nextInside : place < next.numPages) (same : span.extent.page offset = next.extent.page place) :
    index = other ∧ offset = place := by
  have layoutHere : state.layout[index]? = some span.extent := by
    rw [PageAllocState.layout, List.getElem?_map, here, Option.map_some]
  have layoutThere : state.layout[other]? = some next.extent := by
    rw [PageAllocState.layout, List.getElem?_map, there, Option.map_some]
  obtain ⟨bound, isHere⟩ := List.getElem?_eq_some_iff.mp layoutHere
  obtain ⟨nextBound, isThere⟩ := List.getElem?_eq_some_iff.mp layoutThere
  simp only [Extent.page, PageAllocSpan.extent] at same
  have separate : ∀ first second, Extent.Apart first second →
      first = span.extent ∧ second = next.extent ∨ first = next.extent ∧ second = span.extent →
      False := by
    rintro first second apart (⟨rfl, rfl⟩ | ⟨rfl, rfl⟩) <;>
      simp only [Extent.Apart, PageAllocSpan.extent] at apart <;> omega
  rcases Nat.lt_trichotomy index other with before | equal | after
  · exact (separate _ _ (List.pairwise_iff_getElem.mp placed.apart index other bound nextBound before)
      (Or.inl ⟨isHere, isThere⟩)).elim
  · subst equal
    rw [here] at there
    cases there
    exact ⟨rfl, by omega⟩
  · exact (separate _ _ (List.pairwise_iff_getElem.mp placed.apart other index nextBound bound after)
      (Or.inr ⟨isThere, isHere⟩)).elim

theorem spanOffsetToPa_eq (extent : span.extent.Placed) (inside : offset < span.numPages) :
    spanOffsetToPa span offset = span.extent.page offset := by
  obtain ⟨_, bound⟩ := extent
  simp only [PageAllocSpan.extent] at bound
  rw [spanOffsetToPa, pageShift, Nat.shiftLeft_eq, Nat.mod_eq_of_lt (by omega),
    add64_eq (by omega), Nat.mul_comm]
  rfl

/-- The pages are taken out of the free ones, and nothing else about these changes. -/
structure Takes (before after : PageAllocState) (pages : Set Nat) : Prop where
  placed : after.Placed
  layout : after.layout = before.layout
  wereFree : pages ⊆ before.free
  free : after.free = before.free \ pages

theorem takes_mark (placed : state.Placed) (here : state.spans[index]? = some span)
    (inside : offset < span.numPages) (clear : span.allocBitmap.isSet offset = false)
    (type : AllocType) :
    Takes state (markPageAllocated state index offset type) {span.extent.page offset} := by
  have layout := markPageAllocated_layout state index offset type
  have found : ∀ place, (markPageAllocated state index offset type).spans[place]? =
      if index = place then some (span.mark offset type) else state.spans[place]? := by
    intro place
    rw [markPageAllocated_spans, List.getElem?_modify]
    split
    · rename_i same
      rw [← same, here]
      rfl
    · exact id_map _
  refine ⟨⟨?_, ?_, ?_⟩, layout,
    Set.singleton_subset_iff.mpr ⟨index, span, offset, here, inside, clear, rfl⟩, ?_⟩
  · rw [layout]
    exact placed.extents
  · rw [layout]
    exact placed.apart
  · intro next member
    obtain ⟨place, there⟩ := List.getElem?_of_mem member
    rw [found] at there
    split at there
    · cases there
      rw [PageAllocSpan.mark_allocBitmap, PageAllocSpan.mark_numPages]
      exact (placed.sized span (List.mem_of_getElem? here)).setBit offset
    · exact placed.sized next (List.mem_of_getElem? there)
  · ext pa
    constructor
    · rintro ⟨place, next, bit, there, nextInside, nextClear, rfl⟩
      rw [found] at there
      split at there
      · rename_i same
        cases there
        rw [PageAllocSpan.mark_numPages] at nextInside
        rw [PageAllocSpan.mark_allocBitmap, Bitmap.isSet_setBit, Bool.or_eq_false_iff,
          decide_eq_false_iff_not] at nextClear
        refine ⟨⟨index, span, bit, here, nextInside, nextClear.2, by simp⟩, ?_⟩
        rw [Set.mem_singleton_iff, PageAllocSpan.mark_extent]
        exact fun equal => nextClear.1 (placed.page_inj here here nextInside inside equal).2
      · rename_i different
        refine ⟨⟨place, next, bit, there, nextInside, nextClear, rfl⟩, ?_⟩
        rw [Set.mem_singleton_iff]
        exact fun equal => different (placed.page_inj there here nextInside inside equal).1.symm
    · rintro ⟨⟨place, next, bit, there, nextInside, nextClear, rfl⟩, different⟩
      by_cases same : index = place
      · subst same
        rw [here] at there
        cases there
        refine ⟨index, span.mark offset type, bit, by rw [found, if_pos rfl], by simpa using nextInside,
          ?_, by simp⟩
        rw [PageAllocSpan.mark_allocBitmap, Bitmap.isSet_setBit, nextClear, Bool.or_false,
          decide_eq_false_iff_not]
        rintro rfl
        exact different rfl
      · exact ⟨place, next, bit, by rw [found, if_neg same]; exact there, nextInside, nextClear, rfl⟩

theorem Takes.trans {before middle after : PageAllocState} {pages more : Set Nat}
    (first : Takes before middle pages) (second : Takes middle after more) :
    Takes before after (pages ∪ more) := by
  refine ⟨second.placed, second.layout.trans first.layout, ?_, ?_⟩
  · apply Set.union_subset first.wereFree
    exact second.wereFree.trans (by rw [first.free]; exact Set.sdiff_subset)
  · rw [second.free, first.free, Set.sdiff_sdiff]

theorem Takes.refl (placed : state.Placed) : Takes state state ∅ :=
  ⟨placed, rfl, Set.empty_subset _, by rw [Set.sdiff_empty]⟩

def pageRun (pa count : Nat) : Set Nat := {page | ∃ step < count, page = pa + 2 ^ 12 * step}

theorem pageRun_zero (pa : Nat) : pageRun pa 0 = ∅ := by
  ext page
  simp [pageRun]

theorem pageRun_succ (pa count : Nat) :
    pageRun pa (count + 1) = {pa} ∪ pageRun (pa + 2 ^ 12) count := by
  ext page
  simp only [pageRun, Set.mem_union, Set.mem_singleton_iff, Set.mem_ofPred_eq]
  constructor
  · rintro ⟨step, low, rfl⟩
    rcases step with _ | step
    · exact Or.inl rfl
    · exact Or.inr ⟨step, by omega, by omega⟩
  · rintro (rfl | ⟨step, low, rfl⟩)
    · exact ⟨0, by omega, rfl⟩
    · exact ⟨step + 1, by omega, by omega⟩

/-! ## The calls -/

theorem toUint64_natCast {value : Nat} (small : value < 2 ^ 64) : toUint64 value = value := by
  unfold toUint64
  omega

/-- The first clear bit of the first span that has one. -/
structure FirstFit (state : PageAllocState) (index : Nat) (span : PageAllocSpan) (offset : Nat) :
    Prop where
  here : state.spans[index]? = some span
  inside : offset < span.numPages
  clear : span.allocBitmap.isSet offset = false
  lower : ∀ bit < offset, span.allocBitmap.isSet bit = true
  earlier : ∀ place < index, ∀ next, state.spans[place]? = some next →
    ∀ bit < next.numPages, next.allocBitmap.isSet bit = true

theorem earlyPagesAlloc_returned {pages : Int} {pa : Nat} {after : PageAllocState}
    (call : earlyPagesAlloc state pages = .ok (pa, after)) :
    pages ≤ maxPagesAlloc ∧ ∃ index span,
      firstSpan (fun span => span.allocBitmap.zeroStringLongerThan pages != -1) 0 state.spans =
        some (index, span) ∧
      pa = spanOffsetToPa span (toUint64 (span.allocBitmap.zeroStringLongerThan pages)) ∧
      after = markPagesFrom index pages.toNat (span.allocBitmap.zeroStringLongerThan pages) state := by
  unfold earlyPagesAlloc at call
  split at call
  · cases call
  · rename_i few
    split at call
    · cases call
    · rename_i index span first
      obtain ⟨place, marked⟩ := Prod.mk.inj (Except.ok.inj call)
      exact ⟨Int.not_lt.mp few, index, span, first, place.symm, marked.symm⟩

section

variable (sized : ∀ span ∈ state.spans, span.allocBitmap.Sized span.numPages)

include sized

theorem alloc_ok {type : AllocType} {pa : Nat} {after : PageAllocState}
    (call : alloc state type = .ok (pa, after)) :
    ∃ index span offset, FirstFit state index span offset ∧ pa = spanOffsetToPa span offset ∧
      after = markPageAllocated state index offset type := by
  unfold alloc at call
  split at call
  · cases call
  · rename_i index span first
    obtain ⟨_, here, found, before⟩ := firstSpan_some first
    rw [Nat.sub_zero] at here
    have known := sized span (List.mem_of_getElem? here)
    rcases Bitmap.firstClear_cases known with ⟨offset, answer, inside, clear, lower⟩ | ⟨answer, _⟩
    · have room := known.room
      have small := known.small
      simp only [answer, toUint64_natCast (by omega : offset < 2 ^ 64)] at call
      obtain ⟨rfl, rfl⟩ := Prod.mk.inj (Except.ok.inj call)
      refine ⟨index, span, offset, ⟨here, inside, clear, lower, ?_⟩, rfl, rfl⟩
      intro place order next there
      have full := before place next (by omega) there
      rcases Bitmap.firstClear_cases (sized next (List.mem_of_getElem? there)) with
        ⟨bit, found, _⟩ | ⟨_, all⟩
      · simp [found] at full
      · exact all
    · simp [answer] at found

theorem alloc_panics {type : AllocType} {panic : Panic} (call : alloc state type = .error panic) :
    ∀ span ∈ state.spans, ∀ bit < span.numPages, span.allocBitmap.isSet bit = true := by
  unfold alloc at call
  split at call
  · rename_i first
    intro span member
    have full := firstSpan_none first span member
    rcases Bitmap.firstClear_cases (sized span member) with ⟨bit, answer, _⟩ | ⟨_, all⟩
    · simp [answer] at full
    · exact all
  · cases call

/-- A request for no pages returns an address too, but marks nothing. -/
theorem earlyPagesAlloc_ok {pages : Int} {pa : Nat} {after : PageAllocState}
    (call : earlyPagesAlloc state pages = .ok (pa, after)) :
    pages ≤ 0 ∧ after = state ∨
      ∃ index span offset, state.spans[index]? = some span ∧ 0 < pages.toNat ∧
        offset + pages.toNat ≤ span.numPages ∧
        (∀ step < pages.toNat, span.allocBitmap.isSet (offset + step) = false) ∧
        pa = spanOffsetToPa span offset ∧ after = markPagesFrom index pages.toNat offset state := by
  obtain ⟨_, index, span, first, rfl, rfl⟩ := earlyPagesAlloc_returned call
  obtain ⟨_, here, found, _⟩ := firstSpan_some first
  rw [Nat.sub_zero] at here
  by_cases positive : 0 < pages.toNat
  · obtain ⟨count, rfl⟩ : ∃ count : Nat, pages = count := ⟨pages.toNat, by omega⟩
    rw [Int.toNat_natCast] at positive ⊢
    have known := sized span (List.mem_of_getElem? here)
    obtain ⟨bit, answer, inside, clear⟩ :=
      Bitmap.zeroStringLongerThan_sound known positive (by simpa using found)
    have room := known.room
    have small := known.small
    rw [answer, toUint64_natCast (by omega : bit < 2 ^ 64)]
    exact Or.inr ⟨index, span, bit, here, positive, inside, clear, rfl, rfl⟩
  · have zero : pages.toNat = 0 := by omega
    rw [zero]
    exact Or.inl ⟨by omega, rfl⟩

end

def unmarkPage (state : PageAllocState) (index : Nat) (span : PageAllocSpan) (offset : Nat) :
    PageAllocState :=
  let drop (bitmap : Bitmap) (count : Nat) :=
    if bitmap.isSet offset then sub64 count 1 else count
  { state with
    spans := state.spans.modify index fun span => span.unmark offset
    numAllocatedPages := sub64 state.numAllocatedPages 1
    numEphemeralPages := drop span.ephemeralBitmap state.numEphemeralPages
    numPagetablePages := drop span.pagetableBitmap state.numPagetablePages
    numPhysblockPages := drop span.physblockBitmap state.numPhysblockPages }

section

variable (bounded : ∀ span ∈ state.spans, span.start + 2 ^ 12 * span.numPages ≤ 2 ^ 48)

include bounded

theorem findSpan_some {pa : Nat} (first : findSpan state pa = some (index, span)) :
    state.spans[index]? = some span ∧ span.start ≤ pa ∧
      pa < span.start + 2 ^ 12 * span.numPages ∧
      physToSpanOffset span pa = (pa - span.start) / 2 ^ 12 := by
  obtain ⟨_, here, found, _⟩ := firstSpan_some first
  rw [Nat.sub_zero] at here
  have bound := bounded span (List.mem_of_getElem? here)
  have size : span.numPages * pageSize % 2 ^ 64 = 2 ^ 12 * span.numPages := by
    rw [pageSize, pageShift]
    omega
  rw [size, add64_eq (by omega)] at found
  simp only [Bool.and_eq_true, decide_eq_true_eq] at found
  refine ⟨here, found.1, found.2, ?_⟩
  rw [physToSpanOffset, sub64_eq found.1 (by omega), pageShift, Nat.shiftRight_eq_div_pow]

theorem allocAt_ok {type : AllocType} {pa : Nat} {after : PageAllocState}
    (call : allocAt state pa type = .ok after) :
    ∃ index span, state.spans[index]? = some span ∧ span.start ≤ pa ∧
      pa < span.start + 2 ^ 12 * span.numPages ∧
      span.allocBitmap.isSet ((pa - span.start) / 2 ^ 12) = false ∧
      after = markPageAllocated state index ((pa - span.start) / 2 ^ 12) type := by
  unfold allocAt at call
  split at call
  · cases call
  · rename_i index span first
    obtain ⟨here, low, high, offset⟩ := findSpan_some bounded first
    simp only [offset] at call
    split at call
    · cases call
    · rename_i clear
      cases call
      exact ⟨index, span, here, low, high, by simpa using clear, rfl⟩

theorem earlyPageFree_ok {pa : Nat} {after : PageAllocState}
    (call : earlyPageFree state pa = .ok after) :
    ∃ index span, state.spans[index]? = some span ∧ span.start ≤ pa ∧
      pa < span.start + 2 ^ 12 * span.numPages ∧
      span.allocBitmap.isSet ((pa - span.start) / 2 ^ 12) = true ∧
      after = unmarkPage state index span ((pa - span.start) / 2 ^ 12) := by
  unfold earlyPageFree at call
  split at call
  · cases call
  · rename_i index span first
    obtain ⟨here, low, high, offset⟩ := findSpan_some bounded first
    simp only [offset] at call
    split at call
    · cases call
    · rename_i isSet
      cases call
      exact ⟨index, span, here, low, high, by simpa using isSet, rfl⟩

end

theorem PageAllocState.Placed.bounded (placed : state.Placed) :
    ∀ span ∈ state.spans, span.start + 2 ^ 12 * span.numPages ≤ 2 ^ 48 :=
  fun _ member => (placed.extents _ (List.mem_map_of_mem member)).2

def pageAt (pa : Nat) : Nat := pa / pageSize * pageSize

theorem PageAllocState.Placed.page_eq (placed : state.Placed) (here : state.spans[index]? = some span)
    {pa : Nat} (low : span.start ≤ pa) :
    span.extent.page ((pa - span.start) / 2 ^ 12) = pageAt pa := by
  have aligned := (placed.extent here).1
  simp only [PageAllocSpan.extent] at aligned
  simp only [Extent.page, PageAllocSpan.extent, pageAt, pageSize, pageShift]
  omega

theorem alloc_takes (placed : state.Placed) {type : AllocType} {pa : Nat} {after : PageAllocState}
    (call : alloc state type = .ok (pa, after)) : Takes state after {pa} := by
  obtain ⟨index, span, offset, fit, rfl, rfl⟩ := alloc_ok placed.sized call
  rw [spanOffsetToPa_eq (placed.extent fit.here) fit.inside]
  exact takes_mark placed fit.here fit.inside fit.clear type

theorem alloc_error (placed : state.Placed) {type : AllocType} {panic : Panic}
    (call : alloc state type = .error panic) : state.free = ∅ := by
  rw [Set.eq_empty_iff_forall_notMem]
  rintro pa ⟨index, span, offset, here, inside, clear, rfl⟩
  rw [alloc_panics placed.sized call span (List.mem_of_getElem? here) offset inside] at clear
  cases clear

theorem allocAt_takes_page (placed : state.Placed) {type : AllocType} {pa : Nat}
    {after : PageAllocState} (call : allocAt state pa type = .ok after) :
    Takes state after {pageAt pa} := by
  obtain ⟨index, span, here, low, high, clear, rfl⟩ := allocAt_ok placed.bounded call
  have inside : (pa - span.start) / 2 ^ 12 < span.numPages := by omega
  have taken := takes_mark placed here inside clear type
  rwa [placed.page_eq here low] at taken

theorem allocAt_takes (placed : state.Placed) {type : AllocType} {pa : Nat} {after : PageAllocState}
    (aligned : 2 ^ 12 ∣ pa) (call : allocAt state pa type = .ok after) :
    Takes state after {pa} := by
  have taken := allocAt_takes_page placed call
  rwa [pageAt, pageSize, pageShift, Nat.div_mul_cancel aligned] at taken

theorem markPageAllocated_here {type : AllocType} (here : state.spans[index]? = some span) :
    (markPageAllocated state index offset type).spans[index]? = some (span.mark offset type) := by
  rw [markPageAllocated_spans, List.getElem?_modify_eq, here]
  rfl

theorem PageAllocSpan.mark_clear {type : AllocType} {count : Nat}
    (clear : ∀ step < count + 1, span.allocBitmap.isSet (offset + step) = false) :
    ∀ step < count, (span.mark offset type).allocBitmap.isSet (offset + 1 + step) = false := by
  intro step low
  rw [PageAllocSpan.mark_allocBitmap, Bitmap.isSet_setBit, decide_eq_false (by omega), Bool.false_or]
  have next := clear (step + 1) (by omega)
  rwa [Nat.add_comm step, ← Nat.add_assoc] at next

theorem markPagesFrom_takes {count : Nat} (placed : state.Placed) (here : state.spans[index]? = some span)
    (inside : offset + count ≤ span.numPages)
    (clear : ∀ step < count, span.allocBitmap.isSet (offset + step) = false) :
    Takes state (markPagesFrom index count offset state)
      (pageRun (span.extent.page offset) count) := by
  induction count generalizing state offset span with
  | zero =>
      rw [pageRun_zero]
      exact .refl placed
  | succ count ih =>
      have bound := (placed.extent here).2
      simp only [PageAllocSpan.extent] at bound
      have first : Takes state (markPageAllocated state index offset .normal)
          {span.extent.page offset} :=
        takes_mark placed here (by omega) (clear 0 (by omega)) .normal
      have room : offset + 1 + count ≤ (span.mark offset .normal).numPages := by
        rw [PageAllocSpan.mark_numPages]
        omega
      have rest := ih first.placed (markPageAllocated_here here) room
        (PageAllocSpan.mark_clear clear)
      have next : (span.mark offset .normal).extent.page (offset + 1) =
          span.extent.page offset + 2 ^ 12 := by
        rw [PageAllocSpan.mark_extent, Extent.page, Extent.page]
        omega
      rw [next] at rest
      rw [markPagesFrom, toUint64_natCast (by omega), pageRun_succ]
      exact first.trans rest

theorem earlyPagesAlloc_takes (placed : state.Placed) {pages : Int} {pa : Nat} {after : PageAllocState}
    (call : earlyPagesAlloc state pages = .ok (pa, after)) :
    Takes state after (pageRun pa pages.toNat) := by
  rcases earlyPagesAlloc_ok placed.sized call with
    ⟨none, rfl⟩ | ⟨index, span, offset, here, positive, inside, clear, rfl, rfl⟩
  · rw [show pages.toNat = 0 by omega, pageRun_zero]
    exact .refl placed
  · rw [spanOffsetToPa_eq (placed.extent here) (by omega)]
    exact markPagesFrom_takes placed here inside clear

end

/-! ## Spans with no page allocated -/

def emptyBitmap (numBits : Nat) : Bitmap := Bitmap.init ⟨0, 0, fun _ => 0⟩ numBits

def Extent.emptySpan (extent : Extent) : PageAllocSpan where
  start := extent.start
  numPages := extent.numPages
  numAllocatedPages := 0
  allocBitmap := emptyBitmap extent.numPages
  ephemeralBitmap := emptyBitmap extent.numPages
  pagetableBitmap := emptyBitmap extent.numPages
  physblockBitmap := emptyBitmap extent.numPages

def emptyState (totalPages : Nat) (layout : List Extent) : PageAllocState :=
  ⟨totalPages, 0, 0, 0, 0, layout.map Extent.emptySpan⟩

theorem emptyState_layout (totalPages : Nat) (layout : List Extent) :
    (emptyState totalPages layout).layout = layout := by
  rw [PageAllocState.layout, emptyState, List.map_map]
  exact List.map_id layout

theorem emptyState_placed {totalPages : Nat} {layout : List Extent}
    (extents : ∀ extent ∈ layout, extent.Placed) (apart : layout.Pairwise Extent.Apart)
    (small : ∀ extent ∈ layout, extent.numPages < 2 ^ 30) : (emptyState totalPages layout).Placed := by
  refine ⟨?_, ?_, ?_⟩
  · rwa [emptyState_layout]
  · rwa [emptyState_layout]
  · intro span member
    obtain ⟨extent, known, rfl⟩ := List.mem_map.mp member
    exact Bitmap.init_sized (small extent known)

theorem emptyState_ok {totalPages : Nat} {layout : List Extent}
    (extents : ∀ extent ∈ layout, extent.Ok) (apart : layout.Pairwise Extent.Apart)
    (small : ∀ extent ∈ layout, extent.numPages < 2 ^ 30) : (emptyState totalPages layout).Ok := by
  refine ⟨?_, ?_, (emptyState_placed (fun extent member => (extents extent member).placed) apart
    small).sized⟩
  · rwa [emptyState_layout]
  · rwa [emptyState_layout]

theorem extent_of_mem_free {state : PageAllocState} {pa : Nat} (isFree : pa ∈ state.free) :
    ∃ extent ∈ state.layout, extent.start ≤ pa ∧ pa < extent.start + 2 ^ 12 * extent.numPages := by
  obtain ⟨index, span, offset, here, inside, _, rfl⟩ := isFree
  refine ⟨span.extent, List.mem_map_of_mem (List.mem_of_getElem? here), ?_⟩
  simp only [Extent.page, PageAllocSpan.extent]
  omega

end Zeptux.Early
