import Mathlib.Algebra.BigOperators.Group.List.Basic
import Mathlib.Algebra.Order.BigOperators.Group.List
import Mathlib.Data.Finset.Card
import Zeptux.EarlyInit

/-!
The bookkeeping of the early allocator: the counters count the bits of the bitmaps, and the
bitmaps of the kinds of pages are parts of the bitmap of allocated pages.
-/

namespace Zeptux

theorem Bitmap.isSet_clearBit {bitmap : Bitmap} {bit : Nat} (isSet : bitmap.isSet bit = true)
    (other : Nat) :
    (bitmap.clearBit bit).isSet other = (!decide (other = bit) && bitmap.isSet other) := by
  rw [isSet_toggled]
  by_cases same : other = bit
  · subst same
    simp [isSet]
  · simp [same]

def Bitmap.setBits (bitmap : Bitmap) (count : Nat) : Finset Nat :=
  {bit ∈ Finset.range count | bitmap.isSet bit = true}

@[simp] theorem Bitmap.mem_setBits {bitmap : Bitmap} {count bit : Nat} :
    bit ∈ bitmap.setBits count ↔ bit < count ∧ bitmap.isSet bit = true := by
  simp [setBits]

namespace Early

open Word

theorem sum_modify {α : Type} (value : α → Nat) (change : α → α) {list : List α} {index : Nat}
    {element : α} (here : list[index]? = some element) :
    ((list.modify index change).map value).sum + value element =
      (list.map value).sum + value (change element) := by
  induction list generalizing index with
  | nil => cases here
  | cons head list ih =>
      cases index with
      | zero =>
          cases here
          simp only [List.modify_zero_cons, List.map_cons, List.sum_cons]
          omega
      | succ index =>
          have tail := ih (List.getElem?_cons_succ ▸ here)
          simp only [List.modify_succ_cons, List.map_cons, List.sum_cons]
          omega

/-! ## Bitmaps and counters by kind -/

def PageAllocSpan.bitmapOf (span : PageAllocSpan) : AllocType → Bitmap
  | .normal => span.allocBitmap
  | .ephemeral => span.ephemeralBitmap
  | .pagetable => span.pagetableBitmap
  | .physblock => span.physblockBitmap

def PageAllocState.countOf (state : PageAllocState) : AllocType → Nat
  | .normal => state.numAllocatedPages
  | .ephemeral => state.numEphemeralPages
  | .pagetable => state.numPagetablePages
  | .physblock => state.numPhysblockPages

def PageAllocSpan.pagesOf (span : PageAllocSpan) (type : AllocType) : Finset Nat :=
  (span.bitmapOf type).setBits span.numPages

/-- `.normal` stands for all allocated pages: they have no bitmap of their own. -/
structure PageAllocSpan.Booked (span : PageAllocSpan) : Prop where
  counted : span.numAllocatedPages = (span.pagesOf .normal).card
  inside : ∀ type bit, (span.bitmapOf type).isSet bit = true → bit < span.numPages
  subset : ∀ type bit, (span.bitmapOf type).isSet bit = true → span.allocBitmap.isSet bit = true
  apart : ∀ type other bit, type ≠ .normal → other ≠ .normal → type ≠ other →
    (span.bitmapOf type).isSet bit = true → (span.bitmapOf other).isSet bit = false

structure PageAllocState.Booked (state : PageAllocState) : Prop where
  spans : ∀ span ∈ state.spans, span.Booked
  counts : ∀ type, state.countOf type = (state.spans.map fun span => (span.pagesOf type).card).sum
  total : state.numAllocatedPages ≤ state.totalPages

structure PageAllocState.Shaped (state : PageAllocState) : Prop where
  sized : ∀ span ∈ state.spans, span.allocBitmap.Sized span.numPages
  bounded : ∀ extent ∈ state.layout, extent.start + 2 ^ 12 * extent.numPages ≤ 2 ^ 48
  room : (state.layout.map Extent.numPages).sum ≤ state.totalPages
  small : state.totalPages < 2 ^ 63

section

variable {state : PageAllocState} {span : PageAllocSpan} {index offset : Nat}

theorem pagesOf_le (span : PageAllocSpan) (type : AllocType) :
    (span.pagesOf type).card ≤ span.numPages := by
  have bound := Finset.card_filter_le (Finset.range span.numPages)
    fun bit => (span.bitmapOf type).isSet bit = true
  rwa [Finset.card_range] at bound

theorem PageAllocState.Shaped.sum_le (shaped : state.Shaped) (type : AllocType) :
    (state.spans.map fun span => (span.pagesOf type).card).sum ≤ state.totalPages := by
  have room := shaped.room
  rw [PageAllocState.layout, List.map_map] at room
  exact Nat.le_trans (List.sum_le_sum fun span _ => pagesOf_le span type) room

theorem PageAllocState.Shaped.spans_bounded (shaped : state.Shaped) :
    ∀ span ∈ state.spans, span.start + 2 ^ 12 * span.numPages ≤ 2 ^ 48 :=
  fun _ member => shaped.bounded _ (List.mem_map_of_mem member)

structure PageAllocState.Kept (state : PageAllocState) : Prop extends state.Booked, state.Shaped

theorem PageAllocState.Kept.change (kept : state.Kept) {after : PageAllocState}
    {change : PageAllocSpan → PageAllocSpan} (here : state.spans[index]? = some span)
    (spans : after.spans = state.spans.modify index change)
    (extent : ∀ span, (change span).extent = span.extent)
    (sized : (change span).allocBitmap.Sized span.numPages) (booked : (change span).Booked)
    (total : after.totalPages = state.totalPages)
    (counts : ∀ type, after.countOf type + (span.pagesOf type).card =
      state.countOf type + ((change span).pagesOf type).card) : after.Kept := by
  have found : ∀ (place : Nat) (next : PageAllocSpan), after.spans[place]? = some next →
      next = change span ∨ next ∈ state.spans := by
    intro place next there
    rw [spans, List.getElem?_modify] at there
    split at there
    · rename_i same
      rw [← same, here] at there
      cases there
      exact Or.inl rfl
    · rw [id_map'] at there
      exact Or.inr (List.mem_of_getElem? there)
  have layout : after.layout = state.layout := by
    apply List.ext_getElem?
    intro place
    simp only [PageAllocState.layout, spans, List.getElem?_map, List.getElem?_modify]
    split <;> cases state.spans[place]? <;> simp [extent]
  have shaped : after.Shaped := by
    refine ⟨?_, ?_, ?_, ?_⟩
    · intro next member
      obtain ⟨place, there⟩ := List.getElem?_of_mem member
      rcases found place next there with rfl | old
      · have pages : (change span).numPages = span.numPages := congrArg Extent.numPages (extent span)
        rwa [pages]
      · exact kept.sized next old
    · rw [layout]
      exact kept.bounded
    · rw [layout, total]
      exact kept.room
    · rw [total]
      exact kept.small
  have sums : ∀ type, after.countOf type =
      (after.spans.map fun span => (span.pagesOf type).card).sum := by
    intro type
    have balance := sum_modify (fun span => (span.pagesOf type).card) change here
    have moved := counts type
    rw [kept.counts type] at moved
    rw [spans]
    omega
  refine ⟨⟨?_, sums, ?_⟩, shaped⟩
  · intro next member
    obtain ⟨place, there⟩ := List.getElem?_of_mem member
    rcases found place next there with rfl | old
    · exact booked
    · exact kept.spans next old
  · have bound := shaped.sum_le .normal
    rwa [← sums .normal] at bound

theorem PageAllocState.Kept.count_le (kept : state.Kept) (type : AllocType) :
    state.countOf type < 2 ^ 63 := by
  rw [kept.counts type]
  exact Nat.lt_of_le_of_lt (kept.sum_le type) kept.small

theorem PageAllocState.Kept.numPages_lt (kept : state.Kept) (here : state.spans[index]? = some span) :
    span.numPages < 2 ^ 63 := by
  have bounded := kept.spans_bounded span (List.mem_of_getElem? here)
  omega

/-! ## Marking -/

theorem bitmapOf_mark (span : PageAllocSpan) (offset : Nat) (type kind : AllocType) :
    (span.mark offset type).bitmapOf kind =
      if kind = .normal ∨ kind = type then (span.bitmapOf kind).setBit offset
      else span.bitmapOf kind := by
  cases type <;> cases kind <;> rfl

theorem countOf_mark (state : PageAllocState) (index offset : Nat) (type kind : AllocType) :
    (markPageAllocated state index offset type).countOf kind =
      if kind = .normal ∨ kind = type then add64 (state.countOf kind) 1 else state.countOf kind := by
  cases type <;> cases kind <;> rfl

theorem isSet_bitmapOf_mark (span : PageAllocSpan) (offset : Nat) (type kind : AllocType)
    (bit : Nat) :
    ((span.mark offset type).bitmapOf kind).isSet bit =
      (decide ((kind = .normal ∨ kind = type) ∧ bit = offset) || (span.bitmapOf kind).isSet bit) := by
  rw [bitmapOf_mark]
  split
  · rename_i same
    rw [Bitmap.isSet_setBit]
    simp only [same, true_and]
  · rename_i different
    simp only [different, false_and, decide_false, Bool.false_or]

theorem PageAllocSpan.Booked.card_mark (booked : span.Booked) (inside : offset < span.numPages)
    (clear : span.allocBitmap.isSet offset = false) (type kind : AllocType) :
    ((span.mark offset type).pagesOf kind).card =
      (span.pagesOf kind).card + if kind = .normal ∨ kind = type then 1 else 0 := by
  have absent : (span.bitmapOf kind).isSet offset = false := by
    by_contra isSet
    rw [booked.subset kind offset (by simpa using isSet)] at clear
    cases clear
  have pages : (span.mark offset type).pagesOf kind =
      if kind = .normal ∨ kind = type then insert offset (span.pagesOf kind)
      else span.pagesOf kind := by
    ext bit
    rw [PageAllocSpan.pagesOf, Bitmap.mem_setBits, PageAllocSpan.mark_numPages,
      isSet_bitmapOf_mark, PageAllocSpan.pagesOf]
    split
    · rename_i same
      simp only [same, true_and, Bool.or_eq_true, decide_eq_true_eq, Finset.mem_insert,
        Bitmap.mem_setBits]
      constructor
      · rintro ⟨low, rfl | isSet⟩
        · exact Or.inl rfl
        · exact Or.inr ⟨low, isSet⟩
      · rintro (rfl | ⟨low, isSet⟩)
        · exact ⟨inside, Or.inl rfl⟩
        · exact ⟨low, Or.inr isSet⟩
    · rename_i different
      simp only [different, false_and, decide_false, Bool.false_or, Bitmap.mem_setBits]
  rw [pages]
  split
  · apply Finset.card_insert_of_notMem
    rw [PageAllocSpan.pagesOf, Bitmap.mem_setBits, absent]
    simp
  · rfl

theorem PageAllocSpan.Booked.mark (booked : span.Booked) (small : span.numPages < 2 ^ 63)
    (inside : offset < span.numPages) (clear : span.allocBitmap.isSet offset = false)
    (type : AllocType) : (span.mark offset type).Booked := by
  have here : ∀ kind, (span.bitmapOf kind).isSet offset = false := by
    intro kind
    by_contra isSet
    rw [booked.subset kind offset (by simpa using isSet)] at clear
    cases clear
  have alloc : ∀ bit, (span.mark offset type).allocBitmap.isSet bit =
      (decide (bit = offset) || span.allocBitmap.isSet bit) := by
    intro bit
    rw [PageAllocSpan.mark_allocBitmap, Bitmap.isSet_setBit]
  refine ⟨?_, ?_, ?_, ?_⟩
  · have number : (span.mark offset type).numAllocatedPages = add64 span.numAllocatedPages 1 := by
      cases type <;> rfl
    have few := pagesOf_le span .normal
    rw [number, booked.card_mark inside clear, if_pos (Or.inl rfl), booked.counted,
      add64_eq (by omega)]
  · intro kind bit isSet
    rw [isSet_bitmapOf_mark, Bool.or_eq_true, decide_eq_true_eq] at isSet
    rw [PageAllocSpan.mark_numPages]
    rcases isSet with ⟨_, rfl⟩ | old
    · exact inside
    · exact booked.inside kind bit old
  · intro kind bit isSet
    rw [isSet_bitmapOf_mark, Bool.or_eq_true, decide_eq_true_eq] at isSet
    rw [alloc, Bool.or_eq_true, decide_eq_true_eq]
    rcases isSet with ⟨_, same⟩ | old
    · exact Or.inl same
    · exact Or.inr (booked.subset kind bit old)
  · intro kind other bit notNormal otherNotNormal different isSet
    rw [isSet_bitmapOf_mark, Bool.or_eq_true, decide_eq_true_eq] at isSet
    rw [isSet_bitmapOf_mark, Bool.or_eq_false_iff, decide_eq_false_iff_not]
    rcases isSet with ⟨isType, rfl⟩ | old
    · refine ⟨?_, here other⟩
      rintro ⟨otherType, _⟩
      exact different ((isType.resolve_left notNormal).trans
        (otherType.resolve_left otherNotNormal).symm)
    · refine ⟨?_, booked.apart kind other bit notNormal otherNotNormal different old⟩
      rintro ⟨_, rfl⟩
      rw [here kind] at old
      cases old

theorem PageAllocState.Kept.mark (kept : state.Kept) (here : state.spans[index]? = some span)
    (inside : offset < span.numPages) (clear : span.allocBitmap.isSet offset = false)
    (type : AllocType) : (markPageAllocated state index offset type).Kept := by
  have booked := kept.spans span (List.mem_of_getElem? here)
  apply kept.change here (markPageAllocated_spans state index offset type)
    (fun span => span.mark_extent offset type)
  · rw [PageAllocSpan.mark_allocBitmap]
    exact (kept.sized span (List.mem_of_getElem? here)).setBit offset
  · exact booked.mark (kept.numPages_lt here) inside clear type
  · cases type <;> rfl
  · intro kind
    have small := kept.count_le kind
    rw [countOf_mark, booked.card_mark inside clear]
    split
    · rw [add64_eq (by omega)]
      omega
    · rfl

theorem PageAllocState.Kept.markPages {count : Nat} (kept : state.Kept)
    (here : state.spans[index]? = some span) (inside : offset + count ≤ span.numPages)
    (clear : ∀ step < count, span.allocBitmap.isSet (offset + step) = false) :
    (markPagesFrom index count offset state).Kept := by
  induction count generalizing state offset span with
  | zero => exact kept
  | succ count ih =>
      have small := kept.numPages_lt here
      have first := kept.mark here (by omega : offset < span.numPages) (clear 0 (by omega)) .normal
      have room : offset + 1 + count ≤ (span.mark offset .normal).numPages := by
        rw [PageAllocSpan.mark_numPages]
        omega
      rw [markPagesFrom, toUint64_natCast (by omega)]
      exact ih first (markPageAllocated_here here) room (PageAllocSpan.mark_clear clear)

/-! ## Freeing -/

@[simp] theorem PageAllocSpan.unmark_numPages (span : PageAllocSpan) (offset : Nat) :
    (span.unmark offset).numPages = span.numPages := by
  rw [PageAllocSpan.unmark]

@[simp] theorem PageAllocSpan.unmark_extent (span : PageAllocSpan) (offset : Nat) :
    (span.unmark offset).extent = span.extent := by
  have start : (span.unmark offset).start = span.start := by rw [PageAllocSpan.unmark]
  rw [PageAllocSpan.extent, PageAllocSpan.extent, start, PageAllocSpan.unmark_numPages]

theorem PageAllocSpan.unmark_numAllocatedPages (span : PageAllocSpan) (offset : Nat) :
    (span.unmark offset).numAllocatedPages = sub64 span.numAllocatedPages 1 := by
  rw [PageAllocSpan.unmark]

@[simp] theorem PageAllocSpan.unmark_allocBitmap (span : PageAllocSpan) (offset : Nat) :
    (span.unmark offset).allocBitmap = span.allocBitmap.clearBit offset := by
  rw [PageAllocSpan.unmark]

theorem bitmapOf_unmark (isSet : span.allocBitmap.isSet offset = true) (kind : AllocType) :
    (span.unmark offset).bitmapOf kind =
      if (span.bitmapOf kind).isSet offset then (span.bitmapOf kind).clearBit offset
      else span.bitmapOf kind := by
  rw [PageAllocSpan.unmark]
  cases kind with
  | normal =>
      have wasSet : (span.bitmapOf .normal).isSet offset = true := isSet
      rw [if_pos wasSet]
      rfl
  | ephemeral => rfl
  | pagetable => rfl
  | physblock => rfl

theorem isSet_bitmapOf_unmark (isSet : span.allocBitmap.isSet offset = true) (kind : AllocType)
    (bit : Nat) :
    ((span.unmark offset).bitmapOf kind).isSet bit =
      (!decide (bit = offset) && (span.bitmapOf kind).isSet bit) := by
  rw [bitmapOf_unmark isSet]
  split
  · rename_i wasSet
    exact Bitmap.isSet_clearBit wasSet bit
  · rename_i wasClear
    by_cases same : bit = offset
    · subst same
      simp [wasClear]
    · simp [same]

theorem PageAllocSpan.Booked.card_unmark (booked : span.Booked)
    (isSet : span.allocBitmap.isSet offset = true) (kind : AllocType) :
    (span.pagesOf kind).card = ((span.unmark offset).pagesOf kind).card +
      if (span.bitmapOf kind).isSet offset then 1 else 0 := by
  have pages : (span.unmark offset).pagesOf kind = (span.pagesOf kind).erase offset := by
    ext bit
    rw [PageAllocSpan.pagesOf, Bitmap.mem_setBits, isSet_bitmapOf_unmark isSet,
      PageAllocSpan.unmark_numPages, Finset.mem_erase, PageAllocSpan.pagesOf, Bitmap.mem_setBits, Bool.and_eq_true,
      Bool.not_eq_true', decide_eq_false_iff_not]
    exact ⟨fun ⟨low, other, still⟩ => ⟨other, low, still⟩,
      fun ⟨other, low, still⟩ => ⟨low, other, still⟩⟩
  rw [pages]
  split
  · rename_i here
    have member : offset ∈ span.pagesOf kind :=
      Bitmap.mem_setBits.mpr ⟨booked.inside kind offset here, here⟩
    exact (Finset.card_erase_add_one member).symm
  · rename_i absent
    rw [Finset.erase_eq_of_notMem, Nat.add_zero]
    rw [PageAllocSpan.pagesOf, Bitmap.mem_setBits]
    exact fun member => absent member.2

theorem PageAllocSpan.Booked.unmark (booked : span.Booked) (small : span.numPages < 2 ^ 63)
    (isSet : span.allocBitmap.isSet offset = true) : (span.unmark offset).Booked := by
  have kept : ∀ kind bit, ((span.unmark offset).bitmapOf kind).isSet bit = true →
      bit ≠ offset ∧ (span.bitmapOf kind).isSet bit = true := by
    intro kind bit still
    rw [isSet_bitmapOf_unmark isSet] at still
    simpa using still
  refine ⟨?_, ?_, ?_, ?_⟩
  · have card := booked.card_unmark isSet .normal
    have few := pagesOf_le span .normal
    have wasSet : (span.bitmapOf .normal).isSet offset = true := isSet
    rw [if_pos wasSet] at card
    rw [PageAllocSpan.unmark_numAllocatedPages, booked.counted, sub64_eq (by omega) (by omega)]
    omega
  · intro kind bit still
    rw [PageAllocSpan.unmark_numPages]
    exact booked.inside kind bit (kept kind bit still).2
  · intro kind bit still
    obtain ⟨other, old⟩ := kept kind bit still
    have allocated : ((span.unmark offset).bitmapOf .normal).isSet bit = true := by
      rw [isSet_bitmapOf_unmark isSet]
      simp only [other, decide_false, Bool.not_false, Bool.true_and]
      exact booked.subset kind bit old
    exact allocated
  · intro kind other bit notNormal otherNotNormal different still
    rw [isSet_bitmapOf_unmark isSet,
      booked.apart kind other bit notNormal otherNotNormal different (kept kind bit still).2,
      Bool.and_false]

theorem countOf_unmark (isSet : span.allocBitmap.isSet offset = true) (kind : AllocType) :
    (unmarkPage state index span offset).countOf kind =
      if (span.bitmapOf kind).isSet offset then sub64 (state.countOf kind) 1
      else state.countOf kind := by
  rw [unmarkPage]
  cases kind with
  | normal =>
      have wasSet : (span.bitmapOf .normal).isSet offset = true := isSet
      rw [if_pos wasSet, PageAllocState.countOf, PageAllocState.countOf]
  | ephemeral => rfl
  | pagetable => rfl
  | physblock => rfl

theorem PageAllocState.Kept.unmark (kept : state.Kept) (here : state.spans[index]? = some span)
    (isSet : span.allocBitmap.isSet offset = true) :
    (unmarkPage state index span offset).Kept := by
  have booked := kept.spans span (List.mem_of_getElem? here)
  have known := kept.sized span (List.mem_of_getElem? here)
  have spans : (unmarkPage state index span offset).spans =
      state.spans.modify index fun span => span.unmark offset := by
    rw [unmarkPage]
  apply kept.change here spans (fun span => span.unmark_extent offset)
  · rw [PageAllocSpan.unmark_allocBitmap]
    exact ⟨known.numBits, known.room, known.small⟩
  · exact booked.unmark (kept.numPages_lt here) isSet
  · rw [unmarkPage]
  · intro kind
    have card := booked.card_unmark isSet kind
    have small := kept.count_le kind
    have member : (span.pagesOf kind).card ≤ state.countOf kind := by
      rw [kept.counts kind]
      exact List.single_le_sum (fun _ _ => Nat.zero_le _) _
        (List.mem_map_of_mem (List.mem_of_getElem? here))
    rw [countOf_unmark isSet]
    split
    · rename_i wasSet
      rw [if_pos wasSet] at card
      rw [sub64_eq (by omega) (by omega)]
      omega
    · rename_i wasClear
      rw [if_neg wasClear] at card
      omega

end

end Early

end Zeptux
