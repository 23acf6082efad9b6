import Mathlib.Data.Set.Card
import Mathlib.Order.Interval.Set.Nat
import Zeptux.E820
import Zeptux.Early
import Zeptux.EarlyInitCore
import Zeptux.PageEntries

/-!
What `early_page_alloc_init` leaves: one span for each RAM entry, the scratch pages and the
pages in use since boot marked as allocated.
-/

namespace Zeptux.Early

open Page Word

/-! ## Scratch pages -/

structure ScratchGrown (before after : ScratchAllocState) (count : Nat) : Prop where
  start : after.start = before.start
  pages : after.pages = before.pages + count
  few : after.pages ≤ earlyMaxScratchPages

theorem ScratchGrown.trans {before middle after : ScratchAllocState} {count more : Nat}
    (first : ScratchGrown before middle count) (second : ScratchGrown middle after more) :
    ScratchGrown before after (count + more) :=
  ⟨second.start.trans first.start, by rw [second.pages, first.pages, Nat.add_assoc], second.few⟩

theorem earlyScratchPageAlloc_ok {before after : ScratchAllocState} {pa : Nat}
    (call : earlyScratchPageAlloc before = .ok (pa, after)) :
    ScratchGrown before after 1 ∧ pa = add64 before.start (pageSize * before.pages % 2 ^ 64) := by
  unfold earlyScratchPageAlloc at call
  split at call
  · cases call
  · rename_i room
    cases call
    exact ⟨⟨rfl, rfl, by simp only; omega⟩, rfl⟩

theorem scratchPagesAlloc_ok {before after : ScratchAllocState} {count : Nat}
    (few : before.pages ≤ earlyMaxScratchPages)
    (call : scratchPagesAlloc count before = .ok after) : ScratchGrown before after count := by
  induction count generalizing before with
  | zero =>
      cases call
      exact ⟨rfl, rfl, few⟩
  | succ count ih =>
      obtain ⟨⟨pa, middle⟩, first, rest⟩ := bind_ok call
      have grown := (earlyScratchPageAlloc_ok first).1
      have whole := grown.trans (ih grown.few rest)
      rwa [Nat.add_comm] at whole

theorem bitmapPagesAlloc_ok {before after : ScratchAllocState} {bitmapPages : Nat}
    (positive : 0 < bitmapPages) (small : bitmapPages < 2 ^ 31)
    (call : bitmapPagesAlloc bitmapPages before = .ok after) :
    ScratchGrown before after bitmapPages := by
  obtain ⟨⟨pa, middle⟩, first, rest⟩ := bind_ok call
  rw [toInt32_eq small, show ((bitmapPages : Int) - 1).toNat = bitmapPages - 1 by omega] at rest
  have grown := (earlyScratchPageAlloc_ok first).1
  have whole := grown.trans (scratchPagesAlloc_ok grown.few rest)
  rwa [Nat.add_sub_cancel' positive] at whole

/-! ## Spans -/

def bitmapPagesOf (numPages : Nat) : Nat := (8 + (numPages + 63) / 64 * 8 + 4095) / 4096

theorem bytesToPages_calcSize {numPages : Nat} (small : numPages < 2 ^ 48) :
    bytesToPages (Bitmap.calcSize numPages) = bitmapPagesOf numPages := by
  rw [Bitmap.calcSize, Bitmap.calcWords_eq (by omega), bytesToPages_eq (by omega), bitmapPagesOf]
  rfl

theorem allocSpanBitmaps_ok {start numPages count : Nat} {span : PageAllocSpan}
    {before after : ScratchAllocState} (small : numPages ≤ 2 ^ 36)
    (call : allocSpanBitmaps start numPages before = .ok (span, count, after)) :
    span = (Extent.mk start numPages).emptySpan ∧ numPages < 2 ^ 30 ∧ ScratchGrown before after count := by
  unfold allocSpanBitmaps at call
  simp only [bytesToPages_calcSize (by omega : numPages < 2 ^ 48)] at call
  have positive : 0 < bitmapPagesOf numPages := by
    unfold bitmapPagesOf
    omega
  have fits : bitmapPagesOf numPages < 2 ^ 31 := by
    unfold bitmapPagesOf
    omega
  obtain ⟨first, firstCall, call⟩ := bind_ok call
  obtain ⟨second, secondCall, call⟩ := bind_ok call
  obtain ⟨third, thirdCall, call⟩ := bind_ok call
  obtain ⟨fourth, fourthCall, call⟩ := bind_ok call
  cases call
  have one := bitmapPagesAlloc_ok positive fits firstCall
  have two := bitmapPagesAlloc_ok positive fits secondCall
  have three := bitmapPagesAlloc_ok positive fits thirdCall
  have four := bitmapPagesAlloc_ok positive fits fourthCall
  have whole := ((one.trans two).trans three).trans four
  refine ⟨rfl, ?_, ?_⟩
  · have few := whole.few
    rw [whole.pages] at few
    unfold bitmapPagesOf earlyMaxScratchPages at few
    omega
  · rwa [show bitmapPagesOf numPages * 4 = bitmapPagesOf numPages + bitmapPagesOf numPages +
      bitmapPagesOf numPages + bitmapPagesOf numPages by omega]

def E820Entry.extent (entry : E820Entry) : Extent := ⟨entry.base, entry.size >>> pageShift⟩

def BootInfo.layout (info : BootInfo) : List Extent := info.ramEntries.map E820Entry.extent

theorem initSpansFrom_ok {info : BootInfo} (remaining i : Nat) {spans after : List PageAllocSpan}
    {count total : Nat} {before scratch : ScratchAllocState}
    (small : ∀ entry ∈ slice info.e820Entries i remaining, entry.type = e820TypeRam →
      entry.size ≤ 2 ^ 48)
    (few : before.pages ≤ earlyMaxScratchPages) (counted : count = before.pages)
    (call : initSpansFrom info remaining i spans count before = .ok (after, total, scratch)) :
    after = spans ++ (((slice info.e820Entries i remaining).filter fun entry =>
        entry.type = e820TypeRam).map E820Entry.extent).map Extent.emptySpan ∧
      (∀ entry ∈ slice info.e820Entries i remaining, entry.type = e820TypeRam →
        entry.extent.numPages < 2 ^ 30) ∧
      scratch.start = before.start ∧ total = scratch.pages ∧
      scratch.pages ≤ earlyMaxScratchPages := by
  induction remaining generalizing i spans count before with
  | zero =>
      cases call
      exact ⟨by simp [slice], by simp [slice], rfl, counted, few⟩
  | succ remaining ih =>
      rw [initSpansFrom] at call
      rw [slice]
      rw [slice] at small
      have later : ∀ entry ∈ slice info.e820Entries (i + 1) remaining, entry.type = e820TypeRam →
          entry.size ≤ 2 ^ 48 := fun entry member => small entry (List.mem_cons_of_mem _ member)
      by_cases ram : (info.e820Entries i).type = e820TypeRam
      · rw [if_neg (by simp [ram])] at call
        obtain ⟨⟨span, added, middle⟩, first, rest⟩ := bind_ok call
        have size := small _ List.mem_cons_self ram
        obtain ⟨isSpan, pages, grown⟩ := allocSpanBitmaps_ok
          (by rw [pageShift, Nat.shiftRight_eq_div_pow]; omega) first
        have sum : add64 count added = middle.pages := by
          have limit := grown.few
          rw [grown.pages] at limit ⊢
          rw [counted, add64_eq]
          unfold earlyMaxScratchPages at limit
          omega
        obtain ⟨list, bound, start, totals, limit⟩ := ih (i + 1) later grown.few sum rest
        refine ⟨?_, ?_, start.trans grown.start, totals, limit⟩
        · rw [list, isSpan]
          simp [ram, E820Entry.extent]
        · intro entry member isRam
          rcases List.mem_cons.mp member with rfl | inRest
          · exact pages
          · exact bound entry inRest isRam
      · rw [if_pos ram] at call
        obtain ⟨list, bound, rest⟩ := ih (i + 1) later few counted call
        refine ⟨?_, ?_, rest⟩
        · rw [list]
          simp [ram]
        · intro entry member isRam
          rcases List.mem_cons.mp member with rfl | inRest
          · exact absurd isRam ram
          · exact bound entry inRest isRam

/-- What `early_set_total_ram` leaves for the early allocator. -/
structure BootInfo.Counted (info : BootInfo) : Prop where
  numRamSpans : info.numRamSpans = info.ramEntries.length
  totalAvailRamBytes : info.totalAvailRamBytes = (info.ramEntries.map E820Entry.size).sum

/-- Pairwise disjoint RAM in physical memory, counted by `early_set_total_ram`. -/
structure BootInfo.Disjoint (info : BootInfo) : Prop where
  apart : info.ramEntries.Pairwise fun entry other =>
    entry.base + entry.size ≤ other.base ∨ other.base + other.size ≤ entry.base
  bounded : ∀ entry ∈ info.ramEntries, entry.base + entry.size ≤ 2 ^ 48
  counted : info.Counted

theorem earlyPageAllocInit_ok {info : BootInfo} {state : PageAllocState}
    {scratch : ScratchAllocState} (disjoint : info.Disjoint)
    (call : earlyPageAllocInit info earlyScratchAllocInit = .ok (state, scratch)) :
    allocInitPages info earlyScratchAllocInit.start scratch.pages
        (emptyState (bytesToPages info.totalAvailRamBytes) info.layout) = .ok state ∧
      (∀ extent ∈ info.layout, extent.numPages < 2 ^ 30) ∧
      scratch.pages ≤ earlyMaxScratchPages := by
  unfold earlyPageAllocInit at call
  obtain ⟨⟨pa, first⟩, firstCall, call⟩ := bind_ok call
  obtain ⟨grown, address⟩ := earlyScratchPageAlloc_ok firstCall
  simp only at call
  split at call
  · cases call
  · obtain ⟨⟨spans, total, last⟩, spansCall, call⟩ := bind_ok call
    obtain ⟨final, pagesCall, call⟩ := bind_ok call
    cases call
    obtain ⟨list, bound, start, totals, limit⟩ := initSpansFrom_ok _ _
      (fun entry member isRam => by
        have bounded := disjoint.bounded entry
          (List.mem_filter.mpr ⟨member, by simpa using isRam⟩)
        omega)
      grown.few (by rw [grown.pages]; rfl) spansCall
    have layout : spans = info.layout.map Extent.emptySpan := by
      rw [list, List.nil_append]
      rfl
    have all : spans.take info.numRamSpans = spans := by
      apply List.take_of_length_le
      rw [layout, List.length_map, disjoint.counted.numRamSpans, BootInfo.layout, List.length_map]
    refine ⟨?_, ?_, limit⟩
    · have place : pa = earlyScratchAllocInit.start := address
      rw [all, layout, place, totals] at pagesCall
      exact pagesCall
    · intro extent member
      obtain ⟨entry, isEntry, rfl⟩ := List.mem_map.mp member
      rw [BootInfo.ramEntries, List.mem_filter] at isEntry
      exact bound entry isEntry.1 (by simpa using isEntry.2)

end Zeptux.Early
