import Zeptux.EarlyInit
import Zeptux.EarlyMetadataCore

/-!
`early_page_alloc_init` with memory and without: the calls of the scratch allocator are the same,
and so are the arguments of `alloc_init_pages`.
-/

namespace Zeptux.Early

open Page Word X86Paging

theorem map_bind_map {ε α β γ δ : Type} {first : Except ε α} {rest : α → Except ε β}
    {image : α → γ} {imageRest : γ → Except ε δ} {result : β → δ}
    (same : ∀ value, imageRest (image value) = result <$> rest value) :
    image <$> first >>= imageRest = result <$> (first >>= rest) := by
  rw [bind_map_left, map_bind]
  exact bind_congr same

/-! ## Scratch pages -/

theorem scratchPageAlloc_scratch (state : BootMemory) :
    earlyScratchPageAlloc state.scratch =
      (fun taken => (taken.1, taken.2.scratch)) <$> scratchPageAlloc state := by
  rw [scratchPageAlloc]
  cases earlyScratchPageAlloc state.scratch with
  | error panic => rfl
  | ok taken => rfl

theorem furtherPagesAlloc_scratch (count : Nat) (state : BootMemory) :
    scratchPagesAlloc count state.scratch = BootMemory.scratch <$> furtherPagesAlloc count state := by
  induction count generalizing state with
  | zero => rfl
  | succ count ih =>
      rw [scratchPagesAlloc, furtherPagesAlloc, scratchPageAlloc_scratch]
      exact map_bind_map fun taken => ih taken.2

theorem bitmapAlloc_scratch (field bitmapPages : Nat) (state : BootMemory) :
    bitmapPagesAlloc bitmapPages state.scratch =
      BootMemory.scratch <$> bitmapAlloc field bitmapPages state := by
  rw [bitmapPagesAlloc, bitmapAlloc, scratchPageAlloc_scratch]
  exact map_bind_map fun taken => furtherPagesAlloc_scratch (toInt32 bitmapPages - 1).toNat
    { taken.2 with mem := storeWord taken.2.mem field (physToVirt taken.1) }

/-! ## The spans -/

theorem loadWord_storeWord (mem : Memory) (ptr word : Nat) :
    loadWord (storeWord mem ptr word) ptr = word := by
  unfold loadWord storeWord
  generalize sub64 ptr kernelDirectMapBase = address
  exact Function.update_self address word mem

theorem spanBitmapsAlloc_scratch (start : Nat) {numPages span : Nat} {state : BootMemory}
    (stored : loadWord state.mem (spanNumPagesPtr span) = numPages) :
    allocSpanBitmaps start numPages state.scratch =
      (fun taken => ((Extent.mk start numPages).emptySpan, taken.1, taken.2.scratch)) <$>
        spanBitmapsAlloc span state := by
  rw [spanBitmapsAlloc, stored, allocSpanBitmaps, bitmapAlloc_scratch (spanAllocBitmapPtr span)]
  refine map_bind_map fun first => ?_
  rw [bitmapAlloc_scratch (spanEphemeralBitmapPtr span)]
  refine map_bind_map fun second => ?_
  rw [bitmapAlloc_scratch (spanPagetableBitmapPtr span)]
  refine map_bind_map fun third => ?_
  rw [bitmapAlloc_scratch (spanPhysblockBitmapPtr span)]
  refine map_bind_map fun fourth => ?_
  cases fourth with
  | mk scratch mem => rfl

theorem spansInitFrom_scratch {info : BootInfo} {allocState : Nat} (remaining i index count : Nat)
    (spans : List PageAllocSpan) (state : BootMemory) :
    initSpansFrom info remaining i spans count state.scratch =
      (fun laid => (spans ++ (((slice info.e820Entries i remaining).filter fun entry =>
          entry.type = e820TypeRam).map E820Entry.extent).map Extent.emptySpan,
          laid.1, laid.2.scratch)) <$>
        spansInitFrom info allocState remaining i index count state := by
  induction remaining generalizing i index count spans state with
  | zero => simp [initSpansFrom, spansInitFrom, slice]
  | succ remaining ih =>
      rw [initSpansFrom, spansInitFrom, slice]
      by_cases ram : (info.e820Entries i).type = e820TypeRam
      · generalize started : storeWord (storeWord state.mem (spanStartPtr (spanPtr allocState index))
          (info.e820Entries i).base) (spanNumPagesPtr (spanPtr allocState index))
          ((info.e820Entries i).size >>> pageShift) = mem
        have stored : loadWord mem (spanNumPagesPtr (spanPtr allocState index)) =
            (info.e820Entries i).size >>> pageShift := by
          rw [← started, loadWord_storeWord]
        have round := @spanBitmapsAlloc_scratch (info.e820Entries i).base _ _ ⟨state.scratch, mem⟩ stored
        rw [if_neg (by simpa using ram), if_neg (by simpa using ram), round,
          List.filter_cons_of_pos (by simpa using ram), List.map_cons, List.map_cons]
        simp only [started]
        refine map_bind_map fun taken => ?_
        rw [ih, List.append_assoc]
        rfl
      · rw [if_pos ram, if_pos ram, List.filter_cons_of_neg (by simpa using ram)]
        exact ih _ _ _ _ _

/-! ## The whole call -/

/-- `early_page_alloc_init` hands the pages that its metadata took to `alloc_init_pages`. -/
theorem earlyPageAllocInit_eq (info : BootInfo) (before : BootMemory) :
    earlyPageAllocInit info before.scratch = metadataInit info before >>= fun result =>
      (fun state => (state, result.state.scratch)) <$>
        allocInitPages info result.firstScratchPage result.numScratchPages
          (emptyState (bytesToPages info.totalAvailRamBytes)
            (info.layout.take info.numRamSpans)) := by
  rw [earlyPageAllocInit, metadataInit, scratchPageAlloc_scratch, bind_map_left, bind_assoc]
  refine bind_congr fun taken => ?_
  obtain ⟨pa, scratch, mem⟩ := taken
  by_cases aligned : isAligned info.totalAvailRamBytes pageSize = true
  · have go : ¬(!isAligned info.totalAvailRamBytes pageSize) = true := by simp [aligned]
    simp only [if_neg go]
    generalize storeWord (storeWord mem (stateTotalPagesPtr (physToVirt pa)) _)
      (stateNumSpansPtr (physToVirt pa)) info.numRamSpans = started
    have spans := @spansInitFrom_scratch info (physToVirt pa) info.numE820Entries 0 0 1 []
      ⟨scratch, started⟩
    simp only [List.nil_append] at spans
    rw [bind_assoc, spans, bind_map_left]
    refine bind_congr fun laid => ?_
    rw [pure_bind, emptyState, List.map_take, BootInfo.layout, BootInfo.ramEntries]
    exact bind_pure_comp _ _
  · have stop : (!isAligned info.totalAvailRamBytes pageSize) = true := by simp [aligned]
    simp only [if_pos stop]
    rfl

end Zeptux.Early
