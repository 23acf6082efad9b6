import Zeptux.EarlyInitCore
import Zeptux.RemapCore

/-!
`early_page_alloc_init` up to its call of `alloc_init_pages`, with the memory that it writes:
the state page with the structures of the spans, and the bitmaps. Pointers go through the
direct map, and a word of memory is found under its physical address.
-/

namespace Zeptux.Early

open Page Word X86Paging

def loadWord (mem : Memory) (ptr : Nat) : Nat := mem (sub64 ptr kernelDirectMapBase)

def storeWord (mem : Memory) (ptr word : Nat) : Memory :=
  Function.update mem (sub64 ptr kernelDirectMapBase) word

/-- The field of a structure of words. -/
def fieldPtr (ptr index : Nat) : Nat := add64 ptr (8 * index)

/-! ## Bitmaps in memory -/

def bitmapAt (mem : Memory) (bitmap : Nat) : Bitmap where
  numBits := loadWord mem bitmap % 2 ^ 32
  numWords := loadWord mem bitmap / 2 ^ 32 % 2 ^ 32
  data := fun word => BitVec.ofNat 64 (loadWord mem (fieldPtr bitmap (1 + word)))

def bitmapClearAll (bitmap : Nat) (mem : Memory) : Memory :=
  (List.range (bitmapAt mem bitmap).numWords).foldl
    (fun mem word => storeWord mem (fieldPtr bitmap (1 + word)) 0) mem

def bitmapInit (bitmap numBits : Nat) (mem : Memory) : Memory :=
  let header := numBits % 2 ^ 32 + Bitmap.calcWords numBits % 2 ^ 32 * 2 ^ 32
  bitmapClearAll bitmap (storeWord mem bitmap header)

/-! ## Scratch pages in memory -/

structure BootMemory where
  scratch : ScratchAllocState
  mem : Memory

def scratchPageAlloc (state : BootMemory) : Except Panic (Nat × BootMemory) := do
  let (pa, scratch) ← earlyScratchPageAlloc state.scratch
  return (pa, ⟨scratch, zeroPage state.mem pa⟩)

def furtherPagesAlloc : Nat → BootMemory → Except Panic BootMemory
  | 0, state => return state
  | remaining + 1, state => do
      let (_, state) ← scratchPageAlloc state
      furtherPagesAlloc remaining state

/-- The pages of one bitmap; the pointer to the first is stored before the loop. -/
def bitmapAlloc (field bitmapPages : Nat) (state : BootMemory) : Except Panic BootMemory := do
  let (pa, state) ← scratchPageAlloc state
  let state := { state with mem := storeWord state.mem field (physToVirt pa) }
  furtherPagesAlloc (toInt32 bitmapPages - 1).toNat state

/-! ## The structures -/

/-- `sizeof(struct early_page_alloc_state)` and `sizeof(struct early_page_alloc_span)`. -/
def sizeofState : Nat := 48
def sizeofSpan : Nat := 56

def spanPtr (allocState index : Nat) : Nat := add64 allocState (sizeofState + sizeofSpan * index)

def spanStartPtr (span : Nat) : Nat := fieldPtr span 0
def spanNumPagesPtr (span : Nat) : Nat := fieldPtr span 1
def spanNumAllocatedPagesPtr (span : Nat) : Nat := fieldPtr span 2
def spanAllocBitmapPtr (span : Nat) : Nat := fieldPtr span 3
def spanEphemeralBitmapPtr (span : Nat) : Nat := fieldPtr span 4
def spanPagetableBitmapPtr (span : Nat) : Nat := fieldPtr span 5
def spanPhysblockBitmapPtr (span : Nat) : Nat := fieldPtr span 6

def stateTotalPagesPtr (allocState : Nat) : Nat := fieldPtr allocState 0
def stateNumSpansPtr (allocState : Nat) : Nat := fieldPtr allocState 5

def spanBitmapsInit (span numPages : Nat) (mem : Memory) : Memory :=
  let mem := bitmapInit (loadWord mem (spanAllocBitmapPtr span)) numPages mem
  let mem := bitmapInit (loadWord mem (spanEphemeralBitmapPtr span)) numPages mem
  let mem := bitmapInit (loadWord mem (spanPagetableBitmapPtr span)) numPages mem
  bitmapInit (loadWord mem (spanPhysblockBitmapPtr span)) numPages mem

/-- `alloc_span_bitmaps`. -/
def spanBitmapsAlloc (span : Nat) (state : BootMemory) : Except Panic (Nat × BootMemory) := do
  let numPages := loadWord state.mem (spanNumPagesPtr span)
  let bitmapBytes := Bitmap.calcSize numPages
  let bitmapPages := bytesToPages bitmapBytes
  let state ← bitmapAlloc (spanAllocBitmapPtr span) bitmapPages state
  let state ← bitmapAlloc (spanEphemeralBitmapPtr span) bitmapPages state
  let state ← bitmapAlloc (spanPagetableBitmapPtr span) bitmapPages state
  let state ← bitmapAlloc (spanPhysblockBitmapPtr span) bitmapPages state
  return (bitmapPages * 4, { state with mem := spanBitmapsInit span numPages state.mem })

def spansInitFrom (info : BootInfo) (allocState : Nat) : Nat → Nat → Nat → Nat → BootMemory →
    Except Panic (Nat × BootMemory)
  | 0, _, _, numScratchPages, state => return (numScratchPages, state)
  | remaining + 1, i, spanIndex, numScratchPages, state =>
      let entry := info.e820Entries i
      if entry.type ≠ e820TypeRam then
        spansInitFrom info allocState remaining (i + 1) spanIndex numScratchPages state
      else do
        let span := spanPtr allocState spanIndex
        let mem := storeWord state.mem (spanStartPtr span) entry.base
        let mem := storeWord mem (spanNumPagesPtr span) (entry.size >>> pageShift)
        let (count, state) ← spanBitmapsAlloc span { state with mem := mem }
        spansInitFrom info allocState remaining (i + 1) (spanIndex + 1)
          (add64 numScratchPages count) state

/-- The arguments of `alloc_init_pages`, and the state that it starts from. -/
structure MetadataInit where
  firstScratchPage : Nat
  numScratchPages : Nat
  allocState : Nat
  state : BootMemory

def metadataInit (info : BootInfo) (state : BootMemory) : Except Panic MetadataInit := do
  let (firstScratchPage, state) ← scratchPageAlloc state
  if !isAligned info.totalAvailRamBytes pageSize then
    throw ⟨"e820 entries not normalised to page size?", []⟩
  let allocState := physToVirt firstScratchPage
  let mem := storeWord state.mem (stateTotalPagesPtr allocState)
    (bytesToPages info.totalAvailRamBytes)
  let mem := storeWord mem (stateNumSpansPtr allocState) info.numRamSpans
  let (numScratchPages, state) ← spansInitFrom info allocState info.numE820Entries 0 0 1
    { state with mem := mem }
  return ⟨firstScratchPage, numScratchPages, allocState, state⟩

/-! ## What memory holds afterwards -/

/-- `struct early_page_alloc_span`, as it is read from memory. -/
structure SpanRecord where
  start : Nat
  numPages : Nat
  numAllocatedPages : Nat
  allocBitmap : Nat
  ephemeralBitmap : Nat
  pagetableBitmap : Nat
  physblockBitmap : Nat
deriving DecidableEq, Repr

def spanAt (mem : Memory) (span : Nat) : SpanRecord where
  start := loadWord mem (spanStartPtr span)
  numPages := loadWord mem (spanNumPagesPtr span)
  numAllocatedPages := loadWord mem (spanNumAllocatedPagesPtr span)
  allocBitmap := loadWord mem (spanAllocBitmapPtr span)
  ephemeralBitmap := loadWord mem (spanEphemeralBitmapPtr span)
  pagetableBitmap := loadWord mem (spanPagetableBitmapPtr span)
  physblockBitmap := loadWord mem (spanPhysblockBitmapPtr span)

def SpanRecord.bitmaps (span : SpanRecord) : List Nat :=
  [span.allocBitmap, span.ephemeralBitmap, span.pagetableBitmap, span.physblockBitmap]

end Zeptux.Early
