import Zeptux.E820Core
import Zeptux.EarlyCore

/-!
`early_page_alloc_init`: the spans of the early page allocator, with bitmaps in scratch
pages, and the pages that are in use since boot.
-/

namespace Zeptux.Early

open Page Word

def kernelDirectMapBase : Nat := 0xffff800000000000
def kernelElfAddressPhys : Nat := 0x1000000
def kernelElfAddress : Nat := 0xffffc00000000000 + kernelElfAddressPhys
def kernelStackAddressPhys : Nat := 0x80000
def kernelStackPages : Nat := 4
def earlyBootInfoAddress : Nat := kernelDirectMapBase + 0x6000
def earlyPgd : Nat := 0x1000
def earlyPudDirectMap : Nat := 0x3000
def earlyPudKernelElf : Nat := 0x4000
def earlyVideoBufferAddressPhys : Nat := 0x7000
def earlyVideoBufferAddress : Nat := kernelDirectMapBase + earlyVideoBufferAddressPhys
def earlyVideoMemoryAddressPhys : Nat := 0xb8000
def earlyVideoMemoryAddress : Nat := kernelDirectMapBase + earlyVideoMemoryAddressPhys
def earlyMaxScratchPages : Nat := 1024

def virtToPhys (va : Nat) : Nat :=
  let offset := if va > kernelElfAddress then kernelElfAddress else kernelDirectMapBase
  sub64 va offset

/-! ## The scratch allocator -/

structure ScratchAllocState where
  start : Nat
  pages : Nat
deriving DecidableEq, Repr

def earlyScratchAllocInit : ScratchAllocState :=
  ⟨sub64 kernelElfAddressPhys (earlyMaxScratchPages <<< pageShift), 0⟩

def earlyScratchPageAlloc (scratch : ScratchAllocState) :
    Except Panic (Nat × ScratchAllocState) :=
  if scratch.pages ≥ earlyMaxScratchPages then throw ⟨"Out of scratch memory!", []⟩
  else
    return (add64 scratch.start (pageSize * scratch.pages % 2 ^ 64),
      { scratch with pages := scratch.pages + 1 })

def scratchPagesAlloc : Nat → ScratchAllocState → Except Panic ScratchAllocState
  | 0, scratch => return scratch
  | remaining + 1, scratch => do
      let (_, scratch) ← earlyScratchPageAlloc scratch
      scratchPagesAlloc remaining scratch

/-! ## The spans -/

/-- The pages of one bitmap. The first call is made before the loop. -/
def bitmapPagesAlloc (bitmapPages : Nat) (scratch : ScratchAllocState) :
    Except Panic ScratchAllocState := do
  let (_, scratch) ← earlyScratchPageAlloc scratch
  scratchPagesAlloc (toInt32 bitmapPages - 1).toNat scratch

/-- The span, and the number of pages its bitmaps are said to take. Scratch pages are zeroed
when they are allocated. -/
def allocSpanBitmaps (start numPages : Nat) (scratch : ScratchAllocState) :
    Except Panic (PageAllocSpan × Nat × ScratchAllocState) := do
  let bitmapBytes := Bitmap.calcSize numPages
  let bitmapPages := bytesToPages bitmapBytes
  let scratch ← bitmapPagesAlloc bitmapPages scratch
  let scratch ← bitmapPagesAlloc bitmapPages scratch
  let scratch ← bitmapPagesAlloc bitmapPages scratch
  let scratch ← bitmapPagesAlloc bitmapPages scratch
  let bitmap := Bitmap.init ⟨0, 0, fun _ => 0⟩ numPages
  return (⟨start, numPages, 0, bitmap, bitmap, bitmap, bitmap⟩, bitmapPages * 4, scratch)

def initSpansFrom (info : BootInfo) : Nat → Nat → List PageAllocSpan → Nat → ScratchAllocState →
    Except Panic (List PageAllocSpan × Nat × ScratchAllocState)
  | 0, _, spans, numScratchPages, scratch => return (spans, numScratchPages, scratch)
  | remaining + 1, i, spans, numScratchPages, scratch =>
      let entry := info.e820Entries i
      if entry.type ≠ e820TypeRam then
        initSpansFrom info remaining (i + 1) spans numScratchPages scratch
      else do
        let (span, count, scratch) ←
          allocSpanBitmaps entry.base (entry.size >>> pageShift) scratch
        initSpansFrom info remaining (i + 1) (spans ++ [span]) (add64 numScratchPages count) scratch

/-! ## The pages in use -/

/-- Allocate page after page; `next` moves the address up or down. -/
def allocAtFrom (type : AllocType) (next : Nat → Nat) : Nat → Nat → PageAllocState →
    Except Panic PageAllocState
  | 0, _, state => return state
  | remaining + 1, pa, state => do
      let state ← allocAt state pa type
      allocAtFrom type next remaining (next pa) state

def allocInitPages (info : BootInfo) (firstScratchPage numScratchPages : Nat)
    (state : PageAllocState) : Except Panic PageAllocState := do
  let state ← allocAtFrom .ephemeral physNextPage (toInt32 numScratchPages).toNat
    firstScratchPage state
  let state ← allocAtFrom .normal physPrevPage kernelStackPages kernelStackAddressPhys state
  let state ← earlyPageAllocAt state (virtToPhys earlyBootInfoAddress)
  let elfPages := bytesToPages info.kernelElfSizeBytes
  let state ← allocAtFrom .normal physNextPage (toInt32 elfPages).toNat kernelElfAddressPhys state
  let state ← earlyPageAllocEphemeralAt state earlyPgd
  let state ← earlyPageAllocEphemeralAt state earlyPudDirectMap
  let state ← earlyPageAllocEphemeralAt state earlyPudKernelElf
  let state ← earlyPageAllocAt state earlyVideoBufferAddressPhys
  earlyPageAllocAt state (earlyVideoBufferAddressPhys + 0x1000)

/-- The array of spans is filled for every RAM entry, and `num_ram_spans` of them are used. -/
def earlyPageAllocInit (info : BootInfo) (scratch : ScratchAllocState) :
    Except Panic (PageAllocState × ScratchAllocState) := do
  let (firstScratchPage, scratch) ← earlyScratchPageAlloc scratch
  if !isAligned info.totalAvailRamBytes pageSize then
    throw ⟨"e820 entries not normalised to page size?", []⟩
  let (spans, numScratchPages, scratch) ← initSpansFrom info info.numE820Entries 0 [] 1 scratch
  let state : PageAllocState :=
    ⟨bytesToPages info.totalAvailRamBytes, 0, 0, 0, 0, spans.take info.numRamSpans⟩
  let state ← allocInitPages info firstScratchPage numScratchPages state
  return (state, scratch)

/-! ## Later allocations -/

inductive Call
  | pageAlloc
  | pageAllocEphemeral
  | pagetableAlloc
  | physblockPageAlloc
  | pagesAlloc (pages : Int)
deriving DecidableEq, Repr

def Call.perform : Call → EarlyState → Except Panic (Nat × EarlyState)
  | .pageAlloc, state => do
      let (pa, alloc) ← earlyPageAlloc state.alloc
      return (pa, { state with alloc := alloc })
  | .pageAllocEphemeral, state => do
      let (pa, alloc) ← earlyPageAllocEphemeral state.alloc
      return (pa, { state with alloc := alloc })
  | .pagetableAlloc, state => do
      let (pa, alloc, mem) ← earlyPagetableAlloc state.alloc state.mem
      return (pa, ⟨alloc, mem⟩)
  | .physblockPageAlloc, state => do
      let (pa, alloc, mem) ← earlyPhysblockPageAlloc state.alloc state.mem
      return (pa, ⟨alloc, mem⟩)
  | .pagesAlloc pages, state => do
      let (pa, alloc) ← earlyPagesAlloc state.alloc pages
      return (pa, { state with alloc := alloc })

def Call.numPages : Call → Nat
  | .pagesAlloc pages => pages.toNat
  | _ => 1

def returnedPages : List Call → EarlyState → List Nat
  | [], _ => []
  | call :: calls, state =>
      match call.perform state with
      | .error _ => []
      | .ok (pa, state) =>
          (List.range call.numPages).map (fun page => pa + pageSize * page) ++
            returnedPages calls state

end Zeptux.Early
