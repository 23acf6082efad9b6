import Zeptux.BitmapCore
import Zeptux.PageCore

/-!
The early page allocator of `early/mem.c`: one bitmap of allocated pages per span of
RAM, and bitmaps that say what the allocated pages are for.
-/

namespace Zeptux.Early

open Page Word X86Paging

inductive AllocType
  | normal
  | ephemeral
  | pagetable
  | physblock
deriving DecidableEq, Repr

structure PageAllocSpan where
  start : Nat
  numPages : Nat
  numAllocatedPages : Nat
  allocBitmap : Bitmap
  ephemeralBitmap : Bitmap
  pagetableBitmap : Bitmap
  physblockBitmap : Bitmap

/-- `num_spans` is the length of `spans`. -/
structure PageAllocState where
  totalPages : Nat
  numAllocatedPages : Nat
  numEphemeralPages : Nat
  numPagetablePages : Nat
  numPhysblockPages : Nat
  spans : List PageAllocSpan

structure EarlyState where
  alloc : PageAllocState
  mem : Memory

/-- The loops over the spans stop at the first one that will do. -/
def firstSpan (found : PageAllocSpan → Bool) :
    Nat → List PageAllocSpan → Option (Nat × PageAllocSpan)
  | _, [] => none
  | index, span :: spans => if found span then some (index, span) else firstSpan found (index + 1) spans

def findSpan (state : PageAllocState) (pa : Nat) : Option (Nat × PageAllocSpan) :=
  firstSpan (fun span =>
    span.start ≤ pa && pa < add64 span.start (span.numPages * pageSize % 2 ^ 64)) 0 state.spans

def physToSpanOffset (span : PageAllocSpan) (pa : Nat) : Nat := sub64 pa span.start >>> pageShift

def spanOffsetToPa (span : PageAllocSpan) (offset : Nat) : Nat :=
  add64 span.start ((offset <<< pageShift) % 2 ^ 64)

def PageAllocSpan.mark (span : PageAllocSpan) (offset : Nat) (type : AllocType) : PageAllocSpan :=
  let span := { span with
    allocBitmap := span.allocBitmap.setBit offset
    numAllocatedPages := add64 span.numAllocatedPages 1 }
  match type with
  | .normal => span
  | .ephemeral => { span with ephemeralBitmap := span.ephemeralBitmap.setBit offset }
  | .pagetable => { span with pagetableBitmap := span.pagetableBitmap.setBit offset }
  | .physblock => { span with physblockBitmap := span.physblockBitmap.setBit offset }

def markPageAllocated (state : PageAllocState) (index offset : Nat) (type : AllocType) :
    PageAllocState :=
  let state := { state with
    spans := state.spans.modify index fun span => span.mark offset type
    numAllocatedPages := add64 state.numAllocatedPages 1 }
  match type with
  | .normal => state
  | .ephemeral => { state with numEphemeralPages := add64 state.numEphemeralPages 1 }
  | .pagetable => { state with numPagetablePages := add64 state.numPagetablePages 1 }
  | .physblock => { state with numPhysblockPages := add64 state.numPhysblockPages 1 }

def allocAt (state : PageAllocState) (pa : Nat) (type : AllocType) :
    Except Panic PageAllocState :=
  match findSpan state pa with
  | none => throw ⟨"Unable to locate span for %lx", [pa]⟩
  | some (index, span) =>
      let offset := physToSpanOffset span pa
      if span.allocBitmap.isSet offset then
        throw ⟨"Page containing %lx is already allocated?", [pa]⟩
      else return markPageAllocated state index offset type

def alloc (state : PageAllocState) (type : AllocType) : Except Panic (Nat × PageAllocState) :=
  match firstSpan (fun span => span.allocBitmap.firstClear != -1) 0 state.spans with
  | none =>
      throw ⟨"Out of memory, %lu pages of %lu allocated!",
        [state.numAllocatedPages, state.totalPages]⟩
  | some (index, span) =>
      let offset := toUint64 span.allocBitmap.firstClear
      return (spanOffsetToPa span offset, markPageAllocated state index offset type)

def earlyPageAllocEphemeralAt (state : PageAllocState) (pa : Nat) : Except Panic PageAllocState :=
  allocAt state pa .ephemeral

def earlyPageAllocAt (state : PageAllocState) (pa : Nat) : Except Panic PageAllocState :=
  allocAt state pa .normal

def earlyPageAlloc (state : PageAllocState) : Except Panic (Nat × PageAllocState) :=
  alloc state .normal

def earlyPageAllocEphemeral (state : PageAllocState) : Except Panic (Nat × PageAllocState) :=
  alloc state .ephemeral

def markPagesFrom (index : Nat) : Nat → Int → PageAllocState → PageAllocState
  | 0, _, state => state
  | remaining + 1, offset, state =>
      markPagesFrom index remaining (offset + 1)
        (markPageAllocated state index (toUint64 offset) .normal)

/-- `sizeof(uint64_t)`. -/
def maxPagesAlloc : Int := 8

def earlyPagesAlloc (state : PageAllocState) (pages : Int) :
    Except Panic (Nat × PageAllocState) :=
  if pages > maxPagesAlloc then
    throw ⟨"Can only allocate up to %d pages using the early allocator, attempting to allocate %d",
      [maxPagesAlloc, pages]⟩
  else
    match firstSpan (fun span => span.allocBitmap.zeroStringLongerThan pages != -1) 0
        state.spans with
    | none => throw ⟨"Unable to allocate %d physically contiguous pages", [pages]⟩
    | some (index, span) =>
        let offset := span.allocBitmap.zeroStringLongerThan pages
        return (spanOffsetToPa span (toUint64 offset), markPagesFrom index pages.toNat offset state)

def earlyPagetableAlloc (state : PageAllocState) (mem : Memory) :
    Except Panic (Nat × PageAllocState × Memory) := do
  let (pa, state) ← alloc state .pagetable
  return (pa, state, zeroPage mem pa)

def earlyPhysblockPageAlloc (state : PageAllocState) (mem : Memory) :
    Except Panic (Nat × PageAllocState × Memory) := do
  let (pa, state) ← alloc state .physblock
  return (pa, state, zeroPage mem pa)

def PageAllocSpan.unmark (span : PageAllocSpan) (offset : Nat) : PageAllocSpan :=
  let clear (bitmap : Bitmap) := if bitmap.isSet offset then bitmap.clearBit offset else bitmap
  { span with
    allocBitmap := span.allocBitmap.clearBit offset
    numAllocatedPages := sub64 span.numAllocatedPages 1
    ephemeralBitmap := clear span.ephemeralBitmap
    pagetableBitmap := clear span.pagetableBitmap
    physblockBitmap := clear span.physblockBitmap }

def earlyPageFree (state : PageAllocState) (pa : Nat) : Except Panic PageAllocState :=
  match findSpan state pa with
  | none => throw ⟨"Cannot find span for PA %lx", [pa]⟩
  | some (index, span) =>
      let offset := physToSpanOffset span pa
      let drop (bitmap : Bitmap) (count : Nat) :=
        if bitmap.isSet offset then sub64 count 1 else count
      if !span.allocBitmap.isSet offset then
        throw ⟨"Attempt to free unallocated PA %lx", [pa]⟩
      else
        return { state with
          spans := state.spans.modify index fun span => span.unmark offset
          numAllocatedPages := sub64 state.numAllocatedPages 1
          numEphemeralPages := drop span.ephemeralBitmap state.numEphemeralPages
          numPagetablePages := drop span.pagetableBitmap state.numPagetablePages
          numPhysblockPages := drop span.physblockBitmap state.numPhysblockPages }

end Zeptux.Early
