import Zeptux.Common

/-!
The boot information and the passes of `early/mem.c` over its e820 entries, with the
ranges of `include/range.h`. The flexible array `e820_entries` is a function from index
to entry, and the passes work on it in place.
-/

namespace Zeptux

open Word

structure RangePair where
  lower : Nat
  upper : Nat

inductive RangeInteract
  | separate
  | adjacent
  | overlap
  | coincide
deriving DecidableEq, Repr

def rangeWithin (range : RangePair) (n : Nat) : Bool := n ≥ range.lower && n ≤ range.upper

def rangeCompare (a b : RangePair) : RangeInteract :=
  let aFrom := rangeWithin b a.lower
  let aTo := rangeWithin b a.upper
  let bFrom := rangeWithin a b.lower
  let bTo := rangeWithin a b.upper
  if (aFrom && aTo) || (bFrom && bTo) then .coincide
  else if bFrom || bTo then .overlap
  else if add64 a.upper 1 == b.lower || add64 b.upper 1 == a.lower then .adjacent
  else .separate

namespace Early

structure E820Entry where
  base : Nat
  size : Nat
  type : Nat
deriving DecidableEq, Repr

def e820TypeRam : Nat := 1
def e820TypeReserved : Nat := 2

/-- `(PAGE_SIZE - sizeof(struct early_page_alloc_state)) / sizeof(struct early_page_alloc_span)`. -/
def maxE820RamEntries : Nat := (pageSize - 48) / 56

structure BootInfo where
  totalAvailRamBytes : Nat
  numRamSpans : Nat
  kernelElfSizeBytes : Nat
  numE820Entries : Nat
  e820Entries : Nat → E820Entry

def less (a b : E820Entry) : Bool := a.base < b.base || (a.base == b.base && a.size < b.size)

/-- Move the entry at `index + 1` to `index`, then the next one, and so on. -/
def shiftDownFrom : Nat → Nat → (Nat → E820Entry) → Nat → E820Entry
  | 0, _, entries => entries
  | remaining + 1, index, entries =>
      shiftDownFrom remaining (index + 1) (Function.update entries index (entries (index + 1)))

def deleteE820Entry (info : BootInfo) (index : Nat) : Except Panic BootInfo :=
  if info.numE820Entries = 0 then throw ⟨"0 e820 entries?", []⟩
  else
    return { info with
      e820Entries := shiftDownFrom (info.numE820Entries - 1 - index) index info.e820Entries
      numE820Entries := info.numE820Entries - 1 }

/-- The inner loop of the insertion sort; the first argument is `j + 1`. -/
def insertKey (key : E820Entry) : Nat → (Nat → E820Entry) → Nat → E820Entry
  | 0, entries => Function.update entries 0 key
  | j + 1, entries =>
      if less (entries j) key then Function.update entries (j + 1) key
      else insertKey key j (Function.update entries (j + 1) (entries j))

def sortFrom : Nat → Nat → (Nat → E820Entry) → Nat → E820Entry
  | 0, _, entries => entries
  | remaining + 1, i, entries => sortFrom remaining (i + 1) (insertKey (entries i) i entries)

def earlySortE820 (info : BootInfo) : BootInfo :=
  { info with e820Entries := sortFrom (info.numE820Entries - 1) 1 info.e820Entries }

def E820Entry.range (entry : E820Entry) : RangePair :=
  ⟨entry.base, sub64 (add64 entry.base entry.size) 1⟩

/-- The write index after the pass, and the entries. -/
def mergeFrom : Nat → Nat → Nat → (Nat → E820Entry) → Nat × (Nat → E820Entry)
  | 0, _, currIndex, entries => (currIndex, entries)
  | remaining + 1, i, currIndex, entries =>
      let curr := entries currIndex
      let entry := entries i
      let keep :=
        let entries :=
          if currIndex + 1 ≠ i then Function.update entries (currIndex + 1) entry else entries
        mergeFrom remaining (i + 1) (currIndex + 1) entries
      if entry.type ≠ curr.type then keep
      else
        match rangeCompare curr.range entry.range with
        | .separate => keep
        | .adjacent | .overlap =>
            let size := add64 curr.size (sub64 entry.range.upper curr.range.upper)
            mergeFrom remaining (i + 1) currIndex
              (Function.update entries currIndex { curr with size := size })
        | .coincide => mergeFrom remaining (i + 1) currIndex entries

def earlyMergeE820 (info : BootInfo) : BootInfo :=
  let merged := mergeFrom (info.numE820Entries - 1) 1 0 info.e820Entries
  { info with numE820Entries := merged.1 + 1, e820Entries := merged.2 }

/-- What becomes of one entry; `none` is an entry to be deleted. -/
def normaliseEntry (entry : E820Entry) : Option E820Entry :=
  if entry.type ≠ e820TypeRam then some entry
  else
    let start := entry.base
    let finish := add64 entry.base entry.size
    if isAligned start pageSize && isAligned finish pageSize then some entry
    else
      let start := alignUp start pageSize
      let finish := align finish pageSize
      if start < finish then some { entry with base := start, size := finish - start }
      else none

def normaliseFrom : Nat → Nat → BootInfo → Except Panic BootInfo
  | 0, _, info => return info
  | remaining + 1, i, info =>
      match normaliseEntry (info.e820Entries i) with
      | some entry =>
          normaliseFrom remaining (i + 1)
            { info with e820Entries := Function.update info.e820Entries i entry }
      | none => do
          let info ← deleteE820Entry info i
          normaliseFrom remaining i info

def earlyNormaliseE820 (info : BootInfo) : Except Panic BootInfo :=
  normaliseFrom info.numE820Entries 0 info

def countRamFrom (info : BootInfo) : Nat → Nat → Nat → Nat → Nat × Nat
  | 0, _, bytes, numRamEntries => (bytes, numRamEntries)
  | remaining + 1, i, bytes, numRamEntries =>
      let entry := info.e820Entries i
      if entry.type ≠ e820TypeRam then countRamFrom info remaining (i + 1) bytes numRamEntries
      else
        countRamFrom info remaining (i + 1) (add64 bytes entry.size) (add64 numRamEntries 1)

def earlySetTotalRam (info : BootInfo) : Except Panic BootInfo :=
  let (bytes, numRamEntries) := countRamFrom info info.numE820Entries 0 0 0
  if numRamEntries > maxE820RamEntries then
    throw ⟨"There are %lu E820 RAM entries present, maximum permitted is %lu",
      [numRamEntries, maxE820RamEntries]⟩
  else
    return { info with totalAvailRamBytes := bytes, numRamSpans := numRamEntries }

end Early

end Zeptux
