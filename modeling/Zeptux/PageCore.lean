import Zeptux.Common
import Zeptux.Lib.X86Paging

/-!
The page tables of `include/page.h` and `mm/page.c`: reading and writing entries, and
mapping ranges. Tables are read and written through the direct map, so an entry is a word
of physical memory.
-/

namespace Zeptux.Page

open Word X86Paging

def isBitSet (value bit : Nat) : Bool := isMaskSet value (2 ^ bit)

def bitMaskBelow (bit : Nat) : Nat := 2 ^ bit - 1
def bitMaskAbove (bit : Nat) : Nat := not64 (bitMaskBelow bit)

def pmdShift : Nat := 21
def pudShift : Nat := 30
def pgdShift : Nat := 39
def physAddrBits : Nat := 48
def pageMask : Nat := bitMaskBelow pageShift
def physAddrMask : Nat := bitMaskBelow physAddrBits

/-- `PAGE_TABLE_PHYS_ADDR_MASK` and its variants for 2 MiB and 1 GiB pages. -/
def pageTablePhysAddrMask (shift : Nat) : Nat := physAddrMask &&& bitMaskAbove shift

def pageFlagPresentBit : Nat := 0
def pageFlagPseBit : Nat := 7
def pageFlagPresent : Nat := 2 ^ pageFlagPresentBit
def pageFlagRw : Nat := 2 ^ 1
def pageFlagWriteThrough : Nat := 2 ^ 3
def pageFlagUncached : Nat := 2 ^ 4
def pageFlagPse : Nat := 2 ^ pageFlagPseBit
def pageFlagGlobal : Nat := 2 ^ 8
def pageFlagNx : Nat := 2 ^ 63
def pageFlagDefault : Nat := pageFlagPresent ||| pageFlagRw
def pageFlagKernel : Nat := pageFlagDefault ||| pageFlagGlobal

def numPageTableEntries : Nat := 512
def numPagesPtd : Nat := 512
def numPagesPmd : Nat := 512 * numPagesPtd

def mapFlagModeBits : Nat := 10
def mapKernel : Nat := 1
def mapKernelNoglobal : Nat := 2
def mapDevice : Nat := 3
def mapFlagModeMask : Nat := bitMaskBelow mapFlagModeBits
def mapCode : Nat := 2 ^ mapFlagModeBits
def mapReadonly : Nat := 2 ^ (mapFlagModeBits + 1)
def mapSkipIfMapped : Nat := 2 ^ (mapFlagModeBits + 2)

def mapFlagsToPageFlags (mapFlags : Nat) : Nat :=
  let mode := mapFlags &&& mapFlagModeMask
  let base :=
    if mode = mapKernel then some pageFlagKernel
    else if mode = mapKernelNoglobal then some pageFlagDefault
    else if mode = mapDevice then
      some (pageFlagDefault ||| pageFlagUncached ||| pageFlagWriteThrough)
    else none
  match base with
  | none => 0
  | some flags =>
      let flags := if !isMaskSet mapFlags mapCode then flags ||| pageFlagNx else flags
      if isMaskSet mapFlags mapReadonly then flags ^^^ pageFlagRw else flags

/-- `virt_ptde_index` and its siblings for the upper levels. -/
def virtIndex (shift va : Nat) : Nat := (va >>> shift) &&& bitMaskBelow 9

/-- `virt_offset_pages` and `phys_offset_pages`. -/
def offsetPages (address pages : Nat) : Nat :=
  (add64 (address >>> pageShift) pages <<< pageShift) % 2 ^ 64

def entryPresent (entry : Nat) : Bool := isBitSet entry pageFlagPresentBit

def entryPse (entry : Nat) : Bool := isBitSet entry pageFlagPseBit

/-- `pgde_pud`, `pude_pmd` and `pmde_ptd`. -/
def entryTable (entry : Nat) : Nat := entry &&& pageTablePhysAddrMask pageShift

/-- `ptde_data`, `pmde_data_2mib` and `pude_data_1gib`. -/
def entryData (shift entry : Nat) : Nat := entry &&& pageTablePhysAddrMask shift

/-- `assign_pud`, `assign_pmd` and `assign_ptd`. -/
def assignTable (mem : Memory) (table index lower : Nat) : Memory :=
  setEntry mem table index ((lower &&& not64 pageMask) ||| pageFlagDefault)

/-- `assign_data_1gib` and `assign_data_2mib`. -/
def assignHuge (shift : Nat) (mem : Memory) (table index pa flags : Nat) : Memory :=
  setEntry mem table index
    ((pa &&& not64 (bitMaskBelow shift)) ||| pageFlagPse ||| mapFlagsToPageFlags flags)

def assignData (mem : Memory) (table index pa flags : Nat) : Memory :=
  setEntry mem table index ((pa &&& not64 pageMask) ||| mapFlagsToPageFlags flags)

def zeroPage (mem : Memory) (pa : Nat) : Memory := fun word =>
  if pa ≤ word ∧ word < pa + pageSize then 0 else mem word

def virtNextPage (va : Nat) : Nat := offsetPages va 1

def physNextPage (pa : Nat) : Nat := offsetPages pa 1

def physPrevPage (pa : Nat) : Nat := (sub64 (physToPfn pa) 1 <<< pageShift) % 2 ^ 64

/-- How mapping stops. `exhausted` is an allocator that does not return. -/
inductive MapStop
  | panic (panic : Panic)
  | exhausted
  | outOfFuel
deriving DecidableEq, Repr

abbrev PageAllocator (σ : Type) := σ → Memory → Option (Nat × σ × Memory)

structure PageAllocators (σ : Type) where
  pud : PageAllocator σ
  pmd : PageAllocator σ
  ptd : PageAllocator σ

/-- `struct page_map_state`, with memory, the state of the allocators and the pages they
have handed out. -/
structure PageMapState (σ : Type) where
  va : Nat
  pa : Nat
  numRemainingPages : Int
  numPagetablesAllocated : Nat
  mem : Memory
  alloc : σ
  taken : List Nat

section

variable {σ : Type}

def PageMapState.advance (state : PageMapState σ) (pages : Nat) : PageMapState σ :=
  { state with
    pa := offsetPages state.pa pages
    va := offsetPages state.va pages
    numRemainingPages := state.numRemainingPages - pages }

@[simp] theorem PageMapState.advance_mem (state : PageMapState σ) (pages : Nat) :
    (state.advance pages).mem = state.mem := by rw [advance]

@[simp] theorem PageMapState.advance_alloc (state : PageMapState σ) (pages : Nat) :
    (state.advance pages).alloc = state.alloc := by rw [advance]

@[simp] theorem PageMapState.advance_taken (state : PageMapState σ) (pages : Nat) :
    (state.advance pages).taken = state.taken := by rw [advance]

@[simp] theorem PageMapState.advance_numPagetablesAllocated (state : PageMapState σ)
    (pages : Nat) : (state.advance pages).numPagetablesAllocated = state.numPagetablesAllocated := by
  rw [advance]

def PageMapState.allocate (allocator : PageAllocator σ) (state : PageMapState σ) :
    Except MapStop (Nat × PageMapState σ) :=
  match allocator state.alloc state.mem with
  | none => throw .exhausted
  | some (page, alloc, mem) =>
      return (page, { state with
        alloc := alloc
        mem := mem
        taken := state.taken ++ [page] })

/-- The table that an entry refers to, allocated and assigned if the entry is not present. -/
def PageMapState.lowerTable (allocator : PageAllocator σ) (table index : Nat)
    (state : PageMapState σ) : Except MapStop (Nat × PageMapState σ) :=
  let entry := entryAt state.mem table index
  if !entryPresent entry then do
    let (lower, state) ← state.allocate allocator
    return (lower, { state with
      numPagetablesAllocated := state.numPagetablesAllocated + 1
      mem := assignTable state.mem table index lower })
  else return (entryTable entry, state)

/-- The loop runs once for each slot from the first to at most the last. -/
def mapPageRangePtdFrom (flags ptd : Nat) : Nat → PageMapState σ →
    Except MapStop (PageMapState σ)
  | 0, _ => throw .outOfFuel
  | rounds + 1, state =>
      if state.numRemainingPages > 0 then do
        let index := virtIndex pageShift state.va
        let ptde := entryAt state.mem ptd index
        let mapped ←
          if entryPresent ptde then
            if isMaskSet flags mapSkipIfMapped then pure state
            else
              throw (.panic
                ⟨"Trying to map VA 0x%lx to PA 0x%lx but already mapped to 0x%lx",
                  [state.va, state.pa, entryData pageShift ptde]⟩)
          else pure { state with mem := assignData state.mem ptd index state.pa flags }
        let advanced := mapped.advance 1
        if index = numPageTableEntries - 1 then return advanced
        else mapPageRangePtdFrom flags ptd rounds advanced
      else return state

def mapPageRangePtd (flags ptd : Nat) (state : PageMapState σ) :
    Except MapStop (PageMapState σ) :=
  mapPageRangePtdFrom flags ptd (numPageTableEntries + 1) state

/-- What distinguishes the PMD from the PUD. -/
structure Directory (σ : Type) where
  shift : Nat
  numPages : Nat
  alloc : PageAllocator σ
  mapLower : Nat → PageMapState σ → Except MapStop (PageMapState σ)
  mappedText : String
  unassignedText : String

/-- `_map_page_range_pmd` and `_map_page_range_pud`. -/
def mapPageRangeDirectory (directory : Directory σ) (flags table : Nat) : Nat →
    PageMapState σ → Except MapStop (PageMapState σ)
  | 0, _ => throw .outOfFuel
  | rounds + 1, state =>
      if state.numRemainingPages > 0 then
        let index := virtIndex directory.shift state.va
        let entry := entryAt state.mem table index
        let present := entryPresent entry
        let next (state : PageMapState σ) : Except MapStop (PageMapState σ) :=
          if index = numPageTableEntries - 1 then return state
          else mapPageRangeDirectory directory flags table rounds state
        if !present && isAligned state.va (2 ^ directory.shift) &&
            isAligned state.pa (2 ^ directory.shift) &&
            decide (state.numRemainingPages ≥ directory.numPages) then
          let mem := assignHuge directory.shift state.mem table index state.pa flags
          next ({ state with mem := mem }.advance directory.numPages)
        else if present && entryPse entry then
          throw (.panic
            ⟨directory.mappedText, [state.va, state.pa, entryData directory.shift entry]⟩)
        else do
          let (lower, state) ← state.lowerTable directory.alloc table index
          let state ← directory.mapLower lower state
          if state.numRemainingPages ≤ 0 then return state
          else if !isAligned state.va (2 ^ directory.shift) then
            throw (.panic ⟨directory.unassignedText, [state.numRemainingPages, state.va]⟩)
          else next state
      else return state

variable (alloc : PageAllocators σ) (flags : Nat)

def pmdDirectory : Directory σ where
  shift := pmdShift
  numPages := numPagesPtd
  alloc := alloc.ptd
  mapLower := mapPageRangePtd flags
  mappedText := "Unable to map VA 0x%lx at PA 0x%lx as 2 MiB PMDE already maps to 0x%lx"
  unassignedText := "%lu pages unassigned under PMD for VA 0x%lx"

def mapPageRangePmd (pmd : Nat) (state : PageMapState σ) : Except MapStop (PageMapState σ) :=
  mapPageRangeDirectory (pmdDirectory alloc flags) flags pmd (numPageTableEntries + 1) state

def pudDirectory : Directory σ where
  shift := pudShift
  numPages := numPagesPmd
  alloc := alloc.pmd
  mapLower := mapPageRangePmd alloc flags
  mappedText := "Unable to map VA 0x%lx at PA 0x%lx as 1 GiB PUDE already maps to 0x%lx"
  unassignedText := "%lu pages unassigned under PUD for VA 0x%lx"

def mapPageRangePud (pud : Nat) (state : PageMapState σ) : Except MapStop (PageMapState σ) :=
  mapPageRangeDirectory (pudDirectory alloc flags) flags pud (numPageTableEntries + 1) state

/-- The loop over the PGD; every round maps at least one page. -/
def mapPageRangePgdFrom (pgd : Nat) : Nat → PageMapState σ → Except MapStop (PageMapState σ)
  | 0, _ => throw .outOfFuel
  | rounds + 1, state =>
      if state.numRemainingPages > 0 then do
        let index := virtIndex pgdShift state.va
        let (pud, state) ← state.lowerTable alloc.pud pgd index
        let state ← mapPageRangePud alloc flags pud state
        if state.numRemainingPages ≤ 0 then return state
        else if !isAligned state.va (2 ^ pgdShift) then
          throw (.panic ⟨"%lu pages unassigned under PGD for VA 0x%lx",
            [state.numRemainingPages, state.va]⟩)
        else mapPageRangePgdFrom pgd rounds state
      else return state

/-- `_map_page_range`: the number it returns is the `numPagetablesAllocated` of the result. -/
def mapPageRange (pgd startVa startPa : Nat) (numPages : Int) (mem : Memory) (allocState : σ) :
    Except MapStop (PageMapState σ) :=
  mapPageRangePgdFrom alloc flags pgd (numPages.toNat + 1)
    ⟨startVa, startPa, numPages, 0, mem, allocState, []⟩

end

/-! ## Walking -/

inductive PageLevel
  | pgd
  | pud
  | pmd
  | ptd
deriving DecidableEq, Repr

/-- The entry that points at the data page, and the level it was found at. -/
def walkToData (mem : Memory) (pgd va : Nat) : Except Panic (Nat × PageLevel) :=
  let pgde := entryAt mem pgd (virtIndex pgdShift va)
  if !entryPresent pgde then throw ⟨"0x%lx: PGDE not present", [va]⟩
  else
    let pude := entryAt mem (entryTable pgde) (virtIndex pudShift va)
    if !entryPresent pude then throw ⟨"0x%lx: PUDE not present", [va]⟩
    else if entryPse pude then return (pude, .pud)
    else
      let pmde := entryAt mem (entryTable pude) (virtIndex pmdShift va)
      if !entryPresent pmde then throw ⟨"0x%lx: PMDE not present", [va]⟩
      else if entryPse pmde then return (pmde, .pmd)
      else
        let ptde := entryAt mem (entryTable pmde) (virtIndex pageShift va)
        if !entryPresent ptde then throw ⟨"0x%lx: PTDE not present", [va]⟩
        else return (ptde, .ptd)

def pageTableFlagMask : Nat := bitMaskBelow pageShift ||| pageFlagNx

def walkVirtToPhys (mem : Memory) (pgd va : Nat) : Except Panic Nat := do
  let (raw, level) ← walkToData mem pgd va
  match level with
  | .pud => return entryData pudShift raw
  | .pmd => return entryData pmdShift raw
  | .ptd => return entryData pageShift raw
  | .pgd => throw ⟨"Bug in walk_to_data()", []⟩

end Zeptux.Page
