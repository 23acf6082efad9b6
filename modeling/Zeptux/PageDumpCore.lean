import Zeptux.PageCore

/-!
`dump_mapped_pages` of `mm/page.c`: the walk over every entry of the page tables that prints
the mapped ranges. What `printf` receives is kept, not the text that it makes of it.
-/

namespace Zeptux.Page

open Word X86Paging

def pageFlagUser : Nat := 2 ^ 2
def pageFlagAccessed : Nat := 2 ^ 5
def pageFlagDirty : Nat := 2 ^ 6

def pageSize2mib : Nat := 2 ^ pmdShift
def pageSize1gib : Nat := 2 ^ pudShift

def bitMaskExcluding (bit : Nat) : Nat := not64 (2 ^ bit)

/-- `ptde_raw_flags`, `pmde_raw_flags_2mib` and `pude_raw_flags_1gib`. -/
def entryRawFlags (entry : Nat) : Nat := entry &&& pageTableFlagMask

def encodeVirt (pgdeInd pudeInd pmdeInd ptdeInd offset : Nat) : Nat :=
  let va := ((pgdeInd <<< pgdShift) % 2 ^ 64) ||| ((pudeInd <<< pudShift) % 2 ^ 64) |||
    ((pmdeInd <<< pmdShift) % 2 ^ 64) ||| ((ptdeInd <<< pageShift) % 2 ^ 64) ||| offset
  if isBitSet va (physAddrBits - 1) then va ||| bitMaskAbove physAddrBits else va

/-- A line of the dump: the addresses, the number of bytes, and the flags with the words
that are printed for them. -/
structure DumpedRange where
  start : Nat
  stop : Nat
  bytes : Nat
  rawFlags : Nat
  words : List String
deriving DecidableEq, Repr

/-- `struct page_dump_state`, with the lines printed so far. -/
structure PageDumpState where
  inRange : Bool
  maskHugeFlag : Bool
  start : Nat
  stop : Nat
  rawFlags : Nat
  pgdIndex : Nat
  pudIndex : Nat
  pmdIndex : Nat
  numPages4kib : Nat
  numPages2mib : Nat
  numPages1gib : Nat
  printed : List DumpedRange

def dumpFlags (flags : Nat) : List String :=
  let wordIf (mask : Nat) (word : String) := if isMaskSet flags mask then [word] else []
  (if isMaskSet flags pageFlagRw then ["RW "] else ["RO "]) ++
    wordIf pageFlagUser "Us " ++ wordIf pageFlagWriteThrough "Wt " ++
    wordIf pageFlagUncached "Uc " ++ wordIf pageFlagAccessed "Ax " ++
    wordIf pageFlagDirty "Dt " ++ wordIf pageFlagPse "Hg " ++ wordIf pageFlagGlobal "Gl " ++
    (if !isMaskSet flags pageFlagNx then ["EX "] else [])

def maybeDumpRange (state : PageDumpState) : PageDumpState :=
  if !state.inRange then state
  else
    let mask := bitMaskAbove physAddrBits
    let high := isBitSet state.start (physAddrBits - 1)
    let start := if high then state.start ||| mask else state.start
    let stop := if high then state.stop ||| mask else state.stop
    { state with
      inRange := false
      printed := state.printed ++
        [⟨start, stop, sub64 stop start, state.rawFlags, dumpFlags state.rawFlags⟩]
      start := 0
      stop := 0
      rawFlags := 0 }

def rangeFlags (maskHugeFlag : Bool) (flags : Nat) : Nat :=
  if maskHugeFlag then flags &&& bitMaskExcluding pageFlagPseBit else flags

def extendDumpRange (state : PageDumpState) (start stop flags : Nat) : PageDumpState :=
  let prevFlags := rangeFlags state.maskHugeFlag state.rawFlags
  let rawFlags := rangeFlags state.maskHugeFlag flags
  let state :=
    if state.inRange && rawFlags != prevFlags then { maybeDumpRange state with inRange := false }
    else state
  if !state.inRange then
    { state with start := start, stop := stop, rawFlags := rawFlags, inRange := true }
  else { state with stop := stop }

def dumpPtde (mem : Memory) (ptd : Nat) (state : PageDumpState) (i : Nat) : PageDumpState :=
  let ptde := entryAt mem ptd i
  if !entryPresent ptde then maybeDumpRange state
  else
    let start := encodeVirt state.pgdIndex state.pudIndex state.pmdIndex i 0
    let state := extendDumpRange state start (add64 start pageSize) (entryRawFlags ptde)
    { state with numPages4kib := state.numPages4kib + 1 }

def dumpMappedPagesPtd (mem : Memory) (ptd : Nat) (state : PageDumpState) : PageDumpState :=
  (List.range numPageTableEntries).foldl (dumpPtde mem ptd) state

/-- What distinguishes the PMD from the PUD. -/
structure DumpDirectory where
  select : Nat → PageDumpState → PageDumpState
  virt : PageDumpState → Nat
  size : Nat
  count : PageDumpState → PageDumpState
  dumpLower : Nat → PageDumpState → PageDumpState

def dumpDirectoryEntry (directory : DumpDirectory) (mem : Memory) (table : Nat)
    (state : PageDumpState) (i : Nat) : PageDumpState :=
  let state := directory.select i state
  let entry := entryAt mem table i
  if !entryPresent entry then maybeDumpRange state
  else if entryPse entry then
    let start := directory.virt state
    directory.count
      (extendDumpRange state start (add64 start directory.size) (entryRawFlags entry))
  else directory.dumpLower (entryTable entry) state

/-- `dump_mapped_pages_pmd` and `dump_mapped_pages_pud`. -/
def dumpMappedPagesDirectory (directory : DumpDirectory) (mem : Memory) (table : Nat)
    (state : PageDumpState) : PageDumpState :=
  (List.range numPageTableEntries).foldl (dumpDirectoryEntry directory mem table) state

def pmdDump (mem : Memory) : DumpDirectory where
  select := fun i state => { state with pmdIndex := i }
  virt := fun state => encodeVirt state.pgdIndex state.pudIndex state.pmdIndex 0 0
  size := pageSize2mib
  count := fun state => { state with numPages2mib := state.numPages2mib + 1 }
  dumpLower := dumpMappedPagesPtd mem

def dumpMappedPagesPmd (mem : Memory) (pmd : Nat) (state : PageDumpState) : PageDumpState :=
  dumpMappedPagesDirectory (pmdDump mem) mem pmd state

def pudDump (mem : Memory) : DumpDirectory where
  select := fun i state => { state with pudIndex := i }
  virt := fun state => encodeVirt state.pgdIndex state.pudIndex 0 0 0
  size := pageSize1gib
  count := fun state => { state with numPages1gib := state.numPages1gib + 1 }
  dumpLower := dumpMappedPagesPmd mem

def dumpMappedPagesPud (mem : Memory) (pud : Nat) (state : PageDumpState) : PageDumpState :=
  dumpMappedPagesDirectory (pudDump mem) mem pud state

def dumpPgde (mem : Memory) (pgd : Nat) (state : PageDumpState) (i : Nat) : PageDumpState :=
  let state := { state with pgdIndex := i }
  let pgde := entryAt mem pgd i
  if !entryPresent pgde then maybeDumpRange state
  else dumpMappedPagesPud mem (entryTable pgde) state

structure PageDump where
  ranges : List DumpedRange
  numPages4kib : Nat
  numPages2mib : Nat
  numPages1gib : Nat
  totalBytes : Nat

def dumpMappedPages (mem : Memory) (pgd : Nat) (maskHugeFlag : Bool) : PageDump :=
  let state : PageDumpState := ⟨false, maskHugeFlag, 0, 0, 0, 0, 0, 0, 0, 0, 0, []⟩
  let state := (List.range numPageTableEntries).foldl (dumpPgde mem pgd) state
  let state := maybeDumpRange state
  let totalBytes := add64 0 (state.numPages4kib * pageSize % 2 ^ 64)
  let totalBytes := add64 totalBytes (state.numPages2mib * pageSize2mib % 2 ^ 64)
  let totalBytes := add64 totalBytes (state.numPages1gib * pageSize1gib % 2 ^ 64)
  ⟨state.printed, state.numPages4kib, state.numPages2mib, state.numPages1gib, totalBytes⟩

end Zeptux.Page
