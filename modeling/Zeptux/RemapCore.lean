import Zeptux.MemMapCore
import Zeptux.VideoCore

/-!
`early_remap_page_tables`: the direct map of RAM, the kernel ELF, the video memory and the
APIC registers, mapped in a new PGD. The ELF header and its section headers are read once;
the PGD that is in force meanwhile is `cr3`.
-/

namespace Zeptux.Early

open Page Word X86Paging

def physToVirt (pa : Nat) : Nat := add64 kernelDirectMapBase pa

section

variable {σ : Type} (alloc : PageAllocators σ) (pgd : Nat)

/-- `_map_page_range`, for callers that do not look at the number of tables. -/
def mapRange (flags va pa : Nat) (numPages : Int) (state : σ × Memory) :
    Except MapStop (σ × Memory) := do
  let mapped ← mapPageRange alloc flags pgd va pa numPages state.2 state.1
  return (mapped.alloc, mapped.mem)

def earlyMapDirectFrom (info : BootInfo) : Nat → Nat → σ × Memory → Except MapStop (σ × Memory)
  | 0, _, state => return state
  | remaining + 1, i, state =>
      let entry := info.e820Entries i
      if entry.type ≠ e820TypeRam then earlyMapDirectFrom info remaining (i + 1) state
      else do
        let numPages := bytesToPages entry.size
        let state ← mapRange alloc pgd mapKernel (physToVirt entry.base) entry.base numPages state
        earlyMapDirectFrom info remaining (i + 1) state

/-- The table allocators are a parameter; the callers pass `earlyAllocators`. -/
def earlyMapDirect (info : BootInfo) (state : σ × Memory) : Except MapStop (σ × Memory) :=
  earlyMapDirectFrom alloc pgd info info.numE820Entries 0 state

end

/-! ## The kernel ELF -/

/-- The fields of `struct elf_section_header` that are read. -/
structure ElfSectionHeader where
  type : Nat
  flags : Nat
  addr : Nat
  offset : Nat
  size : Nat
deriving DecidableEq, Repr

def elfShfWrite : Nat := 2 ^ 0
def elfShfExecinstr : Nat := 2 ^ 2

/-- The fields of `struct elf_header` that are read, with the section headers at `shoff`. -/
structure ElfHeader where
  shoff : Nat
  shnum : Nat
  sections : Nat → ElfSectionHeader

/-- The memory that `memcpy` leaves when it fills pages with what `cr3` shows at `va`. The
walk is that of the processor; nothing is copied where it faults. -/
def copyPages (cr3 pa va numPages : Nat) (mem : Memory) : Memory := fun word =>
  if pa ≤ word ∧ word < pa + pageSize * numPages then
    match walk mem cr3 (va + (word - pa)) with
    | some leaf => mem leaf.pa
    | none => mem word
  else mem word

def sectionMapFlags (sectHeader : ElfSectionHeader) : Nat :=
  let flags := mapKernel
  let flags := if !isMaskSet sectHeader.flags elfShfWrite then flags ||| mapReadonly else flags
  if isMaskSet sectHeader.flags elfShfExecinstr then flags ||| mapCode else flags

/-- Where the section's pages are. Those of a section such as `.bss`, which has none, are
allocated. -/
def sectionFrames (cr3 elfPa : Nat) (sectHeader : ElfSectionHeader)
    (state : PageAllocState × Memory) : Except MapStop (Nat × PageAllocState × Memory) :=
  if sectHeader.type = elfShtNobits then
    let numPages := bytesToPages sectHeader.size
    match earlyPagesAlloc state.1 (toInt32 numPages) with
    | .error panic => throw (.panic panic)
    | .ok (pa, alloc) => return (pa, alloc, copyPages cr3 pa sectHeader.addr numPages state.2)
  else return (add64 elfPa sectHeader.offset, state)

def mapSection (cr3 elfPa pgd i : Nat) (sectHeader : ElfSectionHeader)
    (state : PageAllocState × Memory) : Except MapStop (PageAllocState × Memory) := do
  let va := sectHeader.addr
  let (pa, state) ← sectionFrames cr3 elfPa sectHeader state
  if !isAligned va pageSize || !isAligned pa pageSize then
    throw (.panic ⟨"Misaligned kernel ELF section (%d) by %lu, VA=0x%lx, PA=0x%lx",
      [i, va % pageSize, va, pa]⟩)
  mapRange earlyAllocators pgd (sectionMapFlags sectHeader) va pa (bytesToPages sectHeader.size)
    state

def mapSectionsFrom (cr3 elfPa pgd : Nat) (header : ElfHeader) : Nat → Nat →
    PageAllocState × Memory → Except MapStop (PageAllocState × Memory)
  | 0, _, state => return state
  | remaining + 1, i, state =>
      let sectHeader := header.sections i
      if sectHeader.addr = 0 then mapSectionsFrom cr3 elfPa pgd header remaining (i + 1) state
      else do
        let state ← mapSection cr3 elfPa pgd i sectHeader state
        mapSectionsFrom cr3 elfPa pgd header remaining (i + 1) state

def mapHeaderFlags : Nat := mapKernel ||| mapReadonly ||| mapSkipIfMapped

/-- The header is at `headerVa`. -/
def earlyMapKernelElf (cr3 headerVa : Nat) (header : ElfHeader) (elfPa pgd : Nat)
    (state : PageAllocState × Memory) : Except MapStop (PageAllocState × Memory) := do
  if !isAligned headerVa pageSize then
    throw (.panic ⟨"Misaligned kernel ELF header by %lu", [headerVa % pageSize]⟩)
  let state ← mapSectionsFrom cr3 elfPa pgd header header.shnum 0 state
  let state ← mapRange earlyAllocators pgd mapHeaderFlags headerVa elfPa 1 state
  mapRange earlyAllocators pgd mapHeaderFlags (add64 headerVa header.shoff)
    (add64 elfPa header.shoff) 2 state

/-! ## Devices -/

def apicBaseAddress : Nat := 0xffffc10040000000
def apicIoBaseAddress : Nat := 0xffffc10040001000
def ioApicAddressPhys : Nat := 0xfec00000

def earlyMapVideoRange (pgd : Nat) (state : PageAllocState × Memory) :
    Except MapStop (PageAllocState × Memory) :=
  mapRange earlyAllocators pgd mapDevice earlyVideoMemoryAddress earlyVideoMemoryAddressPhys
    (bytesToPages Video.earlyVideoSize) state

/-- `apicBase` is the field `apic_base` of the boot information. -/
def earlyMapApicBase (apicBase pgd : Nat) (state : PageAllocState × Memory) :
    Except MapStop (PageAllocState × Memory) := do
  let state ← mapRange earlyAllocators pgd mapDevice apicBaseAddress apicBase 1 state
  mapRange earlyAllocators pgd mapDevice apicIoBaseAddress ioApicAddressPhys 1 state

/-- The new PGD and what it was built in. A panic of `early_alloc_pgd` is an allocator that
does not return. -/
def earlyRemapPageTables (cr3 : Nat) (info : BootInfo) (header : ElfHeader) (apicBase : Nat)
    (state : PageAllocState × Memory) : Except MapStop (Nat × PageAllocState × Memory) :=
  match earlyPagetableAlloc state.1 state.2 with
  | .error _ => throw .exhausted
  | .ok (pgd, state) => do
      let state ← earlyMapDirect earlyAllocators pgd info state
      let state ← earlyMapKernelElf cr3 kernelElfAddress header kernelElfAddressPhys pgd state
      let state ← earlyMapVideoRange pgd state
      let state ← earlyMapApicBase apicBase pgd state
      return (pgd, state)

end Zeptux.Early
