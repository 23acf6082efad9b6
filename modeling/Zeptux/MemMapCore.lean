import Zeptux.EarlyCore

/-!
The first pass of `early_init_mem_map`: pages for the array of physblocks at
`KERNEL_MEM_MAP_ADDRESS`, mapped for one span after the other.
-/

namespace Zeptux.Early

open Page Word X86Paging

def kernelMemMapAddress : Nat := 0xffffc00040000000

/-- `sizeof(struct physblock)`. -/
def sizeofPhysblock : Nat := 32

def pfnToPhysblockRaw (pfn : Nat) : Nat :=
  add64 kernelMemMapAddress (pfn * sizeofPhysblock % 2 ^ 64)

/-- The allocators of tables are all `early_pagetable_alloc`; its panic is an allocator that
does not return. -/
def earlyAllocators : PageAllocators PageAllocState :=
  let pagetable : PageAllocator PageAllocState := fun state mem =>
    (earlyPagetableAlloc state mem).toOption
  ⟨pagetable, pagetable, pagetable⟩

/-- The body of the loop of `alloc_map_physblock`. -/
def mapPhysblockPage (kernelRootPgd va : Nat) (state : EarlyState) :
    Except MapStop EarlyState :=
  match earlyPhysblockPageAlloc state.alloc state.mem with
  | .error _ => throw .exhausted
  | .ok (pa, alloc, mem) => do
      let mapped ← mapPageRange earlyAllocators mapKernel kernelRootPgd va pa 1 mem alloc
      return ⟨mapped.alloc, mapped.mem⟩

def allocMapPhysblockFrom (kernelRootPgd endVa : Nat) : Nat → Nat → EarlyState →
    Except MapStop EarlyState
  | 0, _, _ => throw .outOfFuel
  | rounds + 1, va, state =>
      if va < endVa then do
        let state ← mapPhysblockPage kernelRootPgd va state
        allocMapPhysblockFrom kernelRootPgd endVa rounds (virtNextPage va) state
      else return state

def allocMapPhysblock (kernelRootPgd start numPages : Nat) (state : EarlyState) :
    Except MapStop EarlyState :=
  let startOffset := physToPfn start * sizeofPhysblock % 2 ^ 64
  let startAddr := add64 kernelMemMapAddress startOffset
  let endAddr := add64 startAddr (numPages * sizeofPhysblock % 2 ^ 64)
  let startVa := align startAddr pageSize
  let endVa := alignUp endAddr pageSize
  allocMapPhysblockFrom kernelRootPgd endVa ((endVa - startVa) / pageSize + 1) startVa state

def mapSpansFrom (kernelRootPgd : Nat) : Nat → Nat → EarlyState → Except MapStop EarlyState
  | 0, _, state => return state
  | remaining + 1, index, state =>
      match state.alloc.spans[index]? with
      | none => return state
      | some span => do
          let state ← allocMapPhysblock kernelRootPgd span.start span.numPages state
          mapSpansFrom kernelRootPgd remaining (index + 1) state

def earlyInitMemMapFirst (kernelRootPgd : Nat) (state : EarlyState) :
    Except MapStop EarlyState :=
  mapSpansFrom kernelRootPgd state.alloc.spans.length 0 state

end Zeptux.Early
