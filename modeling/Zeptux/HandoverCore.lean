import Zeptux.EarlyCore
import Zeptux.PhysCore

/-!
The handover from the early page allocator to the physical allocator:
`phys_alloc_init_state`, the second pass of `early_init_mem_map`, and
`phys_alloc_init`, in the order `early_mem_init` and the kernel call them.
-/

namespace Zeptux.Phys

open IntrusiveRing LockProgram Word

/-- Mapped physblock pages and the page of the allocator state are zeroed; the list
pointers of free list heads and physblocks are set by their initialisers. -/
def PhysState.zeroed (links : Links Node) : PhysState where
  physblocks := fun _ => ⟨0, 0, 0, 0⟩
  links := links
  stats := ⟨0, 0, 0, 0, fun _ => 0⟩
  spans := []

def PhysState.listNodeInit (state : PhysState) (node : Node) : PhysState :=
  { state with links := Zeptux.listNodeInit state.links node }

theorem PhysState.listNodeInit_eq (state : PhysState) (node : Node) :
    state.listNodeInit node = { state with links := state.links.isolate node } := rfl

def listInitFrom : Nat → Nat → PhysProgram Unit
  | 0, _ => return ()
  | remaining + 1, order => do
      .modify fun state => state.listNodeInit (.freeList order)
      listInitFrom remaining (order + 1)

def physAllocInitState (early : Early.PageAllocState) : PhysProgram Unit := do
  listInitFrom (maxOrder + 1) 0
  .modify fun state =>
    { state with
      spans := early.spans.map fun span => ⟨physToPfn span.start, span.numPages⟩ }

def spanToPhys (span : Early.PageAllocSpan) (index : Nat) : Nat :=
  add64 span.start (pageSize * index)

def initPhysblockSpanFrom (span : Early.PageAllocSpan) : Nat → Nat → PhysProgram Unit
  | 0, _ => return ()
  | remaining + 1, index => do
      let block ← pfnToPhysblockLock (physToPfn (spanToPhys span index))
      .modify fun state => state.listNodeInit (.physblock block)
      if span.allocBitmap.isSet index ∧ ¬span.ephemeralBitmap.isSet index then
        let type :=
          if span.pagetableBitmap.isSet index then physblockPagetable
          else if span.physblockBitmap.isSet index then physblockPhysblock
          else physblockKernel ||| physblockMovable
        .modify fun state => state.setPhysblock block fun block => { block with type := type }
        .modify fun state => state.setPhysblock block fun block => { block with refcount := 1 }
      .unlock (.physblock block)
      initPhysblockSpanFrom span remaining (index + 1)

def initPhysblockSpan (span : Early.PageAllocSpan) : PhysProgram Unit :=
  initPhysblockSpanFrom span span.numPages 0

def initPhysblockSpans : List Early.PageAllocSpan → PhysProgram Unit
  | [] => return ()
  | span :: spans => do
      initPhysblockSpan span
      initPhysblockSpans spans

def handover (early : Early.PageAllocState) : PhysProgram Unit := do
  physAllocInitState early
  initPhysblockSpans early.spans
  physAllocInit

end Zeptux.Phys
