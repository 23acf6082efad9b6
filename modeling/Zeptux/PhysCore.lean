import Zeptux.Common
import Zeptux.Lib.LockProgram
import Zeptux.ListCore

/-!
The physical page allocator of `mm/phys.c` and `include/mm.h`. A pointer into the
physblock array is the page frame number it stands for, and the lock word of each
physblock and of the allocator state is a lock of `LockProgram`. Retries, which
the source writes as recursion or as `continue`, spend fuel.
-/

namespace Zeptux.Phys

open LockProgram IntrusiveRing Word

def maxOrder : Nat := 12

def physblockUnmanaged : Nat := 0
def physblockFree : Nat := 1
def physblockTail : Nat := 2
def physblockPagetable : Nat := 3
def physblockPhysblock : Nat := 4
def physblockKernel : Nat := 5
def physblockUser : Nat := 6
def physblockTypeMask : Nat := 2 ^ 10 - 1
def physblockMovable : Nat := 2 ^ 10
def physblockPinned : Nat := 2 ^ 11

def allocKernel : Nat := 1
def allocUser : Nat := 2
def allocPagetable : Nat := 3
def allocPhysblock : Nat := 4
def allocTypeMask : Nat := 2 ^ 10 - 1
def allocMovable : Nat := 2 ^ 10
def allocPinned : Nat := 2 ^ 11

structure Physblock where
  headOffset : Nat
  order : Nat
  type : Nat
  refcount : Nat
deriving DecidableEq, Repr

structure PhysAllocStats where
  num4kPages : Nat
  numFree4kPages : Nat
  numPagetablePages : Nat
  numPhysblockPages : Nat
  order : Nat → Nat

structure PhysAllocSpan where
  startPfn : Nat
  numPages : Nat
deriving DecidableEq, Repr

/-- A `struct list_node`: the head of a free list, or the one inside a physblock. -/
inductive Node
  | freeList (order : Nat)
  | physblock (pfn : Nat)
deriving DecidableEq, Repr

inductive Lock
  | allocState
  | physblock (pfn : Nat)
deriving DecidableEq, Repr

/-- The physblock array together with `struct phys_alloc_state`, less their locks. -/
structure PhysState where
  physblocks : Nat → Physblock
  links : Links Node
  stats : PhysAllocStats
  spans : List PhysAllocSpan

namespace PhysState

def setPhysblock (state : PhysState) (pfn : Nat) (change : Physblock → Physblock) : PhysState :=
  { state with
    physblocks := Function.update state.physblocks pfn (change (state.physblocks pfn)) }

def setStats (state : PhysState) (change : PhysAllocStats → PhysAllocStats) : PhysState :=
  { state with stats := change state.stats }

def setOrderStats (state : PhysState) (order : Nat) (change : Nat → Nat) : PhysState :=
  state.setStats fun stats =>
    { stats with order := Function.update stats.order order (change (stats.order order)) }

def listDetach (state : PhysState) (pfn : Nat) : PhysState :=
  { state with links := Zeptux.listDetach state.links (.physblock pfn) }

def listPushBack (state : PhysState) (order pfn : Nat) : PhysState :=
  { state with links := Zeptux.listPushBack state.links (.freeList order) (.physblock pfn) }

def listEmpty (state : PhysState) (order : Nat) : Bool :=
  Zeptux.listEmpty state.links (.freeList order)

/-- `list_first_element`; the list head itself is not inside a physblock. -/
def listFirstElement (state : PhysState) (order : Nat) : Option Nat :=
  match state.links.next (.freeList order) with
  | .freeList _ => none
  | .physblock pfn => some pfn

theorem listDetach_eq (state : PhysState) (pfn : Nat) :
    state.listDetach pfn = { state with links := state.links.detach (.physblock pfn) } := rfl

theorem listPushBack_eq (state : PhysState) (order pfn : Nat) :
    state.listPushBack order pfn =
      { state with links := state.links.insertBefore (.freeList order) (.physblock pfn) } := rfl

theorem listEmpty_eq (state : PhysState) (order : Nat) :
    state.listEmpty order = decide (state.links.next (.freeList order) = .freeList order) := rfl

end PhysState

/-- Why a call does not return: it panics, follows a pointer that is no physblock,
or has retried more often than the fuel allows. -/
inductive Stop
  | panic (panic : Panic)
  | wildPointer
  | outOfFuel
deriving DecidableEq, Repr

abbrev PhysProgram := Program PhysState Lock Stop

def panic {α : Type} (fmt : String) (args : List Int) : PhysProgram α := .throw (.panic ⟨fmt, args⟩)

def pfnToBuddyPfn (pfn order : Nat) : Nat := pfn ^^^ 1 <<< order

def pfnToSpanLocked (spans : List PhysAllocSpan) (pfn : Nat) : Option Nat :=
  spans.findIdx? fun span => span.startPfn ≤ pfn && pfn < span.startPfn + span.numPages

def pfnToPhysblockRawLock (pfn : Nat) : PhysProgram Nat := do
  .lock (.physblock pfn)
  return pfn

/-- The offset is read into a `uint8_t`. -/
def physblockTailToHead (block pfn : Nat) : PhysProgram Nat := do
  let offset ← .gets fun state => (state.physblocks block).headOffset % 2 ^ 8
  .unlock (.physblock block)
  pfnToPhysblockRawLock (sub64 pfn offset)

def pfnToPhysblockLock (pfn : Nat) : PhysProgram Nat := do
  let block ← pfnToPhysblockRawLock pfn
  let headOffset ← .gets fun state => (state.physblocks block).headOffset
  if headOffset = 0 then return block else physblockTailToHead block pfn

def physblockToBuddyLock (block : Nat) : PhysProgram (Option Nat) := do
  let buddyPfn ← .gets fun state => pfnToBuddyPfn block (state.physblocks block).order
  let span ← .gets fun state => pfnToSpanLocked state.spans block
  let buddySpan ← .gets fun state => pfnToSpanLocked state.spans buddyPfn
  if span = none ∨ span ≠ buddySpan then
    return none
  else
    let buddy ← pfnToPhysblockLock buddyPfn
    return some buddy

/-- What `_set_tail_physblocks` writes into the record at distance `index`. -/
def markTail (index : Nat) (block : Physblock) : Physblock :=
  { block with type := physblockTail, headOffset := index, order := 0 }

def setTailPhysblocksFrom (start : Nat) : Nat → Nat → PhysProgram Unit
  | 0, _ => return ()
  | remaining + 1, index => do
      .modify fun state => state.setPhysblock (start + index) (markTail index)
      .unlock (.physblock (start + index))
      setTailPhysblocksFrom start remaining (index + 1)

def setTailPhysblocks (start order : Nat) : PhysProgram Unit :=
  let numBlocks := 1 <<< order % 2 ^ 16
  setTailPhysblocksFrom start (numBlocks - 1) 1

def joinPhysblocksLocked (head tail order : Nat) : PhysProgram Nat := do
  .modify fun state => state.setPhysblock head fun block => { block with order := order }
  .modify fun state => state.listDetach head
  .modify fun state => state.listDetach tail
  .modify fun state => state.listPushBack order head
  setTailPhysblocks head order
  .modify fun state => state.setOrderStats (order - 1) fun count => sub64 count 2
  .modify fun state => state.setOrderStats order fun count => add64 count 1
  return head

def compactFreeBlocksFrom : Nat → Nat → Nat → PhysProgram Nat
  | 0, _, block => return block
  | remaining + 1, order, block => do
      let found ← physblockToBuddyLock block
      match found with
      | none => return block
      | some buddy =>
          let other ← .gets fun state => state.physblocks buddy
          if other.type &&& physblockTypeMask ≠ physblockFree ∨ other.order ≠ order then
            .unlock (.physblock buddy)
            return block
          else if buddy < block then
            let joined ← joinPhysblocksLocked buddy block (order + 1)
            compactFreeBlocksFrom remaining (order + 1) joined
          else
            let joined ← joinPhysblocksLocked block buddy (order + 1)
            compactFreeBlocksFrom remaining (order + 1) joined

def compactFreeBlocksLocked (block : Nat) : PhysProgram Nat := do
  let order ← .gets fun state => (state.physblocks block).order
  compactFreeBlocksFrom (maxOrder - order) order block

/-- The `switch` over the type of a block that is being freed. -/
def countFreedType (type : Nat) (stats : PhysAllocStats) : PhysAllocStats :=
  if type = physblockPagetable then
    { stats with numPagetablePages := sub64 stats.numPagetablePages 1 }
  else if type = physblockPhysblock then
    { stats with numPhysblockPages := sub64 stats.numPhysblockPages 1 }
  else stats

/-- What `free_physblock_locked` does while it holds the allocator lock. -/
def freeAndCompact (block order : Nat) : PhysProgram Nat := do
  let type ← .gets fun state => (state.physblocks block).type &&& physblockTypeMask
  if type ≠ physblockFree then
    .modify fun state => state.setStats (countFreedType type)
    .modify fun state => state.setPhysblock block fun block =>
      { block with type := physblockFree }
    .modify fun state => state.listPushBack order block
    .modify fun state => state.setStats fun stats =>
      { stats with numFree4kPages := add64 stats.numFree4kPages (1 <<< order) }
    .modify fun state => state.setOrderStats order fun count => add64 count 1
  compactFreeBlocksLocked block

def freePhysblockLocked (block : Nat) : PhysProgram Unit := do
  let refcount ← .gets fun state => (state.physblocks block).refcount
  if refcount = 0 then
    .unlock (.physblock block)
  else if refcount > 1 then
    .modify fun state => state.setPhysblock block fun block =>
      { block with refcount := block.refcount - 1 }
    .unlock (.physblock block)
  else
    .modify fun state => state.setPhysblock block fun block => { block with refcount := 0 }
    let order ← .gets fun state => (state.physblocks block).order
    .lock .allocState
    let compacted ← freeAndCompact block order
    .unlock .allocState
    .unlock (.physblock compacted)

/-- What `phys_alloc_init_span` counts for a page that stays allocated. -/
def countPreservedType (type : Nat) (stats : PhysAllocStats) : PhysAllocStats :=
  if type = physblockPagetable then
    { stats with numPagetablePages := add64 stats.numPagetablePages 1 }
  else if type = physblockPhysblock then
    { stats with numPhysblockPages := add64 stats.numPhysblockPages 1 }
  else stats

def physAllocInitSpanFrom : Nat → Nat → PhysProgram Unit
  | 0, _ => return ()
  | remaining + 1, pfn => do
      let block ← pfnToPhysblockLock pfn
      let type ← .gets fun state => (state.physblocks block).type &&& physblockTypeMask
      if type = physblockUnmanaged then
        .modify fun state => state.setPhysblock block fun block => { block with refcount := 1 }
        freePhysblockLocked block
      else
        .modify fun state => state.setStats (countPreservedType type)
        .unlock (.physblock block)
      physAllocInitSpanFrom remaining (pfn + 1)

def physAllocInitSpan (span : PhysAllocSpan) : PhysProgram Unit := do
  .modify fun state => state.setStats fun stats =>
    { stats with num4kPages := add64 stats.num4kPages span.numPages }
  physAllocInitSpanFrom span.numPages span.startPfn

def physAllocInitFrom : List PhysAllocSpan → PhysProgram Unit
  | [] => return ()
  | span :: spans => do
      physAllocInitSpan span
      physAllocInitFrom spans

def physAllocInit : PhysProgram Unit := do
  let spans ← .gets fun state => state.spans
  physAllocInitFrom spans

def splitBlockLocked (block : Nat) : PhysProgram Unit := do
  let newOrder ← .gets fun state => ((state.physblocks block).order + (2 ^ 8 - 1)) % 2 ^ 8
  let buddy := pfnToBuddyPfn block newOrder
  .modify fun state => state.setPhysblock block fun block => { block with order := newOrder }
  .modify fun state => state.setPhysblock buddy fun block =>
    { block with order := newOrder, type := physblockFree, headOffset := 0 }
  setTailPhysblocks buddy newOrder
  .modify fun state => state.listDetach block
  .modify fun state => state.listPushBack newOrder block
  .modify fun state => state.listPushBack newOrder buddy
  .modify fun state => state.setOrderStats (newOrder + 1) fun count => sub64 count 1
  .modify fun state => state.setOrderStats newOrder fun count => add64 count 2
  .unlock (.physblock block)

/-- The first order above the target whose free list is not empty. -/
def firstNonEmptyFrom (state : PhysState) : Nat → Nat → Option Nat
  | 0, _ => none
  | remaining + 1, order =>
      if state.listEmpty order then firstNonEmptyFrom state remaining (order + 1) else some order

def splitBlocksFrom (targetOrder : Nat) : Nat → Nat → PhysProgram Unit
  | 0, _ => .throw .outOfFuel
  | fuel + 1, order =>
      if order < targetOrder + 1 then
        return ()
      else do
        let first ← .gets fun state => state.listFirstElement order
        match first with
        | none => .throw .wildPointer
        | some block =>
            .lock (.physblock block)
            let record ← .gets fun state => state.physblocks block
            if record.type ≠ physblockFree ∨ record.order ≠ order then
              .unlock (.physblock block)
              splitBlocksFrom targetOrder fuel order
            else
              splitBlockLocked block
              splitBlocksFrom targetOrder fuel (order - 1)

def splitHigherOrderBlocks (fuel targetOrder : Nat) : PhysProgram Unit := do
  let found ← .gets fun state =>
    firstNonEmptyFrom state (maxOrder - targetOrder) (targetOrder + 1)
  match found with
  | none =>
      panic "Out of memory (fragmentation), cannot split pages to obtain one of order %u"
        [targetOrder]
  | some order => splitBlocksFrom targetOrder fuel order

def physFreePfn (pfn : Nat) : PhysProgram Unit := do
  let block ← pfnToPhysblockLock pfn
  freePhysblockLocked block

def allocFlagsToPhysblockType (flags : Nat) : Except Panic Nat := do
  let type ←
    if flags &&& allocTypeMask = allocKernel then .ok physblockKernel
    else if flags &&& allocTypeMask = allocUser then .ok physblockUser
    else if flags &&& allocTypeMask = allocPagetable then .ok physblockPagetable
    else if flags &&& allocTypeMask = allocPhysblock then .ok physblockPhysblock
    else .error ⟨"Unrecognised alloc flag %d", [(flags &&& allocTypeMask : Nat)]⟩
  let type := if isMaskSet flags allocMovable then type ||| physblockMovable else type
  return if isMaskSet flags allocPinned then type ||| physblockPinned else type

/-- The final `switch` of `phys_alloc_block`. -/
def countAllocatedType (type : Nat) (stats : PhysAllocStats) : PhysAllocStats :=
  if type = allocPagetable then
    { stats with numPagetablePages := add64 stats.numPagetablePages 1 }
  else if type = allocPhysblock then
    { stats with numPhysblockPages := add64 stats.numPhysblockPages 1 }
  else stats

/-- The end of `phys_alloc_block` under the allocator lock; `none` is a block that
changed hands, after which the call starts again. -/
def takeFirstBlock (order flags : Nat) : PhysProgram (Option Nat) := do
  let first ← .gets fun state => state.listFirstElement order
  match first with
  | none => .throw .wildPointer
  | some block =>
      .lock (.physblock block)
      let record ← .gets fun state => state.physblocks block
      if record.type ≠ physblockFree ∨ record.order ≠ order then
        .unlock (.physblock block)
        return none
      else
        .modify fun state => state.listDetach block
        match allocFlagsToPhysblockType flags with
        | .error reason => .throw (.panic reason)
        | .ok type =>
            .modify fun state => state.setPhysblock block fun block =>
              { block with type := type, refcount := (block.refcount + 1) % 2 ^ 32 }
            .modify fun state => state.setStats fun stats =>
              { stats with numFree4kPages := sub64 stats.numFree4kPages (1 <<< order) }
            .modify fun state => state.setOrderStats order fun count => sub64 count 1
            .modify fun state => state.setStats (countAllocatedType (flags &&& allocTypeMask))
            .unlock (.physblock block)
            return some block

/-- All that `phys_alloc_block` does under the allocator lock. -/
def splitAndTakeBlock (fuel order flags : Nat) : PhysProgram (Option Nat) := do
  let num4kPages := 1 <<< order
  let available ← .gets fun state => state.stats.numFree4kPages
  if available < num4kPages then
    panic "Out of memory: %lu pages requested, %lu available (order %u)"
      [num4kPages, available, order]
  let empty ← .gets fun state => state.listEmpty order
  if empty then
    splitHigherOrderBlocks fuel order
  takeFirstBlock order flags

def physAllocBlock : Nat → Nat → Nat → PhysProgram Nat
  | 0, _, _ => .throw .outOfFuel
  | fuel + 1, order, flags => do
      if order > maxOrder then
        panic "Invalid order %u, maximum is %u" [order, maxOrder]
      .lock .allocState
      let found ← splitAndTakeBlock (fuel + 1) order flags
      .unlock .allocState
      match found with
      | none => physAllocBlock fuel order flags
      | some block => return block

end Zeptux.Phys
