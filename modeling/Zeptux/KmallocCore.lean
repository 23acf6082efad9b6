import Zeptux.PhysCore
import Zeptux.RemapCore

/-!
The kernel allocator of `mm/kmalloc.c`. The bytes that `memset` writes are passed along
beside the state of the page allocator, as a function of the virtual address.
-/

namespace Zeptux.Kmalloc

open Phys Early LockProgram Word

def kmallocKernel : Nat := 1
def kmallocTypeMask : Nat := 2 ^ 10 - 1

abbrev Bytes := Nat → Nat

def physAlloc (fuel order flags : Nat) : PhysProgram Nat := do
  let block ← physAllocBlock fuel order flags
  return block <<< pageShift % 2 ^ 64

def physFree (pa : Nat) : PhysProgram Unit := physFreePfn (physToPfn pa)

def firstOrderFrom (pages : Nat) : Nat → Nat → Except Panic Nat
  | 0, _ => .error ⟨"Impossible?", []⟩
  | remaining + 1, order =>
      if 1 <<< order ≥ pages then .ok order else firstOrderFrom pages remaining (order + 1)

def exceedsMaximum (pages : Nat) : Panic :=
  ⟨"Cannot allocate %lu bytes, exceeds maximum of %lu",
    [(pageSize * pages % 2 ^ 64 : Nat), (pageSize * (1 <<< maxOrder) % 2 ^ 64 : Nat)]⟩

def bytesToOrder (bytes : Nat) : Except Panic Nat :=
  let pages := bytesToPages bytes
  let maxPages := 1 <<< maxOrder
  if pages > maxPages then .error (exceedsMaximum pages) else firstOrderFrom pages maxOrder 0

/-- `_kmalloc`. -/
def kmallocOrder (fuel order flags : Nat) : PhysProgram Nat :=
  if flags &&& kmallocTypeMask = kmallocKernel then do
    let pa ← physAlloc fuel order (allocKernel ||| allocMovable)
    return physToVirt pa
  else panic "Unrecognised kernel flag %d" [(flags &&& kmallocTypeMask : Nat)]

/-- A pure computation that may panic, as a step of a program. -/
def orPanic {α : Type} : Except Panic α → PhysProgram α
  | .error reason => .throw (.panic reason)
  | .ok value => return value

def kmalloc (fuel size flags : Nat) : PhysProgram Nat := do
  let order ← orPanic (bytesToOrder size)
  kmallocOrder fuel order flags

def memset (bytes : Bytes) (target chr : Nat) : Nat → Bytes
  | 0 => bytes
  | count + 1 => memset (Function.update bytes target (chr % 2 ^ 8)) (add64 target 1) chr count

def kzalloc (fuel size flags : Nat) (bytes : Bytes) : PhysProgram (Nat × Bytes) := do
  let ret ← kmalloc fuel size flags
  return (ret, memset bytes ret 0 size)

def kfree (ptr : Nat) : PhysProgram Unit := physFree (virtToPhys ptr)

end Zeptux.Kmalloc
