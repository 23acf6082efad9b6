import Zeptux.Lib.Bytes
import Zeptux.Lib.X86Paging

/-!
Loads and stores at virtual addresses, where the page tables are bytes of the same memory.
A loop over a window that is mapped to consecutive addresses, and does not reach the tables
that map it, does what it does on physical memory.
-/

namespace VirtualMemory

open X86Paging ByteMemory

def words (memory : ByteMemory) : Memory := fun address => littleEndian memory address 8

def translate (memory : ByteMemory) (cr3 va : Nat) : Option Nat :=
  (walk (words memory) cr3 va).map Leaf.pa

def loadByte (cr3 va : Nat) (memory : ByteMemory) : Option UInt8 :=
  (translate memory cr3 va).map memory

def storeByte (cr3 va : Nat) (val : UInt8) (memory : ByteMemory) : Option ByteMemory :=
  (translate memory cr3 va).map fun pa => memory.store pa val

/-- `memset`; the result is `none` where an address is not mapped. -/
def fillAt (cr3 va : Nat) (val : UInt8) : Nat → ByteMemory → Option ByteMemory
  | 0, memory => some memory
  | count + 1, memory => do
      let memory ← storeByte cr3 va val memory
      fillAt cr3 ((va + 1) % 2 ^ 64) val count memory

def copyAt (cr3 dest src : Nat) : Nat → ByteMemory → Option ByteMemory
  | 0, memory => some memory
  | count + 1, memory => do
      let val ← loadByte cr3 src memory
      let memory ← storeByte cr3 dest val memory
      copyAt cr3 ((dest + 1) % 2 ^ 64) ((src + 1) % 2 ^ 64) count memory

/-- As long as `keep` holds, the addresses from `va` on stand for those from `pa` on. -/
def Maps (keep : ByteMemory → Prop) (cr3 va pa length : Nat) : Prop :=
  ∀ memory, keep memory → ∀ offset < length, translate memory cr3 (va + offset) = some (pa + offset)

/-- Stores between `pa` and `pa + length` do not harm. -/
def Harmless (keep : ByteMemory → Prop) (pa length : Nat) : Prop :=
  ∀ memory val, keep memory → ∀ offset < length, keep (memory.store (pa + offset) val)

section

variable {keep : ByteMemory → Prop} {memory : ByteMemory} {cr3 va pa dest target src source : Nat}
  {val : UInt8} {length : Nat}

theorem Maps.within {skip rest : Nat} (maps : Maps keep cr3 va pa length)
    (inside : skip + rest ≤ length) : Maps keep cr3 (va + skip) (pa + skip) rest := by
  intro memory holds offset below
  rw [Nat.add_assoc, Nat.add_assoc]
  exact maps memory holds (skip + offset) (by omega)

theorem Maps.first (maps : Maps keep cr3 va pa (length + 1)) (holds : keep memory) :
    translate memory cr3 va = some pa := maps memory holds 0 (by omega)

theorem Maps.tail (maps : Maps keep cr3 va pa (length + 1)) :
    Maps keep cr3 (va + 1) (pa + 1) length := maps.within (Nat.add_comm 1 length).le

theorem Harmless.within {skip rest : Nat} (harmless : Harmless keep pa length)
    (inside : skip + rest ≤ length) : Harmless keep (pa + skip) rest := by
  intro memory val holds offset below
  rw [Nat.add_assoc]
  exact harmless memory val holds (skip + offset) (by omega)

theorem Harmless.tail (harmless : Harmless keep pa (length + 1)) :
    Harmless keep (pa + 1) length := harmless.within (Nat.add_comm 1 length).le

theorem Harmless.first (harmless : Harmless keep pa (length + 1)) (holds : keep memory)
    (val : UInt8) : keep (memory.store pa val) := harmless memory val holds 0 (by omega)

theorem fillAt_eq (maps : Maps keep cr3 va pa length) (harmless : Harmless keep pa length)
    (bound : va + length < 2 ^ 64) (holds : keep memory) :
    fillAt cr3 va val length memory = some (memory.fill pa val length) ∧
      keep (memory.fill pa val length) := by
  induction length generalizing va pa memory with
  | zero =>
      rw [ByteMemory.fill]
      exact ⟨rfl, holds⟩
  | succ length ih =>
      have stored : storeByte cr3 va val memory = some (memory.store pa val) := by
        rw [storeByte, maps.first holds, Option.map_some]
      have rest := ih maps.tail harmless.tail (by omega) (harmless.first holds val)
      rw [fillAt, stored, ByteMemory.fill, Nat.mod_eq_of_lt (by omega)]
      exact rest

theorem copyAt_eq (reads : Maps keep cr3 src source length)
    (writes : Maps keep cr3 dest target length) (harmless : Harmless keep target length)
    (srcBound : src + length < 2 ^ 64) (destBound : dest + length < 2 ^ 64) (holds : keep memory) :
    copyAt cr3 dest src length memory = some (memory.copyForward target source length) ∧
      keep (memory.copyForward target source length) := by
  induction length generalizing src source dest target memory with
  | zero =>
      rw [copyForward]
      exact ⟨rfl, holds⟩
  | succ length ih =>
      have loaded : loadByte cr3 src memory = some (memory source) := by
        rw [loadByte, reads.first holds, Option.map_some]
      have stored : storeByte cr3 dest (memory source) memory =
          some (memory.store target (memory source)) := by
        rw [storeByte, writes.first holds, Option.map_some]
      have rest := ih reads.tail writes.tail harmless.tail (by omega) (by omega)
        (harmless.first holds (memory source))
      rw [copyAt, loaded, Option.bind_eq_bind, Option.bind_some, stored, copyForward,
        Nat.mod_eq_of_lt (by omega), Nat.mod_eq_of_lt (by omega)]
      exact rest

end

end VirtualMemory
