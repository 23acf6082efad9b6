import Zeptux.BootLoad
import Zeptux.Loader

/-!
`load` of `arch/x86_64/boot/loader.c` as it is built with `CONFIG_BOOTLOADER_BIOS`: the file
that the BIOS has read is copied to where it is linked, its addresses are checked, and `.bss`
is cleared. Pointers are virtual addresses under the page tables of `start32`, and a result
of `none` is a page fault.
-/

namespace Zeptux.Boot

open ByteMemory VirtualMemory Word
open Early (kernelElfAddress earlyPgd)

def earlyBootInfoKernelElfSizeAddress : Nat :=
  Early.kernelDirectMapBase + earlyBootInfoKernelElfSizeAddressPhys

def elfShtProgbits : Nat := 1

def loadField (va : Nat) : Nat → ByteMemory → Option Nat
  | 0, _ => some 0
  | count + 1, memory => do
      let first ← loadByte earlyPgd va memory
      let rest ← loadField (add64 va 1) count memory
      return first.toNat + 256 * rest

def headerField (offset count : Nat) (memory : ByteMemory) : Option Nat :=
  loadField (add64 kernelElfAddress offset) count memory

def signedChar (byte : UInt8) : Int := if byte.toNat < 2 ^ 7 then byte.toNat else (byte.toNat : Int) - 2 ^ 8

/-- `strcmp` with a string constant, whose end is the end of the list. -/
def strcmp (va : Nat) : List UInt8 → ByteMemory → Option Int
  | [], memory => do
      let byte ← loadByte earlyPgd va memory
      return signedChar byte
  | char :: rest, memory => do
      let byte ← loadByte earlyPgd va memory
      if byte = 0 ∨ byte ≠ char then return signedChar byte - signedChar char
      else strcmp (add64 va 1) rest memory

def bssName : List UInt8 := [46, 98, 115, 115]

/-! ## The loader -/

/-- The check that both loops make of an address and an offset, given where they are. -/
def placedAt (addrField offsetField : Nat) (memory : ByteMemory) : Option Bool := do
  let addr ← loadField addrField 8 memory
  if addr = 0 then return true
  else
    let offset ← loadField offsetField 8 memory
    return decide (offset = sub64 addr kernelElfAddress)

/-- Programs without content are not looked at. -/
def programPlaced (header : Nat) (memory : ByteMemory) : Option Bool := do
  let filesz ← loadField (add64 header 32) 8 memory
  if filesz = 0 then return true
  else placedAt (add64 header 16) (add64 header 8) memory

def elfCheckProgramsFrom : Nat → Nat → ByteMemory → Option Bool
  | 0, _, _ => some true
  | remaining + 1, header, memory => do
      let ok ← programPlaced header memory
      if ok then elfCheckProgramsFrom remaining (add64 header Loader.programHeaderSize) memory
      else return false

def sectionPlaced (header : Nat) (memory : ByteMemory) : Option Bool := do
  let type ← loadField (add64 header 4) 4 memory
  if type ≠ elfShtProgbits then return true
  else placedAt (add64 header 16) (add64 header 24) memory

def elfCheckSectionsFrom : Nat → Nat → ByteMemory → Option Bool
  | 0, _, _ => some true
  | remaining + 1, header, memory => do
      let ok ← sectionPlaced header memory
      if ok then elfCheckSectionsFrom remaining (add64 header Loader.sectionHeaderSize) memory
      else return false

def elfCheckAddrs (memory : ByteMemory) : Option Bool := do
  let phoff ← headerField 32 8 memory
  let phnum ← headerField 56 2 memory
  let programs ← elfCheckProgramsFrom phnum (add64 kernelElfAddress phoff) memory
  if programs then
    let shoff ← headerField 40 8 memory
    let shnum ← headerField 60 2 memory
    elfCheckSectionsFrom shnum (add64 kernelElfAddress shoff) memory
  else return false

def elfZeroBssFrom (shstr : Nat) : Nat → Nat → ByteMemory → Option (Bool × ByteMemory)
  | 0, _, memory => some (false, memory)
  | remaining + 1, header, memory => do
      let name ← loadField header 4 memory
      let different ← strcmp (add64 shstr name) bssName memory
      if different ≠ 0 then
        elfZeroBssFrom shstr remaining (add64 header Loader.sectionHeaderSize) memory
      else
        let addr ← loadField (add64 header 16) 8 memory
        let size ← loadField (add64 header 32) 8 memory
        let memory ← fillAt earlyPgd addr 0 size memory
        return (true, memory)

def elfZeroBss (memory : ByteMemory) : Option (Bool × ByteMemory) := do
  let shoff ← headerField 40 8 memory
  let shstrndx ← headerField 62 2 memory
  let sectionHeaders := add64 kernelElfAddress shoff
  let shstrHeader := add64 sectionHeaders (Loader.sectionHeaderSize * shstrndx)
  let offset ← loadField (add64 shstrHeader 24) 8 memory
  let shnum ← headerField 60 2 memory
  elfZeroBssFrom (add64 kernelElfAddress offset) shnum sectionHeaders memory

def copyKernelElfImage (memory : ByteMemory) : Option ByteMemory := do
  let size ← loadField earlyBootInfoKernelElfSizeAddress 4 memory
  copyAt earlyPgd kernelElfAddress biosKernelElfLoadPhysAddress size memory

def checkAndFinalise (memory : ByteMemory) : Option (Bool × ByteMemory) := do
  let matching ← elfCheckAddrs memory
  if matching then elfZeroBss memory else return (false, memory)

inductive Loaded
  | entered (entry : Nat) (memory : ByteMemory)
  | halted (memory : ByteMemory)

def load (memory : ByteMemory) : Option Loaded := do
  let memory ← copyKernelElfImage memory
  let (ok, memory) ← checkAndFinalise memory
  if ok then
    let entry ← headerField 24 8 memory
    return .entered entry memory
  else return .halted memory

/-! ## What the file says -/

/-- A program with content is linked to where its content is copied. -/
def ProgramMatches (file : ByteMemory) (i : Nat) : Prop :=
  let header := Loader.programHeader file i
  littleEndian file (header + 32) 8 = 0 ∨ littleEndian file (header + 16) 8 = 0 ∨
    littleEndian file (header + 8) 8 = sub64 (littleEndian file (header + 16) 8) kernelElfAddress

def SectionMatches (file : ByteMemory) (i : Nat) : Prop :=
  let header := Loader.sectionHeader file i
  Loader.sectionType file i ≠ elfShtProgbits ∨ littleEndian file (header + 16) 8 = 0 ∨
    littleEndian file (header + 24) 8 = sub64 (littleEndian file (header + 16) 8) kernelElfAddress

instance (file : ByteMemory) (i : Nat) : Decidable (ProgramMatches file i) :=
  inferInstanceAs (Decidable (_ ∨ _ ∨ _))

instance (file : ByteMemory) (i : Nat) : Decidable (SectionMatches file i) :=
  inferInstanceAs (Decidable (_ ∨ _ ∨ _))

def sectionName (file : ByteMemory) (i : Nat) : Nat :=
  littleEndian file (Loader.sectionHeader file (littleEndian file 62 2) + 24) 8 +
    littleEndian file (Loader.sectionHeader file i) 4

def IsBss (file : ByteMemory) (i : Nat) : Prop :=
  ∀ k < 5, file (sectionName file i + k) = (bssName ++ [0]).getD k 0

instance (file : ByteMemory) (i : Nat) : Decidable (IsBss file i) :=
  inferInstanceAs (Decidable (∀ k < 5, _))

def sectionAddr (file : ByteMemory) (i : Nat) : Nat :=
  littleEndian file (Loader.sectionHeader file i + 16) 8

def sectionSize (file : ByteMemory) (i : Nat) : Nat :=
  littleEndian file (Loader.sectionHeader file i + 32) 8

/-! ## Reading the file -/

theorem tables_map {base : Nat} (known : base = 0 ∨ base = Early.kernelDirectMapBase ∨
    base = kernelElfBase) : Maps (PagesHold (tableWord true)) earlyPgd base 0 (2 ^ 30) := by
  intro memory holds offset inside
  have mapped : Mapped true (base + offset) := by
    simp only [Mapped, InWindow, true_and]
    rcases known with rfl | rfl | rfl
    · exact Or.inl (by omega)
    · exact Or.inr (Or.inl (by omega))
    · exact Or.inr (Or.inr (by omega))
  have low : (base + offset) % 2 ^ 30 = 0 + offset := by
    simp only [Early.kernelDirectMapBase, kernelElfBase] at known
    omega
  rw [VirtualMemory.translate, walk_tables holds, if_pos mapped, Option.map_some, firstGiB, low]

theorem kernelElfAddress_eq : kernelElfAddress = kernelElfBase + Early.kernelElfAddressPhys := rfl

theorem tables_harmless {pa length : Nat} (above : 0x5000 ≤ pa) :
    Harmless (PagesHold (tableWord true)) pa length := by
  intro memory val holds offset inside index below
  rw [words_store_apart (by omega)]
  exact holds index below

theorem loadField_eq {keep : ByteMemory → Prop} {memory : ByteMemory} {va pa count : Nat}
    (maps : Maps keep earlyPgd va pa count) (holds : keep memory) (bound : va + count < 2 ^ 64) :
    loadField va count memory = some (littleEndian memory pa count) := by
  induction count generalizing va pa with
  | zero => rfl
  | succ count ih =>
      have first : loadByte earlyPgd va memory = some (memory pa) := by
        rw [loadByte, maps.first holds, Option.map_some]
      rw [loadField, first, add64_eq (by omega), Option.bind_eq_bind, Option.bind_some,
        ih maps.tail (by omega)]
      rfl

structure Copied (file : ByteMemory) (size : Nat) (memory : ByteMemory) : Prop where
  tables : PagesHold (tableWord true) memory
  bytes : ∀ offset < size, memory (Early.kernelElfAddressPhys + offset) = file offset
  small : size ≤ 2 ^ 25

section Copied

variable {file memory : ByteMemory} {size offset count : Nat}

theorem Copied.maps (copied : Copied file size memory) (inside : offset + count ≤ size) :
    Maps (PagesHold (tableWord true)) earlyPgd (kernelElfAddress + offset)
      (0 + (Early.kernelElfAddressPhys + offset)) count := by
  have small := copied.small
  have whole := tables_map (Or.inr (Or.inr rfl) : kernelElfBase = 0 ∨ _)
  have part : Maps _ earlyPgd (kernelElfBase + (Early.kernelElfAddressPhys + offset)) _ count :=
    whole.within (by simp only [Early.kernelElfAddressPhys]; omega)
  rw [← Nat.add_assoc, ← kernelElfAddress_eq] at part
  exact part

theorem Copied.field (copied : Copied file size memory) (inside : offset + count ≤ size) :
    loadField (kernelElfAddress + offset) count memory = some (littleEndian file offset count) := by
  have small := copied.small
  have bound : kernelElfAddress + offset + count < 2 ^ 64 := by
    simp only [kernelElfAddress, Early.kernelElfAddressPhys]
    omega
  rw [loadField_eq (copied.maps inside) copied.tables bound, Nat.zero_add]
  refine congrArg some (littleEndian_of_shift fun index below => ?_)
  rw [Nat.add_assoc]
  exact copied.bytes _ (by omega)

theorem Copied.add (copied : Copied file size memory) {more : Nat} (inside : offset + more ≤ size) :
    add64 (kernelElfAddress + offset) more = kernelElfAddress + (offset + more) := by
  have small := copied.small
  rw [add64_eq, Nat.add_assoc]
  simp only [kernelElfAddress, Early.kernelElfAddressPhys]
  omega

theorem Copied.byte (copied : Copied file size memory) (inside : offset < size) :
    loadByte earlyPgd (kernelElfAddress + offset) memory = some (file offset) := by
  rw [loadByte, (copied.maps (by omega : offset + 1 ≤ size)).first copied.tables, Option.map_some,
    Nat.zero_add, copied.bytes offset inside]

theorem signedChar_injective {first second : UInt8} (same : signedChar first = signedChar second) :
    first = second := by
  have left := first.toNat_lt
  have right := second.toNat_lt
  rw [signedChar, signedChar] at same
  apply UInt8.toNat_inj.mp
  split at same <;> split at same <;> omega

theorem bssName_nonzero : ∀ char ∈ bssName, char ≠ 0 := by simp [bssName]

/-- The strings are equal up to and with the end of the constant one. -/
theorem Copied.strcmp (copied : Copied file size memory) {chars : List UInt8}
    (nonzero : ∀ char ∈ chars, char ≠ 0) (inside : offset + (chars.length + 1) ≤ size) :
    ∃ difference, strcmp (kernelElfAddress + offset) chars memory = some difference ∧
      (difference = 0 ↔ ∀ k < chars.length + 1, file (offset + k) = (chars ++ [0]).getD k 0) := by
  induction chars generalizing offset with
  | nil =>
      refine ⟨signedChar (file offset), ?_, ?_⟩
      · rw [Boot.strcmp, copied.byte (by omega)]
        rfl
      · constructor
        · intro zero k below
          have first : k = 0 := by simpa using below
          subst first
          have same : signedChar (file offset) = signedChar 0 := zero
          simpa using signedChar_injective same
        · intro same
          have zero := same 0 (by simp)
          rw [Nat.add_zero] at zero
          rw [zero]
          rfl
  | cons char chars ih =>
      have charNonzero := nonzero char List.mem_cons_self
      rw [List.length_cons] at inside
      by_cases different : file offset = 0 ∨ file offset ≠ char
      · refine ⟨signedChar (file offset) - signedChar char, ?_, ?_⟩
        · rw [Boot.strcmp, copied.byte (by omega), Option.bind_eq_bind, Option.bind_some,
            if_pos different]
          rfl
        · have unequal : file offset ≠ char := by
            rcases different with zero | unequal
            · rw [zero]
              exact charNonzero.symm
            · exact unequal
          constructor
          · intro zero
            exact absurd (signedChar_injective (by omega)) unequal
          · intro same
            exact absurd (same 0 (by simp)) unequal
      · obtain ⟨difference, compared, equal⟩ := ih (fun other member =>
          nonzero other (List.mem_cons_of_mem _ member))
          (by omega : offset + 1 + (chars.length + 1) ≤ size)
        have same : file offset = char := by
          by_contra unequal
          exact different (Or.inr unequal)
        refine ⟨difference, ?_, ?_⟩
        · rw [Boot.strcmp, copied.byte (by omega), Option.bind_eq_bind, Option.bind_some,
            if_neg different, copied.add (by omega)]
          exact compared
        · rw [equal, List.length_cons]
          constructor
          · intro rest k below
            cases k with
            | zero => simpa using same
            | succ k =>
                have later := rest k (by omega)
                rwa [Nat.add_assoc, Nat.add_comm 1 k] at later
          · intro all k below
            have later := all (k + 1) (by omega)
            rwa [← Nat.add_assoc, Nat.add_right_comm] at later

theorem Copied.placedAt (copied : Copied file size memory) {addrField offsetField : Nat}
    (addrInside : addrField + 8 ≤ size) (offsetInside : offsetField + 8 ≤ size) :
    placedAt (kernelElfAddress + addrField) (kernelElfAddress + offsetField) memory =
      some (decide (littleEndian file addrField 8 = 0 ∨
        littleEndian file offsetField 8 = sub64 (littleEndian file addrField 8) kernelElfAddress)) := by
  rw [Boot.placedAt, copied.field addrInside, Option.bind_eq_bind, Option.bind_some]
  by_cases zero : littleEndian file addrField 8 = 0
  · simp [zero]
  · rw [if_neg zero, copied.field offsetInside]
    simp [zero]

theorem programHeader_succ (file : ByteMemory) (i : Nat) :
    Loader.programHeader file (i + 1) = Loader.programHeader file i + Loader.programHeaderSize := by
  rw [Loader.programHeader, Loader.programHeader, Nat.mul_succ, Nat.add_assoc]

theorem sectionHeader_succ (file : ByteMemory) (i : Nat) :
    Loader.sectionHeader file (i + 1) = Loader.sectionHeader file i + Loader.sectionHeaderSize := by
  rw [Loader.sectionHeader, Loader.sectionHeader, Nat.mul_succ, Nat.add_assoc]

theorem programHeader_room {i remaining : Nat}
    (inside : Loader.programHeader file (i + (remaining + 1)) ≤ size) :
    Loader.programHeader file i + 56 ≤ size := by
  simp only [Loader.programHeader, Loader.programHeaderSize] at *
  omega

theorem sectionHeader_room {i remaining : Nat}
    (inside : Loader.sectionHeader file (i + (remaining + 1)) ≤ size) :
    Loader.sectionHeader file i + 64 ≤ size := by
  simp only [Loader.sectionHeader, Loader.sectionHeaderSize] at *
  omega

theorem Copied.programPlaced (copied : Copied file size memory) {i : Nat}
    (room : Loader.programHeader file i + 56 ≤ size) :
    programPlaced (kernelElfAddress + Loader.programHeader file i) memory =
      some (decide (ProgramMatches file i)) := by
  rw [Boot.programPlaced, copied.add (by omega), copied.add (by omega), copied.add (by omega),
    copied.field (by omega), Option.bind_eq_bind, Option.bind_some]
  by_cases empty : littleEndian file (Loader.programHeader file i + 32) 8 = 0
  · simp [ProgramMatches, empty]
  · rw [if_neg empty, copied.placedAt (by omega) (by omega)]
    simp [ProgramMatches, empty]

theorem Copied.sectionPlaced (copied : Copied file size memory) {i : Nat}
    (room : Loader.sectionHeader file i + 64 ≤ size) :
    sectionPlaced (kernelElfAddress + Loader.sectionHeader file i) memory =
      some (decide (SectionMatches file i)) := by
  have type : loadField (kernelElfAddress + (Loader.sectionHeader file i + 4)) 4 memory =
      some (Loader.sectionType file i) := copied.field (by omega)
  rw [Boot.sectionPlaced, copied.add (by omega), copied.add (by omega), copied.add (by omega),
    type, Option.bind_eq_bind, Option.bind_some]
  by_cases other : Loader.sectionType file i ≠ elfShtProgbits
  · simp [SectionMatches, other]
  · rw [if_neg other, copied.placedAt (by omega) (by omega)]
    simp [SectionMatches, other]

theorem Copied.nextProgram (copied : Copied file size memory) {i : Nat}
    (room : Loader.programHeader file i + 56 ≤ size) :
    add64 (kernelElfAddress + Loader.programHeader file i) Loader.programHeaderSize =
      kernelElfAddress + Loader.programHeader file (i + 1) := by
  rw [programHeader_succ]
  exact copied.add room

theorem Copied.nextSection (copied : Copied file size memory) {i : Nat}
    (room : Loader.sectionHeader file i + 64 ≤ size) :
    add64 (kernelElfAddress + Loader.sectionHeader file i) Loader.sectionHeaderSize =
      kernelElfAddress + Loader.sectionHeader file (i + 1) := by
  rw [sectionHeader_succ]
  exact copied.add room

theorem Copied.checkPrograms (copied : Copied file size memory) {remaining i : Nat}
    (inside : Loader.programHeader file (i + remaining) ≤ size) :
    elfCheckProgramsFrom remaining (kernelElfAddress + Loader.programHeader file i) memory =
      some ((List.range' i remaining).all fun j => decide (ProgramMatches file j)) := by
  induction remaining generalizing i with
  | zero => rfl
  | succ remaining ih =>
      have room := programHeader_room inside
      have rest : elfCheckProgramsFrom remaining
          (kernelElfAddress + Loader.programHeader file (i + 1)) memory = _ :=
        ih (by rw [Nat.add_right_comm, Nat.add_assoc]; exact inside)
      rw [elfCheckProgramsFrom, copied.programPlaced room, Option.bind_eq_bind, Option.bind_some,
        copied.nextProgram room, rest, List.range'_succ, List.all_cons]
      cases decide (ProgramMatches file i) <;> rfl

theorem Copied.checkSections (copied : Copied file size memory) {remaining i : Nat}
    (inside : Loader.sectionHeader file (i + remaining) ≤ size) :
    elfCheckSectionsFrom remaining (kernelElfAddress + Loader.sectionHeader file i) memory =
      some ((List.range' i remaining).all fun j => decide (SectionMatches file j)) := by
  induction remaining generalizing i with
  | zero => rfl
  | succ remaining ih =>
      have room := sectionHeader_room inside
      have rest : elfCheckSectionsFrom remaining
          (kernelElfAddress + Loader.sectionHeader file (i + 1)) memory = _ :=
        ih (by rw [Nat.add_right_comm, Nat.add_assoc]; exact inside)
      rw [elfCheckSectionsFrom, copied.sectionPlaced room, Option.bind_eq_bind, Option.bind_some,
        copied.nextSection room, rest, List.range'_succ, List.all_cons]
      cases decide (SectionMatches file i) <;> rfl

end Copied

/-! ## The file as a whole -/

/-- The tables of the file lie inside it, and `.bss` lies behind the header and where the kernel
is mapped. -/
structure WellFormed (file : ByteMemory) (size : Nat) : Prop where
  header : 64 ≤ size
  programs : Loader.programHeader file (Loader.headerPhnum file) ≤ size
  sections : Loader.sectionHeader file (Loader.headerShnum file) ≤ size
  stringTable : littleEndian file 62 2 < Loader.headerShnum file
  names : ∀ i < Loader.headerShnum file, sectionName file i + 5 ≤ size
  bss : ∀ i < Loader.headerShnum file, IsBss file i →
    kernelElfAddress + 64 ≤ sectionAddr file i ∧
      sectionAddr file i + sectionSize file i ≤ kernelElfBase + 2 ^ 30

def programsMatch (file : ByteMemory) : Bool :=
  (List.range' 0 (Loader.headerPhnum file)).all fun i => decide (ProgramMatches file i)

def sectionsMatch (file : ByteMemory) : Bool :=
  (List.range' 0 (Loader.headerShnum file)).all fun i => decide (SectionMatches file i)

def firstBss (file : ByteMemory) : Option Nat :=
  (List.range' 0 (Loader.headerShnum file)).find? fun i => decide (IsBss file i)

/-- What `elf_zero_bss` returns and leaves in memory, given the section it finds. -/
def clearBss (file memory : ByteMemory) : Option Nat → Bool × ByteMemory
  | none => (false, memory)
  | some i => (true, memory.fill (sectionAddr file i - kernelElfBase) 0 (sectionSize file i))

@[simp] theorem clearBss_some (file memory : ByteMemory) (i : Nat) :
    (clearBss file memory (some i)).2 =
      memory.fill (sectionAddr file i - kernelElfBase) 0 (sectionSize file i) := rfl

theorem firstBss_spec {file : ByteMemory} {i : Nat} (found : firstBss file = some i) :
    IsBss file i ∧ i < Loader.headerShnum file := by
  have chosen := List.find?_eq_some_iff_append.mp found
  refine ⟨of_decide_eq_true chosen.1, ?_⟩
  simpa [List.mem_range'_1] using List.mem_of_find?_eq_some found

section Finalise

variable {file memory : ByteMemory} {size : Nat}

theorem Copied.header (copied : Copied file size memory) {offset count : Nat}
    (inside : offset + count ≤ size) :
    headerField offset count memory = some (littleEndian file offset count) := by
  have small := copied.small
  rw [headerField, add64_eq]
  · exact copied.field inside
  · simp only [kernelElfAddress, Early.kernelElfAddressPhys]
    omega

theorem Copied.within (copied : Copied file size memory) {offset : Nat} (inside : offset ≤ size) :
    add64 kernelElfAddress offset = kernelElfAddress + offset := by
  have small := copied.small
  rw [add64_eq]
  simp only [kernelElfAddress, Early.kernelElfAddressPhys]
  omega

theorem Copied.elfCheckAddrs (copied : Copied file size memory) (wellFormed : WellFormed file size) :
    elfCheckAddrs memory = some (programsMatch file && sectionsMatch file) := by
  have header := wellFormed.header
  have phoff : headerField 32 8 memory = some (Loader.headerPhoff file) := copied.header (by omega)
  have phnum : headerField 56 2 memory = some (Loader.headerPhnum file) := copied.header (by omega)
  have shoff : headerField 40 8 memory = some (Loader.headerShoff file) := copied.header (by omega)
  have shnum : headerField 60 2 memory = some (Loader.headerShnum file) := copied.header (by omega)
  have programs := @Copied.checkPrograms _ _ _ copied (Loader.headerPhnum file) 0
    (by rw [Nat.zero_add]; exact wellFormed.programs)
  have sections := @Copied.checkSections _ _ _ copied (Loader.headerShnum file) 0
    (by rw [Nat.zero_add]; exact wellFormed.sections)
  have phoffInside : Loader.headerPhoff file ≤ size :=
    (Nat.le_add_right _ _).trans wellFormed.programs
  have shoffInside : Loader.headerShoff file ≤ size :=
    (Nat.le_add_right _ _).trans wellFormed.sections
  rw [Loader.programHeader, Nat.mul_zero, Nat.add_zero] at programs
  rw [Loader.sectionHeader, Nat.mul_zero, Nat.add_zero] at sections
  rw [Boot.elfCheckAddrs, phoff, phnum, shoff, shnum]
  simp only [Option.bind_eq_bind, Option.bind_some]
  rw [copied.within phoffInside, programs, copied.within shoffInside, sections, programsMatch,
    sectionsMatch, Option.bind_some]
  cases (List.range' 0 (Loader.headerPhnum file)).all fun j => decide (ProgramMatches file j) <;> rfl

theorem Copied.clear (copied : Copied file size memory) {va count : Nat}
    (above : kernelElfAddress ≤ va) (below : va + count ≤ kernelElfBase + 2 ^ 30) :
    fillAt earlyPgd va 0 count memory = some (memory.fill (va - kernelElfBase) 0 count) ∧
      PagesHold (tableWord true) (memory.fill (va - kernelElfBase) 0 count) := by
  obtain ⟨skip, rfl⟩ := Nat.exists_eq_add_of_le (show kernelElfBase ≤ va by
    simp only [kernelElfAddress, kernelElfBase] at *
    omega)
  have whole := tables_map (Or.inr (Or.inr rfl) : kernelElfBase = 0 ∨ _)
  have part : Maps _ earlyPgd (kernelElfBase + skip) (0 + skip) count := whole.within (by omega)
  have harmless : Harmless (PagesHold (tableWord true)) (0 + skip) count := by
    refine tables_harmless ?_
    simp only [kernelElfAddress, Early.kernelElfAddressPhys, kernelElfBase] at above
    omega
  have bound : kernelElfBase + skip + count < 2 ^ 64 := by
    simp only [kernelElfBase] at *
    omega
  have filled := @fillAt_eq _ _ _ _ _ 0 _ part harmless bound copied.tables
  rw [Nat.zero_add] at filled
  rw [Nat.add_sub_cancel_left]
  exact filled

theorem Copied.zeroBssFrom (copied : Copied file size memory) (wellFormed : WellFormed file size)
    {remaining i : Nat} (inside : i + remaining = Loader.headerShnum file) {shstr : Nat}
    (names : shstr = kernelElfAddress +
      littleEndian file (Loader.sectionHeader file (littleEndian file 62 2) + 24) 8) :
    elfZeroBssFrom shstr remaining (kernelElfAddress + Loader.sectionHeader file i) memory =
      some (clearBss file memory ((List.range' i remaining).find? fun j => decide (IsBss file j))) := by
  induction remaining generalizing i with
  | zero => rfl
  | succ remaining ih =>
      have room := @sectionHeader_room file size i remaining (by
        rw [inside]
        exact wellFormed.sections)
      have named := wellFormed.names i (by omega)
      have small := copied.small
      have nameField : loadField (kernelElfAddress + Loader.sectionHeader file i) 4 memory =
          some (littleEndian file (Loader.sectionHeader file i) 4) := copied.field (by omega)
      have nameAt : add64 shstr (littleEndian file (Loader.sectionHeader file i) 4) =
          kernelElfAddress + sectionName file i := by
        have inside : sectionName file i ≤ size := by omega
        rw [← copied.within inside, names, add64, add64, sectionName, Nat.add_assoc]
      obtain ⟨difference, compared, equal⟩ : ∃ difference,
          Boot.strcmp (kernelElfAddress + sectionName file i) bssName memory = some difference ∧
            (difference = 0 ↔ IsBss file i) := copied.strcmp bssName_nonzero named
      rw [elfZeroBssFrom, List.range'_succ]
      simp only [Option.bind_eq_bind]
      rw [nameField, Option.bind_some, nameAt, compared, Option.bind_some]
      by_cases isBss : IsBss file i
      · have placed := wellFormed.bss i (by omega) isBss
        have addr : loadField (kernelElfAddress + (Loader.sectionHeader file i + 16)) 8 memory =
            some (sectionAddr file i) := copied.field (by omega)
        have length : loadField (kernelElfAddress + (Loader.sectionHeader file i + 32)) 8 memory =
            some (sectionSize file i) := copied.field (by omega)
        rw [if_neg (not_not_intro (equal.mpr isBss)), copied.add (by omega), addr, Option.bind_some,
          copied.add (by omega), length, Option.bind_some,
          (copied.clear (by omega) placed.2).1, Option.bind_some,
          List.find?_cons_of_pos (by simpa using isBss), clearBss]
        rfl
      · rw [if_pos (fun zero => isBss (equal.mp zero)), copied.nextSection room,
          ih (by omega), List.find?_cons_of_neg (by simpa using isBss)]

theorem Copied.elfZeroBss (copied : Copied file size memory) (wellFormed : WellFormed file size) :
    elfZeroBss memory = some (clearBss file memory (firstBss file)) := by
  have header := wellFormed.header
  have shoff : headerField 40 8 memory = some (Loader.headerShoff file) := copied.header (by omega)
  have shnum : headerField 60 2 memory = some (Loader.headerShnum file) := copied.header (by omega)
  have shstrndx : headerField 62 2 memory = some (littleEndian file 62 2) := copied.header (by omega)
  have shoffInside : Loader.headerShoff file ≤ size :=
    (Nat.le_add_right _ _).trans wellFormed.sections
  have stringTable := wellFormed.stringTable
  have room : Loader.sectionHeader file (littleEndian file 62 2) + 64 ≤ size := by
    have sections := wellFormed.sections
    simp only [Loader.sectionHeader, Loader.sectionHeaderSize] at *
    omega
  have named := wellFormed.names (littleEndian file 62 2) stringTable
  have offset : loadField (kernelElfAddress +
      (Loader.sectionHeader file (littleEndian file 62 2) + 24)) 8 memory = some _ :=
    copied.field (by omega)
  have first : kernelElfAddress + Loader.headerShoff file =
      kernelElfAddress + Loader.sectionHeader file 0 := by
    rw [Loader.sectionHeader, Nat.mul_zero, Nat.add_zero]
  have place : add64 (kernelElfAddress + Loader.headerShoff file)
      (Loader.sectionHeaderSize * littleEndian file 62 2) =
        kernelElfAddress + Loader.sectionHeader file (littleEndian file 62 2) := by
    rw [copied.add, Loader.sectionHeader]
    rw [Loader.sectionHeader] at room
    omega
  rw [Boot.elfZeroBss, shoff, shstrndx, shnum]
  simp only [Option.bind_eq_bind, Option.bind_some]
  rw [copied.within shoffInside, place, copied.add (by omega), offset, Option.bind_some, first,
    copied.zeroBssFrom wellFormed (Nat.zero_add _) (copied.within _), firstBss]
  rw [sectionName] at named
  omega

end Finalise

/-! ## Entering the kernel -/

def InBss (file : ByteMemory) (va : Nat) : Prop :=
  ∃ i, firstBss file = some i ∧ sectionAddr file i ≤ va ∧ va < sectionAddr file i + sectionSize file i

/-- What the kernel finds where it is linked: zeros in `.bss`, and elsewhere the content of the
programs and sections. -/
structure Linked (file : ByteMemory) (size : Nat) (memory : ByteMemory) : Prop where
  bss : ∀ va, InBss file va → loadByte earlyPgd va memory = some 0
  programs : ∀ i < Loader.headerPhnum file,
    littleEndian file (Loader.programHeader file i + 16) 8 ≠ 0 →
    ∀ k < littleEndian file (Loader.programHeader file i + 32) 8,
      littleEndian file (Loader.programHeader file i + 8) 8 + k < size →
      ¬InBss file (littleEndian file (Loader.programHeader file i + 16) 8 + k) →
      loadByte earlyPgd (littleEndian file (Loader.programHeader file i + 16) 8 + k) memory =
        some (file (littleEndian file (Loader.programHeader file i + 8) 8 + k))
  sections : ∀ i < Loader.headerShnum file, Loader.sectionType file i = elfShtProgbits →
    sectionAddr file i ≠ 0 →
    ∀ k < sectionSize file i,
      littleEndian file (Loader.sectionHeader file i + 24) 8 + k < size →
      ¬InBss file (sectionAddr file i + k) →
      loadByte earlyPgd (sectionAddr file i + k) memory =
        some (file (littleEndian file (Loader.sectionHeader file i + 24) 8 + k))

section Load

variable {file memory : ByteMemory} {size : Nat}

theorem copyKernelElfImage_eq (tables : PagesHold (tableWord true) memory)
    (source : ∀ index < size, memory (biosKernelElfLoadPhysAddress + index) = file index)
    (field : littleEndian memory earlyBootInfoKernelElfSizeAddressPhys 4 = size)
    (small : size < maxKernelElfSize) :
    ∃ after, copyKernelElfImage memory = some after ∧ Copied file size after ∧
      ∀ address, ¬(Early.kernelElfAddressPhys ≤ address ∧
        address < Early.kernelElfAddressPhys + size) → after address = memory address := by
  rw [maxKernelElfSize] at small
  have direct := tables_map (Or.inr (Or.inl rfl) : Early.kernelDirectMapBase = 0 ∨ _)
  have low := tables_map (Or.inl rfl : 0 = 0 ∨ _)
  have kernel := tables_map (Or.inr (Or.inr rfl) : kernelElfBase = 0 ∨ _)
  have known : loadField earlyBootInfoKernelElfSizeAddress 4 memory = some size := by
    have part : Maps _ earlyPgd earlyBootInfoKernelElfSizeAddress
        (0 + earlyBootInfoKernelElfSizeAddressPhys) 4 := direct.within (by decide)
    rw [loadField_eq part tables (by decide), Nat.zero_add, field]
  have reads : Maps _ earlyPgd (0 + biosKernelElfLoadPhysAddress)
      (0 + biosKernelElfLoadPhysAddress) size := low.within (by
    simp only [biosKernelElfLoadPhysAddress, bootSectors, stage2Sectors, sectorSize]
    omega)
  have writes : Maps _ earlyPgd (kernelElfBase + Early.kernelElfAddressPhys)
      (0 + Early.kernelElfAddressPhys) size := kernel.within (by
    rw [Early.kernelElfAddressPhys]
    omega)
  rw [Nat.zero_add] at reads writes
  have harmless : Harmless (PagesHold (tableWord true)) Early.kernelElfAddressPhys size :=
    tables_harmless (by decide)
  obtain ⟨copied, kept⟩ := copyAt_eq reads writes harmless
    (by simp only [biosKernelElfLoadPhysAddress, bootSectors, stage2Sectors, sectorSize]; omega)
    (by simp only [kernelElfBase, Early.kernelElfAddressPhys]; omega) tables
  have image : memory.copyForward Early.kernelElfAddressPhys biosKernelElfLoadPhysAddress size =
      overwrite memory Early.kernelElfAddressPhys size
        fun index => memory (biosKernelElfLoadPhysAddress + index) := by
    refine copyForward_eq _ _ _ _ ?_
    simp only [biosKernelElfLoadPhysAddress, bootSectors, stage2Sectors, sectorSize,
      Early.kernelElfAddressPhys]
    omega
  rw [image] at copied kept
  refine ⟨_, ?_, ⟨kept, fun offset inside => ?_, by omega⟩, fun address outside => ?_⟩
  · rw [copyKernelElfImage, known, Option.bind_eq_bind, Option.bind_some]
    exact copied
  · rw [overwrite_inside (by omega) (by omega), Nat.add_sub_cancel_left, source offset inside]
  · rw [overwrite_outside (by omega)]

theorem placed_content {addr offset k : Nat} (word : addr < 2 ^ 64)
    (placed : offset = sub64 addr kernelElfAddress) (inside : offset + k < 2 ^ 25) :
    addr + k = kernelElfAddress + (offset + k) := by
  simp only [sub64, kernelElfAddress, Early.kernelElfAddressPhys] at *
  omega

structure Cleared (file : ByteMemory) (size : Nat) (memory : ByteMemory) : Prop where
  tables : PagesHold (tableWord true) memory
  zeros : ∀ va, InBss file va → loadByte earlyPgd va memory = some 0
  bytes : ∀ offset < size, ¬InBss file (kernelElfAddress + offset) →
    loadByte earlyPgd (kernelElfAddress + offset) memory = some (file offset)
  small : size ≤ 2 ^ 25

theorem Cleared.content (cleared : Cleared file size memory) {addr offset k : Nat}
    (word : addr < 2 ^ 64) (placed : addr = 0 ∨ offset = sub64 addr kernelElfAddress)
    (there : addr ≠ 0) (inside : offset + k < size) (outside : ¬InBss file (addr + k)) :
    loadByte earlyPgd (addr + k) memory = some (file (offset + k)) := by
  have small := cleared.small
  rw [placed_content word (placed.resolve_left there) (by omega)] at outside ⊢
  exact cleared.bytes _ inside outside

theorem all_range' {count : Nat} {p : Nat → Bool} (all : (List.range' 0 count).all p = true)
    {i : Nat} (inside : i < count) : p i = true :=
  List.all_eq_true.mp all i (by simpa [List.mem_range'_1] using inside)

theorem Cleared.linked (cleared : Cleared file size memory) (programs : programsMatch file = true)
    (sections : sectionsMatch file = true) : Linked file size memory := by
  refine ⟨cleared.zeros, fun i inside there k below fits outside => ?_,
    fun i inside progbits there k below fits outside => ?_⟩
  · have matching : ProgramMatches file i := of_decide_eq_true (all_range' programs inside)
    refine cleared.content (littleEndian_lt _ _ 8) (matching.resolve_left ?_) there fits outside
    omega
  · have matching : SectionMatches file i := of_decide_eq_true (all_range' sections inside)
    exact cleared.content (littleEndian_lt _ _ 8) (matching.resolve_left (not_not_intro progbits))
      there fits outside

theorem WellFormed.inBss_above (wellFormed : WellFormed file size) {va : Nat} (inBss : InBss file va) :
    kernelElfAddress + 64 ≤ va := by
  obtain ⟨i, found, above, _⟩ := inBss
  obtain ⟨isBss, inside⟩ := firstBss_spec found
  exact (wellFormed.bss i inside isBss).1.trans above

theorem Copied.cleared (copied : Copied file size memory) (wellFormed : WellFormed file size)
    {i : Nat} (found : firstBss file = some i) :
    Cleared file size (clearBss file memory (some i)).2 ∧
      headerField 24 8 (clearBss file memory (some i)).2 = some (littleEndian file 24 8) ∧
      ∀ address, ¬InBss file (kernelElfBase + address) →
        (clearBss file memory (some i)).2 address = memory address := by
  obtain ⟨isBss, inside⟩ := firstBss_spec found
  obtain ⟨above, below⟩ := wellFormed.bss i inside isBss
  have small := copied.small
  have header := wellFormed.header
  have tables := (copied.clear (by omega) below).2
  have inBss (va : Nat) : InBss file va ↔
      sectionAddr file i ≤ va ∧ va < sectionAddr file i + sectionSize file i := by
    simp [InBss, found]
  have base : kernelElfAddress = kernelElfBase + Early.kernelElfAddressPhys := rfl
  have framed (address : Nat) (outside : ¬InBss file (kernelElfBase + address)) :
      memory.fill (sectionAddr file i - kernelElfBase) 0 (sectionSize file i) address =
        memory address := by
    rw [inBss] at outside
    rw [fill_eq, overwrite_outside (by omega)]
  have whole := tables_map (Or.inr (Or.inr rfl) : kernelElfBase = 0 ∨ _)
  have first : Copied file 64
      (memory.fill (sectionAddr file i - kernelElfBase) 0 (sectionSize file i)) := by
    refine ⟨tables, fun offset inside => ?_, by decide⟩
    rw [framed, copied.bytes offset (by omega)]
    rw [inBss]
    omega
  refine ⟨⟨tables, fun va cleared => ?_, fun offset inside outside => ?_, small⟩,
    first.header (by decide), framed⟩
  · rw [inBss] at cleared
    obtain ⟨offset, rfl⟩ := Nat.exists_eq_add_of_le (show kernelElfBase ≤ va by omega)
    rw [clearBss_some, loadByte, whole _ tables offset (by omega), Option.map_some, Nat.zero_add, fill_eq,
      overwrite_inside (by omega) (by omega)]
  · rw [base, Nat.add_assoc] at outside ⊢
    rw [clearBss_some, loadByte, whole _ tables _ (by rw [Early.kernelElfAddressPhys]; omega),
      Option.map_some, Nat.zero_add, framed _ outside, copied.bytes offset inside]

def Enters (file : ByteMemory) : Prop :=
  programsMatch file = true ∧ sectionsMatch file = true ∧ (firstBss file).isSome = true

instance (file : ByteMemory) : Decidable (Enters file) := inferInstanceAs (Decidable (_ ∧ _))

/-- The kernel is entered at the entry of its file exactly if its addresses are those where it is
put and it has a `.bss`. It is then in memory as it was linked. -/
theorem load_links (tables : PagesHold (tableWord true) memory)
    (source : ∀ index < size, memory (biosKernelElfLoadPhysAddress + index) = file index)
    (field : littleEndian memory earlyBootInfoKernelElfSizeAddressPhys 4 = size)
    (small : size < maxKernelElfSize) (wellFormed : WellFormed file size) :
    ∃ after, load memory = some
        (if Enters file then .entered (littleEndian file 24 8) after else .halted after) ∧
      (Enters file → Linked file size after) ∧
      ∀ address, ¬(Early.kernelElfAddressPhys ≤ address ∧
        address < Early.kernelElfAddressPhys + size) → ¬InBss file (kernelElfBase + address) →
        after address = memory address := by
  obtain ⟨image, copies, copied, framed⟩ := copyKernelElfImage_eq tables source field small
  by_cases matching : programsMatch file && sectionsMatch file
  · obtain ⟨programs, sections⟩ := Bool.and_eq_true_iff.mp matching
    cases found : firstBss file with
    | none =>
        have halts : ¬Enters file := by simp [Enters, found]
        refine ⟨image, ?_, fun enters => absurd enters halts,
          fun address outside _ => framed address outside⟩
        rw [load, copies, if_neg halts]
        simp only [Option.bind_eq_bind, Option.bind_some]
        rw [checkAndFinalise, copied.elfCheckAddrs wellFormed, matching]
        simp only [Option.bind_eq_bind, Option.bind_some, ↓reduceIte]
        rw [copied.elfZeroBss wellFormed, found]
        rfl
    | some i =>
        have enters : Enters file := ⟨programs, sections, by rw [found]; rfl⟩
        obtain ⟨cleared, entry, kept⟩ := copied.cleared wellFormed found
        refine ⟨_, ?_, fun _ => cleared.linked programs sections, fun address outside notBss =>
          (kept address notBss).trans (framed address outside)⟩
        rw [load, copies, if_pos enters]
        simp only [Option.bind_eq_bind, Option.bind_some]
        rw [checkAndFinalise, copied.elfCheckAddrs wellFormed, matching]
        simp only [Option.bind_eq_bind, Option.bind_some, ↓reduceIte]
        rw [copied.elfZeroBss wellFormed, found]
        simp only [Option.bind_some]
        rw [clearBss] at entry ⊢
        simp only [↓reduceIte, entry, Option.bind_some]
        rfl
  · have halts : ¬Enters file := fun enters => matching (by rw [enters.1, enters.2.1]; rfl)
    refine ⟨image, ?_, fun enters => absurd enters halts,
          fun address outside _ => framed address outside⟩
    rw [load, copies, if_neg halts]
    simp only [Option.bind_eq_bind, Option.bind_some]
    rw [checkAndFinalise, copied.elfCheckAddrs wellFormed, Bool.eq_false_of_not_eq_true matching]
    rfl

end Load

/-! ## A small kernel -/

/-- An ELF header, one program, a `.bss` of 16 bytes and the table of the names. -/
def smallKernel : List UInt8 :=
  [0x7f, 0x45, 0x4c, 0x46] ++ List.replicate 20 0 ++
  -- entry, phoff, shoff
  [0xf8, 0, 0, 1, 0, 0xc0, 0xff, 0xff] ++ [64, 0, 0, 0, 0, 0, 0, 0] ++ [120, 0, 0, 0, 0, 0, 0, 0] ++
  List.replicate 8 0 ++ [1, 0] ++ [64, 0] ++ [2, 0] ++ [1, 0] ++
  -- The program is the whole file.
  List.replicate 16 0 ++ [0, 0, 0, 1, 0, 0xc0, 0xff, 0xff] ++ List.replicate 8 0 ++
  [0x04, 1, 0, 0, 0, 0, 0, 0] ++ [0x04, 1, 0, 0, 0, 0, 0, 0] ++ List.replicate 8 0 ++
  -- `.bss`
  [0, 0, 0, 0] ++ [8, 0, 0, 0] ++ List.replicate 8 0 ++ [0, 2, 0, 1, 0, 0xc0, 0xff, 0xff] ++
  List.replicate 8 0 ++ [16, 0, 0, 0, 0, 0, 0, 0] ++ List.replicate 24 0 ++
  -- The names.
  [4, 0, 0, 0] ++ [3, 0, 0, 0] ++ List.replicate 16 0 ++ [248, 0, 0, 0, 0, 0, 0, 0] ++
  [9, 0, 0, 0, 0, 0, 0, 0] ++ List.replicate 24 0 ++
  bssName ++ List.replicate 8 0

theorem smallKernel_wellFormed : WellFormed (diskOf smallKernel) smallKernel.length where
  header := by decide +kernel
  programs := by decide +kernel
  sections := by decide +kernel
  stringTable := by decide +kernel
  names := by decide +kernel
  bss := by decide +kernel

theorem smallKernel_enters : Enters (diskOf smallKernel) := by decide +kernel

theorem smallKernel_length : smallKernel.length = 260 := by decide +kernel

theorem smallKernel_small : smallKernel.length < maxKernelElfSize := by
  rw [smallKernel_length]
  decide

theorem smallKernel_entry : littleEndian (diskOf smallKernel) 24 8 = 0xffffc000010000f8 := by
  decide +kernel

end Zeptux.Boot
