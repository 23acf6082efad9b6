import Zeptux.Lib.Bytes
import Zeptux.Align

/-!
The kernel loader of `arch/x86_64/boot/loader.c` as it is built with
`CONFIG_BOOTLOADER_ATA_PIO`. The disk gives a byte for every address, and the drive sends the
bytes from the sector it was asked for. Memory starts at `KERNEL_ELF_ADDRESS`.
-/

namespace Zeptux.Loader

open Word ByteMemory

def sectorShift : Nat := 9
def sectorSizeBytes : Nat := 2 ^ sectorShift

def elfMagicNumber : Nat := 0x464c457f

section Drive

/-- The registers of the drive that an LBA48 command reads. Each holds the last two bytes that
were written to it, the earlier one first. -/
structure Drive where
  count : Nat × Nat
  low : Nat × Nat
  mid : Nat × Nat
  high : Nat × Nat
  position : Nat

def Drive.lba (drive : Drive) : Nat :=
  drive.low.2 + 2 ^ 8 * drive.mid.2 + 2 ^ 16 * drive.high.2 +
    2 ^ 24 * drive.low.1 + 2 ^ 32 * drive.mid.1 + 2 ^ 40 * drive.high.1

/-- The selection of the master disk changes nothing that is read. -/
def outb (port data : Nat) (drive : Drive) : Drive :=
  let data := data % 2 ^ 8
  if port = 0x1f2 then { drive with count := (drive.count.2, data) }
  else if port = 0x1f3 then { drive with low := (drive.low.2, data) }
  else if port = 0x1f4 then { drive with mid := (drive.mid.2, data) }
  else if port = 0x1f5 then { drive with high := (drive.high.2, data) }
  else if port = 0x1f7 ∧ data = 0x24 then { drive with position := sectorSizeBytes * drive.lba }
  else drive

structure Machine where
  drive : Drive
  memory : ByteMemory

variable (disk : ByteMemory)

def insl (ptr count : Nat) (machine : Machine) : Machine where
  drive := { machine.drive with position := machine.drive.position + 4 * count }
  memory := overwrite machine.memory ptr (4 * count) fun offset =>
    disk (machine.drive.position + offset)

def readSectorsFrom : Nat → Nat → Machine → Machine
  | 0, _, machine => machine
  | count + 1, ptr, machine =>
      readSectorsFrom count (ptr + sectorSizeBytes) (insl disk ptr (sectorSizeBytes / 4) machine)

/-- The drive is taken to be ready whenever it is waited for. -/
def readSectorsLba48 (ptr offset count : Nat) (machine : Machine) : Machine :=
  let drive := outb 0x1f6 0x40 machine.drive
  let drive := outb 0x1f2 (count >>> 8) drive
  let drive := outb 0x1f3 (offset >>> 24) drive
  let drive := outb 0x1f4 (offset >>> 32) drive
  let drive := outb 0x1f5 (offset >>> 40) drive
  let drive := outb 0x1f2 count drive
  let drive := outb 0x1f3 offset drive
  let drive := outb 0x1f4 (offset >>> 8) drive
  let drive := outb 0x1f5 (offset >>> 16) drive
  let drive := outb 0x1f7 0x24 drive
  readSectorsFrom disk count ptr { machine with drive := drive }

end Drive

section Load

/-! The fields of `struct elf_header` that are read. -/

def headerMagic (buf : ByteMemory) : Nat := littleEndian buf 0 4
def headerPhoff (buf : ByteMemory) : Nat := littleEndian buf 32 8
def headerShoff (buf : ByteMemory) : Nat := littleEndian buf 40 8
def headerPhnum (buf : ByteMemory) : Nat := littleEndian buf 56 2
def headerShnum (buf : ByteMemory) : Nat := littleEndian buf 60 2

def programHeaderSize : Nat := 56
def sectionHeaderSize : Nat := 64

def programHeader (buf : ByteMemory) (i : Nat) : Nat := headerPhoff buf + programHeaderSize * i

def sectionHeader (buf : ByteMemory) (i : Nat) : Nat := headerShoff buf + sectionHeaderSize * i

/-- The end of a program in the file, `offset + memsz`. -/
def programEnd (buf : ByteMemory) (i : Nat) : Nat :=
  add64 (littleEndian buf (programHeader buf i + 8) 8) (littleEndian buf (programHeader buf i + 40) 8)

def sectionType (buf : ByteMemory) (i : Nat) : Nat := littleEndian buf (sectionHeader buf i + 4) 4

def sectionEnd (buf : ByteMemory) (i : Nat) : Nat :=
  add64 (littleEndian buf (sectionHeader buf i + 24) 8) (littleEndian buf (sectionHeader buf i + 32) 8)

def highestProgram (buf : ByteMemory) : Nat :=
  (List.range (headerPhnum buf)).foldl
    (fun ret i => if programEnd buf i > ret then programEnd buf i else ret) 0

def elfGetSizeBytes (buf : ByteMemory) : Nat :=
  (List.range (headerShnum buf)).foldl
    (fun ret i =>
      if sectionType buf i = elfShtNobits then ret
      else if sectionEnd buf i > ret then sectionEnd buf i else ret)
    (highestProgram buf)

structure ElfLoadState where
  bytesLoaded : Nat
  sectorsLoaded : Nat
deriving DecidableEq, Repr

/-- The end of the section headers, rounded up to a sector. Both times it is kept in 32 bits. -/
def sectionHeaderEndBytes (buf : ByteMemory) : Nat :=
  alignUp (add64 (headerShoff buf) (headerShnum buf * sectionHeaderSize) % 2 ^ 32) sectorSizeBytes %
    2 ^ 32

variable (disk : ByteMemory)

/-- The state has no header where the file is not one that can be loaded. -/
def load1 (machine : Machine) : Option ElfLoadState × Machine :=
  let machine := readSectorsLba48 disk 0 bootSectors 1 machine
  let buf := machine.memory
  if headerMagic buf ≠ elfMagicNumber then (none, machine)
  else if headerPhoff buf > headerShoff buf then (none, machine)
  else
    let sectors := sectionHeaderEndBytes buf / sectorSizeBytes % 2 ^ 16
    let rest := (sectors + (2 ^ 16 - 1)) % 2 ^ 16
    (some ⟨sectionHeaderEndBytes buf, sectors⟩,
      readSectorsLba48 disk sectorSizeBytes (bootSectors + 1) rest machine)

def load2 (state : ElfLoadState) (machine : Machine) : Machine :=
  let bytes := elfGetSizeBytes machine.memory
  if bytes > state.bytesLoaded then
    let oldBytesAligned := state.sectorsLoaded * sectorSizeBytes
    let bytesAligned := alignUp bytes sectorSizeBytes
    let sectors := bytesAligned / sectorSizeBytes % 2 ^ 16
    let delta := (sectors + (2 ^ 64 - state.sectorsLoaded)) % 2 ^ 64 % 2 ^ 16
    readSectorsLba48 disk oldBytesAligned state.sectorsLoaded delta machine
  else machine

/-- `kernel_elf_size_bytes` and the machine, where a kernel was loaded. -/
def loadAtaPio (machine : Machine) : Option Nat × Machine :=
  match load1 disk machine with
  | (none, machine) => (none, machine)
  | (some state, machine) => (some (state.bytesLoaded % 2 ^ 32), load2 disk state machine)

end Load

section Reading

variable {disk : ByteMemory}

theorem readSectorsLba48_eq (disk : ByteMemory) (ptr offset count : Nat) (machine : Machine) :
    ∃ drive : Drive, drive.position = sectorSizeBytes * (offset % 2 ^ 48) ∧
      readSectorsLba48 disk ptr offset count machine =
        readSectorsFrom disk count ptr ⟨drive, machine.memory⟩ := by
  refine ⟨_, ?_, rfl⟩
  have lba : offset % 2 ^ 8 + 2 ^ 8 * ((offset >>> 8) % 2 ^ 8) + 2 ^ 16 * ((offset >>> 16) % 2 ^ 8) +
      2 ^ 24 * ((offset >>> 24) % 2 ^ 8) + 2 ^ 32 * ((offset >>> 32) % 2 ^ 8) +
      2 ^ 40 * ((offset >>> 40) % 2 ^ 8) = offset % 2 ^ 48 := by
    simp only [Nat.shiftRight_eq_div_pow]
    omega
  exact congrArg (sectorSizeBytes * ·) lba

theorem readSectorsFrom_memory (count ptr : Nat) (machine : Machine) :
    (readSectorsFrom disk count ptr machine).memory =
      overwrite machine.memory ptr (sectorSizeBytes * count)
        fun offset => disk (machine.drive.position + offset) := by
  induction count generalizing ptr machine with
  | zero =>
      funext index
      exact (overwrite_outside (by omega)).symm
  | succ count ih =>
      rw [readSectorsFrom, ih]
      have joined := overwrite_overwrite machine.memory ptr sectorSizeBytes (sectorSizeBytes * count)
        fun offset => disk (machine.drive.position + offset)
      rw [Nat.mul_succ, Nat.add_comm (sectorSizeBytes * count), ← joined]
      simp only [← Nat.add_assoc]
      rfl

theorem readSectorsLba48_memory (ptr offset count : Nat) (machine : Machine)
    (small : offset < 2 ^ 48) :
    (readSectorsLba48 disk ptr offset count machine).memory =
      overwrite machine.memory ptr (sectorSizeBytes * count)
        fun index => disk (sectorSizeBytes * offset + index) := by
  obtain ⟨drive, position, same⟩ := readSectorsLba48_eq disk ptr offset count machine
  rw [same, readSectorsFrom_memory, position, Nat.mod_eq_of_lt small]

end Reading

section File

def fileBytes (disk : ByteMemory) : ByteMemory := fun offset =>
  disk (sectorSizeBytes * bootSectors + offset)

/-- The sectors that the first stage reads: the first, and those it counts behind it. -/
def firstSectors (buf : ByteMemory) : Nat :=
  1 + (sectionHeaderEndBytes buf / sectorSizeBytes % 2 ^ 16 + (2 ^ 16 - 1)) % 2 ^ 16

/-- The file is one that the loader accepts. The program headers are among what the first stage
reads, and both the section headers and the data end below 32 MiB. -/
structure Loadable (file : ByteMemory) : Prop where
  magic : headerMagic file = elfMagicNumber
  order : headerPhoff file ≤ headerShoff file
  programs : programHeader file (headerPhnum file) ≤ sectorSizeBytes * firstSectors file
  sections : sectionHeader file (headerShnum file) < 2 ^ 25
  size : elfGetSizeBytes file < 2 ^ 25

def Holds (memory file : ByteMemory) (length : Nat) : Prop := ∀ offset < length, memory offset = file offset

variable {memory file : ByteMemory} {length : Nat}

theorem Holds.mono {shorter : Nat} (holds : Holds memory file length) (below : shorter ≤ length) :
    Holds memory file shorter := fun offset inside => holds offset (by omega)

theorem Holds.read (holds : Holds memory file length) {index count : Nat}
    (inside : index + count ≤ length) :
    littleEndian memory index count = littleEndian file index count :=
  littleEndian_congr fun offset below => holds (index + offset) (by omega)

theorem Holds.header (holds : Holds memory file sectorSizeBytes) :
    headerMagic memory = headerMagic file ∧ headerPhoff memory = headerPhoff file ∧
      headerShoff memory = headerShoff file ∧ headerPhnum memory = headerPhnum file ∧
      headerShnum memory = headerShnum file := by
  have inside : 64 ≤ sectorSizeBytes := by decide
  exact ⟨holds.read (by omega), holds.read (by omega), holds.read (by omega), holds.read (by omega),
    holds.read (by omega)⟩

theorem Holds.sectionHeaderEndBytes (holds : Holds memory file sectorSizeBytes) :
    sectionHeaderEndBytes memory = sectionHeaderEndBytes file := by
  obtain ⟨-, -, shoff, -, shnum⟩ := holds.header
  rw [Loader.sectionHeaderEndBytes, shoff, shnum]
  rfl

theorem Holds.elfGetSizeBytes (holds : Holds memory file length) (first : sectorSizeBytes ≤ length)
    (programs : programHeader file (headerPhnum file) ≤ length)
    (sections : sectionHeader file (headerShnum file) ≤ length) :
    elfGetSizeBytes memory = elfGetSizeBytes file := by
  obtain ⟨-, phoff, shoff, phnum, shnum⟩ := (holds.mono first).header
  have program : ∀ i < headerPhnum file, programEnd memory i = programEnd file i := by
    intro i among
    have inside : programHeader file i + programHeaderSize ≤ length := by
      rw [programHeader, programHeaderSize] at *
      omega
    have start : programHeader memory i = programHeader file i := by
      rw [programHeader, phoff, programHeader]
    rw [programHeaderSize] at inside
    rw [programEnd, programEnd, start, holds.read (by omega), holds.read (by omega)]
  have type : ∀ i < headerShnum file,
      sectionType memory i = sectionType file i ∧ sectionEnd memory i = sectionEnd file i := by
    intro i among
    have inside : sectionHeader file i + sectionHeaderSize ≤ length := by
      rw [sectionHeader, sectionHeaderSize] at *
      omega
    have start : sectionHeader memory i = sectionHeader file i := by
      rw [sectionHeader, shoff, sectionHeader]
    rw [sectionHeaderSize] at inside
    rw [sectionType, sectionType, sectionEnd, sectionEnd, start, holds.read (by omega),
      holds.read (by omega), holds.read (by omega)]
    exact ⟨rfl, rfl⟩
  have highest : highestProgram memory = highestProgram file := by
    rw [highestProgram, highestProgram, phnum]
    refine List.foldl_ext _ _ _ fun ret i inside => ?_
    rw [program i (List.mem_range.mp inside)]
  rw [Loader.elfGetSizeBytes, Loader.elfGetSizeBytes, shnum, highest]
  refine List.foldl_ext _ _ _ fun ret i inside => ?_
  obtain ⟨sameType, sameEnd⟩ := type i (List.mem_range.mp inside)
  rw [sameType, sameEnd]

theorem Loadable.sectionHeaderEndBytes_eq (loadable : Loadable file) :
    sectionHeaderEndBytes file = (sectionHeader file (headerShnum file) + 511) / 512 * 512 := by
  have bound := loadable.sections
  rw [sectionHeader, sectionHeaderSize] at bound
  have sum : add64 (headerShoff file) (headerShnum file * sectionHeaderSize) % 2 ^ 32 =
      sectionHeader file (headerShnum file) := by
    rw [sectionHeader, sectionHeaderSize, Nat.mul_comm, add64_eq (by omega),
      Nat.mod_eq_of_lt (by omega)]
  have rounded : alignUp (sectionHeader file (headerShnum file)) sectorSizeBytes =
      (sectionHeader file (headerShnum file) + 511) / 512 * 512 := by
    have small : sectionHeader file (headerShnum file) + (2 ^ 9 - 1) < 2 ^ 64 := by
      rw [sectionHeader, sectionHeaderSize]
      omega
    exact alignUp_eq small (by decide)
  rw [sectionHeaderEndBytes, sum, rounded, sectionHeader, sectionHeaderSize]
  exact Nat.mod_eq_of_lt (by omega)

theorem Loadable.firstSectors_covers (loadable : Loadable file) :
    sectionHeaderEndBytes file ≤ sectorSizeBytes * firstSectors file := by
  have bound := loadable.sections
  rw [firstSectors, loadable.sectionHeaderEndBytes_eq, sectorSizeBytes, sectorShift]
  omega

end File

section Loading

variable {disk : ByteMemory}

theorem load1_holds (loadable : Loadable (fileBytes disk)) (machine : Machine) :
    ∃ after, load1 disk machine =
        (some ⟨sectionHeaderEndBytes (fileBytes disk),
          sectionHeaderEndBytes (fileBytes disk) / sectorSizeBytes % 2 ^ 16⟩, after) ∧
      Holds after.memory (fileBytes disk) (sectorSizeBytes * firstSectors (fileBytes disk)) := by
  have first : Holds (readSectorsLba48 disk 0 bootSectors 1 machine).memory (fileBytes disk)
      sectorSizeBytes := by
    intro offset inside
    rw [readSectorsLba48_memory _ _ _ _ (by decide), overwrite_inside (Nat.zero_le _) (by omega)]
    rfl
  obtain ⟨magic, phoff, shoff, -, -⟩ := first.header
  have unit : sectorSizeBytes = 512 := rfl
  obtain ⟨rest, counted⟩ : ∃ rest, firstSectors (fileBytes disk) = 1 + rest := ⟨_, rfl⟩
  refine ⟨readSectorsLba48 disk sectorSizeBytes (bootSectors + 1) rest
    (readSectorsLba48 disk 0 bootSectors 1 machine), ?_, ?_⟩
  · have same := Nat.add_left_cancel counted
    rw [load1]
    dsimp only
    rw [if_neg (by rw [magic, loadable.magic]; exact not_not_intro rfl),
      if_neg (by rw [phoff, shoff]; exact Nat.not_lt.mpr loadable.order), first.sectionHeaderEndBytes,
      same]
  · intro offset inside
    rw [counted, Nat.mul_add, Nat.mul_one] at inside
    rw [readSectorsLba48_memory _ _ _ _ (by decide)]
    by_cases early : offset < sectorSizeBytes
    · rw [overwrite_outside (.inl early)]
      exact first offset early
    · have sector : sectorSizeBytes * (bootSectors + 1) + (offset - sectorSizeBytes) =
          sectorSizeBytes * bootSectors + offset := by
        rw [Nat.mul_succ]
        omega
      rw [overwrite_inside (by omega) (by omega), sector]
      rfl

/-- The file is copied whole, and its size known, exactly where the first stage reads all of it. -/
theorem loadAtaPio_copies_iff (loadable : Loadable (fileBytes disk)) (machine : Machine) :
    ∃ size after, loadAtaPio disk machine = (some size, after) ∧
      (Holds after.memory (fileBytes disk) (elfGetSizeBytes (fileBytes disk)) ∧
          elfGetSizeBytes (fileBytes disk) ≤ size ↔
        elfGetSizeBytes (fileBytes disk) ≤
          (sectionHeader (fileBytes disk) (headerShnum (fileBytes disk)) + 511) / 512 * 512) := by
  obtain ⟨middle, loaded, holds⟩ := load1_holds loadable machine
  have bound := loadable.sections
  have covers := loadable.firstSectors_covers
  have rounded := loadable.sectionHeaderEndBytes_eq
  have first : sectorSizeBytes ≤ sectorSizeBytes * firstSectors (fileBytes disk) :=
    Nat.le_mul_of_pos_right _ (by rw [firstSectors]; omega)
  have size : elfGetSizeBytes middle.memory = elfGetSizeBytes (fileBytes disk) :=
    holds.elfGetSizeBytes first loadable.programs (by omega)
  have short : sectionHeaderEndBytes (fileBytes disk) < 2 ^ 32 := by omega
  refine ⟨sectionHeaderEndBytes (fileBytes disk) % 2 ^ 32, _, by rw [loadAtaPio, loaded], ?_⟩
  rw [Nat.mod_eq_of_lt short, rounded]
  refine ⟨fun copied => copied.2, fun small => ⟨?_, small⟩⟩
  rw [load2]
  dsimp only
  rw [if_neg (by rw [size]; exact Nat.not_lt.mpr small)]
  exact holds.mono (by omega)

/-- A disk with a file of one section, whose eight bytes start at this offset of the file, and whose
header begins the second sector. The boot sectors are full of ones, and the section of twos. -/
def sectionDisk (start : Nat) : ByteMemory := fun address =>
  if address < sectorSizeBytes * bootSectors then 1
  else
    let offset := address - sectorSizeBytes * bootSectors
    if start ≤ offset ∧ offset < start + 8 then 2
    else if offset < 4 then UInt8.ofNat (elfMagicNumber / 256 ^ offset)
    else if offset = 41 then 2
    else if offset = 60 then 1
    else if offset = 512 + 24 then UInt8.ofNat start
    else if offset = 512 + 25 then UInt8.ofNat (start / 256)
    else if offset = 512 + 32 then 8
    else 0

def blankMachine : Machine := ⟨⟨(0, 0), (0, 0), (0, 0), (0, 0), 0⟩, fun _ => 0⟩

/-- A section in the third sector is replaced by a boot sector, and the size does not count it. -/
theorem sectionDisk_not_copied :
    Loadable (fileBytes (sectionDisk 1024)) ∧
    elfGetSizeBytes (fileBytes (sectionDisk 1024)) = 1032 ∧
    (loadAtaPio (sectionDisk 1024) blankMachine).1 = some 1024 ∧
    (loadAtaPio (sectionDisk 1024) blankMachine).2.memory 1024 = 1 ∧
    fileBytes (sectionDisk 1024) 1024 = 2 ∧
    ¬Holds (loadAtaPio (sectionDisk 1024) blankMachine).2.memory (fileBytes (sectionDisk 1024))
      (elfGetSizeBytes (fileBytes (sectionDisk 1024))) := by
  have size : elfGetSizeBytes (fileBytes (sectionDisk 1024)) = 1032 := by decide +kernel
  have loaded : (loadAtaPio (sectionDisk 1024) blankMachine).2.memory 1024 = 1 := by decide +kernel
  have wanted : fileBytes (sectionDisk 1024) 1024 = 2 := by decide +kernel
  refine ⟨⟨by decide +kernel, by decide +kernel, by decide +kernel, by decide +kernel, by rw [size]; decide⟩,
    size, by decide +kernel, loaded, wanted, fun holds => ?_⟩
  have same := holds 1024 (by rw [size]; decide)
  rw [loaded, wanted] at same
  exact absurd same (by decide)

theorem sectionDisk_copied :
    elfGetSizeBytes (fileBytes (sectionDisk 640)) = 648 ∧
    ∃ size after, loadAtaPio (sectionDisk 640) blankMachine = (some size, after) ∧
      Holds after.memory (fileBytes (sectionDisk 640)) (elfGetSizeBytes (fileBytes (sectionDisk 640))) ∧
        elfGetSizeBytes (fileBytes (sectionDisk 640)) ≤ size := by
  have length : elfGetSizeBytes (fileBytes (sectionDisk 640)) = 648 := by decide +kernel
  have loadable : Loadable (fileBytes (sectionDisk 640)) :=
    ⟨by decide +kernel, by decide +kernel, by decide +kernel, by decide +kernel, by rw [length]; decide⟩
  obtain ⟨size, after, loaded, copies⟩ := loadAtaPio_copies_iff loadable blankMachine
  refine ⟨length, size, after, loaded, copies.mpr ?_⟩
  rw [length]
  decide +kernel

end Loading

end Zeptux.Loader
