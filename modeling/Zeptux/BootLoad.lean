import Zeptux.BootPages

/-!
`bios_load_kernel_elf` of `arch/x86_64/boot/boot2.S`: the kernel is read from disk in chunks
that do not leave a segment of 64 KiB. The extended read of the BIOS is a parameter, which
finds its request in the disk address packet at 0x500. The image that is read is put together
by `zeptux.zbuild`.
-/

namespace Zeptux.Boot

open ByteMemory Word

def sectorSize : Nat := 512
def biosKernelElfLoadPhysAddress : Nat := 0x7c00 + bootSectors * sectorSize
def segment0SectorsRemaining : Nat := (0x10000 - biosKernelElfLoadPhysAddress) >>> 9
def dapPhysAddress : Nat := 0x500
def kernelImageSizeMemAddress : Nat := biosKernelElfLoadPhysAddress - 4
def earlyBootInfoKernelElfSizeAddressPhys : Nat := 0x6000 + 24

inductive LoadStop
  | fault
  | outOfFuel
deriving DecidableEq, Repr

def movb (val address : Nat) (memory : ByteMemory) : ByteMemory := storeLittleEndian memory address 1 val

def movw (val address : Nat) (memory : ByteMemory) : ByteMemory := storeLittleEndian memory address 2 val

/-- `cmpw` and `jle` compare with the sign. -/
def signed16 (word : Nat) : Int := if word < 2 ^ 15 then word else (word : Int) - 2 ^ 16

def atMost (word limit : Nat) : Nat := if signed16 word ≤ limit then word else limit

/-- The packet of the next chunk: a segment on, and as many sectors further as were loaded. -/
def nextChunk (bx : Nat) (memory : ByteMemory) : ByteMemory :=
  let memory := movw 0 (dapPhysAddress + 4) memory
  let ax := (littleEndian memory (dapPhysAddress + 6) 2 + 0x1000) % 2 ^ 16
  let memory := movw ax (dapPhysAddress + 6) memory
  let eax := littleEndian memory (dapPhysAddress + 8) 4
  -- The addition is one of 16 bits, and the upper half of `%eax` stays.
  let eax := eax / 2 ^ 16 * 2 ^ 16 + (eax + bx) % 2 ^ 16
  movl eax (dapPhysAddress + 8) memory

section Bios

variable (int13 : ByteMemory → Option ByteMemory)

def biosLoadKernelElfLoop : Nat → Nat → Nat → ByteMemory → Except LoadStop ByteMemory
  | 0, _, _, _ => .error .outOfFuel
  | fuel + 1, cx, bx, memory =>
      match int13 (movw bx (dapPhysAddress + 2) memory) with
      | none => .error .fault
      | some memory =>
          let cx := (cx + (2 ^ 16 - bx)) % 2 ^ 16
          if cx = 0 then .ok memory
          else biosLoadKernelElfLoop fuel cx (atMost cx 128) (nextChunk bx memory)

def biosLoadKernelElf (fuel : Nat) (memory : ByteMemory) : Except LoadStop ByteMemory := do
  let ecx := littleEndian memory kernelImageSizeMemAddress 4 >>> 9
  let cx := (ecx + 1) % 2 ^ 16
  let memory := movb 0x10 dapPhysAddress memory
  let memory := movb 0 (dapPhysAddress + 1) memory
  let memory := movw biosKernelElfLoadPhysAddress (dapPhysAddress + 4) memory
  let memory := movw 0 (dapPhysAddress + 6) memory
  let memory := movl (stage2Sectors + 1) (dapPhysAddress + 8) memory
  let memory := movl 0 (dapPhysAddress + 12) memory
  let bx := atMost cx segment0SectorsRemaining
  let memory ← biosLoadKernelElfLoop int13 fuel cx bx memory
  return movl (littleEndian memory kernelImageSizeMemAddress 4) earlyBootInfoKernelElfSizeAddressPhys
    memory

end Bios

/-! ## Requests -/

structure Request where
  count : Nat
  offset : Nat
  segment : Nat
  lba : Nat
deriving DecidableEq, Repr

def Request.target (request : Request) : Nat := 16 * request.segment + request.offset

def requestIn (memory : ByteMemory) : Request where
  count := littleEndian memory (dapPhysAddress + 2) 2
  offset := littleEndian memory (dapPhysAddress + 4) 2
  segment := littleEndian memory (dapPhysAddress + 6) 2
  lba := littleEndian memory (dapPhysAddress + 8) 8

/-- The end of the memory that the image may fill: the stack of the kernel lies above. -/
def loadLimit : Nat := 0x80000 - 0x4000

/-- A request that any BIOS serves: not empty, of at most 128 sectors, inside one segment and
below the stack, and of sectors that are on the disk. -/
structure Request.Modest (request : Request) (diskSize : Nat) : Prop where
  notEmpty : 0 < request.count
  few : request.count ≤ 128
  inSegment : request.offset + sectorSize * request.count ≤ 0x10000
  above : biosKernelElfLoadPhysAddress ≤ request.target
  below : request.target + sectorSize * request.count ≤ loadLimit
  onDisk : sectorSize * (request.lba + request.count) ≤ diskSize

/-- The BIOS copies what it is asked for, as long as the requests are modest. -/
def Serves (int13 : ByteMemory → Option ByteMemory) (disk : ByteMemory) (diskSize : Nat) : Prop :=
  ∀ memory, (requestIn memory).Modest diskSize →
    int13 memory = some (overwrite memory (requestIn memory).target
      (sectorSize * (requestIn memory).count)
      fun offset => disk (sectorSize * (requestIn memory).lba + offset))

structure Packet (memory : ByteMemory) (offset segment lba : Nat) : Prop where
  offset : littleEndian memory 0x504 2 = offset
  segment : littleEndian memory 0x506 2 = segment
  lba : littleEndian memory 0x508 4 = lba
  lbaHigh : littleEndian memory 0x50c 4 = 0

section Packet

variable {memory : ByteMemory} {offset segment lba val : Nat}

theorem Packet.congr {other : ByteMemory} (packet : Packet memory offset segment lba)
    (same : ∀ address, 0x504 ≤ address → address < 0x510 → other address = memory address) :
    Packet other offset segment lba := by
  have read : ∀ index count, 0x504 ≤ index → index + count ≤ 0x510 →
      littleEndian other index count = littleEndian memory index count :=
    fun index count lower upper =>
      littleEndian_congr fun offset inside => same _ (by omega) (by omega)
  refine ⟨?_, ?_, ?_, ?_⟩
  · rw [read _ _ (by decide) (by decide), packet.offset]
  · rw [read _ _ (by decide) (by decide), packet.segment]
  · rw [read _ _ (by decide) (by decide), packet.lba]
  · rw [read _ _ (by decide) (by decide), packet.lbaHigh]

theorem Packet.setCount (packet : Packet memory offset segment lba) :
    Packet (movw val (dapPhysAddress + 2) memory) offset segment lba := by
  refine packet.congr fun address lower upper => ?_
  rw [movw, storeLittleEndian, overwrite_outside (by simp only [dapPhysAddress]; omega)]

theorem Packet.request (packet : Packet memory offset segment lba) {bx : Nat} (small : bx < 2 ^ 16) :
    requestIn (movw bx (dapPhysAddress + 2) memory) = ⟨bx, offset, segment, lba⟩ := by
  have kept : Packet (movw bx (dapPhysAddress + 2) memory) offset segment lba := packet.setCount
  have count : littleEndian (movw bx (dapPhysAddress + 2) memory) (dapPhysAddress + 2) 2 = bx := by
    rw [movw, littleEndian_stored]
    omega
  have whole : littleEndian (movw bx (dapPhysAddress + 2) memory) 0x508 8 = lba := by
    rw [littleEndian_add _ _ 4 4, kept.lba, kept.lbaHigh, Nat.mul_zero, Nat.add_zero]
  rw [requestIn, count]
  simp only [dapPhysAddress, Nat.reduceAdd, Request.mk.injEq, true_and] at *
  exact ⟨kept.offset, kept.segment, whole⟩

theorem Packet.setOffset (packet : Packet memory offset segment lba) (small : val < 2 ^ 16) :
    Packet (movw val (dapPhysAddress + 4) memory) val segment lba := by
  simp only [dapPhysAddress, movw, Nat.reduceAdd]
  refine ⟨?_, ?_, ?_, ?_⟩
  · rw [littleEndian_stored]
    omega
  · rw [littleEndian_elsewhere (by omega), packet.segment]
  · rw [littleEndian_elsewhere (by omega), packet.lba]
  · rw [littleEndian_elsewhere (by omega), packet.lbaHigh]

theorem Packet.setSegment (packet : Packet memory offset segment lba) (small : val < 2 ^ 16) :
    Packet (movw val (dapPhysAddress + 6) memory) offset val lba := by
  simp only [dapPhysAddress, movw, Nat.reduceAdd]
  refine ⟨?_, ?_, ?_, ?_⟩
  · rw [littleEndian_elsewhere (by omega), packet.offset]
  · rw [littleEndian_stored]
    omega
  · rw [littleEndian_elsewhere (by omega), packet.lba]
  · rw [littleEndian_elsewhere (by omega), packet.lbaHigh]

theorem Packet.setLba (packet : Packet memory offset segment lba) (small : val < 2 ^ 32) :
    Packet (movl val (dapPhysAddress + 8) memory) offset segment val := by
  simp only [dapPhysAddress, movl, Nat.reduceAdd]
  refine ⟨?_, ?_, ?_, ?_⟩
  · rw [littleEndian_elsewhere (by omega), packet.offset]
  · rw [littleEndian_elsewhere (by omega), packet.segment]
  · rw [littleEndian_stored]
    omega
  · rw [littleEndian_elsewhere (by omega), packet.lbaHigh]

theorem Packet.next (packet : Packet memory offset segment lba) {bx : Nat}
    (segmentSmall : segment + 0x1000 < 2 ^ 16) (lbaSmall : lba + bx < 2 ^ 16) :
    Packet (nextChunk bx memory) 0 (segment + 0x1000) (lba + bx) := by
  have first : Packet (movw 0 (dapPhysAddress + 4) memory) 0 segment lba :=
    packet.setOffset (by decide)
  have segmentRead : (littleEndian (movw 0 (dapPhysAddress + 4) memory) (dapPhysAddress + 6) 2 +
      0x1000) % 2 ^ 16 = segment + 0x1000 := by
    simp only [dapPhysAddress, Nat.reduceAdd] at first ⊢
    rw [first.segment, Nat.mod_eq_of_lt segmentSmall]
  have second : Packet (movw (segment + 0x1000) (dapPhysAddress + 6)
      (movw 0 (dapPhysAddress + 4) memory)) 0 (segment + 0x1000) lba := first.setSegment segmentSmall
  have lbaRead : littleEndian (movw (segment + 0x1000) (dapPhysAddress + 6)
      (movw 0 (dapPhysAddress + 4) memory)) (dapPhysAddress + 8) 4 = lba := by
    simp only [dapPhysAddress, Nat.reduceAdd] at second ⊢
    exact second.lba
  have sum : lba / 2 ^ 16 * 2 ^ 16 + (lba + bx) % 2 ^ 16 = lba + bx := by omega
  rw [nextChunk, segmentRead, lbaRead, sum]
  exact second.setLba (by omega)

theorem nextChunk_outside {bx address : Nat} (outside : ¬(0x500 ≤ address ∧ address < 0x510)) :
    nextChunk bx memory address = memory address := by
  simp only [nextChunk, movl, movw, storeLittleEndian, dapPhysAddress]
  rw [overwrite_outside (by omega), overwrite_outside (by omega), overwrite_outside (by omega)]

end Packet

theorem atMost_eq {word limit : Nat} (small : word < 2 ^ 15) : atMost word limit = min word limit := by
  rw [atMost, signed16, if_pos small]
  split <;> omega

/-- `loaded` sectors of the image are in memory, and beside them only the packet was written. -/
structure Progress (disk start : ByteMemory) (loaded : Nat) (memory : ByteMemory) : Prop where
  image : ∀ index < sectorSize * loaded,
    memory (biosKernelElfLoadPhysAddress + index) = disk (sectorSize * bootSectors + index)
  framed : ∀ address, ¬(0x500 ≤ address ∧ address < 0x510) →
    ¬(biosKernelElfLoadPhysAddress ≤ address ∧
      address < biosKernelElfLoadPhysAddress + sectorSize * loaded) → memory address = start address

section Loop

variable {int13 : ByteMemory → Option ByteMemory} {disk start memory : ByteMemory}
  {diskSize total loaded cx bx room offset segment fuel : Nat}

theorem Progress.packet (progress : Progress disk start loaded memory) {other : ByteMemory}
    (same : ∀ address, ¬(0x500 ≤ address ∧ address < 0x510) → other address = memory address) :
    Progress disk start loaded other := by
  refine ⟨fun index inside => ?_, fun address notPacket notImage => ?_⟩
  · rw [same _ (by simp only [biosKernelElfLoadPhysAddress, bootSectors, stage2Sectors,
      sectorSize]; omega)]
    exact progress.image index inside
  · rw [same _ notPacket]
    exact progress.framed address notPacket notImage

theorem Progress.read (progress : Progress disk start loaded memory) (count : Nat) :
    Progress disk start (loaded + count) (overwrite memory
      (biosKernelElfLoadPhysAddress + sectorSize * loaded) (sectorSize * count)
      fun index => disk (sectorSize * (bootSectors + loaded) + index)) := by
  refine ⟨fun index inside => ?_, fun address notPacket notImage => ?_⟩
  · rw [Nat.mul_add] at inside
    by_cases new : sectorSize * loaded ≤ index
    · rw [overwrite_inside (by omega) (by omega), Nat.mul_add]
      congr 1
      omega
    · rw [overwrite_outside (by omega)]
      exact progress.image index (by omega)
  · rw [Nat.mul_add] at notImage
    rw [overwrite_outside (by omega)]
    exact progress.framed address notPacket (by omega)

theorem request_served (serves : Serves int13 disk diskSize) (limit : loaded + bx ≤ 924)
    (onDisk : sectorSize * (bootSectors + (loaded + bx)) ≤ diskSize)
    (packet : Packet memory offset segment (bootSectors + loaded))
    (progress : Progress disk start loaded memory)
    (place : 16 * segment + offset = biosKernelElfLoadPhysAddress + sectorSize * loaded)
    (fits : offset + sectorSize * bx ≤ 0x10000) (some : 0 < bx) (few : bx ≤ 128) :
    ∃ read, int13 (movw bx (dapPhysAddress + 2) memory) = .some read ∧
      Progress disk start (loaded + bx) read ∧
      Packet read offset segment (bootSectors + loaded) := by
  have request : requestIn (movw bx (dapPhysAddress + 2) memory) = _ := packet.request (by omega)
  have modest : (requestIn (movw bx (dapPhysAddress + 2) memory)).Modest diskSize := by
    rw [request]
    simp only [biosKernelElfLoadPhysAddress, bootSectors, stage2Sectors, sectorSize] at *
    refine ⟨some, few, fits, ?_, ?_, ?_⟩ <;>
      simp only [Request.target, loadLimit, biosKernelElfLoadPhysAddress, bootSectors,
        stage2Sectors, sectorSize] <;> omega
  have served := serves _ modest
  rw [request, Request.target, place] at served
  refine ⟨_, served, (progress.packet fun address outside => ?_).read bx, ?_⟩
  · rw [movw, storeLittleEndian, overwrite_outside (by simp only [dapPhysAddress]; omega)]
  · have counted : Packet (movw bx (dapPhysAddress + 2) memory) offset segment _ := packet.setCount
    refine counted.congr fun address lower upper => ?_
    rw [overwrite_outside]
    simp only [biosKernelElfLoadPhysAddress]
    omega

/-- The invariant of the loop: where the next chunk goes, and that a chunk which does not end the
image fills its segment. -/
theorem loop_loads (serves : Serves int13 disk diskSize) (limit : total ≤ 924)
    (onDisk : sectorSize * (bootSectors + total) ≤ diskSize)
    (packet : Packet memory offset segment (bootSectors + loaded))
    (progress : Progress disk start loaded memory)
    (place : 16 * segment + offset = biosKernelElfLoadPhysAddress + sectorSize * loaded)
    (fits : offset + sectorSize * room = 0x10000) (roomy : 0 < room) (few : room ≤ 128)
    (notEmpty : 0 < cx) (sum : loaded + cx = total) (chunk : bx = min cx room)
    (enough : cx ≤ fuel) :
    ∃ after, biosLoadKernelElfLoop int13 fuel cx bx memory = .ok after ∧
      Progress disk start total after := by
  induction fuel generalizing cx bx room offset segment loaded memory with
  | zero => omega
  | succ fuel ih =>
      have linear : 16 * segment + offset = 0x8600 + 512 * loaded ∧ offset + 512 * room = 0x10000 ∧
          512 * (5 + total) ≤ diskSize := ⟨place, fits, onDisk⟩
      have part : sectorSize * (bootSectors + (loaded + bx)) ≤ diskSize := by
        simp only [sectorSize, bootSectors, stage2Sectors]
        omega
      have inside : offset + sectorSize * bx ≤ 0x10000 := by
        simp only [sectorSize]
        omega
      obtain ⟨read, served, progressed, packed⟩ :=
        request_served serves (by omega) part packet progress place inside (by omega) (by omega)
      simp only [biosLoadKernelElfLoop, served]
      by_cases last : cx = bx
      · rw [if_pos (by omega)]
        exact ⟨read, rfl, by rwa [← sum, last]⟩
      · have left : (cx + (2 ^ 16 - bx)) % 2 ^ 16 = cx - bx := by omega
        have next : Packet (nextChunk bx read) 0 (segment + 0x1000) (bootSectors + (loaded + bx)) := by
          rw [← Nat.add_assoc]
          refine packed.next (by omega) ?_
          simp only [bootSectors, stage2Sectors]
          omega
        have nextPlace : 16 * (segment + 0x1000) + 0 =
            biosKernelElfLoadPhysAddress + sectorSize * (loaded + bx) := by
          simp only [biosKernelElfLoadPhysAddress, bootSectors, stage2Sectors, sectorSize]
          omega
        rw [left, if_neg (by omega)]
        exact ih next (progressed.packet fun address => nextChunk_outside) nextPlace rfl
          (by decide : 0 < 128) (by decide) (by omega) (by omega) (atMost_eq (by omega)) (by omega)

end Loop

/-! ## The image -/

/-- `truncate -s`, which makes a file shorter or fills it up. -/
def truncate (size : Nat) (file : List UInt8) : List UInt8 :=
  file.take size ++ List.replicate (size - file.length) 0

/-- `patch_bin_int.py`; the number has to fit in 32 bits. -/
def patchBinInt (offset val : Nat) (file : List UInt8) : Option (List UInt8) :=
  if val < 2 ^ 32 then
    some (truncate offset file ++ (List.range 4).map (fun digit => UInt8.ofNat (val / 256 ^ digit)) ++
      file.drop (offset + 4))
  else none

def elfSizeOffset : Nat := 2556
def maxKernelElfSize : Nat := 473088

/-- The steps that build `zeptux.img`, and the check on the size of `kernel.elf` before them. -/
def zeptuxImg (bootBin kernelElf : List UInt8) : Option (List UInt8) :=
  if kernelElf.length < maxKernelElfSize then
    let image := truncate (bootSectors * sectorSize) bootBin ++ kernelElf
    patchBinInt elfSizeOffset kernelElf.length (image ++ List.replicate 512 0)
  else none

def diskOf (image : List UInt8) : ByteMemory := fun address => image.getD address 0

theorem truncate_length (size : Nat) (file : List UInt8) : (truncate size file).length = size := by
  rw [truncate, List.length_append, List.length_take, List.length_replicate]
  omega

section Image

variable {bootBin kernelElf image : List UInt8}

theorem zeptuxImg_eq (built : zeptuxImg bootBin kernelElf = some image) :
    kernelElf.length < maxKernelElfSize ∧ ∃ head : List UInt8, head.length = elfSizeOffset ∧
      image = head ++ (List.range 4).map (fun digit => UInt8.ofNat (kernelElf.length / 256 ^ digit)) ++
        kernelElf ++ List.replicate 512 0 := by
  unfold zeptuxImg patchBinInt at built
  split at built
  · rename_i small
    dsimp only at built
    split at built
    · cases built
      refine ⟨small, truncate elfSizeOffset (truncate (bootSectors * sectorSize) bootBin ++
        kernelElf ++ List.replicate 512 0), truncate_length _ _, ?_⟩
      have tail : (truncate (bootSectors * sectorSize) bootBin).drop (elfSizeOffset + 4) = [] := by
        apply List.drop_eq_nil_of_le
        rw [truncate_length]
        decide
      have long : elfSizeOffset + 4 = (truncate (bootSectors * sectorSize) bootBin).length := by
        rw [truncate_length]
        rfl
      rw [List.append_assoc (truncate _ _) kernelElf, long, List.drop_left]
      simp only [List.append_assoc]
    · cases built
  · cases built

theorem zeptuxImg_built (small : kernelElf.length < maxKernelElfSize) :
    ∃ image, zeptuxImg bootBin kernelElf = some image := by
  have fits : kernelElf.length < 2 ^ 32 := by
    rw [maxKernelElfSize] at small
    omega
  rw [zeptuxImg, if_pos small, patchBinInt, if_pos fits]
  exact ⟨_, rfl⟩

theorem zeptuxImg_disk (built : zeptuxImg bootBin kernelElf = some image) :
    kernelElf.length < maxKernelElfSize ∧
      image.length = bootSectors * sectorSize + kernelElf.length + 512 ∧
      (∀ index (inside : index < kernelElf.length),
        diskOf image (sectorSize * bootSectors + index) = kernelElf[index]) ∧
      littleEndian (diskOf image) elfSizeOffset 4 = kernelElf.length := by
  obtain ⟨small, head, length, rfl⟩ := zeptuxImg_eq built
  have digits : (head ++ (List.range 4).map fun digit =>
      UInt8.ofNat (kernelElf.length / 256 ^ digit)).length = sectorSize * bootSectors := by
    rw [List.length_append, length, List.length_map, List.length_range]
    rfl
  refine ⟨small, ?_, fun index inside => ?_, ?_⟩
  · rw [List.length_append, List.length_append, digits, List.length_replicate]
    rfl
  · rw [diskOf, List.getD_eq_getElem?_getD, List.append_assoc, ← digits,
      List.getElem?_append_right (Nat.le_add_right _ _), Nat.add_sub_cancel_left,
      List.getElem?_append_left inside, List.getElem?_eq_getElem inside, Option.getD_some]
  · have patched : littleEndian (diskOf (head ++ (List.range 4).map (fun digit =>
        UInt8.ofNat (kernelElf.length / 256 ^ digit)) ++ kernelElf ++ List.replicate 512 0))
        elfSizeOffset 4 = kernelElf.length % 256 ^ 4 := by
      refine littleEndian_of_digits fun offset below => ?_
      have inRange : offset < (List.range 4).length := by simpa using below
      rw [diskOf, List.getD_eq_getElem?_getD, List.append_assoc, List.append_assoc, ← length,
        List.getElem?_append_right (Nat.le_add_right _ _), Nat.add_sub_cancel_left,
        List.getElem?_append_left (by simpa using below), List.getElem?_map,
        List.getElem?_eq_getElem inRange, List.getElem_range]
      rfl
    rw [patched, Nat.mod_eq_of_lt]
    simp only [maxKernelElfSize] at small
    omega

end Image

def sectorsOf (size : Nat) : Nat := size / 512 + 1

theorem first_packet {disk memory other : ByteMemory}
    (same : other = movl 0 (dapPhysAddress + 12) (movl (stage2Sectors + 1) (dapPhysAddress + 8)
      (movw 0 (dapPhysAddress + 6) (movw biosKernelElfLoadPhysAddress (dapPhysAddress + 4)
        (movb 0 (dapPhysAddress + 1) (movb 0x10 dapPhysAddress memory)))))) :
    Packet other biosKernelElfLoadPhysAddress 0 (bootSectors + 0) ∧ Progress disk memory 0 other := by
  subst same
  constructor
  · simp only [movl, movw, dapPhysAddress]
    refine ⟨?_, ?_, ?_, ?_⟩
    · rw [littleEndian_elsewhere (by omega), littleEndian_elsewhere (by omega),
        littleEndian_elsewhere (by omega), littleEndian_stored]
      rfl
    · rw [littleEndian_elsewhere (by omega), littleEndian_elsewhere (by omega), littleEndian_stored]
      rfl
    · rw [littleEndian_elsewhere (by omega), littleEndian_stored]
      rfl
    · rw [littleEndian_stored]
      rfl
  · refine ⟨fun index inside => absurd inside (by omega), fun address outside _ => ?_⟩
    simp only [movl, movw, movb, storeLittleEndian, dapPhysAddress]
    rw [overwrite_outside (by omega), overwrite_outside (by omega), overwrite_outside (by omega),
      overwrite_outside (by omega), overwrite_outside (by omega), overwrite_outside (by omega)]

theorem biosLoadKernelElf_loads {int13 : ByteMemory → Option ByteMemory} {disk memory : ByteMemory}
    {diskSize size fuel : Nat} (serves : Serves int13 disk diskSize)
    (field : littleEndian memory kernelImageSizeMemAddress 4 = size) (small : size < maxKernelElfSize)
    (onDisk : sectorSize * (bootSectors + sectorsOf size) ≤ diskSize) (enough : 924 ≤ fuel) :
    ∃ after, biosLoadKernelElf int13 fuel memory =
        .ok (movl size earlyBootInfoKernelElfSizeAddressPhys after) ∧
      Progress disk memory (sectorsOf size) after := by
  rw [maxKernelElfSize] at small
  have sectors : (size >>> 9 + 1) % 2 ^ 16 = sectorsOf size := by
    rw [Nat.shiftRight_eq_div_pow, sectorsOf]
    omega
  have few : sectorsOf size ≤ 924 := by
    rw [sectorsOf]
    omega
  have notEmpty : 0 < sectorsOf size := Nat.succ_pos _
  obtain ⟨first, same⟩ : ∃ first, first = movl 0 (dapPhysAddress + 12)
      (movl (stage2Sectors + 1) (dapPhysAddress + 8) (movw 0 (dapPhysAddress + 6)
        (movw biosKernelElfLoadPhysAddress (dapPhysAddress + 4)
          (movb 0 (dapPhysAddress + 1) (movb 0x10 dapPhysAddress memory))))) := ⟨_, rfl⟩
  obtain ⟨packet, progress⟩ : Packet first _ _ _ ∧ Progress disk memory 0 first :=
    first_packet same
  obtain ⟨after, loaded, progressed⟩ := loop_loads serves few onDisk packet progress rfl
    (rfl : biosKernelElfLoadPhysAddress + sectorSize * segment0SectorsRemaining = 0x10000)
    (by decide) (by decide) notEmpty (Nat.zero_add _) (atMost_eq (by omega)) (by omega : _ ≤ fuel)
  refine ⟨after, ?_, progressed⟩
  have kept : littleEndian after kernelImageSizeMemAddress 4 = size := by
    rw [← field]
    refine littleEndian_congr fun offset below => progressed.framed _ ?_ ?_ <;>
      simp only [kernelImageSizeMemAddress, biosKernelElfLoadPhysAddress, bootSectors,
        stage2Sectors, sectorSize] <;> omega
  simp only [biosLoadKernelElf]
  rw [field, sectors, ← same, loaded]
  change Except.ok (movl _ _ _) = _
  rw [kept]

/-- The image that the build puts together is the one that the boot loader reads: the file is in
memory whole, its size is known, and neither the stack nor anything else is touched. -/
theorem image_loads {bootBin kernelElf image : List UInt8}
    (built : zeptuxImg bootBin kernelElf = some image) {int13 : ByteMemory → Option ByteMemory}
    (serves : Serves int13 (diskOf image) image.length) {memory : ByteMemory}
    (bootCode : ∀ offset < sectorSize * bootSectors, memory (0x7c00 + offset) = diskOf image offset)
    {fuel : Nat} (enough : 924 ≤ fuel) :
    ∃ after, biosLoadKernelElf int13 fuel memory = .ok after ∧
      (∀ index (inside : index < kernelElf.length),
        after (biosKernelElfLoadPhysAddress + index) = kernelElf[index]) ∧
      littleEndian after earlyBootInfoKernelElfSizeAddressPhys 4 = kernelElf.length ∧
      ∀ address, ¬(0x500 ≤ address ∧ address < 0x510) → ¬(0x6018 ≤ address ∧ address < 0x601c) →
        ¬(biosKernelElfLoadPhysAddress ≤ address ∧ address < loadLimit) →
        after address = memory address := by
  obtain ⟨small, length, file, patched⟩ := zeptuxImg_disk built
  have field : littleEndian memory kernelImageSizeMemAddress 4 = kernelElf.length := by
    rw [← patched]
    have place : kernelImageSizeMemAddress = 0x7c00 + elfSizeOffset := rfl
    refine littleEndian_of_shift fun offset below => ?_
    rw [place, Nat.add_assoc]
    refine bootCode (elfSizeOffset + offset) ?_
    simp only [elfSizeOffset, bootSectors, stage2Sectors, sectorSize]
    omega
  have onDisk : sectorSize * (bootSectors + sectorsOf kernelElf.length) ≤ image.length := by
    rw [length, sectorsOf]
    simp only [sectorSize, bootSectors, stage2Sectors]
    omega
  obtain ⟨after, loaded, progress⟩ := biosLoadKernelElf_loads serves field small onDisk enough
  rw [maxKernelElfSize] at small
  have covered : kernelElf.length < sectorSize * sectorsOf kernelElf.length ∧
      sectorSize * sectorsOf kernelElf.length ≤ 0x73a00 := by
    rw [sectorsOf, sectorSize]
    omega
  refine ⟨_, loaded, fun index inside => ?_, ?_, fun address notPacket notField notImage => ?_⟩
  · rw [← file index inside, ← progress.image index (by omega), movl, storeLittleEndian,
      overwrite_outside]
    simp only [earlyBootInfoKernelElfSizeAddressPhys, biosKernelElfLoadPhysAddress]
    omega
  · rw [movl, littleEndian_stored]
    omega
  · rw [movl, storeLittleEndian, overwrite_outside, progress.framed address notPacket]
    · have limit : biosKernelElfLoadPhysAddress + 0x73a00 = loadLimit := rfl
      omega
    · simp only [earlyBootInfoKernelElfSizeAddressPhys]
      omega

def servingBios (disk memory : ByteMemory) : Option ByteMemory :=
  some (overwrite memory (requestIn memory).target (sectorSize * (requestIn memory).count)
    fun offset => disk (sectorSize * (requestIn memory).lba + offset))

theorem servingBios_serves (disk : ByteMemory) (diskSize : Nat) :
    Serves (servingBios disk) disk diskSize := fun memory _ => by
  rw [servingBios]

end Zeptux.Boot
