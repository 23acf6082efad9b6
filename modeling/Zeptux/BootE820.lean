import Zeptux.BootElf
import Zeptux.E820

/-!
`get_e820` of `arch/x86_64/boot/boot2.S`, which asks the BIOS for the memory map one entry at a
time and leaves it in the early boot info, and then stage 2 of the boot loader as a whole: from
the disk image to the entry of the kernel. The two services of the BIOS are parameters.
-/

namespace Zeptux.Boot

open X86Paging ByteMemory VirtualMemory Word
open Early (E820Entry BootInfo kernelElfAddress earlyPgd)

def earlyBootInfoAddressPhys : Nat := 0x6000
def earlyBootInfoApicBaseAddressPhys : Nat := earlyBootInfoAddressPhys + 16
def earlyBootInfoE820EntryCountAddressPhys : Nat := earlyBootInfoAddressPhys + 28
def earlyBootInfoE820EntryArrayAddressPhys : Nat := earlyBootInfoAddressPhys + 32

structure Reply where
  carry : Bool
  eax : Nat
  ebx : Nat
  ecx : Nat
  edx : Nat
  memory : ByteMemory

inductive E820Stop
  | unsupported
  | callFailed
  | unexpectedLength
  | outOfFuel
deriving DecidableEq, Repr

/-- Empty entries are skipped; an entry that is kept moves `%di` and counts in `%bp`. -/
def takeEntry (reply : Reply) (di bp : Nat) : Except E820Stop (Nat × Nat) :=
  if reply.ecx % 2 ^ 16 = 0 then .ok (di, bp)
  else if reply.ecx % 2 ^ 8 ≠ 20 then .error .unexpectedLength
  else if littleEndian reply.memory ((di + 8) % 2 ^ 16) 4 |||
      littleEndian reply.memory ((di + 12) % 2 ^ 16) 4 = 0 then .ok (di, bp)
  else .ok ((di + 20) % 2 ^ 16, (bp + 1) % 2 ^ 16)

section Bios

variable (int15 : Nat → Nat → ByteMemory → Reply)

def getE820Loop : Nat → Nat → Nat → Nat → ByteMemory → Except E820Stop (Nat × ByteMemory)
  | 0, _, _, _, _ => .error .outOfFuel
  | fuel + 1, ebx, di, bp, memory =>
      let reply := int15 ebx di memory
      -- With the carry flag the call before was the last one.
      if reply.carry then .ok (bp, reply.memory)
      else
        match takeEntry reply di bp with
        | .error stop => .error stop
        | .ok (di, bp) =>
            if reply.ebx = 0 then .ok (bp, reply.memory)
            else getE820Loop fuel reply.ebx di bp reply.memory

def getE820 (fuel : Nat) (memory : ByteMemory) : Except E820Stop ByteMemory :=
  let reply := int15 0 earlyBootInfoE820EntryArrayAddressPhys memory
  if reply.carry then .error .unsupported
  else if reply.eax ≠ reply.edx then .error .callFailed
  else
    match getE820Loop int15 fuel 0 earlyBootInfoE820EntryArrayAddressPhys 0 reply.memory with
    | .error stop => .error stop
    | .ok (bp, memory) =>
        let memory := movw bp earlyBootInfoE820EntryCountAddressPhys memory
        .ok (movw 0 (earlyBootInfoE820EntryCountAddressPhys + 2) memory)

end Bios

/-! ## What the kernel reads -/

def entryIn (memory : ByteMemory) (address : Nat) : E820Entry where
  base := littleEndian memory address 8
  size := littleEndian memory (address + 8) 8
  type := littleEndian memory (address + 16) 4

def bootInfoIn (memory : ByteMemory) : BootInfo where
  totalAvailRamBytes := littleEndian memory earlyBootInfoAddressPhys 8
  numRamSpans := littleEndian memory (earlyBootInfoAddressPhys + 8) 8
  kernelElfSizeBytes := littleEndian memory earlyBootInfoKernelElfSizeAddressPhys 4
  numE820Entries := littleEndian memory earlyBootInfoE820EntryCountAddressPhys 4
  e820Entries := fun index => entryIn memory (earlyBootInfoE820EntryArrayAddressPhys + 20 * index)

/-! ## The firmware -/

/-- A call that gives this entry, or none, and writes nothing but the entry. -/
structure Reply.Gives (reply : Reply) (di : Nat) (memory : ByteMemory) (answer : Option E820Entry) :
    Prop where
  noCarry : reply.carry = false
  known : reply.eax = reply.edx
  length : reply.ecx % 2 ^ 16 = if answer.isSome then 20 else 0
  entry : ∀ entry, answer = some entry → entryIn reply.memory di = entry
  framed : ∀ address, ¬(di ≤ address ∧ address < di + 20) → reply.memory address = memory address

/-- From the call with this `%ebx` on, the firmware gives these answers. It says that there are no
more with `%ebx`, or with the carry flag of one more call. -/
inductive Enumerates (int15 : Nat → Nat → ByteMemory → Reply) : Nat → List (Option E820Entry) → Prop
  | done {ebx : Nat} :
      (∀ di memory, di + 20 ≤ 2 ^ 16 → (int15 ebx di memory).carry = true ∧
        ∀ address, ¬(di ≤ address ∧ address < di + 20) →
          (int15 ebx di memory).memory address = memory address) →
      Enumerates int15 ebx []
  | last {ebx : Nat} {answer : Option E820Entry} :
      (∀ di memory, di + 20 ≤ 2 ^ 16 → (int15 ebx di memory).Gives di memory answer ∧
        (int15 ebx di memory).ebx = 0) →
      Enumerates int15 ebx [answer]
  | more {ebx next : Nat} {answer : Option E820Entry} {rest : List (Option E820Entry)} :
      (∀ di memory, di + 20 ≤ 2 ^ 16 → (int15 ebx di memory).Gives di memory answer ∧
        (int15 ebx di memory).ebx = next) →
      next ≠ 0 → Enumerates int15 next rest → Enumerates int15 ebx (answer :: rest)

def stored (answers : List (Option E820Entry)) : List E820Entry :=
  (answers.filterMap id).filter fun entry => entry.size ≠ 0

@[simp] theorem stored_nil : stored [] = [] := rfl

@[simp] theorem stored_none (rest : List (Option E820Entry)) : stored (none :: rest) = stored rest :=
  rfl

theorem stored_some (entry : E820Entry) (rest : List (Option E820Entry)) :
    stored (some entry :: rest) = if entry.size = 0 then stored rest else entry :: stored rest := by
  by_cases empty : entry.size = 0 <;> simp [stored, empty]

theorem stored_cons (answer : Option E820Entry) (rest : List (Option E820Entry)) :
    stored (answer :: rest) = stored [answer] ++ stored rest := by
  cases answer with
  | none => rfl
  | some entry =>
      rw [stored_some, stored_some, stored_nil]
      split <;> rfl

/-! ## The loop -/

theorem entryIn_congr {memory other : ByteMemory} {address : Nat}
    (same : ∀ offset < 20, other (address + offset) = memory (address + offset)) :
    entryIn other address = entryIn memory address := by
  have field {offset count : Nat} (inside : offset + count ≤ 20) :
      littleEndian other (address + offset) count = littleEndian memory (address + offset) count :=
    littleEndian_congr fun index below => by
      rw [Nat.add_assoc]
      exact same _ (by omega)
  rw [entryIn, entryIn, field (by decide : 8 + 8 ≤ 20), field (by decide : 16 + 4 ≤ 20)]
  have first := field (by decide : 0 + 8 ≤ 20)
  rw [Nat.add_zero] at first
  rw [first]

theorem size_zero_iff (memory : ByteMemory) (address : Nat) :
    littleEndian memory (address + 8) 4 ||| littleEndian memory (address + 12) 4 = 0 ↔
      (entryIn memory address).size = 0 := by
  have split : (entryIn memory address).size = _ := littleEndian_add memory (address + 8) 4 4
  have place : address + 8 + 4 = address + 12 := Nat.add_assoc _ _ _
  rw [Nat.or_eq_zero_iff, split, place]
  omega

/-- These entries are in the array, and nothing was written but them and the one behind them. -/
structure Collected (start : ByteMemory) (entries : List E820Entry) (memory : ByteMemory) : Prop where
  array : ∀ index (inside : index < entries.length),
    entryIn memory (earlyBootInfoE820EntryArrayAddressPhys + 20 * index) = entries[index]
  framed : ∀ address, ¬(earlyBootInfoE820EntryArrayAddressPhys ≤ address ∧
    address < earlyBootInfoE820EntryArrayAddressPhys + 20 * (entries.length + 1)) →
    memory address = start address

section Loop

variable {int15 : Nat → Nat → ByteMemory → Reply} {start memory after : ByteMemory}
  {entries : List E820Entry} {answers : List (Option E820Entry)} {entry : E820Entry} {ebx fuel : Nat}

def endOf (entries : List E820Entry) : Nat :=
  earlyBootInfoE820EntryArrayAddressPhys + 20 * entries.length

theorem endOf_room (room : entries.length < 203) : endOf entries + 20 ≤ 0x7000 := by
  simp only [endOf, earlyBootInfoE820EntryArrayAddressPhys, earlyBootInfoAddressPhys]
  omega

theorem Collected.skip (collected : Collected start entries memory)
    (same : ∀ address, ¬(endOf entries ≤ address ∧ address < endOf entries + 20) →
      after address = memory address) : Collected start entries after := by
  rw [endOf] at same
  refine ⟨fun index inside => ?_, fun address outside => ?_⟩
  · rw [← collected.array index inside]
    exact entryIn_congr fun offset below => same _ (by omega)
  · rw [same address (by omega), collected.framed address outside]

theorem Collected.take (collected : Collected start entries memory)
    (written : entryIn after (endOf entries) = entry)
    (same : ∀ address, ¬(endOf entries ≤ address ∧ address < endOf entries + 20) →
      after address = memory address) : Collected start (entries ++ [entry]) after := by
  have skipped := collected.skip same
  refine ⟨fun index inside => ?_, fun address outside => ?_⟩
  · rw [List.length_append, List.length_singleton] at inside
    by_cases old : index < entries.length
    · rw [List.getElem_append_left old]
      exact skipped.array index old
    · obtain rfl : index = entries.length := by omega
      simpa [endOf] using written
  · rw [List.length_append, List.length_singleton] at outside
    exact skipped.framed address (by omega)

theorem takeEntry_collects (collected : Collected start entries memory) {reply : Reply}
    {answer : Option E820Entry} (gives : reply.Gives (endOf entries) memory answer)
    (room : entries.length < 203) :
    takeEntry reply (endOf entries) entries.length =
        .ok (endOf (entries ++ stored [answer]), (entries ++ stored [answer]).length) ∧
      Collected start (entries ++ stored [answer]) reply.memory := by
  have length := gives.length
  cases answer with
  | none =>
      rw [takeEntry, if_pos (by simpa using length), stored_none, stored_nil, List.append_nil]
      exact ⟨rfl, collected.skip gives.framed⟩
  | some entry =>
      have written := gives.entry entry rfl
      have twenty : reply.ecx % 2 ^ 16 = 20 := by simpa using length
      have low : reply.ecx % 2 ^ 8 = 20 := by omega
      have place := endOf_room room
      have zero := size_zero_iff reply.memory (endOf entries)
      rw [written] at zero
      rw [takeEntry, if_neg (by omega), if_neg (not_not_intro low), Nat.mod_eq_of_lt (by omega),
        Nat.mod_eq_of_lt (by omega), stored_some, stored_nil]
      by_cases empty : entry.size = 0
      · rw [if_pos (zero.mpr empty), if_pos empty, List.append_nil]
        exact ⟨rfl, collected.skip gives.framed⟩
      · rw [if_neg (fun both => empty (zero.mp both)), if_neg empty, Nat.mod_eq_of_lt (by omega),
          Nat.mod_eq_of_lt (by omega)]
        refine ⟨?_, collected.take written gives.framed⟩
        rw [endOf, endOf, List.length_append, List.length_singleton, Nat.mul_succ, Nat.add_assoc]

theorem loop_collects (enumerates : Enumerates int15 ebx answers)
    (collected : Collected start entries memory) (room : (entries ++ stored answers).length < 203)
    (enough : answers.length < fuel) :
    ∃ after, getE820Loop int15 fuel ebx (endOf entries) entries.length memory =
        .ok ((entries ++ stored answers).length, after) ∧
      Collected start (entries ++ stored answers) after := by
  induction enumerates generalizing entries memory fuel with
  | done ends =>
      obtain ⟨fuel, rfl⟩ := Nat.exists_eq_succ_of_ne_zero (Nat.ne_of_gt enough)
      obtain ⟨carry, same⟩ := ends (endOf entries) memory
        ((endOf_room (by simpa using room)).trans (by decide))
      rw [stored_nil, List.append_nil]
      refine ⟨_, ?_, collected.skip same⟩
      simp only [getE820Loop, carry, ↓reduceIte]
  | @last ebx answer gives =>
      obtain ⟨fuel, rfl⟩ := Nat.exists_eq_succ_of_ne_zero (Nat.ne_of_gt (Nat.zero_lt_of_lt enough))
      rw [List.length_append] at room
      obtain ⟨given, zero⟩ := gives (endOf entries) memory
        ((endOf_room (by omega)).trans (by decide))
      obtain ⟨taken, collects⟩ := takeEntry_collects collected given (by omega)
      refine ⟨_, ?_, collects⟩
      simp only [getE820Loop, given.noCarry, Bool.false_eq_true, ↓reduceIte, taken, zero]
  | @more ebx next answer rest gives notLast enumerates ih =>
      obtain ⟨fuel, rfl⟩ := Nat.exists_eq_succ_of_ne_zero (Nat.ne_of_gt (Nat.zero_lt_of_lt enough))
      have split : entries ++ stored (answer :: rest) = entries ++ stored [answer] ++ stored rest := by
        rw [List.append_assoc, ← stored_cons]
      rw [split] at room ⊢
      rw [List.length_append, List.length_append] at room
      obtain ⟨given, continued⟩ := gives (endOf entries) memory
        ((endOf_room (by omega)).trans (by decide))
      obtain ⟨taken, collects⟩ := takeEntry_collects collected given (by omega)
      have shorter : rest.length < fuel := by simpa using enough
      have fits : (entries ++ stored [answer] ++ stored rest).length < 203 := by
        rw [List.length_append, List.length_append]
        omega
      obtain ⟨after, loops, all⟩ := ih collects fits shorter
      refine ⟨after, ?_, all⟩
      simp only [getE820Loop, given.noCarry, Bool.false_eq_true, ↓reduceIte, taken, continued,
        notLast, loops]

theorem slice_eq {array : Nat → E820Entry} {first : Nat}
    (same : ∀ index (inside : index < entries.length), array (first + index) = entries[index]) :
    Early.slice array first entries.length = entries := by
  induction entries generalizing first with
  | nil => rfl
  | cons entry entries ih =>
      have head := same 0 (Nat.succ_pos _)
      rw [Nat.add_zero, List.getElem_cons_zero] at head
      rw [List.length_cons, Early.slice, head, ih fun index inside => ?_]
      have later := same (index + 1) (Nat.succ_lt_succ inside)
      rwa [List.getElem_cons_succ, Nat.add_comm index, ← Nat.add_assoc] at later

theorem Collected.entryList (collected : Collected start entries memory)
    (same : ∀ address, ¬(0x601c ≤ address ∧ address < 0x6020) →
      after address = memory address) (counted : littleEndian after 0x601c 4 = entries.length) :
    (bootInfoIn after).entryList = entries := by
  have size : (bootInfoIn after).numE820Entries = entries.length := counted
  rw [BootInfo.entryList, size]
  refine slice_eq fun index inside => ?_
  rw [← collected.array index inside, Nat.zero_add]
  refine entryIn_congr fun offset below => same _ ?_
  simp only [earlyBootInfoE820EntryArrayAddressPhys, earlyBootInfoAddressPhys]
  omega

theorem Enumerates.first (enumerates : Enumerates int15 ebx answers) (notEmpty : answers ≠ []) :
    ∃ answer, ∀ di memory, di + 20 ≤ 2 ^ 16 → (int15 ebx di memory).Gives di memory answer := by
  cases enumerates with
  | done => exact absurd rfl notEmpty
  | last gives => exact ⟨_, fun di memory room => (gives di memory room).1⟩
  | more gives => exact ⟨_, fun di memory room => (gives di memory room).1⟩

theorem count_stored (memory : ByteMemory) {count : Nat} (small : count < 2 ^ 16) :
    littleEndian (movw 0 0x601e (movw count 0x601c memory)) 0x601c 4 = count := by
  rw [littleEndian_add _ _ 2 2, movw, movw, littleEndian_elsewhere (by decide), littleEndian_stored,
    littleEndian_stored]
  omega

theorem getE820_collects (enumerates : Enumerates int15 0 answers) (notEmpty : answers ≠ [])
    (room : (stored answers).length < 203) (enough : answers.length < fuel) :
    ∃ after, getE820 int15 fuel memory = .ok after ∧
      (bootInfoIn after).entryList = stored answers ∧
      ∀ address, ¬(0x601c ≤ address ∧ address < 0x7000) → after address = memory address := by
  obtain ⟨answer, gives⟩ := enumerates.first notEmpty
  have probe := gives earlyBootInfoE820EntryArrayAddressPhys memory (by decide)
  have nothing : Collected memory [] (int15 0 earlyBootInfoE820EntryArrayAddressPhys memory).memory :=
    ⟨fun index inside => absurd inside (Nat.not_lt_zero index), probe.framed⟩
  obtain ⟨after, loops, collected⟩ := loop_collects enumerates nothing (by rwa [List.nil_append]) enough
  rw [List.nil_append] at loops collected
  have small : (stored answers).length < 2 ^ 16 := by omega
  have framed (address : Nat) (outside : ¬(0x601c ≤ address ∧ address < 0x6020)) :
      movw 0 0x601e (movw (stored answers).length 0x601c after) address = after address := by
    simp only [movw, storeLittleEndian]
    rw [overwrite_outside (by omega), overwrite_outside (by omega)]
  refine ⟨movw 0 0x601e (movw (stored answers).length 0x601c after), ?_,
    collected.entryList framed (count_stored after small), fun address outside => ?_⟩
  · simp only [getE820, probe.noCarry, probe.known, Bool.false_eq_true, ne_eq, not_true_eq_false,
      ↓reduceIte]
    change (match getE820Loop int15 fuel 0 (endOf []) ([] : List E820Entry).length _ with
      | .error stop => _
      | .ok (bp, memory) => _) = _
    rw [loops]
    rfl
  · rw [framed address (by omega), collected.framed address]
    have last := endOf_room room
    rw [endOf] at last
    simp only [earlyBootInfoE820EntryArrayAddressPhys, earlyBootInfoAddressPhys] at *
    omega

end Loop

/-! ## Stage 2 as a whole -/

inductive Boot2Stop
  | kernel (stop : LoadStop)
  | memoryMap (stop : E820Stop)
  | pageFault
deriving DecidableEq, Repr

def ia32ApicBaseMsrEnable : Nat := 0x800

/-- The base is taken from the register with its enable bit set, and cut to 36 bits. -/
def retrieveResetApic (msr : Nat) (memory : ByteMemory) : ByteMemory :=
  let rax := msr % 2 ^ 32 ||| ia32ApicBaseMsrEnable
  let rax := rax >>> 12 <<< 12
  let rdx := msr >>> 32 &&& 0xf
  storeLittleEndian memory earlyBootInfoApicBaseAddressPhys 8 (rdx <<< 32 ||| rax)

section Bios

variable (int13 : ByteMemory → Option ByteMemory) (int15 : Nat → Nat → ByteMemory → Reply)

/-- The video mode and the interrupt masks are left out. -/
def boot2 (msr fuel : Nat) (memory : ByteMemory) : Except Boot2Stop Loaded := do
  let memory ← (biosLoadKernelElf int13 fuel memory).mapError .kernel
  let memory ← (getE820 int15 fuel memory).mapError .memoryMap
  match load (retrieveResetApic msr (start32 memory)) with
  | none => throw .pageFault
  | some loaded => return loaded

end Bios

theorem retrieveResetApic_outside {msr address : Nat} {memory : ByteMemory}
    (outside : ¬(0x6010 ≤ address ∧ address < 0x6018)) :
    retrieveResetApic msr memory address = memory address := by
  simp only [retrieveResetApic, storeLittleEndian, earlyBootInfoApicBaseAddressPhys,
    earlyBootInfoAddressPhys]
  rw [overwrite_outside (by omega)]

theorem slice_length (array : Nat → E820Entry) (first count : Nat) :
    (Early.slice array first count).length = count := by
  induction count generalizing first with
  | zero => rfl
  | succ count ih => rw [Early.slice, List.length_cons, ih]

theorem entryList_congr {memory after : ByteMemory}
    (same : ∀ address, 0x601c ≤ address → address < 0x7000 → after address = memory address)
    (few : (bootInfoIn memory).entryList.length < 203) :
    (bootInfoIn after).entryList = (bootInfoIn memory).entryList := by
  have counts : (bootInfoIn after).numE820Entries = (bootInfoIn memory).numE820Entries :=
    littleEndian_congr fun offset below => same _ (by
      simp only [earlyBootInfoE820EntryCountAddressPhys, earlyBootInfoAddressPhys]
      omega) (by
      simp only [earlyBootInfoE820EntryCountAddressPhys, earlyBootInfoAddressPhys]
      omega)
  rw [BootInfo.entryList, slice_length] at few
  rw [BootInfo.entryList, BootInfo.entryList, counts]
  refine Early.slice_congr fun index inside => entryIn_congr fun offset below => ?_
  apply same <;> simp only [earlyBootInfoE820EntryArrayAddressPhys, earlyBootInfoAddressPhys] <;>
    omega

section Boot

variable {bootBin kernelElf image : List UInt8} {int13 : ByteMemory → Option ByteMemory}
  {int15 : Nat → Nat → ByteMemory → Reply} {answers : List (Option E820Entry)}
  {memory : ByteMemory} {fuel : Nat}

theorem mapError_bind_ok {α β ε ε' : Type} {first : Except ε α} {a : α} (f : ε → ε')
    (next : α → Except ε' β) (same : first = .ok a) : first.mapError f >>= next = next a := by
  rw [same]
  rfl

theorem boot2_eq {read mapped : ByteMemory} {msr : Nat} {loaded : Loaded}
    (reads : biosLoadKernelElf int13 fuel memory = .ok read)
    (maps : getE820 int15 fuel read = .ok mapped)
    (loads : load (retrieveResetApic msr (start32 mapped)) = some loaded) :
    boot2 int13 int15 msr fuel memory = .ok loaded := by
  rw [boot2, mapError_bind_ok _ _ reads, mapError_bind_ok _ _ maps, loads]
  rfl

/-- From the image on disk, stage 2 of the boot loader enters the kernel at the entry of its file,
exactly if the file can be run where it is put. The kernel is then in memory as it was linked,
behind the page tables that map it, and the boot info has its size and the memory map of the
firmware. -/
theorem boot2_enters_kernel (built : zeptuxImg bootBin kernelElf = some image)
    (serves : Serves int13 (diskOf image) image.length) (enumerates : Enumerates int15 0 answers)
    (notEmpty : answers ≠ []) (room : (stored answers).length < 203)
    (bootCode : ∀ offset < sectorSize * bootSectors, memory (0x7c00 + offset) = diskOf image offset)
    (wellFormed : WellFormed (diskOf kernelElf) kernelElf.length) (msr : Nat)
    (enoughChunks : 924 ≤ fuel) (enoughAnswers : answers.length < fuel) :
    ∃ after, boot2 int13 int15 msr fuel memory =
        .ok (if Enters (diskOf kernelElf) then .entered (littleEndian (diskOf kernelElf) 24 8) after
          else .halted after) ∧
      (Enters (diskOf kernelElf) → Linked (diskOf kernelElf) kernelElf.length after) ∧
      (∀ va, walk (words after) earlyPgd va =
        if Mapped true va then some (firstGiB va) else none) ∧
      (bootInfoIn after).kernelElfSizeBytes = kernelElf.length ∧
      (bootInfoIn after).entryList = stored answers := by
  obtain ⟨read, reads, image, size, readFrame⟩ := image_loads built serves bootCode enoughChunks
  obtain ⟨mapped, maps, listed, mapFrame⟩ :=
    @getE820_collects _ read _ _ enumerates notEmpty room enoughAnswers
  have small := (zeptuxImg_disk built).1
  have before (address : Nat) (outside : ¬(0x1000 ≤ address ∧ address < 0x5000))
      (notApic : ¬(0x6010 ≤ address ∧ address < 0x6018)) :
      retrieveResetApic msr (start32 mapped) address = mapped address := by
    rw [retrieveResetApic_outside notApic, start32_outside outside]
  have tables : PagesHold (tableWord true) (retrieveResetApic msr (start32 mapped)) := by
    intro index inside
    rw [← start32_tables mapped index inside]
    exact littleEndian_congr fun offset below => retrieveResetApic_outside (by omega)
  have source : ∀ index < kernelElf.length, retrieveResetApic msr (start32 mapped)
      (biosKernelElfLoadPhysAddress + index) = diskOf kernelElf index := by
    intro index inside
    have low : 0x8600 ≤ biosKernelElfLoadPhysAddress + index := Nat.le_add_right 0x8600 index
    rw [before _ (by omega) (by omega), mapFrame _ (by omega), image index inside, diskOf,
      List.getD_eq_getElem?_getD, List.getElem?_eq_getElem inside, Option.getD_some]
  have field : littleEndian (retrieveResetApic msr (start32 mapped))
      earlyBootInfoKernelElfSizeAddressPhys 4 = kernelElf.length := by
    rw [← size, earlyBootInfoKernelElfSizeAddressPhys]
    exact littleEndian_congr fun offset below => by
      rw [before _ (by omega) (by omega), mapFrame _ (by omega)]
  obtain ⟨after, loads, linked, framed⟩ := load_links tables source field small wellFormed
  have low (address : Nat) (below : address < 0x1000000) :
      after address = retrieveResetApic msr (start32 mapped) address := by
    refine framed address (by simp only [Early.kernelElfAddressPhys]; omega) fun inBss => ?_
    have above := wellFormed.inBss_above inBss
    simp only [kernelElfAddress, Early.kernelElfAddressPhys, kernelElfBase] at above
    omega
  refine ⟨after, boot2_eq reads maps loads, linked, ?_, ?_, ?_⟩
  · refine walk_tables fun index inside => ?_
    rw [← tables index inside]
    exact littleEndian_congr fun offset below => low _ (by omega)
  · refine (littleEndian_congr fun offset below => ?_).trans field
    refine low _ ?_
    simp only [earlyBootInfoKernelElfSizeAddressPhys]
    omega
  · rw [← listed]
    refine entryList_congr (fun address above below => ?_) (by rwa [listed])
    rw [low address (by omega), before address (by omega) (by omega)]

end Boot

/-! ## A firmware -/

def writeEntry (entry : E820Entry) (di : Nat) (memory : ByteMemory) : ByteMemory :=
  storeLittleEndian (storeLittleEndian (storeLittleEndian memory di 8 entry.base) (di + 8) 8 entry.size)
    (di + 16) 4 entry.type

/-- A firmware that numbers its answers, and sets the carry flag behind the last one. -/
def firmware (answers : List (Option E820Entry)) (ebx di : Nat) (memory : ByteMemory) : Reply :=
  match answers[ebx]? with
  | none => ⟨true, 0, ebx, 0, 0, memory⟩
  | some none => ⟨false, 0x534d4150, ebx + 1, 0, 0x534d4150, memory⟩
  | some (some entry) => ⟨false, 0x534d4150, ebx + 1, 20, 0x534d4150, writeEntry entry di memory⟩

theorem writeEntry_entryIn {entry : E820Entry} {di : Nat} {memory : ByteMemory}
    (base : entry.base < 2 ^ 64) (size : entry.size < 2 ^ 64) (type : entry.type < 2 ^ 32) :
    entryIn (writeEntry entry di memory) di = entry := by
  have baseRead : littleEndian (writeEntry entry di memory) di 8 = entry.base := by
    rw [writeEntry, littleEndian_elsewhere (by omega), littleEndian_elsewhere (by omega),
      littleEndian_stored, Nat.mod_eq_of_lt (by omega)]
  have sizeRead : littleEndian (writeEntry entry di memory) (di + 8) 8 = entry.size := by
    rw [writeEntry, littleEndian_elsewhere (by omega), littleEndian_stored, Nat.mod_eq_of_lt (by omega)]
  have typeRead : littleEndian (writeEntry entry di memory) (di + 16) 4 = entry.type := by
    rw [writeEntry, littleEndian_stored, Nat.mod_eq_of_lt (by omega)]
  rw [entryIn, baseRead, sizeRead, typeRead]

theorem writeEntry_outside {entry : E820Entry} {di address : Nat} {memory : ByteMemory}
    (outside : ¬(di ≤ address ∧ address < di + 20)) :
    writeEntry entry di memory address = memory address := by
  simp only [writeEntry, storeLittleEndian]
  rw [overwrite_outside (by omega), overwrite_outside (by omega), overwrite_outside (by omega)]

theorem firmware_gives {answers : List (Option E820Entry)} {ebx : Nat} {answer : Option E820Entry}
    (there : answers[ebx]? = some answer)
    (words : ∀ entry, answer = some entry →
      entry.base < 2 ^ 64 ∧ entry.size < 2 ^ 64 ∧ entry.type < 2 ^ 32) (di : Nat) (memory : ByteMemory) :
    (firmware answers ebx di memory).Gives di memory answer ∧
      (firmware answers ebx di memory).ebx = ebx + 1 := by
  rw [firmware, there]
  cases answer with
  | none => exact ⟨⟨rfl, rfl, rfl, fun _ impossible => (nomatch impossible), fun _ _ => rfl⟩, rfl⟩
  | some entry =>
      obtain ⟨base, size, type⟩ := words entry rfl
      refine ⟨⟨rfl, rfl, rfl, ?_, fun _ outside => writeEntry_outside outside⟩, rfl⟩
      rintro other same
      cases same
      exact writeEntry_entryIn base size type

theorem firmware_enumerates {answers : List (Option E820Entry)}
    (words : ∀ answer ∈ answers, ∀ entry, answer = some entry →
      entry.base < 2 ^ 64 ∧ entry.size < 2 ^ 64 ∧ entry.type < 2 ^ 32) {ebx : Nat}
    {rest : List (Option E820Entry)} (split : answers.drop ebx = rest) :
    Enumerates (firmware answers) ebx rest := by
  induction rest generalizing ebx with
  | nil =>
      have behind : answers[ebx]? = none :=
        List.getElem?_eq_none (List.drop_eq_nil_iff.mp split)
      exact .done fun di memory _ => by
        rw [firmware, behind]
        exact ⟨rfl, fun _ _ => rfl⟩
  | cons answer rest ih =>
      have there : answers[ebx]? = some answer := by
        rw [← List.head?_drop, split, List.head?_cons]
      have gives := firmware_gives there (words answer (List.mem_of_getElem? there))
      refine .more (fun di memory _ => gives di memory) (Nat.succ_ne_zero ebx) (ih ?_)
      rw [← List.tail_drop, split, List.tail_cons]

def smallMap : List (Option E820Entry) :=
  [some ⟨0, 0x9fc00, 1⟩, some ⟨0x9fc00, 0, 2⟩, none, some ⟨0x100000, 0x7ee0000, 1⟩]

theorem small_kernel_boots :
    ∃ image, zeptuxImg [] smallKernel = some image ∧ ∃ after,
      boot2 (servingBios (diskOf image)) (firmware smallMap) 0xfee00900 924 (fun address =>
        diskOf image (address - 0x7c00)) = .ok (.entered 0xffffc000010000f8 after) ∧
      Linked (diskOf smallKernel) smallKernel.length after ∧
      (bootInfoIn after).entryList = [⟨0, 0x9fc00, 1⟩, ⟨0x100000, 0x7ee0000, 1⟩] := by
  obtain ⟨image, built⟩ : ∃ image, zeptuxImg [] smallKernel = some image :=
    zeptuxImg_built smallKernel_small
  obtain ⟨memory, shifted⟩ : ∃ memory : ByteMemory,
      memory = fun address => diskOf image (address - 0x7c00) := ⟨_, rfl⟩
  have bootCode : ∀ offset < sectorSize * bootSectors,
      memory (0x7c00 + offset) = diskOf image offset := by
    intro offset _
    simp [shifted]
  have enumerates : Enumerates (firmware smallMap) 0 smallMap := by
    refine firmware_enumerates (fun answer member entry same => ?_) rfl
    subst same
    simp only [smallMap, List.mem_cons, Option.some.injEq, reduceCtorEq, List.not_mem_nil, or_false,
      false_or] at member
    rcases member with rfl | rfl | rfl <;> decide
  obtain ⟨after, boots, linked, _, _, listed⟩ := boot2_enters_kernel built
    (servingBios_serves _ _) enumerates (List.cons_ne_nil _ _) (by decide) bootCode
    smallKernel_wellFormed 0xfee00900 (le_refl 924) (by decide)
  refine ⟨image, built, ?_⟩
  rw [if_pos smallKernel_enters, smallKernel_entry] at boots
  rw [← shifted]
  have kept : stored smallMap = [⟨0, 0x9fc00, 1⟩, ⟨0x100000, 0x7ee0000, 1⟩] := by decide
  exact ⟨after, boots, linked smallKernel_enters, listed.trans kept⟩

end Zeptux.Boot
