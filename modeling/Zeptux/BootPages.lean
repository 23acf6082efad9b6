import Zeptux.Lib.VirtualMemory
import Zeptux.EarlyInitCore

/-!
The page tables that `start32` of `arch/x86_64/boot/boot2.S` sets up before it enters long
mode, and `drop_direct0` of `early/mem.c`, which takes the lowest mapping away again. The
tables are bytes of the memory that they map.
-/

namespace Zeptux.Boot

open X86Paging ByteMemory VirtualMemory
open Early (kernelDirectMapBase earlyPgd earlyPudDirectMap earlyPudKernelElf)
open Page (pageFlagDefault pageFlagPresent pageFlagRw pageFlagPresentBit)

def earlyPudDirect0 : Nat := 0x2000
def kernelDirectMapBasePgdOffset : Nat := 256
def kernelElfBasePgdOffset : Nat := 384
def kernelElfBase : Nat := 0xffffc00000000000

def pudFlag1GiBPageSize : Nat := 2 ^ 7

def movl (val address : Nat) (memory : ByteMemory) : ByteMemory :=
  storeLittleEndian memory address 4 val

def start32 (memory : ByteMemory) : ByteMemory :=
  let memory := memory.fill earlyPgd 0 0x4000
  let memory := movl (pageFlagDefault ||| earlyPudDirect0) earlyPgd memory
  let memory := movl (pageFlagDefault ||| earlyPudDirectMap)
    (earlyPgd + 8 * kernelDirectMapBasePgdOffset) memory
  let memory := movl (pageFlagDefault ||| earlyPudKernelElf)
    (earlyPgd + 8 * kernelElfBasePgdOffset) memory
  let memory := movl (pageFlagDefault ||| pudFlag1GiBPageSize ||| 0) earlyPudDirect0 memory
  let memory := movl (pageFlagDefault ||| pudFlag1GiBPageSize ||| 0) earlyPudDirectMap memory
  movl (pageFlagDefault ||| pudFlag1GiBPageSize ||| 0) earlyPudKernelElf memory

def earlyPudDirect0Address : Nat := kernelDirectMapBase + earlyPudDirect0
def earlyPgdAddress : Nat := kernelDirectMapBase + earlyPgd

/-- The processor still uses the tables of `start32`. -/
def dropDirect0 (memory : ByteMemory) : Option ByteMemory := do
  let memory ← fillAt earlyPgd earlyPudDirect0Address 0 (2 ^ 12) memory
  fillAt earlyPgd earlyPgdAddress 0 8 memory

/-! ## What the tables hold -/

/-- The word at this address of the four pages; `low` tells whether the lowest mapping is there. -/
def tableWord (low : Bool) (address : Nat) : Nat :=
  if address = 0x1000 then if low then 0x2003 else 0
  else if address = 0x1800 then 0x3003
  else if address = 0x1c00 then 0x4003
  else if address = 0x2000 then if low then 0x83 else 0
  else if address = 0x3000 ∨ address = 0x4000 then 0x83
  else 0

def PagesHold (word : Nat → Nat) (memory : ByteMemory) : Prop :=
  ∀ index < 0x800, words memory (0x1000 + 8 * index) = word (0x1000 + 8 * index)

section Words

variable {memory : ByteMemory} {address other val : Nat}

theorem words_movl (aligned : 8 ∣ address) (alignedOther : 8 ∣ other)
    (clear : words memory address = 0) (small : val < 2 ^ 32) :
    words (movl val address memory) other = if other = address then val else words memory other := by
  obtain ⟨index, rfl⟩ := aligned
  obtain ⟨otherIndex, rfl⟩ := alignedOther
  by_cases same : otherIndex = index
  · subst otherIndex
    have split : words (movl val (8 * index) memory) (8 * index) =
        val % 256 ^ 4 + 256 ^ 4 * littleEndian memory (8 * index + 4) 4 := by
      rw [words, littleEndian_add _ _ 4 4, movl, littleEndian_stored, littleEndian_elsewhere (by omega)]
    have before : words memory (8 * index) =
        littleEndian memory (8 * index) 4 + 256 ^ 4 * littleEndian memory (8 * index + 4) 4 :=
      littleEndian_add _ _ 4 4
    rw [if_pos rfl, split]
    omega
  · rw [if_neg (by omega), words, words, movl, littleEndian_elsewhere (by omega)]

theorem words_store_apart {index : Nat} {byte : UInt8}
    (apart : index < address ∨ address + 8 ≤ index) :
    words (memory.store index byte) address = words memory address := by
  refine littleEndian_congr fun offset inside => ?_
  rw [store, if_neg (by omega)]

end Words

theorem PagesHold.movl {word : Nat → Nat} {memory : ByteMemory} (holds : PagesHold word memory)
    {index val : Nat} (inside : index < 0x800) (clear : word (0x1000 + 8 * index) = 0)
    (small : val < 2 ^ 32) :
    PagesHold (Function.update word (0x1000 + 8 * index) val)
      (movl val (0x1000 + 8 * index) memory) := by
  intro other below
  rw [words_movl (by omega) (by omega) ((holds index inside).trans clear) small, holds other below,
    Function.update_apply]

theorem start32_tables (memory : ByteMemory) : PagesHold (tableWord true) (start32 memory) := by
  have cleared : PagesHold (fun _ => 0) (memory.fill earlyPgd 0 0x4000) := by
    intro index inside
    refine littleEndian_zeros fun offset below => ?_
    rw [fill_eq, overwrite_inside (by simp only [earlyPgd]; omega) (by simp only [earlyPgd]; omega)]
  have pgd := ((cleared.movl (by decide : 0 < 0x800) rfl (by decide : 0x2003 < 2 ^ 32)).movl
    (by decide : 0x100 < 0x800) (by simp) (by decide : 0x3003 < 2 ^ 32)).movl
    (by decide : 0x180 < 0x800) (by simp) (by decide : 0x4003 < 2 ^ 32)
  have puds := ((pgd.movl (by decide : 0x200 < 0x800) (by simp) (by decide : 0x83 < 2 ^ 32)).movl
    (by decide : 0x400 < 0x800) (by simp) (by decide : 0x83 < 2 ^ 32)).movl
    (by decide : 0x600 < 0x800) (by simp) (by decide : 0x83 < 2 ^ 32)
  intro index inside
  have held : words (start32 memory) (0x1000 + 8 * index) = _ := puds index inside
  rw [held]
  simp only [Function.update_apply, tableWord]
  split_ifs <;> omega

theorem start32_outside {memory : ByteMemory} {address : Nat}
    (outside : ¬(0x1000 ≤ address ∧ address < 0x5000)) : start32 memory address = memory address := by
  simp only [start32, movl, storeLittleEndian, fill_eq, earlyPgd, earlyPudDirect0,
    earlyPudDirectMap, earlyPudKernelElf, kernelDirectMapBasePgdOffset, kernelElfBasePgdOffset]
  rw [overwrite_outside (by omega), overwrite_outside (by omega), overwrite_outside (by omega),
    overwrite_outside (by omega), overwrite_outside (by omega), overwrite_outside (by omega),
    overwrite_outside (by omega)]

/-! ## What is mapped -/

def InWindow (base va : Nat) : Prop := base ≤ va ∧ va < base + 2 ^ 30

instance (base va : Nat) : Decidable (InWindow base va) := inferInstanceAs (Decidable (_ ∧ _))

/-- The first GiB of physical memory, at up to three places. -/
def Mapped (low : Bool) (va : Nat) : Prop :=
  (low = true ∧ va < 2 ^ 30) ∨ InWindow kernelDirectMapBase va ∨ InWindow kernelElfBase va

instance (low : Bool) (va : Nat) : Decidable (Mapped low va) :=
  inferInstanceAs (Decidable (_ ∨ _ ∨ _))

def firstGiB (va : Nat) : Leaf := ⟨va % 2 ^ 30, pageFlagDefault ||| pudFlag1GiBPageSize, 2⟩

section Walk

variable {mem : Memory} {table va : Nat}

theorem walkFrom_leaf (entry : entryAt mem table (indexAt 2 va) = 0x83) :
    walkFrom mem 2 table va = some (firstGiB va) := by
  have present : Present 0x83 := by decide
  have huge : Huge 2 0x83 := by decide
  have leaf : leafOf 2 0x83 va = firstGiB va := by
    simp [leafOf, frameOf, flagsOf, entrySize, firstGiB, pageFlagDefault, pageFlagPresent,
      pageFlagPresentBit, pageFlagRw, pudFlag1GiBPageSize]
  simp only [walkFrom, entry, present, huge, not_true_eq_false, ↓reduceIte, leaf]

theorem walkFrom_absent {level : Nat} (entry : entryAt mem table (indexAt (level + 1) va) = 0) :
    walkFrom mem (level + 1) table va = none := by
  have absent : ¬Present 0 := by decide
  simp only [walkFrom, entry, absent, not_false_eq_true, ↓reduceIte]

theorem walkFrom_table {entry : Nat} (top : entryAt mem table (indexAt 3 va) = entry)
    (present : Present entry) : walkFrom mem 3 table va = walkFrom mem 2 (tableOf entry) va := by
  have notHuge : ¬Huge 3 entry := fun huge => absurd huge.1 (by decide)
  simp only [walkFrom, top, present, not_true_eq_false, notHuge, ↓reduceIte]

end Walk

theorem Mapped.canonical {low : Bool} {va : Nat} (mapped : Mapped low va) : Canonical va := by
  simp only [Mapped, InWindow, kernelDirectMapBase, kernelElfBase, Canonical] at *
  omega

theorem mapped_iff {low : Bool} {va : Nat} (canonical : Canonical va) :
    Mapped low va ↔ indexAt 2 va = 0 ∧
      ((low = true ∧ indexAt 3 va = 0) ∨ indexAt 3 va = 0x100 ∨ indexAt 3 va = 0x180) := by
  simp only [Mapped, InWindow, kernelDirectMapBase, kernelElfBase, Canonical, indexAt,
    entrySize] at *
  cases low
  · simp only [Bool.false_eq_true, false_and, false_or]
    omega
  · simp only [true_and]
    omega

section Tables

variable {low : Bool} {memory : ByteMemory} {va : Nat}

theorem PagesHold.entry (holds : PagesHold (tableWord low) memory) {page index : Nat}
    (pageInside : page < 4) (inside : index < 512) :
    entryAt (words memory) (0x1000 + 0x1000 * page) index =
      tableWord low (0x1000 + 0x1000 * page + 8 * index) := by
  have word := holds (512 * page + index) (by omega)
  rwa [show 0x1000 + 8 * (512 * page + index) = 0x1000 + 0x1000 * page + 8 * index by omega] at word

theorem PagesHold.walkFrom_pud (holds : PagesHold (tableWord low) memory) {page : Nat}
    (pageInside : page < 4) (there : tableWord low (0x1000 + 0x1000 * page) = 0x83)
    (only : ∀ index < 512, index ≠ 0 → tableWord low (0x1000 + 0x1000 * page + 8 * index) = 0) :
    walkFrom (words memory) 2 (0x1000 + 0x1000 * page) va =
      if indexAt 2 va = 0 then some (firstGiB va) else none := by
  have entry := holds.entry pageInside (indexAt_lt 2 va)
  by_cases first : indexAt 2 va = 0
  · rw [if_pos first]
    apply walkFrom_leaf
    rw [entry, first]
    exact there
  · rw [if_neg first]
    apply walkFrom_absent
    rw [entry]
    exact only _ (indexAt_lt 2 va) first

theorem PagesHold.walkFrom_pgd (holds : PagesHold (tableWord low) memory) {page : Nat}
    (after : 0 < page) (pageInside : page < 4)
    (top : tableWord low (0x1000 + 8 * indexAt 3 va) = 0x1003 + 0x1000 * page)
    (there : tableWord low (0x1000 + 0x1000 * page) = 0x83) :
    walkFrom (words memory) 3 0x1000 va = if indexAt 2 va = 0 then some (firstGiB va) else none := by
  have entry := holds.entry (by decide : 0 < 4) (indexAt_lt 3 va)
  rw [Nat.mul_zero, Nat.add_zero, top] at entry
  have present : Present (0x1003 + 0x1000 * page) := by
    rw [Present]
    omega
  have next : tableOf (0x1003 + 0x1000 * page) = 0x1000 + 0x1000 * page := by
    rw [tableOf]
    omega
  rw [walkFrom_table entry present, next, holds.walkFrom_pud pageInside there]
  intro index inside different
  simp only [tableWord]
  split_ifs <;> omega

theorem walk_tables (holds : PagesHold (tableWord low) memory) (va : Nat) :
    walk (words memory) earlyPgd va = if Mapped low va then some (firstGiB va) else none := by
  by_cases canonical : Canonical va
  · have known : Mapped low va ↔ _ := mapped_iff canonical
    rw [walk, if_pos canonical, earlyPgd]
    by_cases direct : indexAt 3 va = 0x100
    · rw [holds.walkFrom_pgd (by decide : 0 < 2) (by decide) (by rw [direct]; rfl) rfl]
      simp [known, direct]
    · by_cases elf : indexAt 3 va = 0x180
      · rw [holds.walkFrom_pgd (by decide : 0 < 3) (by decide) (by rw [elf]; rfl) rfl]
        simp [known, elf]
      · by_cases first : low = true ∧ indexAt 3 va = 0
        · obtain ⟨rfl, zero⟩ := first
          rw [holds.walkFrom_pgd (by decide : 0 < 1) (by decide) (by rw [zero]; rfl) rfl]
          simp [known, zero]
        · have unmapped : ¬Mapped low va := by
            rw [known]
            tauto
          have entry := holds.entry (by decide : 0 < 4) (indexAt_lt 3 va)
          rw [if_neg unmapped]
          apply walkFrom_absent
          refine entry.trans ?_
          have inside := indexAt_lt 3 va
          cases low
          · simp only [tableWord, Bool.false_eq_true, ↓reduceIte]
            split_ifs <;> omega
          · have notFirst : indexAt 3 va ≠ 0 := fun zero => first ⟨rfl, zero⟩
            simp only [tableWord, ↓reduceIte]
            split_ifs <;> omega
  · rw [walk, if_neg canonical, if_neg fun mapped => canonical mapped.canonical]

end Tables

/-! ## The windows and what must not be written under them -/

/-- The two words that map the window of this entry of the PGD. -/
def Window (slot pud : Nat) (memory : ByteMemory) : Prop :=
  words memory (earlyPgd + 8 * slot) = pud + 3 ∧ words memory pud = 0x83

section Window

variable {slot pud base : Nat} {memory : ByteMemory}

theorem window_maps (isTable : 2 ^ 12 ∣ pud) (small : pud < 2 ^ 48)
    (place : ∀ offset < 2 ^ 30, Canonical (base + offset) ∧ indexAt 3 (base + offset) = slot ∧
      indexAt 2 (base + offset) = 0 ∧ (base + offset) % 2 ^ 30 = offset) :
    Maps (Window slot pud) earlyPgd base 0 (2 ^ 30) := by
  rintro memory ⟨top, there⟩ offset inside
  obtain ⟨canonical, third, second, low⟩ := place offset inside
  have present : Present (pud + 3) := by
    rw [Present]
    omega
  have next : tableOf (pud + 3) = pud := by
    rw [tableOf]
    omega
  have entry : entryAt (words memory) earlyPgd (indexAt 3 (base + offset)) = pud + 3 := by
    rw [third]
    exact top
  have leaf : entryAt (words memory) pud (indexAt 2 (base + offset)) = 0x83 := by
    rw [second]
    exact there
  rw [VirtualMemory.translate, walk, if_pos canonical, walkFrom_table entry present, next,
    walkFrom_leaf leaf, Option.map_some, firstGiB, low, Nat.zero_add]

theorem window_harmless {pa length : Nat}
    (apartTop : pa + length ≤ earlyPgd + 8 * slot ∨ earlyPgd + 8 * slot + 8 ≤ pa)
    (apart : pa + length ≤ pud ∨ pud + 8 ≤ pa) : Harmless (Window slot pud) pa length := by
  rintro memory val ⟨top, there⟩ offset inside
  rw [Window, words_store_apart (by omega), words_store_apart (by omega)]
  exact ⟨top, there⟩

end Window

def directMapWindow : ByteMemory → Prop :=
  Window kernelDirectMapBasePgdOffset earlyPudDirectMap

theorem directMap_maps : Maps directMapWindow earlyPgd kernelDirectMapBase 0 (2 ^ 30) := by
  refine window_maps (by decide) (by decide) fun offset inside => ?_
  simp only [Canonical, indexAt, entrySize, kernelDirectMapBase, kernelDirectMapBasePgdOffset]
  omega

theorem dropDirect0_eq {memory : ByteMemory} (holds : PagesHold (tableWord true) memory) :
    ∃ after, dropDirect0 memory = some after ∧ PagesHold (tableWord false) after ∧
      ∀ address, ¬(0x1000 ≤ address ∧ address < 0x1008) →
        ¬(0x2000 ≤ address ∧ address < 0x3000) → after address = memory address := by
  have window : directMapWindow memory := ⟨holds 0x100 (by decide), holds 0x400 (by decide)⟩
  have pud : Maps directMapWindow earlyPgd earlyPudDirect0Address (0 + 0x2000) (2 ^ 12) :=
    directMap_maps.within (by decide)
  have pgd : Maps directMapWindow earlyPgd earlyPgdAddress (0 + 0x1000) 8 :=
    directMap_maps.within (by decide)
  rw [Nat.zero_add] at pud pgd
  obtain ⟨clearsPud, window⟩ := @fillAt_eq _ _ _ _ _ 0 _ pud
    (window_harmless (by decide) (by decide)) (by decide) window
  obtain ⟨clearsPgd, _⟩ := @fillAt_eq _ _ _ _ _ 0 _ pgd
    (window_harmless (by decide) (by decide)) (by decide) window
  refine ⟨(memory.fill 0x2000 0 (2 ^ 12)).fill 0x1000 0 8, ?_, ?_, ?_⟩
  · rw [dropDirect0, clearsPud, Option.bind_eq_bind, Option.bind_some, clearsPgd]
  · intro index inside
    by_cases cleared : index = 0 ∨ (0x200 ≤ index ∧ index < 0x400)
    · have zero : tableWord false (0x1000 + 8 * index) = 0 := by
        simp only [tableWord, Bool.false_eq_true, ↓reduceIte]
        split_ifs <;> omega
      rw [zero]
      refine littleEndian_zeros fun offset below => ?_
      rw [fill_eq, fill_eq]
      by_cases first : index = 0
      · rw [overwrite_inside (by omega) (by omega)]
      · rw [overwrite_outside (by omega), overwrite_inside (by omega) (by omega)]
    · have same : tableWord false (0x1000 + 8 * index) = tableWord true (0x1000 + 8 * index) := by
        simp only [tableWord, Bool.false_eq_true, ↓reduceIte]
        split_ifs <;> omega
      rw [same, ← holds index inside]
      refine littleEndian_congr fun offset below => ?_
      rw [fill_eq, fill_eq, overwrite_outside (by omega), overwrite_outside (by omega)]
  · intro address notPgd notPud
    rw [fill_eq, fill_eq, overwrite_outside (by omega), overwrite_outside (by omega)]

/-- The processor translates the first GiB at three places when it enters long mode, and at two
of them after `drop_direct0`, whatever else is in memory. -/
theorem boot_mappings (memory : ByteMemory) (loaded : ByteMemory)
    (kept : ∀ address, 0x1000 ≤ address → address < 0x5000 → loaded address = start32 memory address) :
    (∀ va, walk (words loaded) earlyPgd va =
      if Mapped true va then some (firstGiB va) else none) ∧
    ∃ after, dropDirect0 loaded = some after ∧
      (∀ va, walk (words after) earlyPgd va =
        if Mapped false va then some (firstGiB va) else none) ∧
      ∀ address, ¬(0x1000 ≤ address ∧ address < 0x1008) →
        ¬(0x2000 ≤ address ∧ address < 0x3000) → after address = loaded address := by
  have holds : PagesHold (tableWord true) loaded := by
    intro index inside
    rw [← start32_tables memory index inside]
    exact littleEndian_congr fun offset below => kept _ (by omega) (by omega)
  obtain ⟨after, dropped, tables, framed⟩ := dropDirect0_eq holds
  exact ⟨walk_tables holds, after, dropped, walk_tables tables, framed⟩

theorem empty_memory_mapped :
    walk (words (start32 fun _ => 0)) earlyPgd 0xffffc00001234567 = some ⟨0x1234567, 0x83, 2⟩ ∧
      ∃ after, dropDirect0 (start32 fun _ => 0) = some after ∧
        walk (words after) earlyPgd 0x1234567 = none ∧
        walk (words after) earlyPgd 0xffff800001234567 = some ⟨0x1234567, 0x83, 2⟩ := by
  obtain ⟨before, after, dropped, walks, _⟩ :=
    boot_mappings (fun _ => 0) (start32 fun _ => 0) fun _ _ _ => rfl
  refine ⟨?_, after, dropped, ?_, ?_⟩
  · rw [before, if_pos (by decide)]
    rfl
  · rw [walks, if_neg (by decide)]
  · rw [walks, if_pos (by decide)]
    rfl

end Zeptux.Boot
