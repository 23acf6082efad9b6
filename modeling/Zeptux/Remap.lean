import Zeptux.EarlyInit
import Zeptux.DirectMap
import Zeptux.MemMap

/-!
What `early_remap_page_tables` maps, and `virt_to_phys` against it. A range that has been
mapped stays so, since the later ones only fill entries that are not present.
-/

namespace Zeptux.Early

open Page Word X86Paging

/-! ## Later ranges keep the earlier ones -/

section

variable {σ : Type} {owned : Stock σ} {alloc : PageAllocators σ}
variable {flags pgd va pa numPages : Nat} {before middle after : σ × Memory}

structure Advances (owned : Stock σ) (pgd : Nat) (before after : σ × Memory) : Prop where
  root : RootOk owned pgd after
  keeps : ∀ address leaf, walk before.2 pgd address = some leaf →
    walk after.2 pgd address = some leaf

theorem Advances.trans (first : Advances owned pgd before middle)
    (second : Advances owned pgd middle after) : Advances owned pgd before after :=
  ⟨second.root, fun address leaf found => second.keeps address leaf (first.keeps address leaf found)⟩

theorem Ranged.advances (ranged : Ranged owned flags pgd va pa numPages before after) :
    Advances owned pgd before after := by
  refine ⟨ranged.root, ?_⟩
  intro address leaf found
  by_cases inside : pageStart va ≤ address ∧ address < pageStart va + 2 ^ 12 * numPages
  · obtain ⟨offset, rfl⟩ := Nat.exists_eq_add_of_le inside.1
    have filled := ranged.filled offset (by omega)
    rw [found] at filled
    exact filled.1
  · rw [ranged.outside address inside]
    exact found

theorem mapRange_ok (supplies : SuppliesTables owned alloc) (valid : ValidMapFlags flags)
    (half : InOneHalf (pageStart va) numPages)
    (paBound : 0 < numPages → pageStart pa + 2 ^ 12 * numPages ≤ 2 ^ 48)
    (root : RootOk owned pgd before)
    (returned : mapRange alloc pgd flags va pa numPages before = .ok after) :
    Advances owned pgd before after ∧
      (isMaskSet flags mapSkipIfMapped = false → 2 ^ 12 ∣ va → 2 ^ 12 ∣ pa →
        ∀ offset < 2 ^ 12 * numPages, ∃ leaf, walk after.2 pgd (va + offset) = some leaf ∧
          LeafAt flags (pa + offset) leaf) := by
  obtain ⟨passable, ranged⟩ := (mapRange_settles supplies valid half paBound root).of_ok returned
  refine ⟨ranged.advances, ?_⟩
  intro noSkip vaAligned paAligned offset inside
  apply ranged.mapped vaAligned paAligned inside
  rw [pageStart_of_dvd vaAligned] at passable
  cases found : walk before.2 pgd (va + offset) with
  | none => rfl
  | some leaf =>
      have skips := (passable (va + offset) (by omega) (by omega) leaf found).1
      rw [noSkip] at skips
      cases skips

/-! ## RAM -/

theorem earlyMapDirectFrom_ok (supplies : SuppliesTables owned alloc) {info : BootInfo}
    (remaining i : Nat) (state : σ × Memory)
    (ram : ∀ entry ∈ ramFrom info i remaining,
      PageAligned entry ∧ entry.base + entry.size ≤ 2 ^ 47)
    (root : RootOk owned pgd state)
    (returned : earlyMapDirectFrom alloc pgd info remaining i state = .ok after) :
    Advances owned pgd state after ∧ ∀ entry ∈ ramFrom info i remaining, ∀ x, entry.Holds x →
      ∃ leaf, walk after.2 pgd (kernelDirectMapBase + x) = some leaf ∧ leaf.pa = x := by
  induction remaining generalizing i state with
  | zero =>
      cases returned
      refine ⟨⟨root, fun _ _ found => found⟩, ?_⟩
      intro entry member
      cases member
  | succ remaining ih =>
      rw [earlyMapDirectFrom] at returned
      by_cases isRam : (info.e820Entries i).type = e820TypeRam
      · rw [ramFrom_ram isRam] at ram ⊢
        rw [if_neg (not_not.mpr isRam)] at returned
        obtain ⟨middle, first, rest⟩ := bind_ok returned
        obtain ⟨aligned, bound⟩ := ram _ List.mem_cons_self
        obtain ⟨place, size, vaAligned, paAligned, half, paBound⟩ := aligned.directRange bound
        rw [place] at first
        obtain ⟨advances, maps⟩ := mapRange_ok supplies
          (Or.inl (by decide) : ValidMapFlags mapKernel) half (fun _ => paBound) root first
        obtain ⟨more, others⟩ := ih (i + 1) middle
          (fun entry member => ram entry (List.mem_cons_of_mem _ member)) advances.root rest
        refine ⟨advances.trans more, ?_⟩
        intro entry member x holds
        rcases List.mem_cons.mp member with rfl | later
        · obtain ⟨offset, rfl⟩ := Nat.exists_eq_add_of_le holds.1
          have inside := holds.2
          obtain ⟨leaf, found, pa, _⟩ := maps (by decide) vaAligned paAligned offset (by omega)
          refine ⟨leaf, more.keeps _ leaf ?_, pa⟩
          rw [← Nat.add_assoc]
          exact found
        · exact others entry later x holds
      · rw [ramFrom_other isRam] at ram ⊢
        rw [if_pos isRam] at returned
        exact ih (i + 1) state ram root returned

end

/-! ## The pages of a section -/

section

variable {owned : Stock PageAllocState} [Tracks owned] {cr3 elfPa pgd : Nat}
  {before after : PageAllocState × Memory}

theorem copyPages_sameOn (cr3 va : Nat) {alloc : PageAllocState} {pa numPages : Nat}
    (root : RootOk owned pgd before)
    (taken : Takes before.1 alloc (pageRun pa numPages)) :
    SameOn before.2 (copyPages cr3 pa va numPages before.2) (tables before.2 3 pgd) := by
  intro page used index inside
  have isTable := root.wellFormed.tables_isTable used
  apply if_neg
  rintro ⟨low, high⟩
  unfold pageSize pageShift at high
  have first : pa ∈ before.1.free := taken.wereFree ⟨0, by omega, rfl⟩
  have aligned := (free_isTable (Tracks.placed root.ok) first).1
  have pageAligned := isTable.1
  have wasFree : page ∈ before.1.free :=
    taken.wereFree ⟨(page - pa) / 2 ^ 12, by omega, by omega⟩
  exact Set.disjoint_left.mp root.unused used (Tracks.owns root.ok wasFree)

omit [Tracks owned] in
theorem RootOk.moved {alloc : PageAllocState} {mem : Memory} (root : RootOk owned pgd before)
    (ok : owned.ok alloc) (fewer : owned alloc ⊆ owned before.1)
    (same : SameOn before.2 mem (tables before.2 3 pgd)) : RootOk owned pgd (alloc, mem) := by
  refine ⟨ok, wellFormed_congr same root.wellFormed, ?_⟩
  rw [tables_congr same]
  exact root.unused.mono_right fewer

/-- The panics of `early_pages_alloc`. -/
def pagesAllocTexts : List String :=
  ["Can only allocate up to %d pages using the early allocator, attempting to allocate %d",
    "Unable to allocate %d physically contiguous pages"]

theorem earlyPagesAlloc_panics {state : PageAllocState} {pages : Int} {panic : Panic}
    (call : earlyPagesAlloc state pages = .error panic) : panic.fmt ∈ pagesAllocTexts := by
  unfold earlyPagesAlloc at call
  split at call
  · cases call
    exact .head _
  · split at call
    · cases call
      exact .tail _ (.head _)
    · cases call

theorem earlyPagesAlloc_place {state alloc : PageAllocState} (placed : state.Placed) {pages : Int}
    {pa : Nat} (call : earlyPagesAlloc state pages = .ok (pa, alloc)) :
    2 ^ 12 ∣ pa ∧ pages ≤ maxPagesAlloc := by
  obtain ⟨few, index, span, first, rfl, _⟩ := earlyPagesAlloc_returned call
  obtain ⟨_, here, _⟩ := firstSpan_some first
  have start : 2 ^ 12 ∣ span.start := (placed.extent here).1
  refine ⟨?_, few⟩
  rw [spanOffsetToPa, add64, Nat.shiftLeft_eq, pageShift]
  omega

/-- Where the pages of a section are, and what has been done to get them. -/
structure Framed (owned : Stock PageAllocState) (elfPa pgd : Nat)
    (sectHeader : ElfSectionHeader) (before : PageAllocState × Memory) (pa : Nat)
    (after : PageAllocState × Memory) : Prop where
  root : RootOk owned pgd after
  same : SameOn before.2 after.2 (tables before.2 3 pgd)
  fewer : after.1.free ⊆ before.1.free
  bound : 2 ^ 12 ∣ pa → 0 < bytesToPages sectHeader.size →
    pa + 2 ^ 12 * bytesToPages sectHeader.size ≤ 2 ^ 48
  file : sectHeader.type ≠ elfShtNobits → pa = elfPa + sectHeader.offset
  allocated : sectHeader.type = elfShtNobits → 2 ^ 12 ∣ pa ∧ bytesToPages sectHeader.size ≤ 8 ∧
    pageRun pa (bytesToPages sectHeader.size) ⊆ before.1.free \ after.1.free

/-- The section's size and its place in the image are what the arithmetic can hold. -/
structure ElfSectionHeader.Sized (elfPa : Nat) (sectHeader : ElfSectionHeader) : Prop where
  pages : bytesToPages sectHeader.size = (sectHeader.size + 4095) / 2 ^ 12
  image : sectHeader.type ≠ elfShtNobits → elfPa + sectHeader.offset + sectHeader.size ≤ 2 ^ 48
  small : sectHeader.type = elfShtNobits → sectHeader.size < 2 ^ 42

theorem sectionFrames_panics {sectHeader : ElfSectionHeader} {stop : MapStop}
    (returned : sectionFrames cr3 elfPa sectHeader before = .error stop) :
    ∃ panic, stop = .panic panic ∧ panic.fmt ∈ pagesAllocTexts := by
  unfold sectionFrames at returned
  split at returned
  · simp only at returned
    split at returned
    · rename_i panic call
      cases returned
      exact ⟨panic, rfl, earlyPagesAlloc_panics call⟩
    · cases returned
  · cases returned

theorem sectionFrames_framed {sectHeader : ElfSectionHeader} (sized : sectHeader.Sized elfPa)
    {pa : Nat} (root : RootOk owned pgd before)
    (returned : sectionFrames cr3 elfPa sectHeader before = .ok (pa, after)) :
    Framed owned elfPa pgd sectHeader before pa after := by
  have pages := sized.pages
  unfold sectionFrames at returned
  split at returned
  · rename_i nobits
    have small := sized.small nobits
    simp only [toInt32_eq (by omega : bytesToPages sectHeader.size < 2 ^ 31)] at returned
    split at returned
    · cases returned
    · rename_i call
      cases returned
      have placed := Tracks.placed root.ok
      obtain ⟨aligned, few⟩ := earlyPagesAlloc_place placed call
      have taken := earlyPagesAlloc_takes placed call
      obtain ⟨ok, fewer⟩ := earlyPagesAlloc_tracked root.ok call
      rw [Int.toNat_natCast] at taken
      have same := copyPages_sameOn cr3 sectHeader.addr root taken
      rw [maxPagesAlloc] at few
      refine ⟨root.moved ok fewer same, same, ?_, ?_, fun file => absurd nobits file,
        fun _ => ⟨aligned, by omega, ?_⟩⟩
      · rw [taken.free]
        exact Set.sdiff_subset
      · intro _ positive
        -- The last of the pages was free, so it lies in physical memory.
        obtain ⟨lastAligned, lastBound⟩ := free_isTable placed
          (taken.wereFree ⟨bytesToPages sectHeader.size - 1, by omega, rfl⟩)
        omega
      · intro page member
        refine ⟨taken.wereFree member, ?_⟩
        rw [taken.free]
        exact fun still => still.2 member
  · rename_i file
    cases returned
    have image := sized.image file
    have place : add64 elfPa sectHeader.offset = elfPa + sectHeader.offset := add64_eq (by omega)
    refine ⟨root, fun _ _ _ _ => rfl, Set.Subset.refl _, ?_, fun _ => place,
      fun nobits => absurd nobits file⟩
    intro aligned positive
    rw [place] at aligned ⊢
    omega

omit [Tracks owned] in
theorem Framed.walk {sectHeader : ElfSectionHeader} {pa : Nat}
    (framed : Framed owned elfPa pgd sectHeader before pa after) (address : Nat) :
    walk after.2 pgd address = walk before.2 pgd address := by
  rw [X86Paging.walk, X86Paging.walk, walkFrom_congr framed.same]

omit [Tracks owned] in
theorem Framed.advances {sectHeader : ElfSectionHeader} {pa : Nat}
    (framed : Framed owned elfPa pgd sectHeader before pa after) :
    Advances owned pgd before after := by
  refine ⟨framed.root, fun address leaf found => ?_⟩
  rw [framed.walk]
  exact found

structure ElfSectionHeader.Ok (elfPa : Nat) (sectHeader : ElfSectionHeader) : Prop where
  upper : 2 ^ 64 - 2 ^ 47 ≤ sectHeader.addr
  ends : sectHeader.addr + sectHeader.size ≤ 2 ^ 64
  image : sectHeader.type ≠ elfShtNobits → elfPa + sectHeader.offset + sectHeader.size ≤ 2 ^ 48
  small : sectHeader.type = elfShtNobits → sectHeader.size < 2 ^ 42

theorem ElfSectionHeader.Ok.sized {sectHeader : ElfSectionHeader} (ok : sectHeader.Ok elfPa) :
    sectHeader.Sized elfPa := by
  have upper := ok.upper
  have ends := ok.ends
  exact ⟨bytesToPages_eq (by omega), ok.image, ok.small⟩

theorem sectionMapFlags_valid (sectHeader : ElfSectionHeader) :
    ValidMapFlags (sectionMapFlags sectHeader) ∧
      isMaskSet (sectionMapFlags sectHeader) mapSkipIfMapped = false := by
  simp only [sectionMapFlags]
  constructor
  · left
    split <;> split <;> decide
  · split <;> split <;> decide

def SectionMapped (elfPa pgd : Nat) (sectHeader : ElfSectionHeader) (mem : Memory) : Prop :=
  sectHeader.type ≠ elfShtNobits → ∀ offset < sectHeader.size, ∃ leaf,
    walk mem pgd (sectHeader.addr + offset) = some leaf ∧
      leaf.pa = elfPa + sectHeader.offset + offset

theorem mapSection_ok {sectHeader : ElfSectionHeader} (ok : sectHeader.Ok elfPa) {i : Nat}
    (root : RootOk owned pgd before)
    (returned : mapSection cr3 elfPa pgd i sectHeader before = .ok after) :
    Advances owned pgd before after ∧
      SectionMapped elfPa pgd sectHeader after.2 := by
  unfold mapSection at returned
  obtain ⟨⟨pa, middle⟩, frames, returned⟩ := bind_ok returned
  have framed := sectionFrames_framed ok.sized root frames
  have first := framed.advances
  simp only at returned
  split at returned
  · cases returned
  · rename_i isAligned
    simp only [Bool.or_eq_true, Bool.not_eq_true', not_or, Bool.not_eq_false] at isAligned
    have vaAligned := (isAligned_iff sectHeader.addr 12).mp isAligned.1
    have paAligned := (isAligned_iff pa 12).mp isAligned.2
    have pages := ok.sized.pages
    have upper := ok.upper
    have ends := ok.ends
    have half : InOneHalf (pageStart sectHeader.addr) (bytesToPages sectHeader.size) := by
      right
      rw [pageStart_of_dvd vaAligned, pages]
      omega
    obtain ⟨valid, noSkip⟩ := sectionMapFlags_valid sectHeader
    have paBound : 0 < bytesToPages sectHeader.size →
        pageStart pa + 2 ^ 12 * bytesToPages sectHeader.size ≤ 2 ^ 48 := by
      rw [pageStart_of_dvd paAligned]
      exact framed.bound paAligned
    obtain ⟨second, maps⟩ := mapRange_ok earlyAllocators_supplies valid half paBound first.root
      returned
    refine ⟨first.trans second, ?_⟩
    intro file offset inside
    obtain ⟨leaf, found, place, _⟩ := maps noSkip vaAligned paAligned offset (by omega)
    rw [framed.file file] at place
    exact ⟨leaf, found, place⟩

theorem mapSectionsFrom_ok {header : ElfHeader} (remaining i : Nat)
    (state : PageAllocState × Memory)
    (oks : ∀ index, i ≤ index → index < i + remaining → (header.sections index).addr ≠ 0 →
      (header.sections index).Ok elfPa)
    (root : RootOk owned pgd state)
    (returned : mapSectionsFrom cr3 elfPa pgd header remaining i state = .ok after) :
    Advances owned pgd state after ∧
      ∀ index, i ≤ index → index < i + remaining → (header.sections index).addr ≠ 0 →
        SectionMapped elfPa pgd (header.sections index) after.2 := by
  induction remaining generalizing i state with
  | zero =>
      cases returned
      exact ⟨⟨root, fun _ _ found => found⟩, fun index low high => by omega⟩
  | succ remaining ih =>
      rw [mapSectionsFrom] at returned
      have later := fun index (low : i + 1 ≤ index) (high : index < i + 1 + remaining) =>
        oks index (by omega) (by omega)
      by_cases skipped : (header.sections i).addr = 0
      · rw [if_pos skipped] at returned
        obtain ⟨advances, others⟩ := ih (i + 1) state later root returned
        refine ⟨advances, ?_⟩
        intro index low high mapped
        apply others index _ (by omega) mapped
        have notFirst : index ≠ i := fun same => mapped (same ▸ skipped)
        omega
      · rw [if_neg skipped] at returned
        obtain ⟨middle, first, rest⟩ := bind_ok returned
        obtain ⟨advances, here⟩ := mapSection_ok (oks i (by omega) (by omega) skipped) root first
        obtain ⟨more, others⟩ := ih (i + 1) middle later advances.root rest
        refine ⟨advances.trans more, ?_⟩
        intro index low high mapped
        by_cases same : index = i
        · subst same
          intro file offset inside
          obtain ⟨leaf, found, place⟩ := here file offset inside
          exact ⟨leaf, more.keeps _ leaf found, place⟩
        · exact others index (by omega) (by omega) mapped

end

/-! ## The new tables -/

section

variable {owned : Stock PageAllocState} [Tracks owned] {cr3 pgd : Nat}
  {state after : PageAllocState × Memory}

theorem pageStart_le (address : Nat) : pageStart address ≤ address := Nat.div_mul_le_self _ _

theorem earlyMapKernelElf_ok {header : ElfHeader} {headerVa elfPa : Nat}
    (upper : 2 ^ 64 - 2 ^ 47 ≤ headerVa) (ends : headerVa + header.shoff + 2 ^ 13 ≤ 2 ^ 64)
    (image : elfPa + header.shoff + 2 ^ 13 ≤ 2 ^ 48)
    (oks : ∀ i < header.shnum, (header.sections i).addr ≠ 0 → (header.sections i).Ok elfPa)
    (root : RootOk owned pgd state)
    (returned : earlyMapKernelElf cr3 headerVa header elfPa pgd state = .ok after) :
    Advances owned pgd state after ∧
      ∀ i < header.shnum, (header.sections i).addr ≠ 0 →
        SectionMapped elfPa pgd (header.sections i) after.2 := by
  unfold earlyMapKernelElf at returned
  split at returned
  · cases returned
  · simp only at returned
    obtain ⟨first, sectionsCall, returned⟩ := bind_ok returned
    obtain ⟨second, headerCall, returned⟩ := bind_ok returned
    obtain ⟨advances, mapped⟩ := mapSectionsFrom_ok header.shnum 0 state
      (fun i _ inside => oks i (by omega)) root sectionsCall
    have valid : ValidMapFlags mapHeaderFlags := Or.inl (by decide)
    have place : add64 headerVa header.shoff = headerVa + header.shoff := add64_eq (by omega)
    have framed : add64 elfPa header.shoff = elfPa + header.shoff := add64_eq (by omega)
    rw [place, framed] at returned
    have vaStart := pageStart_le (headerVa + header.shoff)
    have paStart := pageStart_le (elfPa + header.shoff)
    have headerStart := pageStart_le headerVa
    have elfStart := pageStart_le elfPa
    have headerHalf : InOneHalf (pageStart headerVa) 1 := by
      right
      unfold pageStart at *
      omega
    have half : InOneHalf (pageStart (headerVa + header.shoff)) 2 := by
      right
      unfold pageStart at *
      omega
    obtain ⟨third, _⟩ := mapRange_ok earlyAllocators_supplies valid headerHalf
      (fun _ => by omega) advances.root headerCall
    obtain ⟨fourth, _⟩ := mapRange_ok earlyAllocators_supplies valid half
      (fun _ => by omega) third.root returned
    have rest := third.trans fourth
    refine ⟨advances.trans rest, ?_⟩
    intro i inside loaded file offset here
    obtain ⟨leaf, found, pa⟩ := mapped i (by omega) (by omega) loaded file offset here
    exact ⟨leaf, rest.keeps _ leaf found, pa⟩

/-- A physical address that the kernel reads and writes through the direct map. -/
inductive DirectlyMapped (info : BootInfo) (pa : Nat) : Prop
  | ram {entry : E820Entry} : entry ∈ info.ramEntries → entry.Holds pa → DirectlyMapped info pa
  | video : earlyVideoMemoryAddressPhys ≤ pa →
      pa < earlyVideoMemoryAddressPhys + pageSize * bytesToPages Video.earlyVideoSize →
      DirectlyMapped info pa

theorem earlyMapDevices_ok {apicBase : Nat} (apic : apicBase < 2 ^ 48)
    (root : RootOk owned pgd state) {middle : PageAllocState × Memory}
    (video : earlyMapVideoRange pgd state = .ok middle)
    (returned : earlyMapApicBase apicBase pgd middle = .ok after) :
    Advances owned pgd state after ∧
      ∀ offset < pageSize * bytesToPages Video.earlyVideoSize, ∃ leaf,
        walk after.2 pgd (earlyVideoMemoryAddress + offset) = some leaf ∧
          leaf.pa = earlyVideoMemoryAddressPhys + offset := by
  have valid : ValidMapFlags mapDevice := Or.inr (Or.inr (by decide))
  have apicBound : pageStart apicBase + 2 ^ 12 * 1 ≤ 2 ^ 48 := by
    unfold pageStart
    omega
  obtain ⟨last, apicCall, ioApicCall⟩ := bind_ok returned
  obtain ⟨first, maps⟩ := mapRange_ok earlyAllocators_supplies valid (Or.inr (by decide))
    (by decide) root video
  obtain ⟨second, _⟩ := mapRange_ok earlyAllocators_supplies valid (Or.inr (by decide))
    (fun _ => apicBound) first.root apicCall
  obtain ⟨third, _⟩ := mapRange_ok earlyAllocators_supplies valid (Or.inr (by decide))
    (by decide) second.root ioApicCall
  refine ⟨(first.trans second).trans third, ?_⟩
  intro offset inside
  obtain ⟨leaf, found, pa, _⟩ := maps (by decide) (by decide) (by decide) offset inside
  exact ⟨leaf, (second.trans third).keeps _ leaf found, pa⟩

/-- What the boot information and the image must be like for the ranges to make sense. -/
structure Remappable (info : BootInfo) (header : ElfHeader) (apicBase : Nat) : Prop where
  ram : ∀ entry ∈ info.ramEntries, PageAligned entry ∧ entry.base + entry.size ≤ 2 ^ 47
  sections : ∀ i < header.shnum, (header.sections i).addr ≠ 0 →
    (header.sections i).Ok kernelElfAddressPhys
  sectionHeaders : kernelElfAddressPhys + header.shoff + 2 ^ 13 ≤ 2 ^ 46
  apic : apicBase < 2 ^ 48

theorem earlyRemapPageTables_advances {info : BootInfo} {header : ElfHeader} {apicBase : Nat}
    (remappable : Remappable info header apicBase) (ok : owned.ok state.1)
    (returned : earlyRemapPageTables cr3 info header apicBase state = .ok (pgd, after)) :
    RootOk owned pgd after ∧
    (∀ pa, DirectlyMapped info pa → ∃ leaf,
      walk after.2 pgd (kernelDirectMapBase + pa) = some leaf ∧ leaf.pa = pa) ∧
    ∀ i < header.shnum, (header.sections i).addr ≠ 0 →
      SectionMapped kernelElfAddressPhys pgd (header.sections i) after.2 := by
  unfold earlyRemapPageTables earlyPagetableAlloc at returned
  cases call : alloc state.1 .pagetable with
  | error panic =>
      rw [call] at returned
      cases returned
  | ok pair =>
      obtain ⟨page, allocAfter⟩ := pair
      rw [call] at returned
      have supplied : Supplied owned state.1 state.2 page allocAfter (zeroPage state.2 page) :=
        pagetable_supplied ok call state.2
      have start : DirectMapped owned page [] (allocAfter, zeroPage state.2 page) :=
        directMapped_empty supplied.isTable supplied.zeroed supplied.ok supplied.given
      obtain ⟨first, directCall, returned⟩ := bind_ok returned
      obtain ⟨second, elfCall, returned⟩ := bind_ok returned
      obtain ⟨third, videoCall, returned⟩ := bind_ok returned
      obtain ⟨fourth, apicCall, returned⟩ := bind_ok returned
      cases returned
      have shoff := remappable.sectionHeaders
      unfold kernelElfAddressPhys at shoff
      obtain ⟨direct, ram⟩ := earlyMapDirectFrom_ok earlyAllocators_supplies _ _ _ remappable.ram
        start.root directCall
      obtain ⟨elf, sections⟩ := earlyMapKernelElf_ok (by decide)
        (by unfold kernelElfAddress kernelElfAddressPhys; omega)
        (by unfold kernelElfAddressPhys; omega) remappable.sections direct.root elfCall
      obtain ⟨devices, video⟩ := earlyMapDevices_ok remappable.apic elf.root videoCall apicCall
      refine ⟨devices.root, ?_, ?_⟩
      · intro pa reached
        cases reached with
        | @ram entry member holds =>
            obtain ⟨leaf, found, place⟩ := ram entry member pa holds
            exact ⟨leaf, (elf.trans devices).keeps _ leaf found, place⟩
        | video low high =>
            obtain ⟨offset, rfl⟩ := Nat.exists_eq_add_of_le low
            rw [← Nat.add_assoc]
            exact video offset (Nat.lt_of_add_lt_add_left high)
      · intro i inside loaded file offset here
        obtain ⟨leaf, found, pa⟩ := sections i inside loaded file offset here
        exact ⟨leaf, devices.keeps _ leaf found, pa⟩

theorem earlyRemapPageTables_ok {info : BootInfo} {header : ElfHeader} {apicBase : Nat}
    (remappable : Remappable info header apicBase) (placed : state.1.Placed)
    (returned : earlyRemapPageTables cr3 info header apicBase state = .ok (pgd, after)) :
    (∀ pa, DirectlyMapped info pa → ∃ leaf,
      walk after.2 pgd (kernelDirectMapBase + pa) = some leaf ∧ leaf.pa = pa) ∧
    ∀ i < header.shnum, (header.sections i).addr ≠ 0 →
      SectionMapped kernelElfAddressPhys pgd (header.sections i) after.2 :=
  (@earlyRemapPageTables_advances (earlyStock state.1.layout) _ _ _ _ _ _ _ _ remappable
    ⟨placed, rfl⟩ returned).2

end

/-! ## The arithmetic of `virt_to_phys` -/

/-- The address is one of the direct map, below 64 TiB. -/
def ViaDirectMap (info : BootInfo) (va : Nat) : Prop :=
  ∃ pa < 2 ^ 46, DirectlyMapped info pa ∧ va = kernelDirectMapBase + pa

/-- The section is mapped from the image, at its offset from `KERNEL_ELF_ADDRESS`. -/
structure FileBacked (sectHeader : ElfSectionHeader) : Prop where
  loaded : sectHeader.addr ≠ 0
  file : sectHeader.type ≠ elfShtNobits
  addr : sectHeader.addr = kernelElfAddress + sectHeader.offset

def InFileBackedSection (header : ElfHeader) (va : Nat) : Prop :=
  ∃ i < header.shnum, FileBacked (header.sections i) ∧ (header.sections i).addr ≤ va ∧
    va < (header.sections i).addr + (header.sections i).size

theorem virtToPhys_direct {pa : Nat} (below : pa < 2 ^ 46) :
    virtToPhys (kernelDirectMapBase + pa) = pa := by
  have low : ¬kernelDirectMapBase + pa > kernelElfAddress := by
    unfold kernelDirectMapBase kernelElfAddress kernelElfAddressPhys
    omega
  have bound : kernelDirectMapBase + pa < 2 ^ 64 := by
    unfold kernelDirectMapBase
    omega
  rw [virtToPhys]
  simp only [low, ↓reduceIte]
  rw [sub64_eq (by omega) bound, Nat.add_sub_cancel_left]

/-- Past the start of the image the result is the offset in it, not where it was loaded. -/
theorem virtToPhys_elf {offset : Nat} (bound : kernelElfAddress + offset < 2 ^ 64) :
    virtToPhys (kernelElfAddress + offset) ≠ kernelElfAddressPhys + offset := by
  rw [virtToPhys]
  by_cases first : offset = 0
  · subst first
    decide
  · have high : kernelElfAddress + offset > kernelElfAddress := by omega
    simp only [high, ↓reduceIte]
    rw [sub64_eq (by omega) bound, Nat.add_sub_cancel_left]
    unfold kernelElfAddressPhys
    omega

theorem virtToPhys_agrees_iff {cr3 pgd apicBase : Nat} {info : BootInfo} {header : ElfHeader}
    {state after : PageAllocState × Memory} (remappable : Remappable info header apicBase)
    (placed : state.1.Placed)
    (returned : earlyRemapPageTables cr3 info header apicBase state = .ok (pgd, after)) {va : Nat}
    (mapped : ViaDirectMap info va ∨ InFileBackedSection header va) :
    ∃ leaf, walk after.2 pgd va = some leaf ∧ (virtToPhys va = leaf.pa ↔ va < kernelElfAddress) := by
  obtain ⟨direct, sections⟩ := earlyRemapPageTables_ok remappable placed returned
  rcases mapped with ⟨pa, below, reached, rfl⟩ | ⟨i, inside, backed, low, high⟩
  · obtain ⟨leaf, found, place⟩ := direct pa reached
    refine ⟨leaf, found, ?_⟩
    rw [place, virtToPhys_direct below]
    refine iff_of_true rfl ?_
    unfold kernelDirectMapBase kernelElfAddress kernelElfAddressPhys
    omega
  · obtain ⟨offset, rfl⟩ := Nat.exists_eq_add_of_le low
    obtain ⟨leaf, found, place⟩ := sections i inside backed.loaded backed.file offset (by omega)
    refine ⟨leaf, found, ?_⟩
    have ends := (remappable.sections i inside backed.loaded).ends
    have away := virtToPhys_elf
      (by rw [← Nat.add_assoc, ← backed.addr]; omega :
        kernelElfAddress + ((header.sections i).offset + offset) < 2 ^ 64)
    rw [← Nat.add_assoc, ← Nat.add_assoc, ← backed.addr, ← place] at away
    refine iff_of_false away ?_
    have addr := backed.addr
    omega

/-! ## A small kernel -/

def smallInfo : BootInfo where
  totalAvailRamBytes := 0x40000
  numRamSpans := 1
  kernelElfSizeBytes := 0x3000
  numE820Entries := 1
  e820Entries := fun _ => ⟨0x100000, 0x40000, e820TypeRam⟩

/-- `.text` after the header, then `.bss`, which shares a page with the section headers. -/
def smallHeader : ElfHeader where
  shoff := 0x3040
  shnum := 3
  sections := fun i =>
    if i = 0 then ⟨0, 0, 0, 0, 0⟩
    else if i = 1 then ⟨1, 6, kernelElfAddress + 0x1000, 0x1000, 0x1800⟩
    else ⟨elfShtNobits, 3, kernelElfAddress + 0x3000, 0x3000, 0x40⟩

def smallAlloc : PageAllocState := emptyState 64 [⟨0x100000, 64⟩]

def smallRemap : Except MapStop (Nat × PageAllocState × Memory) :=
  earlyRemapPageTables 0x1000 smallInfo smallHeader 0xfee00000 (smallAlloc, fun _ => 0)

theorem smallAlloc_placed : smallAlloc.Placed := by
  apply emptyState_placed
  · intro extent member
    rw [List.mem_singleton.mp member]
    exact ⟨by decide, by decide⟩
  · exact List.pairwise_singleton _ _
  · intro extent member
    rw [List.mem_singleton.mp member]
    decide

theorem smallInfo_ram : smallInfo.ramEntries = [⟨0x100000, 0x40000, e820TypeRam⟩] := by decide

theorem smallKernel_remappable : Remappable smallInfo smallHeader 0xfee00000 := by
  refine ⟨?_, ?_, by decide, by decide⟩
  · rw [smallInfo_ram]
    intro entry member
    rw [List.mem_singleton.mp member]
    exact ⟨⟨by decide, by decide, by decide⟩, by decide⟩
  · intro i inside loaded
    have few : i = 0 ∨ i = 1 ∨ i = 2 := by
      change i < 3 at inside
      omega
    rcases few with rfl | rfl | rfl
    · exact absurd rfl loaded
    · exact ⟨by decide, by decide, by decide, by decide⟩
    · exact ⟨by decide, by decide, by decide, by decide⟩

theorem smallRemap_returns : ∃ pgd after, smallRemap = .ok (pgd, after) := by
  have ok : smallRemap.isOk = true := by decide +kernel
  cases returned : smallRemap with
  | error stop =>
      rw [returned] at ok
      cases ok
  | ok pair => exact ⟨pair.1, pair.2, rfl⟩

/-- A byte of RAM, and the character in the second row and the tenth column of the screen. -/
theorem smallKernel_direct_agrees :
    ∃ pgd after, smallRemap = .ok (pgd, after) ∧
      (∃ leaf, walk after.2 pgd (kernelDirectMapBase + 0x100123) = some leaf ∧
        virtToPhys (kernelDirectMapBase + 0x100123) = leaf.pa) ∧
      ∃ leaf, walk after.2 pgd (earlyVideoMemoryAddress + 0xb2) = some leaf ∧
        virtToPhys (earlyVideoMemoryAddress + 0xb2) = leaf.pa := by
  obtain ⟨pgd, after, returned⟩ := smallRemap_returns
  have entry : (⟨0x100000, 0x40000, e820TypeRam⟩ : E820Entry) ∈ smallInfo.ramEntries := by
    rw [smallInfo_ram]
    exact List.mem_singleton_self _
  have ram : ViaDirectMap smallInfo (kernelDirectMapBase + 0x100123) :=
    ⟨0x100123, by decide, .ram entry ⟨by decide, by decide⟩, rfl⟩
  have screen : ViaDirectMap smallInfo (earlyVideoMemoryAddress + 0xb2) :=
    ⟨0xb80b2, by decide, .video (by decide) (by decide), rfl⟩
  obtain ⟨leaf, found, agrees⟩ := virtToPhys_agrees_iff smallKernel_remappable smallAlloc_placed
    returned (Or.inl ram)
  obtain ⟨cell, shown, same⟩ := virtToPhys_agrees_iff smallKernel_remappable smallAlloc_placed
    returned (Or.inl screen)
  exact ⟨pgd, after, returned, ⟨leaf, found, agrees.mpr (by decide)⟩, cell, shown,
    same.mpr (by decide)⟩

theorem smallKernel_text_disagrees :
    ∃ pgd after, smallRemap = .ok (pgd, after) ∧
      InFileBackedSection smallHeader (kernelElfAddress + 0x1234) ∧
      (∃ leaf, walk after.2 pgd (kernelElfAddress + 0x1234) = some leaf ∧ leaf.pa = 0x1001234 ∧
        virtToPhys (kernelElfAddress + 0x1234) ≠ leaf.pa) ∧
      virtToPhys (kernelElfAddress + 0x1234) = 0x1234 := by
  obtain ⟨pgd, after, returned⟩ := smallRemap_returns
  obtain ⟨_, sections⟩ := earlyRemapPageTables_ok smallKernel_remappable smallAlloc_placed returned
  obtain ⟨leaf, found, place⟩ := sections 1 (by decide) (by decide) (by decide) 0x234 (by decide)
  have pa : leaf.pa = 0x1001234 := place
  have offset : virtToPhys (kernelElfAddress + 0x1234) = 0x1234 := by decide
  refine ⟨pgd, after, returned, ⟨1, by decide, ⟨by decide, by decide, by decide⟩, by decide, by decide⟩,
    ⟨leaf, found, pa, ?_⟩, offset⟩
  rw [offset, pa]
  decide

end Zeptux.Early
