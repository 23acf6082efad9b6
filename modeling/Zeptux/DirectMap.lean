import Zeptux.E820
import Zeptux.PageTheorems
import Zeptux.RemapCore

/-! The direct map: what is mapped from `KERNEL_DIRECT_MAP_BASE` on is exactly RAM. -/

namespace Zeptux.Early

open Page Word X86Paging

/-! ## One range after the other -/

section

variable {σ : Type} {owned : Stock σ} {alloc : PageAllocators σ}
variable {flags pgd va pa numPages : Nat} {state : σ × Memory}

/-- The tables are in order, and the allocators own none of them. -/
structure RootOk (owned : Stock σ) (pgd : Nat) (state : σ × Memory) : Prop where
  ok : owned.ok state.1
  wellFormed : WellFormed state.2 3 pgd
  unused : Disjoint (tables state.2 3 pgd) (owned state.1)

structure Ranged (owned : Stock σ) (flags pgd va pa numPages : Nat) (before after : σ × Memory) :
    Prop where
  root : RootOk owned pgd after
  permissive : Permissive before.2 3 pgd → Permissive after.2 3 pgd
  filled : ∀ offset < 2 ^ 12 * numPages,
    Filled flags (pageStart pa + offset) (walk before.2 pgd (pageStart va + offset))
      (walk after.2 pgd (pageStart va + offset))
  outside : ∀ address,
    ¬(pageStart va ≤ address ∧ address < pageStart va + 2 ^ 12 * numPages) →
      walk after.2 pgd address = walk before.2 pgd address

def RangeVisited (owned : Stock σ) (flags pgd va pa numPages : Nat) (before after : σ × Memory) :
    Prop :=
  numPages = 0 ∧ after = before ∨
    ∃ mapped : PageMapState σ, after = (mapped.alloc, mapped.mem) ∧
      Visited owned flags 3 pgd 4 (rangeStart va pa numPages before.2 before.1) mapped numPages
        numPages

theorem mapRange_visits (supplies : SuppliesTables owned alloc) (valid : ValidMapFlags flags)
    (half : InOneHalf (pageStart va) numPages)
    (paBound : 0 < numPages → pageStart pa + 2 ^ 12 * numPages ≤ 2 ^ 48)
    (root : RootOk owned pgd state) :
    Settles (RangePassable flags pgd (pageStart va) numPages state.2)
      (RangeVisited owned flags pgd va pa numPages state)
      (mapRange alloc pgd flags va pa numPages state) := by
  by_cases empty : numPages = 0
  · subst empty
    exact ⟨fun address low high => by omega, Or.inl ⟨rfl, rfl⟩⟩
  · have start : Sound owned 3 pgd (rangeStart va pa numPages state.2 state.1) :=
      ⟨root.ok, root.wellFormed, root.unused⟩
    have below := paBound (by omega)
    have word : pa < 2 ^ 64 := by
      unfold pageStart at below
      omega
    have visits := mapPageRange_visits supplies valid (by omega) half word start
    refine Settles.iff (visits.bind fun mapped _ visited => ?_) (iff_of_eq (and_true _))
      fun _ holds => holds
    exact ⟨trivial, Or.inr ⟨mapped, rfl, visited⟩⟩

theorem RangeVisited.ranged {after : σ × Memory}
    (visited : RangeVisited owned flags pgd va pa numPages state after)
    (half : InOneHalf (pageStart va) numPages)
    (paBound : 0 < numPages → pageStart pa + 2 ^ 12 * numPages ≤ 2 ^ 48)
    (root : RootOk owned pgd state) : Ranged owned flags pgd va pa numPages state after := by
  rcases visited with ⟨rfl, rfl⟩ | ⟨mapped, rfl, visited⟩
  · exact ⟨root, id, fun _ inside => by omega, fun _ _ => rfl⟩
  · have start : Sound owned 3 pgd (rangeStart va pa numPages state.2 state.1) :=
      ⟨root.ok, root.wellFormed, root.unused⟩
    have passed := visited.passed
    have below := paBound passed.positive
    have sound := passed.change.sound start
    exact ⟨⟨sound.ok, sound.wellFormed, sound.unused⟩, passed.change.permissive,
      fun _ inside => passed.walk_filled half inside (by omega),
      fun _ outside => passed.walk_outside half outside⟩

theorem mapRange_settles (supplies : SuppliesTables owned alloc) (valid : ValidMapFlags flags)
    (half : InOneHalf (pageStart va) numPages)
    (paBound : 0 < numPages → pageStart pa + 2 ^ 12 * numPages ≤ 2 ^ 48)
    (root : RootOk owned pgd state) :
    Settles (RangePassable flags pgd (pageStart va) numPages state.2)
      (Ranged owned flags pgd va pa numPages state)
      (mapRange alloc pgd flags va pa numPages state) :=
  (mapRange_visits supplies valid half paBound root).iff Iff.rfl
    fun _ visited => visited.ranged half paBound root

theorem Ranged.mapped {after : σ × Memory} (ranged : Ranged owned flags pgd va pa numPages state after)
    (vaAligned : 2 ^ 12 ∣ va) (paAligned : 2 ^ 12 ∣ pa) {offset : Nat}
    (inside : offset < 2 ^ 12 * numPages) (unmapped : walk state.2 pgd (va + offset) = none) :
    ∃ leaf, walk after.2 pgd (va + offset) = some leaf ∧ LeafAt flags (pa + offset) leaf := by
  have filled := ranged.filled offset inside
  rw [pageStart_of_dvd vaAligned, pageStart_of_dvd paAligned, unmapped] at filled
  exact filled

end

/-! ## RAM entries -/

theorem physToVirt_eq {pa : Nat} (bound : pa < 2 ^ 47) :
    physToVirt pa = kernelDirectMapBase + pa := by
  apply add64_eq
  unfold kernelDirectMapBase
  omega

theorem PageAligned.pages {entry : E820Entry} (aligned : PageAligned entry)
    (bounded : entry.base + entry.size ≤ 2 ^ 47) :
    2 ^ 12 * bytesToPages entry.size = entry.size := by
  have whole : 2 ^ 12 ∣ entry.size := aligned.size
  rw [bytesToPages_eq (by omega)]
  omega

structure DirectRange (entry : E820Entry) : Prop where
  place : physToVirt entry.base = kernelDirectMapBase + entry.base
  size : 2 ^ 12 * bytesToPages entry.size = entry.size
  vaAligned : 2 ^ 12 ∣ kernelDirectMapBase + entry.base
  paAligned : 2 ^ 12 ∣ entry.base
  half : InOneHalf (pageStart (kernelDirectMapBase + entry.base)) (bytesToPages entry.size)
  paBound : pageStart entry.base + 2 ^ 12 * bytesToPages entry.size ≤ 2 ^ 48

theorem PageAligned.directRange {entry : E820Entry} (aligned : PageAligned entry)
    (bounded : entry.base + entry.size ≤ 2 ^ 47) : DirectRange entry := by
  have size := aligned.pages bounded
  have nonempty := aligned.nonempty
  have paAligned : 2 ^ 12 ∣ entry.base := aligned.base
  have base : 2 ^ 12 ∣ kernelDirectMapBase := by decide
  have vaAligned : 2 ^ 12 ∣ kernelDirectMapBase + entry.base := Nat.dvd_add base paAligned
  refine ⟨physToVirt_eq (by omega), size, vaAligned, paAligned, ?_, ?_⟩
  · right
    rw [pageStart_of_dvd vaAligned, size, kernelDirectMapBase]
    omega
  · rw [pageStart_of_dvd paAligned, size]
    omega

structure BootInfo.DirectMappable (info : BootInfo) : Prop where
  aligned : ∀ entry ∈ info.ramEntries, PageAligned entry
  apart : info.ramEntries.Pairwise fun entry other =>
    entry.base + entry.size ≤ other.base ∨ other.base + other.size ≤ entry.base
  bounded : ∀ entry ∈ info.ramEntries, entry.base + entry.size ≤ 2 ^ 46

section

variable {σ : Type} {owned : Stock σ} {alloc : PageAllocators σ} {pgd : Nat} {state : σ × Memory}

def InDirectMap (entries : List E820Entry) (address : Nat) : Prop :=
  ∃ entry ∈ entries, kernelDirectMapBase + entry.base ≤ address ∧
    address < kernelDirectMapBase + entry.base + entry.size

/-- These entries are in the direct map, and nothing else is mapped. -/
structure DirectMapped (owned : Stock σ) (pgd : Nat) (entries : List E820Entry)
    (state : σ × Memory) : Prop where
  root : RootOk owned pgd state
  permissive : Permissive state.2 3 pgd
  inside : ∀ address, InDirectMap entries address → ∃ leaf, walk state.2 pgd address = some leaf ∧
    LeafAt mapKernel (address - kernelDirectMapBase) leaf
  outside : ∀ address, ¬InDirectMap entries address → walk state.2 pgd address = none

theorem DirectMapped.step (supplies : SuppliesTables owned alloc) {done : List E820Entry}
    {entry : E820Entry} (mapped : DirectMapped owned pgd done state) (aligned : PageAligned entry)
    (bounded : entry.base + entry.size ≤ 2 ^ 46)
    (apart : ∀ other ∈ done, other.base + other.size ≤ entry.base ∨
      entry.base + entry.size ≤ other.base) :
    Outcome (DirectMapped owned pgd (done ++ [entry]))
      (mapRange alloc pgd mapKernel (physToVirt entry.base) entry.base
        (bytesToPages entry.size : Nat) state) := by
  obtain ⟨place, size, vaAligned, paAligned, half, paBound⟩ :=
    aligned.directRange (by omega : entry.base + entry.size ≤ 2 ^ 47)
  have start := pageStart_of_dvd vaAligned
  rw [place]
  have free : ∀ address, kernelDirectMapBase + entry.base ≤ address →
      address < kernelDirectMapBase + entry.base + entry.size →
        walk state.2 pgd address = none := by
    intro address low high
    apply mapped.outside
    rintro ⟨other, member, otherLow, otherHigh⟩
    rcases apart other member with below | above
    · omega
    · omega
  have settles := mapRange_settles supplies (Or.inl (by decide) : ValidMapFlags mapKernel) half
    (fun _ => paBound) mapped.root
  rw [start] at settles
  apply (settles.outcome ?_).mono
  · intro after ranged
    have others : ∀ address, ¬(kernelDirectMapBase + entry.base ≤ address ∧
        address < kernelDirectMapBase + entry.base + entry.size) →
          walk after.2 pgd address = walk state.2 pgd address := by
      intro address away
      apply ranged.outside
      rwa [start, size]
    refine ⟨ranged.root, ranged.permissive mapped.permissive, ?_, ?_⟩
    · rintro address ⟨other, member, low, high⟩
      by_cases here : kernelDirectMapBase + entry.base ≤ address ∧
          address < kernelDirectMapBase + entry.base + entry.size
      · obtain ⟨offset, rfl⟩ := Nat.exists_eq_add_of_le here.1
        obtain ⟨leaf, found, shape⟩ := ranged.mapped vaAligned paAligned
          (by rw [size]; omega : offset < 2 ^ 12 * bytesToPages entry.size)
          (free _ here.1 here.2)
        have distance : kernelDirectMapBase + entry.base + offset - kernelDirectMapBase =
            entry.base + offset := by
          omega
        rw [distance]
        exact ⟨leaf, found, shape⟩
      · rw [others address here]
        rcases List.mem_append.mp member with old | new
        · exact mapped.inside address ⟨other, old, low, high⟩
        · rw [List.mem_singleton.mp new] at low high
          exact absurd ⟨low, high⟩ here
    · intro address away
      have here : ¬(kernelDirectMapBase + entry.base ≤ address ∧
          address < kernelDirectMapBase + entry.base + entry.size) := fun inside =>
        away ⟨entry, by simp, inside⟩
      rw [others address here]
      apply mapped.outside
      rintro ⟨other, member, inside⟩
      exact away ⟨other, List.mem_append_left _ member, inside⟩
  · intro address low high leaf found
    rw [size] at high
    rw [free address low high] at found
    cases found

def ramFrom (info : BootInfo) (i remaining : Nat) : List E820Entry :=
  (slice info.e820Entries i remaining).filter fun entry => entry.type = e820TypeRam

theorem ramFrom_ram {info : BootInfo} {i : Nat} (ram : (info.e820Entries i).type = e820TypeRam)
    (remaining : Nat) :
    ramFrom info i (remaining + 1) = info.e820Entries i :: ramFrom info (i + 1) remaining := by
  rw [ramFrom, slice, List.filter_cons_of_pos (by simpa using ram), ramFrom]

theorem ramFrom_other {info : BootInfo} {i : Nat} (other : (info.e820Entries i).type ≠ e820TypeRam)
    (remaining : Nat) : ramFrom info i (remaining + 1) = ramFrom info (i + 1) remaining := by
  rw [ramFrom, slice, List.filter_cons_of_neg (by simpa using other), ramFrom]

theorem earlyMapDirectFrom_maps (supplies : SuppliesTables owned alloc) {info : BootInfo}
    (remaining i : Nat) (done : List E820Entry) (state : σ × Memory)
    (mapped : DirectMapped owned pgd done state)
    (aligned : ∀ entry ∈ ramFrom info i remaining, PageAligned entry)
    (bounded : ∀ entry ∈ ramFrom info i remaining, entry.base + entry.size ≤ 2 ^ 46)
    (apart : (done ++ ramFrom info i remaining).Pairwise fun entry other =>
      entry.base + entry.size ≤ other.base ∨ other.base + other.size ≤ entry.base) :
    Outcome (DirectMapped owned pgd (done ++ ramFrom info i remaining))
      (earlyMapDirectFrom alloc pgd info remaining i state) := by
  induction remaining generalizing i done state with
  | zero =>
      rw [earlyMapDirectFrom, ramFrom, slice, List.filter_nil, List.append_nil]
      exact mapped
  | succ remaining ih =>
      rw [earlyMapDirectFrom]
      by_cases ram : (info.e820Entries i).type = e820TypeRam
      · rw [ramFrom_ram ram] at aligned bounded apart ⊢
        rw [if_neg (not_not.mpr ram)]
        have separate := (List.pairwise_append.mp apart).2.2
        have first := mapped.step supplies (aligned _ List.mem_cons_self)
          (bounded _ List.mem_cons_self)
          (fun other member => separate other member _ List.mem_cons_self)
        apply first.bind
        intro middle mappedMiddle
        rw [List.append_cons] at apart ⊢
        exact ih (i + 1) _ middle mappedMiddle
          (fun entry member => aligned entry (List.mem_cons_of_mem _ member))
          (fun entry member => bounded entry (List.mem_cons_of_mem _ member)) apart
      · rw [ramFrom_other ram] at aligned bounded apart ⊢
        rw [if_pos ram]
        exact ih (i + 1) done state mapped aligned bounded apart

theorem directMapped_empty (isTable : IsTable pgd)
    (empty : ∀ index < 512, entryAt state.2 pgd index = 0) (ok : owned.ok state.1)
    (unused : pgd ∉ owned state.1) : DirectMapped owned pgd [] state := by
  refine ⟨⟨ok, wellFormed_empty 3 isTable empty, ?_⟩, permissive_empty 3 empty, ?_, ?_⟩
  · rw [tables_empty 3 empty, Set.disjoint_singleton_left]
    exact unused
  · rintro address ⟨entry, member, _⟩
    cases member
  · intro address _
    rw [walk, walkFrom_empty 3 empty, ite_self]

end

structure DirectLeaf (x : Nat) (leaf : Leaf) : Prop where
  pa : leaf.pa = x
  writable : isMaskSet leaf.flags pageFlagRw = true
  notExecutable : isMaskSet leaf.flags pageFlagNx = true
  isGlobal : isMaskSet leaf.flags pageFlagGlobal = true

theorem directLeaf {x : Nat} {leaf : Leaf} (shape : LeafAt mapKernel x leaf) :
    DirectLeaf x leaf := by
  obtain ⟨pa, flags⟩ := shape
  split at flags
  · exact ⟨pa, by rw [flags]; decide, by rw [flags]; decide, by rw [flags]; decide⟩
  · exact ⟨pa, by rw [flags]; decide, by rw [flags]; decide, by rw [flags]; decide⟩

/-- The upper tables take no permission away, so that the leaf's are those of the address. -/
theorem earlyMapDirect_exact {σ : Type} {owned : Stock σ} {alloc : PageAllocators σ}
    (supplies : SuppliesTables owned alloc) {info : BootInfo} (ram : info.DirectMappable)
    {pgd : Nat} {state : σ × Memory} (isTable : IsTable pgd)
    (empty : ∀ index < 512, entryAt state.2 pgd index = 0) (ok : owned.ok state.1)
    (unused : pgd ∉ owned state.1)
    (supplied : earlyMapDirect alloc pgd info state ≠ .error .exhausted) :
    ∃ after, earlyMapDirect alloc pgd info state = .ok after ∧ Permissive after.2 3 pgd ∧
      ∀ x < 2 ^ 46,
        ((∃ entry ∈ info.ramEntries, entry.Holds x) → ∃ leaf,
          walk after.2 pgd (kernelDirectMapBase + x) = some leaf ∧ DirectLeaf x leaf) ∧
        ((¬∃ entry ∈ info.ramEntries, entry.Holds x) →
          walk after.2 pgd (kernelDirectMapBase + x) = none) := by
  have start := directMapped_empty isTable empty ok unused
  have outcome := earlyMapDirectFrom_maps supplies info.numE820Entries 0 [] state start ram.aligned
    ram.bounded ram.apart
  obtain ⟨after, returned, mapped⟩ := outcome.returns supplied
  refine ⟨after, returned, mapped.permissive, ?_⟩
  intro x _
  have holds : InDirectMap info.ramEntries (kernelDirectMapBase + x) ↔
      ∃ entry ∈ info.ramEntries, entry.Holds x := by
    simp only [InDirectMap, E820Entry.Holds, Nat.add_assoc, Nat.add_le_add_iff_left,
      Nat.add_lt_add_iff_left]
  constructor
  · intro inside
    obtain ⟨leaf, found, shape⟩ := mapped.inside _ (holds.mpr inside)
    rw [Nat.add_sub_cancel_left] at shape
    exact ⟨leaf, found, directLeaf shape⟩
  · intro outside
    exact mapped.outside _ fun inside => outside (holds.mp inside)

def splitInfo : BootInfo where
  totalAvailRamBytes := 0x402000
  numRamSpans := 2
  kernelElfSizeBytes := 0
  numE820Entries := 3
  e820Entries := fun i =>
    if i = 0 then ⟨0x200000, 0x401000, e820TypeRam⟩
    else if i = 1 then ⟨0x9f000, 0x61000, e820TypeReserved⟩
    else ⟨0x1000, 0x1000, e820TypeRam⟩

theorem splitInfo_ram : splitInfo.ramEntries =
    [⟨0x200000, 0x401000, e820TypeRam⟩, ⟨0x1000, 0x1000, e820TypeRam⟩] := by
  decide

theorem splitInfo_directMappable : splitInfo.DirectMappable := by
  refine ⟨?_, ?_, ?_⟩
  · rw [splitInfo_ram]
    intro entry member
    simp only [List.mem_cons, List.not_mem_nil, or_false] at member
    rcases member with rfl | rfl
    · exact ⟨by decide, by decide, by decide⟩
    · exact ⟨by decide, by decide, by decide⟩
  · rw [splitInfo_ram]
    decide
  · rw [splitInfo_ram]
    decide

theorem splitInfo_mapped :
    ∃ after, earlyMapDirect bumpAllocators 0x1000 splitInfo (2, fun _ => 0) = .ok after ∧
      (∃ leaf, walk after.2 0x1000 (kernelDirectMapBase + 0x600123) = some leaf ∧
        DirectLeaf 0x600123 leaf) ∧
      walk after.2 0x1000 (kernelDirectMapBase + 0x9f000) = none := by
  have ok : (earlyMapDirect bumpAllocators 0x1000 splitInfo (2, fun _ => 0)).isOk = true := by
    decide +kernel
  have unused : 0x1000 ∉ bumpPages 2 := by
    rintro ⟨number, later, same⟩
    omega
  obtain ⟨after, returned, _, exact⟩ := earlyMapDirect_exact bumpAllocators_supplies
    splitInfo_directMappable (⟨by decide, by decide⟩ : IsTable 0x1000) (fun _ _ => rfl) trivial
    unused (not_error_of_isOk ok .exhausted)
  refine ⟨after, returned, (exact 0x600123 (by decide)).1 ?_, (exact 0x9f000 (by decide)).2 ?_⟩
  · rw [splitInfo_ram]
    exact ⟨_, List.mem_cons_self, by decide, by decide⟩
  · rw [splitInfo_ram]
    rintro ⟨entry, member, low, high⟩
    simp only [List.mem_cons, List.not_mem_nil, or_false] at member
    rcases member with rfl | rfl
    · exact absurd low (by decide)
    · exact absurd high (by decide)

end Zeptux.Early
