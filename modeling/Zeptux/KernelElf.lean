import Zeptux.Remap
import Zeptux.PageLarge

/-!
What `early_map_kernel_elf` leaves in an empty PGD. Every section keeps the permissions of its
flags, since the mappings of the headers that follow skip the pages that are mapped, unless
they meet a section that is mapped by one large leaf.
-/

namespace Zeptux.Early

open Page Word X86Paging

/-! ## Runs that stop only where an allocation fails -/

/-- The early allocator has no page left, or not as many contiguous ones. -/
def AllocationFails : MapStop → Prop
  | .panic panic => panic.fmt ∈ pagesAllocTexts
  | .exhausted => True
  | .outOfFuel => False

def Finishes {α : Type} (post : α → Prop) : Except MapStop α → Prop
  | .ok value => post value
  | .error stop => AllocationFails stop

theorem Finishes.bind {α β : Type} {post : α → Prop} {final : β → Prop} {first : Except MapStop α}
    {rest : α → Except MapStop β} (finishes : Finishes post first)
    (next : ∀ value, post value → Finishes final (rest value)) :
    Finishes final (first >>= rest) := by
  cases first with
  | ok value => exact next value finishes
  | error stop => exact finishes

theorem Finishes.of_outcome {α : Type} {post : α → Prop} {result : Except MapStop α}
    (outcome : Outcome post result) : Finishes post result := by
  cases result with
  | ok value => exact outcome
  | error stop =>
      cases stop with
      | exhausted => trivial
      | panic _ => exact absurd outcome id
      | outOfFuel => exact outcome

/-! ## Sections -/

def ElfSectionHeader.Holds (sectHeader : ElfSectionHeader) (address : Nat) : Prop :=
  sectHeader.addr ≤ address ∧ address < sectHeader.addr + 2 ^ 12 * bytesToPages sectHeader.size

structure ElfSectionHeader.Mappable (elfPa : Nat) (sectHeader : ElfSectionHeader) : Prop where
  vaAligned : 2 ^ 12 ∣ sectHeader.addr
  paAligned : sectHeader.type ≠ elfShtNobits → 2 ^ 12 ∣ elfPa + sectHeader.offset
  short : sectHeader.size < 2 ^ 21
  half : InOneHalf sectHeader.addr (bytesToPages sectHeader.size)
  image : sectHeader.type ≠ elfShtNobits → elfPa + sectHeader.offset + sectHeader.size ≤ 2 ^ 48

/-- The section fills a chunk of 2 MiB, and the image is aligned to one as well. -/
def ElfSectionHeader.Large (elfPa : Nat) (sectHeader : ElfSectionHeader) : Prop :=
  sectHeader.type ≠ elfShtNobits ∧ bytesToPages sectHeader.size = 512 ∧
    2 ^ 21 ∣ sectHeader.addr ∧ 2 ^ 21 ∣ elfPa + sectHeader.offset

theorem ElfSectionHeader.Mappable.sized {elfPa : Nat} {sectHeader : ElfSectionHeader}
    (mappable : sectHeader.Mappable elfPa) : sectHeader.Sized elfPa := by
  have short := mappable.short
  exact ⟨bytesToPages_eq (by omega), mappable.image, fun _ => by omega⟩

theorem ElfSectionHeader.Mappable.few {elfPa : Nat} {sectHeader : ElfSectionHeader}
    (mappable : sectHeader.Mappable elfPa) : bytesToPages sectHeader.size ≤ 512 := by
  have short := mappable.short
  rw [mappable.sized.pages]
  omega

structure Permits (sectHeader : ElfSectionHeader) (leaf : Leaf) : Prop where
  writable : isMaskSet leaf.flags pageFlagRw = true ↔
    isMaskSet sectHeader.flags elfShfWrite = true
  executable : isMaskSet leaf.flags pageFlagNx = false ↔
    isMaskSet sectHeader.flags elfShfExecinstr = true

theorem leafAt_permits {sectHeader : ElfSectionHeader} {pa : Nat} {leaf : Leaf}
    (shape : LeafAt (sectionMapFlags sectHeader) pa leaf) : Permits sectHeader leaf := by
  obtain ⟨_, flags⟩ := shape
  rw [sectionMapFlags] at flags
  cases writes : isMaskSet sectHeader.flags elfShfWrite <;>
    cases executes : isMaskSet sectHeader.flags elfShfExecinstr <;>
    simp only [writes, executes] at flags <;> split at flags <;>
    exact ⟨by rw [flags, writes]; decide, by rw [flags, executes]; decide⟩

/-- The section is mapped to these frames, and its leaves are large only if it fills one. -/
structure SectionLaid (elfPa pgd : Nat) (sectHeader : ElfSectionHeader) (frames : Nat)
    (before after : PageAllocState × Memory) : Prop where
  leaves : ∀ offset < 2 ^ 12 * bytesToPages sectHeader.size, ∃ leaf,
    walk after.2 pgd (sectHeader.addr + offset) = some leaf ∧
      LeafAt (sectionMapFlags sectHeader) (frames + offset) leaf ∧
      (leaf.level ≠ 0 ↔ sectHeader.Large elfPa)
  file : sectHeader.type ≠ elfShtNobits → frames = elfPa + sectHeader.offset
  fresh : sectHeader.type = elfShtNobits →
    pageRun frames (bytesToPages sectHeader.size) ⊆ before.1.free \ after.1.free

structure SectionStep (layout : List Extent) (elfPa pgd : Nat) (sectHeader : ElfSectionHeader)
    (frames : Nat) (before after : PageAllocState × Memory) : Prop
    extends SectionLaid elfPa pgd sectHeader frames before after where
  root : RootOk (earlyStock layout) pgd after
  permissive : Permissive before.2 3 pgd → Permissive after.2 3 pgd
  fewer : after.1.free ⊆ before.1.free
  outside : ∀ address, ¬sectHeader.Holds address → walk after.2 pgd address = walk before.2 pgd address
  vacant : ∀ address, Canonical address →
    (∀ page, sectHeader.Holds page → region 1 page ≠ region 1 address) →
    Vacant before.2 3 pgd address → Vacant after.2 3 pgd address

section

variable {layout : List Extent} {cr3 elfPa pgd : Nat} {before middle after : PageAllocState × Memory}
variable {sectHeader : ElfSectionHeader}

theorem region_chunk {va offset : Nat} (aligned : 2 ^ 21 ∣ va) (inside : offset < 2 ^ 21) :
    region 1 (va + offset) = region 1 va := by
  have size : entrySize 1 = 2 ^ 21 := rfl
  rw [region, region, size]
  omega

theorem sectionLaid_visited (mappable : sectHeader.Mappable elfPa) {pa : Nat}
    (framed : Framed (earlyStock layout) elfPa pgd sectHeader before pa middle) (paAligned : 2 ^ 12 ∣ pa)
    (unmapped : ∀ address, sectHeader.Holds address → walk before.2 pgd address = none)
    (vacant : sectHeader.Large elfPa → Vacant before.2 3 pgd sectHeader.addr)
    (visited : RangeVisited (earlyStock layout) (sectionMapFlags sectHeader) pgd sectHeader.addr pa
      (bytesToPages sectHeader.size) middle after)
    (ranged : Ranged (earlyStock layout) (sectionMapFlags sectHeader) pgd sectHeader.addr pa
      (bytesToPages sectHeader.size) middle after) :
    SectionLaid elfPa pgd sectHeader pa before after := by
  refine ⟨?_, framed.file, ?_⟩
  · intro offset inside
    have free : walk middle.2 pgd (sectHeader.addr + offset) = none := by
      rw [framed.walk]
      exact unmapped _ ⟨Nat.le_add_right _ _, by omega⟩
    obtain ⟨leaf, found, shape⟩ := ranged.mapped mappable.vaAligned paAligned inside free
    refine ⟨leaf, found, shape, ?_, ?_⟩
    · intro isLarge
      obtain ⟨pages, va, offsets⟩ := ranged.large mappable.few free found isLarge
      rw [pageStart_of_dvd mappable.vaAligned] at va
      have file : sectHeader.type ≠ elfShtNobits := by
        intro nobits
        have few := (framed.allocated nobits).2.1
        omega
      rw [shape.1, framed.file file] at offsets
      exact ⟨file, pages, va, by omega⟩
    · intro isLarge
      obtain ⟨file, pages, va, paLarge⟩ := isLarge
      have half := mappable.half
      rw [pages] at visited half inside
      rw [← framed.file file] at paLarge
      obtain ⟨first, there, level⟩ := visited.large half va paLarge
        (vacant_congr framed.same (vacant ⟨file, pages, va, framed.file file ▸ paLarge⟩))
      have same := (walk_leaf there).2.2 (sectHeader.addr + offset)
        (by rw [level]; exact region_chunk va (by omega))
      rw [found] at same
      obtain ⟨also, same, alsoLevel⟩ := same
      cases same
      omega
  · intro nobits page member
    obtain ⟨was, notNow⟩ := (framed.allocated nobits).2.2 member
    exact ⟨was, fun still => notNow (visited.fewer still)⟩

theorem mapSection_finishes (mappable : sectHeader.Mappable elfPa)
    (root : RootOk (earlyStock layout) pgd before)
    (unmapped : ∀ address, sectHeader.Holds address → walk before.2 pgd address = none)
    (vacant : sectHeader.Large elfPa → Vacant before.2 3 pgd sectHeader.addr) (i : Nat) :
    Finishes (fun after => ∃ frames, SectionStep layout elfPa pgd sectHeader frames before after)
      (mapSection cr3 elfPa pgd i sectHeader before) := by
  unfold mapSection
  cases frames : sectionFrames cr3 elfPa sectHeader before with
  | error stop =>
      obtain ⟨panic, rfl, known⟩ := sectionFrames_panics frames
      exact known
  | ok result =>
      obtain ⟨pa, middle⟩ := result
      have framed := sectionFrames_framed mappable.sized root frames
      have paAligned : 2 ^ 12 ∣ pa := by
        by_cases nobits : sectHeader.type = elfShtNobits
        · exact (framed.allocated nobits).1
        · rw [framed.file nobits]
          exact mappable.paAligned nobits
      have vaStart := pageStart_of_dvd mappable.vaAligned
      have half := mappable.half
      rw [← vaStart] at half
      have paBound : 0 < bytesToPages sectHeader.size →
          pageStart pa + 2 ^ 12 * bytesToPages sectHeader.size ≤ 2 ^ 48 := by
        rw [pageStart_of_dvd paAligned]
        exact framed.bound paAligned
      obtain ⟨valid, _⟩ := sectionMapFlags_valid sectHeader
      have vaPasses : isAligned sectHeader.addr pageSize = true :=
        (isAligned_iff sectHeader.addr 12).mpr mappable.vaAligned
      have paPasses : isAligned pa pageSize = true := (isAligned_iff pa 12).mpr paAligned
      have visits := mapRange_visits earlyAllocators_supplies valid half paBound framed.root
      have passable : RangePassable (sectionMapFlags sectHeader) pgd (pageStart sectHeader.addr)
          (bytesToPages sectHeader.size) middle.2 := by
        intro address low high leaf found
        rw [vaStart] at low high
        rw [framed.walk, unmapped address ⟨low, high⟩] at found
        cases found
      have outcome := visits.outcome passable
      change Finishes _ (if !isAligned sectHeader.addr pageSize || !isAligned pa pageSize then
        throw _ else mapRange earlyAllocators pgd (sectionMapFlags sectHeader) sectHeader.addr pa
          (bytesToPages sectHeader.size) middle)
      rw [vaPasses, paPasses, if_neg (by decide)]
      refine Finishes.of_outcome (outcome.mono fun after visited => ?_)
      have ranged := visited.ranged half paBound framed.root
      refine ⟨pa, sectionLaid_visited mappable framed paAligned unmapped vacant visited ranged,
        ranged.root, ?_, Set.Subset.trans visited.fewer framed.fewer, ?_, ?_⟩
      · intro permissive
        exact ranged.permissive (permissive_congr framed.same permissive)
      · intro address away
        rw [ranged.outside address (by rwa [vaStart]), framed.walk]
      · intro address canonical away still
        refine visited.vacant half canonical ?_ (vacant_congr framed.same still)
        intro page low high
        rw [vaStart] at low high
        exact away page ⟨low, high⟩

end

/-! ## All sections -/

def ElfHeader.Loads (header : ElfHeader) (count i : Nat) : Prop :=
  i < count ∧ (header.sections i).addr ≠ 0

def FramesApart (header : ElfHeader) (count : Nat) (frames : Nat → Nat) : Prop :=
  ∀ i j, header.Loads count i → header.Loads count j → i ≠ j →
    (header.sections i).type = elfShtNobits → (header.sections j).type = elfShtNobits →
    Disjoint (pageRun (frames i) (bytesToPages (header.sections i).size))
      (pageRun (frames j) (bytesToPages (header.sections j).size))

/-- The first sections are mapped, and nothing else is. -/
structure SectionsLaid (layout : List Extent) (elfPa pgd : Nat) (header : ElfHeader)
    (start : PageAllocState × Memory) (count : Nat) (frames : Nat → Nat)
    (state : PageAllocState × Memory) : Prop where
  root : RootOk (earlyStock layout) pgd state
  permissive : Permissive state.2 3 pgd
  fewer : state.1.free ⊆ start.1.free
  laid : ∀ i, header.Loads count i →
    SectionLaid elfPa pgd (header.sections i) (frames i) start state
  apart : FramesApart header count frames
  outside : ∀ address, (∀ i, header.Loads count i → ¬(header.sections i).Holds address) →
    walk state.2 pgd address = none
  vacant : ∀ address, Canonical address → (∀ i, header.Loads count i →
    ∀ page, (header.sections i).Holds page → region 1 page ≠ region 1 address) →
    Vacant state.2 3 pgd address

theorem ElfHeader.loads_succ {header : ElfHeader} {count i : Nat}
    (loads : header.Loads (count + 1) i) : header.Loads count i ∨ i = count := by
  rcases Nat.lt_succ_iff_lt_or_eq.mp loads.1 with earlier | last
  · exact Or.inl ⟨earlier, loads.2⟩
  · exact Or.inr last

theorem ElfHeader.Loads.mono {header : ElfHeader} {count more i : Nat}
    (loads : header.Loads count i) (le : count ≤ more) : header.Loads more i :=
  ⟨Nat.lt_of_lt_of_le loads.1 le, loads.2⟩

section

variable {layout : List Extent} {cr3 elfPa pgd count : Nat} {header : ElfHeader}
variable {start before after : PageAllocState × Memory} {frames : Nat → Nat}

theorem SectionLaid.later {sectHeader : ElfSectionHeader} {place : Nat}
    {later : PageAllocState × Memory}
    (laid : SectionLaid elfPa pgd sectHeader place before after)
    (same : ∀ address, sectHeader.Holds address →
      walk later.2 pgd address = walk after.2 pgd address)
    (earlier : before.1.free ⊆ start.1.free) (fewer : later.1.free ⊆ after.1.free) :
    SectionLaid elfPa pgd sectHeader place start later := by
  refine ⟨?_, laid.file, ?_⟩
  · intro offset inside
    rw [same _ ⟨Nat.le_add_right _ _, by omega⟩]
    exact laid.leaves offset inside
  · intro nobits page member
    obtain ⟨was, notNow⟩ := laid.fresh nobits member
    exact ⟨earlier was, fun still => notNow (fewer still)⟩

theorem SectionsLaid.skip (laid : SectionsLaid layout elfPa pgd header start count frames before)
    (skipped : (header.sections count).addr = 0) :
    SectionsLaid layout elfPa pgd header start (count + 1) frames before := by
  have old : ∀ {i}, header.Loads (count + 1) i → header.Loads count i := by
    intro i loads
    rcases ElfHeader.loads_succ loads with earlier | rfl
    · exact earlier
    · exact absurd skipped loads.2
  exact ⟨laid.root, laid.permissive, laid.fewer, fun i loads => laid.laid i (old loads),
    fun i j first second => laid.apart i j (old first) (old second),
    fun address away => laid.outside address fun i loads => away i (loads.mono (Nat.le_succ _)),
    fun address canonical away => laid.vacant address canonical fun i loads =>
      away i (loads.mono (Nat.le_succ _))⟩

theorem SectionsLaid.step (laid : SectionsLaid layout elfPa pgd header start count frames before)
    (loaded : (header.sections count).addr ≠ 0)
    (separate : ∀ i, header.Loads count i → ∀ address, (header.sections i).Holds address →
      ¬(header.sections count).Holds address) {place : Nat}
    (step : SectionStep layout elfPa pgd (header.sections count) place before after) :
    SectionsLaid layout elfPa pgd header start (count + 1) (Function.update frames count place)
      after := by
  have here : header.Loads (count + 1) count := ⟨Nat.lt_succ_self _, loaded⟩
  have fresh : ∀ i, header.Loads count i → (header.sections i).type = elfShtNobits →
      (header.sections count).type = elfShtNobits →
      Disjoint (pageRun (frames i) (bytesToPages (header.sections i).size))
        (pageRun place (bytesToPages (header.sections count).size)) := by
    intro i loads nobits last
    rw [Set.disjoint_left]
    intro page early late
    exact ((laid.laid i loads).fresh nobits early).2 (step.fresh last late).1
  refine ⟨step.root, step.permissive laid.permissive, step.fewer.trans laid.fewer, ?_, ?_, ?_, ?_⟩
  · intro i loads
    rcases ElfHeader.loads_succ loads with earlier | rfl
    · rw [Function.update_of_ne (Nat.ne_of_lt earlier.1)]
      exact (laid.laid i earlier).later
        (fun address holds => step.outside address (separate i earlier address holds))
        (Set.Subset.refl _) step.fewer
    · rw [Function.update_self]
      exact step.toSectionLaid.later (fun _ _ => rfl) laid.fewer (Set.Subset.refl _)
  · intro i j first second different nobits nobits'
    rcases ElfHeader.loads_succ first with early | rfl
    · rw [Function.update_of_ne (Nat.ne_of_lt early.1)]
      rcases ElfHeader.loads_succ second with also | rfl
      · rw [Function.update_of_ne (Nat.ne_of_lt also.1)]
        exact laid.apart i j early also different nobits nobits'
      · rw [Function.update_self]
        exact fresh i early nobits nobits'
    · rw [Function.update_self]
      rcases ElfHeader.loads_succ second with also | rfl
      · rw [Function.update_of_ne (Nat.ne_of_lt also.1)]
        exact (fresh j also nobits' nobits).symm
      · exact absurd rfl different
  · intro address away
    rw [step.outside address (away count here)]
    exact laid.outside address fun i loads => away i (loads.mono (Nat.le_succ _))
  · intro address canonical away
    refine step.vacant address canonical (away count here) ?_
    exact laid.vacant address canonical fun i loads => away i (loads.mono (Nat.le_succ _))

theorem SectionsLaid.large_vacant
    (laid : SectionsLaid layout elfPa pgd header start count frames before)
    (mappable : (header.sections count).Mappable elfPa)
    (separate : ∀ i, header.Loads count i → ∀ address, (header.sections i).Holds address →
      ¬(header.sections count).Holds address)
    (isLarge : (header.sections count).Large elfPa) :
    Vacant before.2 3 pgd (header.sections count).addr := by
  obtain ⟨_, pages, aligned, _⟩ := isLarge
  have half := mappable.half
  rw [pages] at half
  refine laid.vacant _ (half.canonical (Nat.le_refl _) (by omega)) ?_
  intro i loads page holds same
  have size : entrySize 1 = 2 ^ 21 := rfl
  rw [region, region, size] at same
  refine separate i loads page holds ⟨by omega, ?_⟩
  rw [pages]
  omega

theorem mapSectionsFrom_finishes (remaining count : Nat) (frames : Nat → Nat)
    (state : PageAllocState × Memory)
    (laid : SectionsLaid layout elfPa pgd header start count frames state)
    (mappable : ∀ i, header.Loads (count + remaining) i → (header.sections i).Mappable elfPa)
    (separate : ∀ i j, header.Loads (count + remaining) i → header.Loads (count + remaining) j →
      i ≠ j → ∀ address, (header.sections i).Holds address → ¬(header.sections j).Holds address) :
    Finishes (fun after => ∃ frames,
        SectionsLaid layout elfPa pgd header start (count + remaining) frames after)
      (mapSectionsFrom cr3 elfPa pgd header remaining count state) := by
  induction remaining generalizing count frames state with
  | zero => exact ⟨frames, laid⟩
  | succ remaining ih =>
      have total : count + (remaining + 1) = count + 1 + remaining := by omega
      rw [mapSectionsFrom]
      rw [total] at mappable separate ⊢
      by_cases skipped : (header.sections count).addr = 0
      · rw [if_pos skipped]
        exact ih (count + 1) frames state (laid.skip skipped) mappable separate
      · rw [if_neg skipped]
        have here : header.Loads (count + 1 + remaining) count := ⟨by omega, skipped⟩
        have fits := mappable count here
        have away : ∀ i, header.Loads count i → ∀ address, (header.sections i).Holds address →
            ¬(header.sections count).Holds address := fun i loads =>
          separate i count (loads.mono (by omega)) here (Nat.ne_of_lt loads.1)
        refine (mapSection_finishes fits laid.root ?_ (laid.large_vacant fits away) count).bind ?_
        · intro address holds
          exact laid.outside address fun i loads other => away i loads address other holds
        · rintro after ⟨place, step⟩
          exact ih (count + 1) _ after (laid.step skipped away step) mappable separate

end

/-! ## The headers -/

structure ReadOnly (leaf : Leaf) : Prop where
  notWritable : isMaskSet leaf.flags pageFlagRw = false
  notExecutable : isMaskSet leaf.flags pageFlagNx = true

theorem leafAt_readOnly {pa : Nat} {leaf : Leaf} (shape : LeafAt mapHeaderFlags pa leaf) :
    ReadOnly leaf := by
  obtain ⟨_, flags⟩ := shape
  split at flags
  · exact ⟨by rw [flags]; decide, by rw [flags]; decide⟩
  · exact ⟨by rw [flags]; decide, by rw [flags]; decide⟩

structure HeaderStep (layout : List Extent) (pgd va numPages : Nat)
    (before after : PageAllocState × Memory) : Prop where
  root : RootOk (earlyStock layout) pgd after
  permissive : Permissive before.2 3 pgd → Permissive after.2 3 pgd
  fewer : after.1.free ⊆ before.1.free
  keeps : ∀ address leaf, walk before.2 pgd address = some leaf →
    walk after.2 pgd address = some leaf
  fills : ∀ address, pageStart va ≤ address → address < pageStart va + 2 ^ 12 * numPages →
    walk before.2 pgd address = none →
      ∃ leaf, walk after.2 pgd address = some leaf ∧ ReadOnly leaf ∧ leaf.level = 0
  outside : ∀ address,
    ¬(pageStart va ≤ address ∧ address < pageStart va + 2 ^ 12 * numPages) →
      walk after.2 pgd address = walk before.2 pgd address

section

variable {layout : List Extent} {pgd va pa numPages : Nat}
variable {before middle after : PageAllocState × Memory}

def SmallPages (pgd va numPages : Nat) (mem : Memory) : Prop :=
  ∀ address, pageStart va ≤ address → address < pageStart va + 2 ^ 12 * numPages →
    ∀ leaf, walk mem pgd address = some leaf → leaf.level = 0

theorem mapHeader_settles (few : numPages < 512) (half : InOneHalf (pageStart va) numPages)
    (paBound : pageStart pa + 2 ^ 12 * numPages ≤ 2 ^ 48)
    (root : RootOk (earlyStock layout) pgd before) :
    Settles (SmallPages pgd va numPages before.2) (HeaderStep layout pgd va numPages before)
      (mapRange earlyAllocators pgd mapHeaderFlags va pa numPages before) := by
  have valid : ValidMapFlags mapHeaderFlags := Or.inl (by decide)
  have skips : isMaskSet mapHeaderFlags mapSkipIfMapped = true := by decide
  refine (mapRange_visits earlyAllocators_supplies valid half (fun _ => paBound) root).iff ?_ ?_
  · constructor
    · exact fun passable address low high leaf found => (passable address low high leaf found).2
    · exact fun small address low high leaf found => ⟨skips, small address low high leaf found⟩
  · intro after visited
    have ranged := visited.ranged half (fun _ => paBound) root
    refine ⟨ranged.root, ranged.permissive, visited.fewer, ranged.advances.keeps, ?_,
      ranged.outside⟩
    intro address low high unmapped
    obtain ⟨offset, rfl⟩ := Nat.exists_eq_add_of_le low
    have filled := ranged.filled offset (by omega)
    rw [unmapped] at filled
    obtain ⟨leaf, found, shape⟩ := filled
    refine ⟨leaf, found, leafAt_readOnly shape, ?_⟩
    by_contra isLarge
    have pages := (ranged.large (by omega) unmapped found isLarge).1
    omega

theorem HeaderStep.smallPages_iff {nextVa nextPages : Nat}
    (step : HeaderStep layout pgd va numPages before after) :
    SmallPages pgd nextVa nextPages after.2 ↔ SmallPages pgd nextVa nextPages before.2 := by
  constructor
  · intro small address low high leaf found
    exact small address low high leaf (step.keeps address leaf found)
  · intro small address low high leaf found
    cases was : walk before.2 pgd address with
    | some old =>
        have kept := step.keeps address old was
        rw [found] at kept
        cases kept
        exact small address low high leaf was
    | none =>
        by_cases inside : pageStart va ≤ address ∧ address < pageStart va + 2 ^ 12 * numPages
        · obtain ⟨new, there, _, level⟩ := step.fills address inside.1 inside.2 was
          rw [found] at there
          cases there
          exact level
        · rw [step.outside address inside, was] at found
          cases found

end

/-! ## The kernel ELF -/

/-- The address is in the header's page or in one of the two of the section headers. -/
def HeaderPage (headerVa : Nat) (header : ElfHeader) (address : Nat) : Prop :=
  headerVa ≤ address ∧ address < headerVa + 2 ^ 12 ∨
    pageStart (headerVa + header.shoff) ≤ address ∧
      address < pageStart (headerVa + header.shoff) + 2 ^ 13

/-- Page-aligned sections below 2 MiB with no page in common, and headers in the image. -/
structure MappableElf (headerVa elfPa : Nat) (header : ElfHeader) : Prop where
  aligned : 2 ^ 12 ∣ headerVa
  half : InOneHalf headerVa 1
  image : elfPa < 2 ^ 48
  headersHalf : InOneHalf (pageStart (headerVa + header.shoff)) 2
  headersImage : pageStart (elfPa + header.shoff) + 2 ^ 13 ≤ 2 ^ 48
  sections : ∀ i, header.Loads header.shnum i → (header.sections i).Mappable elfPa
  separate : ∀ i j, header.Loads header.shnum i → header.Loads header.shnum j → i ≠ j →
    ∀ address, (header.sections i).Holds address → ¬(header.sections j).Holds address

structure SectionProtected (elfPa pgd : Nat) (sectHeader : ElfSectionHeader) (frames : Nat)
    (before after : PageAllocState × Memory) : Prop where
  leaves : ∀ offset < 2 ^ 12 * bytesToPages sectHeader.size, ∃ leaf,
    walk after.2 pgd (sectHeader.addr + offset) = some leaf ∧ leaf.pa = frames + offset ∧
      Permits sectHeader leaf
  file : sectHeader.type ≠ elfShtNobits → frames = elfPa + sectHeader.offset
  fresh : sectHeader.type = elfShtNobits →
    pageRun frames (bytesToPages sectHeader.size) ⊆ before.1.free \ after.1.free

/-- What `early_map_kernel_elf` is for. The upper tables take no permission away, so that the
leaf's are those of the address. -/
structure ElfProtected (headerVa elfPa pgd : Nat) (header : ElfHeader)
    (before after : PageAllocState × Memory) : Prop where
  permissive : Permissive after.2 3 pgd
  sections : ∃ frames : Nat → Nat, FramesApart header header.shnum frames ∧
    ∀ i, header.Loads header.shnum i →
      SectionProtected elfPa pgd (header.sections i) (frames i) before after
  headers : ∀ address, HeaderPage headerVa header address →
    (∀ i, header.Loads header.shnum i → ¬(header.sections i).Holds address) →
    ∃ leaf, walk after.2 pgd address = some leaf ∧ ReadOnly leaf

def LargeSectionsApart (headerVa elfPa : Nat) (header : ElfHeader) : Prop :=
  ∀ i, header.Loads header.shnum i → (header.sections i).Large elfPa →
    ∀ address, HeaderPage headerVa header address → ¬(header.sections i).Holds address

section

variable {layout : List Extent} {cr3 headerVa elfPa pgd : Nat} {header : ElfHeader}
variable {state middle after : PageAllocState × Memory} {frames : Nat → Nat}

theorem SectionsLaid.level_iff
    (laid : SectionsLaid layout elfPa pgd header state header.shnum frames middle) (address : Nat) :
    (∀ leaf, walk middle.2 pgd address = some leaf → leaf.level = 0) ↔
      ∀ i, header.Loads header.shnum i → (header.sections i).Large elfPa →
        ¬(header.sections i).Holds address := by
  have leafIn : ∀ i, header.Loads header.shnum i → (header.sections i).Holds address →
      ∃ leaf, walk middle.2 pgd address = some leaf ∧
        (leaf.level ≠ 0 ↔ (header.sections i).Large elfPa) := by
    intro i loads holds
    obtain ⟨offset, rfl⟩ := Nat.exists_eq_add_of_le holds.1
    have inside := holds.2
    obtain ⟨leaf, found, _, level⟩ := (laid.laid i loads).leaves offset (by omega)
    exact ⟨leaf, found, level⟩
  constructor
  · intro small i loads isLarge holds
    obtain ⟨leaf, found, level⟩ := leafIn i loads holds
    exact level.mpr isLarge (small leaf found)
  · intro apart leaf found
    by_contra isLarge
    have unmapped : walk middle.2 pgd address = none := by
      refine laid.outside address fun i loads holds => ?_
      obtain ⟨also, there, level⟩ := leafIn i loads holds
      rw [found] at there
      cases there
      exact apart i loads (level.mp isLarge) holds
    rw [unmapped] at found
    cases found

theorem SectionsLaid.small_iff
    (laid : SectionsLaid layout elfPa pgd header state header.shnum frames middle)
    (aligned : 2 ^ 12 ∣ headerVa) :
    (SmallPages pgd headerVa 1 middle.2 ∧ SmallPages pgd (headerVa + header.shoff) 2 middle.2) ↔
      LargeSectionsApart headerVa elfPa header := by
  have first : SmallPages pgd headerVa 1 middle.2 ∧
      SmallPages pgd (headerVa + header.shoff) 2 middle.2 ↔
        ∀ address, HeaderPage headerVa header address →
          ∀ leaf, walk middle.2 pgd address = some leaf → leaf.level = 0 := by
    rw [SmallPages, pageStart_of_dvd aligned]
    constructor
    · rintro ⟨page, pages⟩ address (⟨low, high⟩ | ⟨low, high⟩)
      · exact page address low high
      · exact pages address low high
    · intro small
      exact ⟨fun address low high => small address (Or.inl ⟨low, high⟩),
        fun address low high => small address (Or.inr ⟨low, high⟩)⟩
  rw [first]
  constructor
  · intro small i loads isLarge address isHeader
    exact (laid.level_iff address).mp (small address isHeader) i loads isLarge
  · intro apart address isHeader
    exact (laid.level_iff address).mpr fun i loads isLarge => apart i loads isLarge address isHeader

theorem SectionsLaid.protected {first : PageAllocState × Memory}
    (laid : SectionsLaid layout elfPa pgd header state header.shnum frames middle)
    (aligned : 2 ^ 12 ∣ headerVa) (one : HeaderStep layout pgd headerVa 1 middle first)
    (two : HeaderStep layout pgd (headerVa + header.shoff) 2 first after) :
    ElfProtected headerVa elfPa pgd header state after := by
  refine ⟨two.permissive (one.permissive laid.permissive), ⟨frames, laid.apart, ?_⟩, ?_⟩
  · intro i loads
    have mapped := laid.laid i loads
    refine ⟨?_, mapped.file, ?_⟩
    · intro offset inside
      obtain ⟨leaf, found, shape, _⟩ := mapped.leaves offset inside
      exact ⟨leaf, two.keeps _ leaf (one.keeps _ leaf found), shape.1, leafAt_permits shape⟩
    · intro nobits page member
      obtain ⟨was, notNow⟩ := mapped.fresh nobits member
      exact ⟨was, fun still => notNow (one.fewer (two.fewer still))⟩
  · intro address isHeader away
    have unmapped := laid.outside address away
    by_cases inHeader : pageStart headerVa ≤ address ∧ address < pageStart headerVa + 2 ^ 12 * 1
    · obtain ⟨leaf, found, readOnly, _⟩ := one.fills address inHeader.1 inHeader.2 unmapped
      exact ⟨leaf, two.keeps _ leaf found, readOnly⟩
    · rw [← one.outside address inHeader] at unmapped
      rw [pageStart_of_dvd aligned] at inHeader
      obtain ⟨low, high⟩ := isHeader.resolve_left inHeader
      obtain ⟨leaf, found, readOnly, _⟩ := two.fills address low high unmapped
      exact ⟨leaf, found, readOnly⟩

theorem mapHeaders_settles (mappable : MappableElf headerVa elfPa header)
    (laid : SectionsLaid layout elfPa pgd header state header.shnum frames middle) :
    Settles (LargeSectionsApart headerVa elfPa header)
      (ElfProtected headerVa elfPa pgd header state)
      (mapRange earlyAllocators pgd mapHeaderFlags headerVa elfPa 1 middle >>= fun first =>
        mapRange earlyAllocators pgd mapHeaderFlags (headerVa + header.shoff)
          (elfPa + header.shoff) 2 first) := by
  have start := pageStart_of_dvd mappable.aligned
  have half := mappable.half
  have image := mappable.image
  rw [← start] at half
  rw [← laid.small_iff mappable.aligned]
  have elfBound : pageStart elfPa + 2 ^ 12 * 1 ≤ 2 ^ 48 := by
    unfold pageStart
    omega
  refine (mapHeader_settles (by decide) half elfBound laid.root).bind ?_
  intro first _ one
  exact (mapHeader_settles (by decide) mappable.headersHalf mappable.headersImage one.root).iff
    one.smallPages_iff fun after two => laid.protected mappable.aligned one two

theorem sectionsLaid_empty (isTable : IsTable pgd)
    (empty : ∀ index < 512, entryAt state.2 pgd index = 0) (placed : state.1.Placed)
    (unused : pgd ∉ state.1.free) (frames : Nat → Nat) :
    SectionsLaid state.1.layout elfPa pgd header state 0 frames state := by
  have none : ∀ {i}, ¬header.Loads 0 i := fun loads => Nat.not_lt_zero _ loads.1
  have start : DirectMapped (earlyStock state.1.layout) pgd [] state :=
    directMapped_empty isTable empty ⟨placed, rfl⟩ unused
  exact ⟨start.root, start.permissive, Set.Subset.refl _, fun i loads => absurd loads none,
    fun i _ loads => absurd loads none, fun address _ => start.outside address (by simp [InDirectMap]),
    fun address _ _ => vacant_empty 2 empty address⟩

end

/-- A section below 2 MiB can still fill 512 pages; mapped by one large leaf, it is not skipped
where a header lies in it. -/
theorem earlyMapKernelElf_protects_iff {cr3 headerVa elfPa pgd : Nat} {header : ElfHeader}
    {state : PageAllocState × Memory} (mappable : MappableElf headerVa elfPa header)
    (isTable : IsTable pgd) (empty : ∀ index < 512, entryAt state.2 pgd index = 0)
    (placed : state.1.Placed) (unused : pgd ∉ state.1.free)
    (supplied : ∀ stop, earlyMapKernelElf cr3 headerVa header elfPa pgd state = .error stop →
      ¬AllocationFails stop) :
    (∃ after, earlyMapKernelElf cr3 headerVa header elfPa pgd state = .ok after ∧
      ElfProtected headerVa elfPa pgd header state after) ↔
      LargeSectionsApart headerVa elfPa header := by
  have passes : isAligned headerVa pageSize = true :=
    (isAligned_iff headerVa 12).mpr mappable.aligned
  have vaPlace : add64 headerVa header.shoff = headerVa + header.shoff := by
    have half := mappable.headersHalf
    unfold InOneHalf pageStart at half
    exact add64_eq (by omega)
  have paPlace : add64 elfPa header.shoff = elfPa + header.shoff := by
    have image := mappable.headersImage
    unfold pageStart at image
    exact add64_eq (by omega)
  have shape : earlyMapKernelElf cr3 headerVa header elfPa pgd state =
      mapSectionsFrom cr3 elfPa pgd header header.shnum 0 state >>= fun middle =>
        mapRange earlyAllocators pgd mapHeaderFlags headerVa elfPa 1 middle >>= fun first =>
          mapRange earlyAllocators pgd mapHeaderFlags (headerVa + header.shoff)
            (elfPa + header.shoff) 2 first := by
    rw [earlyMapKernelElf, passes, vaPlace, paPlace]
    rfl
  have finishes : Finishes (fun middle => ∃ frames, SectionsLaid state.1.layout elfPa pgd header
      state (0 + header.shnum) frames middle)
      (mapSectionsFrom cr3 elfPa pgd header header.shnum 0 state) := by
    apply mapSectionsFrom_finishes header.shnum 0 (fun _ => 0) state
      (sectionsLaid_empty isTable empty placed unused _)
    · rw [Nat.zero_add]
      exact mappable.sections
    · rw [Nat.zero_add]
      exact mappable.separate
  rw [Nat.zero_add] at finishes
  cases result : mapSectionsFrom cr3 elfPa pgd header header.shnum 0 state with
  | error stop =>
      rw [result] at finishes shape
      exact absurd finishes (supplied stop shape)
  | ok middle =>
      rw [result] at finishes shape
      obtain ⟨frames, laid⟩ := finishes
      have settles := mapHeaders_settles mappable laid
      have enough := fun stops => supplied .exhausted stops trivial
      rw [shape] at enough ⊢
      exact settles.returns_iff enough

theorem smallAlloc_free : 0x1000 ∉ smallAlloc.free := by
  rintro ⟨index, span, offset, here, inside, _, place⟩
  have member := List.mem_of_getElem? here
  rw [show smallAlloc.spans = [Extent.emptySpan ⟨0x100000, 64⟩] by rfl, List.mem_singleton] at member
  rw [member] at place
  change 0x1000 = 0x100000 + 2 ^ 12 * offset at place
  omega

theorem smallHeader_loads {i : Nat} (loads : smallHeader.Loads smallHeader.shnum i) :
    i = 1 ∨ i = 2 := by
  obtain ⟨inside, loaded⟩ := loads
  have positive : i ≠ 0 := by
    rintro rfl
    exact loaded rfl
  change i < 3 at inside
  omega

theorem smallHeader_mappable : MappableElf kernelElfAddress kernelElfAddressPhys smallHeader := by
  refine ⟨by decide, Or.inr (by decide), by decide, Or.inr (by decide), by decide, ?_, ?_⟩
  · intro i loads
    rcases smallHeader_loads loads with rfl | rfl
    · exact ⟨by decide, by decide, by decide, Or.inr (by decide), by decide⟩
    · exact ⟨by decide, by decide, by decide, Or.inr (by decide), by decide⟩
  · intro i j first second different address holds other
    have text : (smallHeader.sections 1).Holds address → address < kernelElfAddress + 0x3000 :=
      fun holds => holds.2
    have bss : (smallHeader.sections 2).Holds address → kernelElfAddress + 0x3000 ≤ address :=
      fun holds => holds.1
    rcases smallHeader_loads first with rfl | rfl
    · rcases smallHeader_loads second with rfl | rfl
      · exact different rfl
      · exact absurd (text holds) (Nat.not_lt.mpr (bss other))
    · rcases smallHeader_loads second with rfl | rfl
      · exact absurd (text other) (Nat.not_lt.mpr (bss holds))
      · exact different rfl

theorem smallKernel_protected :
    ∃ after, earlyMapKernelElf 0x2000 kernelElfAddress smallHeader kernelElfAddressPhys 0x1000
        (smallAlloc, fun _ => 0) = .ok after ∧
      ElfProtected kernelElfAddress kernelElfAddressPhys 0x1000 smallHeader (smallAlloc, fun _ => 0)
        after := by
  have returns : (earlyMapKernelElf 0x2000 kernelElfAddress smallHeader kernelElfAddressPhys 0x1000
      (smallAlloc, fun _ => 0)).isOk = true := by decide +kernel
  refine (earlyMapKernelElf_protects_iff smallHeader_mappable ⟨by decide, by decide⟩
    (fun _ _ => rfl) smallAlloc_placed smallAlloc_free ?_).mpr ?_
  · intro stop stops
    exact absurd stops (not_error_of_isOk returns stop)
  · rintro i loads ⟨_, pages, _⟩
    rcases smallHeader_loads loads with rfl | rfl
    · exact absurd pages (by decide)
    · exact absurd pages (by decide)

/-- A section of 2 MiB less 2 KiB, with the section headers right behind it in its last page. -/
def largeHeader : ElfHeader where
  shoff := 0x3ff800
  shnum := 1
  sections := fun _ => ⟨1, 3, kernelElfAddress + 0x200000, 0x200000, 0x1ff800⟩

theorem largeHeader_mappable : MappableElf kernelElfAddress kernelElfAddressPhys largeHeader := by
  refine ⟨by decide, Or.inr (by decide), by decide, Or.inr (by decide), by decide, ?_, ?_⟩
  · intro i _
    change (largeHeader.sections 0).Mappable kernelElfAddressPhys
    exact ⟨by decide, by decide, by decide, Or.inr (by decide), by decide⟩
  · rintro i j ⟨first, _⟩ ⟨second, _⟩ different
    change i < 1 at first
    change j < 1 at second
    omega

def panicText {α : Type} : Except MapStop α → Option String
  | .error (.panic panic) => some panic.fmt
  | _ => none

theorem panicText_eq_some {α : Type} {result : Except MapStop α} {text : String}
    (panics : panicText result = some text) :
    ∃ panic, result = .error (.panic panic) ∧ panic.fmt = text := by
  unfold panicText at panics
  split at panics
  · rename_i panic
    exact ⟨panic, rfl, Option.some.inj panics⟩
  · cases panics

theorem largeHeader_panics :
    MappableElf kernelElfAddress kernelElfAddressPhys largeHeader ∧ smallAlloc.Placed ∧
      0x1000 ∉ smallAlloc.free ∧
      ∃ panic, earlyMapKernelElf 0x2000 kernelElfAddress largeHeader kernelElfAddressPhys 0x1000
          (smallAlloc, fun _ => 0) = .error (.panic panic) ∧
        panic.fmt = "Unable to map VA 0x%lx at PA 0x%lx as 2 MiB PMDE already maps to 0x%lx" := by
  refine ⟨largeHeader_mappable, smallAlloc_placed, smallAlloc_free, panicText_eq_some ?_⟩
  decide +kernel

end Zeptux.Early
