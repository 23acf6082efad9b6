import Zeptux.Remap
import Zeptux.EarlyRun
import Zeptux.PhysOwned

/-!
The pages of the kernel's page tables, from `early_remap_page_tables` on: they are marked as such
in the early allocator, which the handover turns into the type of their physblocks, and the
physical allocator does not hand them out.
-/

namespace Zeptux.Early

open Page Word X86Paging

def PageAllocState.pagesOf (state : PageAllocState) (type : AllocType) : Set Nat :=
  {pa | ∃ (index : Nat) (span : PageAllocSpan) (offset : Nat), state.spans[index]? = some span ∧
    (span.bitmapOf type).isSet offset = true ∧ pa = span.extent.page offset}

theorem mem_pagesOf_mark {state : PageAllocState} {index offset : Nat} {span : PageAllocSpan}
    (here : state.spans[index]? = some span) (type kind : AllocType) (pa : Nat) :
    pa ∈ (markPageAllocated state index offset type).pagesOf kind ↔
      pa ∈ state.pagesOf kind ∨ (kind = .normal ∨ kind = type) ∧ pa = span.extent.page offset := by
  constructor
  · rintro ⟨place, next, bit, there, isSet, rfl⟩
    rw [markPageAllocated_spans, List.getElem?_modify] at there
    split at there
    · rename_i same
      subst same
      rw [here] at there
      cases there
      rw [isSet_bitmapOf_mark, Bool.or_eq_true, decide_eq_true_iff] at isSet
      rcases isSet with ⟨kinds, rfl⟩ | old
      · exact Or.inr ⟨kinds, by simp⟩
      · exact Or.inl ⟨index, span, bit, here, old, by simp⟩
    · exact Or.inl ⟨place, next, bit, by simpa using there, isSet, rfl⟩
  · rintro (⟨place, next, bit, there, isSet, rfl⟩ | ⟨kinds, rfl⟩)
    · by_cases same : index = place
      · subst same
        rw [here] at there
        cases there
        refine ⟨index, span.mark offset type, bit, markPageAllocated_here here, ?_, by simp⟩
        rw [isSet_bitmapOf_mark, isSet, Bool.or_true]
      · refine ⟨place, next, bit, ?_, isSet, rfl⟩
        rw [markPageAllocated_spans, List.getElem?_modify]
        simp [same, there]
    · refine ⟨index, span.mark offset type, offset, markPageAllocated_here here, ?_, by simp⟩
      rw [isSet_bitmapOf_mark, decide_eq_true ⟨kinds, rfl⟩, Bool.true_or]

theorem page_ne_of_clear {state : PageAllocState} (booked : ∀ span ∈ state.spans, span.Booked)
    (placed : state.Placed) {index offset : Nat} {span : PageAllocSpan}
    (here : state.spans[index]? = some span) (inside : offset < span.numPages)
    (clear : span.allocBitmap.isSet offset = false) {type : AllocType} {pa : Nat}
    (marked : pa ∈ state.pagesOf type) : span.extent.page offset ≠ pa := by
  rintro rfl
  obtain ⟨place, next, bit, there, isSet, same⟩ := marked
  have books := booked next (List.mem_of_getElem? there)
  obtain ⟨rfl, rfl⟩ := placed.page_inj here there inside (books.inside _ _ isSet) same
  rw [here] at there
  cases there
  rw [books.subset _ _ isSet] at clear
  cases clear

theorem pagesOf_disjoint {state : PageAllocState} (booked : ∀ span ∈ state.spans, span.Booked)
    (placed : state.Placed) {type other : AllocType} (kind : type ≠ .normal)
    (otherKind : other ≠ .normal) (different : type ≠ other) :
    Disjoint (state.pagesOf type) (state.pagesOf other) := by
  rw [Set.disjoint_left]
  rintro pa ⟨index, span, offset, here, isSet, rfl⟩ ⟨place, next, bit, there, isSet', same⟩
  have books := booked span (List.mem_of_getElem? here)
  have inside := (booked next (List.mem_of_getElem? there)).inside _ _ isSet'
  obtain ⟨rfl, rfl⟩ := placed.page_inj here there (books.inside _ _ isSet) inside same
  rw [here] at there
  cases there
  rw [books.apart type other offset kind otherKind different isSet] at isSet'
  cases isSet'

/-- Tables may only be built in pages that are marked as such. The reserved pages are in use for
something else. -/
def tableStock (layout : List Extent) (reserved : Set Nat) : Stock PageAllocState where
  ok := fun state => state.Kept ∧ state.Placed ∧ state.layout = layout ∧
    reserved ⊆ state.pagesOf .normal \ state.pagesOf .pagetable
  pages := fun state => (state.pagesOf .pagetable)ᶜ

instance tableStock_tracks {layout : List Extent} {reserved : Set Nat} :
    Tracks (tableStock layout reserved) where
  placed := fun ok => ok.2.1
  owns := by
    rintro state ok pa ⟨index, span, offset, here, inside, clear, rfl⟩ marked
    exact page_ne_of_clear ok.1.spans ok.2.1 here inside clear marked rfl
  marks := by
    intro state index offset span type ok here inside clear _
    have taken := takes_mark ok.2.1 here inside clear type
    refine ⟨⟨ok.1.mark here inside clear type, taken.placed, taken.layout.trans ok.2.2.1, ?_⟩, ?_⟩
    · intro pa inUse
      obtain ⟨used, noTable⟩ := ok.2.2.2 inUse
      refine ⟨(mem_pagesOf_mark here type .normal pa).mpr (Or.inl used), fun marked => ?_⟩
      rcases (mem_pagesOf_mark here type .pagetable pa).mp marked with table | ⟨-, same⟩
      · exact noTable table
      · exact page_ne_of_clear ok.1.spans ok.2.1 here inside clear used same.symm
    · intro pa notMarked marked
      exact notMarked ((mem_pagesOf_mark here type .pagetable pa).mpr (Or.inl marked))
  table := by
    intro state index offset span ok here inside clear outside
    exact outside ((mem_pagesOf_mark here .pagetable .pagetable _).mpr (Or.inr ⟨Or.inr rfl, rfl⟩))

/-! ## The first pass of `early_init_mem_map` -/

section

variable {layout : List Extent} {pgd number : Nat} {state after : EarlyState}

theorem RootOk.zeroed {owned : Stock PageAllocState} [Tracks owned] {type : AllocType} {pa : Nat}
    {taken : PageAllocState} (root : RootOk owned pgd (state.alloc, state.mem))
    (kind : type ≠ .ephemeral) (call : alloc state.alloc type = .ok (pa, taken)) :
    Advances owned pgd (state.alloc, state.mem) (taken, zeroPage state.mem pa) ∧ IsTable pa := by
  obtain ⟨wasFree, ok, fewer⟩ := alloc_tracked root.ok kind call
  have isTable := free_isTable (Tracks.placed root.ok) wasFree
  have same : SameOn state.mem (zeroPage state.mem pa) (tables state.mem 3 pgd) := by
    intro page used index inside
    refine entryAt_zeroPage_other isTable (root.wellFormed.tables_isTable used) ?_ _ inside
    rintro rfl
    exact Set.disjoint_left.mp root.unused used (Tracks.owns root.ok wasFree)
  refine ⟨⟨root.moved ok fewer same, fun address leaf found => ?_⟩, isTable⟩
  rw [walk, walkFrom_congr same]
  exact found

theorem mapPhysblockPage_advances {owned : Stock PageAllocState} [Tracks owned]
    (bound : number < 2 ^ 30) (root : RootOk owned pgd (state.alloc, state.mem))
    (returned : mapPhysblockPage pgd (arrayVa number) state = .ok after) :
    Advances owned pgd (state.alloc, state.mem) (after.alloc, after.mem) := by
  unfold mapPhysblockPage earlyPhysblockPageAlloc at returned
  cases call : alloc state.alloc .physblock with
  | error panic =>
      rw [call] at returned
      cases returned
  | ok pair =>
      obtain ⟨pa, alloc⟩ := pair
      rw [call] at returned
      obtain ⟨mapped, mapCall, returned⟩ := bind_ok returned
      cases returned
      obtain ⟨zeroed, aligned, small⟩ := RootOk.zeroed root (by decide) call
      have maps : mapRange earlyAllocators pgd mapKernel (arrayVa number) pa (1 : Nat)
          (alloc, zeroPage state.mem pa) = .ok (mapped.alloc, mapped.mem) := by
        rw [mapRange, Nat.cast_one, mapCall]
        rfl
      have half : InOneHalf (pageStart (arrayVa number)) 1 := by
        rw [pageStart_of_dvd (arrayVa_dvd number)]
        exact arrayVa_half bound
      have paBound : 0 < 1 → pageStart pa + 2 ^ 12 * 1 ≤ 2 ^ 48 := by
        intro _
        rw [pageStart_of_dvd aligned]
        omega
      exact zeroed.trans
        (mapRange_ok earlyAllocators_supplies (Or.inl (by decide)) half paBound zeroed.root maps).1

theorem allocMapPhysblockFrom_advances {owned : Stock PageAllocState} [Tracks owned] {last : Nat}
    (rounds : Nat) (small : last ≤ 2 ^ 30) (root : RootOk owned pgd (state.alloc, state.mem))
    (returned : allocMapPhysblockFrom pgd (arrayVa last) rounds (arrayVa number) state = .ok after) :
    Advances owned pgd (state.alloc, state.mem) (after.alloc, after.mem) := by
  induction rounds generalizing number state with
  | zero => cases returned
  | succ rounds ih =>
      rw [allocMapPhysblockFrom] at returned
      by_cases more : number < last
      · rw [if_pos (by unfold arrayVa; omega), virtNextPage_arrayVa (by omega)] at returned
        obtain ⟨middle, page, rest⟩ := bind_ok returned
        have first := mapPhysblockPage_advances (by omega) root page
        exact first.trans (ih first.root rest)
      · rw [if_neg (by unfold arrayVa; omega)] at returned
        cases returned
        exact ⟨root, fun _ _ found => found⟩

theorem mapSpansFrom_advances {reserved : Set Nat} (extents : ∀ extent ∈ layout, extent.Ok)
    (remaining index : Nat)
    (root : RootOk (tableStock layout reserved) pgd (state.alloc, state.mem))
    (returned : mapSpansFrom pgd remaining index state = .ok after) :
    Advances (tableStock layout reserved) pgd (state.alloc, state.mem) (after.alloc, after.mem) := by
  induction remaining generalizing index state with
  | zero =>
      cases returned
      exact ⟨root, fun _ _ found => found⟩
  | succ remaining ih =>
      rw [mapSpansFrom] at returned
      cases here : state.alloc.spans[index]? with
      | none =>
          rw [here] at returned
          cases returned
          exact ⟨root, fun _ _ found => found⟩
      | some span =>
          rw [here] at returned
          obtain ⟨middle, page, rest⟩ := bind_ok returned
          have member : span.extent ∈ layout := by
            rw [← root.ok.2.2.1]
            exact List.mem_map_of_mem (List.mem_of_getElem? here)
          have ok := extents _ member
          obtain ⟨rounds, loops, _⟩ := allocMapPhysblock_eq ok pgd state
          have call : allocMapPhysblock pgd span.extent.start span.extent.numPages state =
              .ok middle := page
          rw [loops] at call
          obtain ⟨_, _, bound⟩ := ok
          have first := allocMapPhysblockFrom_advances _ (by omega) root call
          exact first.trans (ih (index + 1) first.root rest)

/-! ## From the new PGD to the handover -/

def earlyPageAllocZero (state : EarlyState) : Except MapStop (Nat × EarlyState) :=
  match earlyPageAlloc state.alloc with
  | .error panic => throw (.panic panic)
  | .ok (pa, alloc) => return (pa, ⟨alloc, zeroPage state.mem pa⟩)

/-- The PGD, the page for the state of the physical allocator, and what they were built in. -/
structure BuiltTables where
  pgd : Nat
  statePage : Nat
  early : EarlyState

/-- `early_mem_init` from `early_remap_page_tables` to the first pass of `early_init_mem_map`. The
first page is for the global state of the kernel. -/
def earlyMemInitTables (cr3 : Nat) (info : BootInfo) (header : ElfHeader) (apicBase : Nat)
    (state : PageAllocState × Memory) : Except MapStop BuiltTables := do
  let (pgd, alloc, mem) ← earlyRemapPageTables cr3 info header apicBase state
  let (_, state) ← earlyPageAllocZero ⟨alloc, mem⟩
  let (statePage, state) ← earlyPageAllocZero state
  let state ← earlyInitMemMapFirst pgd state
  return ⟨pgd, statePage, state⟩

theorem earlyPageAllocZero_advances {owned : Stock PageAllocState} [Tracks owned] {pa : Nat}
    (root : RootOk owned pgd (state.alloc, state.mem))
    (returned : earlyPageAllocZero state = .ok (pa, after)) :
    Advances owned pgd (state.alloc, state.mem) (after.alloc, after.mem) := by
  unfold earlyPageAllocZero earlyPageAlloc at returned
  split at returned
  · cases returned
  · rename_i call
    cases returned
    exact (RootOk.zeroed root (by decide) call).1

theorem earlyPageAllocZero_reserves {pa : Nat} {reserved : Set Nat}
    (root : RootOk (tableStock layout reserved) pgd (state.alloc, state.mem))
    (returned : earlyPageAllocZero state = .ok (pa, after)) :
    Advances (tableStock layout (insert pa reserved)) pgd (state.alloc, state.mem)
      (after.alloc, after.mem) := by
  have advances := earlyPageAllocZero_advances root returned
  refine ⟨⟨⟨advances.root.ok.1, advances.root.ok.2.1, advances.root.ok.2.2.1, ?_⟩,
    advances.root.wellFormed, advances.root.unused⟩, advances.keeps⟩
  refine Set.insert_subset ?_ advances.root.ok.2.2.2
  unfold earlyPageAllocZero earlyPageAlloc at returned
  split at returned
  · cases returned
  · rename_i call
    cases returned
    have placed := root.ok.2.1
    obtain ⟨index, span, offset, fit, rfl, rfl⟩ := alloc_ok placed.sized call
    rw [spanOffsetToPa_eq (placed.extent fit.here) fit.inside]
    refine ⟨(mem_pagesOf_mark fit.here _ _ _).mpr (Or.inr ⟨Or.inl rfl, rfl⟩), fun marked => ?_⟩
    rcases (mem_pagesOf_mark fit.here _ _ _).mp marked with table | ⟨kinds, -⟩
    · exact page_ne_of_clear root.ok.1.spans placed fit.here fit.inside fit.clear table rfl
    · exact absurd kinds (by decide)

/-- The tables that the kernel starts with, and what they map. -/
structure KernelTables (info : BootInfo) (header : ElfHeader) (layout : List Extent)
    (reserved : Set Nat) (pgd : Nat) (state : EarlyState) : Prop where
  root : RootOk (tableStock layout reserved) pgd (state.alloc, state.mem)
  direct : ∀ pa, DirectlyMapped info pa → ∃ leaf,
    walk state.mem pgd (kernelDirectMapBase + pa) = some leaf ∧ leaf.pa = pa
  sections : ∀ i < header.shnum, (header.sections i).addr ≠ 0 →
    SectionMapped kernelElfAddressPhys pgd (header.sections i) state.mem

theorem earlyMemInitTables_builds {cr3 apicBase : Nat} {info : BootInfo} {header : ElfHeader}
    {before : PageAllocState × Memory} {built : BuiltTables} (kept : before.1.Kept) (placed : before.1.Placed)
    (extents : ∀ extent ∈ before.1.layout, extent.Ok) (remappable : Remappable info header apicBase)
    (returned : earlyMemInitTables cr3 info header apicBase before = .ok built) :
    KernelTables info header before.1.layout {built.statePage} built.pgd built.early := by
  obtain ⟨⟨root, alloc, mem⟩, remaps, returned⟩ := bind_ok returned
  obtain ⟨⟨_, first⟩, globalCall, returned⟩ := bind_ok returned
  obtain ⟨⟨_, second⟩, stateCall, returned⟩ := bind_ok returned
  obtain ⟨third, maps, returned⟩ := bind_ok returned
  cases returned
  have ok : (tableStock before.1.layout ∅).ok before.1 :=
    ⟨kept, placed, rfl, Set.empty_subset _⟩
  obtain ⟨remapped, direct, sections⟩ := earlyRemapPageTables_advances remappable ok remaps
  have globalPage := earlyPageAllocZero_advances remapped globalCall
  have statePage := earlyPageAllocZero_reserves globalPage.root stateCall
  rw [insert_empty_eq] at statePage
  have array := mapSpansFrom_advances extents _ _ statePage.root maps
  have keeps : ∀ address leaf, walk mem root address = some leaf →
      walk third.mem root address = some leaf := fun address leaf found =>
    array.keeps _ _ (statePage.keeps _ _ (globalPage.keeps _ _ found))
  refine ⟨array.root, ?_, ?_⟩
  · intro pa reached
    obtain ⟨leaf, found, place⟩ := direct pa reached
    exact ⟨leaf, keeps _ leaf found, place⟩
  · intro i inside loaded file offset here
    obtain ⟨leaf, found, pa⟩ := sections i inside loaded file offset here
    exact ⟨leaf, keeps _ leaf found, pa⟩

theorem KernelTables.marked {info : BootInfo} {header : ElfHeader} {reserved : Set Nat}
    (built : KernelTables info header layout reserved pgd state) :
    tables state.mem 3 pgd ⊆ state.alloc.pagesOf .pagetable := by
  intro page used
  by_contra notMarked
  exact Set.disjoint_left.mp built.root.unused used notMarked

theorem PageAllocState.Placed.spansOk {state : PageAllocState} (placed : state.Placed) :
    SpansOk state.spans := by
  constructor
  · exact List.pairwise_map.mp placed.apart
  · intro span member
    have bound := (placed.extents _ (List.mem_map_of_mem member)).2
    simp only [PageAllocSpan.extent] at bound
    rw [pageSize, pageShift]
    omega

end

end Zeptux.Early

namespace Zeptux.Phys

open Dyadic IntrusiveRing LockProgram X86Paging Page
open Early (PageAllocState BuiltTables)

/-- The pages that hold the physblock array and the state of the physical allocator. What a
machine holds is there, so the memory of these pages is not followed. -/
def recordPages (built : BuiltTables) : Set Nat :=
  insert built.statePage (built.early.alloc.pagesOf .physblock)

def OnRecords (built : BuiltTables) (mem changed : Memory) : Prop :=
  ∀ word, changed word ≠ mem word → pageStart word ∈ recordPages built

/-- Runs of the physical allocator from the handover on, and of everybody who writes to memory:
nobody frees a page of tables, and nobody but the allocator writes to its pages. The words of
`program`, its code and the variable that points to its state, stay as they are. -/
inductive Running (built : BuiltTables) (program : Set Nat) : PhysMachine → Memory → Prop
  | init {links : Links Node} {machine : PhysMachine} {mem : Memory} :
      run (handover built.early.alloc) (idle (PhysState.zeroed links)) = .returned () machine →
      OnRecords built built.early.mem mem → Running built program machine mem
  | alloc {machine after : PhysMachine} {mem changed : Memory} {fuel order flags block : Nat} :
      Running built program machine mem → order ≤ maxOrder → ValidFlags flags →
      run (physAllocBlock fuel order flags) machine = .returned block after →
      OnRecords built mem changed → Running built program after changed
  | free {machine after : PhysMachine} {mem changed : Memory} {pfn : Nat} :
      Running built program machine mem → Managed machine.data.spans pfn →
      (machine.data.physblocks pfn).kind ≠ physblockPagetable →
      run (physFreePfn pfn) machine = .returned () after →
      OnRecords built mem changed → Running built program after changed
  | write {machine : PhysMachine} {mem changed : Memory} :
      Running built program machine mem →
      (∀ word, changed word ≠ mem word →
        (machine.data.physblocks (word / 2 ^ 12)).kind ≠ physblockPagetable ∧
          pageStart word ∉ recordPages built ∧ word ∉ program) →
      Running built program machine changed

structure Guarded (state : PhysState) (pa : Nat) : Prop where
  live : Live state (pa / 2 ^ 12) 0
  kind : (state.physblocks (pa / 2 ^ 12)).kind = physblockPagetable

section

variable {early : PageAllocState} {built : BuiltTables} {program : Set Nat}
  {state after : PhysState} {machine : PhysMachine} {mem : Memory} {pa pfn : Nat}

theorem handover_guarded (ok : Early.SpansOk early.spans)
    (booked : ∀ span ∈ early.spans, span.Booked) (marked : pa ∈ early.pagesOf .pagetable)
    {links : Links Node}
    (returned : run (handover early) (idle (PhysState.zeroed links)) = .returned () machine) :
    Guarded machine.data pa := by
  obtain ⟨after, rfl, spans, settled⟩ := handover_ok ok returned
  obtain ⟨index, span, offset, here, isSet, rfl⟩ := marked
  have member := List.mem_of_getElem? here
  have books := booked span member
  have inside := books.inside _ _ isSet
  have allocated : span.allocBitmap.isSet offset = true := books.subset _ _ isSet
  have notEphemeral : span.ephemeralBitmap.isSet offset = false :=
    books.apart .pagetable .ephemeral offset (by decide) (by decide) (by decide) isSet
  have isPreserved : preserved span offset = true := by simp [preserved, allocated, notEphemeral]
  have place : span.extent.page offset / 2 ^ 12 = span.pfn offset := by
    simp only [Early.Extent.page, Early.PageAllocSpan.extent, Early.PageAllocSpan.pfn,
      physToPfn_eq]
    omega
  have used : span.pfn offset ∉ freePages after := by
    rw [settled.mem_freePages_iff ok spans member inside, isPreserved]
    decide
  have kept := settled.kept _ used
  refine ⟨?_, ?_⟩ <;> rw [place]
  · exact (settled.live_iff ok spans).mp ⟨span, member, offset, inside, isPreserved, rfl⟩
  · change (after.physblocks (span.pfn offset)).kind = _
    rw [kept, plannedRecord_eq ok member inside, record_kind, if_pos isPreserved]
    exact if_pos isSet

theorem Guarded.alloc {block order type : Nat} (guarded : Guarded state pa)
    (allocated : Allocated state after block order type) : Guarded after pa := by
  have same : ∀ page, Covers (pa / 2 ^ 12) 0 page →
      after.physblocks page = state.physblocks page :=
    fun page covers => allocated.outside_block guarded.live covers
  refine ⟨guarded.live.congr allocated.spans same, ?_⟩
  rw [same _ (covers_head _ _)]
  exact guarded.kind

theorem Guarded.free (ready : Ready state) (guarded : Guarded state pa)
    (freed : FreedPage state pfn after)
    (other : (state.physblocks pfn).kind ≠ physblockPagetable) : Guarded after pa := by
  have apart : ¬StandsFor (pa / 2 ^ 12, 0) pfn := by
    rintro ⟨⟨low, high⟩, _⟩
    have same : pfn = pa / 2 ^ 12 := by
      simp only at low high
      omega
    exact other (same ▸ guarded.kind)
  have same : ∀ page, Covers (pa / 2 ^ 12) 0 page →
      after.physblocks page = state.physblocks page :=
    fun page covers => freed.outside_block ready guarded.live apart covers
  refine ⟨guarded.live.congr freed.spans same, ?_⟩
  rw [same _ (covers_head _ _)]
  exact guarded.kind

theorem Running.reachable (ok : Early.SpansOk built.early.alloc.spans)
    (running : Running built program machine mem) : Reachable machine := by
  induction running with
  | init returned _ => exact .init ok returned
  | alloc _ bound valid returned _ ih => exact .alloc ih bound valid returned
  | free _ managed _ returned _ ih => exact .free ih managed returned
  | write _ _ ih => exact ih

theorem Running.guarded (ok : Early.SpansOk built.early.alloc.spans)
    (booked : ∀ span ∈ built.early.alloc.spans, span.Booked)
    (running : Running built program machine mem)
    (marked : pa ∈ built.early.alloc.pagesOf .pagetable) : Guarded machine.data pa := by
  induction running with
  | init returned _ => exact handover_guarded ok booked marked returned
  | alloc running bound valid returned _ ih =>
      obtain ⟨state, rfl, ready⟩ := (running.reachable ok).ready
      obtain ⟨after, type, rfl, _, allocated⟩ := ready.alloc_ok bound valid returned
      exact Guarded.alloc ih allocated
  | free running managed other returned _ ih =>
      obtain ⟨state, rfl, ready⟩ := (running.reachable ok).ready
      obtain ⟨after, rfl, freed⟩ := ready.free_ok managed returned
      exact Guarded.free ready ih freed other
  | write _ _ ih => exact ih

theorem OnRecords.sameOn {changed : Memory} (records : OnRecords built mem changed)
    {pages : Set Nat} (isTable : ∀ page ∈ pages, IsTable page)
    (apart : Disjoint pages (recordPages built)) : SameOn mem changed pages := by
  intro page used index inside
  by_contra differs
  have aligned := (isTable page used).1
  have written := records (page + 8 * index) differs
  have place : pageStart (page + 8 * index) = page := by
    unfold pageStart
    omega
  rw [place] at written
  exact Set.disjoint_left.mp apart used written

theorem Running.sameOn (ok : Early.SpansOk built.early.alloc.spans)
    (booked : ∀ span ∈ built.early.alloc.spans, span.Booked)
    (running : Running built program machine mem) {pages : Set Nat}
    (isTable : ∀ page ∈ pages, IsTable page)
    (marked : pages ⊆ built.early.alloc.pagesOf .pagetable)
    (apart : Disjoint pages (recordPages built)) : SameOn built.early.mem mem pages := by
  induction running with
  | init _ records => exact records.sameOn isTable apart
  | alloc _ _ _ _ records ih => exact ih.trans (records.sameOn isTable apart)
  | free _ _ _ _ records ih => exact ih.trans (records.sameOn isTable apart)
  | write running elsewhere ih =>
      intro page used index inside
      rw [← ih page used index inside]
      by_contra differs
      have aligned := (isTable page used).1
      have guarded := running.guarded ok booked (marked used)
      have place : (page + 8 * index) / 2 ^ 12 = page / 2 ^ 12 := by omega
      refine (elsewhere (page + 8 * index) differs).1 ?_
      rw [place]
      exact guarded.kind

theorem tables_disjoint_records {info : Early.BootInfo} {header : Early.ElfHeader}
    {layout : List Early.Extent}
    (tablesBuilt : Early.KernelTables info header layout {built.statePage} built.pgd built.early) :
    Disjoint (built.early.alloc.pagesOf .pagetable) (recordPages built) := by
  obtain ⟨kept, placed, _, reserved⟩ := tablesBuilt.root.ok
  rw [recordPages, Set.disjoint_insert_right]
  refine ⟨(reserved rfl).2, ?_⟩
  exact Early.pagesOf_disjoint kept.spans placed (by decide) (by decide) (by decide)

/-- However long the kernel runs, its addresses mean what they meant after boot: the tables are
the same, no call of the allocator hands out one of their pages, and RAM, the video memory and the
sections of the image stay mapped. -/
theorem kernel_tables_protected {cr3 apicBase : Nat} {info : Early.BootInfo}
    {header : Early.ElfHeader} {before : PageAllocState × Memory}
    (kept : before.1.Kept) (placed : before.1.Placed)
    (extents : ∀ extent ∈ before.1.layout, extent.Ok)
    (remappable : Early.Remappable info header apicBase)
    (returned : Early.earlyMemInitTables cr3 info header apicBase before = .ok built)
    (running : Running built program machine mem) :
    (∀ va, walk mem built.pgd va = walk built.early.mem built.pgd va) ∧
    (∀ pa, Early.DirectlyMapped info pa → ∃ leaf,
      walk mem built.pgd (Early.kernelDirectMapBase + pa) = some leaf ∧ leaf.pa = pa) ∧
    (∀ i < header.shnum, (header.sections i).addr ≠ 0 →
      Early.SectionMapped Early.kernelElfAddressPhys built.pgd (header.sections i) mem) ∧
    ∀ pa ∈ tables mem 3 built.pgd, Guarded machine.data pa ∧
      ∀ fuel order flags block after, order ≤ maxOrder → ValidFlags flags →
        run (physAllocBlock fuel order flags) machine = .returned block after →
        ¬Covers block order (pa / 2 ^ 12) := by
  have tablesBuilt := Early.earlyMemInitTables_builds kept placed extents remappable returned
  have root := tablesBuilt.root
  have ok := root.ok.2.1.spansOk
  have booked := root.ok.1.spans
  have marked := tablesBuilt.marked
  have apart := (tables_disjoint_records tablesBuilt).mono_left marked
  have same := running.sameOn ok booked (fun _ used => root.wellFormed.tables_isTable used) marked
    apart
  have walks : ∀ va, walk mem built.pgd va = walk built.early.mem built.pgd va := by
    intro va
    rw [walk, walk, walkFrom_congr same]
  refine ⟨walks, ?_, ?_, ?_⟩
  · intro pa reached
    rw [walks]
    exact tablesBuilt.direct pa reached
  · intro i inside loaded file offset here
    rw [walks]
    exact tablesBuilt.sections i inside loaded file offset here
  · rw [tables_congr same]
    intro pa used
    have guarded := running.guarded ok booked (marked used)
    refine ⟨guarded, ?_⟩
    intro fuel order flags block after bound valid call covers
    obtain ⟨state, rfl, ready⟩ := (running.reachable ok).ready
    obtain ⟨after, type, rfl, _, allocated⟩ := ready.alloc_ok bound valid call
    exact guarded.live.not_mem_freePages (covers_head _ _)
      (allocated.wasFree (Finset.mem_Ico.mpr covers))

end

/-! ## A small kernel -/

theorem smallAlloc_kept : Early.smallAlloc.Kept := by
  have disjoint : Early.smallInfo.Disjoint := by
    refine ⟨?_, ?_, ⟨by decide, by decide⟩⟩
    · rw [Early.smallInfo_ram]
      exact List.pairwise_singleton _ _
    · rw [Early.smallInfo_ram]
      decide
  have layout : Early.smallInfo.layout = [⟨0x100000, 64⟩] := by decide
  have pages : bytesToPages Early.smallInfo.totalAvailRamBytes = 64 := by decide
  have kept := Early.emptyState_kept disjoint (by rw [layout]; decide)
  rwa [layout, pages] at kept

def smallTables : Except MapStop BuiltTables :=
  Early.earlyMemInitTables 0x1000 Early.smallInfo Early.smallHeader 0xfee00000
    (Early.smallAlloc, fun _ => 0)

def smallText : Set Nat := {word | 0x1001000 ≤ word ∧ word < 0x1002800}

theorem smallTables_builds : ∃ built, smallTables = .ok built := by
  have builds : smallTables.isOk = true := by decide +kernel
  cases returned : smallTables with
  | error stop =>
      rw [returned] at builds
      cases builds
  | ok built => exact ⟨built, rfl⟩

theorem recordPages_ram {built : BuiltTables} {info : Early.BootInfo} {header : Early.ElfHeader}
    {layout : List Early.Extent}
    (tablesBuilt : Early.KernelTables info header layout {built.statePage} built.pgd built.early)
    {pa : Nat} (record : pa ∈ recordPages built) :
    ∃ extent ∈ layout, ∃ offset < extent.numPages, pa = extent.page offset := by
  obtain ⟨kept, placed, shape, reserved⟩ := tablesBuilt.root.ok
  have marked : ∃ type, pa ∈ built.early.alloc.pagesOf type := by
    rcases record with rfl | array
    · exact ⟨.normal, (reserved rfl).1⟩
    · exact ⟨.physblock, array⟩
  obtain ⟨type, index, span, offset, here, isSet, rfl⟩ := marked
  have member := List.mem_of_getElem? here
  refine ⟨span.extent, ?_, offset, (kept.spans span member).inside _ _ isSet, rfl⟩
  rw [← shape]
  exact List.mem_map_of_mem member

/-- The run is the handover and a character that is written to the screen. -/
theorem small_kernel_protected :
    ∃ built machine, smallTables = .ok built ∧
      Running built smallText machine (Function.update built.early.mem 0xb80b0 0x41) ∧
      (∃ leaf, walk (Function.update built.early.mem 0xb80b0 0x41) built.pgd
        (Early.kernelDirectMapBase + 0x123456) = some leaf ∧ leaf.pa = 0x123456) ∧
      ∀ pa ∈ tables (Function.update built.early.mem 0xb80b0 0x41) 3 built.pgd,
        Guarded machine.data pa := by
  have extents : ∀ extent ∈ Early.smallAlloc.layout, extent.Ok := by
    rw [Early.smallAlloc, Early.emptyState_layout]
    decide
  obtain ⟨built, returned⟩ := smallTables_builds
  have tablesBuilt := Early.earlyMemInitTables_builds smallAlloc_kept Early.smallAlloc_placed
    extents Early.smallKernel_remappable returned
  have placed := tablesBuilt.root.ok.2.1
  have shape : built.early.alloc.layout = [⟨0x100000, 64⟩] := by
    rw [tablesBuilt.root.ok.2.2.1, Early.smallAlloc, Early.emptyState_layout]
  obtain ⟨state, handed, spans, settled⟩ := handover_returns placed.spansOk ⟨id, id⟩
  have start : Running built smallText (idle state) built.early.mem :=
    .init handed fun _ differs => absurd rfl differs
  have screen : 0xb8 ∉ managedPages (built.early.alloc.spans.map (·.toPhys)) := by
    rw [mem_managedPages]
    rintro ⟨_, member, inside⟩
    obtain ⟨span, here, rfl⟩ := List.mem_map.mp member
    have extent : span.extent ∈ built.early.alloc.layout := List.mem_map_of_mem here
    rw [shape, List.mem_singleton] at extent
    have starts : span.start = 0x100000 := congrArg Early.Extent.start extent
    simp only [PhysAllocSpan.Contains, Early.PageAllocSpan.toPhys, starts, physToPfn_eq] at inside
    omega
  have unmanaged : state.physblocks 0xb8 = ⟨0, 0, 0, 0⟩ := by
    rw [settled.kept, plannedRecord_outside screen]
    rw [settled.pages, Finset.mem_filter]
    exact fun free => screen free.1
  have running : Running built smallText (idle state)
      (Function.update built.early.mem 0xb80b0 0x41) := by
    refine .write start fun word differs => ?_
    have written : word = 0xb80b0 := by
      by_contra other
      exact differs (Function.update_of_ne other _ _)
    subst written
    refine ⟨?_, fun record => ?_, by simp [smallText]⟩
    · change (state.physblocks 0xb8).kind ≠ _
      rw [unmanaged]
      decide
    · obtain ⟨extent, member, offset, _, page⟩ := recordPages_ram tablesBuilt record
      rw [← tablesBuilt.root.ok.2.2.1, shape, List.mem_singleton] at member
      subst member
      simp only [pageStart, Early.Extent.page] at page
      omega
  obtain ⟨_, direct, _, guarded⟩ := kernel_tables_protected smallAlloc_kept
    Early.smallAlloc_placed extents Early.smallKernel_remappable returned running
  have ram : (⟨0x100000, 0x40000, Early.e820TypeRam⟩ : Early.E820Entry) ∈
      Early.smallInfo.ramEntries := by
    rw [Early.smallInfo_ram]
    exact List.mem_singleton_self _
  exact ⟨built, idle state, returned, running,
    direct 0x123456 (.ram ram ⟨by decide, by decide⟩), fun pa used => (guarded pa used).1⟩

end Zeptux.Phys
