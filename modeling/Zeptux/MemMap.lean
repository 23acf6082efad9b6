import Zeptux.Early
import Zeptux.MemMapCore
import Zeptux.PageTheorems

/-!
The array of physblocks after the first pass of `early_init_mem_map`. A page of the array
holds the physblocks of 128 frames; mapping a page a second time panics, and this happens
just when two spans have frames in one page.
-/

namespace Zeptux.Early

open Page Word X86Paging

/-! ## The early allocator as an allocator of tables -/

def earlyStock (layout : List Extent) : Stock PageAllocState where
  ok := fun state => state.Placed ∧ state.layout = layout
  pages := PageAllocState.free

theorem free_isTable {state : PageAllocState} (placed : state.Placed) {pa : Nat} (isFree : pa ∈ state.free) :
    IsTable pa := by
  obtain ⟨index, span, offset, here, inside, _, rfl⟩ := isFree
  obtain ⟨aligned, bound⟩ := placed.extent here
  simp only [PageAllocSpan.extent] at aligned bound
  simp only [IsTable, Extent.page, PageAllocSpan.extent]
  constructor <;> omega

section

variable {layout : List Extent}

theorem alloc_supplied {state after : PageAllocState} {type : AllocType} {pa : Nat}
    (ok : (earlyStock layout).ok state) (call : alloc state type = .ok (pa, after)) (mem : Memory) :
    Supplied (earlyStock layout) state mem pa after (zeroPage mem pa) := by
  have taken := alloc_takes ok.1 call
  have wasFree : pa ∈ state.free := taken.wereFree rfl
  have isTable := free_isTable ok.1 wasFree
  refine ⟨⟨taken.placed, taken.layout.trans ok.2⟩, wasFree, ?_, ?_, isTable,
    fun _ inside => entryAt_zeroPage_self mem pa inside,
    fun _ isOther different _ inside =>
      entryAt_zeroPage_other isTable isOther different mem inside⟩
  · change pa ∉ after.free
    rw [taken.free]
    exact fun still => still.2 rfl
  · change after.free ⊆ state.free
    rw [taken.free]
    exact Set.sdiff_subset

/-- A stock that follows the early allocator: it holds the free pages, and a mark gives it none.
A table that is marked is no longer in it. -/
class Tracks (owned : Stock PageAllocState) : Prop where
  placed {state : PageAllocState} : owned.ok state → state.Placed
  owns {state : PageAllocState} : owned.ok state → state.free ⊆ owned state
  marks {state : PageAllocState} {index offset : Nat} {span : PageAllocSpan} {type : AllocType} :
    owned.ok state → state.spans[index]? = some span → offset < span.numPages →
    span.allocBitmap.isSet offset = false → type ≠ .ephemeral →
    owned.ok (markPageAllocated state index offset type) ∧
      owned (markPageAllocated state index offset type) ⊆ owned state
  table {state : PageAllocState} {index offset : Nat} {span : PageAllocSpan} :
    owned.ok state → state.spans[index]? = some span → offset < span.numPages →
    span.allocBitmap.isSet offset = false →
    span.extent.page offset ∉ owned (markPageAllocated state index offset .pagetable)

instance earlyStock_tracks : Tracks (earlyStock layout) where
  placed := fun ok => ok.1
  owns := fun _ => Set.Subset.refl _
  marks := by
    intro state index offset span type ok here inside clear _
    have taken := takes_mark ok.1 here inside clear type
    refine ⟨⟨taken.placed, taken.layout.trans ok.2⟩, ?_⟩
    change (markPageAllocated state index offset type).free ⊆ state.free
    rw [taken.free]
    exact Set.sdiff_subset
  table := by
    intro state index offset span ok here inside clear
    change _ ∉ (markPageAllocated state index offset .pagetable).free
    rw [(takes_mark ok.1 here inside clear .pagetable).free]
    exact fun still => still.2 rfl

section

variable {owned : Stock PageAllocState} [Tracks owned]

theorem alloc_tracked {state after : PageAllocState} {type : AllocType} {pa : Nat}
    (ok : owned.ok state) (kind : type ≠ .ephemeral) (call : alloc state type = .ok (pa, after)) :
    pa ∈ state.free ∧ owned.ok after ∧ owned after ⊆ owned state := by
  have placed := Tracks.placed ok
  refine ⟨(alloc_takes placed call).wereFree rfl, ?_⟩
  obtain ⟨index, span, offset, fit, rfl, rfl⟩ := alloc_ok placed.sized call
  exact Tracks.marks ok fit.here fit.inside fit.clear kind

theorem pagetable_supplied {state after : PageAllocState} {pa : Nat} (ok : owned.ok state)
    (call : alloc state .pagetable = .ok (pa, after)) (mem : Memory) :
    Supplied owned state mem pa after (zeroPage mem pa) := by
  have placed := Tracks.placed ok
  obtain ⟨wasFree, okAfter, fewer⟩ := alloc_tracked ok (by decide) call
  have isTable := free_isTable placed wasFree
  refine ⟨okAfter, Tracks.owns ok wasFree, ?_, fewer, isTable,
    fun _ inside => entryAt_zeroPage_self mem pa inside,
    fun _ isOther different _ inside =>
      entryAt_zeroPage_other isTable isOther different mem inside⟩
  obtain ⟨index, span, offset, fit, rfl, rfl⟩ := alloc_ok placed.sized call
  rw [spanOffsetToPa_eq (placed.extent fit.here) fit.inside]
  exact Tracks.table ok fit.here fit.inside fit.clear

theorem earlyAllocators_supplies : SuppliesTables owned earlyAllocators := by
  have pagetable : Supplies owned earlyAllocators.pud := by
    intro before mem page after mem' ok call
    simp only [earlyAllocators, earlyPagetableAlloc] at call
    cases result : alloc before .pagetable with
    | error panic =>
        rw [result] at call
        cases call
    | ok pair =>
        obtain ⟨pa, state⟩ := pair
        rw [result] at call
        cases call
        exact pagetable_supplied ok result mem
  exact ⟨pagetable, pagetable, pagetable⟩

theorem markPagesFrom_tracked {state : PageAllocState} {index offset count : Nat}
    {span : PageAllocSpan} (ok : owned.ok state) (here : state.spans[index]? = some span)
    (inside : offset + count ≤ span.numPages)
    (clear : ∀ step < count, span.allocBitmap.isSet (offset + step) = false) :
    owned.ok (markPagesFrom index count offset state) ∧
      owned (markPagesFrom index count offset state) ⊆ owned state := by
  induction count generalizing state offset span with
  | zero => exact ⟨ok, Set.Subset.refl _⟩
  | succ count ih =>
      have bound := ((Tracks.placed ok).extent here).2
      simp only [PageAllocSpan.extent] at bound
      have kind : AllocType.normal ≠ .ephemeral := by decide
      obtain ⟨first, fewer⟩ := Tracks.marks ok here (by omega : offset < span.numPages)
        (clear 0 (by omega)) kind
      have room : offset + 1 + count ≤ (span.mark offset .normal).numPages := by
        rw [PageAllocSpan.mark_numPages]
        omega
      obtain ⟨rest, more⟩ := ih first (markPageAllocated_here here) room
        (PageAllocSpan.mark_clear clear)
      rw [markPagesFrom, toUint64_natCast (by omega)]
      exact ⟨rest, more.trans fewer⟩

theorem earlyPagesAlloc_tracked {state after : PageAllocState} {pages : Int} {pa : Nat}
    (ok : owned.ok state) (call : earlyPagesAlloc state pages = .ok (pa, after)) :
    owned.ok after ∧ owned after ⊆ owned state := by
  rcases earlyPagesAlloc_ok (Tracks.placed ok).sized call with
    ⟨_, rfl⟩ | ⟨index, span, offset, here, _, inside, clear, _, rfl⟩
  · exact ⟨ok, Set.Subset.refl _⟩
  · exact markPagesFrom_tracked ok here inside clear

end

end

/-! ## One page of the array -/

def arrayVa (number : Nat) : Nat := kernelMemMapAddress + 2 ^ 12 * number

structure TablesOk (layout : List Extent) (pgd : Nat) (state : EarlyState) : Prop where
  ok : (earlyStock layout).ok state.alloc
  wellFormed : WellFormed state.mem 3 pgd
  unused : Disjoint (tables state.mem 3 pgd) state.alloc.free

section

variable {layout : List Extent} {pgd pa : Nat} {state : EarlyState}
variable {alloc : PageAllocState} {mem : Memory}

theorem TablesOk.sameOn (sound : TablesOk layout pgd state)
    (supplied : Supplied (earlyStock layout) state.alloc state.mem pa alloc mem) :
    SameOn state.mem mem (tables state.mem 3 pgd) := by
  intro page used index inside
  apply supplied.others page (sound.wellFormed.tables_isTable used) _ index inside
  rintro rfl
  exact Set.disjoint_left.mp sound.unused used supplied.owns

theorem TablesOk.supplied (sound : TablesOk layout pgd state)
    (supplied : Supplied (earlyStock layout) state.alloc state.mem pa alloc mem) :
    TablesOk layout pgd ⟨alloc, mem⟩ := by
  have same := sound.sameOn supplied
  refine ⟨supplied.ok, wellFormed_congr same sound.wellFormed, ?_⟩
  rw [tables_congr same]
  exact sound.unused.mono_right supplied.fewer

theorem TablesOk.walk_supplied (sound : TablesOk layout pgd state)
    (supplied : Supplied (earlyStock layout) state.alloc state.mem pa alloc mem) (address : Nat) :
    walk mem pgd address = walk state.mem pgd address := by
  rw [walk, walk, walkFrom_congr (sound.sameOn supplied)]

end

/-- The pass has mapped the pages `numbers` of the array, page `number` to the frame
`place number`, and no other of those that are wanted. -/
structure Progress (early : PageAllocState) (pgd : Nat) (wanted numbers : Set Nat)
    (place : Nat → Nat) (state : EarlyState) : Prop where
  tables : TablesOk early.layout pgd state
  fewer : state.alloc.free ⊆ early.free
  unmapped : ∀ number ∈ wanted, number ∉ numbers → ∀ byte < 2 ^ 12,
    walk state.mem pgd (arrayVa number + byte) = none
  mapped : ∀ number ∈ numbers, ∀ byte < 2 ^ 12, ∃ leaf,
    walk state.mem pgd (arrayVa number + byte) = some leaf ∧
      LeafAt mapKernel (place number + byte) leaf
  given : ∀ number ∈ numbers, place number ∈ early.free ∧ place number ∉ state.alloc.free
  distinct : Set.InjOn place numbers

section

variable {early : PageAllocState} {pgd number : Nat} {wanted numbers : Set Nat}
variable {place : Nat → Nat} {state : EarlyState}

theorem arrayVa_dvd (number : Nat) : 2 ^ 12 ∣ arrayVa number := by
  unfold arrayVa kernelMemMapAddress
  omega

theorem Progress.insert {alloc : PageAllocState} {mem : Memory} {pa : Nat}
    {after : PageMapState PageAllocState} (progress : Progress early pgd wanted numbers place state)
    (half : InOneHalf (arrayVa number) 1) (want : number ∈ wanted) (fresh : number ∉ numbers)
    (supplied : Supplied (earlyStock early.layout) state.alloc state.mem pa alloc mem)
    (passed : Passed (earlyStock early.layout) mapKernel 3 pgd 4
      (rangeStart (arrayVa number) pa 1 mem alloc) after 1 1) :
    Progress early pgd wanted (insert number numbers) (Function.update place number pa)
      ⟨after.alloc, after.mem⟩ := by
  have sound := progress.tables.supplied supplied
  have wasFree : pa ∈ state.alloc.free := supplied.owns
  have isTable := free_isTable progress.tables.ok.1 wasFree
  have given : pa ∉ alloc.free := supplied.given
  have fewerFirst : alloc.free ⊆ state.alloc.free := supplied.fewer
  have fewerThen : after.alloc.free ⊆ alloc.free := passed.change.fewer
  have others : ∀ other, other ≠ number → ∀ byte < 2 ^ 12,
      walk after.mem pgd (arrayVa other + byte) = walk state.mem pgd (arrayVa other + byte) := by
    intro other different byte inside
    rw [passed.walk_apart (arrayVa_dvd number) half (by unfold arrayVa; omega),
      progress.tables.walk_supplied supplied]
  have old : ∀ other ∈ numbers, Function.update place number pa other = place other := by
    intro other member
    apply Function.update_of_ne
    rintro rfl
    exact fresh member
  have unused := (passed.change.sound ⟨sound.ok, sound.wellFormed, sound.unused⟩).unused
  refine ⟨⟨passed.change.ok, passed.change.wellFormed, unused⟩,
    fewerThen.trans (fewerFirst.trans progress.fewer), ?_, ?_, ?_, ?_⟩
  · intro other want notMapped byte inside
    rw [Set.mem_insert_iff, not_or] at notMapped
    rw [others other notMapped.1 byte inside]
    exact progress.unmapped other want notMapped.2 byte inside
  · rintro other (rfl | member) byte inside
    · rw [Function.update_self]
      apply passed.walk_inside (arrayVa_dvd other) isTable.1 half (by omega)
        (by have aligned := isTable.1; have small := isTable.2; omega)
      rw [progress.tables.walk_supplied supplied]
      exact progress.unmapped other want fresh byte inside
    · rw [others other (fun same => fresh (same ▸ member)) byte inside, old other member]
      exact progress.mapped other member byte inside
  · rintro other (rfl | member)
    · rw [Function.update_self]
      exact ⟨progress.fewer wasFree, fun still => given (fewerThen still)⟩
    · rw [old other member]
      obtain ⟨was, gone⟩ := progress.given other member
      exact ⟨was, fun still => gone (fewerFirst (fewerThen still))⟩
  · have apart : ∀ other ∈ numbers, place other ≠ pa := by
      rintro other member rfl
      exact (progress.given other member).2 wasFree
    rintro first (rfl | firstMember) second (rfl | secondMember) same
    · rfl
    · rw [Function.update_self, old second secondMember] at same
      exact absurd same.symm (apart second secondMember)
    · rw [Function.update_self, old first firstMember] at same
      exact absurd same (apart first firstMember)
    · rw [old first firstMember, old second secondMember] at same
      exact progress.distinct firstMember secondMember same

theorem arrayVa_half (bound : number < 2 ^ 30) : InOneHalf (arrayVa number) 1 := by
  right
  simp only [arrayVa, kernelMemMapAddress]
  omega

theorem mapPhysblockPage_settles (progress : Progress early pgd wanted numbers place state)
    (want : number ∈ wanted) (bound : number < 2 ^ 30) :
    Settles (number ∉ numbers)
      (fun after => ∃ place, Progress early pgd wanted (insert number numbers) place after)
      (mapPhysblockPage pgd (arrayVa number) state) := by
  have half := arrayVa_half bound
  unfold mapPhysblockPage earlyPhysblockPageAlloc
  cases call : alloc state.alloc .physblock with
  | error panic => trivial
  | ok pair =>
      obtain ⟨pa, alloc⟩ := pair
      have supplied := alloc_supplied progress.tables.ok call state.mem
      have sound := progress.tables.supplied supplied
      have walks := progress.tables.walk_supplied supplied
      change Settles _ _ (mapPageRange earlyAllocators mapKernel pgd (arrayVa number) pa (1 : Nat)
        (zeroPage state.mem pa) alloc >>= fun mapped =>
          pure (EarlyState.mk mapped.alloc mapped.mem))
      have isTable := free_isTable progress.tables.ok.1 supplied.owns
      have small := isTable.2
      have vaStart := pageStart_of_dvd (arrayVa_dvd number)
      have settles := mapPageRange_settles earlyAllocators_supplies
        (Or.inl (by decide) : ValidMapFlags mapKernel) (Nat.le_refl 1) (by rwa [vaStart])
        (by omega : pa < 2 ^ 64) ⟨sound.ok, sound.wellFormed, sound.unused⟩
      -- The one page is in the way if it has been mapped before.
      have passable : RangePassable mapKernel pgd (arrayVa number) 1 (zeroPage state.mem pa) ↔
          number ∉ numbers := by
        constructor
        · intro passable already
          obtain ⟨leaf, found, _⟩ := progress.mapped number already 0 (by omega)
          rw [Nat.add_zero, ← walks] at found
          have skips := (passable _ (Nat.le_refl _) (by omega) leaf found).1
          exact absurd skips (by decide)
        · intro fresh address low high leaf found
          rw [walks, show address = arrayVa number + (address - arrayVa number) by omega,
            progress.unmapped number want fresh _ (by omega)] at found
          cases found
      rw [vaStart] at settles
      refine Settles.iff ((settles.iff passable fun _ passed => passed).bind ?_)
        (iff_of_eq (and_true _)) fun _ holds => holds
      intro after fresh passed
      exact ⟨trivial, _, progress.insert half want fresh supplied passed⟩

/-! ## A span -/

def numbersFrom (first last : Nat) : Set Nat := {number | first ≤ number ∧ number < last}

theorem virtNextPage_arrayVa (bound : number < 2 ^ 30) :
    virtNextPage (arrayVa number) = arrayVa (number + 1) := by
  have moved : offsetPages (arrayVa number) 1 = (arrayVa number + 2 ^ 12 * 1) % 2 ^ 64 :=
    offsetPages_eq (by unfold arrayVa kernelMemMapAddress; omega) 1
  rw [virtNextPage, moved, Nat.mod_eq_of_lt (by unfold arrayVa kernelMemMapAddress; omega)]
  unfold arrayVa
  omega

theorem allocMapPhysblockFrom_settles {last : Nat} (rounds : Nat)
    (progress : Progress early pgd wanted numbers place state)
    (want : numbersFrom number last ⊆ wanted) (bound : last ≤ 2 ^ 30) (order : number ≤ last)
    (enough : last < number + rounds) :
    Settles (Disjoint (numbersFrom number last) numbers)
      (fun after => ∃ place, Progress early pgd wanted (numbers ∪ numbersFrom number last) place
        after)
      (allocMapPhysblockFrom pgd (arrayVa last) rounds (arrayVa number) state) := by
  induction rounds generalizing number numbers place state with
  | zero => omega
  | succ rounds ih =>
      rw [allocMapPhysblockFrom]
      by_cases more : number < last
      · have here : number ∈ numbersFrom number last := ⟨Nat.le_refl _, more⟩
        have split : numbersFrom number last = insert number (numbersFrom (number + 1) last) := by
          ext other
          simp only [numbersFrom, Set.mem_insert_iff, Set.mem_ofPred_eq]
          omega
        have notLater : number ∉ numbersFrom (number + 1) last := fun later => by
          have := later.1
          omega
        have step := mapPhysblockPage_settles progress (want here) (by omega)
        have rest : ∀ value,
            (∃ place, Progress early pgd wanted (insert number numbers) place value) →
            Settles (Disjoint (numbersFrom (number + 1) last) (insert number numbers))
              (fun after => ∃ place, Progress early pgd wanted
                (insert number numbers ∪ numbersFrom (number + 1) last) place after)
              (allocMapPhysblockFrom pgd (arrayVa last) rounds (arrayVa (number + 1)) value) := by
          rintro value ⟨next, going⟩
          apply ih going (Set.Subset.trans _ want) (by omega) (by omega)
          rw [split]
          exact Set.subset_insert _ _
        rw [if_pos (by unfold arrayVa; omega), virtNextPage_arrayVa (by omega), split]
        apply (step.bind fun value _ => rest value).iff
        · rw [Set.disjoint_insert_left, Set.disjoint_insert_right]
          exact and_congr_right fun _ => and_iff_right notLater
        · intro after done
          rwa [Set.insert_union, ← Set.union_insert] at done
      · have none : numbersFrom number last = ∅ := by
          rw [Set.eq_empty_iff_forall_notMem]
          rintro other ⟨low, high⟩
          omega
        rw [if_neg (by unfold arrayVa; omega), none, Set.union_empty]
        exact ⟨Set.empty_disjoint _, place, progress⟩

def Extent.HasPfn (extent : Extent) (pfn : Nat) : Prop :=
  physToPfn extent.start ≤ pfn ∧ pfn < physToPfn extent.start + extent.numPages

/-- `PAGE_SIZE / sizeof(struct physblock)`. -/
def physblocksPerPage : Nat := 128

def Extent.arrayPages (extent : Extent) : Set Nat :=
  {number | ∃ pfn, extent.HasPfn pfn ∧ pfn / physblocksPerPage = number}

theorem Extent.arrayPages_eq {extent : Extent} (ok : extent.Ok) :
    extent.arrayPages = numbersFrom (extent.start / 2 ^ 12 / 128)
      ((extent.start / 2 ^ 12 + extent.numPages + 127) / 128) := by
  have positive := ok.2.1
  ext number
  simp only [arrayPages, HasPfn, physblocksPerPage, physToPfn, pageShift, numbersFrom,
    Nat.shiftRight_eq_div_pow, Set.mem_ofPred_eq]
  constructor
  · rintro ⟨pfn, ⟨low, high⟩, rfl⟩
    omega
  · rintro ⟨low, high⟩
    by_cases first : number = extent.start / 2 ^ 12 / 128
    · exact ⟨extent.start / 2 ^ 12, ⟨by omega, by omega⟩, by omega⟩
    · exact ⟨128 * number, ⟨by omega, by omega⟩, by omega⟩

theorem allocMapPhysblock_eq {extent : Extent} (ok : extent.Ok) (pgd : Nat) (state : EarlyState) :
    ∃ rounds,
      allocMapPhysblock pgd extent.start extent.numPages state =
        allocMapPhysblockFrom pgd (arrayVa ((extent.start / 2 ^ 12 + extent.numPages + 127) / 128))
          rounds (arrayVa (extent.start / 2 ^ 12 / 128)) state ∧
      (extent.start / 2 ^ 12 + extent.numPages + 127) / 128 <
        extent.start / 2 ^ 12 / 128 + rounds := by
  obtain ⟨aligned, positive, bound⟩ := ok
  have startAddr : add64 kernelMemMapAddress (physToPfn extent.start * sizeofPhysblock % 2 ^ 64) =
      kernelMemMapAddress + 32 * (extent.start / 2 ^ 12) := by
    rw [physToPfn, pageShift, Nat.shiftRight_eq_div_pow, sizeofPhysblock,
      add64_eq (by unfold kernelMemMapAddress; omega)]
    omega
  have endAddr : add64 (kernelMemMapAddress + 32 * (extent.start / 2 ^ 12))
      (extent.numPages * sizeofPhysblock % 2 ^ 64) =
      kernelMemMapAddress + 32 * (extent.start / 2 ^ 12 + extent.numPages) := by
    rw [sizeofPhysblock, add64_eq (by unfold kernelMemMapAddress; omega)]
    omega
  have startVa : align (kernelMemMapAddress + 32 * (extent.start / 2 ^ 12)) pageSize =
      arrayVa (extent.start / 2 ^ 12 / 128) := by
    rw [pageSize, pageShift, align_eq (by unfold kernelMemMapAddress; omega) (by omega), arrayVa,
      kernelMemMapAddress]
    omega
  have endVa : alignUp (kernelMemMapAddress + 32 * (extent.start / 2 ^ 12 + extent.numPages))
      pageSize = arrayVa ((extent.start / 2 ^ 12 + extent.numPages + 127) / 128) := by
    rw [pageSize, pageShift, alignUp_eq (by unfold kernelMemMapAddress; omega) (by omega), arrayVa,
      kernelMemMapAddress]
    omega
  unfold allocMapPhysblock
  simp only [startAddr, endAddr, startVa, endVa]
  refine ⟨_, rfl, ?_⟩
  unfold arrayVa pageSize pageShift
  omega

theorem allocMapPhysblock_settles {extent : Extent} (ok : extent.Ok)
    (progress : Progress early pgd wanted numbers place state)
    (want : extent.arrayPages ⊆ wanted) :
    Settles (Disjoint extent.arrayPages numbers)
      (fun after => ∃ place, Progress early pgd wanted (numbers ∪ extent.arrayPages) place after)
      (allocMapPhysblock pgd extent.start extent.numPages state) := by
  obtain ⟨rounds, loops, enough⟩ := allocMapPhysblock_eq ok pgd state
  rw [loops]
  rw [Extent.arrayPages_eq ok] at want ⊢
  obtain ⟨aligned, positive, bound⟩ := ok
  exact allocMapPhysblockFrom_settles _ progress want (by omega) (by omega) enough

/-! ## All spans -/

def layoutPages (layout : List Extent) : Set Nat :=
  {number | ∃ extent ∈ layout, number ∈ extent.arrayPages}

theorem layoutPages_cons (extent : Extent) (rest : List Extent) :
    layoutPages (extent :: rest) = extent.arrayPages ∪ layoutPages rest := by
  ext number
  simp only [layoutPages, List.mem_cons, exists_eq_or_imp, Set.mem_union, Set.mem_ofPred_eq]

def Fits (numbers : Set Nat) (layout : List Extent) : Prop :=
  (∀ extent ∈ layout, Disjoint extent.arrayPages numbers) ∧
    layout.Pairwise fun extent other => Disjoint extent.arrayPages other.arrayPages

theorem fits_cons {extent : Extent} {rest : List Extent} :
    Disjoint extent.arrayPages numbers ∧ Fits (numbers ∪ extent.arrayPages) rest ↔
      Fits numbers (extent :: rest) := by
  simp only [Fits, List.forall_mem_cons, List.pairwise_cons, Set.disjoint_union_right]
  constructor
  · rintro ⟨first, others, pairs⟩
    exact ⟨⟨first, fun other member => (others other member).1⟩,
      fun other member => (others other member).2.symm, pairs⟩
  · rintro ⟨⟨first, others⟩, apart, pairs⟩
    exact ⟨first, fun other member => ⟨others other member, (apart other member).symm⟩, pairs⟩

theorem mapSpansFrom_settles (extents : ∀ extent ∈ early.layout, extent.Ok)
    (want : layoutPages early.layout ⊆ wanted) (remaining index : Nat)
    (total : index + remaining = early.layout.length)
    (progress : Progress early pgd wanted numbers place state) :
    Settles (Fits numbers (early.layout.drop index))
      (fun after => ∃ place, Progress early pgd wanted
        (numbers ∪ layoutPages (early.layout.drop index)) place after)
      (mapSpansFrom pgd remaining index state) := by
  induction remaining generalizing index numbers place state with
  | zero =>
      have none : early.layout.drop index = [] := List.drop_eq_nil_of_le (by omega)
      have noPages : layoutPages [] = ∅ := by simp [layoutPages]
      rw [none, noPages, Set.union_empty]
      exact ⟨⟨by simp, .nil⟩, place, progress⟩
  | succ remaining ih =>
      have inside : index < early.layout.length := by omega
      have drop := List.drop_eq_getElem_cons inside
      have member := List.getElem_mem inside
      have found : state.alloc.layout[index]? = some early.layout[index] := by
        rw [progress.tables.ok.2]
        exact List.getElem?_eq_getElem inside
      rw [PageAllocState.layout, List.getElem?_map, Option.map_eq_some_iff] at found
      obtain ⟨span, here, extent⟩ := found
      have step := allocMapPhysblock_settles (extents _ member) progress
        (fun _ page => want ⟨_, member, page⟩)
      rw [← extent] at step
      have rest := fun value (going : ∃ place, Progress early pgd wanted
          (numbers ∪ span.extent.arrayPages) place value) =>
        ih (index + 1) (by omega) going.choose_spec
      rw [mapSpansFrom, here, drop, ← extent, layoutPages_cons]
      apply (step.bind fun value _ => rest value).iff fits_cons
      intro after done
      rwa [Set.union_assoc] at done

end

/-! ## The whole pass -/

/-- Two spans have frames whose physblocks lie in one page of the array. -/
def Extent.SharesPage (extent other : Extent) : Prop :=
  ∃ pfn otherPfn, extent.HasPfn pfn ∧ other.HasPfn otherPfn ∧
    pfn / physblocksPerPage = otherPfn / physblocksPerPage

theorem disjoint_arrayPages {extent other : Extent} :
    Disjoint extent.arrayPages other.arrayPages ↔ ¬extent.SharesPage other := by
  rw [Set.disjoint_left]
  constructor
  · rintro apart ⟨pfn, otherPfn, here, there, same⟩
    exact apart ⟨pfn, here, rfl⟩ ⟨otherPfn, there, same.symm⟩
  · rintro apart number ⟨pfn, here, rfl⟩ ⟨otherPfn, there, same⟩
    exact apart ⟨pfn, otherPfn, here, there, same.symm⟩

def InArray (layout : List Extent) (address : Nat) : Prop :=
  ∃ extent ∈ layout, ∃ pfn, extent.HasPfn pfn ∧
    address / 2 ^ 12 = pfnToPhysblockRaw pfn / 2 ^ 12

/-- What the first pass is for. -/
structure MemMapCorrect (early : PageAllocState) (pgd : Nat) (after : EarlyState) : Prop where
  mapped : ∀ extent ∈ early.layout, ∀ pfn, extent.HasPfn pfn → ∀ byte < sizeofPhysblock,
    ∃ leaf, walk after.mem pgd (pfnToPhysblockRaw pfn + byte) = some leaf ∧
      LeafAt mapKernel leaf.pa leaf ∧ leaf.pa / 2 ^ 12 * 2 ^ 12 ∈ early.free
  once : ∀ address other leaf otherLeaf, InArray early.layout address →
    InArray early.layout other → walk after.mem pgd address = some leaf →
    walk after.mem pgd other = some otherLeaf → leaf.pa / 2 ^ 12 = otherLeaf.pa / 2 ^ 12 →
      address / 2 ^ 12 = other / 2 ^ 12

theorem Extent.Ok.pfn_lt {extent : Extent} (ok : extent.Ok) {pfn : Nat}
    (here : extent.HasPfn pfn) : pfn < 2 ^ 36 := by
  obtain ⟨_, _, bound⟩ := ok
  obtain ⟨low, high⟩ := here
  rw [physToPfn, pageShift, Nat.shiftRight_eq_div_pow] at low high
  omega

theorem pfnToPhysblockRaw_eq {pfn : Nat} (small : pfn < 2 ^ 36) :
    pfnToPhysblockRaw pfn = arrayVa (pfn / 128) + 32 * (pfn % 128) := by
  rw [pfnToPhysblockRaw, sizeofPhysblock, add64_eq (by unfold kernelMemMapAddress; omega), arrayVa]
  omega

section

variable {early : PageAllocState} {pgd : Nat} {address : Nat}

theorem inArray_iff (extents : ∀ extent ∈ early.layout, extent.Ok) :
    InArray early.layout address ↔ ∃ number ∈ layoutPages early.layout, ∃ byte < 2 ^ 12,
      address = arrayVa number + byte := by
  constructor
  · rintro ⟨extent, member, pfn, here, same⟩
    rw [pfnToPhysblockRaw_eq ((extents extent member).pfn_lt here)] at same
    refine ⟨pfn / 128, ⟨extent, member, pfn, here, rfl⟩, address % 2 ^ 12, by omega, ?_⟩
    unfold arrayVa kernelMemMapAddress at same ⊢
    omega
  · rintro ⟨number, ⟨extent, member, pfn, here, rfl⟩, byte, inside, rfl⟩
    refine ⟨extent, member, pfn, here, ?_⟩
    rw [pfnToPhysblockRaw_eq ((extents extent member).pfn_lt here)]
    unfold arrayVa kernelMemMapAddress physblocksPerPage
    omega

theorem Progress.correct {wanted : Set Nat} {place : Nat → Nat} {after : EarlyState}
    (ok : early.Ok)
    (progress : Progress early pgd wanted (layoutPages early.layout) place after) :
    MemMapCorrect early pgd after := by
  have frame : ∀ number ∈ layoutPages early.layout, ∀ byte < 2 ^ 12,
      (place number + byte) / 2 ^ 12 * 2 ^ 12 = place number := by
    intro number member byte inside
    obtain ⟨aligned, _⟩ := free_isTable ok.placed (progress.given number member).1
    omega
  constructor
  · intro extent member pfn here byte inside
    have page : pfn / 128 ∈ layoutPages early.layout := ⟨extent, member, pfn, here, rfl⟩
    rw [sizeofPhysblock] at inside
    have offset : 32 * (pfn % 128) + byte < 2 ^ 12 := by omega
    obtain ⟨leaf, found, pa, flags⟩ := progress.mapped _ page _ offset
    rw [pfnToPhysblockRaw_eq ((ok.extents extent member).pfn_lt here), Nat.add_assoc]
    refine ⟨leaf, found, ⟨rfl, flags⟩, ?_⟩
    rw [pa, frame _ page _ offset]
    exact (progress.given _ page).1
  · intro address other leaf otherLeaf inArray otherInArray found otherFound same
    obtain ⟨number, page, byte, inside, rfl⟩ := (inArray_iff ok.extents).mp inArray
    obtain ⟨otherNumber, otherPage, otherByte, otherInside, rfl⟩ :=
      (inArray_iff ok.extents).mp otherInArray
    obtain ⟨leaf', found', pa, _⟩ := progress.mapped _ page _ inside
    obtain ⟨otherLeaf', otherFound', otherPa, _⟩ := progress.mapped _ otherPage _ otherInside
    rw [found] at found'
    cases found'
    rw [otherFound] at otherFound'
    cases otherFound'
    have places : place number = place otherNumber := by
      rw [← frame _ page _ inside, ← frame _ otherPage _ otherInside, ← pa, ← otherPa, same]
    have numbers := progress.distinct page otherPage places
    rw [numbers]
    unfold arrayVa kernelMemMapAddress
    omega

end

theorem memMap_correct_iff (early : PageAllocState) (mem : Memory) (pgd : Nat) (ok : early.Ok)
    (wellFormed : WellFormed mem 3 pgd) (unused : Disjoint (tables mem 3 pgd) early.free)
    (unmapped : ∀ address, InArray early.layout address → walk mem pgd address = none)
    (enough : earlyInitMemMapFirst pgd ⟨early, mem⟩ ≠ .error .exhausted) :
    (∃ after, earlyInitMemMapFirst pgd ⟨early, mem⟩ = .ok after ∧ MemMapCorrect early pgd after) ↔
      early.layout.Pairwise fun extent other => ¬extent.SharesPage other := by
  have start : Progress early pgd (layoutPages early.layout) ∅ id ⟨early, mem⟩ := by
    refine ⟨⟨⟨ok.placed, rfl⟩, wellFormed, unused⟩, Set.Subset.refl _, ?_, by simp, by simp, by simp⟩
    intro number page _ byte inside
    exact unmapped _ ((inArray_iff ok.extents).mpr ⟨number, page, byte, inside, rfl⟩)
  have settles := mapSpansFrom_settles ok.extents (Set.Subset.refl _) early.spans.length 0
    (by rw [Nat.zero_add, PageAllocState.layout, List.length_map]) start
  rw [List.drop_zero, Set.empty_union] at settles
  have fits : Fits ∅ early.layout ↔
      early.layout.Pairwise fun extent other => ¬extent.SharesPage other := by
    simp only [Fits, Set.disjoint_empty, disjoint_arrayPages, implies_true, true_and]
  apply (settles.iff fits _).returns_iff enough
  rintro after ⟨place, progress⟩
  exact progress.correct ok

def apartLayout : List Extent := [⟨0x60000, 8⟩, ⟨0x100000, 16⟩]

def crowdedLayout : List Extent := [⟨0x60000, 8⟩, ⟨0x70000, 16⟩]

section

variable {layout : List Extent}

theorem emptyPgd_unused (above : ∀ extent ∈ layout, 0x1000 < extent.start) :
    Disjoint (tables (fun _ => 0) 3 0x1000) (emptyState 24 layout).free := by
  rw [tables_empty 3 fun _ _ => rfl, Set.disjoint_singleton_left]
  intro isFree
  obtain ⟨extent, member, low, _⟩ := extent_of_mem_free isFree
  rw [emptyState_layout] at member
  have start := above extent member
  omega

theorem emptyPgd_wellFormed : WellFormed (fun _ => 0) 3 0x1000 :=
  wellFormed_empty 3 ⟨by decide, by decide⟩ fun _ _ => rfl

theorem emptyPgd_unmapped (address : Nat) : walk (fun _ => 0) 0x1000 address = none := by
  rw [walk, walkFrom_empty 3 fun _ _ => rfl, ite_self]

end

theorem apartLayout_mapped :
    ∃ after, earlyInitMemMapFirst 0x1000 ⟨emptyState 24 apartLayout, fun _ => 0⟩ = .ok after ∧
      MemMapCorrect (emptyState 24 apartLayout) 0x1000 after := by
  have returns : (earlyInitMemMapFirst 0x1000
      ⟨emptyState 24 apartLayout, fun _ => 0⟩).isOk = true := by decide +kernel
  refine (memMap_correct_iff _ _ _ (emptyState_ok (by decide) (by decide) (by decide))
    emptyPgd_wellFormed (emptyPgd_unused (by decide)) (fun address _ => emptyPgd_unmapped address)
    ?_).mpr ?_
  · intro exhausted
    rw [exhausted] at returns
    cases returns
  · rw [emptyState_layout, apartLayout, List.pairwise_pair]
    rintro ⟨pfn, otherPfn, ⟨low, high⟩, ⟨otherLow, otherHigh⟩, same⟩
    simp only [physToPfn, pageShift, physblocksPerPage] at low high otherLow otherHigh same
    omega

theorem crowdedLayout_panics :
    ∃ early mem pgd, early.Ok ∧ WellFormed mem 3 pgd ∧ Disjoint (tables mem 3 pgd) early.free ∧
      (∀ address, InArray early.layout address → walk mem pgd address = none) ∧
      earlyInitMemMapFirst pgd ⟨early, mem⟩ = .error (.panic
        ⟨"Trying to map VA 0x%lx to PA 0x%lx but already mapped to 0x%lx",
          [0xffffc00040000000, 0x64000, 0x60000]⟩) := by
  refine ⟨emptyState 24 crowdedLayout, fun _ => 0, 0x1000,
    emptyState_ok (by decide) (by decide) (by decide), emptyPgd_wellFormed,
    emptyPgd_unused (by decide), fun address _ => emptyPgd_unmapped address, ?_⟩
  have stops : (match earlyInitMemMapFirst 0x1000 ⟨emptyState 24 crowdedLayout, fun _ => 0⟩ with
      | .error stop => some stop
      | .ok _ => none) = some (.panic
        ⟨"Trying to map VA 0x%lx to PA 0x%lx but already mapped to 0x%lx",
          [0xffffc00040000000, 0x64000, 0x60000]⟩) := by decide +kernel
  split at stops
  · rename_i stop result
    cases stops
    exact result
  · cases stops

end Zeptux.Early
