import Zeptux.EarlyInit

/-! The memory in use since boot and the pages that the early allocator can return. -/

namespace Zeptux.Early

open Page Word

/-! ## The pages marked by `alloc_init_pages` -/

/-- The addresses that the loops of `alloc_init_pages` go through. -/
def stepsFrom (next : Nat → Nat) (pa count : Nat) : Set Nat :=
  {page | ∃ step < count, page = next^[step] pa}

theorem allocAtFrom_takes {type : AllocType} {next : Nat → Nat} {count pa : Nat}
    {state after : PageAllocState} (placed : state.Placed)
    (aligned : ∀ step < count, 2 ^ 12 ∣ next^[step] pa)
    (call : allocAtFrom type next count pa state = .ok after) :
    Takes state after (stepsFrom next pa count) := by
  induction count generalizing pa state with
  | zero =>
      cases call
      have none : stepsFrom next pa 0 = ∅ := by
        ext page
        simp [stepsFrom]
      rw [none]
      exact .refl placed
  | succ count ih =>
      obtain ⟨middle, first, rest⟩ := bind_ok call
      have taken := allocAt_takes placed (aligned 0 (by omega)) first
      have later := ih taken.placed
        (by
          intro step inside
          rw [← Function.iterate_succ_apply]
          exact aligned (step + 1) (by omega))
        rest
      have split : stepsFrom next pa (count + 1) = {pa} ∪ stepsFrom next (next pa) count := by
        ext page
        simp only [stepsFrom, Set.mem_union, Set.mem_singleton_iff, Set.mem_ofPred_eq]
        constructor
        · rintro ⟨step, inside, rfl⟩
          rcases step with _ | step
          · exact Or.inl rfl
          · exact Or.inr ⟨step, by omega, by rw [← Function.iterate_succ_apply]⟩
        · rintro (rfl | ⟨step, inside, rfl⟩)
          · exact ⟨0, by omega, rfl⟩
          · exact ⟨step + 1, by omega, by rw [Function.iterate_succ_apply]⟩
      rw [split]
      exact taken.trans later

theorem physNextPage_iterate {pa : Nat} (aligned : 2 ^ 12 ∣ pa) (step : Nat)
    (bound : pa + 2 ^ 12 * step < 2 ^ 64) : physNextPage^[step] pa = pa + 2 ^ 12 * step := by
  induction step with
  | zero => rfl
  | succ step ih =>
      rw [Function.iterate_succ_apply', ih (by omega), physNextPage,
        offsetPages_eq (by omega)]
      omega

theorem stepsFrom_physNextPage {pa count : Nat} (aligned : 2 ^ 12 ∣ pa)
    (bound : pa + 2 ^ 12 * count ≤ 2 ^ 64) : stepsFrom physNextPage pa count = pageRun pa count := by
  ext page
  simp only [stepsFrom, pageRun, Set.mem_ofPred_eq]
  constructor
  · rintro ⟨step, inside, rfl⟩
    exact ⟨step, inside, physNextPage_iterate aligned step (by omega)⟩
  · rintro ⟨step, inside, rfl⟩
    exact ⟨step, inside, (physNextPage_iterate aligned step (by omega)).symm⟩

/-- From the page at the stack's starting address down; the lowest page of the stack is
missed. -/
def markedStackPages : Set Nat := {0x80000, 0x7f000, 0x7e000, 0x7d000}

theorem stepsFrom_stack :
    stepsFrom physPrevPage kernelStackAddressPhys kernelStackPages = markedStackPages := by
  ext page
  simp only [stepsFrom, markedStackPages, kernelStackPages, Set.mem_ofPred_eq,
    Set.mem_insert_iff, Set.mem_singleton_iff]
  constructor
  · rintro ⟨step, inside, rfl⟩
    rcases step with _ | _ | _ | _ | step
    · exact Or.inl rfl
    · exact Or.inr (Or.inl rfl)
    · exact Or.inr (Or.inr (Or.inl rfl))
    · exact Or.inr (Or.inr (Or.inr rfl))
    · omega
  · rintro (rfl | rfl | rfl | rfl)
    · exact ⟨0, by omega, rfl⟩
    · exact ⟨1, by omega, rfl⟩
    · exact ⟨2, by omega, rfl⟩
    · exact ⟨3, by omega, rfl⟩

def elfPages (info : BootInfo) : Nat := (info.kernelElfSizeBytes + 4095) / 4096

/-- Scratch pages, stack, boot information, kernel ELF, page tables, video buffer. -/
def markedPages (info : BootInfo) (scratch : ScratchAllocState) : Set Nat :=
  pageRun 0xc00000 scratch.pages ∪ markedStackPages ∪ {0x6000} ∪
    pageRun kernelElfAddressPhys (elfPages info) ∪ {0x1000} ∪ {0x3000} ∪ {0x4000} ∪ {0x7000} ∪
    {0x8000}

theorem allocInitPages_takes {info : BootInfo} {scratch : ScratchAllocState}
    {state after : PageAllocState} (placed : state.Placed) (elf : info.kernelElfSizeBytes < 2 ^ 32)
    (few : scratch.pages ≤ earlyMaxScratchPages)
    (call : allocInitPages info earlyScratchAllocInit.start scratch.pages state = .ok after) :
    Takes state after (markedPages info scratch) := by
  unfold earlyMaxScratchPages at few
  have start : earlyScratchAllocInit.start = 0xc00000 := by decide
  have boot : virtToPhys earlyBootInfoAddress = 0x6000 := by decide
  have pages : bytesToPages info.kernelElfSizeBytes = elfPages info := by
    rw [bytesToPages_eq (by omega), elfPages]
    rfl
  have small : elfPages info < 2 ^ 31 := by
    unfold elfPages
    omega
  unfold allocInitPages at call
  simp only [start, boot, pages, toInt32_eq small,
    toInt32_eq (by omega : scratch.pages < 2 ^ 31), Int.toNat_natCast] at call
  obtain ⟨_, scratchCall, call⟩ := bind_ok call
  obtain ⟨_, stackCall, call⟩ := bind_ok call
  obtain ⟨_, bootCall, call⟩ := bind_ok call
  obtain ⟨_, elfCall, call⟩ := bind_ok call
  obtain ⟨_, pgdCall, call⟩ := bind_ok call
  obtain ⟨_, directCall, call⟩ := bind_ok call
  obtain ⟨_, kernelCall, call⟩ := bind_ok call
  obtain ⟨_, videoCall, lastCall⟩ := bind_ok call
  have upwards : ∀ pa count, 2 ^ 12 ∣ pa → pa + 2 ^ 12 * count < 2 ^ 64 →
      ∀ step < count, 2 ^ 12 ∣ physNextPage^[step] pa := by
    intro pa count aligned bound step inside
    rw [physNextPage_iterate aligned step (by omega)]
    omega
  have one := allocAtFrom_takes placed (upwards _ _ (by decide) (by omega)) scratchCall
  have two := allocAtFrom_takes one.placed
    (by
      intro step inside
      have page : physPrevPage^[step] kernelStackAddressPhys ∈ markedStackPages := by
        rw [← stepsFrom_stack]
        exact ⟨step, inside, rfl⟩
      rcases page with same | same | same | same <;> rw [same] <;> decide)
    stackCall
  have three := allocAt_takes two.placed (by decide) bootCall
  have four := allocAtFrom_takes three.placed
    (upwards _ _ (by decide) (by unfold kernelElfAddressPhys; omega)) elfCall
  have five := allocAt_takes four.placed (by decide) pgdCall
  have six := allocAt_takes five.placed (by decide) directCall
  have seven := allocAt_takes six.placed (by decide) kernelCall
  have eight := allocAt_takes seven.placed (by decide) videoCall
  have nine := allocAt_takes eight.placed (by decide) lastCall
  rw [stepsFrom_physNextPage (by decide) (by omega)] at one
  rw [stepsFrom_stack] at two
  rw [stepsFrom_physNextPage (by decide) (by unfold kernelElfAddressPhys; omega)] at four
  exact (((((((one.trans two).trans three).trans four).trans five).trans six).trans seven).trans
    eight).trans nine

/-! ## What is returned later -/

def Call.type : Call → Option AllocType
  | .pageAlloc => some .normal
  | .pageAllocEphemeral => some .ephemeral
  | .pagetableAlloc => some .pagetable
  | .physblockPageAlloc => some .physblock
  | .pagesAlloc _ => none

theorem Call.perform_single {call : Call} {type : AllocType} (single : call.type = some type)
    (state : EarlyState) :
    (∃ panic, alloc state.alloc type = .error panic ∧ call.perform state = .error panic) ∨
      ∃ pa after, alloc state.alloc type = .ok (pa, after.alloc) ∧
        call.perform state = .ok (pa, after) := by
  cases result : alloc state.alloc type with
  | error panic =>
      refine Or.inl ⟨panic, rfl, ?_⟩
      cases call <;> cases single <;>
        simp only [perform, earlyPageAlloc, earlyPageAllocEphemeral, earlyPagetableAlloc,
          earlyPhysblockPageAlloc, result] <;> rfl
  | ok pair =>
      obtain ⟨pa, after⟩ := pair
      refine Or.inr ⟨pa, ⟨after, if type = .pagetable ∨ type = .physblock then zeroPage state.mem pa
        else state.mem⟩, rfl, ?_⟩
      cases call <;> cases single <;>
        simp only [perform, earlyPageAlloc, earlyPageAllocEphemeral, earlyPagetableAlloc,
          earlyPhysblockPageAlloc, result] <;> rfl

theorem Call.perform_ok {call : Call} {state after : EarlyState} {pa : Nat}
    (returned : call.perform state = .ok (pa, after)) :
    (∃ type, call.type = some type ∧ call.numPages = 1 ∧
      alloc state.alloc type = .ok (pa, after.alloc)) ∨
      ∃ pages, call = .pagesAlloc pages ∧
        earlyPagesAlloc state.alloc pages = .ok (pa, after.alloc) := by
  cases kind : call.type with
  | none =>
      cases call <;> cases kind
      obtain ⟨⟨page, alloc⟩, inner, rest⟩ := bind_ok returned
      cases rest
      exact Or.inr ⟨_, rfl, inner⟩
  | some type =>
      have one : call.numPages = 1 := by
        cases call <;> first | rfl | cases kind
      rcases perform_single kind state with ⟨panic, _, stops⟩ | ⟨page, next, inner, same⟩
      · rw [stops] at returned
        cases returned
      · rw [same] at returned
        cases returned
        exact Or.inl ⟨type, rfl, one, inner⟩

theorem pageRun_one (pa : Nat) : pageRun pa 1 = {pa} := by
  rw [pageRun_succ, pageRun_zero, Set.union_empty]

theorem Call.perform_takes {call : Call} {state after : EarlyState} {pa : Nat}
    (placed : state.alloc.Placed) (returned : call.perform state = .ok (pa, after)) :
    Takes state.alloc after.alloc (pageRun pa call.numPages) := by
  rcases perform_ok returned with ⟨type, _, one, inner⟩ | ⟨pages, rfl, inner⟩
  · rw [one, pageRun_one]
    exact alloc_takes placed inner
  · exact earlyPagesAlloc_takes placed inner

theorem returnedPages_free (calls : List Call) {state : EarlyState} (placed : state.alloc.Placed) :
    ∀ page ∈ returnedPages calls state, page ∈ state.alloc.free := by
  induction calls generalizing state with
  | nil => simp [returnedPages]
  | cons call calls ih =>
      rw [returnedPages]
      split
      · simp
      · rename_i pa after returned
        have taken := call.perform_takes placed returned
        intro page member
        rcases List.mem_append.mp member with here | later
        · obtain ⟨step, inside, rfl⟩ := List.mem_map.mp here
          exact taken.wereFree ⟨step, List.mem_range.mp inside, rfl⟩
        · have still := ih taken.placed page later
          rw [taken.free] at still
          exact still.1

theorem free_finite {state : PageAllocState} (placed : state.Placed) : state.free.Finite := by
  apply (Set.finite_Iio (2 ^ 48)).subset
  intro pa isFree
  obtain ⟨extent, member, _, high⟩ := extent_of_mem_free isFree
  exact Nat.lt_of_lt_of_le high (placed.extents extent member).2

/-- First fit reaches every free page in the end. -/
theorem returned_of_free {state : EarlyState} (placed : state.alloc.Placed) {pa : Nat}
    (isFree : pa ∈ state.alloc.free) : ∃ calls, pa ∈ returnedPages calls state := by
  generalize size : state.alloc.free.ncard = count
  induction count using Nat.strongRecOn generalizing state with
  | ind count ih =>
      cases call : alloc state.alloc .normal with
      | error panic =>
          rw [alloc_error placed call] at isFree
          exact absurd isFree (Set.notMem_empty pa)
      | ok pair =>
          obtain ⟨page, alloc⟩ := pair
          have taken := alloc_takes placed call
          have step : Call.pageAlloc.perform state = .ok (page, { state with alloc := alloc }) := by
            rw [Call.perform, earlyPageAlloc, call]
            rfl
          by_cases here : pa = page
          · refine ⟨[.pageAlloc], ?_⟩
            rw [returnedPages, step, here]
            simp [Call.numPages]
          · have still : pa ∈ alloc.free := by
              rw [taken.free]
              exact ⟨isFree, here⟩
            have fewer : alloc.free.ncard < count := by
              rw [taken.free, ← size]
              exact Set.ncard_sdiff_singleton_lt_of_mem (taken.wereFree rfl) (free_finite placed)
            have later : ∃ calls, pa ∈ returnedPages calls { state with alloc := alloc } :=
              ih _ fewer taken.placed still rfl
            obtain ⟨calls, found⟩ := later
            refine ⟨.pageAlloc :: calls, ?_⟩
            rw [returnedPages, step]
            exact List.mem_append_right _ found

/-! ## Memory in use since boot -/

/-- The addresses in use: the stack grows down from its starting address. -/
inductive InUse (info : BootInfo) (scratch : ScratchAllocState) (address : Nat) : Prop
  | scratch : earlyScratchAllocInit.start ≤ address →
      address < earlyScratchAllocInit.start + pageSize * scratch.pages → InUse info scratch address
  | stack : kernelStackAddressPhys ≤ address + pageSize * kernelStackPages →
      address < kernelStackAddressPhys → InUse info scratch address
  | bootInfo : address / pageSize = virtToPhys earlyBootInfoAddress / pageSize →
      InUse info scratch address
  | kernelElf : kernelElfAddressPhys ≤ address →
      address < kernelElfAddressPhys + pageSize * elfPages info → InUse info scratch address
  | pageTable (table : Nat) : table ∈ [earlyPgd, earlyPudDirectMap, earlyPudKernelElf] →
      table ≤ address → address < table + pageSize → InUse info scratch address
  | videoBuffer : earlyVideoBufferAddressPhys ≤ address →
      address < earlyVideoBufferAddressPhys + pageSize * 2 → InUse info scratch address

def lowestStackPage : Nat := kernelStackAddressPhys - pageSize * kernelStackPages

theorem InUse.page {info : BootInfo} {scratch : ScratchAllocState} {page address : Nat}
    (inUse : InUse info scratch address) (aligned : 2 ^ 12 ∣ page) (low : page ≤ address)
    (high : address < page + pageSize) :
    page ∈ markedPages info scratch ∨ page = lowestStackPage := by
  have start : earlyScratchAllocInit.start = 0xc00000 := by decide
  have boot : virtToPhys earlyBootInfoAddress = 0x6000 := by decide
  simp only [markedPages, markedStackPages, Set.mem_union, Set.mem_insert_iff,
    Set.mem_singleton_iff]
  simp only [lowestStackPage, pageSize, pageShift, kernelStackAddressPhys, kernelStackPages] at high ⊢
  cases inUse with
  | scratch lower upper =>
      simp only [start, pageSize, pageShift] at lower upper
      have run : page ∈ pageRun 0xc00000 scratch.pages :=
        ⟨(page - 0xc00000) / 2 ^ 12, by omega, by omega⟩
      simp only [run, true_or]
  | stack lower upper =>
      simp only [pageSize, pageShift, kernelStackAddressPhys, kernelStackPages] at lower upper
      omega
  | bootInfo same =>
      rw [boot, pageSize, pageShift] at same
      omega
  | kernelElf lower upper =>
      simp only [kernelElfAddressPhys, pageSize, pageShift] at lower upper
      have run : page ∈ pageRun kernelElfAddressPhys (elfPages info) :=
        ⟨(page - 0x1000000) / 2 ^ 12, by omega, by unfold kernelElfAddressPhys; omega⟩
      simp only [run, true_or, or_true]
  | pageTable table known lower upper =>
      simp only [earlyPgd, earlyPudDirectMap, earlyPudKernelElf, List.mem_cons, List.not_mem_nil,
        or_false, pageSize, pageShift] at known upper
      omega
  | videoBuffer lower upper =>
      simp only [earlyVideoBufferAddressPhys, pageSize, pageShift] at lower upper
      omega

theorem lowestStackPage_not_marked (info : BootInfo) (scratch : ScratchAllocState) :
    lowestStackPage ∉ markedPages info scratch := by
  simp only [markedPages, markedStackPages, Set.mem_union, Set.mem_insert_iff,
    Set.mem_singleton_iff, pageRun, Set.mem_ofPred_eq, lowestStackPage, pageSize, pageShift,
    kernelStackAddressPhys, kernelStackPages, kernelElfAddressPhys]
  rintro ((((((((⟨step, _, same⟩ | same) | same) | ⟨step, _, same⟩) | same) | same) | same) | same) |
    same) <;> omega

structure BootInfo.Normalised (info : BootInfo) : Prop extends info.Disjoint where
  aligned : ∀ entry ∈ info.ramEntries, PageAligned entry

theorem E820Entry.extent_end {entry : E820Entry} (aligned : PageAligned entry) :
    2 ^ 12 * entry.extent.numPages = entry.size := by
  have size := aligned.size
  rw [E820Entry.extent, pageShift, Nat.shiftRight_eq_div_pow]
  rw [pageSize, pageShift] at size
  simp only
  omega

theorem BootInfo.Normalised.layout_placed {info : BootInfo} (normal : info.Normalised) :
    (∀ extent ∈ info.layout, extent.Placed) ∧ info.layout.Pairwise Extent.Apart := by
  constructor
  · intro extent member
    obtain ⟨entry, isEntry, rfl⟩ := List.mem_map.mp member
    have aligned := normal.aligned entry isEntry
    have size := E820Entry.extent_end aligned
    have base := aligned.base
    have bounded := normal.bounded entry isEntry
    rw [pageSize, pageShift] at base
    refine ⟨base, ?_⟩
    rw [size]
    exact bounded
  · rw [BootInfo.layout, List.pairwise_map]
    refine normal.apart.imp_of_mem ?_
    intro entry other member otherMember apart
    rw [Extent.Apart, E820Entry.extent_end (normal.aligned entry member),
      E820Entry.extent_end (normal.aligned other otherMember)]
    exact apart

theorem init_takes {info : BootInfo} (normal : info.Normalised)
    (elf : info.kernelElfSizeBytes < 2 ^ 32) {state : PageAllocState} {scratch : ScratchAllocState}
    (init : earlyPageAllocInit info earlyScratchAllocInit = .ok (state, scratch)) :
    Takes (emptyState (bytesToPages info.totalAvailRamBytes) info.layout) state
      (markedPages info scratch) := by
  obtain ⟨pages, small, few⟩ := earlyPageAllocInit_ok normal.toDisjoint init
  exact allocInitPages_takes (emptyState_placed normal.layout_placed.1 normal.layout_placed.2 small) elf few pages

/-- No page returned later overlaps memory in use. -/
def BootMemoryReserved (info : BootInfo) (state : PageAllocState) (scratch : ScratchAllocState) :
    Prop :=
  ∀ calls mem, ∀ page ∈ returnedPages calls ⟨state, mem⟩, ∀ address, page ≤ address →
    address < page + pageSize → ¬InUse info scratch address

/-- The lowest page of the stack is left free, so it is returned sooner or later. -/
theorem lowestStackPage_returned {info : BootInfo} (normal : info.Normalised)
    (elf : info.kernelElfSizeBytes < 2 ^ 32) {state : PageAllocState} {scratch : ScratchAllocState}
    (init : earlyPageAllocInit info earlyScratchAllocInit = .ok (state, scratch))
    {entry : E820Entry} (member : entry ∈ info.ramEntries) (low : entry.base ≤ lowestStackPage)
    (high : lowestStackPage < entry.base + entry.size) :
    ¬BootMemoryReserved info state scratch := by
  have taken := init_takes normal elf init
  have aligned := normal.aligned entry member
  have size := E820Entry.extent_end aligned
  have base := aligned.base
  have extent : entry.extent ∈ info.layout := List.mem_map_of_mem member
  obtain ⟨index, place⟩ := List.getElem?_of_mem extent
  have page : entry.extent.page ((lowestStackPage - entry.base) / 2 ^ 12) = lowestStackPage := by
    simp only [pageSize, pageShift] at base
    simp only [Extent.page, E820Entry.extent, lowestStackPage, kernelStackAddressPhys, pageSize,
      pageShift, kernelStackPages] at low ⊢
    omega
  have wasFree : lowestStackPage ∈
      (emptyState (bytesToPages info.totalAvailRamBytes) info.layout).free := by
    refine ⟨index, entry.extent.emptySpan, (lowestStackPage - entry.base) / 2 ^ 12, ?_, ?_, ?_,
      page.symm⟩
    · rw [emptyState, List.getElem?_map, place]
      rfl
    · change _ < entry.extent.numPages
      omega
    · exact Bitmap.isSet_init _ fun _ => rfl
  have isFree : lowestStackPage ∈ state.free := by
    rw [taken.free]
    exact ⟨wasFree, lowestStackPage_not_marked info scratch⟩
  have found : ∃ calls, lowestStackPage ∈ returnedPages calls ⟨state, fun _ => 0⟩ :=
    returned_of_free taken.placed isFree
  obtain ⟨calls, returned⟩ := found
  intro reserved
  refine reserved calls _ lowestStackPage returned lowestStackPage (Nat.le_refl _) ?_ ?_
  · simp only [pageSize, pageShift]
    omega
  · exact .stack (by decide) (by decide)

theorem bootMemoryReserved_iff (info : BootInfo) (normal : info.Normalised)
    (elf : info.kernelElfSizeBytes < 2 ^ 32) (state : PageAllocState) (scratch : ScratchAllocState)
    (init : earlyPageAllocInit info earlyScratchAllocInit = .ok (state, scratch)) :
    BootMemoryReserved info state scratch ↔
      ¬∃ entry ∈ info.ramEntries, entry.base ≤ lowestStackPage ∧
        lowestStackPage < entry.base + entry.size := by
  constructor
  · rintro reserved ⟨entry, member, low, high⟩
    exact lowestStackPage_returned normal elf init member low high reserved
  · rintro missing calls mem page returned address low high inUse
    have taken := init_takes normal elf init
    have isFree := returnedPages_free calls taken.placed page returned
    have aligned : 2 ^ 12 ∣ page := by
      obtain ⟨index, span, offset, here, _, _, rfl⟩ := isFree
      have start := (taken.placed.extent here).1
      simp only [Extent.page]
      omega
    rw [taken.free] at isFree
    rcases inUse.page aligned low high with marked | lowest
    · exact isFree.2 marked
    · obtain ⟨extent, member, lower, upper⟩ := extent_of_mem_free isFree.1
      rw [emptyState_layout] at member
      obtain ⟨entry, isEntry, rfl⟩ := List.mem_map.mp member
      rw [E820Entry.extent_end (normal.aligned entry isEntry)] at upper
      rw [lowest] at lower upper
      exact missing ⟨entry, isEntry, lower, upper⟩

/-- Boot information with RAM entries only, as `early_set_total_ram` leaves it. -/
def ramBootInfo (kernelElfSizeBytes : Nat) (entries : List E820Entry) : BootInfo :=
  ⟨(entries.map E820Entry.size).sum, entries.length, kernelElfSizeBytes, entries.length,
    fun index => entries.getD index ⟨0, 0, 0⟩⟩

theorem ramBootInfo_normalised {kernelElfSizeBytes : Nat} {entries : List E820Entry}
    (rams : (ramBootInfo kernelElfSizeBytes entries).ramEntries = entries)
    (apart : entries.Pairwise fun entry other =>
      entry.base + entry.size ≤ other.base ∨ other.base + other.size ≤ entry.base)
    (aligned : ∀ entry ∈ entries, pageSize ∣ entry.base ∧ pageSize ∣ entry.size ∧ 0 < entry.size ∧
      entry.base + entry.size ≤ 2 ^ 48) :
    (ramBootInfo kernelElfSizeBytes entries).Normalised := by
  refine ⟨⟨?_, ?_, ⟨?_, ?_⟩⟩, ?_⟩
  · rwa [rams]
  · intro entry member
    rw [rams] at member
    exact (aligned entry member).2.2.2
  · rw [rams]
    rfl
  · rw [rams]
    rfl
  · intro entry member
    rw [rams] at member
    obtain ⟨base, size, nonempty, _⟩ := aligned entry member
    exact ⟨base, size, nonempty⟩

def holeInfo : BootInfo :=
  ramBootInfo 0x2800 [⟨0x1000, 0x8000, e820TypeRam⟩, ⟨0x7d000, 0x4000, e820TypeRam⟩,
    ⟨0xc00000, 0x403000, e820TypeRam⟩]

def conventionalInfo : BootInfo :=
  ramBootInfo 0x2800 [⟨0x1000, 0x80000, e820TypeRam⟩, ⟨0xc00000, 0x403000, e820TypeRam⟩]

theorem holeInfo_reserved :
    ∃ state scratch, earlyPageAllocInit holeInfo earlyScratchAllocInit = .ok (state, scratch) ∧
      BootMemoryReserved holeInfo state scratch := by
  have returns : (earlyPageAllocInit holeInfo earlyScratchAllocInit).isOk = true := by
    decide +kernel
  cases init : earlyPageAllocInit holeInfo earlyScratchAllocInit with
  | error panic =>
      rw [init] at returns
      cases returns
  | ok pair =>
      obtain ⟨state, scratch⟩ := pair
      refine ⟨state, scratch, rfl, ?_⟩
      exact (bootMemoryReserved_iff holeInfo
        (ramBootInfo_normalised (by decide) (by decide) (by decide)) (by decide) state scratch
        init).mpr (by decide)

theorem conventionalInfo_stack_overwritten :
    ∃ state scratch, conventionalInfo.Normalised ∧ conventionalInfo.kernelElfSizeBytes < 2 ^ 32 ∧
      earlyPageAllocInit conventionalInfo earlyScratchAllocInit = .ok (state, scratch) ∧
      ¬BootMemoryReserved conventionalInfo state scratch := by
  have returns : (earlyPageAllocInit conventionalInfo earlyScratchAllocInit).isOk = true := by
    decide +kernel
  have normal : conventionalInfo.Normalised :=
    ramBootInfo_normalised (by decide) (by decide) (by decide)
  cases init : earlyPageAllocInit conventionalInfo earlyScratchAllocInit with
  | error panic =>
      rw [init] at returns
      cases returns
  | ok pair =>
      obtain ⟨state, scratch⟩ := pair
      exact ⟨state, scratch, normal, by decide, rfl,
        lowestStackPage_returned normal (by decide) init List.mem_cons_self (by decide) (by decide)⟩

end Zeptux.Early
