import Zeptux.Handover

/-!
The states a single processor reaches from the handover by allocating and freeing.
`Ready` is the invariant of all of them; one lemma per call says that the call keeps
it, and the results about reachable states follow by induction on the run.
-/

namespace Zeptux.Phys

open Dyadic IntrusiveRing LockProgram Word Footprint

def ValidFlags (flags : Nat) : Prop :=
  flags &&& allocTypeMask = allocKernel ∨ flags &&& allocTypeMask = allocUser ∨
    flags &&& allocTypeMask = allocPagetable ∨ flags &&& allocTypeMask = allocPhysblock

abbrev PhysMachine := Machine PhysState Lock

def idle (state : PhysState) : PhysMachine := Machine.holding state ∅

inductive Reachable : PhysMachine → Prop
  | init {early : Early.PageAllocState} {links : Links Node} {machine : PhysMachine} :
      Early.SpansOk early.spans →
      run (handover early) (idle (PhysState.zeroed links)) = .returned () machine →
      Reachable machine
  | alloc {machine after : PhysMachine} {fuel order flags block : Nat} :
      Reachable machine → order ≤ maxOrder → ValidFlags flags →
      run (physAllocBlock fuel order flags) machine = .returned block after → Reachable after
  | free {machine after : PhysMachine} {pfn : Nat} :
      Reachable machine → Managed machine.data.spans pfn →
      run (physFreePfn pfn) machine = .returned () after → Reachable after

structure Ready (state : PhysState) : Prop where
  rep : ∃ heads, Rep state heads
  coalesced : Coalesced state
  managed : ∀ pfn, Managed state.spans pfn → (state.physblocks pfn).kind ≠ physblockUnmanaged
  num4kPages : state.stats.num4kPages = (managedPages state.spans).card

theorem ValidFlags.type {flags : Nat} (valid : ValidFlags flags) :
    ∃ type, allocFlagsToPhysblockType flags = .ok type := by
  unfold allocFlagsToPhysblockType
  rcases valid with same | same | same | same <;> rw [same] <;> exact ⟨_, rfl⟩

/-! ## Which record a page leads to -/

section HeadOf

variable {state : PhysState} {heads : Nat → List Nat} {head order pfn : Nat}

/-- The `uint8_t` offset leads back by at most 255 pages. -/
theorem headOf_eq (rep : Rep state heads) (block : IsBlock state head order)
    (covers : Covers head order pfn) :
    state.headOf pfn = head + (pfn - head) / 2 ^ 8 * 2 ^ 8 := by
  have offset := block.offset covers
  obtain ⟨span, member, bounds⟩ := block.managed covers
  have limit := rep.spansOk.bounded span member
  simp only [PhysAllocSpan.Contains] at bounds
  unfold PhysState.headOf
  by_cases atHead : (state.physblocks pfn).headOffset = 0
  · simp only [atHead, ↓reduceIte]
    omega
  · simp only [atHead, ↓reduceIte]
    rw [sub64_eq (by omega) (by omega)]
    omega

theorem headOf_near (rep : Rep state heads) (block : IsBlock state head order)
    (covers : Covers head order pfn) (near : pfn - head < 2 ^ 8) : state.headOf pfn = head := by
  rw [headOf_eq rep block covers, Nat.div_eq_of_lt near]
  rfl

theorem headOf_far (rep : Rep state heads) (block : IsBlock state head order)
    (covers : Covers head order pfn) (far : 2 ^ 8 ≤ pfn - head) :
    state.headOf pfn ≠ head ∧ Covers head order (state.headOf pfn) ∧
      (state.physblocks (state.headOf pfn)).refcount = 0 := by
  have shape := headOf_eq rep block covers
  have quotient : 1 ≤ (pfn - head) / 2 ^ 8 := (Nat.one_le_div_iff (by omega)).mpr far
  have below := Nat.div_mul_le_self (pfn - head) (2 ^ 8)
  have inside : Covers head order (state.headOf pfn) := by
    simp only [Covers] at covers ⊢
    omega
  have different : state.headOf pfn ≠ head := by omega
  refine ⟨different, inside, ?_⟩
  have tail := block.tails (state.headOf pfn - head) (by have := inside.1; omega)
    (by have := inside.2; omega)
  rw [Nat.add_sub_cancel' inside.1] at tail
  exact tail.refcount

end HeadOf

/-! ## The calls keep the invariant -/

theorem free_page_kind {state : PhysState} {heads : Nat → List Nat} (rep : Rep state heads)
    {pfn : Nat} (member : pfn ∈ freePages state) :
    (state.physblocks pfn).kind ≠ physblockUnmanaged := by
  obtain ⟨head, order, free, covers⟩ := (mem_freePages_iff rep.covered).mp member
  rcases free.toIsBlock.head_or_tail covers with rfl | tail
  · rw [free_kind free.headType]
    decide
  · rw [tail.kind]
    decide

theorem Allocated.ready {before after : PhysState} {block order type : Nat}
    (ready : Ready before) (live : LiveType type)
    (allocated : Allocated before after block order type) : Ready after := by
  obtain ⟨heads, rep⟩ := allocated.rep
  refine ⟨⟨heads, rep⟩, allocated.coalesced ready.coalesced, ?_, ?_⟩
  · intro pfn managed
    rw [allocated.spans] at managed
    by_cases wasFree : pfn ∈ freePages before
    · by_cases inside : pfn ∈ Finset.Ico block (block + 2 ^ order)
      · rw [Finset.mem_Ico] at inside
        rcases allocated.isBlock.head_or_tail inside with rfl | tail
        · rw [Physblock.kind, allocated.headType]
          exact live.notUnmanaged
        · rw [tail.kind]
          decide
      · apply free_page_kind rep
        rw [allocated.pages]
        exact Finset.mem_sdiff.mpr ⟨wasFree, inside⟩
    · rw [allocated.outside pfn wasFree]
      exact ready.managed pfn managed
  · rw [allocated.usage.1, countPreservedType_num4kPages, allocated.spans]
    exact ready.num4kPages

theorem Compacted.ready {before after : PhysState} {head order : Nat} (ready : Ready before)
    (block : IsBlock before head order)
    (notFree : (before.physblocks head).type ≠ physblockFree)
    (compacted : Compacted (before.freed head) after head) : Ready after := by
  obtain ⟨heads, rep⟩ := compacted.rep
  refine ⟨⟨heads, rep⟩,
    compacted.coalesced (freed_coalescedBut ready.coalesced block notFree), ?_, ?_⟩
  · intro pfn managed
    rw [compacted.spans] at managed
    by_cases free : pfn ∈ freePages (before.freed head)
    · apply free_page_kind rep
      rw [compacted.pages]
      exact free
    · have different : pfn ≠ head := by
        rintro rfl
        exact free ((freed_isFree block).subset_freePages (covers_head _ _))
      rw [compacted.outside pfn free, freed_physblocks, if_neg different]
      exact ready.managed pfn managed
  · have freed : (before.freed head).stats.num4kPages = before.stats.num4kPages :=
      countFreedType_num4kPages _ _
    rw [compacted.usage.1, compacted.spans, freed]
    exact ready.num4kPages

theorem Settled.ready {plan : Nat → Physblock} {state : PhysState}
    (settled : Settled plan state (managedPages state.spans) (state.spans.map (·.numPages)).sum) :
    Ready state := by
  obtain ⟨heads, rep⟩ := settled.rep
  refine ⟨⟨heads, rep⟩, settled.coalesced, ?_, ?_⟩
  · intro pfn managed
    by_cases free : pfn ∈ freePages state
    · exact free_page_kind rep free
    · rw [settled.kept pfn free]
      intro unmanaged
      apply free
      rw [settled.pages, Finset.mem_filter]
      exact ⟨mem_managedPages.mpr managed, unmanaged⟩
  · rw [settled.num4kPages, sum_numPages_eq rep.spansOk]

section Calls

variable {state : PhysState} {head order pfn : Nat} {fails : Stop → Prop}

theorem Ready.head_cases (ready : Ready state) (block : IsBlock state head order) :
    ((state.physblocks head).type = physblockFree ∧ (state.physblocks head).refcount = 0) ∨
      ((state.physblocks head).kind ≠ physblockFree ∧ (state.physblocks head).refcount = 1) := by
  obtain ⟨heads, rep⟩ := ready.rep
  rcases rep.headsOk head order block with free | ⟨unmanaged, _⟩ | ⟨notFree, _, one⟩
  · exact Or.inl free
  · exact absurd unmanaged (ready.managed head (block.managed (covers_head head order)))
  · exact Or.inr ⟨notFree, one⟩

theorem wp_physFreePfn_last {post : Unit → PhysState → Finset Lock → Prop}
    (ready : Ready state) (block : IsBlock state head order) (covers : Covers head order pfn)
    (near : pfn - head < 2 ^ 8) (allocated : (state.physblocks head).kind ≠ physblockFree)
    (holds : ∀ after, Compacted (state.freed head) after head → post () after ∅) :
    wp (whole.contract fails) (physFreePfn pfn) state ∅ post := by
  obtain ⟨heads, rep⟩ := ready.rep
  have last : (state.physblocks head).refcount = 1 := by
    rcases ready.head_cases block with free | live
    · exact absurd (free_kind free.1) allocated
    · exact live.2
  have lead := headOf_near rep block covers near
  apply wp_bind
  apply wp_pfnToPhysblockLock trivial trivial (by simp) (by simp)
  rw [lead]
  exact wp_freePhysblockLocked last allocated
    (freed_rep rep block fun free => allocated (free_kind free)) (freed_isFree block) holds

theorem wp_physFreePfn_unused {post : Unit → PhysState → Finset Lock → Prop}
    (unused : (state.physblocks (state.headOf pfn)).refcount = 0)
    (holds : post () state ∅) :
    wp (whole.contract fails) (physFreePfn pfn) state ∅ post := by
  apply wp_bind
  apply wp_pfnToPhysblockLock trivial trivial (by simp) (by simp)
  apply wp_freePhysblockLocked_unused trivial unused
  rw [Finset.erase_insert (by simp)]
  exact holds

/-- What freeing a page does: the block that it stands for becomes free, or nothing happens. -/
inductive FreedPage (before : PhysState) (pfn : Nat) : PhysState → Prop
  | unused : (∀ head order, IsBlock before head order → Covers head order pfn →
      pfn - head < 2 ^ 8 → (before.physblocks head).type = physblockFree) →
      FreedPage before pfn before
  | last {after : PhysState} {head order : Nat} : IsBlock before head order →
      Covers head order pfn → pfn - head < 2 ^ 8 →
      (before.physblocks head).kind ≠ physblockFree →
      Compacted (before.freed head) after head → FreedPage before pfn after

theorem FreedPage.ready {after : PhysState} (ready : Ready state)
    (freed : FreedPage state pfn after) : Ready after := by
  cases freed with
  | unused _ => exact ready
  | last block _ _ allocated compacted =>
      exact compacted.ready ready block fun free => allocated (free_kind free)

theorem wp_physFreePfn {post : Unit → PhysState → Finset Lock → Prop} (ready : Ready state)
    (managed : Managed state.spans pfn)
    (holds : ∀ after, FreedPage state pfn after → post () after ∅) :
    wp (whole.contract fails) (physFreePfn pfn) state ∅ post := by
  obtain ⟨heads, rep⟩ := ready.rep
  obtain ⟨head, order, block, covers⟩ := rep.covered pfn managed
  by_cases near : pfn - head < 2 ^ 8
  · rcases ready.head_cases block with free | live
    · apply wp_physFreePfn_unused
      · rw [headOf_near rep block covers near]
        exact free.2
      · apply holds state
        apply FreedPage.unused
        intro other large otherBlock otherCovers _
        obtain ⟨rfl, _⟩ := block.unique otherBlock covers otherCovers
        exact free.1
    · apply wp_physFreePfn_last ready block covers near live.1
      intro after compacted
      exact holds after (.last block covers near live.1 compacted)
  · have far := headOf_far rep block covers (by omega)
    apply wp_physFreePfn_unused far.2.2
    apply holds state
    apply FreedPage.unused
    intro other large otherBlock otherCovers otherNear
    obtain ⟨rfl, _⟩ := block.unique otherBlock covers otherCovers
    exact absurd otherNear near

theorem wp_physAllocBlock_ready {fuel flags : Nat} {post : Nat → PhysState → Finset Lock → Prop}
    (ready : Ready state) (bound : order ≤ maxOrder) (valid : ValidFlags flags)
    (holds : ∀ block after type, allocFlagsToPhysblockType flags = .ok type →
      Allocated state after block order type → post block after ∅) :
    wp (whole.contract fun _ => True) (physAllocBlock fuel order flags) state ∅ post := by
  obtain ⟨heads, rep⟩ := ready.rep
  obtain ⟨type, flagsOk⟩ := valid.type
  by_cases available : Available heads order
  · apply wp_physAllocBlock rep bound (Or.inr trivial) available flagsOk
    intro block after allocated
    exact holds block after type flagsOk allocated
  · exact wp_physAllocBlock_panics rep bound (Or.inr trivial) available fun _ => trivial

theorem run_returned_of_wp {α : Type} {program : PhysProgram α} {value : α}
    {machine : PhysMachine} {post : α → PhysState → Finset Lock → Prop}
    (returned : run program (idle state) = .returned value machine)
    (holds : wp (whole.contract fails) program state ∅ post) :
    ∃ after held, machine = Machine.holding after held ∧ post value after held := by
  rcases run_of_wp (describes_self _ _) holds with ⟨other, after, held, same, ok⟩ | ⟨error, same, _⟩
  · rw [idle, same] at returned
    cases returned
    exact ⟨after, held, rfl, ok⟩
  · rw [idle, same] at returned
    cases returned

theorem run_returns {α : Type} {program : PhysProgram α}
    {post : α → PhysState → Finset Lock → Prop}
    (holds : wp (whole.contract fun _ => False) program state ∅ post) :
    ∃ value after held, run program (idle state) = .returned value (Machine.holding after held) ∧
      post value after held := by
  rcases run_of_wp (describes_self _ _) holds with returned | ⟨_, _, wrong⟩
  · exact returned
  · exact absurd wrong id

theorem Ready.alloc_ok {fuel flags block : Nat} {machine : PhysMachine} (ready : Ready state)
    (bound : order ≤ maxOrder) (valid : ValidFlags flags)
    (returned : run (physAllocBlock fuel order flags) (idle state) = .returned block machine) :
    ∃ after type, machine = idle after ∧ allocFlagsToPhysblockType flags = .ok type ∧
      Allocated state after block order type := by
  have spec : wp (whole.contract fun _ => True) (physAllocBlock fuel order flags) state ∅
      fun block after held => held = ∅ ∧ ∃ type, allocFlagsToPhysblockType flags = .ok type ∧
        Allocated state after block order type :=
    wp_physAllocBlock_ready ready bound valid fun block after type flagsOk allocated =>
      ⟨rfl, type, flagsOk, allocated⟩
  obtain ⟨after, held, rfl, rfl, type, flagsOk, allocated⟩ := run_returned_of_wp returned spec
  exact ⟨after, type, rfl, flagsOk, allocated⟩

theorem Ready.free_ok {machine : PhysMachine} (ready : Ready state)
    (managed : Managed state.spans pfn)
    (returned : run (physFreePfn pfn) (idle state) = .returned () machine) :
    ∃ after, machine = idle after ∧ FreedPage state pfn after := by
  have spec : wp (whole.contract fun _ => False) (physFreePfn pfn) state ∅
      fun _ after held => held = ∅ ∧ FreedPage state pfn after :=
    wp_physFreePfn ready managed fun after freed => ⟨rfl, freed⟩
  obtain ⟨after, held, rfl, rfl, freed⟩ := run_returned_of_wp returned spec
  exact ⟨after, rfl, freed⟩

theorem handover_ok {early : Early.PageAllocState} {links : Links Node} {machine : PhysMachine}
    (ok : Early.SpansOk early.spans)
    (returned : run (handover early) (idle (PhysState.zeroed links)) = .returned () machine) :
    ∃ after, machine = idle after ∧ after.spans = early.spans.map (·.toPhys) ∧
      Settled (plannedRecord early.spans) after (managedPages after.spans)
        (after.spans.map (·.numPages)).sum := by
  have spec : wp (whole.contract fun _ => False) (handover early) (PhysState.zeroed links) ∅
      fun _ after held => held = ∅ ∧ after.spans = early.spans.map (·.toPhys) ∧
        Settled (plannedRecord early.spans) after (managedPages after.spans)
          (after.spans.map (·.numPages)).sum := by
    apply wp_handover ok
    intro after spans settled
    rw [spans, List.map_map]
    exact ⟨rfl, rfl, settled⟩
  obtain ⟨after, held, rfl, rfl, spans, settled⟩ := run_returned_of_wp returned spec
  exact ⟨after, rfl, spans, settled⟩

end Calls

theorem Reachable.ready {machine : PhysMachine} (reachable : Reachable machine) :
    ∃ state, machine = idle state ∧ Ready state := by
  induction reachable with
  | init ok returned =>
      obtain ⟨after, rfl, _, settled⟩ := handover_ok ok returned
      exact ⟨after, rfl, settled.ready⟩
  | alloc _ bound valid returned ih =>
      obtain ⟨state, rfl, ready⟩ := ih
      obtain ⟨after, type, rfl, flagsOk, allocated⟩ := ready.alloc_ok bound valid returned
      exact ⟨after, rfl, allocated.ready ready (allocFlagsToPhysblockType_live flagsOk)⟩
  | free _ managed returned ih =>
      obtain ⟨state, rfl, ready⟩ := ih
      obtain ⟨after, rfl, freed⟩ := ready.free_ok managed returned
      exact ⟨after, rfl, freed.ready ready⟩

end Zeptux.Phys
