import Zeptux.PhysTypes

/-!
Freeing undoes an allocation, and frees commute. A coalesced state is determined by its
free pages and by the records of the other pages, up to the order of the free lists; the
calls only have to be compared on these.
-/

namespace Zeptux.Phys

open Dyadic IntrusiveRing LockProgram Word Footprint

structure PhysAllocStats.Same (first second : PhysAllocStats) : Prop where
  num4kPages : second.num4kPages = first.num4kPages
  numFree4kPages : second.numFree4kPages = first.numFree4kPages
  numPagetablePages : second.numPagetablePages = first.numPagetablePages
  numPhysblockPages : second.numPhysblockPages = first.numPhysblockPages
  order : ∀ order, order ≤ maxOrder → second.order order = first.order order

/-- The same free blocks, the same blocks in use with the same records, the same statistics. -/
structure SameBlocks (first second : PhysState) : Prop where
  free : ∀ head order, IsFree second head order ↔ IsFree first head order
  live : ∀ head order, Live second head order ↔ Live first head order
  records : ∀ head order, Live first head order → ∀ pfn, Covers head order pfn →
    second.physblocks pfn = first.physblocks pfn
  stats : first.stats.Same second.stats

/-- Two states that may differ in how the free pages are cut into blocks. -/
structure Alike (first second : PhysState) : Prop where
  spans : second.spans = first.spans
  pages : freePages second = freePages first
  outside : ∀ pfn, pfn ∉ freePages first → second.physblocks pfn = first.physblocks pfn

section Coalesced

variable {first second : PhysState} {head order : Nat}

theorem Alike.symm (alike : Alike first second) : Alike second first where
  spans := alike.spans.symm
  pages := alike.pages.symm
  outside := fun pfn used => (alike.outside pfn (alike.pages ▸ used)).symm

theorem Alike.freeRun (alike : Alike first second) (ready : Ready first) (other : Ready second)
    (free : IsFree first head order) : FreeRun second head order := by
  obtain ⟨heads, rep⟩ := ready.rep
  obtain ⟨sequences, otherRep⟩ := other.rep
  refine ⟨free.aligned, alike.spans ▸ free.inside, ?_⟩
  intro pfn covers
  rw [← mem_freePages_iff otherRep.covered, alike.pages]
  exact free.subset_freePages covers

/-- The free block around a free block is not larger, since neither state can join more. -/
theorem Alike.isFree (alike : Alike first second) (ready : Ready first) (other : Ready second)
    (free : IsFree first head order) : IsFree second head order := by
  obtain ⟨around, large, wider, isFree, lower, upper⟩ :=
    (alike.freeRun ready other free).cover other.coalesced free.bounded
  obtain ⟨back, size, widest, again, backLower, backUpper⟩ :=
    (alike.symm.freeRun other ready isFree).cover ready.coalesced isFree.bounded
  have positive := Nat.two_pow_pos order
  obtain ⟨rfl, rfl⟩ := free.toIsBlock.unique again.toIsBlock (covers_head head order)
    ⟨by omega, by omega⟩
  have sameOrder : large = order := Nat.le_antisymm widest wider
  subst sameOrder
  have sameHead : around = head := by omega
  exact sameHead ▸ isFree

theorem Alike.live (alike : Alike first second) (live : Live first head order) :
    Live second head order :=
  live.congr alike.spans fun pfn covers => alike.outside pfn (live.not_mem_freePages covers)

theorem Alike.stats (alike : Alike first second) (ready : Ready first) (other : Ready second)
    (tallied : Tallied first) (otherTallied : Tallied second) : first.stats.Same second.stats := by
  obtain ⟨heads, rep⟩ := ready.rep
  obtain ⟨sequences, otherRep⟩ := other.rep
  have records : ∀ kind, Counted kind → recordsOf second kind = recordsOf first kind :=
    fun kind counted =>
      recordsOf_congr rep otherRep counted alike.spans alike.pages alike.outside
  refine ⟨?_, ?_, ?_, ?_, ?_⟩
  · rw [other.num4kPages, ready.num4kPages, alike.spans]
  · rw [otherRep.freeCount, rep.freeCount, alike.pages]
  · rw [otherTallied.pagetables, tallied.pagetables, records _ counted_pagetable]
  · rw [otherTallied.physblocks, tallied.physblocks, records _ counted_physblock]
  · intro order bound
    have same : (sequences order).Perm (heads order) := by
      rw [List.perm_ext_iff_of_nodup (freeLists_nodup otherRep.lists bound)
        (freeLists_nodup rep.lists bound)]
      intro head
      rw [otherRep.listed order bound, rep.listed order bound]
      exact ⟨alike.symm.isFree other ready, alike.isFree ready other⟩
    rw [otherRep.counts order bound, rep.counts order bound, same.length_eq]

theorem Alike.sameBlocks (alike : Alike first second) (ready : Ready first) (other : Ready second)
    (tallied : Tallied first) (otherTallied : Tallied second) : SameBlocks first second where
  free := fun _ _ => ⟨alike.symm.isFree other ready, alike.isFree ready other⟩
  live := fun _ _ => ⟨alike.symm.live, alike.live⟩
  records := fun _ _ live pfn covers => alike.outside pfn (live.not_mem_freePages covers)
  stats := alike.stats ready other tallied otherTallied

end Coalesced

/-! ## What a free does to the pages -/

section Frees

variable {state after : PhysState} {head order : Nat}

structure FreedBlock (before after : PhysState) (head order : Nat) : Prop where
  spans : after.spans = before.spans
  pages : freePages after = freePages before ∪ Finset.Ico head (head + 2 ^ order)
  outside : ∀ pfn, pfn ∉ freePages after → after.physblocks pfn = before.physblocks pfn

theorem FreedPage.freedBlock (ready : Ready state) (live : Live state head order)
    (freed : FreedPage state head after) : FreedBlock state after head order := by
  obtain ⟨heads, rep⟩ := ready.rep
  have near : head - head < 2 ^ 8 := by omega
  cases freed with
  | unused free =>
      have type := free head order live.isBlock (covers_head head order) near
      exact absurd (free_kind type) live.used
  | @last _ freedHead large block covers _ allocated compacted =>
      obtain ⟨rfl, rfl⟩ := live.isBlock.unique block (covers_head head order) covers
      have notFree : (state.physblocks head).type ≠ physblockFree := fun free =>
        allocated (free_kind free)
      refine ⟨compacted.spans, ?_, ?_⟩
      · rw [compacted.pages, freed_freePages rep block notFree]
      · intro pfn used
        rw [compacted.pages] at used
        have different : pfn ≠ head := by
          rintro rfl
          exact used ((freed_isFree block).subset_freePages (covers_head _ _))
        rw [compacted.outside pfn used, freed_physblocks, if_neg different]

theorem Ready.free_live (ready : Ready state) (tallied : Tallied state)
    (live : Live state head order) :
    ∃ after, run (physFreePfn head) (idle state) = .returned () (idle after) ∧
      Ready after ∧ Tallied after ∧ FreedPage state head after ∧
      FreedBlock state after head order := by
  have managed := live.isBlock.managed (covers_head head order)
  obtain ⟨after, returned, freed⟩ := ready.free_returns managed
  exact ⟨after, returned, freed.ready ready, freed.tallied ready tallied, freed,
    freed.freedBlock ready live⟩

theorem FreedBlock.alike_allocated {before allocated : PhysState} {block type : Nat}
    (taken : Allocated before allocated block order type)
    (freed : FreedBlock allocated after block order) : Alike before after := by
  have pages : freePages after = freePages before := by
    rw [freed.pages, taken.pages, Finset.sdiff_union_of_subset taken.wasFree]
  refine ⟨freed.spans.trans taken.spans, pages, ?_⟩
  intro pfn used
  rw [freed.outside pfn (pages ▸ used), taken.outside pfn used]

theorem FreedBlock.alike_swapped {other last final : PhysState} {second large : Nat}
    (firstFreed : FreedBlock state after head order) (thenSecond : FreedBlock after last second large)
    (secondFreed : FreedBlock state other second large)
    (thenFirst : FreedBlock other final head order) : Alike last final := by
  have pages : freePages final = freePages last := by
    rw [thenFirst.pages, secondFreed.pages, thenSecond.pages, firstFreed.pages,
      Finset.union_right_comm]
  refine ⟨?_, pages, ?_⟩
  · rw [thenFirst.spans, secondFreed.spans, thenSecond.spans, firstFreed.spans]
  · intro pfn used
    have inFinal : pfn ∉ freePages final := pages ▸ used
    have inOther : pfn ∉ freePages other := by
      rw [thenFirst.pages] at inFinal
      exact fun free => inFinal (Finset.mem_union_left _ free)
    have inAfter : pfn ∉ freePages after := by
      rw [thenSecond.pages] at used
      exact fun free => used (Finset.mem_union_left _ free)
    rw [thenFirst.outside pfn inFinal, secondFreed.outside pfn inOther,
      thenSecond.outside pfn used, firstFreed.outside pfn inAfter]

theorem run_frees {middle last : PhysState} {second : Nat}
    (firstReturned : run (physFreePfn head) (idle state) = .returned () (idle middle))
    (thenReturned : run (physFreePfn second) (idle middle) = .returned () (idle last)) :
    run (physFreePfn head >>= fun _ => physFreePfn second) (idle state) =
      .returned () (idle last) := by
  rw [run_bind, firstReturned]
  exact thenReturned

theorem FreedPage.live_other {second large : Nat} (ready : Ready state)
    (live : Live state head order) (other : Live state second large) (distinct : head ≠ second)
    (freed : FreedPage state head after) : Live after second large := by
  rw [freed.live_iff ready]
  refine ⟨other, fun stands => distinct ?_⟩
  exact (live.isBlock.unique other.isBlock (covers_head head order) stands.1).1

end Frees

theorem reachable_free_inverse_and_commutes {machine : PhysMachine}
    (reachable : Reachable machine) :
    (∀ fuel order flags block after, order ≤ maxOrder → ValidFlags flags →
      run (physAllocBlock fuel order flags) machine = .returned block after →
      ∃ final, run (physFreePfn block) after = .returned () final ∧
        SameBlocks machine.data final.data) ∧
    ∀ first order second large, Live machine.data first order →
      Live machine.data second large → (first, order) ≠ (second, large) →
      ∃ last final,
        run (physFreePfn first >>= fun _ => physFreePfn second) machine = .returned () last ∧
        run (physFreePfn second >>= fun _ => physFreePfn first) machine = .returned () final ∧
        SameBlocks last.data final.data := by
  have tallied := reachable.tallied
  obtain ⟨state, rfl, ready⟩ := reachable.ready
  obtain ⟨heads, rep⟩ := ready.rep
  constructor
  · intro fuel order flags block machine bound valid returned
    obtain ⟨after, type, rfl, flagsOk, allocated⟩ := ready.alloc_ok bound valid returned
    have isLive := allocFlagsToPhysblockType_live flagsOk
    have live : Live after block order :=
      (allocated.live_iff isLive).mpr (Or.inl ⟨rfl, rfl⟩)
    obtain ⟨final, freeReturned, finalReady, finalTallied, _, freed⟩ :=
      (allocated.ready ready isLive).free_live (allocated.tallied rep tallied) live
    exact ⟨idle final, freeReturned,
      (freed.alike_allocated allocated).sameBlocks ready finalReady tallied finalTallied⟩
  · intro first order second large live otherLive distinct
    have heads : first ≠ second := by
      rintro rfl
      have same := live.isBlock.unique otherLive.isBlock (covers_head _ _) (covers_head _ _)
      exact distinct (by rw [same.2])
    obtain ⟨after, firstReturned, afterReady, afterTallied, firstPage, firstFreed⟩ :=
      ready.free_live tallied live
    obtain ⟨last, thenSecond, lastReady, lastTallied, _, lastFreed⟩ :=
      afterReady.free_live afterTallied (firstPage.live_other ready live otherLive heads)
    obtain ⟨other, secondReturned, otherReady, otherTallied, secondPage, secondFreed⟩ :=
      ready.free_live tallied otherLive
    obtain ⟨final, thenFirst, finalReady, finalTallied, _, finalFreed⟩ :=
      otherReady.free_live otherTallied (secondPage.live_other ready otherLive live heads.symm)
    refine ⟨idle last, idle final, run_frees firstReturned thenSecond,
      run_frees secondReturned thenFirst, ?_⟩
    exact (firstFreed.alike_swapped lastFreed secondFreed finalFreed).sameBlocks lastReady
      finalReady lastTallied finalTallied

theorem Ready.freeRun_page {state : PhysState} {pfn : Nat} (ready : Ready state)
    (free : pfn ∈ freePages state) : FreeRun state pfn 0 := by
  obtain ⟨heads, rep⟩ := ready.rep
  refine ⟨by simp, mem_managedPages.mp (Finset.mem_filter.mp free).1, ?_⟩
  intro other covers
  have same : other = pfn := by
    simp only [Covers] at covers
    omega
  rw [← mem_freePages_iff rep.covered, same]
  exact free

theorem two_pages_free_inverse :
    ∃ machine first after second final restored last swapped, Reachable machine ∧
      machine.data.spans = [⟨0, 2⟩] ∧
      run (physAllocBlock 13 0 allocKernel) machine = .returned first after ∧
      run (physAllocBlock 13 0 allocKernel) after = .returned second final ∧
      run (physFreePfn second) final = .returned () restored ∧
      SameBlocks after.data restored.data ∧
      run (physFreePfn first >>= fun _ => physFreePfn second) final = .returned () last ∧
      run (physFreePfn second >>= fun _ => physFreePfn first) final = .returned () swapped ∧
      SameBlocks last.data swapped.data := by
  obtain ⟨state, reachable, ready, spans, pages⟩ := unused_reachable (by decide : 2 ≤ 2 ^ 52)
  have valid : ValidFlags allocKernel := Or.inl (by decide)
  obtain ⟨first, after, type, returned, flagsOk, allocated⟩ := ready.alloc_returns (by decide) valid
    (by decide : maxOrder < 13) ⟨0, unused_freeRun ready spans pages (by decide : 2 ^ 0 ≤ 2)⟩
  have afterReachable : Reachable (idle after) := .alloc reachable (by decide) valid returned
  have afterReady := afterReachable.idle_ready
  have left : 1 - first ∈ freePages after := by
    rw [allocated.pages, pages, Finset.mem_sdiff, Finset.mem_Ico, Finset.mem_Ico]
    omega
  obtain ⟨second, final, otherType, again, otherOk, taken⟩ := afterReady.alloc_returns (by decide) valid
    (by decide : maxOrder < 13) ⟨_, afterReady.freeRun_page left⟩
  have finalReachable : Reachable (idle final) := .alloc afterReachable (by decide) valid again
  have live : Live after first 0 :=
    (allocated.live_iff (allocFlagsToPhysblockType_live flagsOk)).mpr (Or.inl ⟨rfl, rfl⟩)
  have otherLive := allocFlagsToPhysblockType_live otherOk
  have still : Live final first 0 := (taken.live_iff otherLive).mpr (Or.inr live)
  have new : Live final second 0 := (taken.live_iff otherLive).mpr (Or.inl ⟨rfl, rfl⟩)
  have distinct : (first, 0) ≠ (second, 0) := by
    intro same
    cases same
    exact live.not_mem_freePages (covers_head first 0)
      (taken.wasFree (Finset.mem_Ico.mpr (covers_head first 0)))
  obtain ⟨restored, freeReturned, same⟩ := (reachable_free_inverse_and_commutes afterReachable).1
    13 0 allocKernel second (idle final) (by decide) valid again
  obtain ⟨last, swapped, oneWay, otherWay, equal⟩ :=
    (reachable_free_inverse_and_commutes finalReachable).2 first 0 second 0 still new
      distinct
  exact ⟨idle state, first, idle after, second, idle final, restored, last, swapped, reachable,
    spans, returned, again, freeReturned, same, oneWay, otherWay, equal⟩

end Zeptux.Phys
