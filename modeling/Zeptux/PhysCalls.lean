import Zeptux.PhysTheorems

/-!
The calls on one processor: each ends, with no lock held and without a retry, and one that
frees a free page changes nothing.
-/

namespace Zeptux.Phys

open Dyadic IntrusiveRing LockProgram Word Footprint

section Calls

variable {state : PhysState} {head order pfn flags : Nat}

/-! ## Locks and retries -/

theorem Ready.wp_once (ready : Ready state) :
    wp (whole.contract fun stop => ∃ reason, stop = .panic reason)
      (physAllocBlockOnce order flags) state ∅ fun _ _ held => held = ∅ := by
  obtain ⟨heads, rep⟩ := ready.rep
  by_cases bound : order ≤ maxOrder
  · by_cases available : Available heads order
    · apply wp_physAllocBlockOnce rep bound available
      · exact fun reason _ => ⟨reason, rfl⟩
      · exact fun _ _ _ _ _ => rfl
    · exact wp_physAllocBlockOnce_panics rep bound available fun reason => ⟨reason, rfl⟩
  · rw [physAllocBlockOnce, if_pos (by omega)]
    exact ⟨_, rfl⟩

theorem Ready.alloc_once (ready : Ready state) {fuel : Nat} (enough : maxOrder < fuel) :
    run (physAllocBlock fuel order flags) (idle state) =
        run (physAllocBlockOnce order flags) (idle state) ∧
      ((∃ reason, run (physAllocBlock fuel order flags) (idle state) = .failed (.panic reason)) ∨
        ∃ block after, run (physAllocBlock fuel order flags) (idle state) =
          .returned block (idle after)) := by
  have outcome : (∃ block after, run (physAllocBlockOnce order flags) (idle state) =
        .returned block (idle after)) ∨
      ∃ reason, run (physAllocBlockOnce order flags) (idle state) = .failed (.panic reason) := by
    rcases run_of_wp (describes_self _ _) ready.wp_once with
      ⟨block, after, held, same, rfl⟩ | ⟨_, same, reason, rfl⟩
    · exact Or.inl ⟨block, after, same⟩
    · exact Or.inr ⟨reason, same⟩
  have kept : run (physAllocBlockOnce order flags) (idle state) ≠ .failed .outOfFuel := by
    intro cut
    rcases outcome with ⟨block, after, same⟩ | ⟨reason, same⟩
    · rw [same] at cut
      cases cut
    · rw [same] at cut
      cases cut
  have equal := (physAllocBlockOnce_cuts enough).run_eq kept
  rw [equal]
  exact ⟨rfl, outcome.symm⟩

theorem Ready.free_returns (ready : Ready state) (managed : Managed state.spans pfn) :
    ∃ after, run (physFreePfn pfn) (idle state) = .returned () (idle after) ∧
      FreedPage state pfn after := by
  have spec : wp (whole.contract fun _ => False) (physFreePfn pfn) state ∅
      fun _ after held => held = ∅ ∧ FreedPage state pfn after :=
    wp_physFreePfn ready managed fun after freed => ⟨rfl, freed⟩
  obtain ⟨_, after, _, same, rfl, freed⟩ := run_returns spec
  exact ⟨after, same, freed⟩

theorem Ready.free_unused (ready : Ready state) (free : IsFree state head order)
    (covers : Covers head order pfn) :
    run (physFreePfn pfn) (idle state) = .returned () (idle state) := by
  obtain ⟨heads, rep⟩ := ready.rep
  by_cases near : pfn - head < 2 ^ 8
  · have unused : (state.physblocks (state.headOf pfn)).refcount = 0 := by
      rw [headOf_near rep free.toIsBlock covers near]
      exact (rep.headsOk _ _ free.toIsBlock).refcount_free free.headType
    have spec : wp (whole.contract fun _ => False) (physFreePfn pfn) state ∅
        fun _ after held => after = state ∧ held = ∅ := wp_physFreePfn_unused unused ⟨rfl, rfl⟩
    obtain ⟨_, _, _, same, rfl, rfl⟩ := run_returns spec
    exact same
  · exact ready.free_far free.toIsBlock covers (by omega)

end Calls

theorem reachable_calls_release_locks {machine : PhysMachine} (reachable : Reachable machine) :
    (∀ lock, machine.held lock = false) ∧
    (∀ fuel order flags, maxOrder < fuel →
      run (physAllocBlock fuel order flags) machine =
          run (physAllocBlockOnce order flags) machine ∧
        ((∃ reason, run (physAllocBlock fuel order flags) machine = .failed (.panic reason)) ∨
          ∃ block after, run (physAllocBlock fuel order flags) machine = .returned block after ∧
            ∀ lock, after.held lock = false)) ∧
    ∀ pfn, Managed machine.data.spans pfn →
      ∃ after, run (physFreePfn pfn) machine = .returned () after ∧
        ∀ lock, after.held lock = false := by
  obtain ⟨state, rfl, ready⟩ := reachable.ready
  refine ⟨fun _ => rfl, ?_, ?_⟩
  · intro fuel order flags enough
    obtain ⟨once, panics | ⟨block, after, returned⟩⟩ := ready.alloc_once enough
    · exact ⟨once, Or.inl panics⟩
    · exact ⟨once, Or.inr ⟨block, idle after, returned, fun _ => rfl⟩⟩
  · intro pfn managed
    obtain ⟨after, returned, _⟩ := ready.free_returns managed
    exact ⟨idle after, returned, fun _ => rfl⟩

theorem two_pages_release_locks :
    ∃ machine, Reachable machine ∧ machine.data.spans = [⟨0, 2⟩] ∧
      (∃ block after, run (physAllocBlock 13 0 allocKernel) machine = .returned block after ∧
        run (physAllocBlockOnce 0 allocKernel) machine = .returned block after ∧
        ∀ lock, after.held lock = false) ∧
      ∃ after, run (physFreePfn 1) machine = .returned () after ∧
        ∀ lock, after.held lock = false := by
  obtain ⟨state, reachable, ready, spans, pages⟩ := unused_reachable (by decide : 2 ≤ 2 ^ 52)
  have freeRun : FreeRun state 0 0 := unused_freeRun ready spans pages (by decide)
  have managed : Managed state.spans 1 := by
    rw [spans]
    exact ⟨_, List.mem_singleton_self _, by simp [PhysAllocSpan.Contains]⟩
  obtain ⟨block, after, _, returned, _⟩ :=
    ready.alloc_returns (by decide) (Or.inl (by decide) : ValidFlags allocKernel)
      (by decide : maxOrder < 13) ⟨0, freeRun⟩
  obtain ⟨_, allocs, frees⟩ := reachable_calls_release_locks reachable
  obtain ⟨once, _⟩ := allocs 13 0 allocKernel (by decide)
  exact ⟨idle state, reachable, spans, ⟨block, idle after, returned, once ▸ returned, fun _ => rfl⟩,
    frees 1 managed⟩

/-! ## Freeing twice -/

theorem reachable_free_unused {machine : PhysMachine} (reachable : Reachable machine)
    {head order pfn : Nat} (free : IsFree machine.data head order)
    (covers : Covers head order pfn) :
    run (physFreePfn pfn) machine = .returned () machine := by
  obtain ⟨state, rfl, ready⟩ := reachable.ready
  exact ready.free_unused free covers

theorem two_pages_free_unused :
    ∃ machine, Reachable machine ∧ machine.data.spans = [⟨0, 2⟩] ∧
      run (physFreePfn 1) machine = .returned () machine := by
  obtain ⟨state, reachable, ready, spans, pages⟩ := unused_reachable (by decide : 2 ≤ 2 ^ 52)
  obtain ⟨heads, rep⟩ := ready.rep
  have member : 1 ∈ freePages state := by
    rw [pages]
    decide
  obtain ⟨head, order, free, covers⟩ := (mem_freePages_iff rep.covered).mp member
  exact ⟨idle state, reachable, spans, reachable_free_unused reachable free covers⟩

end Zeptux.Phys
