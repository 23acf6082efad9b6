import Zeptux.EarlyRun

/-! Which requests for contiguous pages `early_pages_alloc` serves. -/

namespace Zeptux.Early

open Page Word

/-- `n` consecutive pages of the span that are not allocated, with their bits in one word. -/
def PageAllocSpan.FreeRun (span : PageAllocSpan) (n start : Nat) : Prop :=
  start + n ≤ span.numPages ∧ span.allocBitmap.ClearRun n start

def PageAllocState.HasFreeRun (state : PageAllocState) (n : Nat) : Prop :=
  ∃ span ∈ state.spans, ∃ start, span.FreeRun n start

/-- Some word has such a run and does not begin with one. -/
def PageAllocState.HasInnerRun (state : PageAllocState) (n : Nat) : Prop :=
  ∃ span ∈ state.spans, ∃ start, span.FreeRun n start ∧
    ¬span.allocBitmap.ClearRun n (start / 64 * 64)

def PageAllocState.ServesContiguous (state : PageAllocState) (n : Nat) : Prop :=
  state.HasFreeRun n → ∃ pa after, earlyPagesAlloc state n = .ok (pa, after)

theorem PageAllocState.HasInnerRun.hasFreeRun {state : PageAllocState} {n : Nat}
    (inner : state.HasInnerRun n) : state.HasFreeRun n := by
  obtain ⟨span, member, start, run, _⟩ := inner
  exact ⟨span, member, start, run⟩

theorem zeroStringLongerThan_found_iff {span : PageAllocSpan}
    (sized : span.allocBitmap.Sized span.numPages) {n : Nat} (positive : 0 < n) (short : n ≤ 64) :
    span.allocBitmap.zeroStringLongerThan n ≠ -1 ↔
      ∃ start, span.FreeRun n start ∧ ¬span.allocBitmap.ClearRun n (start / 64 * 64) := by
  have unwrapped : ∀ bit, ¬span.allocBitmap.Wraps n bit := fun _ => sized.not_wraps short
  obtain ⟨bits, room, small⟩ := sized
  simp only [PageAllocSpan.FreeRun, ← bits] at room ⊢
  rcases Bitmap.zeroStringLongerThan_cases positive short room (by omega) (by omega) with
    ⟨bit, result, fits | wraps, run, inner, _⟩ | ⟨result, nothing, _⟩
  · exact iff_of_true (by omega) ⟨bit, ⟨fits, run⟩, inner⟩
  · exact absurd wraps (unwrapped bit)
  · refine iff_of_false (fun found => found result) ?_
    rintro ⟨start, ⟨fits, run⟩, inner⟩
    exact inner (nothing start fits run)

theorem earlyPagesAlloc_returns_iff {state : PageAllocState}
    (sized : ∀ span ∈ state.spans, span.allocBitmap.Sized span.numPages) {n : Nat}
    (positive : 0 < n) (short : n ≤ 64) :
    (∃ pa after, earlyPagesAlloc state n = .ok (pa, after)) ↔ n ≤ 8 ∧ state.HasInnerRun n := by
  unfold earlyPagesAlloc
  by_cases few : n ≤ 8
  · rw [if_neg (by rw [maxPagesAlloc]; omega)]
    split
    · rename_i first
      refine iff_of_false (by rintro ⟨pa, after, call⟩; cases call) ?_
      rintro ⟨_, span, member, inner⟩
      have found := (zeroStringLongerThan_found_iff (sized span member) positive short).mpr inner
      have passed := firstSpan_none first span member
      exact found (by simpa using passed)
    · rename_i index span first
      obtain ⟨_, here, found, _⟩ := firstSpan_some first
      have member := List.mem_of_getElem? here
      refine iff_of_true ⟨_, _, rfl⟩ ⟨few, span, member, ?_⟩
      exact (zeroStringLongerThan_found_iff (sized span member) positive short).mp
        (by simpa using found)
  · rw [if_pos (by rw [maxPagesAlloc]; omega)]
    exact iff_of_false (by rintro ⟨pa, after, call⟩; cases call) fun both => few both.1

/-- Eight pages are the limit, and words that begin with a run are passed over. -/
theorem earlyPagesAlloc_serves_iff {info : BootInfo} (disjoint : info.Disjoint)
    {state : EarlyState} {held : Set Nat} (reachable : Reachable info state held) {n : Nat}
    (positive : 1 ≤ n) (short : n ≤ 64) :
    state.alloc.ServesContiguous n ↔
      ¬state.alloc.HasFreeRun n ∨ n ≤ 8 ∧ state.alloc.HasInnerRun n := by
  rw [PageAllocState.ServesContiguous,
    earlyPagesAlloc_returns_iff (reachable.kept disjoint).sized positive short]
  exact imp_iff_not_or

theorem conventionalInfo_free :
    ∃ state held, Reachable conventionalInfo state held ∧ ∃ span ∈ state.alloc.spans,
      17 ≤ span.numPages ∧ span.allocBitmap.isSet 0 = true ∧
      ∀ offset < 9, span.allocBitmap.isSet (8 + offset) = false := by
  have free : (match earlyPageAllocInit conventionalInfo earlyScratchAllocInit with
      | .ok (alloc, _) => alloc.spans.any fun span => decide (17 ≤ span.numPages ∧
          span.allocBitmap.isSet 0 = true ∧
          ∀ offset < (9 : Nat), span.allocBitmap.isSet (8 + offset) = false)
      | .error _ => false) = true := by decide +kernel
  cases init : earlyPageAllocInit conventionalInfo earlyScratchAllocInit with
  | error panic =>
      rw [init] at free
      cases free
  | ok pair =>
      rw [init] at free
      obtain ⟨span, member, known⟩ := List.any_eq_true.mp free
      exact ⟨⟨pair.1, fun _ => 0⟩, _, .init _ init, span, member, of_decide_eq_true known⟩

theorem conventionalInfo_serves :
    ∃ state held, Reachable conventionalInfo state held ∧ state.alloc.HasFreeRun 8 ∧
      state.alloc.ServesContiguous 8 := by
  obtain ⟨state, held, reachable, span, member, pages, isSet, clear⟩ := conventionalInfo_free
  have normal : conventionalInfo.Normalised :=
    ramBootInfo_normalised (by decide) (by decide) (by decide)
  have inner : state.alloc.HasInnerRun 8 := by
    refine ⟨span, member, 8, ⟨by omega, by decide, fun offset low => clear offset (by omega)⟩, ?_⟩
    intro run
    have unset := run.2 0 (by decide)
    rw [isSet] at unset
    cases unset
  exact ⟨state, held, reachable, inner.hasFreeRun,
    (earlyPagesAlloc_serves_iff normal.toDisjoint reachable (by decide) (by decide)).mpr
      (.inr ⟨by decide, inner⟩)⟩

theorem conventionalInfo_nine_refused :
    ∃ state held, conventionalInfo.Disjoint ∧ Reachable conventionalInfo state held ∧
      state.alloc.HasFreeRun 9 ∧ (∃ panic, earlyPagesAlloc state.alloc 9 = .error panic) ∧
      ¬state.alloc.ServesContiguous 9 := by
  obtain ⟨state, held, reachable, span, member, pages, _, clear⟩ := conventionalInfo_free
  have normal : conventionalInfo.Normalised :=
    ramBootInfo_normalised (by decide) (by decide) (by decide)
  have run : state.alloc.HasFreeRun 9 := ⟨span, member, 8, by omega, by decide, clear⟩
  refine ⟨state, held, normal.toDisjoint, reachable, run, ⟨_, rfl⟩, fun serves => ?_⟩
  obtain ⟨pa, after, call⟩ := serves run
  cases call

end Zeptux.Early
