import Mathlib.Order.Interval.Finset.Nat
import Zeptux.EarlyCounts
import Zeptux.EarlyReserved

/-! Runs of the early allocator: what holds after any sequence of calls. -/

namespace Zeptux.Early

open Page Word

inductive Step : EarlyState → Set Nat → EarlyState → Set Nat → Prop
  | call {before after : EarlyState} {held : Set Nat} (call : Call) (pa : Nat) :
      call.perform before = .ok (pa, after) →
      Step before held after (held ∪ pageRun pa call.numPages)
  | allocAt {before : EarlyState} {held : Set Nat} {alloc : PageAllocState} (pa : Nat) :
      earlyPageAllocAt before.alloc pa = .ok alloc →
      Step before held ⟨alloc, before.mem⟩ (held ∪ {pageAt pa})
  | allocEphemeralAt {before : EarlyState} {held : Set Nat} {alloc : PageAllocState} (pa : Nat) :
      earlyPageAllocEphemeralAt before.alloc pa = .ok alloc →
      Step before held ⟨alloc, before.mem⟩ (held ∪ {pageAt pa})
  | free {before : EarlyState} {held : Set Nat} {alloc : PageAllocState} (pa : Nat) :
      earlyPageFree before.alloc pa = .ok alloc →
      Step before held ⟨alloc, before.mem⟩ (held \ {pageAt pa})

/-- The pages held are those that a call has returned and none has freed since. The pages in
use since boot are held from the start. -/
inductive Reachable (info : BootInfo) : EarlyState → Set Nat → Prop
  | init {alloc : PageAllocState} {scratch : ScratchAllocState} (mem : X86Paging.Memory) :
      earlyPageAllocInit info earlyScratchAllocInit = .ok (alloc, scratch) →
      Reachable info ⟨alloc, mem⟩ alloc.allocated
  | step {before after : EarlyState} {held heldAfter : Set Nat} : Reachable info before held →
      Step before held after heldAfter → Reachable info after heldAfter

/-! ## The pages in use since boot -/

section

variable {property : PageAllocState → Prop}
variable (step : ∀ {state after : PageAllocState} {pa : Nat} {type : AllocType}, property state →
  allocAt state pa type = .ok after → property after)

include step

theorem allocAtFrom_keeps {type : AllocType} {next : Nat → Nat} (count : Nat) {pa : Nat}
    {state after : PageAllocState} (holds : property state)
    (call : allocAtFrom type next count pa state = .ok after) : property after := by
  induction count generalizing pa state with
  | zero =>
      cases call
      exact holds
  | succ count ih =>
      obtain ⟨middle, first, rest⟩ := bind_ok call
      exact ih (step holds first) rest

theorem allocInitPages_keeps {info : BootInfo} {first count : Nat} {state after : PageAllocState}
    (holds : property state) (call : allocInitPages info first count state = .ok after) :
    property after := by
  obtain ⟨_, scratchCall, call⟩ := bind_ok call
  obtain ⟨_, stackCall, call⟩ := bind_ok call
  obtain ⟨_, bootCall, call⟩ := bind_ok call
  obtain ⟨_, elfCall, call⟩ := bind_ok call
  obtain ⟨_, pgdCall, call⟩ := bind_ok call
  obtain ⟨_, directCall, call⟩ := bind_ok call
  obtain ⟨_, kernelCall, call⟩ := bind_ok call
  obtain ⟨_, videoCall, lastCall⟩ := bind_ok call
  have scratch := allocAtFrom_keeps step _ holds scratchCall
  have stack := allocAtFrom_keeps step _ scratch stackCall
  have elf := allocAtFrom_keeps step _ (step stack bootCall) elfCall
  have tables := step (step (step elf pgdCall) directCall) kernelCall
  exact step (step tables videoCall) lastCall

end

/-! ## Bookkeeping -/

section

variable {state : PageAllocState}

theorem PageAllocState.Kept.alloc (kept : state.Kept) {type : AllocType} {pa : Nat}
    {after : PageAllocState} (call : alloc state type = .ok (pa, after)) : after.Kept := by
  obtain ⟨index, span, offset, fit, rfl, rfl⟩ := alloc_ok kept.sized call
  exact kept.mark fit.here fit.inside fit.clear type

theorem PageAllocState.Kept.allocAt (kept : state.Kept) {type : AllocType} {pa : Nat}
    {after : PageAllocState} (call : allocAt state pa type = .ok after) : after.Kept := by
  obtain ⟨index, span, here, low, high, clear, rfl⟩ := allocAt_ok kept.spans_bounded call
  exact kept.mark here (by omega) clear type

theorem PageAllocState.Kept.step {before after : EarlyState} {held heldAfter : Set Nat}
    (kept : before.alloc.Kept) (step : Step before held after heldAfter) : after.alloc.Kept := by
  cases step with
  | call call pa returned =>
      rcases call.perform_ok returned with ⟨type, _, _, inner⟩ | ⟨pages, _, inner⟩
      · exact kept.alloc inner
      · rcases earlyPagesAlloc_ok kept.sized inner with
          ⟨_, same⟩ | ⟨index, span, offset, here, _, inside, clear, _, same⟩
        · rw [same]
          exact kept
        · rw [same]
          exact kept.markPages here inside clear
  | allocAt pa returned => exact kept.allocAt returned
  | allocEphemeralAt pa returned => exact kept.allocAt returned
  | free pa returned =>
      obtain ⟨index, span, here, _, _, isSet, rfl⟩ := earlyPageFree_ok kept.spans_bounded returned
      exact kept.unmark here isSet

end

/-! ## The first state -/

def addressSet : List E820Entry → Finset Nat
  | [] => ∅
  | entry :: entries => Finset.Ico entry.base (entry.base + entry.size) ∪ addressSet entries

theorem mem_addressSet {entries : List E820Entry} {address : Nat} :
    address ∈ addressSet entries ↔
      ∃ entry ∈ entries, entry.base ≤ address ∧ address < entry.base + entry.size := by
  induction entries with
  | nil => simp [addressSet]
  | cons entry entries ih => simp [addressSet, ih]

theorem card_addressSet {entries : List E820Entry}
    (apart : entries.Pairwise fun entry other =>
      entry.base + entry.size ≤ other.base ∨ other.base + other.size ≤ entry.base) :
    (entries.map E820Entry.size).sum = (addressSet entries).card := by
  induction entries with
  | nil => rfl
  | cons entry entries ih =>
      obtain ⟨first, rest⟩ := List.pairwise_cons.mp apart
      have separate : Disjoint (Finset.Ico entry.base (entry.base + entry.size))
          (addressSet entries) := by
        rw [Finset.disjoint_left]
        intro address here there
        rw [Finset.mem_Ico] at here
        obtain ⟨other, member, low, high⟩ := mem_addressSet.mp there
        have away := first other member
        omega
      rw [List.map_cons, List.sum_cons, ih rest, addressSet, Finset.card_union_of_disjoint separate,
        Nat.card_Ico, Nat.add_sub_cancel_left]

theorem BootInfo.Disjoint.sum_le {info : BootInfo} (disjoint : info.Disjoint) :
    (info.ramEntries.map E820Entry.size).sum ≤ 2 ^ 48 := by
  rw [card_addressSet disjoint.apart]
  have inside : addressSet info.ramEntries ⊆ Finset.range (2 ^ 48) := by
    intro address member
    obtain ⟨entry, known, _, high⟩ := mem_addressSet.mp member
    have bounded := disjoint.bounded entry known
    rw [Finset.mem_range]
    omega
  have few := Finset.card_le_card inside
  rwa [Finset.card_range] at few

theorem sum_extents_le (entries : List E820Entry) :
    2 ^ 12 * ((entries.map E820Entry.extent).map Extent.numPages).sum ≤
      (entries.map E820Entry.size).sum := by
  induction entries with
  | nil => exact Nat.le_refl _
  | cons entry entries ih =>
      simp only [List.map_cons, List.sum_cons, E820Entry.extent, pageShift,
        Nat.shiftRight_eq_div_pow] at ih ⊢
      omega

theorem emptySpan_pagesOf (extent : Extent) (type : AllocType) :
    extent.emptySpan.pagesOf type = ∅ := by
  have clear : ∀ bit, (extent.emptySpan.bitmapOf type).isSet bit = false := by
    intro bit
    cases type <;> exact Bitmap.isSet_init _ fun _ => rfl
  ext bit
  simp [PageAllocSpan.pagesOf, clear]

theorem emptySpan_booked (extent : Extent) : extent.emptySpan.Booked := by
  have clear : ∀ type bit, (extent.emptySpan.bitmapOf type).isSet bit = false := by
    intro type bit
    cases type <;> exact Bitmap.isSet_init _ fun _ => rfl
  refine ⟨?_, ?_, ?_, ?_⟩
  · rw [emptySpan_pagesOf]
    rfl
  · intro type bit isSet
    rw [clear] at isSet
    cases isSet
  · intro type bit isSet
    rw [clear] at isSet
    cases isSet
  · intro type other bit _ _ _ isSet
    rw [clear] at isSet
    cases isSet

theorem emptyState_kept {info : BootInfo} (disjoint : info.Disjoint)
    (small : ∀ extent ∈ info.layout, extent.numPages < 2 ^ 30) :
    (emptyState (bytesToPages info.totalAvailRamBytes) info.layout).Kept := by
  have sum := disjoint.sum_le
  have pages := sum_extents_le info.ramEntries
  have total : bytesToPages info.totalAvailRamBytes =
      ((info.ramEntries.map E820Entry.size).sum + 4095) / 2 ^ 12 := by
    rw [disjoint.counted.totalAvailRamBytes, bytesToPages_eq (by omega)]
  refine ⟨⟨?_, ?_, Nat.zero_le _⟩, ⟨?_, ?_, ?_, ?_⟩⟩
  · intro span member
    obtain ⟨extent, _, rfl⟩ := List.mem_map.mp member
    exact emptySpan_booked extent
  · intro type
    have zero : ((emptyState (bytesToPages info.totalAvailRamBytes) info.layout).spans.map
        fun span => (span.pagesOf type).card).sum = 0 := by
      apply List.sum_eq_zero
      intro count member
      obtain ⟨span, isSpan, rfl⟩ := List.mem_map.mp member
      obtain ⟨extent, _, rfl⟩ := List.mem_map.mp isSpan
      rw [emptySpan_pagesOf, Finset.card_empty]
    rw [zero]
    cases type <;> rfl
  · intro span member
    obtain ⟨extent, known, rfl⟩ := List.mem_map.mp member
    exact Bitmap.init_sized (small extent known)
  · rw [emptyState_layout]
    intro extent member
    obtain ⟨entry, known, rfl⟩ := List.mem_map.mp member
    have bounded := disjoint.bounded entry known
    simp only [E820Entry.extent, pageShift, Nat.shiftRight_eq_div_pow]
    omega
  · rw [emptyState_layout]
    change _ ≤ bytesToPages info.totalAvailRamBytes
    rw [total, BootInfo.layout]
    omega
  · change bytesToPages info.totalAvailRamBytes < 2 ^ 63
    rw [total]
    omega

theorem Reachable.kept {info : BootInfo} (disjoint : info.Disjoint) {state : EarlyState}
    {held : Set Nat} (reachable : Reachable info state held) : state.alloc.Kept := by
  induction reachable with
  | init mem init =>
      obtain ⟨pages, small, _⟩ := earlyPageAllocInit_ok disjoint init
      exact allocInitPages_keeps (fun kept call => kept.allocAt call) (emptyState_kept disjoint small)
        pages
  | step _ step ih => exact ih.step step

theorem conventionalInfo_run :
    ∃ state held, Reachable conventionalInfo state held ∧ state.alloc.numAllocatedPages = 24 := by
  let run : Except Panic (Nat × EarlyState × PageAllocState) := do
    let (alloc, _) ← earlyPageAllocInit conventionalInfo earlyScratchAllocInit
    let (pa, state) ← (Call.pagesAlloc 3).perform ⟨alloc, fun _ => 0⟩
    let alloc ← earlyPageFree state.alloc (pa + pageSize)
    return (pa, state, alloc)
  have counted : (match run with
      | .ok (_, _, alloc) => decide (alloc.numAllocatedPages = 24)
      | .error _ => false) = true := by decide +kernel
  cases result : run with
  | error panic =>
      rw [result] at counted
      cases counted
  | ok triple =>
      obtain ⟨⟨alloc, scratch⟩, init, rest⟩ := bind_ok result
      obtain ⟨⟨pa, state⟩, call, rest⟩ := bind_ok rest
      obtain ⟨after, free, rest⟩ := bind_ok rest
      cases rest
      rw [result] at counted
      exact ⟨⟨after, state.mem⟩, _, .step (.step (.init _ init) (.call _ pa call)) (.free _ free),
        of_decide_eq_true counted⟩

theorem reachable_booked {info : BootInfo} (disjoint : info.Disjoint) {state : EarlyState}
    {held : Set Nat} (reachable : Reachable info state held) : state.alloc.Booked :=
  (reachable.kept disjoint).toBooked

theorem conventionalInfo_booked :
    ∃ state held, Reachable conventionalInfo state held ∧ state.alloc.numAllocatedPages = 24 ∧
      state.alloc.Booked := by
  obtain ⟨state, held, reachable, counted⟩ := conventionalInfo_run
  have normal : conventionalInfo.Normalised :=
    ramBootInfo_normalised (by decide) (by decide) (by decide)
  exact ⟨state, held, reachable, counted, reachable_booked normal.toDisjoint reachable⟩

end Zeptux.Early
