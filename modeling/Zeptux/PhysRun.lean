import Zeptux.PhysOps

/-!
What the functions of the allocator do to the state and to the locks. A footprint
says which records a call may touch; with the whole state as footprint the
specifications are about a call that runs alone. No update lets a counter of free pages
wrap below zero.
-/

namespace Zeptux.Phys

open Dyadic IntrusiveRing LockProgram Word

/-- A counter that wraps below zero jumps by nearly 2^64. -/
def NoWrap (before after : Nat) : Prop := after < before + 2 ^ 63

structure PhysAllocStats.NoWrap (before after : PhysAllocStats) : Prop where
  num4kPages : Phys.NoWrap before.num4kPages after.num4kPages
  numFree4kPages : Phys.NoWrap before.numFree4kPages after.numFree4kPages
  order : ∀ order, Phys.NoWrap (before.order order) (after.order order)

theorem noWrap_of_le {before after : Nat} (fewer : after ≤ before) : NoWrap before after := by
  unfold NoWrap
  omega

theorem noWrap_add64 {count added : Nat} (small : added < 2 ^ 63) :
    NoWrap count (add64 count added) := by
  unfold NoWrap add64
  omega

theorem noWrap_sub64 {count removed : Nat} (enough : removed ≤ count) (bound : count < 2 ^ 64) :
    NoWrap count (sub64 count removed) := by
  rw [sub64_eq enough bound]
  exact noWrap_of_le (Nat.sub_le _ _)

theorem PhysAllocStats.NoWrap.of_same {before after : PhysAllocStats}
    (num4kPages : after.num4kPages = before.num4kPages)
    (numFree4kPages : after.numFree4kPages = before.numFree4kPages)
    (order : after.order = before.order) : before.NoWrap after :=
  ⟨noWrap_of_le (Nat.le_of_eq num4kPages), noWrap_of_le (Nat.le_of_eq numFree4kPages),
    fun _ => noWrap_of_le (by rw [order])⟩

theorem PhysAllocStats.NoWrap.refl (stats : PhysAllocStats) : stats.NoWrap stats :=
  .of_same rfl rfl rfl

structure Footprint where
  record : Nat → Prop
  lists : Prop
  allocLock : Prop

namespace Footprint

def whole : Footprint := ⟨fun _ => True, True, True⟩

def contract (footprint : Footprint) (fails : Stop → Prop) : Contract PhysState Lock Stop where
  describes := fun data view =>
    (footprint.lists →
      data.links = view.links ∧ data.stats = view.stats ∧ data.spans = view.spans) ∧
    ∀ pfn, footprint.record pfn → data.physblocks pfn = view.physblocks pfn
  keeps := fun data changed =>
    (¬footprint.lists → changed.links = data.links ∧ changed.stats = data.stats ∧
      changed.spans = data.spans) ∧
    (∀ pfn, ¬footprint.record pfn → changed.physblocks pfn = data.physblocks pfn) ∧
    data.stats.NoWrap changed.stats
  takes := fun
    | .allocState => footprint.allocLock
    | .physblock pfn => footprint.record pfn
  drops := fun
    | .allocState => footprint.allocLock
    | .physblock _ => True
  fails := fails

variable {footprint : Footprint} {fails : Stop → Prop} {view : PhysState}

theorem describes_self (footprint : Footprint) (fails : Stop → Prop) (view : PhysState) :
    (footprint.contract fails).describes view view :=
  ⟨fun _ => ⟨rfl, rfl, rfl⟩, fun _ _ => rfl⟩

def Respects (footprint : Footprint) (fails : Stop → Prop) (change : PhysState → PhysState)
    (view : PhysState) : Prop :=
  ∀ data, (footprint.contract fails).describes data view →
    (footprint.contract fails).describes (change data) (change view) ∧
      (footprint.contract fails).keeps data (change data)

theorem respects_setPhysblock {pfn : Nat} (visible : footprint.record pfn)
    (change : Physblock → Physblock) :
    footprint.Respects fails (fun state => state.setPhysblock pfn change) view := by
  intro data described
  obtain ⟨lists, records⟩ := described
  refine ⟨⟨lists, ?_⟩, fun _ => ⟨rfl, rfl, rfl⟩, ?_, .refl _⟩
  · intro other otherVisible
    by_cases same : other = pfn
    · subst other
      simp [PhysState.setPhysblock, records pfn visible]
    · simp [PhysState.setPhysblock, same, records other otherVisible]
  · intro other hidden
    have different : other ≠ pfn := by
      rintro rfl
      exact hidden visible
    simp [PhysState.setPhysblock, different]

theorem respects_setStats (visible : footprint.lists)
    (change : PhysAllocStats → PhysAllocStats) (noWrap : view.stats.NoWrap (change view.stats)) :
    footprint.Respects fails (fun state => state.setStats change) view := by
  intro data described
  obtain ⟨lists, records⟩ := described
  refine ⟨⟨fun _ => ?_, records⟩, fun hidden => absurd visible hidden, fun _ _ => rfl, ?_⟩
  · simp [PhysState.setStats, lists visible]
  · rw [← (lists visible).2.1] at noWrap
    exact noWrap

theorem respects_setOrderStats (visible : footprint.lists) (order : Nat) (change : Nat → Nat)
    (noWrap : NoWrap (view.stats.order order) (change (view.stats.order order))) :
    footprint.Respects fails (fun state => state.setOrderStats order change) view := by
  apply respects_setStats visible
  refine ⟨noWrap_of_le (Nat.le_refl _), noWrap_of_le (Nat.le_refl _), fun other => ?_⟩
  by_cases same : other = order
  · subst same
    simpa using noWrap
  · simp only [Function.update_of_ne same]
    exact noWrap_of_le (Nat.le_refl _)

theorem respects_listDetach (visible : footprint.lists) (pfn : Nat) :
    footprint.Respects fails (fun state => state.listDetach pfn) view := by
  intro data described
  obtain ⟨lists, records⟩ := described
  refine ⟨⟨fun _ => ?_, records⟩, fun hidden => absurd visible hidden, fun _ _ => rfl, .refl _⟩
  simp [PhysState.listDetach_eq, lists visible]

theorem respects_listPushBack (visible : footprint.lists) (order pfn : Nat) :
    footprint.Respects fails (fun state => state.listPushBack order pfn) view := by
  intro data described
  obtain ⟨lists, records⟩ := described
  refine ⟨⟨fun _ => ?_, records⟩, fun hidden => absurd visible hidden, fun _ _ => rfl, .refl _⟩
  simp [PhysState.listPushBack_eq, lists visible]

end Footprint

open Footprint

/-! ## Finding the head of a page -/

/-- The page `pfn_to_physblock_lock` takes for the head. -/
def PhysState.headOf (state : PhysState) (pfn : Nat) : Nat :=
  let headOffset := (state.physblocks pfn).headOffset
  if headOffset = 0 then pfn else sub64 pfn (headOffset % 2 ^ 8)

section Specs

variable {footprint : Footprint} {fails : Stop → Prop} {view : PhysState} {locks : Finset Lock}

theorem wp_pfnToPhysblockLock {pfn : Nat} {post : Nat → PhysState → Finset Lock → Prop}
    (visible : footprint.record pfn) (headVisible : footprint.record (view.headOf pfn))
    (free : Lock.physblock pfn ∉ locks) (headFree : Lock.physblock (view.headOf pfn) ∉ locks)
    (holds : post (view.headOf pfn) view (insert (.physblock (view.headOf pfn)) locks)) :
    wp (footprint.contract fails) (pfnToPhysblockLock pfn) view locks post := by
  have known : ∀ data, (footprint.contract fails).describes data view →
      data.physblocks pfn = view.physblocks pfn := fun data described => described.2 pfn visible
  apply wp_bind
  apply wp_lock_bind free visible
  apply wp_gets_bind fun data described => by rw [known data described]
  by_cases head : (view.physblocks pfn).headOffset = 0
  · rw [if_pos head]
    have same : view.headOf pfn = pfn := by simp [PhysState.headOf, head]
    rw [same] at holds
    exact holds
  · rw [if_neg head]
    have shape : view.headOf pfn = sub64 pfn ((view.physblocks pfn).headOffset % 2 ^ 8) := by
      simp [PhysState.headOf, head]
    apply wp_gets_bind fun data described => by rw [known data described]
    apply wp_unlock_bind trivial
    rw [Finset.erase_insert free, ← shape]
    exact wp_lock_bind headFree headVisible holds

/-! ## Tails -/

def tailLocks (start first count : Nat) : Finset Lock :=
  (Finset.Ico (start + first) (start + first + count)).image .physblock

theorem mem_tailLocks {start first count pfn : Nat} :
    Lock.physblock pfn ∈ tailLocks start first count ↔
      start + first ≤ pfn ∧ pfn < start + first + count := by
  simp [tailLocks]

theorem allocState_not_mem_tailLocks (start first count : Nat) :
    Lock.allocState ∉ tailLocks start first count := by
  simp [tailLocks]

theorem withTails_step (state : PhysState) (start first count : Nat) :
    (state.setPhysblock (start + first) (markTail first)).withTails start (first + 1) count =
      state.withTails start first (count + 1) := by
  simp only [PhysState.withTails, PhysState.setPhysblock, PhysState.mk.injEq, and_true]
  funext pfn
  by_cases same : pfn = start + first
  · subst pfn
    simp
  · have range : start + (first + 1) ≤ pfn ∧ pfn < start + (first + 1) + count ↔
        start + first ≤ pfn ∧ pfn < start + first + (count + 1) := by omega
    simp [same, range]

theorem tailLocks_step (locks : Finset Lock) (start first count : Nat) :
    locks.erase (.physblock (start + first)) \ tailLocks start (first + 1) count =
      locks \ tailLocks start first (count + 1) := by
  ext lock
  cases lock with
  | allocState => simp [allocState_not_mem_tailLocks]
  | physblock pfn =>
      simp only [Finset.mem_sdiff, Finset.mem_erase, mem_tailLocks, ne_eq, Lock.physblock.injEq]
      by_cases same : pfn = start + first
      · simp [same]
      · have range : start + (first + 1) ≤ pfn ∧ pfn < start + (first + 1) + count ↔
            start + first ≤ pfn ∧ pfn < start + first + (count + 1) := by omega
        simp [same, range]

theorem wp_setTailPhysblocksFrom {start count first : Nat}
    {post : Unit → PhysState → Finset Lock → Prop}
    (visible : ∀ pfn, start + first ≤ pfn → pfn < start + first + count → footprint.record pfn)
    (holds : post () (view.withTails start first count) (locks \ tailLocks start first count)) :
    wp (footprint.contract fails) (setTailPhysblocksFrom start count first) view locks post := by
  induction count generalizing first view locks with
  | zero =>
      have same : view.withTails start first 0 = view := by
        simp only [PhysState.withTails]
        congr 1
        funext pfn
        rw [if_neg (by omega)]
      have none : locks \ tailLocks start first 0 = locks := by simp [tailLocks]
      rw [same, none] at holds
      exact holds
  | succ count ih =>
      apply wp_modify_bind
        (respects_setPhysblock (visible (start + first) (by omega) (by omega)) _)
      apply wp_unlock_bind trivial
      apply ih fun pfn lower upper => visible pfn (by omega) (by omega)
      rw [withTails_step, tailLocks_step]
      exact holds

theorem wp_setTailPhysblocks {start order : Nat} {post : Unit → PhysState → Finset Lock → Prop}
    (bound : order ≤ maxOrder)
    (visible : ∀ pfn, start < pfn → pfn < start + 2 ^ order → footprint.record pfn)
    (holds : post () (view.withTails start 1 (2 ^ order - 1))
      (locks \ tailLocks start 1 (2 ^ order - 1))) :
    wp (footprint.contract fails) (setTailPhysblocks start order) view locks post := by
  have small : 2 ^ order ≤ 2 ^ 12 := Nat.pow_le_pow_right (by omega) bound
  have positive := Nat.two_pow_pos order
  have count : 1 <<< order % 2 ^ 16 = 2 ^ order := by
    rw [Nat.one_shiftLeft, Nat.mod_eq_of_lt (by omega)]
  rw [setTailPhysblocks, count]
  exact wp_setTailPhysblocksFrom (fun pfn lower upper => visible pfn (by omega) (by omega)) holds

/-! ## Joining -/

theorem wp_joinPhysblocksLocked {head tail order : Nat}
    {post : Nat → PhysState → Finset Lock → Prop} (bound : order ≤ maxOrder)
    (lists : footprint.lists)
    (visible : ∀ pfn, Covers head order pfn → footprint.record pfn)
    (both : 2 ≤ view.stats.order (order - 1)) (small : view.stats.order (order - 1) < 2 ^ 64)
    (holds : post head (view.joined head tail order) (locks \ tailLocks head 1 (2 ^ order - 1))) :
    wp (footprint.contract fails) (joinPhysblocksLocked head tail order) view locks post := by
  apply wp_modify_bind (respects_setPhysblock (visible head (covers_head head order)) _)
  apply wp_modify_bind (respects_listDetach lists _)
  apply wp_modify_bind (respects_listDetach lists _)
  apply wp_modify_bind (respects_listPushBack lists _ _)
  apply wp_bind
  apply wp_setTailPhysblocks bound fun pfn lower upper => visible pfn ⟨by omega, by omega⟩
  refine wp_modify_bind (respects_setOrderStats lists _ _ ?_) ?_
  · exact noWrap_sub64 both small
  refine wp_modify_bind (respects_setOrderStats lists _ _ ?_) holds
  exact noWrap_add64 (by omega)

end Specs

end Zeptux.Phys
