import Zeptux.Lib.TwoProcessors
import Zeptux.PhysTheorems

/-!
Two processors in the allocator. Until it takes the allocator lock a call touches only
the block it frees, and under that lock it touches everything but the other call's
block, so long as its compaction does not look at that block.
-/

namespace Zeptux.Phys

open Dyadic IntrusiveRing LockProgram Word Footprint

inductive Call
  | free (pfn : Nat)
  | alloc (fuel order flags : Nat)

def Call.program : Call → PhysProgram Unit
  | .free pfn => physFreePfn pfn
  | .alloc fuel order flags => do
      let _ ← physAllocBlock fuel order flags
      return ()

def startCalls (state : PhysState) (calls : Bool → Call) : Config PhysState Lock Stop Unit :=
  ⟨state, fun _ => none, fun cpu => (calls cpu).program⟩

structure Frees (state : PhysState) (call : Call) (head order : Nat) : Prop where
  block : IsBlock state head order
  allocated : (state.physblocks head).kind ≠ physblockFree
  page : ∃ pfn, call = .free pfn ∧ Covers head order pfn

/-- Every page that is freed belongs to an allocated block, and no block to both calls. -/
structure Owned (state : PhysState) (calls : Bool → Call) : Prop where
  owns : ∀ cpu pfn, calls cpu = .free pfn → ∃ head order, Frees state (calls cpu) head order
  apart : ∀ head order, Frees state (calls false) head order →
    ¬Frees state (calls true) head order

/-- Both calls reach the heads of their blocks, and the compaction after the first free
looks at the second block. -/
def Clash (state : PhysState) (first second : Call) : Prop :=
  ∃ pfn head order otherPfn otherHead otherOrder,
    first = .free pfn ∧ Frees state first head order ∧ Covers head order pfn ∧
    pfn - head < 2 ^ 8 ∧
    second = .free otherPfn ∧ Frees state second otherHead otherOrder ∧
    Covers otherHead otherOrder otherPfn ∧ otherPfn - otherHead < 2 ^ 8 ∧
    otherHead ∈ compactionPath state head

/-- The records a call locks before it takes the allocator lock. -/
def Mine (state : PhysState) (call : Call) (page : Nat) : Prop :=
  ∃ pfn, call = .free pfn ∧ (page = pfn ∨ page = state.headOf pfn)

section Division

variable {state : PhysState} {calls : Bool → Call}

theorem Owned.frees (owned : Owned state calls) {cpu : Bool} {pfn : Nat}
    (call : calls cpu = .free pfn) :
    ∃ head order, Frees state (calls cpu) head order ∧ Covers head order pfn := by
  obtain ⟨head, order, frees⟩ := owned.owns cpu pfn call
  obtain ⟨other, same, covers⟩ := frees.page
  rw [call] at same
  cases same
  exact ⟨head, order, frees, covers⟩

theorem headOf_covered (ready : Ready state) {head order pfn : Nat}
    (block : IsBlock state head order) (covers : Covers head order pfn) :
    Covers head order (state.headOf pfn) := by
  obtain ⟨heads, rep⟩ := ready.rep
  by_cases near : pfn - head < 2 ^ 8
  · rw [headOf_near rep block covers near]
    exact covers_head head order
  · exact (headOf_far rep block covers (by omega)).2.1

theorem Owned.mine_block (owned : Owned state calls) (ready : Ready state) {cpu : Bool}
    {page : Nat} (mine : Mine state (calls cpu) page) :
    ∃ head order, Frees state (calls cpu) head order ∧ Covers head order page := by
  obtain ⟨pfn, call, place⟩ := mine
  obtain ⟨head, order, frees, covers⟩ := owned.frees call
  rcases place with rfl | rfl
  · exact ⟨head, order, frees, covers⟩
  · exact ⟨head, order, frees, headOf_covered ready frees.block covers⟩

theorem Owned.mine_apart (owned : Owned state calls) (ready : Ready state) (cpu : Bool)
    (page : Nat) (mine : Mine state (calls cpu) page) : ¬Mine state (calls (!cpu)) page := by
  have disjoint : Mine state (calls false) page → ¬Mine state (calls true) page := by
    intro left right
    obtain ⟨head, order, frees, covers⟩ := owned.mine_block ready left
    obtain ⟨other, large, otherFrees, otherCovers⟩ := owned.mine_block ready right
    obtain ⟨rfl, rfl⟩ := frees.block.unique otherFrees.block covers otherCovers
    exact owned.apart _ _ frees otherFrees
  cases cpu with
  | false => exact disjoint mine
  | true => exact fun other => disjoint other mine

def division (owned : Owned state calls) (ready : Ready state) : Division PhysState Lock where
  big := .allocState
  own := fun cpu lock =>
    match lock with
    | .allocState => False
    | .physblock pfn => Mine state (calls cpu) pfn
  SameOwn := fun cpu data view =>
    ∀ pfn, Mine state (calls cpu) pfn → data.physblocks pfn = view.physblocks pfn
  SameShared := fun data view =>
    (data.links = view.links ∧ data.stats = view.stats ∧ data.spans = view.spans) ∧
    ∀ pfn, (∀ cpu, ¬Mine state (calls cpu) pfn) → data.physblocks pfn = view.physblocks pfn
  ownApart := by
    intro lock mine
    cases lock with
    | allocState => exact id
    | physblock pfn => exact owned.mine_apart ready false pfn mine
  bigShared := fun _ => id
  ownEquivalence := fun cpu =>
    ⟨fun _ _ _ => rfl, fun same pfn mine => (same pfn mine).symm,
      fun first second pfn mine => (first pfn mine).trans (second pfn mine)⟩
  sharedEquivalence :=
    ⟨fun _ => ⟨⟨rfl, rfl, rfl⟩, fun _ _ => rfl⟩,
      fun same => ⟨⟨same.1.1.symm, same.1.2.1.symm, same.1.2.2.symm⟩,
        fun pfn shared => (same.2 pfn shared).symm⟩,
      fun first second => ⟨⟨first.1.1.trans second.1.1, first.1.2.1.trans second.1.2.1,
        first.1.2.2.trans second.1.2.2⟩,
        fun pfn shared => (first.2 pfn shared).trans (second.2 pfn shared)⟩⟩

def outerFootprint (state : PhysState) (calls : Bool → Call) (cpu : Bool) : Footprint :=
  ⟨Mine state (calls cpu), False, False⟩

def innerFootprint (state : PhysState) (calls : Bool → Call) (cpu : Bool) : Footprint :=
  ⟨fun pfn => ¬Mine state (calls (!cpu)) pfn, True, False⟩

theorem shared_iff (cpu : Bool) (pfn : Nat) :
    (∀ other, ¬Mine state (calls other) pfn) ↔
      ¬Mine state (calls cpu) pfn ∧ ¬Mine state (calls (!cpu)) pfn := by
  constructor
  · exact fun all => ⟨all cpu, all (!cpu)⟩
  · rintro ⟨mine, other⟩ either
    by_cases same : either = cpu
    · exact same ▸ mine
    · have negation : either = !cpu := by cases cpu <;> cases either <;> simp_all
      exact negation ▸ other

variable {α : Type} {program : PhysProgram α} {view : PhysState} {locks : Finset Lock}
  {post : α → PhysState → Finset Lock → Prop}

theorem wp_outer (owned : Owned state calls) (ready : Ready state) {cpu : Bool}
    (holds : wp ((outerFootprint state calls cpu).contract fun _ => True) program view locks
      post) : wp ((division owned ready).outer Stop cpu) program view locks post := by
  apply wp_contract _ _ _ _ _ holds
  · intro data other
    exact ⟨fun same => ⟨fun wrong => absurd wrong id, same⟩, fun described => described.2⟩
  · intro data changed kept
    refine ⟨fun pfn mine => ?_, ⟨?_, fun pfn shared => ?_⟩⟩
    · have notMine : ¬Mine state (calls cpu) pfn := fun wrong =>
        owned.mine_apart ready cpu pfn wrong mine
      exact (kept.2.1 pfn notMine).symm
    · have lists := kept.1 id
      exact ⟨lists.1.symm, lists.2.1.symm, lists.2.2.symm⟩
    · exact (kept.2.1 pfn (shared cpu)).symm
  · intro lock taken
    cases lock with
    | allocState => exact taken
    | physblock pfn => exact taken
  · intro lock dropped
    cases lock with
    | allocState => exact absurd dropped id
    | physblock pfn =>
        change Lock.physblock pfn ≠ .allocState
        simp
  · exact fun _ _ => trivial

theorem wp_inner (owned : Owned state calls) (ready : Ready state) {cpu : Bool}
    (holds : wp ((innerFootprint state calls cpu).contract fun _ => True) program view locks
      post) : wp ((division owned ready).inner Stop cpu) program view locks post := by
  apply wp_contract _ _ _ _ _ holds
  · intro data other
    constructor
    · rintro ⟨own, lists, shared⟩
      refine ⟨fun _ => lists, fun pfn notOther => ?_⟩
      by_cases mine : Mine state (calls cpu) pfn
      · exact own pfn mine
      · exact shared pfn ((shared_iff cpu pfn).mpr ⟨mine, notOther⟩)
    · rintro ⟨lists, records⟩
      exact ⟨fun pfn mine => records pfn (owned.mine_apart ready cpu pfn mine),
        lists trivial, fun pfn shared => records pfn (shared (!cpu))⟩
  · intro data changed kept pfn mine
    exact (kept.2.1 pfn (not_not.mpr mine)).symm
  · intro lock taken
    cases lock with
    | allocState => exact absurd taken id
    | physblock pfn => exact taken
  · intro lock dropped
    cases lock with
    | allocState => exact absurd dropped id
    | physblock pfn =>
        change Lock.physblock pfn ≠ .allocState
        simp
  · exact fun _ _ => trivial

end Division

/-! ## The phases of the calls -/

section Phases

variable {state : PhysState} {calls : Bool → Call} {cpu : Bool} {pfn head order : Nat}

theorem Owned.free_not_mine (owned : Owned state calls) (ready : Ready state) {page : Nat}
    (free : page ∈ freePages state) : ¬Mine state (calls cpu) page := by
  intro mine
  obtain ⟨head, order, frees, covers⟩ := owned.mine_block ready mine
  have type := (frees.block.freePage_iff covers).mp (Finset.mem_filter.mp free).2
  exact frees.allocated (free_kind type)

theorem Owned.own_not_other (owned : Owned state calls) (ready : Ready state) {page : Nat}
    (frees : Frees state (calls cpu) head order) (covers : Covers head order page) :
    ¬Mine state (calls (!cpu)) page := by
  intro mine
  obtain ⟨other, large, otherFrees, otherCovers⟩ := owned.mine_block ready mine
  obtain ⟨rfl, rfl⟩ := frees.block.unique otherFrees.block covers otherCovers
  cases cpu with
  | false => exact owned.apart _ _ frees otherFrees
  | true => exact owned.apart _ _ otherFrees frees

/-- Without a clash the compaction does not look at the other call's records. -/
theorem Owned.path_not_other (owned : Owned state calls) (ready : Ready state)
    (clashFree : ¬Clash state (calls cpu) (calls (!cpu))) (call : calls cpu = .free pfn)
    (frees : Frees state (calls cpu) head order) (covers : Covers head order pfn)
    (near : pfn - head < 2 ^ 8) :
    ∀ page ∈ compactionPath state head, ¬Mine state (calls (!cpu)) page := by
  intro page member mine
  obtain ⟨heads, rep⟩ := ready.rep
  have notFree : (state.physblocks head).type ≠ physblockFree := fun free =>
    frees.allocated (free_kind free)
  obtain ⟨small, block⟩ := compactionPath_isBlock rep frees.block notFree member
  obtain ⟨otherPfn, otherCall, place⟩ := mine
  obtain ⟨otherHead, otherOrder, otherFrees, otherCovers⟩ := owned.frees otherCall
  have inOther : Covers otherHead otherOrder page := by
    rcases place with rfl | rfl
    · exact otherCovers
    · exact headOf_covered ready otherFrees.block otherCovers
  obtain ⟨rfl, rfl⟩ := block.unique otherFrees.block (covers_head page small) inOther
  have otherNear : otherPfn - page < 2 ^ 8 := by
    by_contra far
    rcases place with rfl | same
    · omega
    · exact (headOf_far rep otherFrees.block otherCovers (by omega)).1 same.symm
  exact clashFree ⟨pfn, head, order, otherPfn, page, small, call, frees, covers, near, otherCall,
    otherFrees, otherCovers, otherNear, member⟩

theorem inside_free (ready : Ready state) (owned : Owned state calls)
    (frees : Frees state (calls cpu) head order)
    (path : ∀ page ∈ compactionPath state head, ¬Mine state (calls (!cpu)) page) :
    (division owned ready).Inside cpu (do
      let compacted ← freeAndCompact head order
      .unlock .allocState
      .unlock (.physblock compacted))
      (state.setPhysblock head fun block => { block with refcount := 0 }) := by
  obtain ⟨heads, rep⟩ := ready.rep
  have notFree : (state.physblocks head).type ≠ physblockFree := fun free =>
    frees.allocated (free_kind free)
  apply Division.inside_bind
  apply wp_inner owned ready
  apply wp_freeAndCompact frees.allocated (freed_rep rep frees.block notFree)
    (freed_isFree frees.block) trivial
  · intro page free
    rw [freed_freePages rep frees.block notFree, Finset.mem_union, Finset.mem_Ico] at free
    rcases free with old | own
    · exact owned.free_not_mine ready old
    · exact owned.own_not_other ready frees own
  · exact path
  · intro final after _
    exact Division.inside_unlock_big trivial

theorem outside_free_near (ready : Ready state) (owned : Owned state calls)
    (call : calls cpu = .free pfn) (frees : Frees state (calls cpu) head order)
    (covers : Covers head order pfn) (near : pfn - head < 2 ^ 8)
    (path : ∀ page ∈ compactionPath state head, ¬Mine state (calls (!cpu)) page) :
    (division owned ready).Outside cpu (calls cpu).program state := by
  obtain ⟨heads, rep⟩ := ready.rep
  have last : (state.physblocks head).refcount = 1 := by
    rcases ready.head_cases frees.block with free | live
    · exact absurd (free_kind free.1) frees.allocated
    · exact live.2
  have lead := headOf_near rep frees.block covers near
  have headMine : Mine state (calls cpu) head := ⟨pfn, call, Or.inr lead.symm⟩
  rw [call, Call.program]
  apply Division.outside_bind
  apply wp_outer owned ready
  apply wp_pfnToPhysblockLock
  · exact ⟨pfn, call, Or.inl rfl⟩
  · rw [lead]
    exact headMine
  · exact Finset.notMem_empty _
  · exact Finset.notMem_empty _
  rw [lead]
  apply Division.outside_gets_bind fun data described => by rw [described head headMine]
  rw [last, if_neg (by omega), if_neg (by omega)]
  have marked : wp ((division owned ready).outer Stop cpu)
      (.modify fun state => state.setPhysblock head fun block => { block with refcount := 0 })
      state ∅ fun _ _ _ => True :=
    wp_outer owned ready ⟨respects_setPhysblock headMine _, trivial⟩
  apply Division.outside_modify_bind marked.1
  apply Division.outside_gets_bind fun data described => by rw [described head headMine]
  have sameOrder : ((state.setPhysblock head fun block =>
      { block with refcount := 0 }).physblocks head).order = order := by
    simp [PhysState.setPhysblock, frees.block.headOrder]
  rw [sameOrder]
  apply Division.outside_lock_big
  exact inside_free ready owned frees path

theorem outside_free_far (ready : Ready state) (owned : Owned state calls)
    (call : calls cpu = .free pfn) (frees : Frees state (calls cpu) head order)
    (covers : Covers head order pfn) (far : 2 ^ 8 ≤ pfn - head) :
    (division owned ready).Outside cpu (calls cpu).program state := by
  obtain ⟨heads, rep⟩ := ready.rep
  have lead := headOf_far rep frees.block covers far
  have leadMine : Mine state (calls cpu) (state.headOf pfn) := ⟨pfn, call, Or.inr rfl⟩
  rw [call, Call.program]
  apply Division.outside_bind
  apply wp_outer owned ready
  apply wp_pfnToPhysblockLock
  · exact ⟨pfn, call, Or.inl rfl⟩
  · exact leadMine
  · exact Finset.notMem_empty _
  · exact Finset.notMem_empty _
  apply Division.outside_gets_bind fun data described => by rw [described _ leadMine]
  rw [lead.2.2, if_pos rfl]
  refine ⟨?_, trivial⟩
  change Lock.physblock _ ≠ .allocState
  simp

theorem outside_alloc (ready : Ready state) (owned : Owned state calls) {fuel flags : Nat}
    (call : calls cpu = .alloc fuel order flags) :
    (division owned ready).Outside cpu (calls cpu).program state := by
  obtain ⟨heads, rep⟩ := ready.rep
  rw [call, Call.program]
  rcases fuel with _ | fuel
  · trivial
  by_cases bound : order ≤ maxOrder
  · rw [physAllocBlock, if_neg (by omega), Program.bind_bind]
    apply Division.outside_lock_big
    rw [Program.bind_bind]
    apply Division.inside_bind
    apply wp_inner owned ready
    by_cases available : Available heads order
    · apply wp_splitAndTakeBlock rep bound (Or.inr trivial) available trivial
      · intro page free
        exact owned.free_not_mine ready free
      · exact fun _ _ => trivial
      · intro type _ block after _
        rw [Program.bind_bind]
        exact Division.inside_unlock_big trivial
    · exact wp_splitAndTakeBlock_panics rep bound (Or.inr trivial) available trivial fun _ => trivial
  · rw [physAllocBlock, if_pos (by omega)]
    trivial

end Phases

theorem no_deadlock_without_clash {state : PhysState} (reachable : Reachable (idle state))
    {calls : Bool → Call} (owned : Owned state calls)
    (first : ¬Clash state (calls false) (calls true))
    (second : ¬Clash state (calls true) (calls false))
    {config : Config PhysState Lock Stop Unit}
    (reaches : (startCalls state calls).Reaches config) : ¬config.Deadlocked := by
  obtain ⟨same, equal, ready⟩ := reachable.ready
  have identical : state = same := congrArg Machine.data equal
  subst same
  have clashFree : ∀ cpu, ¬Clash state (calls cpu) (calls (!cpu)) := by
    intro cpu
    cases cpu with
    | false => exact first
    | true => exact second
  have outside : ∀ cpu, (division owned ready).Outside cpu (calls cpu).program state := by
    intro cpu
    cases call : calls cpu with
    | alloc fuel order flags =>
        rw [← call]
        exact outside_alloc ready owned call
    | free pfn =>
        rw [← call]
        obtain ⟨head, order, frees, covers⟩ := owned.frees call
        by_cases near : pfn - head < 2 ^ 8
        · exact outside_free_near ready owned call frees covers near
            (owned.path_not_other ready (clashFree cpu) call frees covers near)
        · exact outside_free_far ready owned call frees covers (by omega)
  exact Division.never_deadlocked outside (fun _ => rfl) reaches

/-! ## Two pages, both allocated -/

def machineAfter {α : Type} (program : PhysProgram α) (machine : PhysMachine) : PhysMachine :=
  match run program machine with
  | .returned _ after => after
  | _ => machine

def returnedPage (program : PhysProgram Nat) (machine : PhysMachine) : Option Nat :=
  match run program machine with
  | .returned page _ => some page
  | _ => none

theorem run_of_returnedPage {program : PhysProgram Nat} {machine : PhysMachine} {page : Nat}
    (returned : returnedPage program machine = some page) :
    run program machine = .returned page (machineAfter program machine) := by
  unfold returnedPage at returned
  unfold machineAfter
  split at returned
  · rename_i shape
    cases returned
    rw [shape]
  · cases returned

def allocPage : PhysProgram Nat := physAllocBlock 13 0 allocKernel

def bothAllocated : PhysMachine :=
  machineAfter allocPage (machineAfter allocPage
    (machineAfter (handover (unusedEarlyState 2)) (idle (PhysState.zeroed ⟨id, id⟩))))

theorem reachable_bothAllocated : Reachable bothAllocated := by
  have ok := unusedEarlyState_ok (by decide : 2 ≤ 2 ^ 52)
  obtain ⟨state, returned, _⟩ := handover_returns ok ⟨id, id⟩
  have start : Reachable (machineAfter (handover (unusedEarlyState 2))
      (idle (PhysState.zeroed ⟨id, id⟩))) := by
    rw [machineAfter, returned]
    exact .init ok returned
  have valid : ValidFlags allocKernel := Or.inl (by decide)
  have first : Reachable (machineAfter allocPage (machineAfter (handover (unusedEarlyState 2))
      (idle (PhysState.zeroed ⟨id, id⟩)))) :=
    .alloc start (by decide) valid (run_of_returnedPage
      (by decide +kernel : returnedPage allocPage _ = some 0))
  exact .alloc first (by decide) valid (run_of_returnedPage
    (by decide +kernel : returnedPage allocPage _ = some 1))

theorem reachable_idle_bothAllocated : Reachable (idle bothAllocated.data) := by
  obtain ⟨state, same, _⟩ := reachable_bothAllocated.ready
  have idles : bothAllocated = idle bothAllocated.data := by
    rw [same]
    rfl
  rw [← idles]
  exact reachable_bothAllocated

theorem bothAllocated_isBlock {pfn : Nat} (small : pfn < 2) :
    IsBlock bothAllocated.data pfn 0 ∧
      (bothAllocated.data.physblocks pfn).kind ≠ physblockFree := by
  have spans : bothAllocated.data.spans = [⟨0, 2⟩] := by decide +kernel
  have inside : ∃ span ∈ bothAllocated.data.spans, span.Contains pfn (2 ^ 0) := by
    rw [spans]
    exact ⟨_, List.mem_singleton_self _, by simp only [PhysAllocSpan.Contains]; omega⟩
  have records : ∀ page < 2, (bothAllocated.data.physblocks page).headOffset = 0 ∧
      (bothAllocated.data.physblocks page).kind ≠ physblockTail ∧
      (bothAllocated.data.physblocks page).order = 0 ∧
      (bothAllocated.data.physblocks page).kind ≠ physblockFree := by decide +kernel
  obtain ⟨offset, notTail, order, allocated⟩ := records pfn small
  refine ⟨⟨by decide, by simp, inside, offset, notTail, order, ?_⟩, allocated⟩
  intro offset positive bound
  omega

def freeBoth (cpu : Bool) : Call := .free (if cpu then 1 else 0)

theorem freeBoth_owned : Owned bothAllocated.data freeBoth := by
  constructor
  · intro cpu pfn call
    have small : (if cpu then 1 else 0) < 2 := by cases cpu <;> decide
    obtain ⟨block, allocated⟩ := bothAllocated_isBlock small
    exact ⟨_, 0, block, allocated, _, rfl, covers_head _ 0⟩
  · rintro head order ⟨block, _, _, ⟨⟩, left⟩ ⟨_, _, _, ⟨⟩, right⟩
    obtain ⟨rfl, rfl⟩ := block.unique (bothAllocated_isBlock (by decide : 0 < 2)).1 left
      (covers_head 0 0)
    simp [Covers] at right

/-- The second processor locks its page, the first one then runs until it spins on that
page as the buddy of its own, and the second one spins on the allocator lock. -/
def deadlockSchedule : List Bool :=
  List.replicate 2 true ++ List.replicate 30 false ++ List.replicate 20 true

theorem freeing_buddies_deadlocks :
    ∃ state calls config, Reachable (idle state) ∧ Owned state calls ∧
      (startCalls state calls).Reaches config ∧ config.Deadlocked := by
  refine ⟨bothAllocated.data, freeBoth, _, reachable_idle_bothAllocated, freeBoth_owned,
    Config.reaches_follow _ deadlockSchedule, .physblock 1, .allocState, ?_⟩
  decide +kernel

def freeAndAlloc (cpu : Bool) : Call := if cpu then .alloc 13 0 allocKernel else .free 0

theorem free_and_alloc_never_deadlock :
    ∃ state, Reachable (idle state) ∧ Owned state freeAndAlloc ∧
      ∀ config, (startCalls state freeAndAlloc).Reaches config → ¬config.Deadlocked := by
  have owned : Owned bothAllocated.data freeAndAlloc := by
    constructor
    · rintro (_ | _) pfn ⟨⟩
      obtain ⟨block, allocated⟩ := bothAllocated_isBlock (by decide : 0 < 2)
      exact ⟨0, 0, block, allocated, 0, rfl, covers_head 0 0⟩
    · rintro head order _ ⟨_, _, _, ⟨⟩, _⟩
  refine ⟨bothAllocated.data, reachable_idle_bothAllocated, owned, fun config reaches => ?_⟩
  apply no_deadlock_without_clash reachable_idle_bothAllocated owned _ _ reaches
  · rintro ⟨_, _, _, _, _, _, _, _, _, _, ⟨⟩, _⟩
  · rintro ⟨_, _, _, _, _, _, ⟨⟩, _⟩

end Zeptux.Phys
