import Zeptux.Lib.Sections
import Zeptux.PhysConcurrent
import Zeptux.PhysOwned
import Zeptux.Spinlock

/-!
Any number of processors in the allocator, each with the lock of `spinlock.h`.
-/

namespace Zeptux.Phys

open Dyadic IntrusiveRing LockProgram Word Footprint

/-! ## What runs under the allocator lock -/

section Avoids

theorem avoids_pfnToPhysblockLock (pfn : Nat) :
    Avoids .allocState (pfnToPhysblockLock pfn) := by
  refine avoids_bind (avoids_bind (by simp) fun _ => by simp) fun block => ?_
  refine avoids_bind (by simp) fun headOffset => ?_
  split
  · simp
  · refine avoids_bind (by simp) fun offset => avoids_bind (by simp) fun _ => ?_
    exact avoids_bind (by simp) fun _ => by simp

theorem avoids_setTailPhysblocksFrom (start remaining index : Nat) :
    Avoids .allocState (setTailPhysblocksFrom start remaining index) := by
  induction remaining generalizing index with
  | zero => simp [setTailPhysblocksFrom]
  | succ remaining ih =>
      refine avoids_bind (by simp) fun _ => avoids_bind (by simp) fun _ => ?_
      exact ih (index + 1)

theorem avoids_joinPhysblocksLocked (head tail order : Nat) :
    Avoids .allocState (joinPhysblocksLocked head tail order) := by
  unfold joinPhysblocksLocked setTailPhysblocks
  iterate 4 refine avoids_bind (by simp) fun _ => ?_
  refine avoids_bind (avoids_setTailPhysblocksFrom _ _ _) fun _ => ?_
  exact avoids_bind (by simp) fun _ => avoids_bind (by simp) fun _ => by simp

theorem avoids_compactFreeBlocksFrom (remaining order block : Nat) :
    Avoids .allocState (compactFreeBlocksFrom remaining order block) := by
  induction remaining generalizing order block with
  | zero => simp [compactFreeBlocksFrom]
  | succ remaining ih =>
      refine avoids_bind ?_ fun found => ?_
      · refine avoids_bind (by simp) fun _ => avoids_bind (by simp) fun _ => ?_
        refine avoids_bind (by simp) fun _ => ?_
        split
        · simp
        · exact avoids_bind (avoids_pfnToPhysblockLock _) fun _ => by simp
      · cases found with
        | none => simp
        | some buddy =>
            refine avoids_bind (by simp) fun other => ?_
            split
            · exact avoids_bind (by simp) fun _ => by simp
            · split
              · exact avoids_bind (avoids_joinPhysblocksLocked _ _ _) fun joined => ih _ _
              · exact avoids_bind (avoids_joinPhysblocksLocked _ _ _) fun joined => ih _ _

theorem avoids_freeAndCompact (block order : Nat) :
    Avoids .allocState (freeAndCompact block order) := by
  refine avoids_bind (by simp) fun type => ?_
  have compacts : Avoids .allocState (compactFreeBlocksLocked block) :=
    avoids_bind (by simp) fun order => avoids_compactFreeBlocksFrom _ _ _
  split
  · iterate 5 refine avoids_bind (by simp) fun _ => ?_
    exact compacts
  · exact compacts

theorem avoids_splitBlocksFrom (targetOrder fuel order : Nat) :
    Avoids .allocState (splitBlocksFrom targetOrder fuel order) := by
  induction fuel generalizing order with
  | zero => simp [splitBlocksFrom]
  | succ fuel ih =>
      rw [splitBlocksFrom]
      split
      · simp
      · refine avoids_bind (by simp) fun first => ?_
        cases first with
        | none => simp
        | some block =>
            refine avoids_bind (by simp) fun _ => avoids_bind (by simp) fun record => ?_
            split
            · exact avoids_bind (by simp) fun _ => ih order
            · refine avoids_bind ?_ fun _ => ih (order - 1)
              refine avoids_bind (by simp) fun newOrder => ?_
              refine avoids_bind (by simp) fun _ => avoids_bind (by simp) fun _ => ?_
              refine avoids_bind (avoids_setTailPhysblocksFrom _ _ _) fun _ => ?_
              repeat refine avoids_bind (by simp) fun _ => ?_
              simp

theorem avoids_takeFirstBlock (order flags : Nat) :
    Avoids .allocState (takeFirstBlock order flags) := by
  refine avoids_bind (by simp) fun first => ?_
  cases first with
  | none => simp
  | some block =>
      refine avoids_bind (by simp) fun _ => avoids_bind (by simp) fun record => ?_
      split
      · exact avoids_bind (by simp) fun _ => by simp
      · refine avoids_bind (by simp) fun _ => ?_
        cases allocFlagsToPhysblockType flags with
        | error reason => simp
        | ok type =>
            repeat refine avoids_bind (by simp) fun _ => ?_
            simp

theorem avoids_splitAndTakeBlock (fuel order flags : Nat) :
    Avoids .allocState (splitAndTakeBlock fuel order flags) := by
  refine avoids_bind (by simp) fun available => ?_
  have takes : Avoids .allocState (do
      let empty ← .gets fun state => state.listEmpty order
      if empty then
        splitHigherOrderBlocks fuel order
      takeFirstBlock order flags) := by
    refine avoids_bind (by simp) fun empty => ?_
    split
    · refine avoids_bind (avoids_bind (by simp) fun found => ?_) fun _ =>
        avoids_takeFirstBlock order flags
      cases found with
      | none => simp [panic]
      | some order => exact avoids_splitBlocksFrom _ _ _
    · exact avoids_takeFirstBlock order flags
  split
  · exact avoids_bind (by simp [panic]) fun _ => takes
  · exact takes

end Avoids

/-! ## The allocator lock -/

section Brackets

variable {π : Type} [DecidableEq π]

theorem brackets_physFreePfn (pfn : Nat) :
    Brackets .allocState (physFreePfn pfn) false fun _ inside => inside = false := by
  refine brackets_avoids_bind (avoids_pfnToPhysblockLock pfn) fun block => ?_
  refine brackets_avoids_bind (by simp) fun refcount => ?_
  split
  · exact Avoids.brackets (by simp) fun _ => rfl
  · split
    · exact (avoids_bind (by simp) fun _ => by simp).brackets fun _ => rfl
    · refine brackets_avoids_bind (by simp) fun _ => brackets_avoids_bind (by simp) fun order => ?_
      refine brackets_lock_bind (brackets_avoids_bind (avoids_freeAndCompact block order) ?_)
      exact fun compacted => brackets_unlock_bind (Avoids.brackets (by simp) fun _ => rfl)

theorem brackets_physAllocBlock (fuel order flags : Nat) :
    Brackets .allocState (physAllocBlock fuel order flags) false fun _ inside =>
      inside = false := by
  induction fuel with
  | zero => trivial
  | succ fuel ih =>
      rw [physAllocBlock]
      split
      · trivial
      · refine brackets_lock_bind (brackets_avoids_bind (avoids_splitAndTakeBlock _ _ _) ?_)
        refine fun found => brackets_unlock_bind ?_
        cases found with
        | none => exact ih
        | some block => rfl

def runCalls : List Call → PhysProgram Unit
  | [] => return ()
  | call :: calls => do
      call.program
      runCalls calls

theorem brackets_runCalls (calls : List Call) :
    Brackets .allocState (runCalls calls) false fun _ inside => inside = false := by
  induction calls with
  | nil => rfl
  | cons call calls ih =>
      apply brackets_bind
      have own : Brackets .allocState call.program false fun _ inside => inside = false := by
        cases call with
        | free pfn => exact brackets_physFreePfn pfn
        | alloc fuel order flags =>
            apply brackets_bind
            apply brackets_mono _ (brackets_physAllocBlock fuel order flags)
            rintro block inside rfl
            rfl
      apply brackets_mono _ own
      rintro _ inside rfl
      exact ih

theorem alloc_lock_exclusive (state : PhysState) (calls : π → List Call) (schedule : List π) :
    let system := (boot state fun cpu => runCalls (calls cpu)).follow spinlock schedule
    (∀ first second, system.holds first .allocState = true →
      system.holds second .allocState = true → first = second) ∧
    (system.word .allocState = 1 ↔ ∃ cpu, system.holds cpu .allocState = true) ∧
    ∀ cpu lock next, system.program cpu = .acquire lock next → system.word lock = 0 →
      ∀ further : List π, 1 < further.count cpu → ∃ turn ≤ further.length, ∃ taker,
        (system.follow spinlock (further.take turn)).holds taker lock = true := by
  intro system
  have excluded := mutual_exclusion spinlock_implements state
    (fun cpu => brackets_runCalls (calls cpu)) schedule
  have bit := boot_bitWords state (fun cpu => runCalls (calls cpu)) schedule .allocState
  refine ⟨excluded.exclusive, bit.ne_zero_iff.symm.trans excluded.word, ?_⟩
  intro cpu lock next shape isFree further turns
  apply spinlock_implements.taken_soon shape (by simp [isFree])
  cases system.point cpu <;> simp only [AcquirePoint.rank] <;> omega

end Brackets

/-! ## Allocations in parallel -/

/-- A processor that allocates and goes on as the blocks it gets tell it to. -/
inductive Client (α : Type) : Type
  | stop (value : α)
  | alloc (order flags : Nat) (next : Nat → Client α)

variable {π α : Type}

def Client.program (fuel : Nat) : Client α → PhysProgram α
  | .stop value => return value
  | .alloc order flags next => do
      let block ← physAllocBlock fuel order flags
      (next block).program fuel

abbrev AllocSession (α : Type) := Session PhysState Lock Stop (Option Nat) α

def allocSession (order flags : Nat) (rest : Nat → AllocSession α) : Nat → AllocSession α
  | 0 => .fail .outOfFuel
  | fuel + 1 =>
      if order > maxOrder then
        .fail (.panic ⟨"Invalid order %u, maximum is %u", [order, maxOrder]⟩)
      else
        .critical (splitAndTakeBlock (fuel + 1) order flags) fun found =>
          match found with
          | none => allocSession order flags rest fuel
          | some block => rest block

def Client.session (fuel : Nat) : Client α → AllocSession α
  | .stop value => .done value
  | .alloc order flags next => allocSession order flags (fun block => (next block).session fuel) fuel

theorem allocSession_program (order flags : Nat) (rest : Nat → AllocSession α) (fuel : Nat) :
    (allocSession order flags rest fuel).program .allocState =
      physAllocBlock fuel order flags >>= fun block => (rest block).program .allocState := by
  induction fuel with
  | zero => rfl
  | succ fuel ih =>
      rw [allocSession, physAllocBlock]
      by_cases invalid : order > maxOrder
      · rw [if_pos invalid, if_pos invalid]
        rfl
      · rw [if_neg invalid, if_neg invalid, Program.bind_bind]
        refine congrArg (Program.acquire _) ?_
        change _ = (splitAndTakeBlock (fuel + 1) order flags >>= _) >>= _
        rw [Program.bind_bind]
        refine congrArg (Program.bind _) (funext fun found => ?_)
        cases found with
        | none => exact congrArg (Program.release _) ih
        | some block => rfl

theorem allocSession_avoids (order flags : Nat) {rest : Nat → AllocSession α}
    (avoids : ∀ block, (rest block).Avoids .allocState) (fuel : Nat) :
    (allocSession order flags rest fuel).Avoids .allocState := by
  induction fuel with
  | zero => trivial
  | succ fuel ih =>
      rw [allocSession]
      split
      · trivial
      · refine ⟨avoids_splitAndTakeBlock _ _ _, fun found => ?_⟩
        cases found with
        | none => exact ih
        | some block => exact avoids block

theorem Client.session_program (fuel : Nat) (client : Client α) :
    (client.session fuel).program .allocState = client.program fuel := by
  induction client with
  | stop value => rfl
  | alloc order flags next ih =>
      rw [Client.session, allocSession_program, Client.program]
      exact congrArg _ (funext ih)

theorem Client.session_avoids (fuel : Nat) (client : Client α) :
    (client.session fuel).Avoids .allocState := by
  induction client with
  | stop value => trivial
  | alloc order flags next ih => exact allocSession_avoids order flags ih fuel

theorem allocFlags_valid {flags type : Nat} (ok : allocFlagsToPhysblockType flags = .ok type) :
    ValidFlags flags := by
  by_contra invalid
  simp only [ValidFlags, not_or] at invalid
  obtain ⟨kernel, user, pagetable, physblock⟩ := invalid
  unfold allocFlagsToPhysblockType at ok
  rw [if_neg kernel, if_neg user, if_neg pagetable, if_neg physblock] at ok
  cases ok

/-- One section of the allocator is one call of `phys_alloc_block`. -/
theorem Ready.section_is_call {state : PhysState} (ready : Ready state) {fuel order flags : Nat}
    {found : Option Nat} {after : PhysMachine} (bound : order ≤ maxOrder)
    (returned : run (splitAndTakeBlock (fuel + 1) order flags) ((idle state).take .allocState) =
      .returned found after) :
    ValidFlags flags ∧ ∃ block, found = some block ∧
      run (physAllocBlock (fuel + 1) order flags) (idle state) =
        .returned block (after.drop .allocState) := by
  obtain ⟨heads, rep⟩ := ready.rep
  have spec : wp (whole.contract fun _ => True) (splitAndTakeBlock (fuel + 1) order flags) state
      {.allocState} fun found _ _ => ValidFlags flags ∧ ∃ block, found = some block := by
    by_cases available : Available heads order
    · apply wp_splitAndTakeBlock rep bound (Or.inr trivial) available trivial
      · exact fun _ _ => trivial
      · exact fun _ _ => trivial
      · exact fun type ok block _ _ => ⟨allocFlags_valid ok, block, rfl⟩
    · exact wp_splitAndTakeBlock_panics rep bound (Or.inr trivial) available trivial fun _ => trivial
  have taken : (idle state).take .allocState = Machine.holding state {.allocState} := by
    rw [idle, Machine.take_holding]
    rfl
  rcases run_of_wp (describes_self _ _) spec with ⟨value, data, held, same, valid, block, rfl⟩ |
    ⟨error, same, _⟩
  · rw [taken, same] at returned
    cases returned
    refine ⟨valid, block, rfl, ?_⟩
    have free : (idle state).held .allocState = false := by simp [idle, Machine.holding]
    rw [physAllocBlock, if_neg (by omega)]
    change run (.acquire .allocState (splitAndTakeBlock (fuel + 1) order flags >>= _)) _ = _
    rw [run, if_neg (by simp [free]), taken, run_bind, same]
    rfl
  · rw [taken, same] at returned
    cases returned

/-- The processors take turns, each for one whole call. The history is who got which block, and
its order. -/
inductive Turns (fuel : Nat) (start : PhysMachine) (clients : π → Client α) [DecidableEq π] :
    List (π × Nat × Nat) → PhysMachine → (π → Client α) → Prop
  | refl : Turns fuel start clients [] start clients
  | turn {history before now cpu order flags next block after} :
      Turns fuel start clients history before now → now cpu = .alloc order flags next →
      run (physAllocBlock fuel order flags) before = .returned block after →
      Turns fuel start clients (history ++ [(cpu, block, order)]) after
        (Function.update now cpu (next block))

def Apart (first second : Nat × Nat) : Prop :=
  ∀ pfn, Covers first.1 first.2 pfn → ¬Covers second.1 second.2 pfn

/-- The blocks in use are those from before and those of the history, no two of which overlap. -/
structure HandedOut (blocks : Set (Nat × Nat)) (history : List (π × Nat × Nat))
    (machine : PhysMachine) : Prop where
  allotted : Allotted machine (blocks ∪ {block | ∃ cpu, (cpu, block) ∈ history})
  apart : (history.map Prod.snd).Pairwise Apart
  fresh : ∀ entry ∈ history, ∀ block ∈ blocks, Apart block entry.2

section Serial

variable {fuel order flags block : Nat} {blocks : Set (Nat × Nat)}
  {history : List (π × Nat × Nat)} {start machine after : PhysMachine}

theorem HandedOut.nil (allotted : Allotted machine blocks) :
    HandedOut blocks ([] : List (π × Nat × Nat)) machine := by
  refine ⟨?_, .nil, by simp⟩
  simpa using allotted

theorem HandedOut.call (handed : HandedOut blocks history machine) (bound : order ≤ maxOrder)
    (valid : ValidFlags flags)
    (returned : run (physAllocBlock fuel order flags) machine = .returned block after) (cpu : π) :
    HandedOut blocks (history ++ [(cpu, block, order)]) after := by
  obtain ⟨state, rfl, ready⟩ := handed.allotted.reachable.ready
  obtain ⟨new, type, rfl, _, allocated⟩ := ready.alloc_ok bound valid returned
  have fresh : ∀ other ∈ blocks ∪ {block | ∃ cpu, (cpu, block) ∈ history},
      Apart other (block, order) := by
    intro other member pfn covers own
    have live := (handed.allotted.live_iff _ _).mp member
    exact live.not_mem_freePages covers (allocated.wasFree (Finset.mem_Ico.mpr own))
  refine ⟨?_, ?_, ?_⟩
  · have same : blocks ∪ {other | ∃ owner, (owner, other) ∈ history ++ [(cpu, block, order)]} =
        insert (block, order) (blocks ∪ {other | ∃ owner, (owner, other) ∈ history}) := by
      ext other
      simp only [Set.mem_union, Set.mem_ofPred_eq, List.mem_append, List.mem_singleton,
        Prod.mk.injEq, Set.mem_insert_iff, exists_or, exists_eq_left]
      tauto
    rw [same]
    exact .alloc handed.allotted bound valid returned
  · rw [List.map_append, List.pairwise_append]
    refine ⟨handed.apart, by simp, ?_⟩
    intro first member second last
    obtain ⟨entry, inHistory, rfl⟩ := List.mem_map.mp member
    rw [List.map_singleton, List.mem_singleton] at last
    subst last
    exact fresh _ (Or.inr ⟨entry.1, inHistory⟩)
  · intro entry member
    rcases List.mem_append.mp member with old | last
    · exact handed.fresh entry old
    · rw [List.mem_singleton] at last
      subst last
      exact fun other inUse => fresh other (Or.inl inUse)

variable [DecidableEq π] {clients : π → Client α}

theorem serial_turns (enough : 0 < fuel) (allotted : Allotted start blocks)
    {sessions : π → AllocSession α} {sections : List (π × Option Nat)}
    (serial : Serial .allocState start (fun cpu => (clients cpu).session fuel) sections machine
      sessions) :
    ∃ history now, Turns fuel start clients history machine now ∧
      HandedOut blocks history machine ∧ ∀ cpu, sessions cpu = (now cpu).session fuel := by
  induction serial with
  | refl => exact ⟨[], clients, .refl, .nil allotted, fun _ => rfl⟩
  | @turn sections before sessions cpu body rest value after _ critical returned ih =>
      obtain ⟨history, now, turns, handed, same⟩ := ih
      obtain ⟨state, rfl, ready⟩ := handed.allotted.reachable.ready
      obtain ⟨fuel, rfl⟩ : ∃ less, fuel = less + 1 := ⟨fuel - 1, by omega⟩
      rw [same cpu] at critical
      cases client : now cpu with
      | stop value =>
          rw [client] at critical
          cases critical
      | alloc order flags next =>
          rw [client, Client.session, allocSession] at critical
          split at critical
          · cases critical
          · rename_i bound
            cases critical
            obtain ⟨valid, block, rfl, called⟩ := ready.section_is_call (by omega) returned
            refine ⟨_, _, turns.turn client called, handed.call (by omega) valid called cpu, ?_⟩
            intro other
            by_cases own : other = cpu
            · subst other
              simp
            · simp [own, same]

/-- Whatever the interleaving, the calls of `phys_alloc_block` that have returned did so as if
made one after another, and no two processors got the same page. -/
theorem concurrent_allocations_serialise {state : PhysState}
    (allotted : Allotted (idle state) blocks) (enough : maxOrder < fuel)
    (clients : π → Client α) (schedule : List π) :
    let system := (boot state fun cpu => (clients cpu).program fuel).follow spinlock schedule
    ∃ history machine now, Turns fuel (idle state) clients history machine now ∧
      HandedOut blocks history machine ∧
      (∀ cpu, system.holds cpu .allocState = false →
        system.program cpu = (now cpu).program fuel) ∧
      ((∀ cpu, system.holds cpu .allocState = false) →
        system.data = machine.data ∧ ∀ lock, system.word lock = 0) := by
  intro system
  obtain ⟨modelSchedule, mirrors⟩ :=
    follow_mirrors state (fun cpu => (clients cpu).program fuel) schedule
  have programs : (fun cpu => ((clients cpu).session fuel).program .allocState) =
      fun cpu => (clients cpu).program fuel := funext fun cpu => (clients cpu).session_program fuel
  have serial : Serialised .allocState _ (fun cpu => (clients cpu).session fuel) _ :=
    serialised state (fun cpu => (clients cpu).session_avoids fuel) modelSchedule
  rw [programs] at serial
  obtain ⟨sections, machine, sessions, serial, _, _, place⟩ := serial
  have idles : (⟨state, fun _ => false⟩ : PhysMachine) = idle state := by
    simp [idle, Machine.holding]
  rw [idles] at serial
  obtain ⟨history, now, turns, handed, same⟩ := serial_turns (by omega) allotted serial
  refine ⟨history, machine, now, turns, handed, ?_, ?_⟩
  · intro cpu outside
    rw [mirrors.holds] at outside
    rw [← (now cpu).session_program fuel, ← same cpu, mirrors.program]
    rcases place with quiet | ⟨owner, body, inner, rest, busy⟩
    · exact quiet.program cpu
    · refine busy.others cpu ?_
      rintro rfl
      rw [(busy.holds cpu).mpr rfl] at outside
      cases outside
  · intro nobody
    rw [mirrors.holds] at nobody
    rcases place with quiet | ⟨owner, body, inner, rest, busy⟩
    · obtain ⟨last, rfl, _⟩ := handed.allotted.reachable.ready
      refine ⟨mirrors.data.trans quiet.data, fun lock => ?_⟩
      rw [mirrors.word, quiet.word]
      simp [idle, Machine.holding]
    · have inside := (busy.holds owner).mpr rfl
      rw [nobody owner] at inside
      cases inside

end Serial

def onePageEach (_ : Bool) : Client Nat := .alloc 0 allocKernel .stop

theorem two_pages_serialise :
    ∃ state blocks, Allotted (idle state) blocks ∧ state.spans = [⟨0, 2⟩] ∧
      ∀ schedule,
        let system := (boot state fun cpu => (onePageEach cpu).program 13).follow spinlock schedule
        ∃ history machine now, Turns 13 (idle state) onePageEach history machine now ∧
          HandedOut blocks history machine ∧
          ∀ cpu, system.holds cpu .allocState = false →
            system.program cpu = (now cpu).program 13 := by
  obtain ⟨state, reachable, _, spans, _⟩ := unused_reachable (by decide : 2 ≤ 2 ^ 52)
  obtain ⟨blocks, allotted⟩ := reachable.allotted
  refine ⟨state, blocks, allotted, spans, fun schedule => ?_⟩
  obtain ⟨history, machine, now, turns, handed, places, _⟩ := concurrent_allocations_serialise
    allotted (by decide : maxOrder < 13) onePageEach schedule
  exact ⟨history, machine, now, turns, handed, places⟩

end Zeptux.Phys
