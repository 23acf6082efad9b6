import Zeptux.ZbuildRun

/-!
Which rules a run executes when the answers to what is out of date do not change on the way.
A rule that was visited before counts as one that did not run, so an out-of-date rule is only
seen by the dependants on the first path to it.
-/

namespace Zeptux.Zbuild

open Strings Procedure Relation FirstPath

variable {ω : Type} {sys : System ω} {graph b after : Builder ω} {changed missing : Text → Prop}

/-- A rule of the graph, whatever `get_changed_file_deps` did to it. -/
def Builder.Holds (b : Builder ω) (rule : Rule) : Prop :=
  (b.findRule rule.name).map Rule.core = some rule.core

/-- The rule is being run, it has not been executed, and all it depends on is completed. -/
structure Builder.Ready (graph b : Builder ω) (name : Text) : Prop where
  marked : name ∈ b.ruleIsDone
  unexecuted : .executed name ∉ b.trace
  deps : ∀ dep ∈ graph.deps name, .completed dep ∈ b.trace

/-- The states that the steps of a run, in an order in which it makes them, can lead to when each
succeeds. Which of the rules are executed is open. -/
inductive Evolves (sys : System ω) (graph : Builder ω) : Builder ω → Prop
  | start : Evolves sys graph graph
  | marked {b after : Builder ω} {rule : Rule} {ran : Bool} (earlier : Evolves sys graph b)
      (found : b.findRule rule.name = some rule) (undone : rule.name ∉ b.ruleIsDone)
      (called : (ruleChanged sys rule).call b = (.ok ran, after)) :
      Evolves sys graph (after.markDone rule.name)
  | skipped {b : Builder ω} {name : Text} (earlier : Evolves sys graph b)
      (ready : graph.Ready b name) : Evolves sys graph (b.record (.completed name))
  | executed {b after : Builder ω} {rule : Rule} (earlier : Evolves sys graph b)
      (found : graph.Holds rule) (ready : graph.Ready b rule.name)
      (called : (execBuild sys rule rule.stamp).call b = (.ok (), after)) :
      Evolves sys graph (after.record (.completed rule.name))

/-- An assignment of which rules have changed file dependencies and which have no target, that
holds when a run comes to ask. No check and no command fails. -/
structure Steady (sys : System ω) (graph : Builder ω) (changed missing : Text → Prop) : Prop where
  checks : ∀ b, Evolves sys graph b → ∀ rule, b.findRule rule.name = some rule →
    rule.name ∉ b.ruleIsDone →
    ∃ ran after, (ruleChanged sys rule).call b = (.ok ran, after) ∧
      (ran = true ↔ changed rule.name)
  exist : ∀ b, Evolves sys graph b → ∀ rule, graph.Holds rule → graph.Ready b rule.name →
    (sys.exists [] rule.stamp b = false ↔ missing rule.name)
  execs : ∀ b, Evolves sys graph b → ∀ rule, graph.Holds rule → graph.Ready b rule.name →
    ∃ after, (execBuild sys rule rule.stamp).call b = (.ok (), after)

def Builder.OutOfDate (graph : Builder ω) (changed missing : Text → Prop) (name : Text) : Prop :=
  changed name ∨ (∃ rule, graph.findRule name = some rule ∧ rule.isPhony = true) ∨ missing name

theorem ruleChanged_quiet {rule : Rule} {ran : Bool} (found : b.findRule rule.name = some rule)
    (called : (ruleChanged sys rule).call b = (.ok ran, after)) : Quiet b after := by
  have known : (b.findRule rule.name).map Rule.core = some rule.core := by rw [found]; rfl
  have check : Keeps (Quiet b) Finite (ruleChanged sys rule) := ruleChanged_keeps known
  have kept := (check.outcome (.refl b)).1
  rwa [called] at kept

theorem execBuild_record {rule : Rule} {outcome : Except Stop Unit}
    (called : (execBuild sys rule rule.stamp).call b = (outcome, after)) :
    Quiet (b.record (.executed rule.name)) after := by
  have kept := (execBuild_quiet sys rule rule.stamp b).1
  rwa [called] at kept

theorem Evolves.same (evolves : Evolves sys graph b) : SameRules graph b := by
  induction evolves with
  | start => exact .refl graph
  | marked earlier found undone called ih =>
      have checked := (ruleChanged_quiet found called).rules
      exact ih.trans ⟨checked.names, checked.cores⟩
  | skipped earlier ready ih => exact ⟨ih.names, ih.cores⟩
  | executed earlier found ready called ih =>
      have recorded := (execBuild_record called).rules
      exact ih.trans ⟨recorded.names, recorded.cores⟩

/-- What the successful runs of some rules did, where `ran` says whether one of them ran. -/
structure Rebuilds (sys : System ω) (graph : Builder ω) (outOfDate : Text → Prop)
    (names : List Text) (b : Builder ω) (ran : Bool) (after : Builder ω) : Prop where
  evolves : Evolves sys graph after
  ran : ran = true ↔
    ∃ stale, outOfDate stale ∧ stale ∉ b.ruleIsDone ∧ ∃ name ∈ names, graph.Reaches name stale
  done : ∀ rule, rule ∈ after.ruleIsDone ↔
    rule ∈ b.ruleIsDone ∨ ∃ name ∈ names, graph.Reaches name rule
  executed : ∀ rule, .executed rule ∈ after.trace ↔ .executed rule ∈ b.trace ∨
    ∃ stale, outOfDate stale ∧ stale ∉ b.ruleIsDone ∧ LeadsFrom graph.deps stale names rule
  kept : ∀ rule, .completed rule ∈ b.trace → .completed rule ∈ after.trace
  completed : ∀ name ∈ names, ∀ rule, graph.Reaches name rule → .completed rule ∈ after.trace

section Composition

variable {outOfDate : Text → Prop} {name : Text} {names : List Text} {middle last : Builder ω}
  {ran more : Bool}

theorem Rebuilds.stale_iff (first : Rebuilds sys graph outOfDate [name] b ran middle)
    {stale : Text} :
    stale ∉ middle.ruleIsDone ↔ stale ∉ b.ruleIsDone ∧ ¬graph.Reaches name stale := by
  rw [first.done]
  simp

theorem Rebuilds.cons (first : Rebuilds sys graph outOfDate [name] b ran middle)
    (rest : Rebuilds sys graph outOfDate names middle more after) :
    Rebuilds sys graph outOfDate (name :: names) b (ran || more) after := by
  refine ⟨rest.evolves, ?_, ?_, ?_, fun rule ended => rest.kept rule (first.kept rule ended), ?_⟩
  · rw [Bool.or_eq_true, first.ran, rest.ran]
    constructor
    · rintro (⟨stale, old, undone, other, named, reaches⟩ | ⟨stale, old, undone, other, named, reaches⟩)
      · exact ⟨stale, old, undone, other, by simpa using .inl (List.mem_singleton.mp named), reaches⟩
      · exact ⟨stale, old, (first.stale_iff.mp undone).1, other, by simp [named], reaches⟩
    · rintro ⟨stale, old, undone, other, named, reaches⟩
      by_cases seen : graph.Reaches name stale
      · exact .inl ⟨stale, old, undone, name, by simp, seen⟩
      · have later : other ∈ names := by
          rcases List.mem_cons.mp named with rfl | later
          · exact absurd reaches seen
          · exact later
        exact .inr ⟨stale, old, first.stale_iff.mpr ⟨undone, seen⟩, other, later, reaches⟩
  · intro rule
    rw [rest.done, first.done]
    simp [or_assoc]
  · intro rule
    rw [rest.executed, first.executed, or_assoc]
    refine or_congr_right ?_
    simp only [leadsFrom_singleton, first.stale_iff]
    simp only [leadsFrom_cons]
    constructor
    · rintro (⟨stale, old, undone, leads⟩ | ⟨stale, old, ⟨undone, unseen⟩, leads⟩)
      · exact ⟨stale, old, undone, .inl leads⟩
      · exact ⟨stale, old, undone, .inr ⟨unseen, leads⟩⟩
    · rintro ⟨stale, old, undone, leads | ⟨unseen, leads⟩⟩
      · exact .inl ⟨stale, old, undone, leads⟩
      · exact .inr ⟨stale, old, ⟨undone, unseen⟩, leads⟩
  · intro other named rule reaches
    rcases List.mem_cons.mp named with rfl | later
    · exact rest.kept rule (first.completed other (by simp) rule reaches)
    · exact rest.completed other later rule reaches

theorem Rebuilds.rule (undone : name ∉ b.ruleIsDone) (acyclic : graph.AcyclicFrom name)
    (checked : Quiet b middle)
    (loop : Rebuilds sys graph outOfDate (graph.deps name) (middle.markDone name) ran last)
    (evolves : Evolves sys graph after) (decision : more = true ↔ outOfDate name ∨ ran = true)
    (done : after.ruleIsDone = last.ruleIsDone)
    (executed : ∀ rule, .executed rule ∈ after.trace ↔
      .executed rule ∈ last.trace ∨ more = true ∧ rule = name)
    (completed : ∀ rule, .completed rule ∈ after.trace ↔ .completed rule ∈ last.trace ∨ rule = name) :
    Rebuilds sys graph outOfDate [name] b more after := by
  have marked (stale : Text) : stale ∉ (middle.markDone name).ruleIsDone ↔
      stale ≠ name ∧ stale ∉ b.ruleIsDone := by
    simp [Builder.markDone, checked.done]
  have below {stale : Text} (reaches : ∃ dep ∈ graph.deps name, graph.Reaches dep stale) :
      stale ≠ name := by
    rintro rfl
    obtain ⟨dep, depends, reaches⟩ := reaches
    exact acyclic stale .refl (TransGen.head' depends reaches)
  have runs : more = true ↔
      ∃ stale, outOfDate stale ∧ stale ∉ b.ruleIsDone ∧ graph.Reaches name stale := by
    rw [decision, loop.ran]
    constructor
    · rintro (old | ⟨stale, old, unseen, reaches⟩)
      · exact ⟨name, old, undone, .refl⟩
      · exact ⟨stale, old, ((marked stale).mp unseen).2, reaches_iff.mpr (.inr reaches)⟩
    · rintro ⟨stale, old, unseen, reaches⟩
      rcases reaches_iff.mp reaches with rfl | reaches
      · exact .inl old
      · exact .inr ⟨stale, old, (marked stale).mpr ⟨below reaches, unseen⟩, reaches⟩
  have before : (middle.markDone name).trace = b.trace := checked.trace
  refine ⟨evolves, by simpa using runs, fun rule => ?_, fun rule => ?_, fun rule ended => ?_,
    fun other named rule reaches => ?_⟩
  · have now : rule ∈ (middle.markDone name).ruleIsDone ↔ rule = name ∨ rule ∈ b.ruleIsDone := by
      simp [Builder.markDone, checked.done]
    have self : graph.Reaches name rule ↔ _ := reaches_iff
    simp only [done, loop.done, now, List.mem_singleton, exists_eq_left, self]
    rw [or_assoc]
    exact or_left_comm
  · simp only [executed, loop.executed, before, runs, leadsFrom_singleton, marked]
    constructor
    · rintro ((before | ⟨stale, old, ⟨-, unseen⟩, leads⟩) | ⟨⟨stale, old, unseen, reaches⟩, rfl⟩)
      · exact .inl before
      · exact .inr ⟨stale, old, unseen, leads_iff.mpr (.inr leads)⟩
      · exact .inr ⟨stale, old, unseen, .here reaches⟩
    · rintro (before | ⟨stale, old, unseen, leads⟩)
      · exact .inl (.inl before)
      · rcases leads_iff.mp leads with ⟨rfl, reaches⟩ | leads
        · exact .inr ⟨⟨stale, old, unseen, reaches⟩, rfl⟩
        · obtain ⟨dep, depends, -, reaches⟩ := leads.reaches
          exact .inl (.inr ⟨stale, old, ⟨below ⟨dep, depends, reaches⟩, unseen⟩, leads⟩)
  · exact (completed rule).mpr (.inl (loop.kept rule (before ▸ ended)))
  · rw [List.mem_singleton.mp named] at reaches
    rcases reaches_iff.mp reaches with rfl | ⟨dep, depends, further⟩
    · exact (completed _).mpr (.inr rfl)
    · exact (completed rule).mpr (.inl (loop.completed dep depends rule further))

end Composition

/-- Below this rule, whatever is done is done with all it depends on. -/
def Builder.Closed (graph b : Builder ω) (name : Text) : Prop :=
  ∀ rule, graph.Reaches name rule → rule ∈ b.ruleIsDone →
    ∀ dep, graph.Reaches rule dep → dep ∈ b.ruleIsDone

structure Visits (sys : System ω) (graph : Builder ω) (names : List Text) (b : Builder ω) :
    Prop where
  evolves : Evolves sys graph b
  closed : ∀ name ∈ names, graph.Closed b name
  settled : ∀ name ∈ names, graph.Settled b name
  executed : ∀ rule, .executed rule ∈ b.trace → rule ∈ b.ruleIsDone

section Run

variable {outOfDate : Text → Prop} {name : Text} {names : List Text} {middle : Builder ω}
  {ran : Bool}

theorem Visits.next (visits : Visits sys graph (name :: names) b)
    (first : Rebuilds sys graph outOfDate [name] b ran middle) : Visits sys graph names middle := by
  have kept (rule : Text) (before : rule ∈ b.ruleIsDone) : rule ∈ middle.ruleIsDone :=
    (first.done rule).mpr (.inl before)
  refine ⟨first.evolves, fun other inside rule reaches done dep further => ?_,
    fun other inside rule reaches done dep further => ?_, fun rule ran => ?_⟩
  · rcases (first.done rule).mp done with before | ⟨start, named, reached⟩
    · exact kept dep (visits.closed other (by simp [inside]) rule reaches before dep further)
    · exact (first.done dep).mpr (.inr ⟨start, named, reached.trans further⟩)
  · rcases (first.done rule).mp done with before | ⟨start, named, reached⟩
    · exact first.kept dep (visits.settled other (by simp [inside]) rule reaches before dep further)
    · exact first.completed start named dep (reached.trans further)
  · rcases (first.executed rule).mp ran with before | ⟨stale, -, -, leads⟩
    · exact kept rule (visits.executed rule before)
    · obtain ⟨start, named, reached, -⟩ := leads.reaches
      exact (first.done rule).mpr (.inr ⟨start, named, reached⟩)

theorem Visits.visited (visits : Visits sys graph [name] b) (done : name ∈ b.ruleIsDone) :
    Rebuilds sys graph outOfDate [name] b false b := by
  have seen (rule : Text) (reaches : graph.Reaches name rule) : rule ∈ b.ruleIsDone :=
    visits.closed name (by simp) name .refl done rule reaches
  refine ⟨visits.evolves, ?_, fun rule => ?_, fun rule => ?_, fun _ ended => ended,
    fun other named rule reaches => ?_⟩
  · simp only [Bool.false_eq_true, List.mem_singleton, exists_eq_left, false_iff]
    rintro ⟨stale, -, unseen, reaches⟩
    exact unseen (seen stale reaches)
  · simpa using seen rule
  · simp only [leadsFrom_singleton, iff_self_or]
    rintro ⟨stale, -, unseen, leads⟩
    exact absurd (seen stale (leads.reaches.1.trans leads.reaches.2)) unseen
  · rw [List.mem_singleton.mp named] at reaches
    exact visits.settled name (by simp) name .refl done rule reaches

theorem runDeps_rebuilds {run : Text → Build ω Bool} {bound : Nat}
    (ran : ∀ name b, Ran b ((run name).call b).2)
    (each : ∀ name ∈ names, ∀ b, Visits sys graph [name] b → b.undone.card < bound →
      ∃ ran after, (run name).call b = (.ok ran, after) ∧
        Rebuilds sys graph outOfDate [name] b ran after)
    (visits : Visits sys graph names b) (enough : b.undone.card < bound) (shouldExec : Bool) :
    ∃ ran after, (runDeps run names shouldExec).call b = (.ok (shouldExec || ran), after) ∧
      Rebuilds sys graph outOfDate names b ran after := by
  induction names generalizing b shouldExec with
  | nil =>
      exact ⟨false, b, by simp [runDeps], visits.evolves, by simp, by simp, by simp,
        fun _ ended => ended, by simp⟩
  | cons name names ih =>
      have here : Visits sys graph [name] b :=
        ⟨visits.evolves, fun other named => visits.closed other (by simp_all),
          fun other named => visits.settled other (by simp_all), visits.executed⟩
      obtain ⟨one, middle, called, first⟩ := each name (by simp) b here enough
      have fewer := ran name b
      rw [called] at fewer
      have left := lt_of_le_of_lt (Finset.card_le_card fewer.undone) enough
      obtain ⟨more, after, loop, rest⟩ :=
        ih (fun name inside => each name (by simp [inside])) (visits.next first) left
          (shouldExec || one)
      refine ⟨one || more, after, ?_, first.cons rest⟩
      rw [runDeps, call_bind_ok b called, loop, Bool.or_assoc]

theorem Visits.deps (visits : Visits sys graph [name] b) (acyclic : graph.AcyclicFrom name)
    {rule : Rule} {changed : Bool} (named : rule.name = name)
    (found : b.findRule rule.name = some rule) (undone : rule.name ∉ b.ruleIsDone)
    (called : (ruleChanged sys rule).call b = (.ok changed, middle)) :
    Visits sys graph (graph.deps name) (middle.markDone name) := by
  have checked := ruleChanged_quiet found called
  refine ⟨named ▸ visits.evolves.marked found undone called, ?_,
    Builder.Settled.markDone (visits.settled name (by simp)) acyclic checked, fun rule ran => ?_⟩
  · intro dep depends rule reaches done other further
    rcases List.mem_cons.mp done with rfl | before
    · exact absurd (TransGen.head' depends reaches) (acyclic rule .refl)
    · rw [checked.done] at before
      have later := visits.closed name (by simp) rule (.head depends reaches) before other further
      exact .tail _ (checked.done ▸ later)
  · have trace : (middle.markDone name).trace = b.trace := checked.trace
    rw [trace] at ran
    exact .tail _ (checked.done ▸ visits.executed rule ran)

theorem Builder.Holds.phony_iff {rule : Rule} (holds : graph.Holds rule) :
    (∃ other, graph.findRule rule.name = some other ∧ other.isPhony = true) ↔
      rule.isPhony = true := by
  obtain ⟨known, found, core⟩ := Option.map_eq_some_iff.mp holds
  have phony : known.isPhony = rule.isPhony := by simpa [Rule.core] using congrArg Rule.isPhony core
  rw [found]
  simp [phony]

theorem runRule_call {run : Text → Build ω Bool} {rule : Rule} {checked depsRan : Bool}
    {middle before last : Builder ω}
    (called : (ruleChanged sys rule).call b = (.ok checked, middle))
    (looped : (runDeps run rule.ruleDeps checked).call (middle.markDone rule.name) =
      (.ok depsRan, before))
    {shouldExec : Bool}
    (decision : (depsRan || rule.isPhony || !sys.exists [] rule.stamp before) = shouldExec)
    (ended : (if shouldExec then execBuild sys rule rule.stamp else return).call before =
      (.ok (), last)) :
    (runRule sys run rule).call b = (.ok shouldExec, last.record (.completed rule.name)) := by
  rw [runRule, call_bind_ok b called, call_bind_ok middle (call_modify middle _),
    call_bind_ok _ looped, call_bind_ok before (fileExists_call _ _ before)]
  simp only [decision]
  rw [call_bind_ok before ended, call_bind_ok last (call_modify last _), call_pure]

theorem runRule_rebuilds {run : Text → Build ω Bool} {rule : Rule} {bound : Nat}
    (steady : Steady sys graph changed missing)
    (loop : ∀ b, Visits sys graph rule.ruleDeps b → b.undone.card < bound → ∀ shouldExec,
      ∃ ran after, (runDeps run rule.ruleDeps shouldExec).call b = (.ok (shouldExec || ran), after) ∧
        Rebuilds sys graph (graph.OutOfDate changed missing) rule.ruleDeps b ran after)
    (found : b.findRule rule.name = some rule) (undone : rule.name ∉ b.ruleIsDone)
    (visits : Visits sys graph [rule.name] b) (acyclic : graph.AcyclicFrom rule.name)
    (enough : b.undone.card < bound + 1) :
    ∃ ran after, (runRule sys run rule).call b = (.ok ran, after) ∧
      Rebuilds sys graph (graph.OutOfDate changed missing) [rule.name] b ran after := by
  have same := visits.evolves.same
  have deps : graph.deps rule.name = rule.ruleDeps := by
    rw [← same.deps, Builder.deps_of_found found]
  have holds : graph.Holds rule := by
    rw [Builder.Holds, ← same.cores, found]
    rfl
  have unexecuted : .executed rule.name ∉ b.trace := fun ran => undone (visits.executed _ ran)
  obtain ⟨check, middle, called, changes⟩ := steady.checks b visits.evolves rule found undone
  have checked := ruleChanged_quiet found called
  have listed := List.mem_map_of_mem (f := Rule.name) (List.mem_of_find?_eq_some found)
  have fewer := checked.undone_markDone listed undone
  have below := visits.deps acyclic rfl found undone called
  rw [deps] at below
  obtain ⟨depsRan, before, looped, rest⟩ := loop _ below (by omega) check
  rw [← deps] at rest
  have waiting : .executed rule.name ∉ before.trace := by
    intro ran
    rcases (rest.executed rule.name).mp ran with early | ⟨stale, -, -, leads⟩
    · have trace : (middle.markDone rule.name).trace = b.trace := checked.trace
      exact unexecuted (trace ▸ early)
    · obtain ⟨dep, depends, reaches, -⟩ := leads.reaches
      exact acyclic rule.name .refl (TransGen.head' depends reaches)
  have ready : graph.Ready before rule.name :=
    ⟨(rest.done rule.name).mpr (.inl List.mem_cons_self), waiting,
      fun dep depends => rest.completed dep depends dep .refl⟩
  have absent := steady.exist before rest.evolves rule holds ready
  generalize decision : (check || depsRan || rule.isPhony || !sys.exists [] rule.stamp before) =
    shouldExec
  have decides : shouldExec = true ↔
      graph.OutOfDate changed missing rule.name ∨ depsRan = true := by
    rw [← decision, Builder.OutOfDate, holds.phony_iff, ← changes, ← absent]
    simp only [Bool.or_eq_true, Bool.not_eq_true']
    rw [or_assoc, or_right_comm]
  cases shouldExec with
  | false =>
      refine ⟨false, _, runRule_call called looped decision (call_pure before _), ?_⟩
      refine .rule undone acyclic checked rest (rest.evolves.skipped ready) decides rfl
        (fun name => ?_) fun name => ?_
      · simp [Builder.record]
      · simp [Builder.record]
  | true =>
      obtain ⟨last, executed⟩ := steady.execs before rest.evolves rule holds ready
      have recorded := execBuild_record executed
      refine ⟨true, _, runRule_call called looped decision executed, ?_⟩
      refine .rule undone acyclic checked rest (rest.evolves.executed holds ready executed)
        decides recorded.done (fun name => ?_) fun name => ?_
      · simp [Builder.record, recorded.trace]
      · simp [Builder.record, recorded.trace]

theorem runBuild_rebuilds (steady : Steady sys graph changed missing) (fuel : Nat) (name : Text)
    (b : Builder ω) (visits : Visits sys graph [name] b) (acyclic : graph.AcyclicFrom name)
    (resolved : ∀ rule, graph.Reaches name rule → (graph.findRule rule).isSome)
    (enough : b.undone.card < fuel) :
    ∃ ran after, (runBuild sys fuel name).call b = (.ok ran, after) ∧
      Rebuilds sys graph (graph.OutOfDate changed missing) [name] b ran after := by
  induction fuel generalizing name b with
  | zero => omega
  | succ fuel ih =>
      have same := visits.evolves.same
      have known : (b.findRule name).isSome := by
        have core := congrArg Option.isSome (same.cores name)
        simpa [resolved name .refl] using core
      obtain ⟨rule, found⟩ := Option.isSome_iff_exists.mp known
      obtain rfl := Builder.findRule_name found
      rw [runBuild, call_bind_ok b (call_get b), found]
      by_cases done : rule.name ∈ b.ruleIsDone
      · simp only [if_pos done]
        exact ⟨false, b, rfl, visits.visited done⟩
      · simp only [if_neg done]
        have deps : graph.deps rule.name = rule.ruleDeps := by
          rw [← same.deps, Builder.deps_of_found found]
        refine runRule_rebuilds steady (fun b visits enough shouldExec => ?_) found done visits
          acyclic enough
        refine runDeps_rebuilds (runBuild_ran fuel) (fun dep depends b visits enough => ?_) visits
          enough shouldExec
        have direct := Builder.dependsOn_of_mem deps depends
        exact ih dep b visits (acyclic.dep direct)
          (fun other reaches => resolved other (.head direct reaches)) enough

/-- A rule that needs its commands run: it is out of date, or depends on a rule that is. -/
def Builder.Needed (graph : Builder ω) (changed missing : Text → Prop) (start name : Text) : Prop :=
  graph.Reaches start name ∧
    ∃ stale, graph.OutOfDate changed missing stale ∧ graph.Reaches name stale

/-- Without cycles, `run_build` executes exactly the rules that need it if and only if each of
them lies on the first path to one of the rules that are out of date. -/
theorem runBuild_executes_needed_iff (sys : System ω) (graph : Builder ω)
    (changed missing : Text → Prop) (start : Text) (fuel : Nat) (fresh : Fresh graph)
    (acyclic : graph.AcyclicFrom start)
    (resolved : ∀ rule, graph.Reaches start rule → (graph.findRule rule).isSome)
    (steady : Steady sys graph changed missing) (enough : graph.rules.length < fuel) :
    (∀ name, .executed name ∈ ((runBuild sys fuel start).call graph).2.trace ↔
      graph.Needed changed missing start name) ↔
    ∀ name, graph.Needed changed missing start name →
      ∃ stale, graph.OutOfDate changed missing stale ∧ Leads graph.deps stale start name := by
  have visits : Visits sys graph [start] graph := by
    refine ⟨.start, fun _ _ rule _ done => ?_, fun _ _ rule _ done => ?_, fun rule ran => ?_⟩
    · rw [fresh.done] at done
      exact absurd done List.not_mem_nil
    · rw [fresh.done] at done
      exact absurd done List.not_mem_nil
    · rw [fresh.trace] at ran
      exact absurd ran List.not_mem_nil
  obtain ⟨ran, after, called, rebuilt⟩ := runBuild_rebuilds steady fuel start graph visits acyclic
    resolved (lt_of_le_of_lt graph.undone_card_le enough)
  have executed (name : Text) : .executed name ∈ after.trace ↔
      ∃ stale, graph.OutOfDate changed missing stale ∧ Leads graph.deps stale start name := by
    rw [rebuilt.executed]
    simp [fresh.done, fresh.trace, leadsFrom_singleton]
  simp only [called, executed]
  constructor
  · exact fun exact_ name needed => (exact_ name).mpr needed
  · intro first name
    refine ⟨?_, first name⟩
    rintro ⟨stale, old, leads⟩
    exact ⟨leads.reaches.1, stale, old, leads.reaches.2⟩

end Run

section Examples

/-- What `check_rule_deps` checks is enough for every rule to be found. -/
theorem Builder.resolved_of_listed
    (checked : ∀ rule ∈ graph.rules, ∀ dep ∈ rule.ruleDeps, (graph.findRule dep).isSome)
    {start : Text} (known : (graph.findRule start).isSome) (name : Text)
    (reaches : graph.Reaches start name) : (graph.findRule name).isSome := by
  induction reaches with
  | refl => exact known
  | tail path depends ih =>
      obtain ⟨rule, listed, -, inside⟩ := dependsOn_listed depends
      exact checked rule listed _ inside

variable {files : List Text} {rules : List Rule}

theorem ruleChanged_still {rule : Rule} (none : rule.fileDeps = []) (b : Builder Unit) :
    (ruleChanged (stillSystem files) rule).call b = (.ok false, b.setRule (normaliseRuleDir rule)) := by
  have empty : (normaliseRuleDir rule).fileDeps = [] := by simp [normaliseRuleDir, none]
  have depfile : (computeDepfileFiledeps (stillSystem files) (normaliseRuleDir rule)).call b =
      (.ok [], b) := by
    rw [computeDepfileFiledeps, call_bind_ok b (call_get b), empty]
    split <;> rfl
  have changes : (getChangedFileDeps (stillSystem files) rule rule.stamp .none false).call b =
      (.ok ([], normaliseRuleDir rule), b) := by
    rw [getChangedFileDeps, call_bind_ok b depfile, empty]
    rfl
  rw [ruleChanged, call_bind_ok b changes]
  rfl

theorem execBuild_still {rule : Rule} (commands : rule.shellCommands = [lit "make"])
    (single : rule.isMulti = false) (target : Text) (b : Builder Unit) :
    (execBuild (stillSystem files) rule target).call b =
      (.ok (), b.record (.executed rule.name)) := by
  rw [execBuild, commands, single]
  rfl

def Plain (b : Builder Unit) : Prop := ∀ rule ∈ b.rules, rule = ruleOf rule.name rule.ruleDeps

theorem Plain.holds {graph : Builder Unit} (plain : Plain graph) {rule : Rule}
    (holds : graph.Holds rule) : rule.shellCommands = [lit "make"] ∧ rule.isMulti = false := by
  obtain ⟨known, found, core⟩ := Option.map_eq_some_iff.mp holds
  have shape := plain known (List.mem_of_find?_eq_some found)
  have commands : known.core.shellCommands = rule.core.shellCommands := by rw [core]
  have single : known.core.isMulti = rule.core.isMulti := by rw [core]
  rw [shape] at commands single
  exact ⟨commands.symm, single.symm⟩

theorem Plain.setRule {b : Builder Unit} (plain : Plain b) {rule : Rule}
    (found : b.findRule rule.name = some rule) : Plain (b.setRule (normaliseRuleDir rule)) := by
  have shape := plain rule (List.mem_of_find?_eq_some found)
  have normal : normaliseRuleDir rule = rule := by
    rw [shape]
    rfl
  rw [normal]
  intro other inside
  obtain ⟨old, listed, rfl⟩ := List.mem_map.mp inside
  split
  · exact shape
  · exact plain old listed

theorem Evolves.plain {graph b : Builder Unit} (plain : Plain graph)
    (evolves : Evolves (stillSystem files) graph b) : Plain b := by
  induction evolves with
  | start => exact plain
  | @marked b after rule ran earlier found undone called ih =>
      have files : rule.fileDeps = [] := by
        rw [ih rule (List.mem_of_find?_eq_some found)]
        rfl
      rw [ruleChanged_still files] at called
      cases called
      exact ih.setRule found
  | skipped earlier ready ih => exact ih
  | @executed b after rule earlier found ready called ih =>
      obtain ⟨commands, single⟩ := plain.holds found
      rw [execBuild_still commands single] at called
      cases called
      exact ih

theorem Plain.steady {graph : Builder Unit} (plain : Plain graph) (files : List Text) :
    Steady (stillSystem files) graph (fun _ => False) fun name => joinPath [] name ∉ files where
  checks b evolves rule found _ := by
    have empty : rule.fileDeps = [] := by
      rw [evolves.plain plain rule (List.mem_of_find?_eq_some found)]
      rfl
    exact ⟨false, _, ruleChanged_still empty b, by simp⟩
  exist b _ rule holds _ := by
    have stamp : rule.stamp = rule.name := by simp [Rule.stamp, (plain.holds holds).2]
    rw [stamp, System.exists, stillSystem]
    by_cases present : joinPath [] rule.name ∈ files <;> simp [present]
  execs b _ rule holds _ := by
    obtain ⟨commands, single⟩ := plain.holds holds
    exact ⟨_, execBuild_still commands single _ b⟩

def bootBin : Text := lit "boot.bin"
def testElf : Text := lit "test-early.elf"
def testImg : Text := lit "test-early.img"

/-- Three of the rules of the build file, with the order of the dependencies as given. -/
def testRules (imgDeps : List Text) : Builder Unit :=
  graphOf [ruleOf testImg imgDeps, ruleOf testElf [bootBin], ruleOf bootBin []]

def testSystem : System Unit := stillSystem [testImg, testElf]

def noneChanged (_ : Text) : Prop := False

def testMissing (name : Text) : Prop := joinPath [] name ∉ [testImg, testElf]

theorem testRules_plain (imgDeps : List Text) : Plain (testRules imgDeps) := by
  intro rule listed
  simp only [testRules, graphOf, List.mem_cons, List.not_mem_nil, or_false] at listed
  rcases listed with rfl | rfl | rfl <;> rfl

def testRank (name : Text) : Nat := if name = testImg then 2 else if name = testElf then 1 else 0

/-- The build file lists the boot image first, so that the second dependant is not rebuilt. -/
theorem testRules_elf_not_rebuilt :
    Fresh (testRules [bootBin, testElf]) ∧
    (testRules [bootBin, testElf]).AcyclicFrom testImg ∧
    (∀ rule, (testRules [bootBin, testElf]).Reaches testImg rule →
      ((testRules [bootBin, testElf]).findRule rule).isSome) ∧
    Steady testSystem (testRules [bootBin, testElf]) noneChanged testMissing ∧
    ¬∀ name,
      .executed name ∈
        ((runBuild testSystem 4 testImg).call (testRules [bootBin, testElf])).2.trace ↔
      (testRules [bootBin, testElf]).Needed noneChanged testMissing testImg name := by
  refine ⟨⟨rfl, rfl⟩, Builder.acyclicFrom_of_rank testRank (by decide +kernel) testImg,
    Builder.resolved_of_listed (by decide +kernel) (by decide +kernel),
    (testRules_plain _).steady _, fun agree => ?_⟩
  have skipped : .executed testElf ∉
      ((runBuild testSystem 4 testImg).call (testRules [bootBin, testElf])).2.trace := by
    decide +kernel
  have direct : testElf ∈ (testRules [bootBin, testElf]).deps testImg := by decide +kernel
  have stale : bootBin ∈ (testRules [bootBin, testElf]).deps testElf := by decide +kernel
  have missing : testMissing bootBin := by
    rw [testMissing]
    decide +kernel
  exact skipped ((agree testElf).mpr
    ⟨.single direct, bootBin, .inr (.inr missing), .single stale⟩)

theorem testRules_rebuilt :
    Fresh (testRules [testElf, bootBin]) ∧
    (testRules [testElf, bootBin]).AcyclicFrom testImg ∧
    (∀ rule, (testRules [testElf, bootBin]).Reaches testImg rule →
      ((testRules [testElf, bootBin]).findRule rule).isSome) ∧
    Steady testSystem (testRules [testElf, bootBin]) noneChanged testMissing ∧
    ∀ name,
      .executed name ∈
        ((runBuild testSystem 4 testImg).call (testRules [testElf, bootBin])).2.trace ↔
      (testRules [testElf, bootBin]).Needed noneChanged testMissing testImg name := by
  have fresh : Fresh (testRules [testElf, bootBin]) := ⟨rfl, rfl⟩
  have acyclic : (testRules [testElf, bootBin]).AcyclicFrom testImg :=
    Builder.acyclicFrom_of_rank testRank (by decide +kernel) testImg
  have resolved : ∀ rule, (testRules [testElf, bootBin]).Reaches testImg rule →
      ((testRules [testElf, bootBin]).findRule rule).isSome :=
    Builder.resolved_of_listed (by decide +kernel) (by decide +kernel)
  have steady : Steady testSystem (testRules [testElf, bootBin]) noneChanged testMissing :=
    (testRules_plain _).steady _
  refine ⟨fresh, acyclic, resolved, steady, ?_⟩
  refine (runBuild_executes_needed_iff testSystem _ noneChanged testMissing testImg 4 fresh acyclic
    resolved steady (by decide)).mpr fun name needed => ?_
  have missing : testMissing bootBin := by
    rw [testMissing]
    decide +kernel
  refine ⟨bootBin, .inr (.inr missing), ?_⟩
  have imgDeps : (testRules [testElf, bootBin]).deps testImg = [] ++ testElf :: [bootBin] := by
    decide +kernel
  have elfDeps : (testRules [testElf, bootBin]).deps testElf = [] ++ bootBin :: [] := by
    decide +kernel
  have fromElf : Reaches (testRules [testElf, bootBin]).deps testElf bootBin :=
    .single (by simp [FirstPath.DependsOn, elfDeps])
  have fromImg : Reaches (testRules [testElf, bootBin]).deps testImg bootBin :=
    .single (by simp [FirstPath.DependsOn, imgDeps])
  obtain ⟨rule, found⟩ := Option.isSome_iff_exists.mp (resolved name needed.1)
  have listed := List.mem_of_find?_eq_some found
  simp only [testRules, graphOf, List.mem_cons, List.not_mem_nil, or_false] at listed
  rcases listed with rfl | rfl | rfl
  · obtain rfl : testImg = name := Builder.findRule_name found
    exact .here fromImg
  · obtain rfl : testElf = name := Builder.findRule_name found
    exact .next imgDeps (by simp) (.here fromElf)
  · obtain rfl : bootBin = name := Builder.findRule_name found
    exact .next imgDeps (by simp) (.next elfDeps (by simp) (.here .refl))

end Examples

end Zeptux.Zbuild
