import Mathlib.Data.Finset.Card
import Zeptux.Lib.FirstPath
import Zeptux.ZbuildBuilder

/-!
The depth-first run of `run_build` over an arbitrary graph of rules: it ends, it executes no
rule twice, and without cycles it executes a rule only after what the rule depends on.
-/

namespace Zeptux.Zbuild

open Strings Procedure Relation

variable {ω : Type} {sys : System ω} {b middle after : Builder ω}

def Builder.deps (b : Builder ω) (name : Text) : List Text :=
  ((b.findRule name).map Rule.ruleDeps).getD []

def Builder.DependsOn (b : Builder ω) : Text → Text → Prop := FirstPath.DependsOn b.deps

def Builder.Reaches (b : Builder ω) : Text → Text → Prop := FirstPath.Reaches b.deps

theorem Builder.deps_of_found {name : Text} {rule : Rule} (found : b.findRule name = some rule) :
    b.deps name = rule.ruleDeps := by
  rw [Builder.deps, found]
  rfl

theorem Builder.dependsOn_of_mem {name dep : Text} {deps : List Text} (same : b.deps name = deps)
    (depends : dep ∈ deps) : b.DependsOn name dep := by
  rw [Builder.DependsOn, FirstPath.DependsOn, same]
  exact depends

/-- The same rules but for what `get_changed_file_deps` does to them. -/
structure SameRules (b after : Builder ω) : Prop where
  names : after.rules.map Rule.name = b.rules.map Rule.name
  cores : ∀ name, (after.findRule name).map Rule.core = (b.findRule name).map Rule.core

namespace SameRules

theorem refl (b : Builder ω) : SameRules b b := ⟨rfl, fun _ => rfl⟩

theorem trans (first : SameRules b middle) (second : SameRules middle after) :
    SameRules b after :=
  ⟨second.names.trans first.names, fun name => (second.cores name).trans (first.cores name)⟩

theorem deps (same : SameRules b after) : after.deps = b.deps := by
  funext name
  have mapped := congrArg (Option.map Rule.ruleDeps) (same.cores name)
  rw [Option.map_map, Option.map_map] at mapped
  exact congrArg (Option.getD · []) mapped

end SameRules

theorem Builder.findRule_name {name : Text} {rule : Rule} (found : b.findRule name = some rule) :
    rule.name = name := by
  simpa using List.find?_some found

theorem Builder.findRule_setRule (b : Builder ω) (rule : Rule) (name : Text) :
    (b.setRule rule).findRule name =
      (b.findRule name).map fun old => if old.name = rule.name then rule else old := by
  rw [findRule, findRule, setRule, List.find?_map]
  congr 2
  funext old
  by_cases same : old.name = rule.name <;> simp [same]

theorem SameRules.setRule (same : SameRules b after) {rule : Rule}
    (known : (b.findRule rule.name).map Rule.core = some rule.core) :
    SameRules b (after.setRule rule) := by
  constructor
  · rw [← same.names, Builder.setRule, List.map_map]
    refine List.map_congr_left fun old _ => ?_
    by_cases named : old.name = rule.name <;> simp [named]
  · intro name
    rw [Builder.findRule_setRule, ← same.cores]
    cases found : after.findRule name with
    | none => rfl
    | some old =>
        by_cases named : old.name = rule.name
        · have kept := same.cores name
          rw [found, ← Builder.findRule_name found, named, known] at kept
          simpa [named] using kept.symm
        · simp [named]

structure Quiet (b after : Builder ω) : Prop where
  rules : SameRules b after
  done : after.ruleIsDone = b.ruleIsDone
  trace : after.trace = b.trace

theorem Quiet.refl (b : Builder ω) : Quiet b b := ⟨.refl b, rfl, rfl⟩

/-- Every error but running out of fuel, which only `run_build` itself can end with. -/
def Finite (stop : Stop) : Prop := stop ≠ .outOfFuel

theorem quiet_unnoticed (b : Builder ω) : Unnoticed (Quiet b) Finite where
  fatal _ := nofun
  failed _ := nofun
  runtimeError := nofun
  world _ _ quiet := ⟨⟨quiet.rules.names, quiet.rules.cores⟩, quiet.done, quiet.trace⟩
  compared _ _ quiet := ⟨⟨quiet.rules.names, quiet.rules.cores⟩, quiet.done, quiet.trace⟩
  seen _ _ _ quiet := ⟨⟨quiet.rules.names, quiet.rules.cores⟩, quiet.done, quiet.trace⟩
  deferred _ _ _ _ _ _ := .inl nofun

theorem ruleChanged_keeps {rule : Rule}
    (known : (b.findRule rule.name).map Rule.core = some rule.core) :
    Keeps (Quiet b) Finite (ruleChanged sys rule) := by
  refine (getChangedFileDeps_meets (quiet_unnoticed b) _ _ _ _).bind fun out same => ?_
  have named : out.2.name = rule.name := by simpa [Rule.core] using congrArg Rule.name same
  refine (Meets.modify fun after quiet => ?_).bind fun _ _ => Meets.pure trivial
  exact ⟨quiet.rules.setRule (by rw [named, known, same]), quiet.done, quiet.trace⟩

theorem execBuild_quiet (sys : System ω) (rule : Rule) (target : Text) (b : Builder ω) :
    Quiet (b.record (.executed rule.name)) ((execBuild sys rule target).call b).2 ∧
      ∀ err, ((execBuild sys rule target).call b).1 = .error err → Finite err := by
  have basic := (quiet_unnoticed (b.record (.executed rule.name))).toUndisturbed
  have rest (msg : Text) : Keeps (Quiet (b.record (.executed rule.name))) Finite (do
      execAll sys msg rule.shellCommands
      if rule.isMulti then touch sys target else return) := by
    refine (execAll_keeps basic _ _).bind fun _ _ => ?_
    split
    · exact touch_keeps basic target
    · exact Meets.pure trivial
  rw [execBuild, call_bind_ok b (call_modify b _)]
  exact (rest _).outcome (Quiet.refl _)

/-- The command that `bash` is given; a leading `@` keeps it out of the log. -/
def commandOf : Text → Text
  | [] => []
  | chr :: rest => if chr = '@'.toUInt8 then rest else chr :: rest

def System.bashAll (sys : System ω) (shellCommands : List Text) (world : ω) : ω :=
  shellCommands.foldl (fun world shell => (sys.bash (commandOf shell) world).2) world

theorem shellExec_returned {shell : Text} {succeeded : Bool}
    (called : (shellExec sys shell).call b = (.ok succeeded, after)) :
    after = { b with world := sys.bashAll [shell] b.world } := by
  cases shell with
  | nil => cases called
  | cons chr rest =>
      obtain ⟨ending, middle, ran, called⟩ := bind_returned called
      cases ran
      split at called
      · cases called
        rfl
      · cases called
        rfl
      · cases called

theorem stopIf_returned {cond : Prop} [Decidable cond] {stop : Stop} {done : Unit}
    (called : (stopIf cond stop : Build ω Unit).call b = (.ok done, after)) : ¬cond ∧ b = after := by
  rw [stopIf] at called
  split at called
  · cases called
  · cases called
    exact ⟨‹¬cond›, rfl⟩

theorem execAll_returned {msg : Text} {shellCommands : List Text}
    (called : (execAll sys msg shellCommands).call b = (.ok (), after)) :
    after = { b with world := sys.bashAll shellCommands b.world } := by
  induction shellCommands generalizing b with
  | nil =>
      cases called
      rfl
  | cons shell shellCommands ih =>
      rw [execAll, List.forM_eq_forM, List.forM_cons] at called
      obtain ⟨_, middle, each, rest⟩ := bind_returned called
      obtain ⟨succeeded, last, ran, passed⟩ := bind_returned each
      obtain ⟨-, rfl⟩ := stopIf_returned passed
      rw [ih rest, shellExec_returned ran]
      rfl

/-- A rule that is executed gives its commands to `bash`, each of them once and in order. -/
theorem execBuild_returned {rule : Rule} {target : Text} (single : rule.isMulti = false)
    (called : (execBuild sys rule target).call b = (.ok (), after)) :
    after = { b.record (.executed rule.name) with
      world := sys.bashAll rule.shellCommands b.world } := by
  obtain ⟨_, recorded, event, called⟩ := bind_returned called
  cases event
  obtain ⟨_, last, commands, called⟩ := bind_returned called
  rw [if_neg (by simp [single])] at called
  cases called
  exact execAll_returned commands

inductive RuleRun (run : Text → Build ω Bool) (rule : Rule) (b : Builder ω) :
    Except Stop Bool → Builder ω → Prop
  | unchecked {err : Stop} {after : Builder ω} (finite : Finite err) (checked : Quiet b after) :
      RuleRun run rule b (.error err) after
  | stopped {err : Stop} {changed : Bool} {middle after : Builder ω} (checked : Quiet b middle)
      (deps : (runDeps run rule.ruleDeps changed).call (middle.markDone rule.name) =
        (.error err, after)) :
      RuleRun run rule b (.error err) after
  | skipped {changed : Bool} {middle after : Builder ω} (checked : Quiet b middle)
      (deps : (runDeps run rule.ruleDeps changed).call (middle.markDone rule.name) =
        (.ok false, after)) :
      RuleRun run rule b (.ok false) (after.record (.completed rule.name))
  | failed {err : Stop} {changed ran : Bool} {middle before after : Builder ω}
      (finite : Finite err) (checked : Quiet b middle)
      (deps : (runDeps run rule.ruleDeps changed).call (middle.markDone rule.name) =
        (.ok ran, before))
      (executed : Quiet (before.record (.executed rule.name)) after) :
      RuleRun run rule b (.error err) after
  | executed {changed ran : Bool} {middle before after : Builder ω} (checked : Quiet b middle)
      (deps : (runDeps run rule.ruleDeps changed).call (middle.markDone rule.name) =
        (.ok ran, before))
      (executed : Quiet (before.record (.executed rule.name)) after) :
      RuleRun run rule b (.ok true) (after.record (.completed rule.name))

def System.exists (sys : System ω) (dir name : Text) (b : Builder ω) : Bool :=
  match sys.stat (joinPath dir name) b.world with
  | .found _ _ => true
  | _ => false

theorem fileExists_call (dir name : Text) (b : Builder ω) :
    (fileExists sys dir name).call b = (.ok (sys.exists dir name b), b) := by
  have stat : (statFile sys (joinPath dir name)).call b =
      (.ok (sys.stat (joinPath dir name) b.world), b) := rfl
  rw [fileExists, call_bind_ok b stat, System.exists]
  cases sys.stat (joinPath dir name) b.world <;> rfl

theorem runRule_cases (sys : System ω) (run : Text → Build ω Bool) {rule : Rule}
    (found : b.findRule rule.name = some rule) :
    RuleRun run rule b ((runRule sys run rule).call b).1 ((runRule sys run rule).call b).2 := by
  have known : (b.findRule rule.name).map Rule.core = some rule.core := by rw [found]; rfl
  have check : Keeps (Quiet b) Finite (ruleChanged sys rule) := ruleChanged_keeps known
  obtain ⟨checked, finite⟩ := check.outcome (Quiet.refl b)
  rw [runRule, call_bind]
  rcases called : (ruleChanged sys rule).call b with ⟨err | changed, middle⟩
  · rw [called] at checked finite
    exact .unchecked (finite err rfl) checked
  rw [called] at checked
  simp only
  rw [call_bind_ok middle (call_modify middle _), call_bind]
  rcases deps : (runDeps run rule.ruleDeps changed).call (middle.markDone rule.name) with
    ⟨err | ran, before⟩
  · exact .stopped checked deps
  simp only
  rw [call_bind_ok before (fileExists_call _ _ before)]
  generalize decision : (ran || rule.isPhony || !sys.exists [] rule.stamp before) = shouldExec
  cases shouldExec with
  | false =>
      have idle : ran = false := by
        cases ran with
        | false => rfl
        | true => simp at decision
      rw [idle] at deps
      exact .skipped checked deps
  | true =>
      rw [if_pos rfl, call_bind]
      have ending := execBuild_quiet sys rule rule.stamp before
      rcases ended : (execBuild sys rule rule.stamp).call before with ⟨err | _, last⟩
      · rw [ended] at ending
        exact .failed (ending.2 err rfl) checked deps ending.1
      · rw [ended] at ending
        exact .executed checked deps ending.1

/-- What a run does between two states: rules are only added to those that are done, and the
rules executed on the way were not done before and are done after. -/
structure Ran (b after : Builder ω) : Prop where
  rules : SameRules b after
  done : b.ruleIsDone ⊆ after.ruleIsDone
  trace : ∃ events, after.trace = b.trace ++ events ∧
    (∀ name, .executed name ∈ events → name ∉ b.ruleIsDone ∧ name ∈ after.ruleIsDone) ∧
    ∀ name, events.count (.executed name) ≤ 1

namespace Ran

theorem of_quiet (quiet : Quiet b after) : Ran b after :=
  ⟨quiet.rules, quiet.done ▸ List.Subset.refl _, [], by simp [quiet.trace], by simp, by simp⟩

theorem refl (b : Builder ω) : Ran b b := of_quiet (.refl b)

theorem trans (first : Ran b middle) (second : Ran middle after) : Ran b after := by
  obtain ⟨early, earlyTrace, earlyDone, earlyOnce⟩ := first.trace
  obtain ⟨late, lateTrace, lateDone, lateOnce⟩ := second.trace
  refine ⟨first.rules.trans second.rules, fun name inside => second.done (first.done inside),
    early ++ late, by rw [lateTrace, earlyTrace, List.append_assoc], ?_, ?_⟩
  · intro name inside
    rcases List.mem_append.mp inside with inside | inside
    · exact ⟨(earlyDone name inside).1, second.done (earlyDone name inside).2⟩
    · exact ⟨fun before => (lateDone name inside).1 (first.done before), (lateDone name inside).2⟩
  · intro name
    rw [List.count_append]
    by_cases inside : RunEvent.executed name ∈ early
    · have absent : late.count (.executed name) = 0 :=
        List.count_eq_zero.mpr fun again => (lateDone name again).1 (earlyDone name inside).2
      have := earlyOnce name
      omega
    · have absent : early.count (.executed name) = 0 := List.count_eq_zero.mpr inside
      have := lateOnce name
      omega

theorem completed (ran : Ran b after) {name : Text} (before : .completed name ∈ b.trace) :
    .completed name ∈ after.trace := by
  obtain ⟨events, extended, -⟩ := ran.trace
  rw [extended]
  exact List.mem_append_left _ before

theorem markDone (b : Builder ω) (name : Text) : Ran b (b.markDone name) :=
  ⟨⟨rfl, fun _ => rfl⟩, List.subset_cons_self _ _, [], by simp [Builder.markDone], by simp, by simp⟩

theorem complete (b : Builder ω) (name : Text) : Ran b (b.record (.completed name)) :=
  ⟨⟨rfl, fun _ => rfl⟩, List.Subset.refl _, [.completed name], rfl, by simp, by simp⟩

theorem execute {name : Text} (fresh : name ∉ b.ruleIsDone)
    (ran : Ran (b.markDone name) after) : Ran b (after.record (.executed name)) := by
  obtain ⟨events, extended, done, once⟩ := ran.trace
  have marked : name ∈ (b.markDone name).ruleIsDone := List.mem_cons_self
  refine ⟨⟨ran.rules.names, ran.rules.cores⟩, fun other inside => ran.done (.tail _ inside),
    events ++ [.executed name], ?_, ?_, ?_⟩
  · simp only [Builder.record, extended, List.append_assoc]
    rfl
  · intro other inside
    rcases List.mem_append.mp inside with inside | inside
    · exact ⟨fun before => (done other inside).1 (.tail _ before), (done other inside).2⟩
    · obtain rfl : other = name := by simpa using inside
      exact ⟨fresh, ran.done marked⟩
  · intro other
    rw [List.count_append]
    by_cases same : other = name
    · subst same
      have absent : events.count (.executed other) = 0 :=
        List.count_eq_zero.mpr fun inside => (done other inside).1 marked
      simp [absent]
    · simpa [Ne.symm same] using once other

end Ran

theorem runDeps_ran {run : Text → Build ω Bool} (each : ∀ name b, Ran b ((run name).call b).2)
    (deps : List Text) (shouldExec : Bool) (b : Builder ω) :
    Ran b ((runDeps run deps shouldExec).call b).2 := by
  induction deps generalizing b shouldExec with
  | nil => exact .refl b
  | cons dep deps ih =>
      have first := each dep b
      rw [runDeps, call_bind]
      rcases called : (run dep).call b with ⟨err | ran, middle⟩
      · rw [called] at first
        exact first
      · rw [called] at first
        exact first.trans (ih _ middle)

theorem RuleRun.ran {run : Text → Build ω Bool} {rule : Rule} {result : Except Stop Bool}
    (each : ∀ name b, Ran b ((run name).call b).2) (fresh : rule.name ∉ b.ruleIsDone)
    (step : RuleRun run rule b result after) : Ran b after := by
  have afterDeps {changed : Bool} {outcome : Except Stop Bool} {middle before : Builder ω}
      (deps : (runDeps run rule.ruleDeps changed).call (middle.markDone rule.name) =
        (outcome, before)) : Ran (middle.markDone rule.name) before := by
    simpa [deps] using runDeps_ran each rule.ruleDeps changed (middle.markDone rule.name)
  cases step with
  | unchecked finite checked => exact .of_quiet checked
  | stopped checked deps =>
      exact (Ran.of_quiet checked).trans ((Ran.markDone _ _).trans (afterDeps deps))
  | skipped checked deps =>
      have ran := (Ran.of_quiet checked).trans ((Ran.markDone _ _).trans (afterDeps deps))
      exact ran.trans (.complete _ _)
  | failed finite checked deps executed =>
      have ran := Ran.execute (checked.done ▸ fresh) (afterDeps deps)
      exact (Ran.of_quiet checked).trans (ran.trans (.of_quiet executed))
  | executed checked deps executed =>
      have ran := Ran.execute (checked.done ▸ fresh) (afterDeps deps)
      exact (Ran.of_quiet checked).trans ((ran.trans (.of_quiet executed)).trans (.complete _ _))

inductive BuildRun (run : Text → Build ω Bool) (name : Text) (b : Builder ω) :
    Except Stop Bool → Builder ω → Prop
  | unknown {msg : Text} (missing : b.findRule name = none) :
      BuildRun run name b (.error (.fatal msg)) b
  | visited (done : name ∈ b.ruleIsDone) : BuildRun run name b (.ok false) b
  | fresh {rule : Rule} {result : Except Stop Bool} {after : Builder ω}
      (found : b.findRule name = some rule) (named : rule.name = name)
      (undone : rule.name ∉ b.ruleIsDone) (step : RuleRun run rule b result after) :
      BuildRun run name b result after

theorem runBuild_cases {fuel : Nat} {name : Text} {result : Except Stop Bool}
    (called : (runBuild sys (fuel + 1) name).call b = (result, after)) :
    BuildRun (runBuild sys fuel) name b result after := by
  rw [runBuild, call_bind_ok b (call_get b)] at called
  cases found : b.findRule name with
  | none =>
      rw [found] at called
      cases called
      exact .unknown found
  | some rule =>
      have named := Builder.findRule_name found
      rw [found] at called
      by_cases done : name ∈ b.ruleIsDone
      · simp only [if_pos done] at called
        cases called
        exact .visited done
      · simp only [if_neg done] at called
        have step := runRule_cases sys (runBuild sys fuel) (named ▸ found)
        rw [called] at step
        exact .fresh found named (named ▸ done) step

theorem runBuild_ran (fuel : Nat) (name : Text) (b : Builder ω) :
    Ran b ((runBuild sys fuel name).call b).2 := by
  induction fuel generalizing name b with
  | zero => exact .refl b
  | succ fuel ih =>
      rcases called : (runBuild sys (fuel + 1) name).call b with ⟨result, after⟩
      cases runBuild_cases called with
      | unknown missing => exact .refl b
      | visited done => exact .refl b
      | fresh found named undone step => exact step.ran ih undone

section Termination

def Builder.undone (b : Builder ω) : Finset Text :=
  (b.rules.map Rule.name).toFinset \ b.ruleIsDone.toFinset

theorem Builder.undone_card_le (b : Builder ω) : b.undone.card ≤ b.rules.length := by
  calc b.undone.card
    _ ≤ (b.rules.map Rule.name).toFinset.card := Finset.card_le_card Finset.sdiff_subset
    _ ≤ (b.rules.map Rule.name).length := List.toFinset_card_le _
    _ = b.rules.length := List.length_map ..

theorem Ran.undone (ran : Ran b after) : after.undone ⊆ b.undone := by
  intro name inside
  simp only [Builder.undone, Finset.mem_sdiff, List.mem_toFinset, ran.rules.names] at inside ⊢
  exact ⟨inside.1, fun before => inside.2 (ran.done before)⟩

theorem Quiet.undone_markDone {name : Text} (quiet : Quiet b middle)
    (listed : name ∈ b.rules.map Rule.name) (fresh : name ∉ b.ruleIsDone) :
    (middle.markDone name).undone.card < b.undone.card := by
  apply Finset.card_lt_card
  have fewer := ((Ran.of_quiet quiet).trans (.markDone middle name)).undone
  refine Finset.ssubset_iff_subset_ne.mpr ⟨fewer, fun same => ?_⟩
  have before : name ∈ b.undone := by
    simpa [Builder.undone, fresh] using listed
  rw [← same] at before
  simp [Builder.undone, Builder.markDone] at before

theorem runDeps_finite {run : Text → Build ω Bool} {bound : Nat}
    (each : ∀ name b, Ran b ((run name).call b).2)
    (ends : ∀ name (b : Builder ω), b.undone.card < bound →
      ((run name).call b).1 ≠ .error .outOfFuel)
    (deps : List Text) (shouldExec : Bool) (b : Builder ω) (enough : b.undone.card < bound) :
    ((runDeps run deps shouldExec).call b).1 ≠ .error .outOfFuel := by
  induction deps generalizing b shouldExec with
  | nil => exact nofun
  | cons dep deps ih =>
      have first := each dep b
      have ended := ends dep b enough
      rw [runDeps, call_bind]
      rcases called : (run dep).call b with ⟨err | ran, middle⟩
      · rw [called] at ended
        exact ended
      · rw [called] at first
        exact ih _ middle (lt_of_le_of_lt (Finset.card_le_card first.undone) enough)

theorem runBuild_finite (fuel : Nat) (name : Text) (b : Builder ω) (enough : b.undone.card < fuel) :
    ((runBuild sys fuel name).call b).1 ≠ .error .outOfFuel := by
  induction fuel generalizing name b with
  | zero => omega
  | succ fuel ih =>
      rcases called : (runBuild sys (fuel + 1) name).call b with ⟨result, after⟩
      cases runBuild_cases called with
      | unknown missing => exact nofun
      | visited done => exact nofun
      | @fresh rule _ _ found named undone step =>
          cases step with
          | unchecked finite checked => exact fun same => finite (Except.error.inj same)
          | @stopped err changed middle after checked deps =>
              have listed := List.mem_map_of_mem (f := Rule.name) (List.mem_of_find?_eq_some found)
              have fewer := checked.undone_markDone listed undone
              have ends := runDeps_finite (runBuild_ran fuel) ih rule.ruleDeps changed
                (middle.markDone rule.name) (lt_of_lt_of_le fewer (Nat.lt_succ_iff.mp enough))
              rw [deps] at ends
              exact ends
          | failed finite checked deps executed => exact fun same => finite (Except.error.inj same)
          | skipped checked deps => exact nofun
          | executed checked deps executed => exact nofun

/-- With a loop body that only ever adds results where the other ran out of fuel, the loop does
the same as long as it does not run out itself. -/
theorem runDeps_agree {run more : Text → Build ω Bool}
    (agree : ∀ name b, ((run name).call b).1 ≠ .error .outOfFuel →
      (more name).call b = (run name).call b)
    (deps : List Text) (shouldExec : Bool) (b : Builder ω)
    (ended : ((runDeps run deps shouldExec).call b).1 ≠ .error .outOfFuel) :
    (runDeps more deps shouldExec).call b = (runDeps run deps shouldExec).call b := by
  induction deps generalizing b shouldExec with
  | nil => rfl
  | cons dep deps ih =>
      rw [runDeps, call_bind] at ended ⊢
      rw [runDeps, call_bind]
      rcases called : (run dep).call b with ⟨err | ran, middle⟩
      · rw [called] at ended
        rw [agree dep b (by rw [called]; exact ended), called]
      · rw [called] at ended
        rw [agree dep b (by rw [called]; exact nofun), called]
        exact ih _ middle ended

theorem runRule_agree {run more : Text → Build ω Bool}
    (agree : ∀ name b, ((run name).call b).1 ≠ .error .outOfFuel →
      (more name).call b = (run name).call b)
    (rule : Rule) (b : Builder ω)
    (ended : ((runRule sys run rule).call b).1 ≠ .error .outOfFuel) :
    (runRule sys more rule).call b = (runRule sys run rule).call b := by
  rw [runRule, call_bind] at ended ⊢
  rw [runRule, call_bind]
  rcases checked : (ruleChanged sys rule).call b with ⟨err | changed, middle⟩
  · rfl
  rw [checked] at ended
  simp only at ended ⊢
  rw [call_bind_ok middle (call_modify middle _), call_bind] at ended ⊢
  rw [call_bind_ok middle (call_modify middle _), call_bind]
  rw [runDeps_agree agree]
  rcases deps : (runDeps run rule.ruleDeps changed).call (middle.markDone rule.name) with
    ⟨err | ran, before⟩
  · rw [deps] at ended
    exact ended
  · exact nofun

theorem runBuild_succ (fuel : Nat) (name : Text) (b : Builder ω)
    (ended : ((runBuild sys fuel name).call b).1 ≠ .error .outOfFuel) :
    (runBuild sys (fuel + 1) name).call b = (runBuild sys fuel name).call b := by
  induction fuel generalizing name b with
  | zero => exact absurd rfl ended
  | succ fuel ih =>
      rw [runBuild, call_bind_ok b (call_get b)] at ended ⊢
      rw [runBuild, call_bind_ok b (call_get b)]
      cases found : b.findRule name with
      | none => rfl
      | some rule =>
          rw [found] at ended
          by_cases done : name ∈ b.ruleIsDone
          · simp only [if_pos done]
          · simp only [if_neg done] at ended ⊢
            exact runRule_agree ih rule b ended

/-- Any two amounts of fuel above the number of rules give the same run. -/
theorem runBuild_enough {fuel : Nat} (name : Text) (b : Builder ω) (enough : b.undone.card < fuel)
    (extra : Nat) : (runBuild sys (fuel + extra) name).call b = (runBuild sys fuel name).call b := by
  induction extra with
  | zero => rfl
  | succ extra ih =>
      rw [← Nat.add_assoc, runBuild_succ _ _ _ (runBuild_finite _ _ _ (by omega)), ih]

end Termination

section Order

variable {graph : Builder ω}

/-- Every execution of a rule comes after the completion of all it depends on. -/
def Builder.Ordered (graph : Builder ω) (trace : List RunEvent) : Prop :=
  ∀ before name rest, trace = before ++ .executed name :: rest →
    ∀ dep, TransGen graph.DependsOn name dep → .completed dep ∈ before

theorem Builder.Ordered.snoc {trace : List RunEvent} (ordered : graph.Ordered trace)
    {event : RunEvent} (fits : ∀ name, event = .executed name →
      ∀ dep, TransGen graph.DependsOn name dep → .completed dep ∈ trace) :
    graph.Ordered (trace ++ [event]) := by
  intro before name rest split dep depends
  rcases List.eq_nil_or_concat rest with rfl | ⟨front, last, rfl⟩
  · obtain ⟨rfl, same⟩ := List.append_inj' split rfl
    exact fits name (by simpa using same) dep depends
  · rw [List.concat_eq_append, ← List.cons_append, ← List.append_assoc] at split
    obtain ⟨same, -⟩ := List.append_inj' split rfl
    exact ordered before name front same dep depends

/-- Below this rule, whatever is done is completed with all it depends on. -/
def Builder.Settled (graph b : Builder ω) (name : Text) : Prop :=
  ∀ rule, graph.Reaches name rule → rule ∈ b.ruleIsDone →
    ∀ dep, graph.Reaches rule dep → .completed dep ∈ b.trace

structure Finishes (graph : Builder ω) (names : List Text) (b : Builder ω)
    (result : Except Stop Bool) (after : Builder ω) : Prop where
  ordered : graph.Ordered after.trace
  done : ∀ rule ∈ after.ruleIsDone, rule ∈ b.ruleIsDone ∨ ∃ name ∈ names, graph.Reaches name rule
  completed : ∀ ran, result = .ok ran →
    ∀ name ∈ names, ∀ dep, graph.Reaches name dep → .completed dep ∈ after.trace

theorem runDeps_finishes {run : Text → Build ω Bool} {deps : List Text}
    (ran : ∀ name b, Ran b ((run name).call b).2)
    (each : ∀ name ∈ deps, ∀ b, SameRules graph b → graph.Settled b name →
      graph.Ordered b.trace → Finishes graph [name] b ((run name).call b).1 ((run name).call b).2)
    (shouldExec : Bool) (same : SameRules graph b) (settled : ∀ name ∈ deps, graph.Settled b name)
    (ordered : graph.Ordered b.trace) :
    Finishes graph deps b ((runDeps run deps shouldExec).call b).1
      ((runDeps run deps shouldExec).call b).2 := by
  induction deps generalizing b shouldExec with
  | nil => exact ⟨ordered, fun _ inside => .inl inside, by simp⟩
  | cons dep deps ih =>
      have first := each dep (by simp) b same (settled dep (by simp)) ordered
      have step := ran dep b
      rw [runDeps, call_bind]
      rcases called : (run dep).call b with ⟨err | value, middle⟩
      · rw [called] at first
        refine ⟨first.ordered, fun rule inside => ?_, nofun⟩
        exact (first.done rule inside).imp_right fun ⟨name, named, reaches⟩ =>
          ⟨name, by simpa using .inl (List.mem_singleton.mp named), reaches⟩
      · rw [called] at first step
        have below : ∀ name ∈ deps, graph.Settled middle name := by
          intro name inside rule reaches done other further
          rcases first.done rule done with before | ⟨name, named, reached⟩
          · exact step.completed (settled _ (by simp [inside]) rule reaches before other further)
          · exact first.completed value rfl name named other (reached.trans further)
        have rest := ih (fun name inside => each name (by simp [inside])) (shouldExec || value)
          (same.trans step.rules) below first.ordered
        have last := runDeps_ran ran deps (shouldExec || value) middle
        refine ⟨rest.ordered, ?_, ?_⟩
        · intro rule inside
          rcases rest.done rule inside with before | ⟨name, named, reached⟩
          · refine (first.done rule before).imp_right fun ⟨name, named, reached⟩ => ?_
            exact ⟨name, by simpa using .inl (List.mem_singleton.mp named), reached⟩
          · exact .inr ⟨name, by simp [named], reached⟩
        · intro ran ended name named other reaches
          rcases List.mem_cons.mp named with rfl | later
          · exact last.completed (first.completed value rfl _ (by simp) other reaches)
          · exact rest.completed ran ended name later other reaches

def Builder.AcyclicFrom (graph : Builder ω) (name : Text) : Prop :=
  ∀ rule, graph.Reaches name rule → ¬TransGen graph.DependsOn rule rule

theorem Builder.AcyclicFrom.dep {name dep : Text} (acyclic : graph.AcyclicFrom name)
    (depends : graph.DependsOn name dep) : graph.AcyclicFrom dep :=
  fun rule reaches => acyclic rule (.head depends reaches)

theorem Builder.Settled.markDone {name : Text} (settled : graph.Settled b name)
    (acyclic : graph.AcyclicFrom name) (checked : Quiet b middle) :
    ∀ dep ∈ graph.deps name, graph.Settled (middle.markDone name) dep := by
  intro dep depends rule reaches done other further
  have trace : (middle.markDone name).trace = b.trace := checked.trace
  rw [trace]
  rcases List.mem_cons.mp done with rfl | before
  · exact absurd (TransGen.head' depends reaches) (acyclic rule .refl)
  · rw [checked.done] at before
    exact settled rule (.head depends reaches) before other further

section Rule

variable {rule : Rule} {before last : Builder ω} {result outcome : Except Stop Bool}

theorem Finishes.done_of_deps (deps : graph.deps rule.name = rule.ruleDeps)
    (checked : Quiet b middle)
    (finished : Finishes graph rule.ruleDeps (middle.markDone rule.name) outcome before) :
    ∀ name ∈ before.ruleIsDone,
      name ∈ b.ruleIsDone ∨ ∃ other ∈ [rule.name], graph.Reaches other name := by
  intro name inside
  rcases finished.done name inside with early | ⟨dep, depends, reaches⟩
  · rcases List.mem_cons.mp early with rfl | early
    · exact .inr ⟨rule.name, by simp, .refl⟩
    · exact .inl (checked.done ▸ early)
  · have direct := Builder.dependsOn_of_mem deps depends
    exact .inr ⟨rule.name, by simp, .head direct reaches⟩

theorem Finishes.below (deps : graph.deps rule.name = rule.ruleDeps) {ran : Bool}
    (finished : Finishes graph rule.ruleDeps (middle.markDone rule.name) (.ok ran) before)
    {other : Text} (depends : TransGen graph.DependsOn rule.name other) :
    .completed other ∈ before.trace := by
  obtain ⟨dep, depends, reaches⟩ := TransGen.head'_iff.mp depends
  exact finished.completed ran rfl dep (deps ▸ depends) other reaches

theorem Finishes.execute (deps : graph.deps rule.name = rule.ruleDeps) (checked : Quiet b middle)
    {ran : Bool}
    (finished : Finishes graph rule.ruleDeps (middle.markDone rule.name) (.ok ran) before)
    (executed : Quiet (before.record (.executed rule.name)) last) :
    graph.Ordered last.trace ∧
      (∀ name ∈ last.ruleIsDone,
        name ∈ b.ruleIsDone ∨ ∃ other ∈ [rule.name], graph.Reaches other name) ∧
      ∀ other, TransGen graph.DependsOn rule.name other → .completed other ∈ last.trace := by
  have done : last.ruleIsDone = before.ruleIsDone := executed.done
  rw [executed.trace, done]
  refine ⟨finished.ordered.snoc ?_, finished.done_of_deps deps checked, ?_⟩
  · rintro name ⟨⟩ dep depends
    exact finished.below deps depends
  · exact fun other depends => List.mem_append_left _ (finished.below deps depends)

theorem Finishes.complete {name : Text} {ran : Bool} (ordered : graph.Ordered last.trace)
    (done : ∀ rule ∈ last.ruleIsDone,
      rule ∈ b.ruleIsDone ∨ ∃ other ∈ [name], graph.Reaches other rule)
    (below : ∀ other, TransGen graph.DependsOn name other → .completed other ∈ last.trace) :
    Finishes graph [name] b (.ok ran) (last.record (.completed name)) := by
  refine ⟨ordered.snoc nofun, done, fun _ _ other named dep reaches => ?_⟩
  obtain rfl := List.mem_singleton.mp named
  rcases ReflTransGen.cases_head reaches with rfl | ⟨next, depends, reaches⟩
  · simp [Builder.record]
  · exact List.mem_append_left _ (below dep (.head' depends reaches))

theorem RuleRun.finishes {run : Text → Build ω Bool}
    (loop : ∀ changed middle, Quiet b middle →
      Finishes graph rule.ruleDeps (middle.markDone rule.name)
        ((runDeps run rule.ruleDeps changed).call (middle.markDone rule.name)).1
        ((runDeps run rule.ruleDeps changed).call (middle.markDone rule.name)).2)
    (deps : graph.deps rule.name = rule.ruleDeps) (ordered : graph.Ordered b.trace)
    (step : RuleRun run rule b result after) : Finishes graph [rule.name] b result after := by
  cases step with
  | unchecked finite checked =>
      exact ⟨checked.trace ▸ ordered, fun name inside => .inl (checked.done ▸ inside), nofun⟩
  | @stopped err changed middle after checked ended =>
      have finished := loop changed middle checked
      rw [ended] at finished
      exact ⟨finished.ordered, finished.done_of_deps deps checked, nofun⟩
  | @skipped changed middle before checked ended =>
      have finished := loop changed middle checked
      rw [ended] at finished
      exact .complete finished.ordered (finished.done_of_deps deps checked)
        fun _ depends => finished.below deps depends
  | @failed err changed ran middle before after finite checked ended executed =>
      have finished := loop changed middle checked
      rw [ended] at finished
      obtain ⟨ordered, done, -⟩ := finished.execute deps checked executed
      exact ⟨ordered, done, nofun⟩
  | @executed changed ran middle before last checked ended executed =>
      have finished := loop changed middle checked
      rw [ended] at finished
      obtain ⟨ordered, done, below⟩ := finished.execute deps checked executed
      exact .complete ordered done below

end Rule

theorem runBuild_finishes (fuel : Nat) (name : Text) (b : Builder ω) (same : SameRules graph b)
    (acyclic : graph.AcyclicFrom name) (settled : graph.Settled b name)
    (ordered : graph.Ordered b.trace) :
    Finishes graph [name] b ((runBuild sys fuel name).call b).1
      ((runBuild sys fuel name).call b).2 := by
  induction fuel generalizing name b with
  | zero => exact ⟨ordered, fun _ inside => .inl inside, nofun⟩
  | succ fuel ih =>
      rcases called : (runBuild sys (fuel + 1) name).call b with ⟨result, after⟩
      cases runBuild_cases called with
      | unknown missing => exact ⟨ordered, fun _ inside => .inl inside, nofun⟩
      | visited done =>
          refine ⟨ordered, fun _ inside => .inl inside, fun _ _ other named => ?_⟩
          obtain rfl := List.mem_singleton.mp named
          exact settled other .refl done
      | @fresh rule _ _ found named undone step =>
          subst named
          have deps : graph.deps rule.name = rule.ruleDeps := by
            rw [← same.deps, Builder.deps_of_found found]
          refine step.finishes (fun changed middle checked => ?_) deps ordered
          have marked := settled.markDone acyclic checked
          rw [deps] at marked
          have sameMarked : SameRules graph (middle.markDone rule.name) :=
            same.trans (checked.rules.trans (Ran.markDone middle rule.name).rules)
          refine runDeps_finishes (runBuild_ran fuel) (fun dep depends b same settled ordered => ?_)
            changed sameMarked marked ?_
          · have direct := Builder.dependsOn_of_mem deps depends
            exact ih dep b same (acyclic.dep direct) settled ordered
          · exact checked.trace ▸ ordered

structure Fresh (b : Builder ω) : Prop where
  done : b.ruleIsDone = []
  trace : b.trace = []

/-- With as much fuel as there are rules and one more, `run_build` comes to an end and no more
fuel changes it. No rule is executed twice. If no rule it can reach depends on itself, a rule is
executed only when the runs of all it depends on are completed. -/
theorem runBuild_orderly (sys : System ω) (b : Builder ω) (start : Text) (fresh : Fresh b) :
    ∃ result after,
      (∀ fuel, b.rules.length < fuel → (runBuild sys fuel start).call b = (result, after)) ∧
      result ≠ .error .outOfFuel ∧
      (∀ name, after.trace.count (.executed name) ≤ 1) ∧
      (b.AcyclicFrom start → b.Ordered after.trace) := by
  have bound : b.undone.card < b.rules.length + 1 := Nat.lt_succ_of_le b.undone_card_le
  rcases called : (runBuild sys (b.rules.length + 1) start).call b with ⟨result, after⟩
  refine ⟨result, after, fun fuel enough => ?_, ?_, fun name => ?_, fun acyclic => ?_⟩
  · obtain ⟨extra, rfl⟩ := Nat.exists_eq_add_of_le enough
    rw [← called, ← runBuild_enough start b bound extra]
  · have finite : ((runBuild sys (b.rules.length + 1) start).call b).1 ≠ .error .outOfFuel :=
      runBuild_finite _ start b bound
    rw [called] at finite
    exact finite
  · have ran : Ran b ((runBuild sys (b.rules.length + 1) start).call b).2 :=
      runBuild_ran _ start b
    rw [called] at ran
    obtain ⟨events, extended, -, once⟩ := ran.trace
    rw [extended, fresh.trace]
    exact once name
  · have settled : b.Settled b start := by
      intro rule _ done
      rw [fresh.done] at done
      exact absurd done List.not_mem_nil
    have ordered : b.Ordered b.trace := by
      intro before name rest split
      simp [fresh.trace] at split
    have finished : Finishes b [start] b ((runBuild sys (b.rules.length + 1) start).call b).1
        ((runBuild sys (b.rules.length + 1) start).call b).2 :=
      runBuild_finishes _ start b (.refl b) acyclic settled ordered
    rw [called] at finished
    exact finished.ordered

theorem Builder.dependsOn_listed {name dep : Text} (depends : graph.DependsOn name dep) :
    ∃ rule ∈ graph.rules, rule.name = name ∧ dep ∈ rule.ruleDeps := by
  rw [DependsOn, FirstPath.DependsOn, deps] at depends
  cases found : graph.findRule name with
  | none => simp [found] at depends
  | some rule =>
      exact ⟨rule, List.mem_of_find?_eq_some found, findRule_name found, by simpa [found] using depends⟩

theorem Builder.acyclicFrom_of_rank (rank : Text → Nat)
    (lower : ∀ rule ∈ graph.rules, ∀ dep ∈ rule.ruleDeps, rank dep < rank rule.name)
    (start : Text) : graph.AcyclicFrom start := by
  have step (name dep : Text) (depends : graph.DependsOn name dep) : rank dep < rank name := by
    obtain ⟨rule, listed, rfl, inside⟩ := dependsOn_listed depends
    exact lower rule listed dep inside
  intro rule _ cycle
  have descends (name dep : Text) (path : TransGen graph.DependsOn name dep) :
      rank dep < rank name := by
    induction path with
    | single depends => exact step _ _ depends
    | tail path depends ih => exact lt_trans (step _ _ depends) ih
  exact lt_irrefl _ (descends rule rule cycle)

end Order

/-- A system on which nothing changes: the files are those given, and commands only succeed. -/
def stillSystem (files : List Text) : System Unit where
  stat name _ := if name ∈ files then .found false 0 else .notExist []
  readFile _ _ := .notExist
  glob _ _ := .ok []
  create _ _ := (none, ())
  chtimes _ _ := (none, ())
  bash _ _ := (.success, ())
  rangeOrder keys _ := (keys, ())
  rangeOrder_perm keys _ := .refl keys

def ruleOf (name : Text) (deps : List Text) : Rule :=
  ⟨name, [], name, [], false, false, deps, [], [lit "make"]⟩

def graphOf (rules : List Rule) : Builder Unit := { Builder.empty () with rules := rules }

def mutualRules : Builder Unit :=
  graphOf [ruleOf (lit "a") [lit "b", lit "a"], ruleOf (lit "b") [lit "a"]]

/-- A system without files, whose world is the list of the commands that `bash` was given. -/
def loggingSystem : System (List Text) where
  stat _ _ := .notExist []
  readFile _ _ := .notExist
  glob _ _ := .ok []
  create _ log := (none, log)
  chtimes _ log := (none, log)
  bash shell log := (.success, log ++ [shell])
  rangeOrder keys log := (keys, log)
  rangeOrder_perm keys _ := .refl keys

/-- `c` depends on `a` by itself and by way of `b`. -/
def diamondRules : Builder (List Text) :=
  { Builder.empty [] with
    rules := [{ ruleOf (lit "c") [lit "b", lit "a"] with shellCommands := [lit "ld", lit "strip"] },
      { ruleOf (lit "b") [lit "a"] with shellCommands := [lit "@cc b"] },
      { ruleOf (lit "a") [] with shellCommands := [lit "cc a"] }] }

def diamondRank (name : Text) : Nat :=
  if name = lit "c" then 2 else if name = lit "b" then 1 else 0

theorem small_graphs_orderly :
    (Fresh mutualRules ∧ ∃ result after,
      (∀ fuel, 2 < fuel →
        (runBuild (stillSystem []) fuel (lit "a")).call mutualRules = (result, after)) ∧
      result ≠ .error .outOfFuel ∧
      (∀ name, after.trace.count (.executed name) ≤ 1) ∧
      (mutualRules.AcyclicFrom (lit "a") → mutualRules.Ordered after.trace)) ∧
    ∃ after, (runBuild loggingSystem 4 (lit "c")).call diamondRules = (.ok true, after) ∧
      (∀ name, after.trace.count (.executed name) ≤ 1) ∧ diamondRules.Ordered after.trace ∧
      after.trace = [.executed (lit "a"), .completed (lit "a"), .executed (lit "b"),
        .completed (lit "b"), .executed (lit "c"), .completed (lit "c")] ∧
      after.world = [lit "cc a", lit "cc b", lit "ld", lit "strip"] := by
  refine ⟨⟨⟨rfl, rfl⟩, runBuild_orderly (stillSystem []) mutualRules (lit "a") ⟨rfl, rfl⟩⟩, ?_⟩
  obtain ⟨result, after, calls, -, once, ordered⟩ :=
    runBuild_orderly loggingSystem diamondRules (lit "c") ⟨rfl, rfl⟩
  have called := calls 4 (by decide)
  have acyclic : diamondRules.AcyclicFrom (lit "c") :=
    Builder.acyclicFrom_of_rank diamondRank (by decide +kernel) _
  have ends : ((runBuild loggingSystem 4 (lit "c")).call diamondRules).1.toOption = some true := by
    decide +kernel
  have trace : ((runBuild loggingSystem 4 (lit "c")).call diamondRules).2.trace =
      [.executed (lit "a"), .completed (lit "a"), .executed (lit "b"), .completed (lit "b"),
        .executed (lit "c"), .completed (lit "c")] := by decide +kernel
  have world : ((runBuild loggingSystem 4 (lit "c")).call diamondRules).2.world =
      [lit "cc a", lit "cc b", lit "ld", lit "strip"] := by decide +kernel
  rw [called] at ends trace world
  refine ⟨after, ?_, once, ordered acyclic, trace, world⟩
  cases result with
  | error err => cases ends
  | ok ran =>
      cases ends
      exact called

end Zeptux.Zbuild
