import Zeptux.ZbuildInit
import Zeptux.ZbuildParser
import Zeptux.ZbuildRun

/-!
Whether the builder has a case for every statement that the parser lets into a block. Calls
are replaced in the commands that make them, and only there.
-/

namespace Zeptux.Zbuild

open Strings Procedure

variable {ω : Type} {sys : System ω}

inductive InBlock (statements : List Statement) : Block → Statement → Prop
  | prehook {dependencies : Depgetset} {time : PrehookWhen} {body : List Statement}
      {statement : Statement} (listed : .prehook dependencies time body ∈ statements)
      (inside : statement ∈ body) : InBlock statements .prehook statement
  | build {head : BuildHead} {body : List Statement} {statement : Statement}
      (listed : .build head body ∈ statements) (inside : statement ∈ body) :
      InBlock statements .build statement
  | command {head : CommandHead} {body : List Statement} {statement : Statement}
      (listed : .command head body ∈ statements) (inside : statement ∈ body) :
      InBlock statements .command statement
  | foreach {block : Block} {head : ForeachHead} {body : List Statement} {statement : Statement}
      (loop : InBlock statements block (.foreach head body)) (inside : statement ∈ body) :
      InBlock statements .foreach statement

def processNested (sys : System ω) (block : Block) (rule : Rule) (vars : Map Text)
    (statement : Statement) : Build ω (List Text × Scope) :=
  match block with
  | .prehook => extractShellCommands sys (getChangedFileDeps sys) ⟨none, vars⟩ [statement]
  | .command => do
      let statements ← fixupNestedCommandCalls [statement]
      extractShellCommands sys (getChangedFileDeps sys) ⟨some rule, vars⟩ statements
  | _ => extractShellCommands sys (getChangedFileDeps sys) ⟨some rule, vars⟩ [statement]

/-- The statement is handled in such a block or rejected, whatever the builder has read before
and whatever the rule of the block is. While `init` reads the blocks there are no conditional
prehooks yet. -/
def Handles (sys : System ω) (block : Block) (statement : Statement) : Prop :=
  ∀ (b : Builder ω) (rule : Rule) (vars : Map Text), rule.isPhony = (block == .command) →
    b.conditionalPrehooks = [] →
    ((processNested sys block rule vars statement).call b).1 ≠ .error .impossible

def CallsInCommands (statements : List Statement) : Prop :=
  ∀ block name, InBlock statements block (.call name) → block = .command

section Extracting

variable {statements : List Statement} {block : Block} {statement : Statement}

theorem InBlock.accepts (formed : ∀ statement ∈ statements, statement.Formed)
    (nested : InBlock statements block statement) :
    block.accepts statement ∧ ∀ head body, statement = .foreach head body →
      ∀ inner ∈ body, Block.foreach.accepts inner := by
  induction nested with
  | prehook listed inside => exact formed _ listed _ inside
  | build listed inside => exact formed _ listed _ inside
  | command listed inside => exact (formed _ listed).1 _ inside
  | foreach loop inside ih =>
      have accepted := ih.2 _ _ rfl _ inside
      refine ⟨accepted, fun head body same => ?_⟩
      subst same
      cases accepted

theorem InBlock.extractable (formed : ∀ statement ∈ statements, statement.Formed)
    (calls : CallsInCommands statements) (nested : InBlock statements block statement)
    (other : ∀ name, statement ≠ .call name) : Extractable (block == .command) statement := by
  obtain ⟨accepted, inside⟩ := nested.accepts formed
  have leaf {inner : Statement} (accepted : Block.foreach.accepts inner)
      (other : ∀ name, inner ≠ .call name) : Extractable false inner := by
    cases inner with
    | shell expression noecho => exact .shell _ _
    | call name => exact absurd rfl (other name)
    | cc args => exact .cc _
    | cpp args => exact .cpp _
    | ld args => exact .ld _
    | foreach head body => cases accepted
    | _ => cases accepted
  cases statement with
  | shell expression noecho => exact .shell _ _
  | call name => exact absurd rfl (other name)
  | cc args => exact .cc _
  | cpp args => exact .cpp _
  | ld args => exact .ld _
  | foreach head body =>
      obtain rfl : block = .build := accepted
      refine .foreach head body rfl fun inner listed => leaf (inside head body rfl inner listed) ?_
      rintro name rfl
      cases calls _ name (.foreach nested listed)
  | _ => cases accepted

end Extracting

def PrehooksFine (b : Builder ω) : Prop :=
  ∀ pre ∈ b.conditionalPrehooks, ∀ statement ∈ pre.deferredShellCommands,
    Extractable false statement

def Possible (stop : Stop) : Prop := stop ≠ .impossible

theorem prehooksFine_unnoticed : Unnoticed (fun b : Builder ω => PrehooksFine b) Possible where
  fatal _ := nofun
  failed _ := nofun
  runtimeError := nofun
  world _ _ fine := fine
  compared _ _ fine := fine
  seen b filename index fine := by
    intro pre listed
    obtain ⟨place, found⟩ := List.mem_iff_getElem?.mp listed
    rw [List.getElem?_modify] at found
    obtain ⟨old, before, rfl⟩ := Option.map_eq_some_iff.mp found
    have kept := fine old (List.mem_of_getElem? before)
    split
    · exact kept
    · exact kept
  deferred b pre fine listed statement inside := .inr (fine pre listed statement inside)

theorem prehooksFine_undisturbed :
    Undisturbed (fun b : Builder ω => PrehooksFine b) Possible :=
  prehooksFine_unnoticed.toUndisturbed

abbrev Safe {α : Type} (procedure : Build ω α) : Prop := Keeps PrehooksFine Possible procedure

theorem prehooksFine_adding (sys : System ω) :
    Adding sys (fun b : Builder ω => PrehooksFine b) Possible :=
  ⟨prehooksFine_undisturbed.ranged sys, fun _ _ fine => fine⟩

section Init

variable {statements : List Statement}

theorem extractShellCommands_safe {scope : Scope}
    (fits : ∀ statement ∈ statements, Extractable scope.phony statement) :
    Safe (extractShellCommands sys (getChangedFileDeps sys) scope statements) :=
  (extractShellCommands_meets (prehooksFine_undisturbed.ranged sys)
    (.same scope (getChangedFileDeps_meets prehooksFine_unnoticed)) scope rfl statements
    fun statement inside => .inr (fits statement inside)).keeps

theorem PrehooksFine.append {b : Builder ω} (fine : PrehooksFine b)
    (fits : ∀ statement ∈ statements, Extractable false statement) (exts : List Text) :
    PrehooksFine { b with
      conditionalPrehooks := b.conditionalPrehooks ++ [⟨exts, statements, []⟩] } := by
  intro pre listed
  rcases List.mem_append.mp listed with before | last
  · exact fine pre before
  · obtain rfl := List.mem_singleton.mp last
    exact fits

variable {state : ParseState} (formed : ∀ statement ∈ state.statements, statement.Formed)
  (calls : CallsInCommands state.statements)

include formed calls

theorem initCommands_safe : Safe (initCommands sys state) := by
  refine initCommands_keeps (prehooksFine_adding sys) (fun r _ => prehooksFine_unnoticed.stays r) ?_
  intro head body listed statement inside other
  refine .inr (InBlock.extractable formed calls (.command listed inside) ?_)
  rcases other with nested | other
  · rintro name rfl
    cases nested.symm.trans ((formed _ listed).2 name inside)
  · exact other

theorem initBuilds_safe : Safe (initBuilds sys state) := by
  refine initBuilds_keeps (prehooksFine_adding sys) prehooksFine_unnoticed.stays
    (fun _ _ _ _ _ fine => fine) ?_
  intro head body listed statement inside
  refine .inr (InBlock.extractable formed calls (.build listed inside) ?_)
  rintro name rfl
  cases calls _ name (.build listed inside)

theorem initPrehooks_safe : Safe (initPrehooks sys state) := by
  have fits {dependencies : Depgetset} {time : PrehookWhen} {body : List Statement}
      (listed : .prehook dependencies time body ∈ state.statements) :
      ∀ statement ∈ body, Extractable false statement := by
    intro statement inside
    refine InBlock.extractable formed calls (.prehook listed inside) ?_
    rintro name rfl
    cases calls _ name (.prehook listed inside)
  refine initPrehooks_keeps (prehooksFine_undisturbed.ranged sys) (fun _ _ fine => fine) ?_ ?_
  · exact fun _ _ listed b exts fine => fine.append (fits listed) exts
  · exact fun _ _ _ listed statement inside => .inr (fits listed statement inside)

theorem init_safe : Safe (init sys state) := by
  have unset : Unset fun b : Builder ω => PrehooksFine b := fun _ _ _ _ _ _ _ fine => fine
  refine (initExtractVars_keeps (prehooksFine_undisturbed.ranged sys) unset fun s listed =>
    .inr (formed _ listed)).bind fun _ _ => ?_
  refine (initOptions_keeps unset state).bind fun _ _ => ?_
  refine (initCommands_safe formed calls).bind fun _ _ => ?_
  refine (initBuilds_safe formed calls).bind fun _ _ => ?_
  refine (initPrehooks_safe formed calls).bind fun _ _ => ?_
  refine (checkRuleDeps_keeps (prehooksFine_undisturbed.ranged sys)).bind fun _ _ => ?_
  exact Meets.get.bind fun b _ => stopIf_keeps nofun

end Init

section Run

theorem ruleChanged_safe (rule : Rule) : Safe (ruleChanged sys rule) := by
  refine (getChangedFileDeps_meets prehooksFine_unnoticed _ _ _ _).bind fun out _ => ?_
  have written : Safe (modify fun b => b.setRule out.2 : Build ω PUnit) :=
    Meets.modify fun _ fine => fine
  exact written.bind fun _ _ => Meets.pure trivial

theorem record_safe (event : RunEvent) : Safe (modify fun b => b.record event : Build ω PUnit) :=
  Meets.modify fun _ fine => fine

theorem execBuild_safe (rule : Rule) (target : Text) : Safe (execBuild sys rule target) := by
  refine (record_safe _).bind fun _ _ => ?_
  refine (execAll_keeps prehooksFine_undisturbed _ _).bind fun _ _ => ?_
  split_ifs
  · exact touch_keeps prehooksFine_undisturbed target
  · exact Meets.pure trivial

theorem runDeps_safe {run : Text → Build ω Bool} (each : ∀ name, Safe (run name))
    (deps : List Text) (shouldExec : Bool) : Safe (runDeps run deps shouldExec) := by
  induction deps generalizing shouldExec with
  | nil => exact Meets.pure trivial
  | cons dep deps ih => exact (each dep).bind fun ran _ => ih _

theorem runBuild_safe (fuel : Nat) (name : Text) : Safe (runBuild sys fuel name) := by
  induction fuel generalizing name with
  | zero => exact Meets.throw nofun
  | succ fuel ih =>
      refine Meets.get.bind fun b _ => ?_
      cases b.findRule name with
      | none => exact fatal_meets (prehooksFine_undisturbed.ranged sys) _
      | some rule =>
          dsimp only
          split_ifs
          · exact Meets.pure trivial
          · refine (ruleChanged_safe rule).bind fun changed _ => ?_
            have marked : Safe (modify fun b => b.markDone rule.name : Build ω PUnit) :=
              Meets.modify fun _ fine => fine
            refine marked.bind fun _ _ => ?_
            refine (runDeps_safe ih _ _).bind fun ran _ => ?_
            refine (fileExists_keeps _ _).bind fun present _ => ?_
            have executed : Safe (if (ran || rule.isPhony || !present) = true then
                execBuild sys rule rule.stamp else return) := by
              split_ifs
              · exact execBuild_safe _ _
              · exact Meets.pure trivial
            refine executed.bind fun _ _ => ?_
            exact (record_safe _).bind fun _ _ => Meets.pure trivial

theorem doBuild_safe {state : ParseState}
    (formed : ∀ statement ∈ state.statements, statement.Formed)
    (calls : CallsInCommands state.statements) (fuel : Nat) (name : Text) :
    Safe (doBuild sys fuel state name) := by
  refine (init_safe formed calls).bind fun _ _ => ?_
  have prehooks : Safe (runUnconditionalPrehooks sys) :=
    Meets.get.bind fun b _ => Meets.forM fun prehook _ =>
      execAll_keeps prehooksFine_undisturbed _ _
  exact prehooks.bind fun _ _ => Meets.get.bind fun b _ => runBuild_safe _ _

end Run

theorem InBlock.handles {statements : List Statement} {block : Block} {statement : Statement}
    (formed : ∀ statement ∈ statements, statement.Formed) (calls : CallsInCommands statements)
    (nested : InBlock statements block statement) : Handles sys block statement := by
  intro b rule vars phony none
  have fits := nested.extractable formed calls
  have uncalled (other : block ≠ .command) (name : Text) : statement ≠ .call name := by
    rintro rfl
    exact other (calls block name nested)
  have only {phony : Bool} (fits : Extractable phony statement) :
      ∀ other ∈ [statement], Extractable phony other :=
    fun other inside => List.mem_singleton.mp inside ▸ fits
  have safe : Safe (processNested sys block rule vars statement) := by
    cases block with
    | prehook => exact extractShellCommands_safe (only (fits (uncalled nofun)))
    | build =>
        refine extractShellCommands_safe ?_
        rw [show (Scope.mk (some rule) vars).phony = false from phony]
        exact only (fits (uncalled nofun))
    | foreach =>
        refine extractShellCommands_safe ?_
        rw [show (Scope.mk (some rule) vars).phony = false from phony]
        exact only (fits (uncalled nofun))
    | command =>
        have each : ∀ other ∈ [statement], (∀ name, other ≠ .call name) →
            Possible .impossible ∨ Extractable true other := by
          intro other inside plain
          obtain rfl := List.mem_singleton.mp inside
          exact .inr (fits plain)
        refine (fixupNestedCommandCalls_meets (prehooksFine_undisturbed.ranged sys) each).bind fun out met => ?_
        refine extractShellCommands_safe fun other inside => ?_
        rw [show (Scope.mk (some rule) vars).phony = true from phony]
        exact (met other inside).resolve_left (absurd rfl)
  have fine : PrehooksFine b := by
    intro pre listed
    rw [none] at listed
    cases listed
  exact fun stopped => (safe.outcome fine).2 _ stopped rfl

theorem extract_call (changedFileDeps : ChangedFileDeps ω) (scope : Scope) (name : Text)
    (b : Builder ω) :
    (extractShellCommands sys changedFileDeps scope [.call name]).call b = (.error .impossible, b) := by
  rw [extractShellCommands, call_bind]
  simp only [extractShellCommand]
  rfl

/-- The builder handles or rejects every statement of an accepted file in its block, and so never
comes to its impossible case, if and only if the file makes calls in its commands alone. -/
theorem builder_agrees_iff (sys : System ω) (world : ω) (lines : List Text) (state : ParseState)
    (accepted : doParse lines = .ok state) :
    (∀ block statement, InBlock state.statements block statement → Handles sys block statement) ∧
      (∀ fuel name,
        ((doBuild sys fuel state name).call (Builder.empty world)).1 ≠ .error .impossible) ↔
    CallsInCommands state.statements := by
  have formed := doParse_formed accepted
  constructor
  · rintro ⟨handles, -⟩ block name nested
    by_contra other
    have handled := handles block _ nested (Builder.empty world) (ruleOf [] []) []
    cases block with
    | command => exact other rfl
    | prehook => exact handled rfl rfl (congrArg Prod.fst (extract_call _ _ name _))
    | build => exact handled rfl rfl (congrArg Prod.fst (extract_call _ _ name _))
    | foreach => exact handled rfl rfl (congrArg Prod.fst (extract_call _ _ name _))
  · intro calls
    refine ⟨fun block statement nested => nested.handles formed calls, fun fuel name stopped => ?_⟩
    have fine : PrehooksFine (Builder.empty world) := nofun
    exact ((doBuild_safe formed calls fuel name).outcome fine).2 _ stopped rfl

def callingCommand : List Text :=
  [lit "set special default = b", lit "command a \x7b", lit "shell true", lit "\x7d",
    lit "command b \x7b", lit "call a", lit "\x7d"]

def callingState : ParseState :=
  ⟨7, lit "\x7d", [], [lit "a", lit "b"],
    [.set ⟨true, false, lit "default", [⟨.stringElem, lit "b"⟩]⟩,
      .command ⟨lit "a", [], false, ⟨[], []⟩⟩ [.shell [⟨.stringElem, lit "true"⟩] false],
      .command ⟨lit "b", [], true, ⟨[], []⟩⟩ [.call (lit "a")]]⟩

theorem callingCommand_agrees :
    doParse callingCommand = .ok callingState ∧
    (∀ block statement, InBlock callingState.statements block statement →
      Handles loggingSystem block statement) ∧
    (∀ fuel name,
      ((doBuild loggingSystem fuel callingState name).call (Builder.empty [])).1 ≠
        .error .impossible) ∧
    ((doBuild loggingSystem 3 callingState []).call (Builder.empty [])).1.toOption =
      some true ∧
    ((doBuild loggingSystem 3 callingState []).call (Builder.empty [])).2.world =
      [lit "true"] := by
  have parsed : doParse callingCommand = .ok callingState := rfl
  have calls : CallsInCommands callingState.statements := by
    intro block name nested
    cases nested with
    | prehook listed inside => simp [callingState] at listed
    | build listed inside => simp [callingState] at listed
    | command listed inside => rfl
    | @foreach outer head body _ loop inside =>
        obtain rfl : outer = .build := (loop.accepts (doParse_formed parsed)).1
        cases loop with
        | build listed inside => simp [callingState] at listed
  obtain ⟨handles, possible⟩ :=
    (builder_agrees_iff loggingSystem [] callingCommand callingState parsed).mpr calls
  exact ⟨parsed, handles, possible, by decide +kernel, by decide +kernel⟩

def callingBuild : List Text :=
  [lit "set special default = a", lit "build a from b \x7b", lit "call c", lit "\x7d"]

def callingBuildState : ParseState :=
  ⟨4, lit "\x7d", [], [lit "a"],
    [.set ⟨true, false, lit "default", [⟨.stringElem, lit "a"⟩]⟩,
      .build ⟨⟨[], [⟨.file, lit "a"⟩]⟩, ⟨[], [⟨.file, lit "b"⟩]⟩, none, [], []⟩ [.call (lit "c")]]⟩

theorem callingBuild_impossible :
    doParse callingBuild = .ok callingBuildState ∧
      ((init (stillSystem [lit "b"]) callingBuildState).call (Builder.empty ())).1 =
        .error .impossible :=
  ⟨rfl, by decide +kernel⟩

end Zeptux.Zbuild
