import Zeptux.ZbuildBuilder

/-!
What the steps of `init` leave alone: an invariant that neither the order of a map nor a new rule
touches, with what the step itself sets.
-/

namespace Zeptux.Zbuild

open Strings Procedure

variable {ω : Type} {sys : System ω} {inv : Builder ω → Prop} {allowed : Stop → Prop}

theorem stopIf_keeps {cond : Prop} [Decidable cond] {stop : Stop} (met : allowed stop) :
    Keeps inv allowed (stopIf cond stop : Build ω Unit) :=
  (stopIf_meets fun _ => met).keeps

/-- The invariant is about none of the settings that the first statements are read for. -/
def Unset (inv : Builder ω → Prop) : Prop :=
  ∀ b vars default includes defaultCflags globalFileDeps options, inv b →
    inv { b with
      vars := vars
      default := default
      includes := includes
      defaultCflags := defaultCflags
      globalFileDeps := globalFileDeps
      options := options }

section Settings

variable (basic : Ranged sys inv allowed) (unset : Unset inv)

include unset

theorem initExtractSpecialVar_keeps {key : Text}
    (special : allowed .impossible ∨ isSpecialVar key = true) (val : Text) :
    Keeps inv allowed (initExtractSpecialVar key val : Build ω Unit) := by
  have known : allowed .impossible ∨ key = lit "default" ∨ key = lit "includes" ∨
      key = lit "default_cflags" ∨ key = lit "global_file_deps" := by
    simpa [isSpecialVar, specialVars] using special
  rw [initExtractSpecialVar]
  split_ifs
  · exact Meets.modify fun b => unset b _ _ _ _ _ _
  · exact Meets.modify fun b => unset b _ _ _ _ _ _
  · exact Meets.modify fun b => unset b _ _ _ _ _ _
  · exact Meets.modify fun b => unset b _ _ _ _ _ _
  · exact Meets.throw (by tauto)

include basic

theorem initSet_keeps {s : SetStatement}
    (special : allowed .impossible ∨ (s.isSpecial = true → isSpecialVar s.key = true)) :
    Keeps inv allowed (initSet s : Build ω Unit) := by
  refine (substituteVars_keeps basic _ _ _).bind fun val _ => ?_
  dsimp only
  split_ifs with isSpecial isAppend
  · exact initExtractSpecialVar_keeps unset (special.imp_right fun special => special isSpecial) _
  · refine Meets.get.bind fun b _ => ?_
    cases b.vars.lookup s.key with
    | none => exact fatal_meets basic _
    | some old => exact Meets.modify fun b => unset b _ _ _ _ _ _
  · exact Meets.modify fun b => unset b _ _ _ _ _ _

theorem initExtractVars_keeps {state : ParseState}
    (special : ∀ s, .set s ∈ state.statements →
      allowed .impossible ∨ (s.isSpecial = true → isSpecialVar s.key = true)) :
    Keeps inv allowed (initExtractVars state : Build ω Unit) := by
  refine Meets.forM fun statement listed => ?_
  cases statement with
  | set s => exact initSet_keeps basic unset (special s listed)
  | _ => exact Meets.pure trivial

omit basic in
theorem initOptions_keeps (state : ParseState) :
    Keeps inv allowed (initOptions state : Build ω Unit) := by
  refine Meets.forM fun statement listed => ?_
  cases statement with
  | option => exact Meets.modify fun b => unset b _ _ _ _ _ _
  | _ => exact Meets.pure trivial

end Settings

def BuildHead.Names (build : BuildHead) (name : Text) : Prop :=
  name = build.aliasName ∨ ∃ target ∈ build.target.depgets, name = target.name

def buildRule (build : BuildHead) (name : Text) (multiGlob : Option Text) (fileDeps : List Text) :
    Rule :=
  ⟨name, build.localDir, name, multiGlob.getD [], multiGlob.isSome, false,
    extractRuleDependencies build.dependencies, fileDeps, []⟩

section Steps

variable (basic : Ranged sys inv allowed) {statements : List Statement}

include basic

theorem labelVars_keeps (r : Rule) (label : Text) :
    Keeps inv allowed (labelVars r label : Build ω (Map Text)) := by
  rw [labelVars]
  split_ifs
  · exact Meets.pure trivial
  · exact fatal_meets basic _
  · exact Meets.pure trivial

theorem checkLocalDir_keeps (name dir : Text) : Keeps inv allowed (checkLocalDir sys name dir) :=
  (dirExists_keeps dir).bind fun _ _ => stopIf_keeps (basic.fatal _)

theorem expandCall_meets {b : Builder ω} {statement : Statement}
    (fits : (∀ name, statement ≠ .call name) → allowed .impossible ∨ Extractable true statement) :
    Meets inv allowed
      (fun part => ∀ statement ∈ part, allowed .impossible ∨ Extractable true statement)
      (expandCall b statement) := by
  have single (fits : allowed .impossible ∨ Extractable true statement) : Meets inv allowed
      (fun part => ∀ statement ∈ part, allowed .impossible ∨ Extractable true statement)
      (pure [statement] : Build ω (List Statement)) :=
    Meets.pure fun other inside => List.mem_singleton.mp inside ▸ fits
  cases statement with
  | call name =>
      rw [expandCall]
      cases b.findRule name with
      | none => exact fatal_meets basic _
      | some rule =>
          refine Meets.pure fun statement inside => ?_
          obtain ⟨shell, -, rfl⟩ := List.mem_map.mp inside
          exact .inr (.shell _ _)
  | _ => exact single (fits nofun)

theorem fixupNestedCommandCalls_meets
    (fits : ∀ statement ∈ statements,
      (∀ name, statement ≠ .call name) → allowed .impossible ∨ Extractable true statement) :
    Meets inv allowed
      (fun out => ∀ statement ∈ out, allowed .impossible ∨ Extractable true statement)
      (fixupNestedCommandCalls statements : Build ω (List Statement)) := by
  refine Meets.get.bind fun b _ => ?_
  refine (Meets.mapM fun statement inside =>
    expandCall_meets basic (fits statement inside)).bind ?_
  refine fun parts met => Meets.pure fun statement inside => ?_
  obtain ⟨part, listed, inside⟩ := List.mem_flatten.mp inside
  exact met part listed statement inside

theorem buildTarget_meets (build : BuildHead) :
    Meets inv allowed (fun target => build.Names target.1) (buildTarget build : Build ω _) := by
  have fatals (msg : Text) : Meets inv allowed (fun target => build.Names target.1)
      (fatal msg : Build ω (Text × Option Text)) := fatal_meets basic msg
  have stops {cond : Prop} [Decidable cond] (msg : Text) :
      Keeps inv allowed (stopIf cond (.fatal msg) : Build ω Unit) :=
    stopIf_keeps (basic.fatal msg)
  rw [buildTarget]
  split
  · rename_i target single
    split
    · refine (stops _).bind fun _ _ => Meets.pure ?_
      exact .inr ⟨target, by simp [single], rfl⟩
    · split
      · exact Meets.throw basic.runtimeError
      · refine (stops _).bind fun _ _ => ?_
        exact (stops _).bind fun _ _ => Meets.pure (.inl rfl)
    · exact fatals _
    · exact fatals _
  · exact fatals _

theorem buildTarget_keeps (build : BuildHead) :
    Keeps inv allowed (buildTarget build : Build ω _) := (buildTarget_meets basic build).keeps

theorem insertAlias_keeps {aliasName : Text}
    (aliased : ∀ b val, inv b → inv { b with vars := b.vars.insert aliasName val })
    (multiGlob : Text) (fileDeps : List Text) :
    Keeps inv allowed (insertAlias aliasName multiGlob fileDeps : Build ω Unit) := by
  have each (name : Text) : Keeps inv allowed (do
      return base (← liftM (replaceExt name (ext multiGlob))) : Build ω Text) :=
    (replaceExt_keeps basic _ _).bind fun _ _ => Meets.pure trivial
  exact (Meets.mapM fun name _ => each name).bind fun _ _ => Meets.modify fun b => aliased b _

def commandRule (cmd : CommandHead) : Rule :=
  ⟨cmd.name, cmd.localDir, cmd.name, [], false, true, extractRuleDependencies cmd.dependencies, [],
    []⟩

theorem initCommand_adding (cmd : CommandHead)
    (added : Keeps inv allowed
      (addRule sys (commandRule cmd) cmd.dependencies.label statements)) :
    Keeps inv allowed (initCommand sys cmd statements) := by
  refine Meets.get.bind fun b _ => ?_
  refine (stopIf_keeps (basic.fatal _)).bind fun _ _ => ?_
  refine (checkLocalDir_keeps basic _ _).bind fun _ _ => ?_
  refine (extractFileDependencies_keeps basic _ _ _ _).bind fun fileDeps _ => ?_
  exact (stopIf_keeps (basic.fatal _)).bind fun _ _ => added

theorem initBuild_adding (build : BuildHead)
    (aliased : ∀ b val, inv b → inv { b with vars := b.vars.insert build.aliasName val })
    (added : ∀ name multiGlob fileDeps, build.Names name → Keeps inv allowed
      (addRule sys (buildRule build name multiGlob fileDeps) build.dependencies.label statements)) :
    Keeps inv allowed (initBuild sys build statements) := by
  refine (buildTarget_meets basic build).bind fun target named => ?_
  refine Meets.get.bind fun b _ => ?_
  refine (stopIf_keeps (basic.fatal _)).bind fun _ _ => ?_
  refine (checkLocalDir_keeps basic _ _).bind fun _ _ => ?_
  refine (extractFileDependencies_keeps basic _ _ _ _).bind fun fileDeps _ => ?_
  have aliases : Keeps inv allowed (target.2.forM fun glob =>
      (insertAlias build.aliasName glob fileDeps : Build ω Unit)) := by
    cases target.2 with
    | none => exact Meets.pure trivial
    | some glob => exact insertAlias_keeps basic aliased _ _
  exact aliases.bind fun _ _ => added target.1 target.2 fileDeps named

theorem checkRuleDeps_keeps : Keeps inv allowed (checkRuleDeps sys) := by
  refine Meets.get.bind fun b _ => ?_
  refine (rangeKeys_keeps basic _).bind fun names _ => ?_
  refine Meets.forM fun name _ => ?_
  cases b.findRule name with
  | none => exact Meets.pure trivial
  | some rule => exact Meets.forM fun dep _ => stopIf_keeps (basic.fatal _)

end Steps

def Stays (sys : System ω) (inv : Builder ω → Prop) (allowed : Stop → Prop) (r : Rule) : Prop :=
  ∃ stays, Staying (getChangedFileDeps sys) inv allowed r.isPhony stays ∧
    ∀ vars, stays ⟨some r, vars⟩

theorem Unnoticed.stays (whole : Unnoticed inv allowed) (r : Rule) : Stays sys inv allowed r :=
  ⟨_, .same ⟨some r, []⟩ (getChangedFileDeps_meets whole), fun _ => rfl⟩

structure Adding (sys : System ω) (inv : Builder ω → Prop) (allowed : Stop → Prop) : Prop
    extends Ranged sys inv allowed where
  added : ∀ b rule, inv b → inv { b with rules := b.rules ++ [rule] }

section Rules

variable (adding : Adding sys inv allowed) {statements : List Statement}

include adding

theorem addRule_keeps {r : Rule} (stays : Stays sys inv allowed r) (label : Text)
    (fits : ∀ statement ∈ statements, allowed .impossible ∨ Extractable r.isPhony statement) :
    Keeps inv allowed (addRule sys r label statements) := by
  obtain ⟨_, staying, now⟩ := stays
  refine (labelVars_keeps adding.toRanged r label).bind fun vars _ => ?_
  refine (extractShellCommands_meets adding.toRanged staying _ (now vars) _ fits).bind fun out _ => ?_
  exact Meets.modify fun b => adding.added b _

theorem initCommand_keeps (stays : ∀ r : Rule, r.multiGlob = [] → Stays sys inv allowed r)
    (cmd : CommandHead)
    (fits : ∀ statement ∈ statements, allowed .impossible ∨ Extractable true statement) :
    Keeps inv allowed (initCommand sys cmd statements) :=
  initCommand_adding adding.toRanged cmd (addRule_keeps adding (stays _ rfl) _ fits)

theorem initCommands_keeps (stays : ∀ r : Rule, r.multiGlob = [] → Stays sys inv allowed r)
    {state : ParseState}
    (fits : ∀ head body, .command head body ∈ state.statements → ∀ statement ∈ body,
      head.hasNestedCalls = false ∨ (∀ name, statement ≠ .call name) →
        allowed .impossible ∨ Extractable true statement) :
    Keeps inv allowed (initCommands sys state) := by
  refine (Meets.forM fun statement listed => ?_).bind fun _ _ => Meets.forM fun statement listed => ?_
  · cases statement with
    | command head body =>
        cases nested : head.hasNestedCalls with
        | true =>
            simp only [nested]
            exact Meets.pure trivial
        | false =>
            simp only [nested]
            exact initCommand_keeps adding stays head fun statement inside =>
              fits head body listed statement inside (.inl nested)
    | _ => exact Meets.pure trivial
  · cases statement with
    | command head body =>
        cases nested : head.hasNestedCalls with
        | true =>
            simp only [nested]
            refine (fixupNestedCommandCalls_meets adding.toRanged fun statement inside other =>
              fits head body listed statement inside (.inr other)).bind fun out met => ?_
            exact initCommand_keeps adding stays head met
        | false =>
            simp only [nested]
            exact Meets.pure trivial
    | _ => exact Meets.pure trivial

theorem initBuild_keeps (stays : ∀ r, Stays sys inv allowed r) (build : BuildHead)
    (aliased : ∀ b val, inv b → inv { b with vars := b.vars.insert build.aliasName val })
    (fits : ∀ statement ∈ statements, allowed .impossible ∨ Extractable false statement) :
    Keeps inv allowed (initBuild sys build statements) :=
  initBuild_adding adding.toRanged build aliased fun _ _ _ _ => addRule_keeps adding (stays _) _ fits

theorem initBuilds_keeps (stays : ∀ r, Stays sys inv allowed r) {state : ParseState}
    (aliased : ∀ head body, .build head body ∈ state.statements →
      ∀ b val, inv b → inv { b with vars := b.vars.insert head.aliasName val })
    (fits : ∀ head body, .build head body ∈ state.statements → ∀ statement ∈ body,
      allowed .impossible ∨ Extractable false statement) :
    Keeps inv allowed (initBuilds sys state) := by
  refine Meets.forM fun statement listed => ?_
  cases statement with
  | build head body =>
      exact initBuild_keeps adding stays head (aliased head body listed) (fits head body listed)
  | _ => exact Meets.pure trivial

end Rules

section Prehooks

variable (basic : Ranged sys inv allowed)

include basic

theorem initUnconditionalPrehook_keeps {statements : List Statement}
    (hooked : ∀ b prehooks, inv b → inv { b with unconditionalPrehooks := prehooks })
    (fits : ∀ statement ∈ statements, allowed .impossible ∨ Extractable false statement) :
    Keeps inv allowed (initUnconditionalPrehook sys statements) := by
  have staying : Staying (getChangedFileDeps sys) inv allowed false
      fun scope => scope.rule = none :=
    ⟨fun _ _ _ none => none, fun _ none => by simp [Scope.phony, none], nofun⟩
  refine (extractShellCommands_meets basic staying ⟨none, []⟩ rfl _ fits).bind fun out _ => ?_
  exact Meets.modify fun b => hooked b _

theorem initConditionalPrehook_keeps {statements : List Statement}
    (hooked : ∀ b exts, inv b → inv { b with
      conditionalPrehooks := b.conditionalPrehooks ++ [⟨exts, statements, []⟩] })
    (dependencies : Depgetset) :
    Keeps inv allowed (initConditionalPrehook dependencies statements : Build ω Unit) := by
  refine (stopIf_keeps (basic.fatal _)).bind fun _ _ => ?_
  have each (dg : Depget) : Keeps inv allowed (prehookExt dg : Build ω Text) := by
    rw [prehookExt]
    split
    · refine Meets.lift ?_
      rw [sliceFrom]
      split_ifs
      · trivial
      · exact basic.runtimeError
    · exact fatal_meets basic _
  exact (Meets.mapM fun dg _ => each dg).bind fun exts _ => Meets.modify fun b => hooked b exts

theorem initPrehooks_keeps {state : ParseState}
    (always : ∀ b prehooks, inv b → inv { b with unconditionalPrehooks := prehooks })
    (onChange : ∀ dependencies body, .prehook dependencies .onChange body ∈ state.statements →
      ∀ b exts, inv b → inv { b with
        conditionalPrehooks := b.conditionalPrehooks ++ [⟨exts, body, []⟩] })
    (fits : ∀ dependencies time body, .prehook dependencies time body ∈ state.statements →
      ∀ statement ∈ body, allowed .impossible ∨ Extractable false statement) :
    Keeps inv allowed (initPrehooks sys state) := by
  refine Meets.forM fun statement listed => ?_
  cases statement with
  | prehook dependencies time body =>
      cases time with
      | always =>
          refine (stopIf_keeps (basic.fatal _)).bind fun _ _ => ?_
          exact initUnconditionalPrehook_keeps basic always (fits _ _ _ listed)
      | onChange =>
          exact initConditionalPrehook_keeps basic (onChange _ _ listed) dependencies
  | _ => exact Meets.pure trivial

end Prehooks

end Zeptux.Zbuild
