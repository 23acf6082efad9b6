import Zeptux.ZbuildBuilderCore

/-!
What the functions of the builder leave alone. An invariant that the world outside and the
notes on compared files do not touch is kept by all of them, and they stop only with the
errors they are allowed.
-/

namespace Zeptux.Zbuild

open Strings Procedure

variable {ω : Type} {sys : System ω} {inv : Builder ω → Prop} {allowed : Stop → Prop}

/-- The errors that any call to the operating system can end with are allowed, and the
invariant says nothing of the world. -/
structure Undisturbed (inv : Builder ω → Prop) (allowed : Stop → Prop) : Prop where
  fatal : ∀ msg, allowed (.fatal msg)
  failed : ∀ err, allowed (.failed err)
  runtimeError : allowed .runtimeError
  world : ∀ b world, inv b → inv { b with world := world }

/-- The same where the order in which maps are ranged over is all of the world that changes. -/
structure Ranged (sys : System ω) (inv : Builder ω → Prop) (allowed : Stop → Prop) : Prop where
  fatal : ∀ msg, allowed (.fatal msg)
  failed : ∀ err, allowed (.failed err)
  runtimeError : allowed .runtimeError
  ranged : ∀ b keys, inv b → inv { b with world := (sys.rangeOrder keys b.world).2 }

theorem Undisturbed.ranged (basic : Undisturbed inv allowed) (sys : System ω) :
    Ranged sys inv allowed :=
  ⟨basic.fatal, basic.failed, basic.runtimeError, fun b _ => basic.world b _⟩

/-- A rule but for what `get_changed_file_deps` does to it. -/
def Rule.core (rule : Rule) : Rule := { rule with dir := [], fileDeps := [] }

@[simp] theorem normaliseRuleDir_core (rule : Rule) : (normaliseRuleDir rule).core = rule.core :=
  rfl

theorem stopIf_meets {cond : Prop} [Decidable cond] {stop : Stop} (met : cond → allowed stop) :
    Meets inv allowed (fun _ => ¬cond) (stopIf cond stop : Build ω Unit) := by
  rw [stopIf]
  split
  · exact Meets.throw (met ‹cond›)
  · exact Meets.pure ‹¬cond›

section Helpers

variable (basic : Ranged sys inv allowed)

include basic

theorem fatal_meets {α : Type} {post : α → Prop} (msg : Text) :
    Meets inv allowed post (fatal msg : Build ω α) := Meets.throw (basic.fatal msg)

theorem rangeKeys_keeps (keys : List Text) : Keeps inv allowed (rangeKeys sys keys) :=
  Meets.modifyGet fun b holds => basic.ranged b keys holds

omit basic in
theorem statFile_keeps (path : Text) : Keeps inv allowed (statFile sys path) :=
  Meets.get.bind fun _ _ => Meets.pure trivial

omit basic in
theorem fileExists_keeps (dir name : Text) : Keeps inv allowed (fileExists sys dir name) := by
  refine (statFile_keeps _).bind fun stat _ => ?_
  cases stat <;> exact Meets.pure trivial

omit basic in
theorem dirExists_keeps (path : Text) : Keeps inv allowed (dirExists sys path) := by
  refine (statFile_keeps _).bind fun stat _ => ?_
  cases stat <;> exact Meets.pure trivial

theorem readAll_keeps (path : Text) : Keeps inv allowed (readAll sys path) := by
  refine Meets.get.bind fun b _ => ?_
  cases sys.readFile path b.world with
  | read data => exact Meets.pure trivial
  | notExist => exact fatal_meets basic _
  | failed err => exact fatal_meets basic _

theorem replaceExt_keeps (filename ext : Text) :
    Keeps inv allowed (liftM (replaceExt filename ext) : Build ω Text) := by
  refine Meets.lift ?_
  cases ext with
  | nil => exact basic.runtimeError
  | cons chr rest => trivial

theorem isFileNewer_keeps (dir candidate comparator : Text) :
    Keeps inv allowed (isFileNewer sys dir candidate comparator) := by
  refine (statFile_keeps _).bind fun stat _ => ?_
  cases stat with
  | notExist err => exact Meets.throw (basic.failed err)
  | failed err => exact Meets.throw (basic.failed err)
  | found isDir time =>
      refine (statFile_keeps _).bind fun other _ => ?_
      cases other with
      | notExist err => exact Meets.pure trivial
      | failed err => exact Meets.throw (basic.failed err)
      | found isDir time => exact Meets.pure trivial

end Helpers

section Commands

variable (basic : Undisturbed inv allowed)

include basic

theorem system_keeps {α : Type} (call : ω → α × ω) : Keeps inv allowed (system call) :=
  Meets.modifyGet fun b holds => basic.world b _ holds

theorem orPanic_keeps (outcome : Option Text) : Keeps inv allowed (orPanic outcome : Build ω Unit) := by
  cases outcome with
  | none => exact Meets.pure trivial
  | some err => exact Meets.throw (basic.failed err)

theorem touch_keeps (filename : Text) : Keeps inv allowed (touch sys filename) := by
  refine (statFile_keeps _).bind fun stat _ => ?_
  cases stat with
  | notExist err => exact (system_keeps basic _).bind fun outcome _ => orPanic_keeps basic outcome
  | failed err => exact Meets.throw (basic.failed err)
  | found isDir time =>
      exact (system_keeps basic _).bind fun outcome _ => orPanic_keeps basic outcome

theorem shellExec_keeps (shell : Text) : Keeps inv allowed (shellExec sys shell) := by
  cases shell with
  | nil => exact Meets.throw basic.runtimeError
  | cons chr rest =>
      refine (system_keeps basic _).bind fun outcome _ => ?_
      cases outcome with
      | success => exact Meets.pure trivial
      | nonZero => exact Meets.pure trivial
      | failed err => exact Meets.throw (basic.failed err)

theorem execAll_keeps (msg : Text) (shellCommands : List Text) :
    Keeps inv allowed (execAll sys msg shellCommands) := by
  refine Meets.forM fun shell _ => (shellExec_keeps basic shell).bind fun succeeded _ => ?_
  exact (stopIf_meets fun _ => basic.fatal msg).keeps

end Commands

section Extraction

variable (basic : Ranged sys inv allowed)

include basic

theorem substituteElem_keeps (context : Text) (vars : Map Text) (elem : ParamStringElement) :
    Keeps inv allowed (substituteElem context vars elem : Build ω Text) := by
  rcases elem with ⟨kind | kind | kind, name⟩
  · exact Meets.pure trivial
  · rw [substituteElem]
    cases vars.lookup name with
    | none => exact fatal_meets basic _
    | some val => exact Meets.pure trivial
  · exact Meets.pure trivial

theorem substituteVars_keeps (context : Text) (vars : Map Text) (str : ParameterisedString) :
    Keeps inv allowed (substituteVars context vars str : Build ω Text) :=
  Meets.get.bind fun b _ =>
    (Meets.mapM fun elem _ => substituteElem_keeps basic context (b.combineVars vars) elem).bind
      fun _ _ => Meets.pure trivial

theorem readFileDependency_keeps (rule dir : Text) (dg : Depget) :
    Keeps inv allowed (readFileDependency sys rule dir dg) := by
  rcases dg with ⟨kind | kind | kind | kind, name⟩
  · refine (fileExists_keeps _ _).bind fun present _ => ?_
    cases present with
    | false => exact fatal_meets basic _
    | true => exact Meets.pure trivial
  · refine Meets.get.bind fun b _ => ?_
    cases sys.glob _ b.world with
    | error err => exact fatal_meets basic _
    | ok names => exact Meets.pure trivial
  · exact fatal_meets basic _
  · exact Meets.pure trivial

theorem readFileDependencies_keeps (rule dir : Text) (dgs : Depgetset) (hash : Map Bool)
    (keep : Bool) : Keeps inv allowed (readFileDependencies sys rule dir dgs hash keep) :=
  (Meets.mapM fun dg _ => readFileDependency_keeps basic rule dir dg).bind
    fun _ _ => Meets.pure trivial

theorem extractFileDependencies_keeps (rule dir : Text) (dgs : Depgetset)
    (excluding : Option Depgetset) :
    Keeps inv allowed (extractFileDependencies sys rule dir dgs excluding) := by
  refine (readFileDependencies_keeps basic _ _ _ _ _).bind fun hash _ => ?_
  have order (hash : Map Bool) : Keeps inv allowed (do
      let keys ← rangeKeys sys (hash.map Prod.fst)
      return keys.filter fun key => hash.lookup key = some true) :=
    (rangeKeys_keeps basic _).bind fun _ _ => Meets.pure trivial
  cases excluding with
  | none => exact order hash
  | some excluding =>
      exact (readFileDependencies_keeps basic _ _ _ _ _).bind fun hash _ => order hash

theorem parseDependencies_keeps (filename : Text) :
    Keeps inv allowed (parseDependencies sys filename) := by
  refine (replaceExt_keeps basic _ _).bind fun file _ => ?_
  refine (fileExists_keeps _ _).bind fun present _ => ?_
  cases present with
  | false => exact Meets.pure trivial
  | true =>
      refine (readAll_keeps basic file).bind fun lines _ => ?_
      dsimp only
      split
      · exact Meets.pure trivial
      · exact fatal_meets basic _

def Scope.Same (scope after : Scope) : Prop := after.rule.map Rule.core = scope.rule.map Rule.core

/-- The statements `extract_shell_commands` has a case for. The commands of a phony rule hold
no `foreach`. -/
inductive Extractable (phony : Bool) : Statement → Prop
  | shell (expression : ParameterisedString) (noecho : Bool) :
      Extractable phony (.shell expression noecho)
  | cc (args : ParameterisedString) : Extractable phony (.cc args)
  | cpp (args : ParameterisedString) : Extractable phony (.cpp args)
  | ld (args : ParameterisedString) : Extractable phony (.ld args)
  | foreach (head : ForeachHead) (statements : List Statement) (build : phony = false)
      (nested : ∀ statement ∈ statements, Extractable phony statement) :
      Extractable phony (.foreach head statements)

omit basic in
theorem Extractable.of_foreach {phony : Bool} {head : ForeachHead} {statements : List Statement}
    (fits : Extractable phony (.foreach head statements)) :
    phony = false ∧ ∀ statement ∈ statements, Extractable phony statement := by
  cases fits with
  | foreach head statements build nested => exact ⟨build, nested⟩

def Scope.phony (scope : Scope) : Bool := (scope.rule.map Rule.isPhony).getD false

omit basic in
theorem Scope.Same.phony {scope after : Scope} (same : scope.Same after) :
    after.phony = scope.phony := by
  have mapped := congrArg (Option.map Rule.isPhony) same
  rw [Option.map_map, Option.map_map] at mapped
  exact congrArg (Option.getD · false) mapped

/-- The variables of a block in one round of a `foreach`. -/
def roundVars (vars : Map Text) (source output : Text) : Map Text :=
  (vars.insert (lit "source") source).insert (lit "output") output

/-- What holds of the scope while the statements of a block are extracted. The rule changes only
where `get_changed_file_deps` is asked for it. -/
structure Staying (changedFileDeps : ChangedFileDeps ω) (inv : Builder ω → Prop)
    (allowed : Stop → Prop) (phony : Bool) (stays : Scope → Prop) : Prop where
  vars : ∀ scope source output, stays scope →
    stays { scope with vars := roundVars scope.vars source output }
  phony : ∀ scope, stays scope → scope.phony = phony
  deps : ∀ rule vars excluding, stays ⟨some rule, vars⟩ →
    Meets inv allowed (fun out => stays ⟨some out.2, vars⟩)
      (changedFileDeps rule (ext rule.multiGlob) (some excluding) true)

omit basic in
theorem Staying.same {changedFileDeps : ChangedFileDeps ω} (scope : Scope)
    (deps : ∀ rule targeting excluding isMulti,
      Meets inv allowed (fun out => out.2.core = rule.core)
        (changedFileDeps rule targeting excluding isMulti)) :
    Staying changedFileDeps inv allowed scope.phony scope.Same where
  vars _ _ _ same := same
  phony _ same := same.phony
  deps rule vars excluding same := by
    refine (deps rule _ _ _).mono fun out kept => ?_
    simpa [Scope.Same, kept] using same

variable {changedFileDeps : ChangedFileDeps ω} {phony : Bool} {stays : Scope → Prop}

theorem extractArgs_meets {scope : Scope} (now : stays scope) (args : ParameterisedString)
    {command : Build ω Text} (kept : Keeps inv allowed command) :
    Meets inv allowed (fun out => stays out.2) (extractArgs scope args command) :=
  (substituteVars_keeps basic _ _ _).bind fun _ _ => kept.bind fun _ _ => Meets.pure now

omit basic in
theorem genSpecialCcParams_keeps : Keeps inv allowed (genSpecialCcParams : Build ω Text) :=
  Meets.get.bind fun _ _ => Meets.pure trivial

theorem expandForeachSources_meets {body : Scope → Build ω (List Text × Scope)}
    (vars : ∀ scope source output, stays scope →
      stays { scope with vars := roundVars scope.vars source output })
    (each : ∀ scope, stays scope → Meets inv allowed (fun out => stays out.2) (body scope))
    (targetExt : Text) (sources : List Text) :
    ∀ scope, stays scope → Meets inv allowed (fun out => stays out.2)
      (expandForeachSources body targetExt sources scope) := by
  induction sources with
  | nil => exact fun scope now => Meets.pure now
  | cons source sources ih =>
      intro scope now
      refine (replaceExt_keeps basic _ _).bind fun output _ => ?_
      refine (each _ (vars scope _ _ now)).bind fun out next => ?_
      exact (ih out.2 next).bind fun last final => Meets.pure final

theorem extractExcluding_keeps (rule : Rule) (excluding : Depgetset) :
    Keeps inv allowed (extractExcluding sys rule excluding) := by
  rw [extractExcluding]
  split
  · exact Meets.pure trivial
  · exact extractFileDependencies_keeps basic _ _ _ _

theorem expandForeachStatement_meets {body : Scope → Build ω (List Text × Scope)} {rule : Rule}
    (staying : Staying changedFileDeps inv allowed phony stays)
    (each : ∀ scope, stays scope → Meets inv allowed (fun out => stays out.2) (body scope))
    (fits : allowed .impossible ∨ rule.isPhony = false) {vars : Map Text}
    (now : stays ⟨some rule, vars⟩) (head : ForeachHead) :
    Meets inv allowed (fun out => stays out.2)
      (expandForeachStatement sys changedFileDeps body rule vars head) := by
  refine (stopIf_meets fun phony => ?_).bind fun _ _ => ?_
  · rcases fits with fits | fits
    · exact fits
    · simp [fits] at phony
  refine (stopIf_meets fun _ => basic.fatal _).bind fun _ _ => ?_
  refine (stopIf_meets fun _ => basic.fatal _).bind fun _ _ => ?_
  refine (extractExcluding_keeps basic _ _).bind fun excluding _ => ?_
  refine (staying.deps rule vars excluding now).bind fun out next => ?_
  exact expandForeachSources_meets basic staying.vars each _ _ ⟨some out.2, vars⟩ next

end Extraction

mutual

theorem extractShellCommand_meets (basic : Ranged sys inv allowed)
    {changedFileDeps : ChangedFileDeps ω} {phony : Bool} {stays : Scope → Prop}
    (staying : Staying changedFileDeps inv allowed phony stays) (scope : Scope)
    (now : stays scope) : ∀ statement, allowed .impossible ∨ Extractable phony statement →
      Meets inv allowed (fun out => stays out.2)
        (extractShellCommand sys changedFileDeps scope statement)
  | .shell expression noecho, _ => by
      rw [extractShellCommand]
      exact (substituteVars_keeps basic _ _ _).bind fun _ _ => Meets.pure now
  | .cc args, _ => by
      rw [extractShellCommand]
      exact extractArgs_meets basic now args
        (genSpecialCcParams_keeps.bind fun _ _ => Meets.pure trivial)
  | .cpp args, _ => by
      rw [extractShellCommand]
      exact extractArgs_meets basic now args
        (genSpecialCcParams_keeps.bind fun _ _ => Meets.pure trivial)
  | .ld args, _ => by
      rw [extractShellCommand]
      exact extractArgs_meets basic now args (Meets.pure trivial)
  | .foreach head statements, fits => by
      rw [extractShellCommand]
      cases found : scope.rule with
      | none => exact fatal_meets basic _
      | some rule =>
          have nested : ∀ statement ∈ statements,
              allowed .impossible ∨ Extractable phony statement := by
            rcases fits with fits | fits
            · exact fun _ _ => .inl fits
            · exact fun statement inside => .inr (fits.of_foreach.2 statement inside)
          have here : stays ⟨some rule, scope.vars⟩ := by
            rw [← found]
            exact now
          refine expandForeachStatement_meets basic staying ?_ ?_ here head
          · intro current next
            exact extractShellCommands_meets basic staying current next statements nested
          · refine fits.imp_right fun fits => ?_
            have kind := staying.phony _ here
            rw [fits.of_foreach.1] at kind
            exact kind
  | .set statement, fits => by
      simp only [extractShellCommand]
      exact Meets.throw (fits.resolve_right nofun)
  | .option, fits => by
      simp only [extractShellCommand]
      exact Meets.throw (fits.resolve_right nofun)
  | .prehook dependencies time statements, fits => by
      simp only [extractShellCommand]
      exact Meets.throw (fits.resolve_right nofun)
  | .build head statements, fits => by
      simp only [extractShellCommand]
      exact Meets.throw (fits.resolve_right nofun)
  | .command head statements, fits => by
      simp only [extractShellCommand]
      exact Meets.throw (fits.resolve_right nofun)
  | .call name, fits => by
      simp only [extractShellCommand]
      exact Meets.throw (fits.resolve_right nofun)

theorem extractShellCommands_meets (basic : Ranged sys inv allowed)
    {changedFileDeps : ChangedFileDeps ω} {phony : Bool} {stays : Scope → Prop}
    (staying : Staying changedFileDeps inv allowed phony stays) (scope : Scope)
    (now : stays scope) : ∀ statements,
      (∀ statement ∈ statements, allowed .impossible ∨ Extractable phony statement) →
      Meets inv allowed (fun out => stays out.2)
        (extractShellCommands sys changedFileDeps scope statements)
  | [], _ => by
      rw [extractShellCommands]
      exact Meets.pure now
  | statement :: statements, fits => by
      rw [extractShellCommands]
      refine (extractShellCommand_meets basic staying scope now statement
        (fits statement (by simp))).bind fun first next => ?_
      refine (extractShellCommands_meets basic staying first.2 next statements
        fun other inside => fits other (by simp [inside])).bind fun rest final => ?_
      exact Meets.pure final

end

structure Unnoticed (inv : Builder ω → Prop) (allowed : Stop → Prop) : Prop
    extends Undisturbed inv allowed where
  compared : ∀ b known, inv b → inv { b with knownFileComparisons := known }
  seen : ∀ b filename index, inv b →
    inv { b with conditionalPrehooks := b.conditionalPrehooks.modify index (.see filename) }
  deferred : ∀ b pre, inv b → pre ∈ b.conditionalPrehooks →
    ∀ statement ∈ pre.deferredShellCommands,
      allowed .impossible ∨ Extractable false statement

section Changes

theorem execConditionalPrehook_keeps (basic : Undisturbed inv allowed) {pre : ConditionalPrehook}
    (deferred : ∀ statement ∈ pre.deferredShellCommands,
      allowed .impossible ∨ Extractable false statement) (filename : Text) :
    Keeps inv allowed (execConditionalPrehook sys pre filename) := by
  have staying : Staying (fun rule _ _ _ => return ([], rule)) inv allowed false
      fun scope => scope.rule = none :=
    ⟨fun _ _ _ none => none, fun _ none => by simp [Scope.phony, none], nofun⟩
  refine (extractShellCommands_meets (basic.ranged sys) staying _ rfl _ deferred).bind fun out _ => ?_
  exact execAll_keeps basic _ _

theorem comparedTarget_keeps (basic : Ranged sys inv allowed) (targeting : Text)
    (isMulti : Bool) (filename : Text) :
    Keeps inv allowed (liftM (comparedTarget targeting isMulti filename) : Build ω Text) := by
  refine Meets.lift ?_
  cases isMulti with
  | false => trivial
  | true =>
      cases targeting with
      | nil => exact basic.runtimeError
      | cons chr rest => trivial

theorem computeDepfileFiledeps_keeps (basic : Ranged sys inv allowed) (rule : Rule) :
    Keeps inv allowed (computeDepfileFiledeps sys rule) := by
  have loop (filenames : List Text) : ∀ ret,
      Keeps inv allowed (computeDepfileFrom sys filenames ret) := by
    induction filenames with
    | nil => exact fun ret => Meets.pure trivial
    | cons filename filenames ih =>
        exact fun ret =>
          (parseDependencies_keeps basic filename).bind fun _ _ => ih _
  refine Meets.get.bind fun b _ => ?_
  split
  · exact loop _ _
  · exact Meets.pure trivial

variable (whole : Unnoticed inv allowed)

include whole

theorem execConditionalPrehookAt_keeps (filename : Text) (index : Nat) :
    Keeps inv allowed (execConditionalPrehookAt sys filename index) := by
  refine Meets.get.bind fun b holds => ?_
  cases found : b.conditionalPrehooks[index]? with
  | none => exact Meets.pure trivial
  | some pre =>
      dsimp only
      split
      · refine (Meets.modify fun b => whole.seen b filename index).bind fun _ _ => ?_
        have deferred := whole.deferred b pre holds (List.mem_of_getElem? found)
        exact execConditionalPrehook_keeps whole.toUndisturbed deferred filename
      · exact Meets.pure trivial

theorem checkFileDepNewer_keeps (target filename : Text) :
    Keeps inv allowed (checkFileDepNewer sys target filename) := by
  refine Meets.get.bind fun b _ => ?_
  cases b.knownFileComparisons.lookup (target ++ lit "|" ++ filename) with
  | some ret => exact Meets.pure trivial
  | none =>
      refine (isFileNewer_keeps (whole.ranged sys) _ _ _).bind fun newer _ => ?_
      have prehooks : Keeps inv allowed
          (if newer then execConditionalPrehooks sys filename else return) := by
        split
        · exact Meets.get.bind fun b _ =>
            Meets.forM fun index _ => execConditionalPrehookAt_keeps whole filename index
        · exact Meets.pure trivial
      refine prehooks.bind fun _ _ => ?_
      exact (Meets.modify fun b => whole.compared b _).bind fun _ _ => Meets.pure trivial

theorem checkFileDepsNewer_keeps (target : Text) (filenames : List Text) :
    Keeps inv allowed (checkFileDepsNewer sys target filenames) := by
  induction filenames with
  | nil => exact Meets.pure trivial
  | cons filename filenames ih =>
      refine (checkFileDepNewer_keeps whole target filename).bind fun _ _ => ?_
      exact ih.bind fun _ _ => Meets.pure trivial

theorem changedFrom_keeps (targeting : Text) (isMulti : Bool) (depGraph : Map (List Text))
    (filenames : List Text) :
    Keeps inv allowed (changedFrom sys targeting isMulti depGraph filenames) := by
  induction filenames with
  | nil => exact Meets.pure trivial
  | cons filename filenames ih =>
      refine (comparedTarget_keeps (whole.ranged sys) _ _ _).bind fun target _ => ?_
      refine (checkFileDepNewer_keeps whole _ _).bind fun _ _ => ?_
      refine (checkFileDepsNewer_keeps whole _ _).bind fun _ _ => ?_
      refine Meets.get.bind fun b _ => ?_
      refine (checkFileDepsNewer_keeps whole _ _).bind fun _ _ => ?_
      exact ih.bind fun _ _ => Meets.pure trivial

theorem getChangedFileDeps_normalises (rule : Rule) (targeting : Text)
    (excluding : Option (List Text)) (isMulti : Bool) :
    Meets inv allowed (fun out => out.2 = normaliseRuleDir rule)
      (getChangedFileDeps sys rule targeting excluding isMulti) := by
  refine (computeDepfileFiledeps_keeps (whole.ranged sys) _).bind fun depGraph _ => ?_
  refine (changedFrom_keeps whole _ _ _ _).bind fun hash _ => ?_
  exact (rangeKeys_keeps (whole.ranged sys) _).bind fun keys _ => Meets.pure rfl

theorem getChangedFileDeps_meets (rule : Rule) (targeting : Text)
    (excluding : Option (List Text)) (isMulti : Bool) :
    Meets inv allowed (fun out => out.2.core = rule.core)
      (getChangedFileDeps sys rule targeting excluding isMulti) :=
  (getChangedFileDeps_normalises whole rule targeting excluding isMulti).mono
    fun out same => by rw [same, normaliseRuleDir_core]

end Changes

end Zeptux.Zbuild
