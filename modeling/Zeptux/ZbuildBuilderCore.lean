import Zeptux.Lib.Procedure
import Zeptux.ZbuildParserCore

/-!
The builder of `tools/zbuild/builder.go` and `tools/zbuild/helpers.go`: the build graph that
`init` makes of the statements, and the run over it. The operating system is a parameter.
-/

namespace Zeptux.Zbuild

open Strings

def ccBinary : Text := lit "gcc"
def cppBinary : Text := lit "g++"
def ldBinary : Text := lit "ld"
def zbuildTmpfilePrefix : Text := lit ".zbuild."

/-- What `os.Stat` says of a name. -/
inductive Stat
  | found (isDir : Bool) (modTime : Int)
  | notExist (err : Text)
  | failed (err : Text)
deriving DecidableEq, Repr

/-- What `os.ReadFile` says of a name. -/
inductive Contents
  | read (data : Text)
  | notExist
  | failed (err : Text)
deriving DecidableEq, Repr

inductive Exit
  | success
  | nonZero
  | failed (err : Text)
deriving DecidableEq, Repr

/-- The calls to the operating system, over the states `ω` of the world outside. The order in
which a map is ranged over is not fixed by the language, so the world picks it. -/
structure System (ω : Type) where
  stat : Text → ω → Stat
  readFile : Text → ω → Contents
  glob : Text → ω → Except Text (List Text)
  create : Text → ω → Option Text × ω
  chtimes : Text → ω → Option Text × ω
  bash : Text → ω → Exit × ω
  rangeOrder : List Text → ω → List Text × ω
  rangeOrder_perm : ∀ keys world, (rangeOrder keys world).1.Perm keys

abbrev Map (α : Type) := List (Text × α)

def Map.insert {α : Type} (map : Map α) (key : Text) (val : α) : Map α :=
  (key, val) :: map.filter fun entry => entry.1 ≠ key

structure Rule where
  name : Text
  dir : Text
  target : Text
  multiGlob : Text
  isMulti : Bool
  isPhony : Bool
  ruleDeps : List Text
  fileDeps : List Text
  shellCommands : List Text
deriving DecidableEq, Repr

structure UnconditionalPrehook where
  shellCommands : List Text

structure ConditionalPrehook where
  exts : List Text
  deferredShellCommands : List Statement
  seenFiles : List Text

/-- What a run did: the commands of a rule were executed, or `run_build` of it returned. -/
inductive RunEvent
  | executed (name : Text)
  | completed (name : Text)
deriving DecidableEq, Repr

/-- The build graph with the world outside. `trace` is what the run has done so far and is
never read. A map to `bool` is the list of the keys that are true. -/
structure Builder (ω : Type) where
  vars : Map Text
  default : Text
  includes : Text
  defaultCflags : Text
  globalFileDeps : List Text
  rules : List Rule
  ruleIsDone : List Text
  options : List Text
  knownFileComparisons : Map Bool
  unconditionalPrehooks : List UnconditionalPrehook
  conditionalPrehooks : List ConditionalPrehook
  world : ω
  trace : List RunEvent

abbrev Build (ω : Type) := Procedure Stop (Builder ω)

variable {ω : Type} (sys : System ω)

def fatal {α : Type} (msg : Text) : Build ω α := throw (.fatal msg)

def system {α : Type} (call : ω → α × ω) : Build ω α :=
  modifyGet fun b => ((call b.world).1, { b with world := (call b.world).2 })

section Helpers

def statFile (path : Text) : Build ω Stat := do return sys.stat path (← get).world

def readAll (path : Text) : Build ω (List Text) := do
  match sys.readFile path (← get).world with
  | .read data => return split data (lit "\n")
  | .notExist => fatal (lit "Cannot find " ++ path)
  | .failed err => fatal (lit "Error on opening " ++ path ++ lit ": " ++ err)

def fileExists (dir name : Text) : Build ω Bool := do
  match ← statFile sys (joinPath dir name) with
  | .found _ _ => return true
  | _ => return false

def dirExists (path : Text) : Build ω Bool := do
  match ← statFile sys path with
  | .found isDir _ => return isDir
  | _ => return false

def removeExt (name : Text) : Text :=
  match cut (lit ".") name with
  | some (bare, _) => trimSpace bare
  | none => name

/-- Looks at the first byte of `ext`, which has to be there. -/
def replaceExt (filename ext : Text) : Except Stop Text :=
  match ext with
  | [] => .error .runtimeError
  | chr :: _ => .ok (removeExt filename ++ if chr = dot then ext else dot :: ext)

def isFileNewer (candidateDir candidate comparator : Text) : Build ω Bool := do
  match ← statFile sys (joinPath candidateDir candidate) with
  | .notExist err | .failed err => throw (.failed err)
  | .found _ time =>
      match ← statFile sys comparator with
      | .notExist _ => return true
      | .failed err => throw (.failed err)
      | .found _ compared => return compared < time

def orPanic : Option Text → Build ω Unit
  | none => return
  | some err => throw (.failed err)

def touch (filename : Text) : Build ω Unit := do
  match ← statFile sys filename with
  | .notExist _ => orPanic (← system (sys.create filename))
  | .failed err => throw (.failed err)
  | .found _ _ => orPanic (← system (sys.chtimes filename))

def shellExec (shell : Text) : Build ω Bool := do
  match shell with
  | [] => throw .runtimeError
  | chr :: rest =>
      match ← system (sys.bash (if chr = '@'.toUInt8 then rest else shell)) with
      | .success => return true
      | .nonZero => return false
      | .failed err => throw (.failed err)

/-- The keys of a map in the order one `range` over it takes. -/
def rangeKeys (keys : List Text) : Build ω (List Text) := system (sys.rangeOrder keys)

end Helpers

section Variables

def prefixIncludes (str : Text) : Text :=
  join (lit " ") ((fields str).map fun incl => lit "-I" ++ incl)

def initExtractSpecialVar (key val : Text) : Build ω Unit :=
  if key = lit "default" then modify fun b => { b with default := val }
  else if key = lit "includes" then modify fun b => { b with includes := prefixIncludes val }
  else if key = lit "default_cflags" then modify fun b => { b with defaultCflags := val }
  else if key = lit "global_file_deps" then
    modify fun b => { b with globalFileDeps := fields val }
  else throw .impossible

def Builder.combineVars (b : Builder ω) (additionalVars : Map Text) : Map Text :=
  [(lit "default", b.default), (lit "includes", b.includes),
    (lit "default_cflags", b.defaultCflags),
    (lit "global_file_deps", join (lit " ") b.globalFileDeps)] ++ additionalVars ++ b.vars

def substituteElem (context : Text) (vars : Map Text) (elem : ParamStringElement) :
    Build ω Text :=
  match elem.kind with
  | .stringElem => return elem.str
  | .variableElem =>
      match vars.lookup elem.str with
      | none =>
          fatal (context ++ lit ": Unrecognised variable $(" ++ elem.str ++ lit ")")
      | some val => return val
  | .embeddedShell => return lit "$(" ++ elem.str ++ lit ")"

def substituteVars (context : Text) (additionalVars : Map Text) (str : ParameterisedString) :
    Build ω Text := do
  let vars := (← get).combineVars additionalVars
  return (← str.mapM (substituteElem context vars)).flatten

def initSet (s : SetStatement) : Build ω Unit := do
  let val := trimSpace (← substituteVars s.key [] s.val)
  if s.isSpecial then
    initExtractSpecialVar s.key val
  else if s.isAppend then
    match (← get).vars.lookup s.key with
    | none => fatal (lit "Trying to append missing variable '" ++ s.key ++ lit "'")
    | some old => modify fun b => { b with vars := b.vars.insert s.key (old ++ lit " " ++ val) }
  else
    modify fun b => { b with vars := b.vars.insert s.key val }

def initExtractVars (state : ParseState) : Build ω Unit :=
  state.statements.forM fun statement =>
    match statement with
    | .set s => initSet s
    | _ => return

end Variables

section Dependencies

def extractRuleDependencies (dgs : Depgetset) : List Text :=
  (dgs.depgets.filter fun dg => dg.kind = .rule).map Depget.name

def readFileDependency (rule dir : Text) (dg : Depget) : Build ω (List Text) := do
  match dg.kind with
  | .rule => return []
  | .file =>
      if ← fileExists sys dir dg.name then return [dg.name]
      else
        fatal (lit "Rule '" ++ rule ++ lit "': Dependency '" ++ dg.name ++ lit "' does not exist")
  | .glob =>
      let globPath := if dir = [] then dg.name else joinPath dir dg.name
      match sys.glob globPath (← get).world with
      | .error err =>
          fatal (lit "Rule '" ++ rule ++ lit "': Unable to read GLOB '" ++ globPath ++ lit "': " ++
            err)
      | .ok names => return names.map fun name => joinPath (dirname dg.name) (base name)
  | .recursiveGlob =>
      fatal (lit "Rule '" ++ rule ++ lit "': Recursive GLOBs are not current supported!")

def readFileDependencies (rule dir : Text) (dgs : Depgetset) (hash : Map Bool) (keep : Bool) :
    Build ω (Map Bool) := do
  let names ← dgs.depgets.mapM (readFileDependency sys rule dir)
  return names.flatten.foldl (fun hash name => hash.insert name keep) hash

def extractFileDependencies (rule dir : Text) (dgs : Depgetset) (excluding : Option Depgetset) :
    Build ω (List Text) := do
  let hash ← readFileDependencies sys rule dir dgs [] true
  let hash ←
    match excluding with
    | none => pure hash
    | some excluding => readFileDependencies sys rule dir excluding hash false
  let keys ← rangeKeys sys (hash.map Prod.fst)
  return keys.filter fun key => hash.lookup key = some true

def parseDependencies (filename : Text) : Build ω (List Text) := do
  let file ← liftM (replaceExt (base filename) (lit "d"))
  if ← fileExists sys [] file then
    let str := (join (lit " ") (← readAll sys file)).filter (· ≠ '\\'.toUInt8)
    match split str (lit ":") with
    | [_, deps] => return fields deps
    | _ => fatal (lit "Invalid dependencies file " ++ file)
  else return []

end Dependencies

section Extraction

/-- The rule and the additional variables a block is read with. Both are pointers in the
source, and are passed on as the statements before left them. -/
structure Scope where
  rule : Option Rule
  vars : Map Text

def Scope.name (scope : Scope) : Text :=
  match scope.rule with
  | none => lit "prehook"
  | some rule => rule.name

def genSpecialCcParams : Build ω Text := do
  let b ← get
  let includes := if b.includes = [] then [] else lit " " ++ b.includes
  let cflags := if b.defaultCflags = [] then [] else lit " " ++ b.defaultCflags
  return includes ++ cflags

/-- The type of `get_changed_file_deps`, which also leaves the rule with its file dependencies
relative to the project. -/
abbrev ChangedFileDeps (ω : Type) :=
  Rule → Text → Option (List Text) → Bool → Build ω (List Text × Rule)

def expandForeachSources (body : Scope → Build ω (List Text × Scope)) (targetExt : Text) :
    List Text → Scope → Build ω (List Text × Scope)
  | [], scope => return ([], scope)
  | source :: sources, scope => do
      let output := base (← liftM (replaceExt source targetExt))
      let vars := (scope.vars.insert (lit "source") source).insert (lit "output") output
      let (ss, scope) ← body { scope with vars := vars }
      let (ret, scope) ← expandForeachSources body targetExt sources scope
      return (ss ++ ret, scope)

def extractExcluding (rule : Rule) (excluding : Depgetset) : Build ω (List Text) :=
  if excluding.empty then return []
  else extractFileDependencies sys rule.name rule.dir excluding none

/-- `expand_foreach_statement`, where `body` extracts the statements of the block. -/
def expandForeachStatement (changedFileDeps : ChangedFileDeps ω)
    (body : Scope → Build ω (List Text × Scope)) (rule : Rule) (vars : Map Text)
    (head : ForeachHead) : Build ω (List Text × Scope) := do
  stopIf rule.isPhony .impossible
  stopIf (¬rule.isMulti) (.fatal (lit "Rule '" ++ rule.name ++
    lit "' is using a foreach but isn't a multitarget rule"))
  stopIf (head.source ≠ lit "source" ∨ head.target ≠ lit "output")
    (.fatal (lit "Rule '" ++ rule.name ++ lit "' specifies foreach " ++ head.source ++ lit " to " ++
      head.target ++ lit " however only 'source to output' supported"))
  let excluding ← extractExcluding sys rule head.excluding
  let targetExt := ext rule.multiGlob
  let (sources, rule) ← changedFileDeps rule targetExt (some excluding) true
  expandForeachSources body targetExt sources ⟨some rule, vars⟩

def extractArgs (scope : Scope) (args : ParameterisedString) (command : Build ω Text) :
    Build ω (List Text × Scope) := do
  let suffix ← substituteVars scope.name scope.vars args
  return ([(← command) ++ lit " " ++ suffix], scope)

mutual

def extractShellCommand (changedFileDeps : ChangedFileDeps ω) (scope : Scope) :
    Statement → Build ω (List Text × Scope)
  | .shell expression noecho => do
      let str ← substituteVars scope.name scope.vars expression
      return ([if noecho then lit "@" ++ str else str], scope)
  | .cc args => extractArgs scope args do return ccBinary ++ (← genSpecialCcParams)
  | .cpp args => extractArgs scope args do return cppBinary ++ (← genSpecialCcParams)
  | .ld args => extractArgs scope args (return ldBinary)
  | .foreach head statements =>
      match scope.rule with
      | none => fatal (lit "Invalid foreach command")
      | some rule =>
          expandForeachStatement sys changedFileDeps
            (fun scope => extractShellCommands changedFileDeps scope statements)
            rule scope.vars head
  | _ => throw .impossible

def extractShellCommands (changedFileDeps : ChangedFileDeps ω) (scope : Scope) :
    List Statement → Build ω (List Text × Scope)
  | [] => return ([], scope)
  | statement :: statements => do
      let (first, scope) ← extractShellCommand changedFileDeps scope statement
      let (ret, scope) ← extractShellCommands changedFileDeps scope statements
      return (first ++ ret, scope)

end

end Extraction

section Changes

def execAll (msg : Text) (shellCommands : List Text) : Build ω Unit :=
  shellCommands.forM fun shell => do
    let succeeded ← shellExec sys shell
    stopIf (¬succeeded) (.fatal msg)

/-- A prehook has no rule, so no dependencies of one are ever asked for. -/
def execConditionalPrehook (pre : ConditionalPrehook) (filename : Text) : Build ω Unit := do
  let (shellCommands, _) ←
    extractShellCommands sys (fun rule _ _ _ => return ([], rule))
      ⟨none, [(lit "source", filename)]⟩ pre.deferredShellCommands
  execAll sys (lit "Conditional prehook command failed with non-zero exit code") shellCommands

def shouldExecConditionalPrehook (pre : ConditionalPrehook) (filename : Text) : Bool :=
  if filename ∈ pre.seenFiles then false
  else
    let ext := ext filename
    let ext := if ext.head? = some dot then ext.drop 1 else ext
    pre.exts.contains ext

def ConditionalPrehook.see (filename : Text) (pre : ConditionalPrehook) : ConditionalPrehook :=
  { pre with seenFiles := filename :: pre.seenFiles }

def execConditionalPrehookAt (filename : Text) (index : Nat) : Build ω Unit := do
  let b ← get
  match b.conditionalPrehooks[index]? with
  | none => return
  | some pre =>
      if shouldExecConditionalPrehook pre filename then do
        modify fun b =>
          { b with conditionalPrehooks := b.conditionalPrehooks.modify index (.see filename) }
        execConditionalPrehook sys pre filename
      else return

def execConditionalPrehooks (filename : Text) : Build ω Unit := do
  (List.range (← get).conditionalPrehooks.length).forM (execConditionalPrehookAt sys filename)

def normaliseRuleDir (rule : Rule) : Rule :=
  { rule with fileDeps := rule.fileDeps.map (joinPath rule.dir), dir := [] }

def checkFileDepNewer (target filename : Text) : Build ω Bool := do
  let key := target ++ lit "|" ++ filename
  match (← get).knownFileComparisons.lookup key with
  | some ret => return ret
  | none =>
      let newer ← isFileNewer sys [] filename target
      (if newer then execConditionalPrehooks sys filename else return)
      modify fun b => { b with knownFileComparisons := b.knownFileComparisons.insert key newer }
      return newer

/-- Does not stop at the first newer file, as prehooks may have to run for the others. -/
def checkFileDepsNewer (target : Text) : List Text → Build ω Bool
  | [] => return false
  | filename :: filenames => do
      let newer ← checkFileDepNewer sys target filename
      let others ← checkFileDepsNewer target filenames
      return newer || others

def computeDepfileFrom : List Text → Map (List Text) → Build ω (Map (List Text))
  | [], ret => return ret
  | filename :: filenames, ret => do
      let deps := (← parseDependencies sys filename).filter fun dep => dep.head? ≠ some slash
      computeDepfileFrom filenames (ret.insert filename ((ret.lookup filename).getD [] ++ deps))

def computeDepfileFiledeps (rule : Rule) : Build ω (Map (List Text)) := do
  if lit "compute_dependencies" ∈ (← get).options then computeDepfileFrom sys rule.fileDeps []
  else return []

/-- The file a dependency is compared with; for many targets it is the one made from it. -/
def comparedTarget (targeting : Text) (isMulti : Bool) (filename : Text) : Except Stop Text :=
  if isMulti then (replaceExt filename targeting).map base else .ok targeting

def changedFrom (targeting : Text) (isMulti : Bool) (depGraph : Map (List Text)) :
    List Text → Build ω (List Text)
  | [] => return []
  | filename :: filenames => do
      let target ← liftM (comparedTarget targeting isMulti filename)
      let own ← checkFileDepNewer sys target filename
      let deps ← checkFileDepsNewer sys target ((depGraph.lookup filename).getD [])
      let globals ← checkFileDepsNewer sys target (← get).globalFileDeps
      let rest ← changedFrom targeting isMulti depGraph filenames
      return if own || deps || globals then filename :: rest else rest

def getChangedFileDeps : ChangedFileDeps ω := fun rule targeting excluding isMulti => do
  let rule := normaliseRuleDir rule
  let depGraph ← computeDepfileFiledeps sys rule
  let hash ← changedFrom sys targeting isMulti depGraph rule.fileDeps
  let keys ← rangeKeys sys hash.dedup
  let kept := keys.filter fun key =>
    match excluding with
    | none => true
    | some excluding => key ∉ excluding ∧ base key ∉ excluding
  return (kept, rule)

end Changes

section Init

def Builder.findRule (b : Builder ω) (name : Text) : Option Rule :=
  b.rules.find? fun rule => rule.name = name

def labelVars (r : Rule) (label : Text) : Build ω (Map Text) := do
  if label = [] then
    return []
  else if r.ruleDeps ≠ [] then
    fatal (lit "Rule '" ++ r.name ++ lit "' specifies dependencies labelled '" ++ label ++
      lit "' but they contain rules?")
  else
    return [(label, join (lit " ") r.fileDeps)]

def checkLocalDir (name dir : Text) : Build ω Unit := do
  let present ← dirExists sys dir
  stopIf (dir ≠ [] ∧ ¬present) (.fatal (lit "Rule '" ++ name ++ lit "': Local directory '" ++ dir ++
    lit "' does not exist or not a directory"))

def addRule (r : Rule) (label : Text) (statements : List Statement) : Build ω Unit := do
  let additionalVars ← labelVars r label
  let (shellCommands, scope) ←
    extractShellCommands sys (getChangedFileDeps sys) ⟨some r, additionalVars⟩ statements
  let r := { scope.rule.getD r with shellCommands := shellCommands }
  modify fun b => { b with rules := b.rules ++ [r] }

def initCommand (cmd : CommandHead) (statements : List Statement) : Build ω Unit := do
  let b ← get
  stopIf (b.findRule cmd.name).isSome (.fatal (lit "Duplicate command '" ++ cmd.name ++ lit "'"))
  checkLocalDir sys cmd.name cmd.localDir
  let fileDeps ← extractFileDependencies sys cmd.name cmd.localDir cmd.dependencies none
  stopIf (fileDeps ≠ [])
    (.fatal (lit "Rule '" ++ cmd.name ++ lit "': Commands cannot have file dependencies"))
  let r := Rule.mk cmd.name cmd.localDir cmd.name [] false true
    (extractRuleDependencies cmd.dependencies) [] []
  addRule sys r cmd.dependencies.label statements

/-- A call is replaced by the commands of the rule it names. -/
def expandCall (b : Builder ω) : Statement → Build ω (List Statement)
  | .call name =>
      match b.findRule name with
      | none => fatal (lit "Unable to lookup called rule '" ++ name ++ lit "'")
      | some rule =>
          return rule.shellCommands.map fun shell => .shell [⟨.stringElem, shell⟩] false
  | statement => return [statement]

def fixupNestedCommandCalls (statements : List Statement) : Build ω (List Statement) := do
  let b ← get
  return (← statements.mapM (expandCall b)).flatten

def initCommands (state : ParseState) : Build ω Unit := do
  state.statements.forM fun statement =>
    match statement with
    | .command head statements => if head.hasNestedCalls then return else initCommand sys head statements
    | _ => return
  state.statements.forM fun statement =>
    match statement with
    | .command head statements =>
        if head.hasNestedCalls then do
          initCommand sys head (← fixupNestedCommandCalls statements)
        else return
    | _ => return

def buildTarget (build : BuildHead) : Build ω (Text × Option Text) := do
  match build.target.depgets with
  | [target] =>
      match target.kind with
      | .file =>
          stopIf (build.aliasName ≠ []) (.fatal (lit "Biuld targeting '" ++ target.name ++
            lit "': Non-multi builds cannot have aliases"))
          return (target.name, none)
      | .glob =>
          match target.name with
          | [] => throw .runtimeError
          | chr :: _ =>
              stopIf (chr ≠ '*'.toUInt8) (.fatal (lit "Rule '" ++ build.aliasName ++
                lit "': Multi-target glob '" ++ target.name ++ lit "' cannot be prefixed"))
              stopIf (build.aliasName = []) (.fatal (lit "Rule '" ++ build.aliasName ++
                lit "': Multi-target builds must specify an alias"))
              return (build.aliasName, some target.name)
      | .recursiveGlob =>
          fatal (lit "Build targeting '" ++ target.name ++
            lit "': Recursive glob not permited in build target")
      | .rule =>
          fatal (lit "Build targeting '" ++ target.name ++ lit "': Target cannot be a rule")
  | _ =>
      fatal
        (lit "Build statements currently only support a single target (multi glob or target file)")

def insertAlias (aliasName multiGlob : Text) (fileDeps : List Text) : Build ω Unit := do
  let outputs ← fileDeps.mapM fun name => do
    return base (← liftM (replaceExt name (ext multiGlob)))
  modify fun b => { b with vars := b.vars.insert aliasName (join (lit " ") outputs) }

def initBuild (build : BuildHead) (statements : List Statement) : Build ω Unit := do
  let (name, multiGlob) ← buildTarget build
  let b ← get
  stopIf (b.findRule name).isSome (.fatal (lit "Duplicate build '" ++ name ++ lit "'"))
  checkLocalDir sys name build.localDir
  let fileDeps ← extractFileDependencies sys name build.localDir build.dependencies build.excluding
  let r := Rule.mk name build.localDir name (multiGlob.getD []) multiGlob.isSome false
    (extractRuleDependencies build.dependencies) fileDeps []
  multiGlob.forM fun glob => insertAlias build.aliasName glob fileDeps
  addRule sys r build.dependencies.label statements

def initBuilds (state : ParseState) : Build ω Unit :=
  state.statements.forM fun statement =>
    match statement with
    | .build head statements => initBuild sys head statements
    | _ => return

def initOptions (state : ParseState) : Build ω Unit :=
  state.statements.forM fun statement =>
    match statement with
    | .option => modify fun b =>
        { b with
          options := lit "compute_dependencies" :: b.options
          defaultCflags := b.defaultCflags ++ lit "-MD" }
    | _ => return

def initUnconditionalPrehook (statements : List Statement) : Build ω Unit := do
  let (shells, _) ← extractShellCommands sys (getChangedFileDeps sys) ⟨none, []⟩ statements
  modify fun b => { b with unconditionalPrehooks := b.unconditionalPrehooks ++ [⟨shells⟩] }

/-- The extension of a recursive glob: `dg.name[2:]`. -/
def prehookExt (dg : Depget) : Build ω Text :=
  match dg.kind with
  | .recursiveGlob => liftM (sliceFrom dg.name 2)
  | _ => fatal (lit "Conditional prehooks only supported for file ext only")

def initConditionalPrehook (dependencies : Depgetset) (statements : List Statement) :
    Build ω Unit := do
  stopIf (dependencies.label ≠ [])
    (.fatal (lit "Labels are not supported in prehook statements"))
  let exts ← dependencies.depgets.mapM prehookExt
  modify fun b =>
    { b with conditionalPrehooks := b.conditionalPrehooks ++ [⟨exts, statements, []⟩] }

def initPrehooks (state : ParseState) : Build ω Unit :=
  state.statements.forM fun statement =>
    match statement with
    | .prehook dependencies .always statements => do
        stopIf (¬dependencies.empty)
          (.fatal (lit "Unconditional prehooks cannot have dependencies"))
        initUnconditionalPrehook sys statements
    | .prehook dependencies .onChange statements =>
        initConditionalPrehook dependencies statements
    | _ => return

def checkRuleDeps : Build ω Unit := do
  let b ← get
  let names ← rangeKeys sys (b.rules.map Rule.name)
  names.forM fun name =>
    match b.findRule name with
    | none => return
    | some r => r.ruleDeps.forM fun dep =>
        stopIf (b.findRule dep).isNone (.fatal (lit "Unable to resolve dependency '" ++ dep ++
          lit "' for rule '" ++ r.name ++ lit "'"))

def Builder.empty (world : ω) : Builder ω := ⟨[], [], [], [], [], [], [], [], [], [], [], world, []⟩

def init (state : ParseState) : Build ω Unit := do
  initExtractVars state
  initOptions state
  initCommands sys state
  initBuilds sys state
  initPrehooks sys state
  checkRuleDeps sys
  let b ← get
  stopIf (b.default = []) (.fatal (lit "Default rule not specified"))

end Init

section Run

def Builder.record (b : Builder ω) (event : RunEvent) : Builder ω :=
  { b with trace := b.trace ++ [event] }

def Builder.markDone (b : Builder ω) (name : Text) : Builder ω :=
  { b with ruleIsDone := name :: b.ruleIsDone }

def execBuild (rule : Rule) (target : Text) : Build ω Unit := do
  modify fun b => b.record (.executed rule.name)
  execAll sys (lit "Rule '" ++ rule.name ++ lit "': Command failed with non-zero exit code")
    rule.shellCommands
  if rule.isMulti then touch sys target else return

/-- The file that the file dependencies of a rule are compared with. -/
def Rule.stamp (rule : Rule) : Text :=
  if rule.isMulti then zbuildTmpfilePrefix ++ rule.name else rule.name

def Builder.setRule (b : Builder ω) (rule : Rule) : Builder ω :=
  { b with rules := b.rules.map fun old => if old.name = rule.name then rule else old }

/-- Whether a file dependency of the rule has changed. The rule is a pointer in the source, so
that what `get_changed_file_deps` does to it is seen in the graph. -/
def ruleChanged (rule : Rule) : Build ω Bool := do
  let (changed, rule) ← getChangedFileDeps sys rule rule.stamp none false
  modify fun b => b.setRule rule
  return !changed.isEmpty

/-- The loop over the rule dependencies, where `run` is `run_build`. -/
def runDeps (run : Text → Build ω Bool) : List Text → Bool → Build ω Bool
  | [], shouldExec => return shouldExec
  | ruledep :: ruledeps, shouldExec => do
      let ran ← run ruledep
      runDeps run ruledeps (shouldExec || ran)

/-- `run_build` of a rule that is not done yet, where `run` is `run_build`. -/
def runRule (run : Text → Build ω Bool) (rule : Rule) : Build ω Bool := do
  let changed ← ruleChanged sys rule
  modify fun b => b.markDone rule.name
  let depsRan ← runDeps run rule.ruleDeps changed
  let present ← fileExists sys [] rule.stamp
  let shouldExec := depsRan || rule.isPhony || !present
  (if shouldExec then execBuild sys rule rule.stamp else return)
  modify fun b => b.record (.completed rule.name)
  return shouldExec

def runBuild : Nat → Text → Build ω Bool
  | 0, _ => throw .outOfFuel
  | fuel + 1, ruleName => do
      let b ← get
      match b.findRule ruleName with
      | none => fatal (lit "Cannot find rule '" ++ ruleName ++ lit "'")
      | some rule =>
          if ruleName ∈ b.ruleIsDone then return false
          else runRule sys (runBuild fuel) rule

def runUnconditionalPrehooks : Build ω Unit := do
  (← get).unconditionalPrehooks.forM fun prehook =>
    execAll sys (lit "Prehook command failed with non-zero exit code") prehook.shellCommands

def doBuild (fuel : Nat) (state : ParseState) (ruleName : Text) : Build ω Bool := do
  init sys state
  runUnconditionalPrehooks sys
  let b ← get
  runBuild sys fuel (if ruleName = [] then b.default else ruleName)

end Run

end Zeptux.Zbuild
