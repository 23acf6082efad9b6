import Zeptux.ZbuildStamp

/-!
Whether the outputs of a build with many targets are made again. Which commands there are is
decided by the outputs when the graph is made, and whether they are executed by the stamp of the
rule.
-/

namespace Zeptux.Zbuild

open Strings Procedure

variable {ω : Type} {sys : System ω} {world : ω} {graph start after : Builder ω}

def System.Outdated (sys : System ω) (world : ω) (source output : Text) : Prop :=
  ∃ isDir time, sys.stat source world = .found isDir time ∧
    ((∃ err, sys.stat output world = .notExist err) ∨
      ∃ isDir compared, sys.stat output world = .found isDir compared ∧ compared < time)

/-- The two names in the key of a noted comparison can be told apart: no output, and no rule that
the run of `name` comes to, has a bar in its name. -/
structure Builder.Readable (b : Builder ω) (name : Text) : Prop where
  rules : ∀ other, b.Reaches name other → bar ∉ other
  outputs : ∀ rule ∈ b.rules, rule.Separable

/-- The rule of the build has the commands of the body for the source, made with the settings of
the graph and with the variables of the block. -/
def Rule.MakesWith (rule : Rule) (sys : System ω) (state : ParseState) (graph : Builder ω)
    (build : BuildHead) (body : List Statement) (source output : Text) : Prop :=
  ∃ names, rule.fileDeps = names.map (joinPath build.localDir) ∧
    HoldsCommands sys (SameSettings state · graph) body (blockVars build.dependencies.label names)
      source output rule.shellCommands

theorem joinPath_of_normal {rule : Rule} (normal : normaliseRuleDir rule = rule) {source : Text}
    (inside : source ∈ rule.fileDeps) : joinPath [] source = source := by
  have listed : source ∈ (normaliseRuleDir rule).fileDeps := by rwa [normal]
  obtain ⟨name, -, rfl⟩ := List.mem_map.mp listed
  exact joinPath_joinPath rule.dir name

theorem System.Outdated.newer {source output : Text} (outdated : sys.Outdated world source output)
    (own : joinPath [] source = source) : sys.newer source output world = true := by
  obtain ⟨isDir, time, found, missing | older⟩ := outdated
  · obtain ⟨err, missing⟩ := missing
    simp [System.newer, own, found, missing]
  · obtain ⟨isDir, compared, other, older⟩ := older
    simp [System.newer, own, found, other, older]

theorem runUnconditionalPrehooks_graph
    (prepared : (runUnconditionalPrehooks sys).call graph = (.ok (), start)) :
    start.rules = graph.rules ∧ start.ruleIsDone = graph.ruleIsDone ∧ start.trace = graph.trace := by
  have basic : Undisturbed (fun x : Builder ω => x.rules = graph.rules ∧
      x.ruleIsDone = graph.ruleIsDone ∧ x.trace = graph.trace) fun _ => True :=
    ⟨fun _ => trivial, fun _ => trivial, trivial, fun _ _ same => same⟩
  have prehooks : Keeps _ _ (runUnconditionalPrehooks sys) :=
    Meets.get.bind fun b _ => Meets.forM fun prehook _ => execAll_keeps basic _ prehook.shellCommands
  exact (prehooks.ok ⟨rfl, rfl, rfl⟩ prepared).1

/-- A build with many targets whose output is missing or older than its source has the commands
for that source, but `run_build` executes them if and only if the rule, or one that it depends on,
is a command, has no stamp or has a dependency that is newer than its stamp. -/
theorem outdated_output_rebuilt_iff (sys : System ω) (state : ParseState) (world : ω)
    (graph start after : Builder ω) (build : BuildHead) (glob : Text) (head : ForeachHead)
    (front body back : List Statement) (rule : Rule) (source output : Text) (fuel : Nat) (ran : Bool)
    (quiet : sys.RangesQuietly)
    (inited : (init sys state).call (Builder.empty world) = (.ok (), graph))
    (prepared : (runUnconditionalPrehooks sys).call graph = (.ok (), start))
    (called : (runBuild sys fuel build.aliasName).call start = (.ok ran, after))
    (readable : graph.Readable build.aliasName)
    (listed : .build build (front ++ .foreach head body :: back) ∈ state.statements)
    (multi : build.target.depgets = [⟨.glob, glob⟩])
    (found : graph.findRule build.aliasName = some rule) (inside : source ∈ rule.fileDeps)
    (makes : rule.Makes source output)
    (included : ¬Excluded sys world (foreachDir build.localDir front) head.excluding source)
    (outdated : sys.Outdated world source output) :
    rule.MakesWith sys state graph build body source output ∧
        .executed build.aliasName ∈ after.trace ↔
      ∃ name, start.Reaches build.aliasName name ∧ start.Stale sys name := by
  obtain ⟨fresh, other, names, same, -, normal, given, expanded⟩ :=
    init_expanded quiet inited readable.outputs listed multi
  obtain rfl : rule = other := Option.some.inj (found.symm.trans same)
  obtain ⟨rules, done, trace⟩ := runUnconditionalPrehooks_graph prepared
  have commands : rule.MakesWith sys state graph build body source output := by
    refine ⟨names, given, expanded source ?_ output makes ?_ included⟩
    · rwa [normal]
    · exact outdated.newer (joinPath_of_normal normal inside)
  have deps : start.deps = graph.deps := by
    funext name
    rw [Builder.deps, Builder.deps, Builder.findRule, Builder.findRule, rules]
  have plain : ∀ other, start.Reaches build.aliasName other → bar ∉ other := by
    intro other reaches
    rw [Builder.Reaches, deps] at reaches
    exact readable.rules other reaches
  have executes := runBuild_executes_iff quiet plain
    ⟨done.trans fresh.done, trace.trans fresh.trace⟩ called
  rw [← executes]
  exact ⟨fun both => both.2, fun executed => ⟨commands, executed⟩⟩

section Examples

def objectsFile : List Text :=
  [lit "set special default = objs", lit "build [*.o] from [*.c] as objs \x7b",
    lit "foreach source to output \x7b", lit "cc -c $source -o $output", lit "\x7d", lit "\x7d"]

def objectsBuild : BuildHead :=
  ⟨⟨[], [⟨.glob, lit "*.o"⟩]⟩, ⟨[], [⟨.glob, lit "*.c"⟩]⟩, none, [], lit "objs"⟩

def objectsLoop : ForeachHead := ⟨lit "source", lit "output", ⟨[], []⟩⟩

def objectsBody : List Statement :=
  [.cc [⟨.stringElem, lit "-c "⟩, ⟨.variableElem, lit "source"⟩, ⟨.stringElem, lit " -o "⟩,
    ⟨.variableElem, lit "output"⟩]]

def objectsState : ParseState :=
  ⟨6, lit "\x7d", [], [lit "objs"],
    [.set ⟨true, false, lit "default", [⟨.stringElem, lit "objs"⟩]⟩,
      .build objectsBuild [.foreach objectsLoop objectsBody]]⟩

/-- The files with their times, where every command makes the object of the one source now. -/
def objectsSystem : System (Map Int) where
  stat name files :=
    match files.lookup name with
    | some time => .found false time
    | none => .notExist []
  readFile _ _ := .notExist
  glob _ files := .ok ((files.map Prod.fst).filter fun name => hasSuffix name (lit ".c"))
  create name files := (none, files.insert name 9)
  chtimes name files := (none, files.insert name 9)
  bash _ files := (.success, files.insert (lit "a.o") 9)
  rangeOrder keys files := (keys, files)
  rangeOrder_perm keys _ := .refl keys

def deletedOutput : Map Int := [(lit "a.c", 1), (lit ".zbuild.objs", 5)]

def changedSource : Map Int := [(lit "a.c", 7), (lit "a.o", 4), (lit ".zbuild.objs", 5)]

def objectsGraph (files : Map Int) : Builder (Map Int) :=
  ((init objectsSystem objectsState).call (Builder.empty files)).2

def objectsStart (files : Map Int) : Builder (Map Int) :=
  ((runUnconditionalPrehooks objectsSystem).call (objectsGraph files)).2

def objectsAfter (files : Map Int) : Builder (Map Int) :=
  ((runBuild objectsSystem 2 objectsBuild.aliasName).call (objectsStart files)).2

def objectsRule : Rule :=
  ⟨lit "objs", [], lit "objs", lit "*.o", true, false, [], [lit "a.c"],
    [lit "gcc -c a.c -o a.o"]⟩

theorem objects_steps (files : Map Int) (ran : Bool)
    (inited : ((init objectsSystem objectsState).call (Builder.empty files)).1 = .ok ())
    (prepared : ((runUnconditionalPrehooks objectsSystem).call (objectsGraph files)).1 = .ok ())
    (called : ((runBuild objectsSystem 2 objectsBuild.aliasName).call (objectsStart files)).1 =
      .ok ran) :
    (init objectsSystem objectsState).call (Builder.empty files) = (.ok (), objectsGraph files) ∧
      (runUnconditionalPrehooks objectsSystem).call (objectsGraph files) =
        (.ok (), objectsStart files) ∧
      (runBuild objectsSystem 2 objectsBuild.aliasName).call (objectsStart files) =
        (.ok ran, objectsAfter files) :=
  ⟨Prod.ext inited rfl, Prod.ext prepared rfl, Prod.ext called rfl⟩

theorem objectsSystem_quiet : objectsSystem.RangesQuietly := fun _ files => .refl files

theorem objectsRule_makes : objectsRule.Makes (lit "a.c") (lit "a.o") := by
  rw [Rule.Makes]
  decide +kernel

theorem objectsGraph_readable {files : Map Int}
    (rules : (objectsGraph files).rules = [objectsRule]) :
    (objectsGraph files).Readable objectsBuild.aliasName := by
  have deps : (normaliseRuleDir objectsRule).fileDeps = [lit "a.c"] := by decide +kernel
  refine ⟨fun other reaches => ?_, fun rule among source inside output makes => ?_⟩
  · induction reaches with
    | refl => decide +kernel
    | tail path depends ih =>
        obtain ⟨rule, among, -, inside⟩ := Builder.dependsOn_listed depends
        rw [rules] at among
        rw [List.mem_singleton.mp among] at inside
        cases inside
  · rw [rules] at among
    obtain rfl := List.mem_singleton.mp among
    rw [deps] at inside
    obtain rfl := List.mem_singleton.mp inside
    obtain rfl := Except.ok.inj (objectsRule_makes.symm.trans makes)
    decide +kernel

/-- An object that was deleted is not made again, as the stamp is newer than the source. -/
theorem deletedOutput_not_rebuilt :
    doParse objectsFile = .ok objectsState ∧
    objectsSystem.RangesQuietly ∧
    (init objectsSystem objectsState).call (Builder.empty deletedOutput) =
      (.ok (), objectsGraph deletedOutput) ∧
    (runUnconditionalPrehooks objectsSystem).call (objectsGraph deletedOutput) =
      (.ok (), objectsStart deletedOutput) ∧
    (runBuild objectsSystem 2 objectsBuild.aliasName).call (objectsStart deletedOutput) =
      (.ok false, objectsAfter deletedOutput) ∧
    (objectsGraph deletedOutput).Readable objectsBuild.aliasName ∧
    .build objectsBuild ([] ++ .foreach objectsLoop objectsBody :: []) ∈ objectsState.statements ∧
    (objectsGraph deletedOutput).findRule objectsBuild.aliasName = some objectsRule ∧
    lit "a.c" ∈ objectsRule.fileDeps ∧
    objectsRule.Makes (lit "a.c") (lit "a.o") ∧
    ¬Excluded objectsSystem deletedOutput (foreachDir objectsBuild.localDir []) objectsLoop.excluding
      (lit "a.c") ∧
    objectsSystem.Outdated deletedOutput (lit "a.c") (lit "a.o") ∧
    ¬(objectsRule.MakesWith objectsSystem objectsState (objectsGraph deletedOutput) objectsBuild
        objectsBody (lit "a.c") (lit "a.o") ∧
      .executed objectsBuild.aliasName ∈ (objectsAfter deletedOutput).trace) := by
  have rules : (objectsGraph deletedOutput).rules = [objectsRule] := by decide +kernel
  obtain ⟨inited, prepared, called⟩ := objects_steps deletedOutput false
    (by decide +kernel) (by decide +kernel) (by decide +kernel)
  refine ⟨rfl, objectsSystem_quiet, inited, prepared, called, objectsGraph_readable rules, by simp [objectsState],
    by decide +kernel, by decide +kernel, objectsRule_makes, ?_, ?_, ?_⟩
  · rintro ⟨dg, inside, -⟩
    cases inside
  · exact ⟨false, 1, by decide +kernel, .inl ⟨[], by decide +kernel⟩⟩
  · rintro ⟨-, executed⟩
    have skipped : .executed objectsBuild.aliasName ∉ (objectsAfter deletedOutput).trace := by
      decide +kernel
    exact skipped executed

theorem changedSource_rebuilt :
    objectsSystem.Outdated changedSource (lit "a.c") (lit "a.o") ∧
    (objectsRule.MakesWith objectsSystem objectsState (objectsGraph changedSource) objectsBuild
        objectsBody (lit "a.c") (lit "a.o") ∧
      .executed objectsBuild.aliasName ∈ (objectsAfter changedSource).trace ↔
      ∃ name, (objectsStart changedSource).Reaches objectsBuild.aliasName name ∧
        (objectsStart changedSource).Stale objectsSystem name) := by
  have rules : (objectsGraph changedSource).rules = [objectsRule] := by decide +kernel
  have outdated : objectsSystem.Outdated changedSource (lit "a.c") (lit "a.o") :=
    ⟨false, 7, by decide +kernel, .inr ⟨false, 4, by decide +kernel, by decide⟩⟩
  obtain ⟨inited, prepared, called⟩ := objects_steps changedSource true
    (by decide +kernel) (by decide +kernel) (by decide +kernel)
  refine ⟨outdated, outdated_output_rebuilt_iff objectsSystem objectsState changedSource
    (objectsGraph changedSource) (objectsStart changedSource) (objectsAfter changedSource)
    objectsBuild (lit "*.o") objectsLoop [] objectsBody [] objectsRule (lit "a.c") (lit "a.o") 2 true
    objectsSystem_quiet inited prepared called (objectsGraph_readable rules) (by simp [objectsState]) rfl
    (by decide +kernel) (by decide +kernel) objectsRule_makes ?_ outdated⟩
  rintro ⟨dg, inside, -⟩
  cases inside

end Examples

end Zeptux.Zbuild
