import Zeptux.ZbuildRun
import Zeptux.ZbuildSets

/-!
The flags in the commands that `init` makes. The commands of a block are followed statement by
statement, so that each `cc` is known with its own parameters.
-/

namespace Zeptux.Zbuild

open Strings Procedure

variable {ω : Type} {sys : System ω} {world : ω} {state : ParseState} {b base after graph : Builder ω}

section Emitting

def Said (now : Builder ω → Prop) (str : ParameterisedString) (text : Text) : Prop :=
  ∃ b scope after, now b ∧
    (substituteVars (Scope.name scope) scope.vars str).call b = (.ok text, after)

mutual

/-- The statement gives the commands when each compiler is called with the flags. A block of a
`foreach` is read once for every source, and a call stands for a command of the file. -/
inductive Emits (state : ParseState) (now : Builder ω → Prop) (flags : List Text) :
    Statement → List Text → Prop
  | shell {expression : ParameterisedString} {text : Text} (noecho : Bool)
      (said : Said now expression text) :
      Emits state now flags (.shell expression noecho) [if noecho then lit "@" ++ text else text]
  | cc {args : ParameterisedString} {suffix command : Text} (said : Said now args suffix)
      (tokens : fields command = ccBinary :: (flags ++ fields suffix)) :
      Emits state now flags (.cc args) [command]
  | cpp {args : ParameterisedString} {suffix command : Text} (said : Said now args suffix)
      (tokens : fields command = cppBinary :: (flags ++ fields suffix)) :
      Emits state now flags (.cpp args) [command]
  | ld {args : ParameterisedString} {suffix : Text} (said : Said now args suffix) :
      Emits state now flags (.ld args) [ldBinary ++ lit " " ++ suffix]
  | foreach {head : ForeachHead} {body : List Statement} {rounds : List (List Text)}
      (each : ∀ round ∈ rounds, EmitsAll state now flags body round) :
      Emits state now flags (.foreach head body) rounds.flatten
  | call {head : CommandHead} {body : List Statement} {commands : List Text}
      (listed : .command head body ∈ state.statements)
      (called : EmitsAll state now flags body commands) :
      Emits state now flags (.call head.name) commands

inductive EmitsAll (state : ParseState) (now : Builder ω → Prop) (flags : List Text) :
    List Statement → List Text → Prop
  | nil : EmitsAll state now flags [] []
  | cons {statement : Statement} {statements : List Statement} {commands others : List Text}
      (first : Emits state now flags statement commands)
      (rest : EmitsAll state now flags statements others) :
      EmitsAll state now flags (statement :: statements) (commands ++ others)

end

def Builder.flags (b : Builder ω) : List Text := fields b.includes ++ fields b.defaultCflags

theorem genSpecialCcParams_fields {params : Text}
    (called : genSpecialCcParams.call b = (.ok params, after)) {binary : Text}
    (single : fields binary = [binary]) (suffix : Text) :
    fields (binary ++ params ++ lit " " ++ suffix) = binary :: (b.flags ++ fields suffix) := by
  have part (text : Text) : ∀ front, fields (front ++ if text = [] then [] else lit " " ++ text) =
      fields front ++ fields text := by
    intro front
    split_ifs with empty
    · rw [empty, List.append_nil]
      exact (List.append_nil _).symm
    · rw [← List.append_assoc]
      exact fields_blank front text
  cases called
  rw [fields_blank, ← List.append_assoc, part, part, single, Builder.flags]
  simp

section Extraction

variable {inv now : Builder ω → Prop} {flags : List Text} {changedFileDeps : ChangedFileDeps ω}

structure Extracting (sys : System ω) (changedFileDeps : ChangedFileDeps ω)
    (inv now : Builder ω → Prop) (flags : List Text) : Prop where
  basic : Ranged sys inv fun _ => True
  deps : ∀ rule targeting excluding isMulti,
    Keeps inv (fun _ => True) (changedFileDeps rule targeting excluding isMulti)
  now : ∀ b, inv b → now b
  flags : ∀ b, inv b → b.flags = flags

theorem substituteVars_said (extracting : Extracting sys changedFileDeps inv now flags)
    (scope : Scope) (str : ParameterisedString) :
    Meets inv (fun _ => True) (Said now str) (substituteVars scope.name scope.vars str) := by
  refine (substituteVars_keeps extracting.basic _ _ _).returns.mono ?_
  rintro text ⟨-, b, after, holds, called⟩
  exact ⟨b, scope, after, extracting.now b holds, called⟩

theorem extractCompiler_emits (extracting : Extracting sys changedFileDeps inv now flags)
    (scope : Scope) (args : ParameterisedString) {binary : Text}
    (single : fields binary = [binary]) :
    Meets inv (fun _ => True)
      (fun out => ∃ suffix command, Said now args suffix ∧
        fields command = binary :: (flags ++ fields suffix) ∧ out.1 = [command])
      (extractArgs scope args do return binary ++ (← genSpecialCcParams)) := by
  refine (substituteVars_said extracting scope args).bind fun suffix said => ?_
  have params : Meets inv (fun _ => True)
      (fun command => fields (command ++ lit " " ++ suffix) = binary :: (flags ++ fields suffix))
      (do return binary ++ (← genSpecialCcParams) : Build ω Text) := by
    have kept : Keeps inv (fun _ => True) (genSpecialCcParams : Build ω Text) :=
      genSpecialCcParams_keeps
    refine kept.returns.bind ?_
    rintro params ⟨-, b, after, holds, called⟩
    refine Meets.pure ?_
    rw [genSpecialCcParams_fields called single, extracting.flags b holds]
  refine params.bind fun command tokens => Meets.pure ?_
  exact ⟨suffix, _, said, tokens, rfl⟩

theorem expandForeachSources_emits (extracting : Extracting sys changedFileDeps inv now flags)
    {body : Scope → Build ω (List Text × Scope)} {statements : List Statement}
    (each : ∀ scope, Meets inv (fun _ => True)
      (fun out => EmitsAll state now flags statements out.1) (body scope))
    (targetExt : Text) (sources : List Text) : ∀ scope, Meets inv (fun _ => True)
      (fun out => ∃ rounds : List (List Text), out.1 = rounds.flatten ∧
        ∀ round ∈ rounds, EmitsAll state now flags statements round)
      (expandForeachSources body targetExt sources scope) := by
  induction sources with
  | nil => exact fun scope => Meets.pure ⟨[], rfl, nofun⟩
  | cons source sources ih =>
      intro scope
      refine (replaceExt_keeps extracting.basic _ _).bind fun output _ => ?_
      refine (each _).bind fun first emitted => ?_
      refine (ih first.2).bind fun others ⟨rounds, joined, emits⟩ => Meets.pure ?_
      refine ⟨first.1 :: rounds, by rw [joined]; rfl, ?_⟩
      intro round inside
      rcases List.mem_cons.mp inside with rfl | later
      · exact emitted
      · exact emits round later

theorem expandForeachStatement_emits (extracting : Extracting sys changedFileDeps inv now flags)
    {body : Scope → Build ω (List Text × Scope)} {statements : List Statement}
    (each : ∀ scope, Meets inv (fun _ => True)
      (fun out => EmitsAll state now flags statements out.1) (body scope))
    (rule : Rule) (vars : Map Text) (head : ForeachHead) :
    Meets inv (fun _ => True)
      (fun out => Emits state now flags (.foreach head statements) out.1)
      (expandForeachStatement sys changedFileDeps body rule vars head) := by
  refine (stopIf_keeps trivial).bind fun _ _ => ?_
  refine (stopIf_keeps trivial).bind fun _ _ => ?_
  refine (stopIf_keeps trivial).bind fun _ _ => ?_
  refine (extractExcluding_keeps extracting.basic _ _).bind fun excluding _ => ?_
  refine (extracting.deps _ _ _ _).bind fun out _ => ?_
  refine (expandForeachSources_emits extracting each _ _ _).mono ?_
  rintro last ⟨rounds, joined, emits⟩
  rw [joined]
  exact .foreach emits

mutual

theorem extractShellCommand_emits (extracting : Extracting sys changedFileDeps inv now flags)
    (scope : Scope) : ∀ statement, Meets inv (fun _ => True)
      (fun out => Emits state now flags statement out.1)
      (extractShellCommand sys changedFileDeps scope statement)
  | .shell expression noecho => by
      rw [extractShellCommand]
      exact (substituteVars_said extracting scope expression).bind fun text said =>
        Meets.pure (.shell noecho said)
  | .cc args => by
      rw [extractShellCommand]
      refine (extractCompiler_emits extracting scope args (by decide)).mono ?_
      rintro out ⟨suffix, command, said, tokens, same⟩
      rw [same]
      exact .cc said tokens
  | .cpp args => by
      rw [extractShellCommand]
      refine (extractCompiler_emits extracting scope args (by decide)).mono ?_
      rintro out ⟨suffix, command, said, tokens, same⟩
      rw [same]
      exact .cpp said tokens
  | .ld args => by
      rw [extractShellCommand]
      refine (substituteVars_said extracting scope args).bind fun suffix said => ?_
      exact Meets.pure (.ld said)
  | .foreach head statements => by
      rw [extractShellCommand]
      cases scope.rule with
      | none => exact Meets.throw trivial
      | some rule =>
          exact expandForeachStatement_emits extracting
            (fun current => extractShellCommands_emits extracting current statements) rule _ head
  | .set _ | .option | .prehook _ _ _ | .build _ _ | .command _ _ | .call _ => by
      simp only [extractShellCommand]
      exact Meets.throw trivial

theorem extractShellCommands_emits (extracting : Extracting sys changedFileDeps inv now flags)
    (scope : Scope) : ∀ statements, Meets inv (fun _ => True)
      (fun out => EmitsAll state now flags statements out.1)
      (extractShellCommands sys changedFileDeps scope statements)
  | [] => by
      rw [extractShellCommands]
      exact Meets.pure .nil
  | statement :: statements => by
      rw [extractShellCommands]
      refine (extractShellCommand_emits extracting scope statement).bind fun first emits => ?_
      refine (extractShellCommands_emits extracting first.2 statements).bind fun rest others => ?_
      exact Meets.pure (.cons emits others)

end

end Extraction

end Emitting

section Passes

variable {now : Builder ω → Prop} {flags : List Text}

theorem EmitsAll.split {front back : List Statement} {commands : List Text}
    (emits : EmitsAll state now flags (front ++ back) commands) :
    ∃ first last, commands = first ++ last ∧ EmitsAll state now flags front first ∧
      EmitsAll state now flags back last := by
  induction front generalizing commands with
  | nil => exact ⟨[], commands, rfl, .nil, emits⟩
  | cons statement front ih =>
      cases emits with
      | cons own rest =>
          obtain ⟨first, last, rfl, before, after⟩ := ih rest
          exact ⟨_, last, by rw [List.append_assoc], .cons own before, after⟩

theorem EmitsAll.repeated {shells commands : List Text}
    (emits : EmitsAll state now flags
      (shells.map fun shell => .shell [⟨.stringElem, shell⟩] false) commands) :
    commands = shells := by
  induction shells generalizing commands with
  | nil =>
      cases emits
      rfl
  | cons shell shells ih =>
      cases emits with
      | cons own rest =>
          cases own with
          | shell _ said =>
              obtain ⟨b, scope, after, -, called⟩ := said
              rw [substituteVars_plain (by simp)] at called
              cases called
              rw [ih rest]
              simp [ParamStringElement.text]

def Commanded (state : ParseState) (now : Builder ω → Prop) (flags : List Text) (rule : Rule) :
    Prop :=
  ∃ head body, .command head body ∈ state.statements ∧ head.name = rule.name ∧
    EmitsAll state now flags body rule.shellCommands

def Blocked (state : ParseState) (now : Builder ω → Prop) (flags : List Text) (rule : Rule) : Prop :=
  Commanded state now flags rule ∨
    ∃ head body, .build head body ∈ state.statements ∧ head.Names rule.name ∧
      EmitsAll state now flags body rule.shellCommands

theorem expandCall_emits (known : ∀ rule ∈ b.rules, Commanded state now flags rule)
    {statement : Statement} {part : List Statement} {first : Builder ω}
    (expanded : (expandCall b statement).call first = (.ok part, after)) {commands : List Text}
    (emits : EmitsAll state now flags part commands) : Emits state now flags statement commands := by
  have single {statement : Statement} (same : part = [statement]) :
      Emits state now flags statement commands := by
    subst same
    cases emits with
    | cons own rest =>
        cases rest
        rw [List.append_nil]
        exact own
  cases statement with
  | call name =>
      rw [expandCall] at expanded
      cases found : b.findRule name with
      | none =>
          rw [found] at expanded
          cases expanded
      | some rule =>
          rw [found] at expanded
          cases expanded
          obtain ⟨head, body, listed, named, made⟩ := known rule (List.mem_of_find?_eq_some found)
          have asked : rule.name = name := by simpa using List.find?_some found
          rw [emits.repeated, ← asked, ← named]
          exact .call listed made
  | _ =>
      cases expanded
      exact single rfl

theorem expandCalls_emits (known : ∀ rule ∈ b.rules, Commanded state now flags rule)
    {statements : List Statement} {parts : List (List Statement)} {first : Builder ω}
    (expanded : (statements.mapM (expandCall b)).call first = (.ok parts, after))
    {commands : List Text} (emits : EmitsAll state now flags parts.flatten commands) :
    EmitsAll state now flags statements commands := by
  induction statements generalizing parts first commands with
  | nil =>
      cases expanded
      cases emits
      exact .nil
  | cons statement rest ih =>
      rw [List.mapM_cons] at expanded
      obtain ⟨part, middle, own, expanded⟩ := bind_returned expanded
      obtain ⟨others, last, later, expanded⟩ := bind_returned expanded
      cases expanded
      rw [List.flatten_cons] at emits
      obtain ⟨front, back, rfl, before, behind⟩ := emits.split
      exact .cons (expandCall_emits known own before) (ih later behind)

/-- The block gives the commands, each made with the settings of `base`. -/
abbrev Gives (state : ParseState) (base : Builder ω) (body : List Statement)
    (commands : List Text) : Prop :=
  EmitsAll state (SameSettings state base) base.flags body commands

structure Marked (state : ParseState) (base : Builder ω) (fits : Rule → Prop) (b : Builder ω) :
    Prop where
  same : SameSettings state base b
  rules : ∀ rule ∈ b.rules, fits rule
  prehooks : ∀ pre ∈ b.unconditionalPrehooks, ∃ dependencies body,
    .prehook dependencies .always body ∈ state.statements ∧ Gives state base body pre.shellCommands

variable {fits : Rule → Prop}

theorem sameSettings_flags (same : SameSettings state base b) : b.flags = base.flags := by
  have settings := same.1
  simp only [Builder.settings, Prod.mk.injEq] at settings
  rw [Builder.flags, settings.2.1, settings.2.2.1]
  rfl

theorem marked_unnoticed (state : ParseState) (base : Builder ω) (fits : Rule → Prop) :
    Unnoticed (Marked state base fits) fun _ => True where
  fatal _ := trivial
  failed _ := trivial
  runtimeError := trivial
  world _ _ marked := ⟨marked.same, marked.rules, marked.prehooks⟩
  compared _ _ marked := ⟨marked.same, marked.rules, marked.prehooks⟩
  seen _ _ _ marked := ⟨marked.same, marked.rules, marked.prehooks⟩
  deferred _ _ _ _ _ _ := .inl trivial

theorem marked_extracting (sys : System ω) (state : ParseState) (base : Builder ω)
    (fits : Rule → Prop) :
    Extracting sys (getChangedFileDeps sys) (Marked state base fits) (SameSettings state base)
      base.flags where
  basic := (marked_unnoticed state base fits).ranged sys
  deps rule targeting excluding isMulti :=
    (getChangedFileDeps_meets (marked_unnoticed state base fits) rule targeting excluding
      isMulti).keeps
  now _ marked := marked.same
  flags _ marked := sameSettings_flags marked.same

theorem addRule_marked {r : Rule} {statements : List Statement} (label : Text)
    (fitting : ∀ (rule : Rule) commands, rule.name = r.name → Gives state base statements commands →
      fits { rule with shellCommands := commands }) :
    Keeps (Marked state base fits) (fun _ => True) (addRule sys r label statements) := by
  have whole := marked_unnoticed state base fits
  refine (labelVars_keeps (whole.ranged sys) r label).bind fun vars _ => ?_
  have staying : Staying (getChangedFileDeps sys) _ _ _ _ :=
    .same ⟨some r, vars⟩ (getChangedFileDeps_meets whole)
  have emitting : Meets (Marked state base fits) (fun _ => True)
      (fun out => Gives state base statements out.1) (extractShellCommands sys _ _ statements) :=
    extractShellCommands_emits (marked_extracting sys state base fits) ⟨some r, vars⟩ statements
  refine (emitting.both (extractShellCommands_meets (whole.ranged sys) staying _ rfl statements
    fun _ _ => .inl trivial)).bind fun out made => ?_
  obtain ⟨emits, kept⟩ := made
  refine Meets.modify fun b marked => ⟨marked.same, fun rule inside => ?_, marked.prehooks⟩
  rcases List.mem_append.mp inside with before | last
  · exact marked.rules rule before
  · rw [List.mem_singleton.mp last]
    refine fitting _ _ ?_ emits
    cases found : out.2.rule with
    | none => rfl
    | some rule =>
        have core : rule.core = r.core := by simpa [Scope.Same, found] using kept
        have named : rule.core.name = r.core.name := congrArg Rule.name core
        exact named

theorem fixupNestedCommandCalls_marked (sys : System ω) (body : List Statement) :
    Meets (Marked state base (Commanded state (SameSettings state base) base.flags)) (fun _ => True)
      (fun out => ∀ commands, Gives state base out commands → Gives state base body commands)
      (fixupNestedCommandCalls body : Build ω (List Statement)) := by
  have whole := marked_unnoticed state base (Commanded state (SameSettings state base) base.flags)
  refine Meets.get.bind fun b marked => ?_
  have each (statement : Statement) : Keeps
      (Marked state base (Commanded state (SameSettings state base) base.flags)) (fun _ => True)
      (expandCall b statement) :=
    (expandCall_meets (whole.ranged sys) fun _ => .inl trivial).keeps
  have expanding := (Meets.mapM fun statement (_ : statement ∈ body) => each statement).keeps
  refine expanding.returns.bind ?_
  rintro parts ⟨-, first, after, -, called⟩
  exact Meets.pure fun commands gives => expandCalls_emits marked.rules called gives

theorem initCommands_marked :
    Keeps (Marked state base (Commanded state (SameSettings state base) base.flags)) (fun _ => True)
      (initCommands sys state) := by
  have whole := marked_unnoticed state base (Commanded state (SameSettings state base) base.flags)
  refine (Meets.forM fun statement listed => ?_).bind fun _ _ => Meets.forM fun statement listed => ?_
  · cases statement with
    | command head body =>
        cases nested : head.hasNestedCalls with
        | true =>
            simp only [nested]
            exact Meets.pure trivial
        | false =>
            simp only [nested]
            refine initCommand_adding (whole.ranged sys) head (addRule_marked _ ?_)
            intro rule commands named gives
            exact ⟨head, body, listed, named.symm, gives⟩
    | _ => exact Meets.pure trivial
  · cases statement with
    | command head body =>
        cases nested : head.hasNestedCalls with
        | true =>
            simp only [nested]
            refine (fixupNestedCommandCalls_marked sys body).bind fun out original => ?_
            refine initCommand_adding (whole.ranged sys) head (addRule_marked _ ?_)
            intro rule commands named gives
            exact ⟨head, body, listed, named.symm, original commands gives⟩
        | false =>
            simp only [nested]
            exact Meets.pure trivial
    | _ => exact Meets.pure trivial

theorem Marked.mono {other : Rule → Prop} (marked : Marked state base fits b)
    (weaker : ∀ rule, fits rule → other rule) : Marked state base other b :=
  ⟨marked.same, fun rule inside => weaker rule (marked.rules rule inside), marked.prehooks⟩

theorem initBuilds_marked :
    Keeps (Marked state base (Blocked state (SameSettings state base) base.flags)) (fun _ => True)
      (initBuilds sys state) := by
  have whole := marked_unnoticed state base (Blocked state (SameSettings state base) base.flags)
  refine Meets.forM fun statement listed => ?_
  cases statement with
  | build head body =>
      refine initBuild_adding (whole.ranged sys) head ?_ fun name multiGlob fileDeps names => ?_
      · intro b val marked
        refine ⟨⟨marked.same.1, fun key other => ?_⟩, marked.rules, marked.prehooks⟩
        rw [Map.lookup_insert, if_neg (other head body listed).symm]
        exact marked.same.2 key other
      · refine addRule_marked _ fun rule commands named gives => ?_
        refine .inr ⟨head, body, listed, ?_, gives⟩
        rw [named]
        exact names
  | _ => exact Meets.pure trivial

theorem initPrehooks_marked :
    Keeps (Marked state base fits) (fun _ => True) (initPrehooks sys state) := by
  have whole := marked_unnoticed state base fits
  refine Meets.forM fun statement listed => ?_
  cases statement with
  | prehook dependencies time body =>
      cases time with
      | always =>
          refine (stopIf_keeps trivial).bind fun _ _ => ?_
          have emitting : Meets (Marked state base fits) (fun _ => True)
              (fun out => Gives state base body out.1) (extractShellCommands sys _ _ body) :=
            extractShellCommands_emits (marked_extracting sys state base fits) ⟨none, []⟩ body
          refine emitting.bind fun out gives => Meets.modify fun b marked => ?_
          refine ⟨marked.same, marked.rules, fun pre inside => ?_⟩
          rcases List.mem_append.mp inside with before | last
          · exact marked.prehooks pre before
          · rw [List.mem_singleton.mp last]
            exact ⟨dependencies, body, listed, gives⟩
      | onChange =>
          exact initConditionalPrehook_keeps (whole.ranged sys)
            (fun _ _ marked => ⟨marked.same, marked.rules, marked.prehooks⟩) dependencies
  | _ => exact Meets.pure trivial

end Passes

section Folding

def compilerFlags (state : ParseState) : List Text :=
  (assigned (setsOf true (lit "includes") (setStatements state))).map (fun incl => lit "-I" ++ incl) ++
    cflagTokens state

/-- The set statements are folded from the left into the variables, and the commands of the graph
are made with the flags they assign. Those of a conditional prehook are made during the run. -/
structure Folded (sys : System ω) (state : ParseState) (graph : Builder ω) : Prop where
  vars : ∀ s ∈ setStatements state, s.isSpecial = false →
    ∃ val, graph.vars.lookup s.key = some val ∧
      fields val = assigned (setsOf false s.key (setStatements state))
  default : fields graph.default = assigned (setsOf true (lit "default") (setStatements state))
  includes : fields graph.includes =
    (assigned (setsOf true (lit "includes") (setStatements state))).map fun incl => lit "-I" ++ incl
  globalFileDeps : graph.globalFileDeps =
    assigned (setsOf true (lit "global_file_deps") (setStatements state))
  defaultCflags : fields graph.defaultCflags = cflagTokens state
  rules : ∀ rule ∈ graph.rules, Blocked state (SameSettings state graph) (compilerFlags state) rule
  prehooks : ∀ pre ∈ graph.unconditionalPrehooks, ∃ dependencies body,
    .prehook dependencies .always body ∈ state.statements ∧
      EmitsAll state (SameSettings state graph) (compilerFlags state) body pre.shellCommands
  deferred : ∀ pre ∈ graph.conditionalPrehooks, ∀ b filename commands scope after,
    SameSettings state graph b →
    (extractShellCommands sys (fun rule _ _ _ => return ([], rule))
      ⟨none, [(lit "source", filename)]⟩ pre.deferredShellCommands).call b =
        (.ok (commands, scope), after) →
    EmitsAll state (SameSettings state graph) (compilerFlags state) pre.deferredShellCommands commands

/-- No special variable loses a token: each is replaced last or has no token before, and the option
finds no flag to stand behind. -/
structure FoldsRight (state : ParseState) : Prop where
  default : Replaces (setsOf true (lit "default") (setStatements state))
  includes : Replaces (setsOf true (lit "includes") (setStatements state))
  globalFileDeps : Replaces (setsOf true (lit "global_file_deps") (setStatements state))
  defaultCflags :
    CflagsKept (optionCount state) (setsOf true (lit "default_cflags") (setStatements state))

def Unshadowed (state : ParseState) : Prop :=
  ∀ s ∈ setStatements state, s.isSpecial = false →
    ∀ head body, .build head body ∈ state.statements → head.aliasName ≠ s.key

/-- Deferred commands ask for no dependencies, so that nothing but the world changes. -/
theorem deferred_extracting (sys : System ω) (state : ParseState) (graph : Builder ω) :
    Extracting sys (fun rule _ _ _ => return ([], rule)) (SameSettings state graph)
      (SameSettings state graph) graph.flags where
  basic := Undisturbed.ranged
    ⟨fun _ => trivial, fun _ => trivial, trivial, fun _ _ same => same⟩ sys
  deps _ _ _ _ := Meets.pure trivial
  now _ same := same
  flags _ same := sameSettings_flags same

theorem sameSettings_of (same : SameSettings state base graph) :
    SameSettings state base = SameSettings state graph := by
  funext b
  refine propext ⟨fun other => ?_, fun other => ?_⟩
  · exact ⟨other.1.trans same.1.symm, fun key free => (other.2 key free).trans (same.2 key free).symm⟩
  · exact ⟨other.1.trans same.1, fun key free => (other.2 key free).trans (same.2 key free)⟩

theorem init_marked (plain : ∀ s ∈ setStatements state, s.Plain)
    (inited : (init sys state).call (Builder.empty world) = (.ok (), graph)) :
    ∃ read base : Builder ω, SetsRead (setStatements state) read ∧ base.vars = read.vars ∧
      base.settings = (read.default, read.includes,
        read.defaultCflags ++ (List.replicate (optionCount state) (lit "-MD")).flatten,
        read.globalFileDeps) ∧
      Marked state base (Blocked state (SameSettings state base) base.flags) graph := by
  obtain ⟨read, base, third, fourth, fifth, vars, options, commands, builds, prehooks, deps, -⟩ :=
    init_returned inited
  have sets : SetsRead (setStatements state) read := by
    refine initExtractVars_read (fun s listed => plain s ?_) (.empty world) vars
    exact List.mem_filterMap.mpr ⟨_, listed, rfl⟩
  obtain ⟨other, called, sameVars, settings⟩ := initOptions_call read state.statements
  obtain rfl : base = other := (Prod.mk.inj (options.symm.trans called)).2
  refine ⟨read, base, sets, sameVars, settings, ?_⟩
  -- Nothing was made before the commands are read.
  have unmade : base.rules = [] ∧ base.unconditionalPrehooks = [] := by
    have basic : Undisturbed (fun b : Builder ω => b.rules = [] ∧ b.unconditionalPrehooks = [])
        fun _ => True := ⟨fun _ => trivial, fun _ => trivial, trivial, fun _ _ kept => kept⟩
    have unset : Unset fun b : Builder ω => b.rules = [] ∧ b.unconditionalPrehooks = [] :=
      fun _ _ _ _ _ _ _ kept => kept
    have first := ((initExtractVars_keeps (basic.ranged sys) unset fun _ _ => .inl trivial).ok
      ⟨rfl, rfl⟩ vars).1
    have second : Keeps _ (fun _ => True) (initOptions state) := initOptions_keeps unset state
    exact (second.ok first options).1
  have start : Marked state base (Commanded state (SameSettings state base) base.flags) base :=
    ⟨⟨rfl, fun _ _ => rfl⟩, by simp [unmade.1], by simp [unmade.2]⟩
  have commanded := (initCommands_marked.ok start commands).1
  have built := (initBuilds_marked.ok (commanded.mono fun _ => .inl) builds).1
  have hooked := (initPrehooks_marked.ok built prehooks).1
  exact ((checkRuleDeps_keeps ((marked_unnoticed state base _).ranged sys)).ok hooked deps).1

/-- What the graph says of the special variables is right exactly where they are folded right. -/
theorem foldsRight_iff {read : Builder ω} (sets : SetsRead (setStatements state) read)
    (settings : graph.settings = (read.default, read.includes,
      read.defaultCflags ++ (List.replicate (optionCount state) (lit "-MD")).flatten,
      read.globalFileDeps)) :
    FoldsRight state ↔
      fields graph.default = assigned (setsOf true (lit "default") (setStatements state)) ∧
      fields graph.includes =
        (assigned (setsOf true (lit "includes") (setStatements state))).map
          (fun incl => lit "-I" ++ incl) ∧
      graph.globalFileDeps = assigned (setsOf true (lit "global_file_deps") (setStatements state)) ∧
      fields graph.defaultCflags = cflagTokens state := by
  have texts := sets.settings
  simp only [Builder.settings, Prod.mk.injEq] at settings texts
  obtain ⟨default, includes, cflags, deps⟩ := texts
  have injective : Function.Injective fun incl : Text => lit "-I" ++ incl :=
    fun _ _ same => List.append_cancel_left same
  rw [settings.1, settings.2.1, settings.2.2.1, settings.2.2.2, default, includes, cflags, deps,
    fields_prefixIncludes, fields_lastText, (List.map_injective_iff.mpr injective).eq_iff,
    fields_lastText, fields_lastText, cflagTokens, fields_cflags]
  exact ⟨fun folds => ⟨folds.1, folds.2, folds.3, folds.4⟩,
    fun folds => ⟨folds.1, folds.2.1, folds.2.2.1, folds.2.2.2⟩⟩

/-- The set statements are folded into the flags that are used where no special variable loses a
token, and only there. -/
theorem init_folds (plain : ∀ s ∈ setStatements state, s.Plain)
    (inited : (init sys state).call (Builder.empty world) = (.ok (), graph)) :
    (Folded sys state graph → FoldsRight state) ∧
      (FoldsRight state → Unshadowed state → Folded sys state graph) := by
  obtain ⟨read, base, sets, sameVars, settings, marked⟩ := init_marked plain inited
  have right := foldsRight_iff sets (marked.same.1.trans settings)
  refine ⟨fun folded => ?_, fun folds unshadowed => ?_⟩
  · exact right.mpr ⟨folded.default, folded.includes, folded.globalFileDeps, folded.defaultCflags⟩
  · obtain ⟨default, includes, deps, cflags⟩ := right.mp folds
    have flags : base.flags = compilerFlags state := by
      rw [← sameSettings_flags marked.same, Builder.flags, includes, cflags]
      rfl
    have rules := marked.rules
    have prehooks : ∀ pre ∈ graph.unconditionalPrehooks, ∃ dependencies body,
        .prehook dependencies .always body ∈ state.statements ∧
          EmitsAll state (SameSettings state base) base.flags body pre.shellCommands := marked.prehooks
    rw [flags, sameSettings_of marked.same] at rules prehooks
    refine ⟨fun s listed ordinary => ?_, default, includes, deps, cflags, rules, prehooks, ?_⟩
    · obtain ⟨val, found⟩ := sets.known s listed ordinary
      refine ⟨val, ?_, sets.vars s.key val found⟩
      rw [marked.same.2 s.key (unshadowed s listed ordinary), sameVars]
      exact found
    · intro pre _ b filename commands scope after same called
      rw [← flags, ← sameSettings_flags marked.same]
      exact ((extractShellCommands_emits (deferred_extracting sys state graph) _ _).ok same called).2

def gluedFile : List Text :=
  [lit "set special default = k", lit "set special default_cflags = -O2",
    lit "set special default_cflags += -g", lit "option compute_dependencies",
    lit "command k \x7b", lit "cc a.c", lit "\x7d"]

def gluedState : ParseState :=
  ⟨7, lit "\x7d", [], [lit "k"],
    [.set ⟨true, false, lit "default", [⟨.stringElem, lit "k"⟩]⟩,
      .set ⟨true, false, lit "default_cflags", [⟨.stringElem, lit "-O2"⟩]⟩,
      .set ⟨true, true, lit "default_cflags", [⟨.stringElem, lit "-g"⟩]⟩,
      .option,
      .command ⟨lit "k", [], false, ⟨[], []⟩⟩ [.cc [⟨.stringElem, lit "a.c"⟩]]]⟩

def gluedGraph : Builder Unit := ((init (stillSystem []) gluedState).call (Builder.empty ())).2

theorem glued_not_folded :
    doParse gluedFile = .ok gluedState ∧
    (∀ s ∈ setStatements gluedState, s.Plain) ∧
    (init (stillSystem []) gluedState).call (Builder.empty ()) = (.ok (), gluedGraph) ∧
    gluedGraph.rules.map Rule.shellCommands = [[lit "gcc -g-MD a.c"]] ∧
    cflagTokens gluedState = [lit "-O2", lit "-g", lit "-MD"] ∧
    ¬Folded (stillSystem []) gluedState gluedGraph := by
  have flags : fields gluedGraph.defaultCflags ≠ cflagTokens gluedState := by decide +kernel
  refine ⟨rfl, ?_, Prod.ext (by decide +kernel) rfl, by decide +kernel, by decide +kernel,
    fun folded => flags folded.defaultCflags⟩
  have plain : ∀ s ∈ setStatements gluedState, ∀ elem ∈ s.val, elem.kind ≠ .variableElem := by
    decide +kernel
  exact plain

def appendingState : ParseState :=
  ⟨6, lit "\x7d", [], [lit "k"],
    [.set ⟨true, false, lit "default", [⟨.stringElem, lit "k"⟩]⟩,
      .set ⟨true, false, lit "default_cflags", [⟨.stringElem, lit "-O2 -g"⟩]⟩,
      .set ⟨false, false, lit "src", [⟨.stringElem, lit "a.c"⟩]⟩,
      .set ⟨false, true, lit "src", [⟨.stringElem, lit "b.c"⟩]⟩,
      .command ⟨lit "k", [], false, ⟨[], []⟩⟩ [.cc [⟨.variableElem, lit "src"⟩]]]⟩

def appendingGraph : Builder Unit :=
  ((init (stillSystem []) appendingState).call (Builder.empty ())).2

theorem appending_folded :
    appendingGraph.rules.map Rule.shellCommands = [[lit "gcc -O2 -g a.c b.c"]] ∧
    Folded (stillSystem []) appendingState appendingGraph := by
  have plain : ∀ s ∈ setStatements appendingState, ∀ elem ∈ s.val, elem.kind ≠ .variableElem := by
    decide +kernel
  have inited : (init (stillSystem []) appendingState).call (Builder.empty ()) =
      (.ok (), appendingGraph) := Prod.ext (by decide +kernel) rfl
  refine ⟨by decide +kernel, (init_folds plain inited).2 ?_ ?_⟩
  · exact ⟨by decide +kernel, by decide +kernel, by decide +kernel, by decide +kernel⟩
  · intro s _ _ head body listed
    simp [appendingState] at listed

end Folding

end Zeptux.Zbuild
