import Zeptux.ZbuildForeach

/-!
From the block of a build to its rule in the graph. What `init` does after a rule was added
leaves the rule and the settings of its commands alone.
-/

namespace Zeptux.Zbuild

open Strings Procedure

variable {ω : Type} {sys : System ω} {world : ω} {state : ParseState} {b middle after graph : Builder ω}

def Builder.settings (b : Builder ω) : Text × Text × Text × List Text :=
  (b.default, b.includes, b.defaultCflags, b.globalFileDeps)

def SameSettings (state : ParseState) (b after : Builder ω) : Prop :=
  after.settings = b.settings ∧
    ∀ key, (∀ head body, .build head body ∈ state.statements → head.aliasName ≠ key) →
      after.vars.lookup key = b.vars.lookup key

def Later (state : ParseState) (b after : Builder ω) : Prop :=
  SameSettings state b after ∧ b.rules <+: after.rules ∧ after.ruleIsDone = b.ruleIsDone ∧
    after.trace = b.trace

theorem Later.refl (state : ParseState) (b : Builder ω) : Later state b b :=
  ⟨⟨rfl, fun _ _ => rfl⟩, List.prefix_refl _, rfl, rfl⟩

theorem later_unnoticed (state : ParseState) (b : Builder ω) :
    Unnoticed (Later state b) fun _ => True where
  fatal _ := trivial
  failed _ := trivial
  runtimeError := trivial
  world _ _ later := later
  compared _ _ later := later
  seen _ _ _ later := later
  deferred _ _ _ _ _ _ := .inl trivial

theorem later_adding (sys : System ω) (state : ParseState) (b : Builder ω) :
    Adding sys (Later state b) fun _ => True :=
  ⟨(later_unnoticed state b).ranged sys, fun _ rule later =>
    ⟨later.1, later.2.1.trans (List.prefix_append _ [rule]), later.2.2⟩⟩

theorem Later.aliased {head : BuildHead} {body : List Statement}
    (listed : .build head body ∈ state.statements) (val : Text) (later : Later state b after) :
    Later state b { after with vars := after.vars.insert head.aliasName val } := by
  refine ⟨⟨later.1.1, fun key other => ?_⟩, later.2⟩
  rw [Map.lookup_insert, if_neg (other head body listed).symm]
  exact later.1.2 key other

theorem initBuild_later {head : BuildHead} {body : List Statement}
    (listed : .build head body ∈ state.statements) (b : Builder ω) :
    Keeps (Later state b) (fun _ => True) (initBuild sys head body) :=
  initBuild_keeps (later_adding sys state b) (later_unnoticed state b).stays head
    (fun _ val later => later.aliased listed val) fun _ _ => .inl trivial

theorem initBuilds_later {part : List Statement} (inside : part ⊆ state.statements)
    (b : Builder ω) :
    Keeps (Later state b) (fun _ => True) (initBuilds sys { state with statements := part }) :=
  initBuilds_keeps (later_adding sys state b) (later_unnoticed state b).stays
    (fun _ _ listed _ val later => later.aliased (inside listed) val) fun _ _ _ _ _ => .inl trivial

theorem initPrehooks_later (b : Builder ω) :
    Keeps (Later state b) (fun _ => True) (initPrehooks sys state) :=
  initPrehooks_keeps ((later_unnoticed state b).ranged sys) (fun _ _ later => later)
    (fun _ _ _ _ _ later => later) fun _ _ _ _ _ _ => .inl trivial

section Adding

variable {r : Rule} {label : Text} {statements : List Statement}

theorem addRule_ok (called : (addRule sys r label statements).call b = (.ok (), after)) :
    ∃ vars first commands scope middle,
      (labelVars r label).call b = (.ok vars, first) ∧
      (extractShellCommands sys (getChangedFileDeps sys) ⟨some r, vars⟩ statements).call first =
        (.ok (commands, scope), middle) ∧
      after = { middle with rules :=
        middle.rules ++ [{ scope.rule.getD r with shellCommands := commands }] } := by
  obtain ⟨vars, first, labelled, called⟩ := bind_returned called
  obtain ⟨⟨commands, scope⟩, middle, extracted, called⟩ := bind_returned called
  cases called
  exact ⟨vars, first, commands, scope, middle, labelled, extracted, rfl⟩

/-- The variable of a labelled block stands for the names that its file dependencies are given by. -/
def blockVars (label : Text) (names : List Text) : Map Text :=
  if label = [] then [] else [(label, join (lit " ") names)]

theorem labelVars_returned {vars : Map Text}
    (called : (labelVars r label : Build ω (Map Text)).call b = (.ok vars, after)) :
    vars = blockVars label r.fileDeps := by
  rw [labelVars] at called
  rw [blockVars]
  by_cases unlabelled : label = []
  · rw [if_pos unlabelled] at called ⊢
    cases called
    rfl
  · rw [if_neg unlabelled] at called ⊢
    split at called
    · cases called
    · cases called
      rfl

theorem rules_unnoticed (b : Builder ω) :
    Unnoticed (fun x : Builder ω => x.rules = b.rules) fun _ => True :=
  ⟨⟨fun _ => trivial, fun _ => trivial, trivial, fun _ _ same => same⟩, fun _ _ same => same,
    fun _ _ _ same => same, fun _ _ _ _ _ _ => .inl trivial⟩

theorem addRule_rule (called : (addRule sys r label statements).call b = (.ok (), after)) :
    ∃ rule commands, after.rules = b.rules ++ [{ rule with shellCommands := commands }] ∧
      (rule = r ∨ rule = normaliseRuleDir r) := by
  obtain ⟨vars, first, commands, scope, middle, labelled, extracted, rfl⟩ := addRule_ok called
  have rules := rules_unnoticed b
  have staying : Staying (getChangedFileDeps sys) (fun x : Builder ω => x.rules = b.rules)
      (fun _ => True) r.isPhony _ := .normalising fun current _ excluding =>
    getChangedFileDeps_normalises rules current _ (some excluding) true
  have labels := ((labelVars_keeps (rules.ranged sys) r label).ok rfl labelled).1
  obtain ⟨same, known⟩ := (extractShellCommands_meets (rules.ranged sys) staying ⟨some r, vars⟩
    (.inl rfl) statements fun _ _ => .inl trivial).ok labels extracted
  have known : scope.rule = some r ∨ scope.rule = some (normaliseRuleDir r) := known
  rcases known with known | known
  · exact ⟨r, commands, by simp only [known, same, Option.getD_some], .inl rfl⟩
  · exact ⟨normaliseRuleDir r, commands, by simp only [known, same, Option.getD_some], .inr rfl⟩

theorem Rule.Separable.of_added {rule : Rule} (known : rule = r ∨ rule = normaliseRuleDir r)
    (separable : rule.Separable) : r.Separable := by
  rcases known with rfl | rfl
  · exact separable
  · rw [Rule.Separable, normaliseRuleDir_again] at separable
    exact separable

theorem addRule_separable (called : (addRule sys r label statements).call b = (.ok (), after))
    (separable : ∀ rule ∈ after.rules, rule.Separable) : r.Separable := by
  obtain ⟨rule, commands, added, known⟩ := addRule_rule called
  have last : Rule.Separable { rule with shellCommands := commands } :=
    separable _ (by simp [added])
  exact Rule.Separable.of_added known last

end Adding

section Building

variable {build : BuildHead} {statements : List Statement}

theorem initBuild_ok {inv : Builder ω → Prop} (basic : Ranged sys inv fun _ => True)
    (aliased : ∀ b val, inv b → inv { b with vars := b.vars.insert build.aliasName val })
    (holds : inv b) (called : (initBuild sys build statements).call b = (.ok (), after)) :
    ∃ name multiGlob fileDeps first middle,
      (buildTarget build).call b = (.ok (name, multiGlob), first) ∧
      inv first ∧ first.findRule name = none ∧ inv middle ∧
      (addRule sys (buildRule build name multiGlob fileDeps) build.dependencies.label statements).call
        middle = (.ok (), after) := by
  obtain ⟨⟨name, multiGlob⟩, first, targeted, called⟩ := bind_returned called
  have firstHolds := ((buildTarget_keeps basic build).ok holds targeted).1
  obtain ⟨_, _, ⟨⟩, called⟩ := bind_returned called
  obtain ⟨_, _, unique, called⟩ := bind_returned called
  obtain ⟨fresh, rfl⟩ := stopIf_returned unique
  obtain ⟨_, third, present, called⟩ := bind_returned called
  have thirdHolds := ((checkLocalDir_keeps basic _ _).ok firstHolds present).1
  obtain ⟨fileDeps, fourth, read, called⟩ := bind_returned called
  have fourthHolds := ((extractFileDependencies_keeps basic _ _ _ _).ok thirdHolds read).1
  obtain ⟨_, middle, named, called⟩ := bind_returned called
  have naming : Keeps inv (fun _ => True) (multiGlob.forM fun glob =>
      (insertAlias build.aliasName glob fileDeps : Build ω Unit)) := by
    cases multiGlob with
    | none => exact Meets.pure trivial
    | some glob => exact insertAlias_keeps basic aliased _ _
  have middleHolds := (naming.ok fourthHolds named).1
  refine ⟨name, multiGlob, fileDeps, first, middle, targeted, firstHolds, ?_, middleHolds, called⟩
  simpa using fresh

theorem Started.set (started : Started sys world b) (vars : Map Text) (default : Text)
    (includes : Text) (defaultCflags : Text) (globalFileDeps options : List Text)
    (rules : List Rule) :
    Started sys world { b with
      vars := vars
      default := default
      includes := includes
      defaultCflags := defaultCflags
      globalFileDeps := globalFileDeps
      options := options
      rules := rules } :=
  ⟨started.files, started.prehooks, started.noted, started.done, started.trace⟩

variable (quiet : sys.RangesQuietly)

include quiet

theorem addRule_started {r : Rule} {label : Text} (separable : r.Separable)
    (started : Started sys world b)
    (called : (addRule sys r label statements).call b = (.ok (), after)) :
    Started sys world after := by
  have unchecked : Unchecked fun _ : Builder ω => True := fun _ _ _ _ => trivial
  have adding : Adding sys (Begun sys world fun _ => True) fun _ => True :=
    ⟨begun_ranged quiet unchecked, fun b _ begun =>
      ⟨begun.started.set b.vars b.default b.includes b.defaultCflags b.globalFileDeps b.options _,
        trivial⟩⟩
  have stays : Stays sys (Begun sys world fun _ => True) (fun _ => True) r :=
    ⟨_, begun_staying quiet unchecked separable, fun _ => .inl rfl⟩
  have kept := (addRule_keeps adding stays label fun _ _ => .inl trivial).ok ⟨started, trivial⟩ called
  exact kept.1.started

theorem initBuild_started (started : Started sys world b)
    (called : (initBuild sys build statements).call b = (.ok (), after))
    (separable : ∀ rule ∈ after.rules, rule.Separable) : Started sys world after := by
  have unchecked : Unchecked fun _ : Builder ω => True := fun _ _ _ _ => trivial
  obtain ⟨name, multiGlob, fileDeps, first, middle, -, -, -, begun, added⟩ :=
    initBuild_ok (begun_ranged quiet unchecked)
      (fun b val begun => ⟨begun.started.set _ b.default b.includes b.defaultCflags b.globalFileDeps
        b.options b.rules, trivial⟩) ⟨started, trivial⟩ called
  exact addRule_started quiet (addRule_separable added separable) begun.started added

theorem initBuilds_started {part : List Statement} (started : Started sys world b)
    (called : (initBuilds sys { state with statements := part }).call b = (.ok (), after))
    (separable : ∀ rule ∈ after.rules, rule.Separable) : Started sys world after := by
  induction part generalizing b with
  | nil =>
      cases called
      exact started
  | cons statement part ih =>
      obtain ⟨_, middle, one, called⟩ := bind_returned called
      have kept : Keeps (Later { state with statements := part } middle) (fun _ => True)
          (initBuilds sys { state with statements := part }) :=
        initBuilds_later (List.Subset.refl part) middle
      have rest := (kept.ok (.refl _ middle) called).1
      refine ih ?_ called
      cases statement with
      | build head body =>
          refine initBuild_started quiet started one fun rule listed => ?_
          exact separable rule (rest.2.1.subset listed)
      | _ =>
          cases one
          exact started

omit quiet in
theorem buildTarget_multi {glob name : Text} {multiGlob : Option Text}
    (multi : build.target.depgets = [⟨.glob, glob⟩])
    (called : (buildTarget build).call b = (.ok (name, multiGlob), after)) :
    name = build.aliasName ∧ multiGlob = some glob := by
  simp only [buildTarget, multi] at called
  cases glob with
  | nil => cases called
  | cons chr rest =>
      obtain ⟨_, _, _, called⟩ := bind_returned called
      obtain ⟨_, _, _, called⟩ := bind_returned called
      cases called
      exact ⟨rfl, rfl⟩

def Made (made b : Builder ω) : Prop := b.settings = made.settings ∧ b.vars = made.vars

omit quiet in
theorem Expanded.mono {made other : Builder ω → Prop} {rule : Rule} {dir : Text}
    {head : ForeachHead} {body : List Statement} {vars : Map Text} {shellCommands : List Text}
    (expanded : Expanded sys world made rule dir head body vars shellCommands)
    (weaker : ∀ b, made b → other b) :
    Expanded sys world other rule dir head body vars shellCommands := by
  intro source inside output makes newer kept
  obtain ⟨before, commands, rest, split, b, after, scope, out, admitted, called⟩ :=
    expanded source inside output makes newer kept
  exact ⟨before, commands, rest, split, b, after, scope, out, weaker b admitted, called⟩

/-- The rule that a build with many targets adds has the commands of its `foreach`. -/
theorem initBuild_expanded {glob : Text} {head : ForeachHead} {front body back : List Statement}
    (multi : build.target.depgets = [⟨.glob, glob⟩]) (started : Started sys world b)
    (called : (initBuild sys build (front ++ .foreach head body :: back)).call b = (.ok (), after))
    (separable : ∀ rule ∈ after.rules, rule.Separable) :
    ∃ rule names, b.findRule build.aliasName = none ∧ after.rules = b.rules ++ [rule] ∧
      rule.name = build.aliasName ∧ rule.isMulti = true ∧ normaliseRuleDir rule = rule ∧
      rule.fileDeps = names.map (joinPath build.localDir) ∧
      Expanded sys world (Made after) rule (foreachDir build.localDir front) head body
        (blockVars build.dependencies.label names) rule.shellCommands := by
  have ranged : Ranged sys (Begun sys world fun x => x.rules = b.rules) fun _ => True :=
    begun_ranged quiet fun _ _ _ same => same
  obtain ⟨name, multiGlob, fileDeps, first, middle, targeted, before, fresh, begun, added⟩ :=
    initBuild_ok ranged
      (fun b val begun => ⟨begun.started.set _ b.default b.includes b.defaultCflags b.globalFileDeps
        b.options b.rules, begun.kept⟩) ⟨started, rfl⟩ called
  obtain ⟨rfl, rfl⟩ := buildTarget_multi multi targeted
  have single := addRule_separable added separable
  obtain ⟨vars, labelled, commands, scope, last, labels, extracted, rfl⟩ := addRule_ok added
  have unchecked : Unchecked fun x => x.rules = b.rules ∧ Made middle x := fun _ _ _ kept => kept
  have ready : Begun sys world (fun x => x.rules = b.rules ∧ Made middle x) labelled :=
    ((labelVars_keeps (begun_ranged quiet unchecked) _ _).ok
      ⟨begun.started, begun.kept, rfl, rfl⟩ labels).1
  obtain rfl : vars = blockVars build.dependencies.label fileDeps := labelVars_returned labels
  obtain ⟨ended, normal, expanded⟩ := (extractShellCommands_begun quiet unchecked head body back
    front _ _ single fun _ _ _ => rfl).ok ready extracted
  have rule : scope.rule = some _ := normal
  have again := normaliseRuleDir_again (buildRule build build.aliasName (some glob) fileDeps)
  refine ⟨{ normaliseRuleDir (buildRule build build.aliasName (some glob) fileDeps) with
    shellCommands := commands }, fileDeps, ?_, ?_, rfl, rfl, ?_, rfl, ?_⟩
  · rw [Builder.findRule, ← before.kept]
    exact fresh
  · simp only [rule, Option.getD_some, ended.kept.1]
  · exact congrArg (fun rule => { rule with shellCommands := commands }) again
  · have made : ∀ x, x.rules = b.rules ∧ Made middle x → Made last x := fun x same =>
      ⟨same.2.1.trans ended.kept.2.1.symm, same.2.2.trans ended.kept.2.2.symm⟩
    intro source inside output makes newer kept
    have inside : source ∈ (normaliseRuleDir (normaliseRuleDir _)).fileDeps := inside
    rw [again] at inside
    exact expanded.mono made source inside output makes newer kept

end Building

section Init

variable {build : BuildHead} {glob : Text} {head : ForeachHead} {front body back : List Statement}

theorem initBuilds_split {statements : List Statement}
    (listed : .build build statements ∈ state.statements)
    (called : (initBuilds sys state).call b = (.ok (), after)) :
    ∃ early late first middle, early ⊆ state.statements ∧ late ⊆ state.statements ∧
      (initBuilds sys { state with statements := early }).call b = (.ok (), first) ∧
      (initBuild sys build statements).call first = (.ok (), middle) ∧
      (initBuilds sys { state with statements := late }).call middle = (.ok (), after) := by
  obtain ⟨early, late, split⟩ := List.append_of_mem listed
  rw [initBuilds, split, List.forM_eq_forM, List.forM_append] at called
  obtain ⟨_, first, before, called⟩ := bind_returned called
  obtain ⟨_, middle, own, rest⟩ := bind_returned called
  refine ⟨early, late, first, middle, ?_, ?_, before, own, rest⟩
  · rw [split]
    exact List.subset_append_left _ _
  · rw [split]
    exact fun statement inside => by simp [inside]

theorem init_returned {start : Builder ω}
    (inited : (init sys state).call start = (.ok (), graph)) :
    ∃ first second third fourth fifth : Builder ω,
      (initExtractVars state).call start = (.ok (), first) ∧
      (initOptions state).call first = (.ok (), second) ∧
      (initCommands sys state).call second = (.ok (), third) ∧
      (initBuilds sys state).call third = (.ok (), fourth) ∧
      (initPrehooks sys state).call fourth = (.ok (), fifth) ∧
      (checkRuleDeps sys).call fifth = (.ok (), graph) ∧ graph.default ≠ [] := by
  obtain ⟨_, first, vars, inited⟩ := bind_returned inited
  obtain ⟨_, second, options, inited⟩ := bind_returned inited
  obtain ⟨_, third, commands, inited⟩ := bind_returned inited
  obtain ⟨_, fourth, builds, inited⟩ := bind_returned inited
  obtain ⟨_, fifth, prehooks, inited⟩ := bind_returned inited
  obtain ⟨_, sixth, deps, inited⟩ := bind_returned inited
  obtain ⟨_, _, ⟨⟩, inited⟩ := bind_returned inited
  obtain ⟨default, rfl⟩ := stopIf_returned inited
  exact ⟨first, second, third, fourth, fifth, vars, options, commands, builds, prehooks, deps, default⟩

theorem init_started (quiet : sys.RangesQuietly) {first : Builder ω}
    (vars : (initExtractVars state).call (Builder.empty world) = (.ok (), first))
    (options : (initOptions state).call first = (.ok (), middle))
    (commands : (initCommands sys state).call middle = (.ok (), after)) :
    Started sys world after := by
  have unchecked : Unchecked fun _ : Builder ω => True := fun _ _ _ _ => trivial
  have basic : Ranged sys (Begun sys world fun _ => True) fun _ => True :=
    begun_ranged quiet unchecked
  have unset : Unset (Begun sys world fun _ => True) := fun b _ _ _ _ _ _ begun =>
    ⟨begun.started.set _ _ _ _ _ _ b.rules, trivial⟩
  have adding : Adding sys (Begun sys world fun _ => True) fun _ => True :=
    ⟨basic, fun b _ begun => ⟨begun.started.set b.vars b.default b.includes b.defaultCflags
      b.globalFileDeps b.options _, trivial⟩⟩
  have stays (r : Rule) (single : r.multiGlob = []) :
      Stays sys (Begun sys world fun _ => True) (fun _ => True) r := by
    have separable : r.Separable := by
      intro source _ output makes
      rw [Rule.Makes, single] at makes
      cases makes
    exact ⟨_, begun_staying quiet unchecked separable, fun _ => .inl rfl⟩
  have start : Begun sys world (fun _ => True) (Builder.empty world) :=
    ⟨.empty sys world, trivial⟩
  have read := ((initExtractVars_keeps basic unset fun _ _ => .inl trivial).ok start vars).1
  have setting : Keeps (Begun sys world fun _ => True) (fun _ => True) (initOptions state) :=
    initOptions_keeps unset state
  have set := (setting.ok read options).1
  have commanded :=
    ((initCommands_keeps adding stays fun _ _ _ _ _ _ => .inl trivial).ok set commands).1
  exact commanded.started

theorem init_expanded (quiet : sys.RangesQuietly)
    (inited : (init sys state).call (Builder.empty world) = (.ok (), graph))
    (separable : ∀ rule ∈ graph.rules, rule.Separable)
    (listed : .build build (front ++ .foreach head body :: back) ∈ state.statements)
    (multi : build.target.depgets = [⟨.glob, glob⟩]) :
    Fresh graph ∧ ∃ rule names, graph.findRule build.aliasName = some rule ∧ rule.isMulti = true ∧
      normaliseRuleDir rule = rule ∧ rule.fileDeps = names.map (joinPath build.localDir) ∧
      Expanded sys world (SameSettings state · graph) rule (foreachDir build.localDir front) head body
        (blockVars build.dependencies.label names) rule.shellCommands := by
  obtain ⟨first, second, third, fourth, fifth, vars, options, commands, builds, prehooks, deps, -⟩ :=
    init_returned inited
  have started : Started sys world third := init_started quiet vars options commands
  obtain ⟨early, late, before, made, inEarly, inLate, earlier, own, later⟩ :=
    initBuilds_split listed builds
  have rest : Later state made graph := by
    have read := ((initBuilds_later inLate made).ok (.refl state made) later).1
    have hooked := ((initPrehooks_later made).ok read prehooks).1
    exact ((checkRuleDeps_keeps ((later_unnoticed state made).ranged sys)).ok hooked deps).1
  have madeSeparable : ∀ rule ∈ made.rules, rule.Separable := fun rule inside =>
    separable rule (rest.2.1.subset inside)
  have beforeSeparable : ∀ rule ∈ before.rules, rule.Separable := by
    have added := ((initBuild_later listed before).ok (.refl state before) own).1
    exact fun rule inside => madeSeparable rule (added.2.1.subset inside)
  have ready : Started sys world before := initBuilds_started quiet started earlier beforeSeparable
  have done : Started sys world made := initBuild_started quiet ready own madeSeparable
  obtain ⟨rule, names, absent, added, named, isMulti, normal, given, expanded⟩ :=
    initBuild_expanded quiet multi ready own madeSeparable
  refine ⟨⟨rest.2.2.1.trans done.done, rest.2.2.2.trans done.trace⟩, rule, names, ?_, isMulti, normal,
    given, ?_⟩
  · obtain ⟨more, extended⟩ := rest.2.1
    rw [Builder.findRule] at absent ⊢
    rw [← extended, added, List.find?_append, List.find?_append, absent]
    simp [named]
  · refine expanded.mono fun x same => ⟨rest.1.1.trans same.1.symm, fun key other => ?_⟩
    rw [same.2]
    exact rest.1.2 key other

end Init

end Zeptux.Zbuild
