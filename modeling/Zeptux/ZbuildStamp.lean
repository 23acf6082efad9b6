import Zeptux.ZbuildForeachInit
import Zeptux.ZbuildRebuild

/-!
When `run_build` executes a rule with many targets. The rule is compared with its stamp and not
with its outputs, so that it runs only if it or a rule that it depends on is out of date.
-/

namespace Zeptux.Zbuild

open Strings Procedure Relation

variable {ω : Type} {sys : System ω} {start b middle after : Builder ω}

/-- What `check_file_dep_newer` answers: what is noted, or else what the files say. -/
def Builder.answer (sys : System ω) (b : Builder ω) (target filename : Text) : Bool :=
  (b.knownFileComparisons.lookup (note target filename)).getD (sys.newer filename target b.world)

def Builder.depfileDeps (sys : System ω) (b : Builder ω) (filename : Text) : List Text :=
  let file := removeExt (base filename) ++ lit ".d"
  match sys.exists [] file b, sys.readFile file b.world with
  | true, .read data =>
      match split ((join (lit " ") (split data (lit "\n"))).filter (· ≠ '\\'.toUInt8)) (lit ":") with
      | [_, deps] => (fields deps).filter fun dep => dep.head? ≠ some slash
      | _ => []
  | _, _ => []

/-- The file, a name in its dependency file or a global dependency is newer than the target. -/
def Builder.NewerThan (sys : System ω) (b : Builder ω) (target file : Text) : Prop :=
  b.answer sys target file = true ∨
    (∃ dep, (lit "compute_dependencies" ∈ b.options ∧ dep ∈ b.depfileDeps sys file) ∧
      b.answer sys target dep = true) ∨
    ∃ dep ∈ b.globalFileDeps, b.answer sys target dep = true

def Builder.Changed (sys : System ω) (b : Builder ω) (name : Text) : Prop :=
  ∃ rule, b.findRule name = some rule ∧
    ∃ file ∈ (normaliseRuleDir rule).fileDeps, b.NewerThan sys rule.stamp file

def Builder.Missing (sys : System ω) (b : Builder ω) (name : Text) : Prop :=
  ∃ rule, b.findRule name = some rule ∧ sys.exists [] rule.stamp b = false

/-- Nothing that a check reads differs from the start. Of the notes, those are meant whose key can
be read in one way. -/
structure Idle (sys : System ω) (start b : Builder ω) : Prop where
  files : SameFiles sys start.world b.world
  globals : b.globalFileDeps = start.globalFileDeps
  options : b.options = start.options
  answers : ∀ target, bar ∉ target → ∀ filename,
    b.answer sys target filename = start.answer sys target filename

theorem Idle.refl (sys : System ω) (start : Builder ω) : Idle sys start start :=
  ⟨.refl _, rfl, rfl, fun _ _ _ => rfl⟩

section Checks

variable {target : Text} (plain : bar ∉ target)

theorem Idle.note (idle : Idle sys start b) (plain : bar ∉ target) {filename : Text}
    (negative : b.answer sys target filename = false) :
    Idle sys start { b with
      knownFileComparisons := b.knownFileComparisons.insert (note target filename) false } := by
  refine ⟨idle.files, idle.globals, idle.options, fun other otherPlain name => ?_⟩
  rw [← idle.answers other otherPlain name, Builder.answer, Map.lookup_insert]
  split_ifs with same
  · obtain ⟨rfl, rfl⟩ := note_inj otherPlain plain same
    rw [negative]
    rfl
  · rfl

include plain

theorem checkFileDepNewer_decides (filename : Text) :
    Decides (Idle sys start) id (start.answer sys target filename = true)
      (checkFileDepNewer sys target filename) := by
  intro b idle val after called
  rw [← idle.answers target plain filename]
  obtain ⟨_, _, ⟨⟩, called⟩ := bind_returned called
  cases known : b.knownFileComparisons.lookup (target ++ lit "|" ++ filename) with
  | some noted =>
      rw [known] at called
      cases called
      have answer : b.answer sys target filename = val := by rw [Builder.answer, note, known]; rfl
      rw [answer]
      exact ⟨id, fun negative => ⟨fun positive => by simp_all, idle⟩⟩
  | none =>
      rw [known] at called
      obtain ⟨newer, _, compared, called⟩ := bind_returned called
      have same : ∀ x : Builder ω, x = b → SameFiles sys b.world x.world := by
        rintro _ rfl
        exact .refl _
      obtain ⟨unmoved, value⟩ := (isFileNewer_meets same filename target).ok rfl compared
      rw [unmoved] at called
      have answer : b.answer sys target filename = newer := by
        rw [Builder.answer, note, known, value]
        rfl
      rw [answer]
      obtain ⟨_, _, hooks, called⟩ := bind_returned called
      cases called
      refine ⟨id, fun negative => ⟨fun positive => by simp_all, ?_⟩⟩
      obtain rfl : val = false := negative
      cases hooks
      exact idle.note plain answer

theorem checkFileDepsNewer_decides (filenames : List Text) :
    Decides (Idle sys start) id (∃ file ∈ filenames, start.answer sys target file = true)
      (checkFileDepsNewer sys target filenames) := by
  induction filenames with
  | nil => exact .pure (by simp)
  | cons filename filenames ih =>
      have split : start.answer sys target filename = true ∨
          (∃ file ∈ filenames, start.answer sys target file = true) ↔
          ∃ file ∈ filename :: filenames, start.answer sys target file = true := by simp
      refine .congr ((checkFileDepNewer_decides plain filename).bind ?_ ?_) split
      · rintro newer (rfl : newer = true)
        exact .bind fun _ => .pure rfl
      · rintro newer (rfl : newer = false)
        exact ih.map fun _ => rfl

omit plain

theorem fileExists_idle (dir name : Text) :
    Meets (Idle sys start) (fun _ => True) (fun present => present = sys.exists dir name start)
      (fileExists sys dir name) := by
  intro b idle
  rw [fileExists_call]
  refine ⟨idle, ?_⟩
  rw [System.exists, System.exists, idle.files.stat]

theorem parseDependencies_idle (filename : Text) :
    Meets (Idle sys start) (fun _ => True)
      (fun deps => deps.filter (fun dep => dep.head? ≠ some slash) = start.depfileDeps sys filename)
      (parseDependencies sys filename) := by
  have named : Meets (Idle sys start) (fun _ => True)
      (fun file => file = removeExt (base filename) ++ lit ".d")
      (liftM (replaceExt (base filename) (lit "d")) : Build ω Text) := Meets.lift rfl
  refine named.bind fun file isFile => ?_
  subst isFile
  refine (fileExists_idle [] _).bind fun present isPresent => ?_
  cases present with
  | false => exact Meets.pure (by simp [Builder.depfileDeps, ← isPresent])
  | true =>
      have read : Meets (Idle sys start) (fun _ => True)
          (fun lines => ∃ data, sys.readFile (removeExt (base filename) ++ lit ".d") start.world =
            .read data ∧ lines = split data (lit "\n"))
          (readAll sys (removeExt (base filename) ++ lit ".d")) := by
        refine Meets.get.bind fun b idle => ?_
        rw [idle.files.readFile]
        cases contents : sys.readFile (removeExt (base filename) ++ lit ".d") start.world with
        | read data => exact Meets.pure ⟨data, rfl, rfl⟩
        | notExist => exact Meets.throw trivial
        | failed err => exact Meets.throw trivial
      refine read.bind fun lines found => ?_
      obtain ⟨data, contents, rfl⟩ := found
      dsimp only
      split
      · rename_i deps parts
        exact Meets.pure (by simp only [Builder.depfileDeps, ← isPresent, contents, parts])
      · exact Meets.throw trivial

theorem computeDepfileFrom_idle (filenames : List Text) (ret : Map (List Text)) :
    Meets (Idle sys start) (fun _ => True)
      (fun depGraph => ∀ file dep, dep ∈ (depGraph.lookup file).getD [] ↔
        dep ∈ (ret.lookup file).getD [] ∨ file ∈ filenames ∧ dep ∈ start.depfileDeps sys file)
      (computeDepfileFrom sys filenames ret) := by
  induction filenames generalizing ret with
  | nil => exact Meets.pure (by simp)
  | cons filename filenames ih =>
      refine (parseDependencies_idle filename).bind fun deps relative => ?_
      refine (ih _).mono fun depGraph rest file dep => ?_
      rw [rest, Map.lookup_insert, relative]
      by_cases same : file = filename
      · subst same
        simp only [if_pos, Option.getD_some, List.mem_append, List.mem_cons_self, true_and]
        tauto
      · simp [same]

theorem computeDepfileFiledeps_idle (rule : Rule) :
    Meets (Idle sys start) (fun _ => True)
      (fun depGraph => ∀ file ∈ rule.fileDeps, ∀ dep, dep ∈ (depGraph.lookup file).getD [] ↔
        lit "compute_dependencies" ∈ start.options ∧ dep ∈ start.depfileDeps sys file)
      (computeDepfileFiledeps sys rule) := by
  refine Meets.get.bind fun b idle => ?_
  rw [idle.options]
  split
  · rename_i computed
    refine (computeDepfileFrom_idle rule.fileDeps []).mono fun depGraph whole file inside dep => ?_
    rw [whole]
    simp [inside, computed]
  · rename_i off
    exact Meets.pure (by simp [off])

variable (quiet : sys.RangesQuietly)

theorem SameFiles.newer {world other : ω} (files : SameFiles sys world other)
    (candidate comparator : Text) :
    sys.newer candidate comparator other = sys.newer candidate comparator world := by
  rw [System.newer, System.newer, files.stat, files.stat]

include quiet in
theorem rangeKeys_idle (keys : List Text) :
    Meets (Idle sys start) (fun _ => True) (fun order => order.Perm keys) (rangeKeys sys keys) := by
  intro b idle
  have same : SameFiles sys b.world (sys.rangeOrder keys b.world).2 := quiet keys b.world
  refine ⟨⟨idle.files.trans same, idle.globals, idle.options, fun target plain filename => ?_⟩,
    sys.rangeOrder_perm keys b.world⟩
  rw [← idle.answers target plain filename]
  exact congrArg (Option.getD _) (same.newer filename target)

def NewerBy (sys : System ω) (start : Builder ω) (target : Text) (depGraph : Map (List Text))
    (file : Text) : Prop :=
  start.answer sys target file = true ∨
    (∃ dep ∈ (depGraph.lookup file).getD [], start.answer sys target dep = true) ∨
    ∃ dep ∈ start.globalFileDeps, start.answer sys target dep = true

include plain in
theorem changedFrom_decides (depGraph : Map (List Text)) (filenames : List Text) :
    Decides (Idle sys start) (fun changed => !changed.isEmpty)
      (∃ file ∈ filenames, NewerBy sys start target depGraph file)
      (changedFrom sys target false depGraph filenames) := by
  induction filenames with
  | nil => exact .pure (by simp)
  | cons filename filenames ih =>
      have split : start.answer sys target filename = true ∨
          (∃ dep ∈ (depGraph.lookup filename).getD [], start.answer sys target dep = true) ∨
          (∃ dep ∈ start.globalFileDeps, start.answer sys target dep = true) ∨
          (∃ file ∈ filenames, NewerBy sys start target depGraph file) ↔
          ∃ file ∈ filename :: filenames, NewerBy sys start target depGraph file := by
        simp only [List.mem_cons, exists_eq_or_imp, NewerBy, or_assoc]
      refine .congr ?_ split
      have compared : Meets (Idle sys start) (fun _ => True) (fun compared => compared = target)
          (liftM (comparedTarget target false filename) : Build ω Text) := Meets.lift rfl
      refine .after compared fun compared same => ?_
      subst same
      refine (checkFileDepNewer_decides plain filename).bind ?_ ?_
      · rintro own (rfl : own = true)
        exact .bind fun _ => .bind fun _ => .bind fun _ => .bind fun _ => .pure rfl
      rintro own (rfl : own = false)
      refine (checkFileDepsNewer_decides plain _).bind ?_ ?_
      · rintro deps (rfl : deps = true)
        exact .bind fun _ => .bind fun _ => .bind fun _ => .pure rfl
      rintro deps (rfl : deps = false)
      have globals : Meets (Idle sys start) (fun _ => True)
          (fun b => b.globalFileDeps = start.globalFileDeps) (get : Build ω (Builder ω)) :=
        Meets.get.mono fun b idle => idle.globals
      refine .after globals fun b same => ?_
      rw [same]
      refine (checkFileDepsNewer_decides plain _).bind ?_ ?_
      · rintro globals (rfl : globals = true)
        exact .bind fun _ => .pure rfl
      rintro globals (rfl : globals = false)
      exact ih.map fun _ => rfl

include plain quiet in
theorem getChangedFileDeps_decides (rule : Rule) :
    Decides (Idle sys start) (fun out => !out.1.isEmpty)
      (∃ file ∈ (normaliseRuleDir rule).fileDeps, start.NewerThan sys target file)
      (getChangedFileDeps sys rule target none false) := by
  refine .after (computeDepfileFiledeps_idle (normaliseRuleDir rule)) fun depGraph read => ?_
  have same : (∃ file ∈ (normaliseRuleDir rule).fileDeps, NewerBy sys start target depGraph file) ∨
      False ↔ ∃ file ∈ (normaliseRuleDir rule).fileDeps, start.NewerThan sys target file := by
    rw [or_false]
    refine exists_congr fun file => and_congr_right fun inside => ?_
    simp only [NewerBy, Builder.NewerThan, read file inside]
  refine .congr ((changedFrom_decides plain depGraph _).bind ?_ ?_) same
  · intro changed some b out after called
    cases called
    have order := sys.rangeOrder_perm changed.dedup b.world
    cases changed with
    | nil => cases some
    | cons file rest =>
        have listed : file ∈ (sys.rangeOrder (file :: rest).dedup b.world).1 :=
          order.mem_iff.mpr (List.mem_dedup.mpr List.mem_cons_self)
        simpa using List.ne_nil_of_mem listed
  · intro changed none
    refine .after (rangeKeys_idle quiet _) fun keys order => .pure ?_
    obtain rfl : changed = [] := by simpa using none
    obtain rfl : keys = [] := order.eq_nil
    simp

end Checks

theorem Idle.setRule (idle : Idle sys start b) (rule : Rule) : Idle sys start (b.setRule rule) :=
  ⟨idle.files, idle.globals, idle.options, idle.answers⟩

theorem ruleChanged_decides (quiet : sys.RangesQuietly) {rule : Rule} (plain : bar ∉ rule.stamp) :
    Decides (Idle sys start) id
      (∃ file ∈ (normaliseRuleDir rule).fileDeps, start.NewerThan sys rule.stamp file)
      (ruleChanged sys rule) := by
  refine .congr ((getChangedFileDeps_decides plain quiet rule).bind ?_ ?_) (iff_of_eq (or_false _))
  · intro out some
    exact .bind fun _ => .pure some
  · intro out none
    have set : Keeps (Idle sys start) (fun _ => True)
        (modify fun b => b.setRule out.2 : Build ω PUnit) :=
      Meets.modify fun b idle => idle.setRule out.2
    exact .after set fun _ _ => .pure (by simp_all)

def Builder.Stale (sys : System ω) (start : Builder ω) (name : Text) : Prop :=
  start.OutOfDate (start.Changed sys) (start.Missing sys) name

theorem Builder.stale_iff {rule : Rule} {name : Text} (found : start.findRule name = some rule) :
    start.Stale sys name ↔
      (∃ file ∈ (normaliseRuleDir rule).fileDeps, start.NewerThan sys rule.stamp file) ∨
        rule.isPhony = true ∨ sys.exists [] rule.stamp start = false := by
  simp [Builder.Stale, Builder.OutOfDate, Builder.Changed, Builder.Missing, found]

structure Waiting (sys : System ω) (start b : Builder ω) : Prop where
  idle : Idle sys start b
  same : SameRules start b
  rules : ∀ name, name ∉ b.ruleIsDone → b.findRule name = start.findRule name
  trace : ∀ name, .executed name ∉ b.trace

/-- The runs of some rules executed nothing: what they came to was not out of date, and all it
depends on was come to. -/
structure Waits (sys : System ω) (start : Builder ω) (names : List Text) (b after : Builder ω) :
    Prop where
  waiting : Waiting sys start after
  kept : b.ruleIsDone ⊆ after.ruleIsDone
  done : ∀ name ∈ names, name ∈ after.ruleIsDone
  fresh : ∀ name ∈ after.ruleIsDone, name ∉ b.ruleIsDone →
    ¬start.Stale sys name ∧ ∀ dep ∈ start.deps name, dep ∈ after.ruleIsDone

def RunsIf (sys : System ω) (start : Builder ω) (names : List Text) (b : Builder ω) (ran : Bool)
    (after : Builder ω) : Prop :=
  (ran = true → ∃ name ∈ names, ∃ stale, start.Reaches name stale ∧ start.Stale sys stale) ∧
    (ran = false → Waits sys start names b after)

section Run

theorem Waits.cons {name : Text} {names : List Text} (first : Waits sys start [name] b middle)
    (rest : Waits sys start names middle after) : Waits sys start (name :: names) b after := by
  refine ⟨rest.waiting, fun other inside => rest.kept (first.kept inside), ?_, ?_⟩
  · intro other inside
    rcases List.mem_cons.mp inside with rfl | later
    · exact rest.kept (first.done _ (by simp))
    · exact rest.done other later
  · intro other inside undone
    by_cases early : other ∈ middle.ruleIsDone
    · obtain ⟨current, below⟩ := first.fresh other early undone
      exact ⟨current, fun dep depends => rest.kept (below dep depends)⟩
    · exact rest.fresh other inside early

theorem runDeps_always (run : Text → Build ω Bool) (deps : List Text) :
    Always id (runDeps run deps true) := by
  induction deps with
  | nil => exact .pure rfl
  | cons dep deps ih => exact .bind fun ran => by simpa using ih

theorem runDeps_runsIf {run : Text → Build ω Bool} {names : List Text} {ran : Bool}
    (each : ∀ name ∈ names, ∀ b ran after, Waiting sys start b →
      (run name).call b = (.ok ran, after) → RunsIf sys start [name] b ran after)
    (waiting : Waiting sys start b)
    (called : (runDeps run names false).call b = (.ok ran, after)) :
    RunsIf sys start names b ran after := by
  induction names generalizing b with
  | nil =>
      cases called
      exact ⟨Bool.noConfusion, fun _ =>
        ⟨waiting, List.Subset.refl _, nofun, fun _ inside out => absurd inside out⟩⟩
  | cons name names ih =>
      obtain ⟨first, middle, one, called⟩ := bind_returned called
      obtain ⟨runs, waits⟩ := each name (by simp) b first middle waiting one
      cases first with
      | true =>
          obtain ⟨other, named, reached⟩ := runs rfl
          refine ⟨fun _ => ⟨other, ?_, reached⟩, fun idle => ?_⟩
          · rw [List.mem_singleton.mp named]
            exact List.mem_cons_self
          · have positive := runDeps_always run names middle ran after called
            rw [idle] at positive
            cases positive
      | false =>
          have waited := waits rfl
          obtain ⟨later, still⟩ :=
            ih (fun name inside => each name (by simp [inside])) waited.waiting called
          refine ⟨fun positive => ?_, fun negative => waited.cons (still negative)⟩
          obtain ⟨other, named, reached⟩ := later positive
          exact ⟨other, List.mem_cons_of_mem _ named, reached⟩

theorem runRule_ok {run : Text → Build ω Bool} {rule : Rule} {ran : Bool}
    (called : (runRule sys run rule).call b = (.ok ran, after)) :
    ∃ changed middle depsRan before last,
      (ruleChanged sys rule).call b = (.ok changed, middle) ∧
      (runDeps run rule.ruleDeps changed).call (middle.markDone rule.name) = (.ok depsRan, before) ∧
      ran = (depsRan || rule.isPhony || !sys.exists [] rule.stamp before) ∧
      (if ran then execBuild sys rule rule.stamp else return).call before = (.ok (), last) ∧
      after = last.record (.completed rule.name) := by
  obtain ⟨changed, middle, checked, called⟩ := bind_returned called
  obtain ⟨_, _, ⟨⟩, called⟩ := bind_returned called
  obtain ⟨depsRan, before, looped, called⟩ := bind_returned called
  rw [call_bind_ok before (fileExists_call _ _ before)] at called
  obtain ⟨_, last, executed, called⟩ := bind_returned called
  obtain ⟨_, _, ⟨⟩, called⟩ := bind_returned called
  cases called
  exact ⟨changed, middle, depsRan, before, last, checked, looped, rfl, executed, rfl⟩

theorem ruleChanged_rules {rule : Rule} {changed : Bool}
    (called : (ruleChanged sys rule).call b = (.ok changed, after)) :
    after.rules = (b.setRule (normaliseRuleDir rule)).rules := by
  obtain ⟨out, middle, checked, called⟩ := bind_returned called
  obtain ⟨_, _, ⟨⟩, called⟩ := bind_returned called
  cases called
  obtain ⟨same, normal⟩ :=
    (getChangedFileDeps_normalises (rules_unnoticed b) rule rule.stamp none false).ok rfl checked
  simp only [Builder.setRule, same, normal]

theorem Waiting.checked {rule : Rule} {changed : Bool} (waiting : Waiting sys start b)
    (found : b.findRule rule.name = some rule)
    (called : (ruleChanged sys rule).call b = (.ok changed, middle))
    (idle : Idle sys start middle) : Waiting sys start (middle.markDone rule.name) := by
  have quiet := ruleChanged_quiet found called
  refine ⟨⟨idle.files, idle.globals, idle.options, idle.answers⟩,
    waiting.same.trans (quiet.rules.trans (Ran.markDone middle rule.name).rules), ?_, ?_⟩
  · intro name undone
    obtain ⟨other, before⟩ : name ≠ rule.name ∧ name ∉ b.ruleIsDone := by
      simpa [Builder.markDone, quiet.done] using undone
    have kept : (b.setRule (normaliseRuleDir rule)).findRule name = b.findRule name := by
      rw [Builder.findRule_setRule]
      cases known : b.findRule name with
      | none => rfl
      | some old =>
          have named : old.name ≠ rule.name := fun same =>
            other ((Builder.findRule_name known).symm.trans same)
          exact congrArg some (if_neg named)
    rw [← waiting.rules name before, ← kept, Builder.findRule, Builder.findRule]
    have rules : middle.rules = _ := ruleChanged_rules called
    exact congrArg (List.find? fun rule => rule.name = name) rules
  · intro name
    have trace : (middle.markDone rule.name).trace = b.trace := quiet.trace
    rw [trace]
    exact waiting.trace name

theorem runRule_runsIf {run : Text → Build ω Bool} {rule : Rule} {ran : Bool}
    (quiet : sys.RangesQuietly) (plain : bar ∉ rule.stamp)
    (each : ∀ name, start.DependsOn rule.name name → ∀ b ran after, Waiting sys start b →
      (run name).call b = (.ok ran, after) → RunsIf sys start [name] b ran after)
    (waiting : Waiting sys start b) (found : b.findRule rule.name = some rule)
    (undone : rule.name ∉ b.ruleIsDone)
    (called : (runRule sys run rule).call b = (.ok ran, after)) :
    RunsIf sys start [rule.name] b ran after := by
  have known : start.findRule rule.name = some rule := (waiting.rules _ undone).symm.trans found
  have deps := Builder.deps_of_found known
  have own (stale : start.Stale sys rule.name) :
      ∃ name ∈ [rule.name], ∃ stale, start.Reaches name stale ∧ start.Stale sys stale :=
    ⟨rule.name, by simp, rule.name, .refl, stale⟩
  obtain ⟨changed, middle, depsRan, before, last, checked, looped, decision, executed, rfl⟩ :=
    runRule_ok called
  obtain ⟨newer, older⟩ :=
    ruleChanged_decides quiet plain b waiting.idle changed middle checked
  cases changed with
  | true =>
      refine ⟨fun _ => own ((Builder.stale_iff known).mpr (.inl (newer rfl))), fun idle => ?_⟩
      have positive : depsRan = true := runDeps_always run _ _ _ _ looped
      simp [idle, positive] at decision
  | false =>
      obtain ⟨unchanged, idle⟩ := older rfl
      have marked := waiting.checked found checked idle
      have checkedQuiet := ruleChanged_quiet found checked
      obtain ⟨runs, waits⟩ := runDeps_runsIf
        (fun name depends => each name (Builder.dependsOn_of_mem deps depends)) marked looped
      cases depsRan with
      | true =>
          refine ⟨fun _ => ?_, fun idle => by simp [idle] at decision⟩
          obtain ⟨dep, depends, stale, reaches, old⟩ := runs rfl
          have direct := Builder.dependsOn_of_mem deps depends
          exact ⟨rule.name, by simp, stale, .head direct reaches, old⟩
      | false =>
          have waited := waits rfl
          have present : sys.exists [] rule.stamp before = sys.exists [] rule.stamp start := by
            rw [System.exists, System.exists, waited.waiting.idle.files.stat]
          rw [present] at decision
          constructor
          · intro positive
            refine own ((Builder.stale_iff known).mpr (.inr ?_))
            rw [positive] at decision
            simpa using decision.symm
          · intro negative
            subst negative
            cases executed
            have current : ¬start.Stale sys rule.name := by
              rw [Builder.stale_iff known]
              rintro (newer | phony | missing)
              · exact unchanged newer
              · simp [phony] at decision
              · simp [missing] at decision
            have trace : ∀ name, .executed name ∉ (before.record (.completed rule.name)).trace := by
              simpa [Builder.record] using waited.waiting.trace
            have idle := waited.waiting.idle
            refine ⟨⟨⟨idle.files, idle.globals, idle.options, idle.answers⟩,
              waited.waiting.same.trans (Ran.complete before rule.name).rules,
              waited.waiting.rules, trace⟩, ?_, ?_, ?_⟩
            · intro name inside
              exact waited.kept (.tail _ (checkedQuiet.done ▸ inside))
            · intro name named
              rw [List.mem_singleton.mp named]
              exact waited.kept List.mem_cons_self
            · intro name inside fresh
              by_cases early : name ∈ (middle.markDone rule.name).ruleIsDone
              · rcases List.mem_cons.mp early with rfl | early
                · exact ⟨current, fun dep depends => waited.done dep (deps ▸ depends)⟩
                · exact absurd (checkedQuiet.done ▸ early) fresh
              · exact waited.fresh name inside early

theorem Rule.stamp_plain {rule : Rule} (plain : bar ∉ rule.name) : bar ∉ rule.stamp := by
  have free : bar ∉ zbuildTmpfilePrefix := by decide
  rw [Rule.stamp]
  split_ifs
  · simp [plain, free]
  · exact plain

theorem runBuild_runsIf (quiet : sys.RangesQuietly) (fuel : Nat) (name : Text)
    (plain : ∀ other, start.Reaches name other → bar ∉ other) (b : Builder ω) (ran : Bool)
    (after : Builder ω) (waiting : Waiting sys start b)
    (called : (runBuild sys fuel name).call b = (.ok ran, after)) :
    RunsIf sys start [name] b ran after := by
  induction fuel generalizing name b ran after with
  | zero => cases called
  | succ fuel ih =>
      rw [runBuild, call_bind_ok b (call_get b)] at called
      cases found : b.findRule name with
      | none =>
          rw [found] at called
          cases called
      | some rule =>
          obtain rfl := Builder.findRule_name found
          simp only [found] at called
          split_ifs at called with done
          · cases called
            refine ⟨Bool.noConfusion, fun _ => ⟨waiting, List.Subset.refl _, ?_, ?_⟩⟩
            · exact fun name named => List.mem_singleton.mp named ▸ done
            · exact fun name inside fresh => absurd inside fresh
          · have free := Rule.stamp_plain (plain rule.name .refl)
            refine runRule_runsIf quiet free (fun dep depends => ?_) waiting found done called
            exact ih dep fun other reaches => plain other (.head depends reaches)

theorem runBuild_executed {fuel : Nat} {name : Text}
    (called : (runBuild sys fuel name).call b = (.ok true, after)) :
    .executed name ∈ after.trace := by
  cases fuel with
  | zero => cases called
  | succ fuel =>
      cases runBuild_cases called with
      | fresh found named undone step =>
          cases step with
          | executed checked deps executed =>
              simp [Builder.record, executed.trace, named]

theorem runBuild_executes_iff (quiet : sys.RangesQuietly) {name : Text}
    (plain : ∀ other, start.Reaches name other → bar ∉ other) (fresh : Fresh start) {fuel : Nat}
    {ran : Bool} (called : (runBuild sys fuel name).call start = (.ok ran, after)) :
    .executed name ∈ after.trace ↔
      ∃ stale, start.Reaches name stale ∧ start.Stale sys stale := by
  have waiting : Waiting sys start start :=
    ⟨.refl sys start, .refl start, fun _ _ => rfl, fun name => by simp [fresh.trace]⟩
  obtain ⟨runs, waits⟩ := runBuild_runsIf quiet fuel name plain start ran after waiting called
  cases ran with
  | true =>
      obtain ⟨other, named, reached⟩ := runs rfl
      rw [List.mem_singleton.mp named] at reached
      exact iff_of_true (runBuild_executed called) reached
  | false =>
      have waited := waits rfl
      have undone (other : Text) : other ∉ start.ruleIsDone := by simp [fresh.done]
      have visited (other : Text) (reaches : start.Reaches name other) :
          other ∈ after.ruleIsDone := by
        induction reaches with
        | refl => exact waited.done name (by simp)
        | tail _ depends ih => exact (waited.fresh _ ih (undone _)).2 _ depends
      refine iff_of_false (waited.waiting.trace name) ?_
      rintro ⟨stale, reaches, old⟩
      exact (waited.fresh stale (visited stale reaches) (undone stale)).1 old

end Run

end Zeptux.Zbuild
