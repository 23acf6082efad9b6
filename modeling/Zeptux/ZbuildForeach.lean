import Zeptux.Lib.CleanPath
import Zeptux.ZbuildInit
import Zeptux.ZbuildParser
import Zeptux.ZbuildRun

/-!
The commands that `init` makes of a `foreach`. They are made for the sources that are newer than
their outputs at start-up, and nothing is executed before they are.
-/

namespace Zeptux.Zbuild

open Strings Procedure

variable {ω : Type} {sys : System ω} {world : ω}

structure SameFiles (sys : System ω) (world other : ω) : Prop where
  stat : ∀ path, sys.stat path other = sys.stat path world
  readFile : ∀ path, sys.readFile path other = sys.readFile path world
  glob : ∀ pattern, sys.glob pattern other = sys.glob pattern world

namespace SameFiles

theorem refl (world : ω) : SameFiles sys world world := ⟨fun _ => rfl, fun _ => rfl, fun _ => rfl⟩

theorem trans {middle other : ω} (first : SameFiles sys world middle)
    (second : SameFiles sys middle other) : SameFiles sys world other :=
  ⟨fun path => (second.stat path).trans (first.stat path),
    fun path => (second.readFile path).trans (first.readFile path),
    fun pattern => (second.glob pattern).trans (first.glob pattern)⟩

end SameFiles

def System.RangesQuietly (sys : System ω) : Prop :=
  ∀ keys world, SameFiles sys world (sys.rangeOrder keys world).2

def System.newer (sys : System ω) (candidate comparator : Text) (world : ω) : Bool :=
  match sys.stat (joinPath [] candidate) world, sys.stat comparator world with
  | .found _ _, .notExist _ => true
  | .found _ time, .found _ compared => compared < time
  | _, _ => false

section Notes

def bar : UInt8 := '|'.toUInt8

def note (target filename : Text) : Text := target ++ lit "|" ++ filename

/-- A key is read in one way only when the target has no bar in its name. -/
theorem note_inj {target other filename otherName : Text} (plain : bar ∉ target)
    (otherPlain : bar ∉ other) (same : note target filename = note other otherName) :
    target = other ∧ filename = otherName := by
  have first {target filename : Text} (plain : bar ∉ target) :
      (note target filename).takeWhile (· ≠ bar) = target := by
    have inside : ∀ chr ∈ target, decide (chr ≠ bar) = true := by
      rintro chr inside
      refine decide_eq_true ?_
      rintro rfl
      exact plain inside
    rw [note, List.append_assoc, List.takeWhile_append_of_pos inside]
    exact List.append_nil target
  obtain rfl : target = other := by rw [← first plain, same, first otherPlain]
  exact ⟨rfl, List.append_cancel_left same⟩

theorem Map.lookup_insert {α : Type} (map : Map α) (key other : Text) (val : α) :
    (map.insert key val).lookup other = if other = key then some val else map.lookup other := by
  rw [Map.insert, List.lookup_cons]
  by_cases same : other = key
  · simp [same]
  · rw [show (other == key) = false by simpa using same, if_neg same]
    dsimp only
    induction map with
    | nil => rfl
    | cons entry map ih =>
        by_cases removed : entry.1 = key
        · have skipped : (other == entry.1) = false := by simp [removed, same]
          rw [List.filter_cons_of_neg (by simpa using removed), ih, List.lookup_cons, skipped]
        · rw [List.filter_cons_of_pos (by simpa using removed), List.lookup_cons, List.lookup_cons, ih]

end Notes

section Reading

variable {inv : Builder ω → Prop} (files : ∀ b, inv b → SameFiles sys world b.world)

include files

theorem statFile_meets (path : Text) :
    Meets inv (fun _ => True) (fun stat => stat = sys.stat path world) (statFile sys path) :=
  Meets.get.bind fun b holds => Meets.pure ((files b holds).stat path)

theorem isFileNewer_meets (filename target : Text) :
    Meets inv (fun _ => True) (fun newer => newer = sys.newer filename target world)
      (isFileNewer sys [] filename target) := by
  refine (statFile_meets files _).bind fun stat found => ?_
  cases stat with
  | notExist err => exact Meets.throw trivial
  | failed err => exact Meets.throw trivial
  | found isDir time =>
      refine (statFile_meets files _).bind fun other compared => ?_
      cases other with
      | notExist err => exact Meets.pure (by simp [System.newer, ← found, ← compared])
      | failed err => exact Meets.throw trivial
      | found isDir time => exact Meets.pure (by simp [System.newer, ← found, ← compared])

end Reading

def Rule.Makes (rule : Rule) (source output : Text) : Prop :=
  comparedTarget (ext rule.multiGlob) true source = .ok output

/-- No output of the rule has the bar in its name that separates the names in a noted key. -/
def Rule.Separable (rule : Rule) : Prop :=
  ∀ source ∈ (normaliseRuleDir rule).fileDeps, ∀ output, rule.Makes source output → bar ∉ output

theorem normaliseRuleDir_again (rule : Rule) :
    normaliseRuleDir (normaliseRuleDir rule) = normaliseRuleDir rule := by
  simp only [normaliseRuleDir, List.map_map]
  congr 1
  exact List.map_congr_left fun name _ => joinPath_joinPath rule.dir name

theorem Rule.Separable.normalise {rule : Rule} (separable : rule.Separable) :
    (normaliseRuleDir rule).Separable := by
  rw [Rule.Separable, normaliseRuleDir_again]
  exact separable

/-- Before the run nothing is executed, and what was compared is noted as it was at start-up. -/
structure Started (sys : System ω) (world : ω) (b : Builder ω) : Prop where
  files : SameFiles sys world b.world
  prehooks : b.conditionalPrehooks = []
  noted : ∀ key newer, b.knownFileComparisons.lookup key = some newer →
    ∃ target filename, bar ∉ target ∧ key = note target filename ∧
      newer = sys.newer filename target world
  done : b.ruleIsDone = []
  trace : b.trace = []

theorem Started.empty (sys : System ω) (world : ω) : Started sys world (Builder.empty world) :=
  ⟨.refl world, rfl, nofun, rfl, rfl⟩

section Checks

variable {keep : Builder ω → Prop}

structure Begun (sys : System ω) (world : ω) (keep : Builder ω → Prop) (b : Builder ω) : Prop where
  started : Started sys world b
  kept : keep b

def Unchecked (keep : Builder ω → Prop) : Prop :=
  ∀ b world known, keep b → keep { b with world := world, knownFileComparisons := known }

variable (quiet : sys.RangesQuietly) (unchecked : Unchecked keep)

include quiet unchecked in
theorem begun_ranged : Ranged sys (Begun sys world keep) fun _ => True where
  fatal _ := trivial
  failed _ := trivial
  runtimeError := trivial
  ranged b keys begun :=
    ⟨⟨begun.started.files.trans (quiet keys b.world), begun.started.prehooks, begun.started.noted,
      begun.started.done, begun.started.trace⟩, unchecked b _ _ begun.kept⟩

include unchecked in
theorem checkFileDepNewer_begun {target : Text} (plain : bar ∉ target) (filename : Text) :
    Meets (Begun sys world keep) (fun _ => True)
      (fun newer => newer = sys.newer filename target world)
      (checkFileDepNewer sys target filename) := by
  refine Meets.get.bind fun b begun => ?_
  cases known : b.knownFileComparisons.lookup (target ++ lit "|" ++ filename) with
  | some newer =>
      obtain ⟨other, name, otherPlain, same, value⟩ := begun.started.noted _ _ known
      obtain ⟨rfl, rfl⟩ := note_inj plain otherPlain same
      exact Meets.pure value
  | none =>
      refine (isFileNewer_meets (fun _ begun => begun.started.files) _ _).bind fun newer value => ?_
      have prehooks : Keeps (Begun sys world keep) (fun _ => True)
          (if newer then execConditionalPrehooks sys filename else return) := by
        split
        · refine Meets.get.bind fun b begun => ?_
          rw [begun.started.prehooks]
          exact Meets.pure trivial
        · exact Meets.pure trivial
      refine prehooks.bind fun _ _ => ?_
      refine (Meets.modify fun b begun => ?_).bind fun _ _ => Meets.pure value
      refine ⟨⟨begun.started.files, begun.started.prehooks, fun key other found => ?_,
        begun.started.done, begun.started.trace⟩, unchecked b _ _ begun.kept⟩
      rw [Map.lookup_insert] at found
      split_ifs at found with same
      · cases found
        exact ⟨target, filename, plain, same, value⟩
      · exact begun.started.noted key other found

include unchecked in
theorem checkFileDepsNewer_begun {target : Text} (plain : bar ∉ target) (filenames : List Text) :
    Keeps (Begun sys world keep) (fun _ => True) (checkFileDepsNewer sys target filenames) := by
  induction filenames with
  | nil => exact Meets.pure trivial
  | cons filename filenames ih =>
      refine (checkFileDepNewer_begun unchecked plain filename).bind fun _ _ => ?_
      exact ih.bind fun _ _ => Meets.pure trivial

include unchecked in
theorem changedFrom_begun {targeting : Text} {filenames : List Text}
    (plain : ∀ source ∈ filenames, ∀ output,
      comparedTarget targeting true source = .ok output → bar ∉ output)
    (depGraph : Map (List Text)) :
    Meets (Begun sys world keep) (fun _ => True)
      (fun changed => ∀ source ∈ filenames, ∀ output,
        comparedTarget targeting true source = .ok output →
        sys.newer source output world = true → source ∈ changed)
      (changedFrom sys targeting true depGraph filenames) := by
  induction filenames with
  | nil => exact Meets.pure (by simp)
  | cons filename filenames ih =>
      have compared : Meets (Begun sys world keep) (fun _ => True)
          (fun target => comparedTarget targeting true filename = .ok target)
          (liftM (comparedTarget targeting true filename) : Build ω Text) := by
        refine Meets.lift ?_
        cases comparedTarget targeting true filename with
        | ok target => rfl
        | error err => trivial
      refine compared.bind fun target made => ?_
      have free := plain filename (by simp) target made
      refine (checkFileDepNewer_begun unchecked free _).bind fun own value => ?_
      refine (checkFileDepsNewer_begun unchecked free _).bind fun deps _ => ?_
      refine Meets.get.bind fun b _ => ?_
      refine (checkFileDepsNewer_begun unchecked free _).bind fun globals _ => ?_
      refine (ih fun source inside => plain source (by simp [inside])).bind fun rest passed => ?_
      refine Meets.pure fun source inside output makes newer => ?_
      rcases List.mem_cons.mp inside with rfl | later
      · obtain rfl : target = output := Except.ok.inj (made.symm.trans makes)
        simp [value, newer]
      · have listed := passed source later output makes newer
        split_ifs
        · exact List.mem_cons_of_mem _ listed
        · exact listed

include quiet unchecked in
theorem rangeKeys_begun (keys : List Text) :
    Meets (Begun sys world keep) (fun _ => True) (fun order => order.Perm keys)
      (rangeKeys sys keys) :=
  fun b begun => ⟨(begun_ranged quiet unchecked).ranged b keys begun, sys.rangeOrder_perm keys b.world⟩

include quiet unchecked in
theorem getChangedFileDeps_begun {rule : Rule} (separable : rule.Separable)
    (excluding : List Text) :
    Meets (Begun sys world keep) (fun _ => True)
      (fun out => out.2 = normaliseRuleDir rule ∧
        ∀ source ∈ out.2.fileDeps, ∀ output, rule.Makes source output →
          sys.newer source output world = true → source ∉ excluding → base source ∉ excluding →
          source ∈ out.1)
      (getChangedFileDeps sys rule (ext rule.multiGlob) (some excluding) true) := by
  refine (computeDepfileFiledeps_keeps (begun_ranged quiet unchecked) _).bind fun depGraph _ => ?_
  refine (changedFrom_begun unchecked separable depGraph).bind fun changed passed => ?_
  refine (rangeKeys_begun quiet unchecked _).bind fun keys order => ?_
  refine Meets.pure ⟨rfl, fun source inside output makes newer named based => ?_⟩
  have listed : source ∈ keys :=
    order.mem_iff.mpr (List.mem_dedup.mpr (passed source inside output makes newer))
  simpa [listed] using And.intro named based

end Checks

def Depget.Names (sys : System ω) (world : ω) (dir : Text) (dg : Depget) (name : Text) : Prop :=
  match dg.kind with
  | .file => name = dg.name
  | .glob => ∃ names, sys.glob (if dir = [] then dg.name else joinPath dir dg.name) world = .ok names ∧
      ∃ full ∈ names, name = joinPath (dirname dg.name) (base full)
  | _ => False

def Excluded (sys : System ω) (world : ω) (dir : Text) (excluding : Depgetset) (source : Text) :
    Prop :=
  ∃ dg ∈ excluding.depgets, dg.Names sys world dir source ∨ dg.Names sys world dir (base source)

section Excluding

variable {keep : Builder ω → Prop} (quiet : sys.RangesQuietly) (unchecked : Unchecked keep)

theorem readFileDependency_begun (rule dir : Text) (dg : Depget) :
    Meets (Begun sys world keep) (fun _ => True)
      (fun names => ∀ name ∈ names, dg.Names sys world dir name)
      (readFileDependency sys rule dir dg) := by
  rcases dg with ⟨kind | kind | kind | kind, dgName⟩
  · refine (fileExists_keeps _ _).bind fun present _ => ?_
    cases present with
    | false => exact Meets.throw trivial
    | true => exact Meets.pure (by simp [Depget.Names])
  · refine Meets.get.bind fun b begun => ?_
    dsimp only
    rw [begun.started.files.glob]
    cases globbed : sys.glob (if dir = [] then dgName else joinPath dir dgName) world with
    | error err => exact Meets.throw trivial
    | ok names =>
        refine Meets.pure fun name inside => ?_
        obtain ⟨full, listed, rfl⟩ := List.mem_map.mp inside
        exact ⟨names, globbed, full, listed, rfl⟩
  · exact Meets.throw trivial
  · exact Meets.pure (by simp)

theorem keys_of_inserts {α : Type} (names : List Text) (keep : α) (hash : Map α) :
    ∀ key ∈ (names.foldl (fun hash name => hash.insert name keep) hash).map Prod.fst,
      key ∈ names ∨ key ∈ hash.map Prod.fst := by
  induction names generalizing hash with
  | nil => exact fun key inside => .inr inside
  | cons name names ih =>
      intro key inside
      rcases ih (hash.insert name keep) key inside with later | now
      · exact .inl (List.mem_cons_of_mem _ later)
      · rcases List.mem_cons.mp now with rfl | before
        · exact .inl List.mem_cons_self
        · refine .inr (List.map_subset _ (fun entry kept => ?_) before)
          exact List.mem_of_mem_filter kept

include quiet unchecked in
theorem extractExcluding_begun (rule : Rule) (excluding : Depgetset) :
    Meets (Begun sys world keep) (fun _ => True)
      (fun names => ∀ name ∈ names, ∃ dg ∈ excluding.depgets, dg.Names sys world rule.dir name)
      (extractExcluding sys rule excluding) := by
  rw [extractExcluding]
  split
  · exact Meets.pure (by simp)
  have read : Meets (Begun sys world keep) (fun _ => True)
      (fun hash => ∀ key ∈ hash.map Prod.fst,
        ∃ dg ∈ excluding.depgets, dg.Names sys world rule.dir key)
      (readFileDependencies sys rule.name rule.dir excluding [] true) := by
    have one (dg : Depget) (listed : dg ∈ excluding.depgets) :
        Meets (Begun sys world keep) (fun _ => True)
          (fun names => ∀ name ∈ names,
            ∃ dg ∈ excluding.depgets, dg.Names sys world rule.dir name)
          (readFileDependency sys rule.name rule.dir dg) :=
      (readFileDependency_begun rule.name rule.dir dg).mono
        fun names each name inside => ⟨dg, listed, each name inside⟩
    refine (Meets.mapM one).bind fun names each => ?_
    refine Meets.pure fun key inside => ?_
    rcases keys_of_inserts names.flatten true [] key inside with named | none
    · obtain ⟨part, listed, inside⟩ := List.mem_flatten.mp named
      exact each part listed key inside
    · cases none
  refine read.bind fun hash each => ?_
  have ordered : Meets (Begun sys world keep) (fun _ => True) (fun names => ∀ name ∈ names,
      ∃ dg ∈ excluding.depgets, dg.Names sys world rule.dir name) (do
        let keys ← rangeKeys sys (hash.map Prod.fst)
        return keys.filter fun key => hash.lookup key = some true) := by
    refine (rangeKeys_begun quiet unchecked _).bind fun keys order => ?_
    exact Meets.pure fun key inside => each key (order.mem_iff.mp (List.mem_of_mem_filter inside))
  exact ordered

end Excluding

/-- Commands made of the body of a `foreach` for one source, in a state that `made` admits. The
variables are those of the block and of the round for the source. -/
def ForeachCommands (sys : System ω) (made : Builder ω → Prop) (body : List Statement)
    (vars : Map Text) (source output : Text) (commands : List Text) : Prop :=
  ∃ b after scope out, made b ∧
    (∀ name, scope.vars.lookup name = (roundVars vars source output).lookup name) ∧
    (extractShellCommands sys (getChangedFileDeps sys) scope body).call b = (.ok (commands, out), after)

def HoldsCommands (sys : System ω) (made : Builder ω → Prop) (body : List Statement)
    (vars : Map Text) (source output : Text) (shellCommands : List Text) : Prop :=
  ∃ before commands rest, shellCommands = before ++ commands ++ rest ∧
    ForeachCommands sys made body vars source output commands

theorem HoldsCommands.append {made : Builder ω → Prop} {body : List Statement} {vars : Map Text}
    {source output : Text} {shellCommands : List Text}
    (holds : HoldsCommands sys made body vars source output shellCommands) (front back : List Text) :
    HoldsCommands sys made body vars source output (front ++ shellCommands ++ back) := by
  obtain ⟨before, commands, rest, rfl, made⟩ := holds
  exact ⟨front ++ before, commands, rest ++ back, by simp, made⟩

/-- Every source of the rule that is newer than its output and not excluded has its commands in
the list. The excluded names are read in the directory given. -/
def Expanded (sys : System ω) (world : ω) (made : Builder ω → Prop) (rule : Rule) (dir : Text)
    (head : ForeachHead) (body : List Statement) (vars : Map Text) (shellCommands : List Text) :
    Prop :=
  ∀ source ∈ (normaliseRuleDir rule).fileDeps, ∀ output, rule.Makes source output →
    sys.newer source output world = true → ¬Excluded sys world dir head.excluding source →
    HoldsCommands sys made body vars source output shellCommands

theorem Expanded.append {made : Builder ω → Prop} {rule : Rule} {dir : Text} {head : ForeachHead}
    {body : List Statement} {vars : Map Text} {shellCommands : List Text}
    (expanded : Expanded sys world made rule dir head body vars shellCommands)
    (front back : List Text) :
    Expanded sys world made rule dir head body vars (front ++ shellCommands ++ back) :=
  fun source inside output makes newer kept =>
    (expanded source inside output makes newer kept).append front back

/-- The directory a `foreach` reads its excluded names in. The first `foreach` of a rule leaves it
with the directory of the project. -/
def foreachDir (dir : Text) (front : List Statement) : Text :=
  if front.any Statement.isForeach then [] else dir

/-- Two states of the variables of a block, which differ in the round of a `foreach` at most. -/
def SameBlock (vars after : Map Text) : Prop :=
  ∀ name, name ≠ lit "source" → name ≠ lit "output" → after.lookup name = vars.lookup name

theorem lookup_roundVars (vars : Map Text) (source output name : Text) :
    (roundVars vars source output).lookup name =
      if name = lit "output" then some output
      else if name = lit "source" then some source
      else vars.lookup name := by
  rw [roundVars, Map.lookup_insert, Map.lookup_insert]

theorem SameBlock.round {vars after : Map Text} (same : SameBlock vars after)
    (source output : Text) : SameBlock vars (roundVars after source output) := by
  intro name notSource notOutput
  rw [lookup_roundVars, if_neg notOutput, if_neg notSource]
  exact same name notSource notOutput

theorem SameBlock.lookup_round {vars after : Map Text} (same : SameBlock vars after)
    (source output name : Text) :
    (roundVars after source output).lookup name = (roundVars vars source output).lookup name := by
  rw [lookup_roundVars, lookup_roundVars]
  split
  · rfl
  · split
    · rfl
    · exact same name ‹_› ‹_›

theorem Staying.sameBlock {changedFileDeps : ChangedFileDeps ω} {inv : Builder ω → Prop}
    {allowed : Stop → Prop} {phony : Bool} {stays : Scope → Prop}
    (staying : Staying changedFileDeps inv allowed phony stays) (vars : Map Text) :
    Staying changedFileDeps inv allowed phony
      fun scope => stays scope ∧ SameBlock vars scope.vars where
  vars scope source output now := ⟨staying.vars scope source output now.1, now.2.round source output⟩
  phony scope now := staying.phony scope now.1
  deps rule after excluding now :=
    (staying.deps rule after excluding now.1).mono fun _ stays => ⟨stays, now.2⟩

theorem Staying.normalising {changedFileDeps : ChangedFileDeps ω} {inv : Builder ω → Prop}
    {allowed : Stop → Prop} {rule : Rule}
    (deps : ∀ current, current = rule ∨ current = normaliseRuleDir rule → ∀ excluding,
      Meets inv allowed (fun out => out.2 = normaliseRuleDir current)
        (changedFileDeps current (ext current.multiGlob) (some excluding) true)) :
    Staying changedFileDeps inv allowed rule.isPhony
      fun scope => scope.rule = some rule ∨ scope.rule = some (normaliseRuleDir rule) where
  vars _ _ _ now := now
  phony scope now := by
    rcases now with now | now
    · simp [Scope.phony, now]
    · simp [Scope.phony, now, normaliseRuleDir]
  deps current vars excluding now := by
    have known : current = rule ∨ current = normaliseRuleDir rule :=
      now.imp Option.some.inj Option.some.inj
    refine (deps current known excluding).mono fun out same => .inr (congrArg some ?_)
    rcases known with rfl | rfl
    · exact same
    · rw [same, normaliseRuleDir_again]

section Extracting

variable {keep : Builder ω → Prop} (quiet : sys.RangesQuietly) (unchecked : Unchecked keep)

include quiet unchecked

theorem begun_staying {rule : Rule} (separable : rule.Separable) :
    Staying (getChangedFileDeps sys) (Begun sys world keep) (fun _ => True) rule.isPhony
      fun scope => scope.rule = some rule ∨ scope.rule = some (normaliseRuleDir rule) := by
  refine .normalising fun current known excluding => ?_
  have plain : current.Separable := by
    rcases known with rfl | rfl
    · exact separable
    · exact separable.normalise
  exact (getChangedFileDeps_begun quiet unchecked plain excluding).mono fun out same => same.1

theorem begun_normalised {rule : Rule} (separable : rule.Separable) :
    Staying (getChangedFileDeps sys) (Begun sys world keep) (fun _ => True) rule.isPhony
      fun scope => scope.rule = some (normaliseRuleDir rule) := by
  have staying : Staying (getChangedFileDeps sys) (Begun sys world keep) (fun _ => True)
      (normaliseRuleDir rule).isPhony _ := begun_staying quiet unchecked separable.normalise
  rw [normaliseRuleDir_again] at staying
  simp only [or_self] at staying
  exact staying

theorem extractShellCommands_sameBlock {rule : Rule} (separable : rule.Separable)
    {vars : Map Text} (scope : Scope) (now : scope.rule = some (normaliseRuleDir rule))
    (same : SameBlock vars scope.vars) (statements : List Statement) :
    Meets (Begun sys world keep) (fun _ => True)
      (fun out => out.2.rule = some (normaliseRuleDir rule) ∧ SameBlock vars out.2.vars)
      (extractShellCommands sys (getChangedFileDeps sys) scope statements) :=
  extractShellCommands_meets (begun_ranged quiet unchecked)
    ((begun_normalised quiet unchecked separable).sameBlock vars) scope ⟨now, same⟩ statements
    fun _ _ => .inl trivial

theorem expandForeachSources_begun {rule : Rule} (separable : rule.Separable) {vars : Map Text}
    (body : List Statement) (targetExt : Text) (sources : List Text) :
    ∀ scope, scope.rule = some (normaliseRuleDir rule) → SameBlock vars scope.vars →
      Meets (Begun sys world keep) (fun _ => True)
        (fun out => (out.2.rule = some (normaliseRuleDir rule) ∧ SameBlock vars out.2.vars) ∧
          ∀ source ∈ sources, ∀ output, comparedTarget targetExt true source = .ok output →
            HoldsCommands sys keep body vars source output out.1)
        (expandForeachSources (fun scope => extractShellCommands sys (getChangedFileDeps sys) scope body)
          targetExt sources scope) := by
  induction sources with
  | nil => exact fun scope now same => Meets.pure ⟨⟨now, same⟩, by simp⟩
  | cons source sources ih =>
      intro scope now same
      have replaced : Meets (Begun sys world keep) (fun _ => True)
          (fun path => replaceExt source targetExt = .ok path)
          (liftM (replaceExt source targetExt) : Build ω Text) := by
        refine Meets.lift ?_
        cases replaceExt source targetExt with
        | ok path => rfl
        | error err => trivial
      refine replaced.bind fun path found => ?_
      have once : Meets (Begun sys world keep) (fun _ => True)
          (fun out => out.2.rule = some (normaliseRuleDir rule) ∧ SameBlock vars out.2.vars)
          (extractShellCommands sys (getChangedFileDeps sys)
            ⟨scope.rule, roundVars scope.vars source (base path)⟩ body) :=
        extractShellCommands_sameBlock quiet unchecked separable
          ⟨scope.rule, roundVars scope.vars source (base path)⟩ now
          (same.round source (base path)) body
      refine once.returns.bind fun first ⟨next, b, after, begun, called⟩ => ?_
      refine (ih first.2 next.1 next.2).bind fun rest ⟨last, others⟩ => Meets.pure ⟨last, ?_⟩
      intro other inside output makes
      rcases List.mem_cons.mp inside with rfl | later
      · have isOutput : base path = output := by
          rw [comparedTarget, if_pos rfl, found] at makes
          exact Except.ok.inj makes
        subst isOutput
        exact ⟨[], first.1, rest.1, rfl, b, after, _, first.2, begun.kept,
          same.lookup_round other (base path), called⟩
      · simpa using (others other later output makes).append first.1 []

theorem expandForeachStatement_begun {rule : Rule} (separable : rule.Separable)
    {vars now : Map Text} (sameNow : SameBlock vars now) (head : ForeachHead)
    (body : List Statement) :
    Meets (Begun sys world keep) (fun _ => True)
      (fun out => (out.2.rule = some (normaliseRuleDir rule) ∧ SameBlock vars out.2.vars) ∧
        Expanded sys world keep rule rule.dir head body vars out.1)
      (expandForeachStatement sys (getChangedFileDeps sys)
        (fun scope => extractShellCommands sys (getChangedFileDeps sys) scope body) rule now head) := by
  refine (stopIf_meets fun _ => trivial).bind fun _ _ => ?_
  refine (stopIf_meets fun _ => trivial).bind fun _ _ => ?_
  refine (stopIf_meets fun _ => trivial).bind fun _ _ => ?_
  refine (extractExcluding_begun quiet unchecked rule head.excluding).bind fun excluding named => ?_
  refine (getChangedFileDeps_begun quiet unchecked separable excluding).bind fun out changed => ?_
  obtain ⟨same, passed⟩ := changed
  refine (expandForeachSources_begun quiet unchecked separable body _ out.1 ⟨some out.2, now⟩
    (congrArg some same) sameNow).mono fun last expanded => ⟨expanded.1, ?_⟩
  intro source inside output makes newer kept
  have unnamed (name : Text) (isName : name = source ∨ name = base source) : name ∉ excluding := by
    intro listed
    obtain ⟨dg, among, names⟩ := named name listed
    rcases isName with rfl | rfl
    · exact kept ⟨dg, among, .inl names⟩
    · exact kept ⟨dg, among, .inr names⟩
  refine expanded.2 source ?_ output makes
  exact passed source (same ▸ inside) output makes newer (unnamed source (.inl rfl))
    (unnamed (base source) (.inr rfl))

theorem extractShellCommand_begun {scope : Scope} {statement : Statement}
    (other : statement.isForeach = false) :
    Meets (Begun sys world keep) (fun _ => True) (fun out => out.2 = scope)
      (extractShellCommand sys (getChangedFileDeps sys) scope statement) := by
  have basic : Ranged sys (Begun sys world keep) fun _ => True := begun_ranged quiet unchecked
  have special {binary : Text} : Keeps (Begun sys world keep) (fun _ => True)
      (do return binary ++ (← genSpecialCcParams) : Build ω Text) :=
    genSpecialCcParams_keeps.bind fun _ _ => Meets.pure trivial
  have arguments (args : ParameterisedString) {command : Build ω Text}
      (kept : Keeps (Begun sys world keep) (fun _ => True) command) :
      Meets (Begun sys world keep) (fun _ => True) (fun out => out.2 = scope)
        (extractArgs scope args command) :=
    (substituteVars_keeps basic _ _ _).bind fun _ _ => kept.bind fun _ _ => Meets.pure rfl
  cases statement with
  | shell expression noecho =>
      rw [extractShellCommand]
      exact (substituteVars_keeps basic _ _ _).bind fun _ _ => Meets.pure rfl
  | cc args =>
      rw [extractShellCommand]
      exact arguments args special
  | cpp args =>
      rw [extractShellCommand]
      exact arguments args special
  | ld args =>
      rw [extractShellCommand]
      exact arguments args (Meets.pure trivial)
  | foreach head body => cases other
  | _ =>
      simp only [extractShellCommand]
      exact Meets.throw trivial

theorem extractShellCommands_begun (head : ForeachHead) (body back : List Statement)
    {vars : Map Text} :
    ∀ (front : List Statement) (rule : Rule) (now : Map Text), rule.Separable → SameBlock vars now →
      Meets (Begun sys world keep) (fun _ => True)
        (fun out => out.2.rule = some (normaliseRuleDir rule) ∧
          Expanded sys world keep rule (foreachDir rule.dir front) head body vars out.1)
        (extractShellCommands sys (getChangedFileDeps sys) ⟨some rule, now⟩
          (front ++ .foreach head body :: back)) := by
  intro front
  induction front with
  | nil =>
      intro rule now separable same
      rw [List.nil_append, extractShellCommands, extractShellCommand]
      refine (expandForeachStatement_begun quiet unchecked separable same head body).bind
        fun first ⟨next, expanded⟩ => ?_
      refine (extractShellCommands_sameBlock quiet unchecked separable first.2 next.1 next.2 back).bind
        fun rest last => ?_
      exact Meets.pure ⟨last.1, expanded.append [] rest.1⟩
  | cons statement front ih =>
      intro rule now separable same
      rw [List.cons_append, extractShellCommands]
      cases kind : statement.isForeach with
      | false =>
          refine (extractShellCommand_begun quiet unchecked kind).bind fun first unmoved => ?_
          obtain ⟨commands, scope⟩ := first
          obtain rfl : scope = ⟨some rule, now⟩ := unmoved
          refine (ih rule now separable same).bind fun rest ⟨last, expanded⟩ => ?_
          refine Meets.pure ⟨last, ?_⟩
          simpa [foreachDir, kind] using expanded.append commands []
      | true =>
          cases statement with
          | foreach other statements =>
              rw [extractShellCommand]
              refine (expandForeachStatement_begun quiet unchecked separable same other
                statements).bind fun first ⟨⟨next, still⟩, _⟩ => ?_
              obtain ⟨commands, after, later⟩ := first
              obtain rfl : after = some (normaliseRuleDir rule) := next
              refine (ih (normaliseRuleDir rule) later separable.normalise still).bind
                fun rest ⟨last, expanded⟩ => ?_
              rw [normaliseRuleDir_again] at last
              refine Meets.pure ⟨last, ?_⟩
              have moved : foreachDir (normaliseRuleDir rule).dir front =
                  foreachDir rule.dir (.foreach other statements :: front) := by
                simp [foreachDir, Statement.isForeach, normaliseRuleDir]
              rw [moved, Expanded, normaliseRuleDir_again] at expanded
              exact fun source inside output makes newer kept =>
                by simpa using (expanded source inside output makes newer kept).append commands []
          | _ => cases kind

end Extracting

end Zeptux.Zbuild
