import Zeptux.Lib.Fields
import Zeptux.ZbuildForeachInit

/-!
What the set statements assign, as tokens, and what the first two passes of `init` make of them.
A special variable is replaced by every statement for it, whichever operator it has.
-/

namespace Zeptux.Zbuild

open Strings Procedure

variable {ω : Type} {sys : System ω} {state : ParseState} {b after : Builder ω}

section Assigned

/-- The text an element gives where no variable is substituted. -/
def ParamStringElement.text (elem : ParamStringElement) : Text :=
  match elem.kind with
  | .stringElem => elem.str
  | .variableElem | .embeddedShell => lit "$(" ++ elem.str ++ lit ")"

def SetStatement.text (s : SetStatement) : Text := (s.val.map ParamStringElement.text).flatten

def SetStatement.tokens (s : SetStatement) : List Text := fields s.text

def SetStatement.Plain (s : SetStatement) : Prop := ∀ elem ∈ s.val, elem.kind ≠ .variableElem

def setStatements (state : ParseState) : List SetStatement :=
  state.statements.filterMap fun
    | .set s => some s
    | _ => none

def setsOf (special : Bool) (key : Text) (sets : List SetStatement) : List SetStatement :=
  sets.filter fun s => s.isSpecial = special ∧ s.key = key

def assign (tokens : List Text) (s : SetStatement) : List Text :=
  if s.isAppend then tokens ++ s.tokens else s.tokens

/-- The tokens that statements for one variable assign: those of the last `=`, then those of the
later `+=` in order. -/
def assigned (sets : List SetStatement) : List Text := sets.foldl assign []

theorem assigned_concat (sets : List SetStatement) (s : SetStatement) :
    assigned (sets ++ [s]) = assign (assigned sets) s := by
  rw [assigned, List.foldl_append]
  rfl

theorem setsOf_concat (special : Bool) (key : Text) (sets : List SetStatement) (s : SetStatement) :
    setsOf special key (sets ++ [s]) =
      if s.isSpecial = special ∧ s.key = key then setsOf special key sets ++ [s]
      else setsOf special key sets := by
  rw [setsOf, List.filter_append, List.filter_singleton]
  split_ifs with own
  · simp [own, setsOf]
  · simp [own, setsOf]

def Replaces (sets : List SetStatement) : Prop :=
  ∀ s ∈ sets.getLast?, s.isAppend = true → assigned sets.dropLast = []

instance (sets : List SetStatement) : Decidable (Replaces sets) :=
  inferInstanceAs (Decidable (∀ s ∈ sets.getLast?, s.isAppend = true → assigned sets.dropLast = []))

def lastText (sets : List SetStatement) : Text :=
  (sets.getLast?.map fun s => trimSpace s.text).getD []

theorem lastText_concat (sets : List SetStatement) (s : SetStatement) :
    lastText (sets ++ [s]) = trimSpace s.text := by
  simp [lastText]

theorem lastText_ends (sets : List SetStatement) : Strings.Ends (lastText sets) := by
  rcases List.eq_nil_or_concat sets with rfl | ⟨front, s, rfl⟩
  · intro space listed ends
    exact spaces_nonempty listed (List.suffix_nil.mp ends)
  · rw [List.concat_eq_append, lastText_concat]
    exact trimSpace_ends _

theorem fields_lastText (sets : List SetStatement) :
    fields (lastText sets) = assigned sets ↔ Replaces sets := by
  rcases List.eq_nil_or_concat sets with rfl | ⟨front, s, rfl⟩
  · exact ⟨nofun, fun _ => rfl⟩
  · rw [List.concat_eq_append, lastText_concat, fields_trimSpace, assigned_concat, assign, Replaces,
      List.getLast?_concat, List.dropLast_concat]
    cases appended : s.isAppend with
    | true => simp [SetStatement.tokens, appended]
    | false => simp [SetStatement.tokens, appended]

theorem lastText_nil {sets : List SetStatement} (none : assigned sets = []) : lastText sets = [] := by
  rw [← fields_eq_nil (lastText_ends sets)]
  rcases List.eq_nil_or_concat sets with rfl | ⟨front, s, rfl⟩
  · rfl
  · rw [List.concat_eq_append, assigned_concat, assign] at none
    rw [List.concat_eq_append, lastText_concat, fields_trimSpace]
    split_ifs at none
    · exact (List.append_eq_nil_iff.mp none).2
    · exact none

theorem flag_bytes : ∀ chr ∈ lit "-I" ++ lit "-MD", ∀ space ∈ spaces, space.head? ≠ some chr := by
  decide +kernel

theorem solid_included {incl : Text} (solid : Solid incl) : Solid (lit "-I" ++ incl) :=
  .of_bytes (fun chr inside => flag_bytes chr (List.mem_append_left _ inside)) solid

theorem fields_prefixIncludes (str : Text) :
    fields (prefixIncludes str) = (fields str).map fun incl => lit "-I" ++ incl := by
  refine fields_join fun word member => ?_
  obtain ⟨incl, inside, rfl⟩ := List.mem_map.mp member
  exact ⟨solid_included (fields_words inside).1, by simp [lit]⟩

end Assigned

section Reading

theorem substituteElem_plain {elem : ParamStringElement} (plain : elem.kind ≠ .variableElem)
    (context : Text) (vars : Map Text) :
    (substituteElem context vars elem : Build ω Text) = pure elem.text := by
  rw [substituteElem, ParamStringElement.text]
  cases kind : elem.kind with
  | stringElem => rfl
  | variableElem => exact absurd kind plain
  | embeddedShell => rfl

theorem substituteVars_plain {str : ParameterisedString}
    (plain : ∀ elem ∈ str, elem.kind ≠ .variableElem) (context : Text) (vars : Map Text)
    (b : Builder ω) :
    (substituteVars context vars str).call b =
      (.ok (str.map ParamStringElement.text).flatten, b) := by
  have parts : str.mapM (substituteElem context (b.combineVars vars) : _ → Build ω Text) =
      pure (str.map ParamStringElement.text) := by
    induction str with
    | nil => rfl
    | cons elem rest ih =>
        rw [List.mapM_cons, substituteElem_plain (plain elem List.mem_cons_self),
          ih fun other inside => plain other (List.mem_cons_of_mem _ inside)]
        rfl
  rw [substituteVars, call_bind, call_get]
  simp only [parts]
  rfl

structure SetsRead (sets : List SetStatement) (b : Builder ω) : Prop where
  vars : ∀ key val, b.vars.lookup key = some val → fields val = assigned (setsOf false key sets)
  known : ∀ s ∈ sets, s.isSpecial = false → ∃ val, b.vars.lookup s.key = some val
  settings : b.settings =
    (lastText (setsOf true (lit "default") sets),
      prefixIncludes (lastText (setsOf true (lit "includes") sets)),
      lastText (setsOf true (lit "default_cflags") sets),
      fields (lastText (setsOf true (lit "global_file_deps") sets)))

variable {sets : List SetStatement} {s : SetStatement}

theorem SetsRead.special (read : SetsRead sets b) (special : s.isSpecial = true)
    (same : after.vars = b.vars)
    (settings : after.settings =
      (lastText (setsOf true (lit "default") (sets ++ [s])),
        prefixIncludes (lastText (setsOf true (lit "includes") (sets ++ [s]))),
        lastText (setsOf true (lit "default_cflags") (sets ++ [s])),
        fields (lastText (setsOf true (lit "global_file_deps") (sets ++ [s]))))) :
    SetsRead (sets ++ [s]) after where
  vars key val found := by
    rw [setsOf_concat, if_neg (by simp [special])]
    exact read.vars key val (same ▸ found)
  known other inside ordinary := by
    rw [same]
    rcases List.mem_append.mp inside with before | last
    · exact read.known other before ordinary
    · rw [List.mem_singleton.mp last, special] at ordinary
      cases ordinary
  settings := settings

theorem SetsRead.ordinary (read : SetsRead sets b) (ordinary : s.isSpecial = false) {val : Text}
    (tokens : fields val = assign (assigned (setsOf false s.key sets)) s) :
    SetsRead (sets ++ [s]) { b with vars := b.vars.insert s.key val } where
  vars key other found := by
    rw [Map.lookup_insert] at found
    rw [setsOf_concat]
    by_cases same : s.key = key
    · subst same
      rw [if_pos rfl] at found
      obtain rfl := Option.some.inj found
      rw [if_pos ⟨ordinary, rfl⟩, assigned_concat]
      exact tokens
    · rw [if_neg (Ne.symm same)] at found
      rw [if_neg fun own => same own.2]
      exact read.vars key other found
  known other inside otherOrdinary := by
    rw [Map.lookup_insert]
    split_ifs with same
    · exact ⟨val, rfl⟩
    · rcases List.mem_append.mp inside with before | last
      · exact read.known other before otherOrdinary
      · rw [List.mem_singleton.mp last] at same
        exact absurd rfl same
  settings := by
    have unchanged (key : Text) : setsOf true key (sets ++ [s]) = setsOf true key sets := by
      rw [setsOf_concat, if_neg (by simp [ordinary])]
    simp only [unchanged]
    exact read.settings

theorem lastText_setsOf (special : s.isSpecial = true) (key : Text) :
    lastText (setsOf true key (sets ++ [s])) =
      if s.key = key then trimSpace s.text else lastText (setsOf true key sets) := by
  rw [setsOf_concat]
  split_ifs with own same same
  · exact lastText_concat _ _
  · exact absurd own.2 same
  · exact absurd ⟨special, same⟩ own
  · rfl

theorem initExtractSpecialVar_read (read : SetsRead sets b) (special : s.isSpecial = true)
    (called : (initExtractSpecialVar s.key (trimSpace s.text)).call b = (.ok (), after)) :
    SetsRead (sets ++ [s]) after := by
  obtain ⟨default, includes, cflags, deps⟩ : _ ∧ _ ∧ _ ∧ _ := by
    simpa only [Builder.settings, Prod.mk.injEq] using read.settings
  rw [initExtractSpecialVar] at called
  split_ifs at called with isDefault isIncludes isCflags isDeps
  all_goals cases called
  all_goals
    refine read.special special rfl ?_
    simp only [Builder.settings, lastText_setsOf special, Prod.mk.injEq]
  · rw [isDefault, if_pos rfl, if_neg (by decide), if_neg (by decide), if_neg (by decide)]
    exact ⟨rfl, includes, cflags, deps⟩
  · rw [isIncludes, if_neg (by decide), if_pos rfl, if_neg (by decide), if_neg (by decide)]
    exact ⟨default, rfl, cflags, deps⟩
  · rw [isCflags, if_neg (by decide), if_neg (by decide), if_pos rfl, if_neg (by decide)]
    exact ⟨default, includes, rfl, deps⟩
  · rw [isDeps, if_neg (by decide), if_neg (by decide), if_neg (by decide), if_pos rfl]
    exact ⟨default, includes, cflags, rfl⟩

theorem initSet_read (plain : s.Plain) (read : SetsRead sets b)
    (called : (initSet s).call b = (.ok (), after)) : SetsRead (sets ++ [s]) after := by
  rw [initSet, call_bind_ok b (substituteVars_plain plain s.key [] b)] at called
  change (if s.isSpecial then _ else if s.isAppend then _ else _ : Build ω Unit).call b = _ at called
  have own : fields (trimSpace s.text) = s.tokens := fields_trimSpace s.text
  cases special : s.isSpecial with
  | true =>
      rw [special, if_pos rfl] at called
      exact initExtractSpecialVar_read read special called
  | false =>
      rw [special, if_neg Bool.false_ne_true] at called
      cases appended : s.isAppend with
      | true =>
          rw [appended, if_pos rfl, call_bind, call_get] at called
          cases found : b.vars.lookup s.key with
          | none =>
              simp only [found] at called
              cases called
          | some old =>
              simp only [found] at called
              cases called
              refine read.ordinary special ?_
              rw [fields_blank, read.vars s.key old found, assign, appended, if_pos rfl]
              exact congrArg _ own
      | false =>
          rw [appended, if_neg Bool.false_ne_true] at called
          cases called
          refine read.ordinary special ?_
          rw [assign, appended, if_neg Bool.false_ne_true]
          exact own

theorem initExtractVars_read {statements : List Statement}
    (plain : ∀ s, .set s ∈ statements → s.Plain) (read : SetsRead sets b)
    (called : (initExtractVars { state with statements := statements }).call b = (.ok (), after)) :
    SetsRead (sets ++ setStatements { state with statements := statements }) after := by
  induction statements generalizing sets b with
  | nil =>
      cases called
      simpa [setStatements] using read
  | cons statement rest ih =>
      obtain ⟨_, middle, one, others⟩ := bind_returned called
      have later := fun s inside => plain s (List.mem_cons_of_mem _ inside)
      cases statement with
      | set s =>
          have next := ih later (initSet_read (plain s List.mem_cons_self) read one) others
          rw [List.append_assoc] at next
          exact next
      | _ =>
          cases one
          exact ih later read others

theorem SetsRead.empty (world : ω) : SetsRead [] (Builder.empty world) :=
  ⟨nofun, nofun, rfl⟩

def Statement.isOption : Statement → Bool
  | .option => true
  | _ => false

def optionCount (state : ParseState) : Nat := state.statements.countP Statement.isOption

theorem initOptions_call (b : Builder ω) (statements : List Statement) :
    ∃ after, (initOptions { state with statements := statements }).call b = (.ok (), after) ∧
      after.vars = b.vars ∧
      after.settings = (b.default, b.includes,
        b.defaultCflags ++
          (List.replicate (optionCount { state with statements := statements }) (lit "-MD")).flatten,
        b.globalFileDeps) := by
  induction statements generalizing b with
  | nil => exact ⟨b, rfl, rfl, by simp [Builder.settings, optionCount]⟩
  | cons statement rest ih =>
      cases statement with
      | option =>
          obtain ⟨after, called, vars, settings⟩ := ih { b with
            options := lit "compute_dependencies" :: b.options
            defaultCflags := b.defaultCflags ++ lit "-MD" }
          refine ⟨after, called, vars, settings.trans ?_⟩
          rw [optionCount, optionCount, List.countP_cons_of_pos rfl, List.replicate_succ,
            List.flatten_cons, ← List.append_assoc]
      | _ => exact ih b

def cflagTokens (state : ParseState) : List Text :=
  assigned (setsOf true (lit "default_cflags") (setStatements state)) ++
    if 0 < optionCount state then [lit "-MD"] else []

/-- Nothing stands where the option puts its flag, and it does so at most once. -/
def CflagsKept (count : Nat) (sets : List SetStatement) : Prop :=
  if count = 0 then Replaces sets else count = 1 ∧ assigned sets = []

instance (count : Nat) (sets : List SetStatement) : Decidable (CflagsKept count sets) :=
  inferInstanceAs (Decidable (if count = 0 then _ else _))

theorem solid_option (count : Nat) : Solid (List.replicate count (lit "-MD")).flatten := by
  induction count with
  | zero => exact .nil
  | succ count ih =>
      exact .of_bytes (fun chr inside => flag_bytes chr (List.mem_append_right _ inside)) ih

theorem separate_option (count : Nat) : Separate (List.replicate count (lit "-MD")).flatten := by
  have dash : ¬InnerByte '-'.toUInt8 := by
    rintro ⟨space, listed, inside⟩
    have check : spaces.all (fun space => !space.tail.contains '-'.toUInt8) = true := by decide
    simpa [inside] using List.all_eq_true.mp check space listed
  intro chr first
  cases count with
  | zero => cases first
  | succ count =>
      cases first
      exact dash

theorem fields_cflags (count : Nat) (sets : List SetStatement) :
    fields (lastText sets ++ (List.replicate count (lit "-MD")).flatten) =
      assigned sets ++ (if 0 < count then [lit "-MD"] else []) ↔ CflagsKept count sets := by
  cases count with
  | zero => simpa [CflagsKept] using fields_lastText sets
  | succ count =>
      rw [if_pos (Nat.succ_pos count), CflagsKept, if_neg (Nat.succ_ne_zero count)]
      refine ⟨fun same => ?_, fun kept => ?_⟩
      · by_cases empty : lastText sets = []
        · rw [empty, List.nil_append, fields_solid (solid_option _) (by simp [List.replicate_succ, lit])]
            at same
          have whole : ([] : List Text) ++ [(List.replicate (count + 1) (lit "-MD")).flatten] =
              assigned sets ++ [lit "-MD"] := same
          obtain ⟨none, word⟩ := List.append_inj' whole rfl
          have length := congrArg List.length (List.singleton_inj.mp word)
          have single : count = 0 := by simpa [lit] using length
          exact ⟨by rw [single], none.symm⟩
        · obtain ⟨start, nonempty, last⟩ :=
            fields_glued (solid_option (count + 1)) (separate_option _) (lastText_ends sets) empty
          rw [same, List.getLast?_concat] at last
          have length := congrArg List.length (Option.some.inj last)
          have positive := List.length_pos_iff.mpr nonempty
          simp [lit, List.replicate_succ] at length
          omega
      · obtain ⟨single, none⟩ := kept
        rw [lastText_nil none, none, single]
        decide

end Reading

end Zeptux.Zbuild
