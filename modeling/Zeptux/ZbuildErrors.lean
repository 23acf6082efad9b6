import Zeptux.ZbuildParser

/-! Where the parser stops: with an error it reports, or by a slice that is out of range. -/

namespace Zeptux.Zbuild

open Strings

/-! ## Substrings -/

theorem cut_within {sep str : Text} (nonempty : sep ≠ []) (found : sep <:+: str) :
    ∃ parts, cut sep str = some parts := by
  induction str with
  | nil => exact absurd (List.infix_nil.mp found) nonempty
  | cons chr rest ih =>
      rw [cut]
      by_cases here : hasPrefix (chr :: rest) sep = true
      · exact ⟨_, if_pos here⟩
      · rw [if_neg here]
        rcases List.infix_cons_iff.mp found with start | later
        · exact absurd (List.isPrefixOf_iff_prefix.mpr start) here
        · obtain ⟨parts, cutLater⟩ := ih later
          rw [cutLater]
          exact ⟨_, rfl⟩

theorem fieldsFrom_within {text field word : Text} {skip : Nat} (between : skip ≠ 0 → field = [])
    (member : word ∈ fieldsFrom skip field text) : word <:+: field ++ text := by
  induction text generalizing skip field with
  | nil =>
      have whole : word = field := by
        cases skip <;> rw [fieldsFrom] at member <;> split_ifs at member <;> simp_all
      exact whole ▸ (List.prefix_append word []).isInfix
  | cons chr rest ih =>
      cases skip with
      | succ skip =>
          rw [between (by omega)] at member ⊢
          exact (ih (fun _ => rfl) member).trans (List.suffix_cons chr rest).isInfix
      | zero =>
          rw [fieldsFrom] at member
          cases space : spaceLength (chr :: rest) with
          | none =>
              rw [space] at member
              simpa using ih (fun nonzero => absurd rfl nonzero) member
          | some length =>
              rw [space] at member
              have later : word ∈ fieldsFrom (length - 1) [] rest → word <:+: field ++ chr :: rest := by
                intro member
                have inRest := ih (fun _ => rfl) member
                rw [List.nil_append] at inRest
                exact inRest.trans ((List.suffix_cons chr rest).trans
                  (List.suffix_append field _)).isInfix
              simp only at member
              split_ifs at member
              · exact later member
              · rcases List.mem_cons.mp member with rfl | member
                · exact (List.prefix_append word _).isInfix
                · exact later member

theorem fields_within {str word : Text} (member : word ∈ fields str) : word <:+: str := by
  have found := fieldsFrom_within (fun nonzero => absurd rfl nonzero) member
  rwa [List.nil_append] at found

/-! ## Errors -/

def Stop.Reported : Stop → Prop
  | .fatal _ => True
  | .fatalLine _ _ _ => True
  | _ => False

def Clean {α : Type} (step : Except Stop α) : Prop := ∀ stop, step = .error stop → stop.Reported

theorem Clean.ok {α : Type} (val : α) : Clean (.ok val) := nofun

theorem Clean.bind {α β : Type} {first : Except Stop α} {rest : α → Except Stop β}
    (clean : Clean first) (cleanRest : ∀ val, first = .ok val → Clean (rest val)) :
    Clean (first >>= rest) := by
  cases first with
  | error stop =>
      intro other same
      cases same
      exact clean stop rfl
  | ok val => exact cleanRest val rfl

theorem Clean.of_bind {α β : Type} {first : Except Stop α} {rest : α → Except Stop β}
    (clean : Clean (first >>= rest)) : Clean first := by
  intro stop same
  exact clean stop (by rw [same]; rfl)

theorem not_clean {α : Type} {step : Except Stop α} (stopped : step = .error .runtimeError) :
    ¬Clean step := fun clean => clean .runtimeError stopped

/-! ## Slices behind a check -/

theorem clean_sliceFrom {str : Text} {n : Nat} (inside : n ≤ str.length) : Clean (sliceFrom str n) := by
  rw [sliceFrom, if_pos inside]
  exact Clean.ok _

theorem clean_sliceTo {str : Text} {n : Int} (nonneg : 0 ≤ n) (inside : n ≤ str.length) :
    Clean (sliceTo str n) := by
  rw [sliceTo, if_pos ⟨nonneg, inside⟩]
  exact Clean.ok _

theorem clean_chopSuffix {line suffix : Text} (ends : hasSuffix line suffix = true) :
    Clean (chopSuffix line suffix) := by
  have short := (List.isSuffixOf_iff_suffix.mp ends).length_le
  exact (clean_sliceTo (by omega) (by omega)).bind fun _ _ => Clean.ok _

theorem clean_parseDepget {str : Text} : Clean (parseDepget str) := by
  rw [parseDepget]
  split
  case isTrue stars =>
    have long := (List.isPrefixOf_iff_prefix.mp stars).length_le
    exact (clean_sliceFrom (Nat.le_of_succ_le long)).bind fun _ _ => Clean.ok _
  split
  · exact Clean.ok _
  · exact Clean.ok _

theorem clean_parseElems {elems : List Text} : Clean (parseElems elems) := by
  induction elems with
  | nil => exact Clean.ok _
  | cons elem elems ih => exact clean_parseDepget.bind fun _ _ => ih.bind fun _ _ => Clean.ok _

theorem brackets_length {str : Text} (opens : hasPrefix str (lit "[") = true)
    (closes : hasSuffix str (lit "]") = true) : 2 ≤ str.length := by
  obtain ⟨rest, rfl⟩ := List.isPrefixOf_iff_prefix.mp opens
  cases rest with
  | nil =>
      revert closes
      decide
  | cons chr rest =>
      change 2 ≤ rest.length + 1 + 1
      omega

theorem clean_parseUnlabelled {label str : Text} : Clean (parseUnlabelled label str) := by
  rw [parseUnlabelled]
  split
  case isTrue opens =>
    split
    case isTrue closes =>
      have two := brackets_length opens closes
      refine (clean_sliceFrom (by omega)).bind fun rest sliced => ?_
      rw [sliceFrom, if_pos (by omega)] at sliced
      cases sliced
      refine (clean_sliceTo ?_ (by omega)).bind fun _ _ => clean_parseElems.bind fun _ _ => Clean.ok _
      rw [List.length_drop]
      omega
    · exact Clean.ok _
  split
  · exact Clean.ok _
  · exact clean_parseDepget.bind fun _ _ => Clean.ok _

theorem clean_parseDepgets {str : Text} : Clean (parseDepgets str) := by
  rw [parseDepgets]
  split
  · split
    · exact clean_parseUnlabelled
    · exact Clean.ok _
  · exact clean_parseUnlabelled

namespace ParseState

variable {s : ParseState}

theorem clean_syntaxError {α : Type} : Clean (s.syntaxError : Except Stop α) := by
  intro stop same
  cases same
  trivial

theorem clean_stopIf {cond : Prop} [Decidable cond] {msg : Text} :
    Clean (stopIf cond (s.lineError msg) : Except Stop Unit) := by
  rw [stopIf]
  split
  · intro stop same
    cases same
    trivial
  · exact Clean.ok ()

theorem clean_orSyntaxError {α : Type} (val : Option α) : Clean (orSyntaxError s val) := by
  cases val with
  | none => exact clean_syntaxError
  | some val => exact Clean.ok val

theorem clean_chopBrace {line : Text} : Clean (chopBrace s line) := by
  rw [chopBrace]
  split
  case isTrue ends => exact clean_chopSuffix ends
  case isFalse => exact clean_syntaxError

theorem clean_depgetsOrSyntaxError {str : Text} : Clean (depgetsOrSyntaxError s str) :=
  clean_parseDepgets.bind fun _ _ => clean_orSyntaxError _

theorem clean_popCurrop : Clean s.popCurrop := by
  rw [popCurrop]
  split
  · intro stop same
    cases same
    trivial
  · exact Clean.ok _

theorem clean_cutDepgets {keyword line : Text} : Clean (s.cutDepgets keyword line) := by
  rw [cutDepgets]
  split
  · exact Clean.ok _
  · exact clean_depgetsOrSyntaxError.bind fun _ _ => Clean.ok _

theorem clean_trailingExcluding {line : Text} : Clean (s.trailingExcluding line) := by
  rw [trailingExcluding]
  split
  · exact Clean.ok _
  · exact clean_depgetsOrSyntaxError.bind fun _ _ => Clean.ok _

theorem clean_parseSetLine : Clean s.parseSetLine := by
  rw [parseSetLine]
  split
  case h_1 set mode key operator value rest parts =>
    refine clean_stopIf.bind fun _ known => clean_stopIf.bind fun _ _ => clean_stopIf.bind fun _ _ =>
      clean_stopIf.bind fun _ _ => ?_
    have known := stopIf_ok known
    have nonempty : operator ≠ [] := by
      rintro rfl
      exact known ⟨by decide, by decide⟩
    have inLine : operator ∈ fields s.line := by simp [parts]
    obtain ⟨⟨before, valstr⟩, found⟩ := cut_within nonempty (fields_within inLine)
    rw [found]
    exact (clean_orSyntaxError _).bind fun _ _ => Clean.ok _
  case h_2 => exact clean_syntaxError

theorem clean_parseOptionLine : Clean s.parseOptionLine := by
  rw [parseOptionLine]
  split
  · split
    · exact Clean.ok _
    · intro stop same
      cases same
      trivial
  · exact clean_syntaxError

theorem clean_parsePrehookFirstLine : Clean s.parsePrehookFirstLine := by
  refine clean_chopBrace.bind fun line _ => Clean.bind ?_ fun time _ =>
    Clean.bind ?_ fun dependencies _ => Clean.ok _
  · rw [prehookWhen]
    split
    case isTrue ends => exact (clean_chopSuffix ends).bind fun _ _ => Clean.ok _
    split
    case isTrue ends => exact (clean_chopSuffix ends).bind fun _ _ => Clean.ok _
    case isFalse => exact clean_syntaxError
  · rw [prehookDependencies]
    split
    · split
      · exact Clean.ok _
      · exact clean_depgetsOrSyntaxError
    · exact clean_syntaxError

theorem sliceFrom_short {str : Text} {n : Nat} (short : str.length < n) :
    sliceFrom str n = .error .runtimeError := if_neg (by omega)

theorem clean_parseArgs (keyword : Text) (inside : keyword.length ≤ s.line.length) :
    Clean (s.parseArgs keyword) :=
  (clean_sliceFrom inside).bind fun _ _ => clean_orSyntaxError _

theorem clean_parseShellLine {noecho : Bool} (inside : 6 ≤ s.line.length) :
    Clean (s.parseShellLine noecho) :=
  (clean_parseArgs (lit "shell ") inside).bind fun _ _ => Clean.ok _

theorem clean_parseCallLine (inside : 5 ≤ s.line.length) : Clean s.parseCallLine :=
  (clean_sliceFrom inside).bind fun _ _ => Clean.ok _

theorem clean_parseCcLine (inside : 3 ≤ s.line.length) : Clean s.parseCcLine :=
  (clean_parseArgs (lit "cc ") inside).bind fun _ _ => Clean.ok _

theorem clean_parseCppLine (inside : 4 ≤ s.line.length) : Clean s.parseCppLine :=
  (clean_parseArgs (lit "cpp ") inside).bind fun _ _ => Clean.ok _

theorem clean_parseLdLine (inside : 3 ≤ s.line.length) : Clean s.parseLdLine :=
  (clean_parseArgs (lit "ld ") inside).bind fun _ _ => Clean.ok _

theorem clean_parseFirstForeachLine (inside : 8 ≤ s.line.length) :
    Clean s.parseFirstForeachLine := by
  refine (clean_sliceFrom inside).bind fun _ _ => clean_chopBrace.bind fun _ _ =>
    clean_trailingExcluding.bind ?_
  rintro ⟨line, excluding⟩ -
  simp only
  split
  · exact Clean.ok _
  · exact clean_syntaxError

theorem clean_parseBuildFirstLine (inside : 6 ≤ s.line.length) : Clean s.parseBuildFirstLine := by
  refine (clean_sliceFrom inside).bind fun _ _ => clean_chopBrace.bind fun _ _ => ?_
  refine clean_cutDepgets.bind fun _ _ => clean_cutDepgets.bind fun _ _ => ?_
  exact (clean_orSyntaxError _).bind fun _ _ =>
    clean_depgetsOrSyntaxError.bind fun _ _ => Clean.ok _

theorem clean_parseCommandFirstLine (inside : 8 ≤ s.line.length) :
    Clean s.parseCommandFirstLine := by
  refine (clean_sliceFrom inside).bind fun _ _ => clean_chopBrace.bind fun _ _ => ?_
  exact clean_cutDepgets.bind fun _ _ => Clean.ok _

/-! ## Keywords -/

/-- The keywords after which the line parser of the innermost block cuts, by one byte more than the
keyword has (and `c++` by as many as `cpp ` has). -/
def cutKeywords : List Operation → List Text
  | [] => [lit "build", lit "command"]
  | .prehook :: _ => [lit "shell", lit "call"]
  | .build :: _ => [lit "shell", lit "call", lit "cc", lit "c++", lit "ld", lit "foreach"]
  | .command :: _ => [lit "shell", lit "call", lit "cc", lit "c++", lit "ld"]
  | .foreach :: _ => [lit "shell", lit "call", lit "cc", lit "c++", lit "ld"]
  | _ => []

theorem parseOperationName_starts {opstr : Text} (named : s.parseOperationName = some opstr) :
    opstr <+: s.line := by
  rw [parseOperationName] at named
  split_ifs at named
  cases named
  exact List.takeWhile_prefix _

theorem keyword_lt {opstr keyword : Text} (named : s.parseOperationName = some opstr)
    (same : opstr = keyword) (more : s.line ≠ keyword) : keyword.length < s.line.length := by
  subst same
  have start := parseOperationName_starts named
  rcases Nat.lt_or_ge opstr.length s.line.length with less | whole
  · exact less
  · exact absurd (start.eq_of_length_le whole).symm more

section Dispatch

variable {opstr : Text} {rest : Except Stop ParseState}

theorem clean_shellLine (named : s.parseOperationName = some opstr) (bare : s.line ≠ lit "shell")
    (others : Clean rest) :
    Clean (if opstr = lit "@shell" then s.parseShellLine true
      else if opstr = lit "shell" then s.parseShellLine false
      else rest) := by
  split
  case isTrue keyword =>
    have long := (parseOperationName_starts named).length_le
    rw [keyword] at long
    exact clean_parseShellLine long
  split
  case isTrue keyword => exact clean_parseShellLine (keyword_lt named keyword bare)
  exact others

theorem clean_toolLine (named : s.parseOperationName = some opstr) (bareCc : s.line ≠ lit "cc")
    (bareCpp : s.line ≠ lit "c++") (bareLd : s.line ≠ lit "ld") (others : Clean rest) :
    Clean (if opstr = lit "cc" then s.parseCcLine
      else if opstr = lit "c++" then s.parseCppLine
      else if opstr = lit "ld" then s.parseLdLine
      else rest) := by
  split
  case isTrue keyword => exact clean_parseCcLine (keyword_lt named keyword bareCc)
  split
  case isTrue keyword => exact clean_parseCppLine (keyword_lt named keyword bareCpp)
  split
  case isTrue keyword => exact clean_parseLdLine (keyword_lt named keyword bareLd)
  exact others

theorem clean_callLine (named : s.parseOperationName = some opstr) (bare : s.line ≠ lit "call")
    (others : Clean rest) : Clean (if opstr = lit "call" then s.parseCallLine else rest) := by
  split
  case isTrue keyword => exact clean_parseCallLine (keyword_lt named keyword bare)
  exact others

theorem clean_closeLine :
    Clean (if opstr = lit "\x7d" then s.popCurrop else s.syntaxError) := by
  split
  · exact clean_popCurrop
  · exact clean_syntaxError

end Dispatch

theorem clean_parsePrehookLine (shell : s.line ≠ lit "shell") (call : s.line ≠ lit "call") :
    Clean s.parsePrehookLine := by
  rw [parsePrehookLine]
  cases named : s.parseOperationName with
  | none => exact Clean.ok s
  | some opstr => exact clean_shellLine named shell (clean_callLine named call clean_closeLine)

theorem clean_parseForeachLine (shell : s.line ≠ lit "shell") (call : s.line ≠ lit "call")
    (cc : s.line ≠ lit "cc") (cpp : s.line ≠ lit "c++") (ld : s.line ≠ lit "ld") :
    Clean s.parseForeachLine := by
  rw [parseForeachLine]
  cases named : s.parseOperationName with
  | none => exact Clean.ok s
  | some opstr =>
      refine clean_shellLine named shell (clean_callLine named call ?_)
      exact clean_toolLine named cc cpp ld clean_closeLine

theorem clean_parseBuildLine (shell : s.line ≠ lit "shell") (call : s.line ≠ lit "call")
    (cc : s.line ≠ lit "cc") (cpp : s.line ≠ lit "c++") (ld : s.line ≠ lit "ld")
    (loop : s.line ≠ lit "foreach") : Clean s.parseBuildLine := by
  rw [parseBuildLine]
  cases named : s.parseOperationName with
  | none => exact Clean.ok s
  | some opstr =>
      refine clean_shellLine named shell (clean_callLine named call ?_)
      refine clean_toolLine named cc cpp ld ?_
      split
      case isTrue keyword => exact clean_parseFirstForeachLine (keyword_lt named keyword loop)
      exact clean_closeLine

theorem setNestedCalls_opened (opened : Opened [.command] s.statements) :
    ∃ statements, s.setNestedCalls = .ok { s with statements := statements } := by
  obtain ⟨front, head, body, shape⟩ := opened
  rw [setNestedCalls, shape, List.getLast?_concat]
  exact ⟨_, rfl⟩

theorem clean_parseCommandLine (opened : Opened [.command] s.statements)
    (shell : s.line ≠ lit "shell") (call : s.line ≠ lit "call")
    (cc : s.line ≠ lit "cc") (cpp : s.line ≠ lit "c++") (ld : s.line ≠ lit "ld") :
    Clean s.parseCommandLine := by
  rw [parseCommandLine]
  cases named : s.parseOperationName with
  | none => exact Clean.ok s
  | some opstr =>
      refine clean_shellLine named shell ?_
      split
      case isTrue keyword =>
        obtain ⟨statements, set⟩ := setNestedCalls_opened opened
        rw [set]
        refine (Clean.ok _).bind fun marked same => ?_
        cases same
        exact clean_parseCallLine (keyword_lt named keyword call)
      exact clean_toolLine named cc cpp ld clean_closeLine

theorem clean_parseToplevelLine (build : s.line ≠ lit "build") (command : s.line ≠ lit "command") :
    Clean s.parseToplevelLine := by
  rw [parseToplevelLine]
  cases named : s.parseOperationName with
  | none => exact Clean.ok s
  | some opstr =>
      simp only
      split
      · exact clean_parseSetLine
      split
      · exact clean_parseOptionLine
      split
      · exact clean_parsePrehookFirstLine
      split
      case isTrue keyword => exact clean_parseBuildFirstLine (keyword_lt named keyword build)
      split
      case isTrue keyword => exact clean_parseCommandFirstLine (keyword_lt named keyword command)
      split
      · intro stop same
        cases same
        trivial
      · exact clean_syntaxError

/-! ## Bare keywords -/

theorem sliced_short {α : Type} {n : Nat} (short : s.line.length < n)
    (rest : Text → Except Stop α) : sliceFrom s.line n >>= rest = .error .runtimeError := by
  rw [sliceFrom_short short]
  rfl

theorem parseArgs_short (keyword : Text) (short : s.line.length < keyword.length) :
    s.parseArgs keyword = .error .runtimeError := sliced_short short _

theorem named_bare {keyword : Text} (line : s.line = keyword)
    (plain : keyword.takeWhile (· ≠ ' '.toUInt8) = keyword ∧ keyword ≠ [] ∧
      hasPrefix keyword (lit "#") = false) : s.parseOperationName = some keyword := by
  rw [parseOperationName, line, if_neg (by simp [plain.2.1, plain.2.2]), plain.1]

section

variable {noecho : Bool}

theorem parseShellLine_bare (line : s.line = lit "shell") :
    s.parseShellLine noecho = .error .runtimeError := by
  rw [parseShellLine, parseArgs_short _ (by rw [line]; decide)]
  rfl

theorem parseCallLine_bare (line : s.line = lit "call") :
    s.parseCallLine = .error .runtimeError := sliced_short (by rw [line]; decide) _

theorem parseCcLine_bare (line : s.line = lit "cc") : s.parseCcLine = .error .runtimeError := by
  rw [parseCcLine, parseArgs_short _ (by rw [line]; decide)]
  rfl

theorem parseCppLine_bare (line : s.line = lit "c++") :
    s.parseCppLine = .error .runtimeError := by
  rw [parseCppLine, parseArgs_short _ (by rw [line]; decide)]
  rfl

theorem parseLdLine_bare (line : s.line = lit "ld") : s.parseLdLine = .error .runtimeError := by
  rw [parseLdLine, parseArgs_short _ (by rw [line]; decide)]
  rfl

theorem parseFirstForeachLine_bare (line : s.line = lit "foreach") :
    s.parseFirstForeachLine = .error .runtimeError := sliced_short (by rw [line]; decide) _

theorem parseBuildFirstLine_bare (line : s.line = lit "build") :
    s.parseBuildFirstLine = .error .runtimeError := sliced_short (by rw [line]; decide) _

theorem parseCommandFirstLine_bare (line : s.line = lit "command") :
    s.parseCommandFirstLine = .error .runtimeError := sliced_short (by rw [line]; decide) _

end

theorem leafLine_bare {callLine rest : Except Stop ParseState} {keyword : Text}
    (line : s.line = keyword) (calls : s.line = lit "call" → callLine = .error .runtimeError)
    (bare : keyword ∈ [lit "shell", lit "call", lit "cc", lit "c++", lit "ld"]) :
    (if keyword = lit "@shell" then s.parseShellLine true
      else if keyword = lit "shell" then s.parseShellLine false
      else if keyword = lit "call" then callLine
      else if keyword = lit "cc" then s.parseCcLine
      else if keyword = lit "c++" then s.parseCppLine
      else if keyword = lit "ld" then s.parseLdLine
      else rest) = .error .runtimeError := by
  simp only [List.mem_cons, List.not_mem_nil, or_false] at bare
  rcases bare with rfl | rfl | rfl | rfl | rfl
  · rw [if_neg (by decide), if_pos rfl, parseShellLine_bare line]
  · rw [if_neg (by decide), if_neg (by decide), if_pos rfl, calls line]
  · rw [if_neg (by decide), if_neg (by decide), if_neg (by decide), if_pos rfl, parseCcLine_bare line]
  · rw [if_neg (by decide), if_neg (by decide), if_neg (by decide), if_neg (by decide), if_pos rfl,
      parseCppLine_bare line]
  · rw [if_neg (by decide), if_neg (by decide), if_neg (by decide), if_neg (by decide),
      if_neg (by decide), if_pos rfl, parseLdLine_bare line]

theorem cutKeywords_plain (stack : List Operation) :
    ∀ keyword ∈ cutKeywords stack, keyword.takeWhile (· ≠ ' '.toUInt8) = keyword ∧ keyword ≠ [] ∧
      hasPrefix keyword (lit "#") = false := by
  rw [cutKeywords.eq_def]
  split <;> decide

theorem parseLine_bare (bare : s.line ∈ cutKeywords s.curropStack) :
    s.parseLine = .error .runtimeError := by
  have named := named_bare rfl (cutKeywords_plain _ _ bare)
  have calls : s.line = lit "call" → s.parseCallLine = .error .runtimeError := parseCallLine_bare
  rw [parseLine]
  cases stack : s.curropStack with
  | nil =>
      rw [stack] at bare
      simp only [cutKeywords, List.mem_cons, List.not_mem_nil, or_false] at bare
      simp only
      rw [parseToplevelLine, named]
      simp only
      rcases bare with line | line
      · rw [if_neg (by rw [line]; decide), if_neg (by rw [line]; decide),
          if_neg (by rw [line]; decide), if_pos line, parseBuildFirstLine_bare line]
      · rw [if_neg (by rw [line]; decide), if_neg (by rw [line]; decide),
          if_neg (by rw [line]; decide), if_neg (by rw [line]; decide), if_pos line,
          parseCommandFirstLine_bare line]
  | cons op rest =>
      rw [stack] at bare
      cases op with
      | prehook =>
          simp only [cutKeywords, List.mem_cons, List.not_mem_nil, or_false] at bare
          simp only
          rw [parsePrehookLine, named]
          simp only
          rcases bare with line | line
          · rw [if_neg (by rw [line]; decide), if_pos line, parseShellLine_bare line]
          · rw [if_neg (by rw [line]; decide), if_neg (by rw [line]; decide), if_pos line, calls line]
      | build =>
          simp only
          rw [parseBuildLine, named]
          simp only
          by_cases loop : s.line = lit "foreach"
          · rw [if_neg (by rw [loop]; decide), if_neg (by rw [loop]; decide),
              if_neg (by rw [loop]; decide), if_neg (by rw [loop]; decide),
              if_neg (by rw [loop]; decide), if_neg (by rw [loop]; decide), if_pos loop,
              parseFirstForeachLine_bare loop]
          · refine leafLine_bare rfl calls ?_
            simpa [cutKeywords, loop] using bare
      | command =>
          simp only
          rw [parseCommandLine, named]
          refine leafLine_bare rfl ?_ bare
          intro line
          rw [setNestedCalls]
          split
          · exact parseCallLine_bare line
          · rfl
      | foreach =>
          simp only
          rw [parseForeachLine, named]
          exact leafLine_bare rfl calls bare
      | _ => cases bare

theorem parseLine_clean_iff (opened : Opened s.curropStack s.statements) :
    Clean s.parseLine ↔ s.line ∉ cutKeywords s.curropStack := by
  constructor
  · intro clean bare
    exact not_clean (parseLine_bare bare) clean
  · intro known
    rw [parseLine]
    cases stack : s.curropStack with
    | nil =>
        rw [stack] at known
        simp only [cutKeywords, List.mem_cons, List.not_mem_nil, or_false, not_or] at known
        exact clean_parseToplevelLine known.1 known.2
    | cons op rest =>
        rw [stack] at known opened
        cases op with
        | prehook =>
            simp only [cutKeywords, List.mem_cons, List.not_mem_nil, or_false, not_or] at known
            exact clean_parsePrehookLine known.1 known.2
        | build =>
            simp only [cutKeywords, List.mem_cons, List.not_mem_nil, or_false, not_or] at known
            obtain ⟨shell, call, cc, cpp, ld, loop⟩ := known
            exact clean_parseBuildLine shell call cc cpp ld loop
        | command =>
            simp only [cutKeywords, List.mem_cons, List.not_mem_nil, or_false, not_or] at known
            obtain ⟨shell, call, cc, cpp, ld⟩ := known
            cases rest with
            | nil => exact clean_parseCommandLine opened shell call cc cpp ld
            | cons other rest => cases opened
        | foreach =>
            simp only [cutKeywords, List.mem_cons, List.not_mem_nil, or_false, not_or] at known
            obtain ⟨shell, call, cc, cpp, ld⟩ := known
            exact clean_parseForeachLine shell call cc cpp ld
        | _ => cases opened

theorem parseLines_clean_iff {lines : List Text} (sound : s.Sound) :
    Clean (s.parseLines lines) ↔
      ∀ front line back before, lines = front ++ line :: back → s.parseLines front = .ok before →
        trimSpace line ∉ cutKeywords before.curropStack := by
  induction lines generalizing s with
  | nil =>
      refine iff_of_true (Clean.ok s) ?_
      intro front line back before split
      simp at split
  | cons line lines ih =>
      let entered : ParseState := { s with line := trimSpace line, lineNum := s.lineNum + 1 }
      have started : entered.Sound := ⟨sound.formed, sound.opened⟩
      have here : Clean entered.parseLine ↔ trimSpace line ∉ cutKeywords s.curropStack :=
        parseLine_clean_iff started.opened
      constructor
      · intro clean front other back before split reached
        cases front with
        | nil =>
            cases split
            cases reached
            exact here.mp (Clean.of_bind clean)
        | cons first front =>
            rw [List.cons_append] at split
            obtain ⟨rfl, rest⟩ := List.cons.inj split
            obtain ⟨middle, parsed, reached⟩ := bind_ok reached
            have cleanRest : Clean (middle.parseLines lines) := by
              have whole : parseLines s (line :: lines) = middle.parseLines lines := by
                rw [parseLines, parsed]
                rfl
              rwa [whole] at clean
            exact (ih (started.parseLine parsed)).mp cleanRest front other back before rest reached
      · intro known
        refine Clean.bind (here.mpr (known [] line lines s rfl rfl)) fun middle parsed => ?_
        refine (ih (started.parseLine parsed)).mpr fun front other back before split reached => ?_
        refine known (line :: front) other back before (by rw [split]; rfl) ?_
        rw [parseLines, parsed]
        exact reached

end ParseState

/-- Only a bare keyword makes the parser fail without a report. -/
theorem doParse_clean_iff (lines : List Text) :
    Clean (doParse lines) ↔
      ∀ front line back before, lines = front ++ line :: back →
        ParseState.parseLines ⟨0, [], [], [], []⟩ front = .ok before →
        trimSpace line ∉ ParseState.cutKeywords before.curropStack := by
  have empty : ParseState.Sound ⟨0, [], [], [], []⟩ := ⟨nofun, trivial⟩
  rw [← ParseState.parseLines_clean_iff empty]
  constructor
  · exact Clean.of_bind
  · intro clean
    exact clean.bind fun _ _ => ParseState.clean_stopIf.bind fun _ _ => Clean.ok _

theorem bare_build_unreported :
    doParse [lit "build"] = .error .runtimeError ∧ ¬Clean (doParse [lit "build"]) := by
  have stopped : doParse [lit "build"] = .error .runtimeError := rfl
  exact ⟨stopped, not_clean stopped⟩

end Zeptux.Zbuild
