import Zeptux.Lib.Text

/-!
The parser of `tools/zbuild/parser.go`, from the lines of the build file to its statements.
A string is the list of its bytes.
-/

namespace Zeptux.Zbuild

open Strings

/-- The ways the tool ends before it is done. `impossible` is `panic("Impossible!")`,
`failed` a `panic(err)` and `runtimeError` a panic of the language itself. -/
inductive Stop
  | fatal (msg : Text)
  | fatalLine (lineNum : Nat) (line msg : Text)
  | impossible
  | failed (err : Text)
  | runtimeError
  | outOfFuel
deriving DecidableEq, Repr

def stopIf {m : Type → Type} [Monad m] [MonadExceptOf Stop m] (cond : Prop) [Decidable cond]
    (stop : Stop) : m Unit :=
  if cond then throw stop else pure ()

def embeddedShellPrefix : Text := lit "$$shell\x7b"
def embeddedShellSuffixChar : UInt8 := '\x7d'.toUInt8

def specialVars : List Text :=
  [lit "default", lit "includes", lit "default_cflags", lit "global_file_deps"]

def reservedVars : List Text := [lit "source", lit "output"]

inductive Operation
  | set | prehook | option | build | command
  | cc | cpp | ld | foreach | shell | call
deriving DecidableEq, Repr

inductive DepgetKind
  | file | glob | recursiveGlob | rule
deriving DecidableEq, Repr

structure Depget where
  kind : DepgetKind
  name : Text
deriving DecidableEq, Repr

structure Depgetset where
  label : Text
  depgets : List Depget
deriving DecidableEq, Repr

def Depgetset.empty (dgs : Depgetset) : Bool := dgs.depgets.isEmpty

inductive PrehookWhen
  | always | onChange
deriving DecidableEq, Repr

inductive ParamStringElementKind
  | stringElem | variableElem | embeddedShell
deriving DecidableEq, Repr

structure ParamStringElement where
  kind : ParamStringElementKind
  str : Text
deriving DecidableEq, Repr

abbrev ParameterisedString := List ParamStringElement

/-- One part of what `String` joins. -/
def ParamStringElement.part (elem : ParamStringElement) : Text :=
  match elem.kind with
  | .stringElem => elem.str
  | .variableElem => lit "$(" ++ elem.str ++ lit ")"
  | .embeddedShell => lit "$$shell\x7b" ++ elem.str ++ lit "\x7d"

def ParameterisedString.toText (str : ParameterisedString) : Text :=
  (str.map ParamStringElement.part).flatten

structure SetStatement where
  isSpecial : Bool
  isAppend : Bool
  key : Text
  val : ParameterisedString
deriving DecidableEq, Repr

structure BuildHead where
  target : Depgetset
  dependencies : Depgetset
  excluding : Option Depgetset
  localDir : Text
  aliasName : Text
deriving DecidableEq, Repr

structure CommandHead where
  name : Text
  localDir : Text
  hasNestedCalls : Bool
  dependencies : Depgetset
deriving DecidableEq, Repr

structure ForeachHead where
  source : Text
  target : Text
  excluding : Depgetset
deriving DecidableEq, Repr

/-- The one option, `COMPUTE_DEPENDENCIES_OPTION`, needs no argument. Any statement can hold
any other in the source, where a list of statements is a list of `interface{}`. -/
inductive Statement
  | set (statement : SetStatement)
  | option
  | prehook (dependencies : Depgetset) (time : PrehookWhen) (statements : List Statement)
  | build (head : BuildHead) (statements : List Statement)
  | command (head : CommandHead) (statements : List Statement)
  | shell (expression : ParameterisedString) (noecho : Bool)
  | call (name : Text)
  | cc (args : ParameterisedString)
  | cpp (args : ParameterisedString)
  | ld (args : ParameterisedString)
  | foreach (head : ForeachHead) (statements : List Statement)

/-- Each pointer of `statements_stack` is to the nested list of the last statement at its
depth, so the stack is given by the operations open at each depth. -/
structure ParseState where
  lineNum : Nat
  line : Text
  curropStack : List Operation
  ruleSet : List Text
  statements : List Statement

def Statement.appendNested (append : List Statement → List Statement) : Statement → Statement
  | .prehook dependencies time statements => .prehook dependencies time (append statements)
  | .build head statements => .build head (append statements)
  | .command head statements => .command head (append statements)
  | .foreach head statements => .foreach head (append statements)
  | statement => statement

/-- Append to the list of statements `depth` blocks down. -/
def appendAt (statement : Statement) : Nat → List Statement → List Statement
  | 0, statements => statements ++ [statement]
  | depth + 1, statements =>
      match statements.getLast? with
      | none => statements
      | some last => statements.dropLast ++ [last.appendNested (appendAt statement depth)]

namespace ParseState

def pushCurrop (s : ParseState) (op : Operation) : ParseState :=
  { s with curropStack := op :: s.curropStack }

def lineError (s : ParseState) (msg : Text) : Stop := .fatalLine s.lineNum s.line msg

def fatalLineError {α : Type} (s : ParseState) (msg : Text) : Except Stop α :=
  .error (s.lineError msg)

def syntaxError {α : Type} (s : ParseState) : Except Stop α := s.fatalLineError (lit "Syntax error")

def popCurrop (s : ParseState) : Except Stop ParseState :=
  match s.curropStack with
  | [] => s.fatalLineError (lit "Mismatched CLOSING brace")
  | _ :: rest => .ok { s with curropStack := rest }

def appendStatement (s : ParseState) (statement : Statement) : ParseState :=
  { s with statements := appendAt statement s.curropStack.length s.statements }

/-- Nothing for a comment or an empty line. -/
def parseOperationName (s : ParseState) : Option Text :=
  if s.line = [] ∨ hasPrefix s.line (lit "#") then none
  else some (s.line.takeWhile (· ≠ ' '.toUInt8))

end ParseState

def isSpecialVar (name : Text) : Bool := specialVars.contains name

def isReservedVar (name : Text) : Bool := reservedVars.contains name

/-- `str[n:]`. -/
def sliceFrom (str : Text) (n : Nat) : Except Stop Text :=
  if n ≤ str.length then .ok (str.drop n) else .error .runtimeError

/-- `str[:n]`. -/
def sliceTo (str : Text) (n : Int) : Except Stop Text :=
  if 0 ≤ n ∧ n ≤ str.length then .ok (str.take n.toNat) else .error .runtimeError

def parseDepget (str : Text) : Except Stop Depget :=
  if hasPrefix str (lit "**") then do
    let name ← sliceFrom str 1
    .ok ⟨.recursiveGlob, name⟩
  else if contains str (lit "*") then .ok ⟨.glob, str⟩
  else .ok ⟨.file, str⟩

def parseElems : List Text → Except Stop (List Depget)
  | [] => .ok []
  | elem :: elems => do
      let dg ← parseDepget (trimSpace elem)
      let dgs ← parseElems elems
      .ok (dg :: dgs)

def parseUnlabelled (label str : Text) : Except Stop (Option Depgetset) :=
  if hasPrefix str (lit "[") then
    if hasSuffix str (lit "]") then do
      let str ← sliceFrom str 1
      let str ← sliceTo str (str.length - 1)
      let dgs ← parseElems (split str (lit ","))
      .ok (some ⟨label, dgs⟩)
    else .ok none
  else if hasSuffix str (lit "]") then .ok none
  else do
    let dg ← parseDepget str
    .ok (some ⟨label, [dg]⟩)

def parseDepgets (str : Text) : Except Stop (Option Depgetset) :=
  if contains str (lit "=") then
    match split str (lit "=") with
    | [label, rest] => parseUnlabelled (trimSpace label) (trimSpace rest)
    | _ => .ok none
  else parseUnlabelled [] str

/-- The flags and strings `parse_parameterised_string` keeps while it reads. -/
structure Scan where
  inVar : Bool
  inVarParen : Bool
  inEmbedded : Bool
  escaped : Bool
  curr : Text
  ret : ParameterisedString
deriving DecidableEq, Repr

namespace Scan

def start : Scan := ⟨false, false, false, false, [], []⟩

def appendStringElem (scan : Scan) : Scan :=
  { scan with
    ret := if scan.curr = [] then scan.ret else scan.ret ++ [⟨.stringElem, scan.curr⟩]
    curr := [] }

def terminateInVar (scan : Scan) : Scan :=
  { scan with
    ret := if scan.curr = [] then scan.ret else scan.ret ++ [⟨.variableElem, scan.curr⟩]
    curr := []
    inVar := false }

def push (scan : Scan) (chr : UInt8) : Scan := { scan with curr := scan.curr ++ ofByte chr }

/-- A `$`, with what follows it, and the number of bytes after it that are read with it. -/
def dollar (scan : Scan) (chr : UInt8) (rest : Text) : Option (Scan × Nat) :=
  if scan.escaped ∨ scan.inEmbedded then
    if scan.inVar then none else some ({ scan with escaped := false }.push chr, 0)
  else if scan.inVar then some (scan.terminateInVar, 0)
  else if hasPrefix (chr :: rest) embeddedShellPrefix then
    some ({ scan with inEmbedded := true }.appendStringElem, embeddedShellPrefix.length - 1)
  else if rest.head? = some '('.toUInt8 then
    some ({ { scan with inVarParen := true }.appendStringElem with inVar := true }, 1)
  else some ({ scan.appendStringElem with inVar := true }, 0)

def char (scan : Scan) (chr : UInt8) (rest : Text) : Option (Scan × Nat) :=
  if chr = '\\'.toUInt8 then
    if scan.escaped then some ({ scan.push chr with escaped := false }, 0)
    else some ({ scan with escaped := true }, 0)
  else if chr = '$'.toUInt8 then scan.dollar chr rest
  else if chr = ' '.toUInt8 ∨ chr = '\t'.toUInt8 then
    if scan.inVarParen then none
    else
      let scan := if scan.inVar then scan.terminateInVar else scan
      some ({ scan with escaped := false }.push chr, 0)
  else if chr = ')'.toUInt8 then
    let scan := if scan.inVar then scan.terminateInVar else scan
    if scan.inVarParen then some ({ scan with inVarParen := false }, 0)
    else some (scan.push chr, 0)
  else if chr = embeddedShellSuffixChar then
    if scan.inEmbedded then
      some ({ scan with
        ret := scan.ret ++ [⟨.embeddedShell, scan.curr⟩], curr := [], inEmbedded := false }, 0)
    else some (scan.push chr, 0)
  else some ({ scan with escaped := false }.push chr, 0)

/-- The scan over the rest of the string, of which `skip` bytes are already read. -/
def through : Nat → Scan → Text → Option Scan
  | _, scan, [] => some scan
  | skip + 1, scan, _ :: rest => through skip scan rest
  | 0, scan, chr :: rest =>
      match scan.char chr rest with
      | none => none
      | some (scan, skip) => through skip scan rest

end Scan

def parseParameterisedString (str : Text) : Option ParameterisedString :=
  match Scan.through 0 .start str with
  | none => none
  | some scan =>
      if scan.inEmbedded ∨ scan.inVarParen then none
      else if scan.inVar then some scan.terminateInVar.ret
      else some scan.appendStringElem.ret

def chopSuffix (line suffix : Text) : Except Stop Text := do
  let line ← sliceTo line (line.length - suffix.length)
  .ok (trimSpace line)

def chopBrace (s : ParseState) (line : Text) : Except Stop Text :=
  if hasSuffix line (lit "\x7b") then chopSuffix line (lit "\x7b") else s.syntaxError

/-- The value of an option, whose absence is a syntax error. -/
def orSyntaxError {α : Type} (s : ParseState) : Option α → Except Stop α
  | some val => .ok val
  | none => s.syntaxError

def depgetsOrSyntaxError (s : ParseState) (str : Text) : Except Stop Depgetset := do
  let dgs ← parseDepgets str
  orSyntaxError s dgs

/-- The words before a trailing `keyword word`, and that word. -/
def trailing (keyword line : Text) : Option (Text × Text) :=
  match (fields line).reverse with
  | last :: word :: first :: rest =>
      if word = keyword then some (join (lit " ") (first :: rest).reverse, last) else none
  | _ => none

namespace ParseState

def parseSetLine (s : ParseState) : Except Stop ParseState :=
  match fields s.line with
  | _ :: mode :: key :: operator :: _ :: _ => do
      stopIf (operator ≠ lit "=" ∧ operator ≠ lit "+=") (s.lineError (lit "Syntax error"))
      let isAppend := operator = lit "+="
      let isSpecial := mode = lit "special"
      stopIf (¬isSpecial ∧ mode ≠ lit "var") (s.lineError (lit "Syntax error"))
      stopIf (isReservedVar key)
        (s.lineError (lit "'" ++ key ++ lit "' is a reserved variable name"))
      stopIf (isSpecial ∧ ¬isSpecialVar key)
        (s.lineError (lit "'" ++ key ++ lit "' is not a special variable"))
      match cut operator s.line with
      | none => .error .runtimeError
      | some (_, valstr) =>
          let val ← orSyntaxError s (parseParameterisedString (trimSpace valstr))
          .ok (s.appendStatement (.set ⟨isSpecial, isAppend, key, val⟩))
  | _ => s.syntaxError

def parseOptionLine (s : ParseState) : Except Stop ParseState :=
  match fields s.line with
  | [_, optstr] =>
      if optstr = lit "compute_dependencies" then .ok (s.appendStatement .option)
      else s.fatalLineError (lit "Unrecognised option '" ++ optstr ++ lit "'")
  | _ => s.syntaxError

/-- What is left of the line is not read again. -/
def prehookWhen (s : ParseState) (line : Text) : Except Stop PrehookWhen :=
  if hasSuffix line (lit "on change") then do
    let _ ← chopSuffix line (lit "on change")
    .ok .onChange
  else if hasSuffix line (lit "always") then do
    let _ ← chopSuffix line (lit "always")
    .ok .always
  else s.syntaxError

/-- The second word of the line, where `*` stands for no dependencies. -/
def prehookDependencies (s : ParseState) : Except Stop Depgetset :=
  match fields s.line with
  | _ :: depstr :: _ =>
      if depstr = lit "*" then .ok ⟨[], []⟩ else depgetsOrSyntaxError s depstr
  | _ => s.syntaxError

def parsePrehookFirstLine (s : ParseState) : Except Stop ParseState := do
  let line ← chopBrace s s.line
  let time ← s.prehookWhen line
  let dependencies ← s.prehookDependencies
  .ok ((s.appendStatement (.prehook dependencies time [])).pushCurrop .prehook)

def parseArgs (s : ParseState) (keyword : Text) : Except Stop ParameterisedString := do
  let line ← sliceFrom s.line keyword.length
  orSyntaxError s (parseParameterisedString (trimSpace line))

/-- `@shell` is as long as `shell ` is. -/
def parseShellLine (s : ParseState) (noecho : Bool) : Except Stop ParseState := do
  let expression ← s.parseArgs (lit "shell ")
  .ok (s.appendStatement (.shell expression noecho))

def parseCallLine (s : ParseState) : Except Stop ParseState := do
  let line ← sliceFrom s.line (lit "call ").length
  .ok (s.appendStatement (.call (trimSpace line)))

def parseCcLine (s : ParseState) : Except Stop ParseState := do
  let args ← s.parseArgs (lit "cc ")
  .ok (s.appendStatement (.cc args))

def parseCppLine (s : ParseState) : Except Stop ParseState := do
  let args ← s.parseArgs (lit "cpp ")
  .ok (s.appendStatement (.cpp args))

def parseLdLine (s : ParseState) : Except Stop ParseState := do
  let args ← s.parseArgs (lit "ld ")
  .ok (s.appendStatement (.ld args))

def trailingExcluding (s : ParseState) (line : Text) : Except Stop (Text × Depgetset) :=
  match trailing (lit "excluding") line with
  | none => .ok (line, ⟨[], []⟩)
  | some (line, str) => do
      let excluding ← depgetsOrSyntaxError s str
      .ok (line, excluding)

def parseFirstForeachLine (s : ParseState) : Except Stop ParseState := do
  let line ← sliceFrom s.line (lit "foreach ").length
  let line ← chopBrace s (trimSpace line)
  let (line, excluding) ← s.trailingExcluding line
  match split line (lit " to ") with
  | [source, target] =>
      let head := ⟨trimSpace source, trimSpace target, excluding⟩
      .ok ((s.appendStatement (.foreach head [])).pushCurrop .foreach)
  | _ => s.syntaxError

def parseForeachLine (s : ParseState) : Except Stop ParseState :=
  match s.parseOperationName with
  | none => .ok s
  | some opstr =>
      if opstr = lit "@shell" then s.parseShellLine true
      else if opstr = lit "shell" then s.parseShellLine false
      else if opstr = lit "call" then s.parseCallLine
      else if opstr = lit "cc" then s.parseCcLine
      else if opstr = lit "c++" then s.parseCppLine
      else if opstr = lit "ld" then s.parseLdLine
      else if opstr = lit "\x7d" then s.popCurrop
      else s.syntaxError

def parsePrehookLine (s : ParseState) : Except Stop ParseState :=
  match s.parseOperationName with
  | none => .ok s
  | some opstr =>
      if opstr = lit "@shell" then s.parseShellLine true
      else if opstr = lit "shell" then s.parseShellLine false
      else if opstr = lit "call" then s.parseCallLine
      else if opstr = lit "\x7d" then s.popCurrop
      else s.syntaxError

def cutDepgets (s : ParseState) (keyword line : Text) :
    Except Stop (Text × Option Depgetset) :=
  match cut keyword line with
  | none => .ok (line, none)
  | some (before, after) => do
      let dgs ← depgetsOrSyntaxError s (trimSpace after)
      .ok (trimSpace before, some dgs)

def cutLocalDir (line : Text) : Text × Text :=
  match cut (lit " in ") line with
  | none => (line, [])
  | some (before, after) => (trimSpace before, trimSpace after)

def parseBuildFirstLine (s : ParseState) : Except Stop ParseState := do
  let line ← sliceFrom s.line (lit "build ").length
  let line ← chopBrace s (trimSpace line)
  let (line, aliasName) := (trailing (lit "as") line).getD (line, [])
  let (line, excluding) ← s.cutDepgets (lit " excluding ") line
  let (line, dependencies) ← s.cutDepgets (lit " from ") line
  let dependencies ← orSyntaxError s dependencies
  let (line, localDir) := cutLocalDir line
  let target ← depgetsOrSyntaxError s line
  let head := ⟨target, dependencies, excluding, localDir, aliasName⟩
  .ok ((s.appendStatement (.build head [])).pushCurrop .build)

def parseBuildLine (s : ParseState) : Except Stop ParseState :=
  match s.parseOperationName with
  | none => .ok s
  | some opstr =>
      if opstr = lit "@shell" then s.parseShellLine true
      else if opstr = lit "shell" then s.parseShellLine false
      else if opstr = lit "call" then s.parseCallLine
      else if opstr = lit "cc" then s.parseCcLine
      else if opstr = lit "c++" then s.parseCppLine
      else if opstr = lit "ld" then s.parseLdLine
      else if opstr = lit "foreach" then s.parseFirstForeachLine
      else if opstr = lit "\x7d" then s.popCurrop
      else s.syntaxError

def parseCommandFirstLine (s : ParseState) : Except Stop ParseState := do
  let line ← sliceFrom s.line (lit "command ").length
  let line ← chopBrace s (trimSpace line)
  let (line, dependencies) ← s.cutDepgets (lit " needs ") line
  let (line, localDir) := cutLocalDir line
  let head := ⟨line, localDir, false, dependencies.getD ⟨[], []⟩⟩
  .ok ((s.appendStatement (.command head [])).pushCurrop .command)

def setNestedCalls (s : ParseState) : Except Stop ParseState :=
  match s.statements.getLast? with
  | some (.command head statements) =>
      let command := .command { head with hasNestedCalls := true } statements
      .ok { s with statements := s.statements.dropLast ++ [command] }
  | _ => .error .runtimeError

def parseCommandLine (s : ParseState) : Except Stop ParseState :=
  match s.parseOperationName with
  | none => .ok s
  | some opstr =>
      if opstr = lit "@shell" then s.parseShellLine true
      else if opstr = lit "shell" then s.parseShellLine false
      else if opstr = lit "call" then do (← s.setNestedCalls).parseCallLine
      else if opstr = lit "cc" then s.parseCcLine
      else if opstr = lit "c++" then s.parseCppLine
      else if opstr = lit "ld" then s.parseLdLine
      else if opstr = lit "\x7d" then s.popCurrop
      else s.syntaxError

def parseToplevelLine (s : ParseState) : Except Stop ParseState :=
  match s.parseOperationName with
  | none => .ok s
  | some opstr =>
      if opstr = lit "set" then s.parseSetLine
      else if opstr = lit "option" then s.parseOptionLine
      else if opstr = lit "prehook" then s.parsePrehookFirstLine
      else if opstr = lit "build" then s.parseBuildFirstLine
      else if opstr = lit "command" then s.parseCommandFirstLine
      else if opstr = lit "\x7d" then s.fatalLineError (lit "Mismatched brace")
      else s.syntaxError

def parseLine (s : ParseState) : Except Stop ParseState :=
  match s.curropStack with
  | [] => s.parseToplevelLine
  | .prehook :: _ => s.parsePrehookLine
  | .build :: _ => s.parseBuildLine
  | .command :: _ => s.parseCommandLine
  | .foreach :: _ => s.parseForeachLine
  | _ => .error .impossible

def parseLines (s : ParseState) : List Text → Except Stop ParseState
  | [] => .ok s
  | line :: lines => do
      let s ← parseLine { s with line := trimSpace line, lineNum := s.lineNum + 1 }
      s.parseLines lines

def extractRuleNames (s : ParseState) : List Text :=
  s.statements.filterMap fun statement =>
    match statement with
    | .build head _ =>
        if head.aliasName ≠ [] then some head.aliasName
        else
          match head.target.depgets with
          | [⟨.file, name⟩] => some name
          | _ => none
    | .command head _ => some head.name
    | _ => none

def fixupDepgets (s : ParseState) (dgs : Depgetset) : Depgetset :=
  { dgs with
    depgets := dgs.depgets.map fun dg =>
      if dg.kind = .file ∧ dg.name ∈ s.ruleSet then { dg with kind := .rule } else dg }

def fixupDependencies (s : ParseState) : ParseState :=
  { s with
    statements := s.statements.map fun statement =>
      match statement with
      | .prehook dependencies time statements =>
          .prehook (s.fixupDepgets dependencies) time statements
      | .build head statements =>
          .build { head with dependencies := s.fixupDepgets head.dependencies } statements
      | .command head statements =>
          .command { head with dependencies := s.fixupDepgets head.dependencies } statements
      | statement => statement }

end ParseState

def doParse (lines : List Text) : Except Stop ParseState := do
  let state ← ParseState.parseLines ⟨0, [], [], [], []⟩ lines
  stopIf (state.curropStack ≠ []) (state.lineError (lit "Mismatched brace"))
  let state := { state with ruleSet := state.extractRuleNames }
  .ok state.fixupDependencies

end Zeptux.Zbuild
