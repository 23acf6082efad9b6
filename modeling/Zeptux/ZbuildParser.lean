import Zeptux.Common
import Zeptux.ZbuildParserCore

/-!
What the parser accepts. Each of the four blocks has its own list of nested statements, and an
accepted file holds no others.
-/

namespace Zeptux.Zbuild

open Strings

inductive Block
  | prehook | build | command | foreach
deriving DecidableEq, Repr

/-- The kinds of statements that the line parser of a block has a case for. -/
def Block.accepts : Block → Statement → Prop
  | _, .shell _ _ => True
  | _, .call _ => True
  | block, .cc _ => block ≠ .prehook
  | block, .cpp _ => block ≠ .prehook
  | block, .ld _ => block ≠ .prehook
  | block, .foreach _ _ => block = .build
  | _, _ => False

/-- The statements of a block, and those of the `foreach` blocks in it. -/
def Block.Nests (block : Block) (statements : List Statement) : Prop :=
  ∀ statement ∈ statements, block.accepts statement ∧
    ∀ head body, statement = .foreach head body → ∀ inner ∈ body, Block.foreach.accepts inner

def Statement.Formed : Statement → Prop
  | .set statement => statement.isSpecial = true → isSpecialVar statement.key = true
  | .option => True
  | .prehook _ _ statements => Block.prehook.Nests statements
  | .build _ statements => Block.build.Nests statements
  | .command head statements =>
      Block.command.Nests statements ∧
        ∀ name, .call name ∈ statements → head.hasNestedCalls = true
  | _ => False

def Statement.isForeach : Statement → Bool
  | .foreach _ _ => true
  | _ => false

theorem Block.Nests.snoc {block : Block} {statements : List Statement} {statement : Statement}
    (nests : block.Nests statements) (accepted : block.accepts statement)
    (inside : ∀ head body, statement = .foreach head body →
      ∀ inner ∈ body, Block.foreach.accepts inner) :
    block.Nests (statements ++ [statement]) := by
  intro other listed
  rcases List.mem_append.mp listed with before | last
  · exact nests other before
  · obtain rfl := List.mem_singleton.mp last
    exact ⟨accepted, inside⟩

theorem Block.Nests.foreach_snoc {body nested : List Statement} {inner : ForeachHead}
    {statement : Statement} (nests : Block.build.Nests (body ++ [.foreach inner nested]))
    (accepted : Block.foreach.accepts statement) :
    Block.build.Nests (body ++ [.foreach inner (nested ++ [statement])]) := by
  have earlier : Block.build.Nests body := fun other listed => nests other (by simp [listed])
  refine earlier.snoc rfl fun _ _ same => ?_
  cases same
  intro other listed
  rcases List.mem_append.mp listed with before | last
  · exact (nests _ (by simp)).2 inner nested rfl other before
  · obtain rfl := List.mem_singleton.mp last
    exact accepted

/-- The last statements are those of the blocks that are open. -/
def Opened : List Operation → List Statement → Prop
  | [], _ => True
  | [.prehook], statements =>
      ∃ front dependencies time body, statements = front ++ [.prehook dependencies time body]
  | [.build], statements => ∃ front head body, statements = front ++ [.build head body]
  | [.command], statements => ∃ front head body, statements = front ++ [.command head body]
  | [.foreach, .build], statements =>
      ∃ front head body inner nested,
        statements = front ++ [.build head (body ++ [.foreach inner nested])]
  | _, _ => False

namespace ParseState

variable {s after : ParseState}

structure Sound (s : ParseState) : Prop where
  formed : ∀ statement ∈ s.statements, statement.Formed
  opened : Opened s.curropStack s.statements

inductive NestedLine (block : Block) (s : ParseState) : ParseState → Prop
  | blank : NestedLine block s s
  | leaf (statement : Statement) (accepted : block.accepts statement)
      (plain : statement.isForeach = false)
      (kept : block = .command → ∀ name, statement ≠ .call name) :
      NestedLine block s (s.appendStatement statement)
  | call {marked : ParseState} (command : block = .command) (set : s.setNestedCalls = .ok marked)
      (name : Text) : NestedLine block s (marked.appendStatement (.call name))
  | foreach (build : block = .build) (head : ForeachHead) :
      NestedLine block s ((s.appendStatement (.foreach head [])).pushCurrop .foreach)
  | close {after : ParseState} (popped : s.popCurrop = .ok after) : NestedLine block s after

inductive ToplevelLine (s : ParseState) : ParseState → Prop
  | blank : ToplevelLine s s
  | set (statement : SetStatement)
      (special : statement.isSpecial = true → isSpecialVar statement.key = true) :
      ToplevelLine s (s.appendStatement (.set statement))
  | option : ToplevelLine s (s.appendStatement .option)
  | prehook (dependencies : Depgetset) (time : PrehookWhen) :
      ToplevelLine s ((s.appendStatement (.prehook dependencies time [])).pushCurrop .prehook)
  | build (head : BuildHead) :
      ToplevelLine s ((s.appendStatement (.build head [])).pushCurrop .build)
  | command (head : CommandHead) :
      ToplevelLine s ((s.appendStatement (.command head [])).pushCurrop .command)

section Lines

theorem stopIf_ok {cond : Prop} [Decidable cond] {stop : Stop} {val : Unit}
    (passed : (stopIf cond stop : Except Stop Unit) = .ok val) : ¬cond := by
  intro holds
  simp only [stopIf, if_pos holds] at passed
  cases passed

theorem parseShellLine_ok {noecho : Bool} (parsed : s.parseShellLine noecho = .ok after) :
    ∃ expression, after = s.appendStatement (.shell expression noecho) := by
  obtain ⟨expression, -, rest⟩ := bind_ok parsed
  cases rest
  exact ⟨expression, rfl⟩

theorem parseCallLine_ok (parsed : s.parseCallLine = .ok after) :
    ∃ name, after = s.appendStatement (.call name) := by
  obtain ⟨line, -, rest⟩ := bind_ok parsed
  cases rest
  exact ⟨trimSpace line, rfl⟩

theorem parseCcLine_ok (parsed : s.parseCcLine = .ok after) :
    ∃ args, after = s.appendStatement (.cc args) := by
  obtain ⟨args, -, rest⟩ := bind_ok parsed
  cases rest
  exact ⟨args, rfl⟩

theorem parseCppLine_ok (parsed : s.parseCppLine = .ok after) :
    ∃ args, after = s.appendStatement (.cpp args) := by
  obtain ⟨args, -, rest⟩ := bind_ok parsed
  cases rest
  exact ⟨args, rfl⟩

theorem parseLdLine_ok (parsed : s.parseLdLine = .ok after) :
    ∃ args, after = s.appendStatement (.ld args) := by
  obtain ⟨args, -, rest⟩ := bind_ok parsed
  cases rest
  exact ⟨args, rfl⟩

theorem parseFirstForeachLine_ok (parsed : s.parseFirstForeachLine = .ok after) :
    ∃ head, after = (s.appendStatement (.foreach head [])).pushCurrop .foreach := by
  obtain ⟨line, -, parsed⟩ := bind_ok parsed
  obtain ⟨line, -, parsed⟩ := bind_ok parsed
  obtain ⟨⟨line, excluding⟩, -, parsed⟩ := bind_ok parsed
  dsimp only at parsed
  split at parsed
  · cases parsed
    exact ⟨_, rfl⟩
  · cases parsed

theorem leafLine_ok {block : Block} (tools : block ≠ .prehook) {opstr : Text}
    (rest : Except Stop ParseState) (others : rest = .ok after → NestedLine block s after)
    (parsed :
      (if opstr = lit "cc" then s.parseCcLine
        else if opstr = lit "c++" then s.parseCppLine
        else if opstr = lit "ld" then s.parseLdLine
        else rest) = .ok after) : NestedLine block s after := by
  split_ifs at parsed
  · obtain ⟨args, rfl⟩ := parseCcLine_ok parsed
    exact .leaf (.cc args) tools rfl nofun
  · obtain ⟨args, rfl⟩ := parseCppLine_ok parsed
    exact .leaf (.cpp args) tools rfl nofun
  · obtain ⟨args, rfl⟩ := parseLdLine_ok parsed
    exact .leaf (.ld args) tools rfl nofun
  · exact others parsed

theorem shellLine_ok {block : Block} {opstr : Text} (rest : Except Stop ParseState)
    (others : rest = .ok after → NestedLine block s after)
    (parsed :
      (if opstr = lit "@shell" then s.parseShellLine true
        else if opstr = lit "shell" then s.parseShellLine false
        else rest) = .ok after) : NestedLine block s after := by
  split_ifs at parsed
  · obtain ⟨expression, rfl⟩ := parseShellLine_ok parsed
    exact .leaf (.shell expression true) trivial rfl nofun
  · obtain ⟨expression, rfl⟩ := parseShellLine_ok parsed
    exact .leaf (.shell expression false) trivial rfl nofun
  · exact others parsed

theorem callLine_ok {block : Block} (other : block ≠ .command) (parsed : s.parseCallLine = .ok after) :
    NestedLine block s after := by
  obtain ⟨name, rfl⟩ := parseCallLine_ok parsed
  exact .leaf (.call name) trivial rfl fun command => absurd command other

theorem closeLine_ok {block : Block} {opstr : Text}
    (parsed :
      (if opstr = lit "\x7d" then s.popCurrop else s.syntaxError) = .ok after) :
    NestedLine block s after := by
  split_ifs at parsed
  · exact .close parsed
  · cases parsed

theorem parsePrehookLine_ok (parsed : s.parsePrehookLine = .ok after) :
    NestedLine .prehook s after := by
  rw [parsePrehookLine] at parsed
  cases named : s.parseOperationName with
  | none =>
      rw [named] at parsed
      cases parsed
      exact .blank
  | some opstr =>
      rw [named] at parsed
      refine shellLine_ok _ (fun parsed => ?_) parsed
      by_cases call : opstr = lit "call"
      · rw [if_pos call] at parsed
        exact callLine_ok nofun parsed
      · rw [if_neg call] at parsed
        exact closeLine_ok parsed

theorem parseForeachLine_ok (parsed : s.parseForeachLine = .ok after) :
    NestedLine .foreach s after := by
  rw [parseForeachLine] at parsed
  cases named : s.parseOperationName with
  | none =>
      rw [named] at parsed
      cases parsed
      exact .blank
  | some opstr =>
      rw [named] at parsed
      refine shellLine_ok _ (fun parsed => ?_) parsed
      by_cases call : opstr = lit "call"
      · rw [if_pos call] at parsed
        exact callLine_ok nofun parsed
      · rw [if_neg call] at parsed
        exact leafLine_ok nofun _ closeLine_ok parsed

theorem parseBuildLine_ok (parsed : s.parseBuildLine = .ok after) : NestedLine .build s after := by
  rw [parseBuildLine] at parsed
  cases named : s.parseOperationName with
  | none =>
      rw [named] at parsed
      cases parsed
      exact .blank
  | some opstr =>
      rw [named] at parsed
      refine shellLine_ok _ (fun parsed => ?_) parsed
      by_cases call : opstr = lit "call"
      · rw [if_pos call] at parsed
        exact callLine_ok nofun parsed
      · rw [if_neg call] at parsed
        refine leafLine_ok nofun _ (fun parsed => ?_) parsed
        by_cases loop : opstr = lit "foreach"
        · rw [if_pos loop] at parsed
          obtain ⟨head, rfl⟩ := parseFirstForeachLine_ok parsed
          exact .foreach rfl head
        · rw [if_neg loop] at parsed
          exact closeLine_ok parsed

theorem parseCommandLine_ok (parsed : s.parseCommandLine = .ok after) :
    NestedLine .command s after := by
  rw [parseCommandLine] at parsed
  cases named : s.parseOperationName with
  | none =>
      rw [named] at parsed
      cases parsed
      exact .blank
  | some opstr =>
      rw [named] at parsed
      refine shellLine_ok _ (fun parsed => ?_) parsed
      by_cases call : opstr = lit "call"
      · rw [if_pos call] at parsed
        obtain ⟨marked, set, parsed⟩ := bind_ok parsed
        obtain ⟨name, rfl⟩ := parseCallLine_ok parsed
        exact .call rfl set name
      · rw [if_neg call] at parsed
        exact leafLine_ok nofun _ closeLine_ok parsed

theorem parseSetLine_ok (parsed : s.parseSetLine = .ok after) : ToplevelLine s after := by
  rw [parseSetLine] at parsed
  split at parsed
  · obtain ⟨-, -, parsed⟩ := bind_ok parsed
    obtain ⟨-, -, parsed⟩ := bind_ok parsed
    obtain ⟨-, -, parsed⟩ := bind_ok parsed
    obtain ⟨_, special, parsed⟩ := bind_ok parsed
    split at parsed
    · cases parsed
    · obtain ⟨val, -, parsed⟩ := bind_ok parsed
      cases parsed
      refine .set _ fun isSpecial => ?_
      have unknown := stopIf_ok special
      simp only [decide_eq_true_eq] at isSpecial
      simpa [isSpecial] using unknown
  · cases parsed

theorem parseToplevelLine_ok (parsed : s.parseToplevelLine = .ok after) : ToplevelLine s after := by
  rw [parseToplevelLine] at parsed
  cases named : s.parseOperationName with
  | none =>
      rw [named] at parsed
      cases parsed
      exact .blank
  | some opstr =>
      rw [named] at parsed
      dsimp only at parsed
      split_ifs at parsed
      · exact parseSetLine_ok parsed
      · rw [parseOptionLine] at parsed
        split at parsed
        · split_ifs at parsed
          · cases parsed
            exact .option
          · cases parsed
        · cases parsed
      · obtain ⟨line, -, parsed⟩ := bind_ok parsed
        obtain ⟨time, -, parsed⟩ := bind_ok parsed
        obtain ⟨dependencies, -, parsed⟩ := bind_ok parsed
        cases parsed
        exact .prehook dependencies time
      · obtain ⟨line, -, parsed⟩ := bind_ok parsed
        obtain ⟨line, -, parsed⟩ := bind_ok parsed
        obtain ⟨⟨line, excluding⟩, -, parsed⟩ := bind_ok parsed
        obtain ⟨⟨line, dependencies⟩, -, parsed⟩ := bind_ok parsed
        obtain ⟨dependencies, -, parsed⟩ := bind_ok parsed
        obtain ⟨target, -, parsed⟩ := bind_ok parsed
        cases parsed
        exact .build _
      · obtain ⟨line, -, parsed⟩ := bind_ok parsed
        obtain ⟨line, -, parsed⟩ := bind_ok parsed
        obtain ⟨⟨line, dependencies⟩, -, parsed⟩ := bind_ok parsed
        cases parsed
        exact .command _
      · cases parsed
      · cases parsed

end Lines

section Appending

variable {statement : Statement}

theorem appendAt_last (depth : Nat) (front : List Statement) (last : Statement) :
    appendAt statement (depth + 1) (front ++ [last]) =
      front ++ [last.appendNested (appendAt statement depth)] := by
  simp [appendAt]

theorem formed_snoc {front : List Statement} {last next : Statement}
    (formed : ∀ statement ∈ front ++ [last], statement.Formed) (changed : last.Formed → next.Formed) :
    ∀ statement ∈ front ++ [next], statement.Formed := by
  intro other listed
  rcases List.mem_append.mp listed with before | same
  · exact formed other (List.mem_append_left _ before)
  · obtain rfl := List.mem_singleton.mp same
    exact changed (formed last (by simp))

theorem popCurrop_ok {op : Operation} {rest : List Operation} (stack : s.curropStack = op :: rest)
    (popped : s.popCurrop = .ok after) : after = { s with curropStack := rest } := by
  rw [popCurrop, stack] at popped
  cases popped
  rfl

theorem inside_of_plain (plain : statement.isForeach = false) (head : ForeachHead)
    (body : List Statement) (same : statement = .foreach head body) :
    ∀ inner ∈ body, Block.foreach.accepts inner := by
  subst same
  cases plain

end Appending

theorem Sound.toplevelLine (sound : s.Sound) (stack : s.curropStack = [])
    (line : ToplevelLine s after) : after.Sound := by
  have extended {statement : Statement} (formed : statement.Formed) :
      ∀ other ∈ s.statements ++ [statement], other.Formed := by
    intro other listed
    rcases List.mem_append.mp listed with before | same
    · exact sound.formed other before
    · obtain rfl := List.mem_singleton.mp same
      exact formed
  have statements (statement : Statement) :
      (s.appendStatement statement).statements = s.statements ++ [statement] := by
    simp [appendStatement, stack, appendAt]
  have opened (statement : Statement) (op : Operation) :
      ((s.appendStatement statement).pushCurrop op).curropStack = [op] := by
    simp [appendStatement, pushCurrop, stack]
  cases line with
  | blank => exact sound
  | set statement special =>
      refine ⟨statements _ ▸ extended special, ?_⟩
      simp [appendStatement, stack, Opened]
  | option =>
      refine ⟨statements _ ▸ extended trivial, ?_⟩
      simp [appendStatement, stack, Opened]
  | prehook dependencies time =>
      have kept := statements (.prehook dependencies time [])
      refine ⟨kept ▸ extended (by simp [Statement.Formed, Block.Nests]), ?_⟩
      rw [opened]
      exact ⟨s.statements, dependencies, time, [], kept⟩
  | build head =>
      have kept := statements (.build head [])
      refine ⟨kept ▸ extended (by simp [Statement.Formed, Block.Nests]), ?_⟩
      rw [opened]
      exact ⟨s.statements, head, [], kept⟩
  | command head =>
      have kept := statements (.command head [])
      refine ⟨kept ▸ extended (by simp [Statement.Formed, Block.Nests]), ?_⟩
      rw [opened]
      exact ⟨s.statements, head, [], kept⟩

theorem Sound.prehookLine (sound : s.Sound) (stack : s.curropStack = [.prehook])
    (line : NestedLine .prehook s after) : after.Sound := by
  obtain ⟨formed, opened⟩ := sound
  rw [stack] at opened
  obtain ⟨front, dependencies, time, body, shape⟩ := opened
  cases line with
  | blank => exact ⟨formed, by rw [stack]; exact ⟨front, dependencies, time, body, shape⟩⟩
  | leaf statement accepted plain kept =>
      have extended : (s.appendStatement statement).statements =
          front ++ [.prehook dependencies time (body ++ [statement])] := by
        simp only [appendStatement, stack, shape]
        exact appendAt_last 0 front _
      refine ⟨?_, ?_⟩
      · rw [extended]
        rw [shape] at formed
        exact formed_snoc formed fun nests => nests.snoc accepted (inside_of_plain plain)
      · rw [show (s.appendStatement statement).curropStack = [.prehook] from stack]
        exact ⟨front, dependencies, time, _, extended⟩
  | call command set name => cases command
  | foreach build head => cases build
  | close popped =>
      rw [popCurrop_ok stack popped]
      exact ⟨formed, trivial⟩

theorem Sound.foreachLine (sound : s.Sound) (stack : s.curropStack = [.foreach, .build])
    (line : NestedLine .foreach s after) : after.Sound := by
  obtain ⟨formed, opened⟩ := sound
  rw [stack] at opened
  obtain ⟨front, head, body, inner, nested, shape⟩ := opened
  cases line with
  | blank => exact ⟨formed, by rw [stack]; exact ⟨front, head, body, inner, nested, shape⟩⟩
  | leaf statement accepted plain kept =>
      have extended : (s.appendStatement statement).statements =
          front ++ [.build head (body ++ [.foreach inner (nested ++ [statement])])] := by
        simp only [appendStatement, stack, shape]
        rw [List.length_cons, List.length_singleton, appendAt_last, Statement.appendNested,
          appendAt_last]
        rfl
      refine ⟨?_, ?_⟩
      · rw [extended]
        rw [shape] at formed
        refine formed_snoc formed fun nests => ?_
        exact Block.Nests.foreach_snoc nests accepted
      · rw [show (s.appendStatement statement).curropStack = [.foreach, .build] from stack]
        exact ⟨front, head, body, inner, _, extended⟩
  | call command set name => cases command
  | foreach build head => cases build
  | close popped =>
      rw [popCurrop_ok stack popped]
      exact ⟨formed, front, head, _, shape⟩

theorem Sound.buildLine (sound : s.Sound) (stack : s.curropStack = [.build])
    (line : NestedLine .build s after) : after.Sound := by
  obtain ⟨formed, opened⟩ := sound
  rw [stack] at opened
  obtain ⟨front, head, body, shape⟩ := opened
  have extended (statement : Statement) : (s.appendStatement statement).statements =
      front ++ [.build head (body ++ [statement])] := by
    simp only [appendStatement, stack, shape]
    exact appendAt_last 0 front _
  cases line with
  | blank => exact ⟨formed, by rw [stack]; exact ⟨front, head, body, shape⟩⟩
  | leaf statement accepted plain kept =>
      refine ⟨?_, ?_⟩
      · rw [extended]
        rw [shape] at formed
        exact formed_snoc formed fun nests => nests.snoc accepted (inside_of_plain plain)
      · rw [show (s.appendStatement statement).curropStack = [.build] from stack]
        exact ⟨front, head, _, extended statement⟩
  | call command set name => cases command
  | foreach build inner =>
      refine ⟨?_, ?_⟩
      · rw [pushCurrop, extended]
        rw [shape] at formed
        refine formed_snoc formed fun nests => nests.snoc rfl fun _ _ same => ?_
        cases same
        simp
      · have both : ((s.appendStatement (.foreach inner [])).pushCurrop .foreach).curropStack =
            [.foreach, .build] := congrArg (Operation.foreach :: ·) stack
        rw [both]
        exact ⟨front, head, body, inner, [], extended _⟩
  | close popped =>
      rw [popCurrop_ok stack popped]
      exact ⟨formed, trivial⟩

theorem Sound.commandLine (sound : s.Sound) (stack : s.curropStack = [.command])
    (line : NestedLine .command s after) : after.Sound := by
  obtain ⟨formed, opened⟩ := sound
  rw [stack] at opened
  obtain ⟨front, head, body, shape⟩ := opened
  cases line with
  | blank => exact ⟨formed, by rw [stack]; exact ⟨front, head, body, shape⟩⟩
  | leaf statement accepted plain kept =>
      have extended : (s.appendStatement statement).statements =
          front ++ [.command head (body ++ [statement])] := by
        simp only [appendStatement, stack, shape]
        exact appendAt_last 0 front _
      refine ⟨?_, ?_⟩
      · rw [extended]
        rw [shape] at formed
        refine formed_snoc formed fun ⟨nests, calls⟩ => ?_
        refine ⟨nests.snoc accepted (inside_of_plain plain), fun name listed => ?_⟩
        rcases List.mem_append.mp listed with before | same
        · exact calls name before
        · exact absurd (List.mem_singleton.mp same).symm (kept rfl name)
      · rw [show (s.appendStatement statement).curropStack = [.command] from stack]
        exact ⟨front, head, _, extended⟩
  | @call marked command set name =>
      rw [setNestedCalls, shape, List.getLast?_concat, List.dropLast_concat] at set
      cases set
      have extended : (appendStatement { s with
            statements := front ++ [.command { head with hasNestedCalls := true } body] }
          (.call name)).statements =
          front ++ [.command { head with hasNestedCalls := true } (body ++ [.call name])] := by
        simp only [appendStatement, stack]
        exact appendAt_last 0 front _
      refine ⟨?_, ?_⟩
      · rw [extended]
        rw [shape] at formed
        refine formed_snoc formed fun ⟨nests, _⟩ => ?_
        exact ⟨nests.snoc trivial nofun, fun _ _ => rfl⟩
      · rw [appendStatement, stack]
        exact ⟨front, _, _, appendAt_last 0 front _⟩
  | foreach build head => cases build
  | close popped =>
      rw [popCurrop_ok stack popped]
      exact ⟨formed, trivial⟩

theorem Sound.parseLine (sound : s.Sound) (parsed : s.parseLine = .ok after) : after.Sound := by
  have opened := sound.opened
  rw [ParseState.parseLine] at parsed
  cases stack : s.curropStack with
  | nil =>
      rw [stack] at parsed
      exact sound.toplevelLine stack (parseToplevelLine_ok parsed)
  | cons op rest =>
      rw [stack] at parsed opened
      cases op <;> try cases opened
      case prehook =>
        cases rest with
        | nil => exact sound.prehookLine stack (parsePrehookLine_ok parsed)
        | cons other rest => cases opened
      case build =>
        cases rest with
        | nil => exact sound.buildLine stack (parseBuildLine_ok parsed)
        | cons other rest => cases opened
      case command =>
        cases rest with
        | nil => exact sound.commandLine stack (parseCommandLine_ok parsed)
        | cons other rest => cases opened
      case foreach =>
        cases rest with
        | nil => cases opened
        | cons other rest =>
            cases other <;> try cases opened
            case build =>
              cases rest with
              | nil => exact sound.foreachLine stack (parseForeachLine_ok parsed)
              | cons other rest => cases opened

theorem Sound.parseLines {lines : List Text} (sound : s.Sound)
    (parsed : s.parseLines lines = .ok after) : after.Sound := by
  induction lines generalizing s with
  | nil =>
      cases parsed
      exact sound
  | cons line lines ih =>
      obtain ⟨middle, first, rest⟩ := bind_ok parsed
      have started : ParseState.Sound { s with line := trimSpace line, lineNum := s.lineNum + 1 } :=
        ⟨sound.formed, sound.opened⟩
      exact ih (started.parseLine first) rest

end ParseState

theorem doParse_formed {lines : List Text} {state : ParseState} (accepted : doParse lines = .ok state) :
    ∀ statement ∈ state.statements, statement.Formed := by
  obtain ⟨parsed, lined, rest⟩ := bind_ok accepted
  obtain ⟨_, -, rest⟩ := bind_ok rest
  cases rest
  have empty : ParseState.Sound ⟨0, [], [], [], []⟩ := ⟨nofun, trivial⟩
  have sound := empty.parseLines lined
  intro statement listed
  obtain ⟨before, earlier, rfl⟩ := List.mem_map.mp listed
  have formed := sound.formed before earlier
  cases before <;> exact formed

end Zeptux.Zbuild
