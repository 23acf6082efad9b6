import Zeptux.ZbuildParserCore

/-! What `parse_parameterised_string` reads, from the parts of the string. -/

namespace Zeptux.Zbuild

open Strings

namespace Scan

/-! ## Reading a part -/

structure Plain (scan : Scan) (chr : UInt8) : Prop where
  escape : chr ≠ '\\'.toUInt8
  dollar : chr = '$'.toUInt8 → scan.inEmbedded = true ∧ scan.inVar = false
  space : chr = ' '.toUInt8 ∨ chr = '\t'.toUInt8 → scan.inVarParen = false ∧ scan.inVar = false
  paren : chr = ')'.toUInt8 → scan.inVarParen = false ∧ scan.inVar = false
  brace : chr = embeddedShellSuffixChar → scan.inEmbedded = false

theorem char_plain {scan : Scan} {chr : UInt8} (plain : scan.Plain chr)
    (unescaped : scan.escaped = false) (rest : Text) :
    scan.char chr rest = some (scan.push chr, 0) := by
  obtain ⟨escape, dollar, space, paren, brace⟩ := plain
  obtain ⟨inVar, inVarParen, inEmbedded, escaped, curr, ret⟩ := scan
  obtain rfl : escaped = false := unescaped
  rw [char, if_neg escape]
  by_cases isDollar : chr = '$'.toUInt8
  · obtain ⟨rfl, rfl⟩ : inEmbedded = true ∧ inVar = false := dollar isDollar
    rw [if_pos isDollar]
    rfl
  rw [if_neg isDollar]
  by_cases isSpace : chr = ' '.toUInt8 ∨ chr = '\t'.toUInt8
  · obtain ⟨rfl, rfl⟩ : inVarParen = false ∧ inVar = false := space isSpace
    rw [if_pos isSpace]
    rfl
  rw [if_neg isSpace]
  by_cases isParen : chr = ')'.toUInt8
  · obtain ⟨rfl, rfl⟩ : inVarParen = false ∧ inVar = false := paren isParen
    rw [if_pos isParen]
    rfl
  rw [if_neg isParen]
  by_cases isBrace : chr = embeddedShellSuffixChar
  · obtain rfl : inEmbedded = false := brace isBrace
    rw [if_pos isBrace]
    rfl
  · rw [if_neg isBrace]

def read (scan : Scan) (text : Text) : Scan := { scan with curr := scan.curr ++ text.flatMap ofByte }

theorem through_plain {text : Text} {scan : Scan} (plain : ∀ chr ∈ text, scan.Plain chr)
    (unescaped : scan.escaped = false) (rest : Text) :
    through 0 scan (text ++ rest) = through 0 (scan.read text) rest := by
  induction text generalizing scan with
  | nil => simp [read]
  | cons chr text ih =>
      rw [List.cons_append, through, char_plain (plain chr List.mem_cons_self) unescaped]
      have later : ∀ other ∈ text, (scan.push chr).Plain other := by
        intro other member
        obtain ⟨escape, dollar, space, paren, brace⟩ := plain other (List.mem_cons_of_mem _ member)
        exact ⟨escape, dollar, space, paren, brace⟩
      simp only
      rw [ih later unescaped]
      simp [read, push, List.append_assoc]

def between (curr : Text) (ret : ParameterisedString) : Scan := ⟨false, false, false, false, curr, ret⟩

def pending (curr : Text) : ParameterisedString := if curr = [] then [] else [⟨.stringElem, curr⟩]

theorem flatMap_ofByte_ne_nil {text : Text} (nonempty : text ≠ []) : text.flatMap ofByte ≠ [] := by
  cases text with
  | nil => exact absurd rfl nonempty
  | cons chr rest =>
      rw [List.flatMap_cons, ofByte]
      split <;> simp

theorem appendStringElem_eq (scan : Scan) :
    scan.appendStringElem = { scan with ret := scan.ret ++ pending scan.curr, curr := [] } := by
  unfold pending appendStringElem
  split <;> simp_all

theorem between_dollar (curr : Text) (ret : ParameterisedString) {rest : Text}
    (noShell : hasPrefix ('$'.toUInt8 :: rest) embeddedShellPrefix = false) :
    (between curr ret).char '$'.toUInt8 rest =
      if rest.head? = some '('.toUInt8 then
        some (⟨true, true, false, false, [], ret ++ pending curr⟩, 1)
      else some (⟨true, false, false, false, [], ret ++ pending curr⟩, 0) := by
  rw [char, if_neg (by decide), if_pos rfl, dollar, if_neg (by simp [between]),
    if_neg (by simp [between]), if_neg (by simp [noShell]), appendStringElem_eq,
    appendStringElem_eq]
  rfl

theorem through_string {str : Text} (clean : ∀ chr ∈ str, chr ≠ '$'.toUInt8 ∧ chr ≠ '\\'.toUInt8)
    (ret : ParameterisedString) (rest : Text) :
    through 0 (between [] ret) (str ++ rest) =
      through 0 (between (str.flatMap ofByte) ret) rest := by
  rw [through_plain ?_ rfl]
  · rfl
  · intro chr member
    obtain ⟨dollar, escape⟩ := clean chr member
    exact ⟨escape, fun same => absurd same dollar, fun _ => ⟨rfl, rfl⟩, fun _ => ⟨rfl, rfl⟩,
      fun _ => rfl⟩

theorem through_variable {str : Text} (nonempty : str ≠ [])
    (clean : ∀ chr ∈ str, chr ≠ ' '.toUInt8 ∧ chr ≠ '\t'.toUInt8 ∧ chr ≠ '$'.toUInt8 ∧
      chr ≠ '\\'.toUInt8 ∧ chr ≠ ')'.toUInt8) (curr : Text) (ret : ParameterisedString)
    (rest : Text) :
    through 0 (between curr ret) (lit "$(" ++ str ++ lit ")" ++ rest) =
      through 0 (between [] (ret ++ pending curr ++ [⟨.variableElem, str.flatMap ofByte⟩])) rest := by
  have opened : ∀ tail, through 0 (between curr ret) (lit "$(" ++ tail) =
      through 0 ⟨true, true, false, false, [], ret ++ pending curr⟩ tail := by
    intro tail
    change through 0 (between curr ret) ('$'.toUInt8 :: '('.toUInt8 :: tail) = _
    rw [through, between_dollar curr ret (by rfl), if_pos List.head?_cons]
    rfl
  have closed : ∀ tail, through 0 ⟨true, true, false, false, str.flatMap ofByte, ret ++ pending curr⟩
      (lit ")" ++ tail) =
      through 0 (between [] (ret ++ pending curr ++ [⟨.variableElem, str.flatMap ofByte⟩])) tail := by
    intro tail
    change through 0 _ (')'.toUInt8 :: tail) = _
    have read : char ⟨true, true, false, false, str.flatMap ofByte, ret ++ pending curr⟩
        ')'.toUInt8 tail =
          some (between [] (ret ++ pending curr ++ [⟨.variableElem, str.flatMap ofByte⟩]), 0) := by
      rw [char, if_neg (by decide), if_neg (by decide), if_neg (by decide), if_pos rfl]
      simp [terminateInVar, flatMap_ofByte_ne_nil nonempty, between]
    rw [through, read]
  rw [List.append_assoc, List.append_assoc, opened, through_plain ?_ rfl]
  · exact closed rest
  · intro chr member
    obtain ⟨space, tab, dollar, escape, paren⟩ := clean chr member
    exact ⟨escape, fun same => absurd same dollar,
      fun same => absurd same (not_or.mpr ⟨space, tab⟩), fun same => absurd same paren, fun _ => rfl⟩

theorem through_shell {str : Text}
    (clean : ∀ chr ∈ str, chr ≠ '\x7d'.toUInt8 ∧ chr ≠ '\\'.toUInt8) (curr : Text)
    (ret : ParameterisedString) (rest : Text) :
    through 0 (between curr ret) (lit "$$shell\x7b" ++ str ++ lit "\x7d" ++ rest) =
      through 0 (between [] (ret ++ pending curr ++ [⟨.embeddedShell, str.flatMap ofByte⟩])) rest := by
  have opened : ∀ tail, through 0 (between curr ret) (lit "$$shell\x7b" ++ tail) =
      through 0 ⟨false, false, true, false, [], ret ++ pending curr⟩ tail := by
    intro tail
    change through 0 (between curr ret) ('$'.toUInt8 :: (lit "$shell\x7b" ++ tail)) = _
    have shell : hasPrefix ('$'.toUInt8 :: (lit "$shell\x7b" ++ tail)) embeddedShellPrefix = true := by
      rw [hasPrefix, List.isPrefixOf_iff_prefix]
      exact ⟨tail, rfl⟩
    have read : (between curr ret).char '$'.toUInt8 (lit "$shell\x7b" ++ tail) =
        some (⟨false, false, true, false, [], ret ++ pending curr⟩, 7) := by
      rw [char, if_neg (by decide), if_pos rfl, dollar, if_neg (by simp [between]),
        if_neg (by simp [between]), if_pos shell, appendStringElem_eq]
      rfl
    rw [through, read]
    rfl
  rw [List.append_assoc, List.append_assoc, opened, through_plain ?_ rfl]
  · rfl
  · intro chr member
    obtain ⟨brace, escape⟩ := clean chr member
    exact ⟨escape, fun _ => ⟨rfl, rfl⟩, fun _ => ⟨rfl, rfl⟩, fun _ => ⟨rfl, rfl⟩,
      fun same => absurd same brace⟩

end Scan

/-! ## Round trips -/

def ParamStringElement.Clean (elem : ParamStringElement) : Prop :=
  elem.str ≠ [] ∧
    match elem.kind with
    | .stringElem => ∀ chr ∈ elem.str, chr ≠ '$'.toUInt8 ∧ chr ≠ '\\'.toUInt8
    | .variableElem => ∀ chr ∈ elem.str, chr ≠ ' '.toUInt8 ∧ chr ≠ '\t'.toUInt8 ∧
        chr ≠ '$'.toUInt8 ∧ chr ≠ '\\'.toUInt8 ∧ chr ≠ ')'.toUInt8
    | .embeddedShell => ∀ chr ∈ elem.str, chr ≠ '\x7d'.toUInt8 ∧ chr ≠ '\\'.toUInt8

/-- Clean elements, and no two strings next to each other. -/
def ParameterisedString.Clean (str : ParameterisedString) : Prop :=
  (∀ elem ∈ str, elem.Clean) ∧
    str.IsChain fun elem next => ¬(elem.kind = .stringElem ∧ next.kind = .stringElem)

def ParamStringElement.encoded (elem : ParamStringElement) : ParamStringElement :=
  { elem with str := elem.str.flatMap ofByte }

theorem parse_of_between {str curr : Text} {ret : ParameterisedString}
    (read : Scan.through 0 .start str = some (.between curr ret)) :
    parseParameterisedString str = some (ret ++ Scan.pending curr) := by
  rw [parseParameterisedString, read]
  simp only
  rw [if_neg (by simp [Scan.between]), if_neg (by simp [Scan.between]), Scan.appendStringElem_eq]
  rfl

/-- The elements are read one by one; only a string leaves text pending, and the next element is
not a string then. -/
theorem through_toText {str : ParameterisedString} (clean : str.Clean) {curr : Text}
    (ret : ParameterisedString)
    (apart : curr ≠ [] → ∀ elem ∈ str.head?, elem.kind ≠ .stringElem) :
    ∃ last done, Scan.through 0 (.between curr ret) str.toText = some (.between last done) ∧
      done ++ Scan.pending last = ret ++ Scan.pending curr ++ str.map .encoded := by
  induction str generalizing curr ret with
  | nil => exact ⟨curr, ret, rfl, by simp⟩
  | cons elem str ih =>
      obtain ⟨cleans, chain⟩ := clean
      have later : ParameterisedString.Clean str :=
        ⟨fun other member => cleans other (List.mem_cons_of_mem _ member), chain.of_cons⟩
      obtain ⟨nonempty, bytes⟩ := cleans elem List.mem_cons_self
      have text : ParameterisedString.toText (elem :: str) =
          elem.part ++ ParameterisedString.toText str := by
        simp [ParameterisedString.toText]
      obtain ⟨kind, bytesOf⟩ := elem
      rw [text]
      cases kind with
      | stringElem =>
          have nothing : curr = [] := by
            by_contra some
            exact apart some _ rfl rfl
          subst nothing
          have next : bytesOf.flatMap ofByte ≠ [] →
              ∀ other ∈ str.head?, other.kind ≠ .stringElem := by
            intro _ other first kind
            cases str with
            | nil => cases first
            | cons head tail =>
                cases first
                exact (List.isChain_cons_cons.mp chain).1 ⟨rfl, kind⟩
          obtain ⟨last, done, read, result⟩ := ih later ret next
          refine ⟨last, done, ?_, ?_⟩
          · rw [ParamStringElement.part, Scan.through_string bytes]
            exact read
          · rw [result]
            simp [Scan.pending, Scan.flatMap_ofByte_ne_nil nonempty, ParamStringElement.encoded]
      | variableElem =>
          obtain ⟨last, done, read, result⟩ := ih later
            (ret ++ Scan.pending curr ++ [⟨.variableElem, bytesOf.flatMap ofByte⟩])
            fun some => absurd rfl some
          refine ⟨last, done, ?_, ?_⟩
          · rw [ParamStringElement.part, Scan.through_variable nonempty bytes]
            exact read
          · rw [result]
            simp [Scan.pending, ParamStringElement.encoded]
      | embeddedShell =>
          obtain ⟨last, done, read, result⟩ := ih later
            (ret ++ Scan.pending curr ++ [⟨.embeddedShell, bytesOf.flatMap ofByte⟩])
            fun some => absurd rfl some
          refine ⟨last, done, ?_, ?_⟩
          · rw [ParamStringElement.part, Scan.through_shell bytes]
            exact read
          · rw [result]
            simp [Scan.pending, ParamStringElement.encoded]

theorem parse_toText {str : ParameterisedString} (clean : str.Clean) :
    parseParameterisedString str.toText = some (str.map .encoded) := by
  obtain ⟨last, done, read, result⟩ := through_toText clean [] fun some => absurd rfl some
  rw [parse_of_between read, result]
  rfl

theorem length_le_flatMap_ofByte (text : Text) : text.length ≤ (text.flatMap ofByte).length := by
  induction text with
  | nil => exact Nat.le_refl _
  | cons chr rest ih =>
      have some : 1 ≤ (ofByte chr).length := by
        rw [ofByte]
        split <;> simp
      rw [List.flatMap_cons, List.length_append, List.length_cons]
      omega

theorem flatMap_ofByte_eq_self {text : Text} :
    text.flatMap ofByte = text ↔ ∀ chr ∈ text, chr < 128 := by
  induction text with
  | nil => simp
  | cons chr rest ih =>
      rw [List.flatMap_cons, List.forall_mem_cons, ofByte]
      by_cases ascii : chr < 128
      · simp [ascii, ih]
      · refine iff_of_false ?_ fun both => ascii both.1
        intro same
        have length := congrArg List.length same
        have longer := length_le_flatMap_ofByte rest
        rw [if_neg ascii, List.length_append] at length
        simp only [List.length_cons, List.length_nil] at length
        omega

theorem ParamStringElement.encoded_eq_self {elem : ParamStringElement} :
    elem.encoded = elem ↔ ∀ chr ∈ elem.str, chr < 128 := by
  rw [← flatMap_ofByte_eq_self, encoded]
  constructor
  · intro same
    exact congrArg ParamStringElement.str same
  · intro same
    rw [same]

/-- What is printed is read back exactly when it is ASCII. -/
theorem parse_toText_iff {str : ParameterisedString} (clean : str.Clean) :
    parseParameterisedString str.toText = some str ↔
      ∀ elem ∈ str, ∀ chr ∈ elem.str, chr < 128 := by
  rw [parse_toText clean, Option.some.injEq]
  have each : str.map .encoded = str ↔ ∀ elem ∈ str, elem.encoded = elem := by
    conv_lhs => rhs; rw [← List.map_id str]
    exact List.map_inj_left
  rw [each]
  exact forall₂_congr fun elem _ => ParamStringElement.encoded_eq_self

theorem bytes_of_all {text : Text} {good : UInt8 → Prop} [DecidablePred good]
    (check : text.all (fun chr => decide (good chr)) = true) : ∀ chr ∈ text, good chr := by
  intro chr member
  exact of_decide_eq_true (List.all_eq_true.mp check chr member)

def mixedString : ParameterisedString :=
  [⟨.stringElem, lit "-o "⟩, ⟨.variableElem, lit "out"⟩, ⟨.embeddedShell, lit "echo $HOME"⟩]

theorem mixedString_read_back : parseParameterisedString mixedString.toText = some mixedString := by
  have clean : mixedString.Clean := by
    refine ⟨?_, by decide⟩
    intro elem member
    simp only [mixedString, List.mem_cons, List.not_mem_nil, or_false] at member
    rcases member with rfl | rfl | rfl <;> exact ⟨by decide, bytes_of_all (by decide)⟩
  refine (parse_toText_iff clean).mpr ?_
  intro elem member
  simp only [mixedString, List.mem_cons, List.not_mem_nil, or_false] at member
  rcases member with rfl | rfl | rfl <;> exact bytes_of_all (by decide)

/-- The two bytes of an accented letter are read as four. -/
theorem accent_not_read_back :
    ParameterisedString.Clean [⟨.stringElem, [0xC3, 0xA9]⟩] ∧
      parseParameterisedString (ParameterisedString.toText [⟨.stringElem, [0xC3, 0xA9]⟩]) =
        some [⟨.stringElem, [0xC3, 0x83, 0xC2, 0xA9]⟩] ∧
      parseParameterisedString (ParameterisedString.toText [⟨.stringElem, [0xC3, 0xA9]⟩]) ≠
        some [⟨.stringElem, [0xC3, 0xA9]⟩] := by
  refine ⟨⟨?_, by decide⟩, by decide, by decide⟩
  intro elem member
  rw [List.mem_singleton.mp member]
  exact ⟨by decide, bytes_of_all (by decide)⟩

/-! ## Adjacent variables -/

def WordByte (chr : UInt8) : Prop :=
  ('a'.toUInt8 ≤ chr ∧ chr ≤ 'z'.toUInt8) ∨ ('A'.toUInt8 ≤ chr ∧ chr ≤ 'Z'.toUInt8) ∨
    ('0'.toUInt8 ≤ chr ∧ chr ≤ '9'.toUInt8) ∨ chr = '_'.toUInt8

instance (chr : UInt8) : Decidable (WordByte chr) := inferInstanceAs (Decidable (_ ∨ _))

def IsWord (name : Text) : Prop := name ≠ [] ∧ ∀ chr ∈ name, WordByte chr

def adjacentVars (names : List Text) : Text := names.flatMap ('$'.toUInt8 :: ·)

/-- The names, written next to each other and followed by an item, are read as that many variables
and the item. -/
def Recognised (names : List Text) (item : Option ParamStringElement) : Prop :=
  parseParameterisedString (adjacentVars names ++ (item.map ParamStringElement.part).getD []) =
    some (names.map (ParamStringElement.mk .variableElem) ++ item.toList)

/-- A `$(name)` or a shell expression. -/
def IsItem (elem : ParamStringElement) : Prop := elem.kind ≠ .stringElem ∧ elem.Clean

theorem WordByte.ne {chr other : UInt8} (word : WordByte chr) (different : ¬WordByte other) :
    chr ≠ other := by
  rintro rfl
  exact different word

theorem WordByte.plain {chr : UInt8} (word : WordByte chr) {scan : Scan} : scan.Plain chr := by
  refine ⟨word.ne (by decide), fun same => ?_, fun same => ?_, fun same => ?_, fun same => ?_⟩
  · exact absurd same (word.ne (by decide))
  · exact absurd same (not_or.mpr ⟨word.ne (by decide), word.ne (by decide)⟩)
  · exact absurd same (word.ne (by decide))
  · exact absurd same (word.ne (by decide))

theorem WordByte.ascii {chr : UInt8} (word : WordByte chr) : chr < 128 := by
  rcases word with ⟨_, high⟩ | ⟨_, high⟩ | ⟨_, high⟩ | rfl
  · exact UInt8.lt_of_le_of_lt high (by decide)
  · exact UInt8.lt_of_le_of_lt high (by decide)
  · exact UInt8.lt_of_le_of_lt high (by decide)
  · decide

namespace Scan

theorem noShell {chr : UInt8} (different : chr ≠ '$'.toUInt8) {rest : Text} :
    hasPrefix ('$'.toUInt8 :: chr :: rest) embeddedShellPrefix = false := by
  rw [Bool.eq_false_iff, hasPrefix, Ne, List.isPrefixOf_iff_prefix,
    show embeddedShellPrefix = '$'.toUInt8 :: '$'.toUInt8 :: lit "shell\x7b" from rfl,
    List.cons_prefix_cons, List.cons_prefix_cons]
  rintro ⟨_, same, _⟩
  exact different same.symm

theorem through_name {name : Text} (word : IsWord name) (curr : Text) (ret : ParameterisedString)
    (rest : Text) :
    through 0 (between curr ret) ('$'.toUInt8 :: name ++ rest) =
      through 0 ⟨true, false, false, false, name, ret ++ pending curr⟩ rest := by
  obtain ⟨nonempty, bytes⟩ := word
  cases name with
  | nil => exact absurd rfl nonempty
  | cons chr name =>
      have first := bytes chr List.mem_cons_self
      have opened : (between curr ret).char '$'.toUInt8 (chr :: name ++ rest) =
          some (⟨true, false, false, false, [], ret ++ pending curr⟩, 0) := by
        rw [List.cons_append, between_dollar curr ret (noShell (first.ne (by decide))), if_neg]
        simp [first.ne (by decide : ¬WordByte '('.toUInt8)]
      rw [List.cons_append, through, opened]
      simp only
      rw [through_plain (fun other member => (bytes other member).plain) rfl, read,
        flatMap_ofByte_eq_self.mpr fun other member => (bytes other member).ascii]
      rfl

theorem through_name_dollar {name : Text} (word : IsWord name) (rest : Text) :
    through 0 .start ('$'.toUInt8 :: name ++ '$'.toUInt8 :: rest) =
      through 0 (between [] [⟨.variableElem, name⟩]) rest := by
  rw [show start = between [] [] from rfl, through_name word]
  have ended : char ⟨true, false, false, false, name, [] ++ pending []⟩ '$'.toUInt8 rest =
      some (between [] [⟨.variableElem, name⟩], 0) := by
    rw [char, if_neg (by decide), if_pos rfl, dollar, if_neg (by simp), if_pos rfl]
    simp [terminateInVar, pending, between, word.1]
  rw [through, ended]

/-! ## What is read next -/

def kind (scan : Scan) : ParamStringElementKind := if scan.inVar then .variableElem else .stringElem

/-- The elements the scan ends with; what follows its loop. -/
def finish (scan : Scan) : Option ParameterisedString :=
  if scan.inEmbedded ∨ scan.inVarParen then none
  else if scan.inVar then some scan.terminateInVar.ret
  else some scan.appendStringElem.ret

/-- There is text, and no construct is open whose end could add another kind of element. -/
structure Reading (scan : Scan) : Prop where
  text : scan.curr ≠ []
  noParen : scan.inVarParen = false
  noShell : scan.inEmbedded = false

theorem terminateInVar_ret {scan : Scan} (text : scan.curr ≠ []) (inVar : scan.inVar = true) :
    scan.terminateInVar.ret = scan.ret ++ [⟨scan.kind, scan.curr⟩] := by
  simp [terminateInVar, text, kind, inVar]

theorem appendStringElem_ret {scan : Scan} (text : scan.curr ≠ []) (outside : scan.inVar = false) :
    scan.appendStringElem.ret = scan.ret ++ [⟨scan.kind, scan.curr⟩] := by
  simp [appendStringElem, text, kind, outside]

theorem terminateInVar_extends (scan : Scan) : scan.ret <+: scan.terminateInVar.ret := by
  rw [terminateInVar]
  simp only
  split
  · exact List.prefix_rfl
  · exact List.prefix_append _ _

theorem appendStringElem_extends (scan : Scan) : scan.ret <+: scan.appendStringElem.ret := by
  rw [appendStringElem]
  simp only
  split
  · exact List.prefix_rfl
  · exact List.prefix_append _ _

theorem char_extends {scan next : Scan} {chr : UInt8} {rest : Text} {skip : Nat}
    (read : scan.char chr rest = some (next, skip)) : scan.ret <+: next.ret := by
  have ended := terminateInVar_extends scan
  have appended := appendStringElem_extends scan
  unfold char dollar at read
  simp only at read
  split_ifs at read <;> cases read
  all_goals first | exact List.prefix_rfl | exact ended | exact appended | exact List.prefix_append _ _

theorem through_extends {text : Text} {skip : Nat} {scan last : Scan}
    (read : through skip scan text = some last) : scan.ret <+: last.ret := by
  induction text generalizing skip scan with
  | nil =>
      cases skip <;> cases read <;> exact List.prefix_rfl
  | cons chr rest ih =>
      cases skip with
      | succ skip => exact ih read
      | zero =>
          rw [through] at read
          cases step : scan.char chr rest with
          | none =>
              rw [step] at read
              cases read
          | some result =>
              rw [step] at read
              exact (char_extends step).trans (ih read)

theorem finish_extends {scan : Scan} {result : ParameterisedString}
    (finished : scan.finish = some result) : scan.ret <+: result := by
  unfold finish at finished
  split_ifs at finished <;> cases finished
  · exact terminateInVar_extends scan
  · exact appendStringElem_extends scan

theorem Reading.char_cases {scan next : Scan} {chr : UInt8} {rest : Text} {skip : Nat}
    (reading : scan.Reading) (read : scan.char chr rest = some (next, skip)) :
    (next.Reading ∧ next.ret = scan.ret ∧ next.kind = scan.kind ∧ skip = 0) ∨
      scan.ret ++ [⟨scan.kind, scan.curr⟩] <+: next.ret := by
  obtain ⟨inVar, inVarParen, inEmbedded, escaped, curr, ret⟩ := scan
  obtain ⟨text, noParen, noShell⟩ := reading
  obtain rfl : inVarParen = false := noParen
  obtain rfl : inEmbedded = false := noShell
  have more : curr ++ ofByte chr ≠ [] := List.append_ne_nil_of_left_ne_nil text _
  unfold char dollar at read
  cases inVar with
  | true =>
      let scan : Scan := ⟨true, false, false, escaped, curr, ret⟩
      have ends := (terminateInVar_ret (show scan.curr ≠ [] from text) rfl).symm
      simp only [Bool.false_eq_true, or_false, if_true, if_false] at read
      split_ifs at read <;> cases read
      all_goals first
        | exact Or.inl ⟨⟨more, rfl, rfl⟩, rfl, rfl, rfl⟩
        | exact Or.inl ⟨⟨text, rfl, rfl⟩, rfl, rfl, rfl⟩
        | exact Or.inr (ends ▸ List.prefix_rfl)
  | false =>
      let scan : Scan := ⟨false, false, false, escaped, curr, ret⟩
      have ends := (appendStringElem_ret (show scan.curr ≠ [] from text) rfl).symm
      simp only [Bool.false_eq_true, or_false, if_false] at read
      split_ifs at read <;> cases read
      all_goals first
        | exact Or.inl ⟨⟨more, rfl, rfl⟩, rfl, rfl, rfl⟩
        | exact Or.inl ⟨⟨text, rfl, rfl⟩, rfl, rfl, rfl⟩
        | exact Or.inr (ends ▸ List.prefix_rfl)

theorem Reading.finish {scan : Scan} (reading : scan.Reading) {result : ParameterisedString}
    (finished : scan.finish = some result) : scan.ret ++ [⟨scan.kind, scan.curr⟩] <+: result := by
  unfold Scan.finish at finished
  rw [if_neg (by simp [reading.noParen, reading.noShell])] at finished
  split_ifs at finished with inVar <;> cases finished
  · exact (terminateInVar_ret reading.text inVar).symm ▸ List.prefix_rfl
  · exact (appendStringElem_ret reading.text (by simpa using inVar)).symm ▸ List.prefix_rfl

theorem Reading.through {text : Text} {scan last : Scan} {result : ParameterisedString}
    (reading : scan.Reading) (read : Scan.through 0 scan text = some last)
    (finished : last.finish = some result) :
    ∃ str, scan.ret ++ [⟨scan.kind, str⟩] <+: result := by
  induction text generalizing scan with
  | nil =>
      cases read
      exact ⟨_, reading.finish finished⟩
  | cons chr rest ih =>
      rw [Scan.through] at read
      cases step : scan.char chr rest with
      | none =>
          rw [step] at read
          cases read
      | some next =>
          obtain ⟨next, skip⟩ := next
          rw [step] at read
          rcases reading.char_cases step with ⟨still, same, kind, rfl⟩ | added
          · rw [← same, ← kind]
            exact ih still read
          · exact ⟨_, added.trans ((through_extends read).trans (finish_extends finished))⟩

end Scan

theorem parse_eq_finish {str : Text} {result : ParameterisedString}
    (parsed : parseParameterisedString str = some result) :
    ∃ last, Scan.through 0 .start str = some last ∧ last.finish = some result := by
  unfold parseParameterisedString at parsed
  cases read : Scan.through 0 .start str with
  | none =>
      rw [read] at parsed
      cases parsed
  | some last =>
      rw [read] at parsed
      exact ⟨last, rfl, parsed⟩

/-- After a variable and a `$`, what is read first decides the kind of the second element. -/
theorem second_of_parse {name : Text} (rest left : Text) {scan : Scan}
    {result : ParameterisedString} (word : IsWord name)
    (kept : scan.ret = [⟨.variableElem, name⟩]) (reading : scan.Reading)
    (step : Scan.through 0 (.between [] [⟨.variableElem, name⟩]) rest = Scan.through 0 scan left)
    (parsed : parseParameterisedString ('$'.toUInt8 :: name ++ '$'.toUInt8 :: rest) = some result) :
    ∃ str, [⟨.variableElem, name⟩, ⟨scan.kind, str⟩] <+: result := by
  obtain ⟨last, read, finished⟩ := parse_eq_finish parsed
  rw [Scan.through_name_dollar word, step] at read
  obtain ⟨str, start⟩ := reading.through read finished
  rw [kept] at start
  exact ⟨str, start⟩

theorem second_is_string {name rest : Text} {chr : UInt8} {result : ParameterisedString}
    (word : IsWord name) (plain : ∀ scan : Scan, scan.inVar = false → scan.Plain chr)
    (parsed : parseParameterisedString ('$'.toUInt8 :: name ++ '$'.toUInt8 :: chr :: rest) =
      some result) :
    ∃ str, [⟨.variableElem, name⟩, ⟨.stringElem, str⟩] <+: result := by
  let scan := (Scan.between [] [⟨.variableElem, name⟩]).push chr
  have reading : scan.Reading := by
    refine ⟨?_, rfl, rfl⟩
    have some := Scan.flatMap_ofByte_ne_nil (List.cons_ne_nil chr [])
    simpa [scan, Scan.push, Scan.between] using some
  refine second_of_parse (chr :: rest) rest word (rfl : scan.ret = _) reading ?_ parsed
  rw [Scan.through, Scan.char_plain (plain _ rfl) rfl]

theorem second_is_variable {name text : Text} {result : ParameterisedString} (word : IsWord name)
    (parsed : parseParameterisedString ('$'.toUInt8 :: name ++ (lit "$$shell\x7b" ++ text)) =
      some result) :
    ∃ str, [⟨.variableElem, name⟩, ⟨.variableElem, str⟩] <+: result := by
  let scan : Scan := ⟨true, false, false, false, lit "s", [⟨.variableElem, name⟩]⟩
  have reading : scan.Reading := by
    refine ⟨?_, rfl, rfl⟩
    change lit "s" ≠ []
    decide
  have letter : WordByte 's'.toUInt8 := by decide
  refine second_of_parse (lit "$shell\x7b" ++ text) (lit "hell\x7b" ++ text) word
    (rfl : scan.ret = _) reading ?_ parsed
  change Scan.through 0 _ ('$'.toUInt8 :: 's'.toUInt8 :: (lit "hell\x7b" ++ text)) = _
  rw [Scan.through, Scan.between_dollar _ _ (Scan.noShell (by decide)), if_neg (by simp; decide)]
  simp only
  rw [Scan.through, Scan.char_plain letter.plain rfl]
  rfl

theorem word_parse {name : Text} (word : IsWord name) :
    parseParameterisedString ('$'.toUInt8 :: name) = some [⟨.variableElem, name⟩] := by
  have read := Scan.through_name word [] [] []
  rw [List.append_nil] at read
  rw [parseParameterisedString, show Scan.start = .between [] [] from rfl, read]
  simp [Scan.through, Scan.terminateInVar, Scan.pending, word.1]

/-- Only a single variable with nothing after it is read as it is written: a `$` after a name ends
the variable without starting the next one. -/
theorem recognised_iff {names : List Text} {item : Option ParamStringElement}
    (nonempty : names ≠ []) (words : ∀ name ∈ names, IsWord name) (isItem : ∀ elem ∈ item, IsItem elem) :
    Recognised names item ↔ names.length = 1 ∧ item = none := by
  cases names with
  | nil => exact absurd rfl nonempty
  | cons name names =>
      have word := words name List.mem_cons_self
      unfold Recognised
      cases names with
      | cons second names =>
          refine iff_of_false ?_ (by simp)
          intro parsed
          obtain ⟨nonempty, bytes⟩ := words second (by simp)
          cases second with
          | nil => exact nonempty rfl
          | cons chr second =>
              have plain : ∀ scan : Scan, scan.inVar = false → scan.Plain chr :=
                fun _ _ => (bytes chr List.mem_cons_self).plain
              obtain ⟨str, start⟩ := second_is_string word plain (by
                simpa [adjacentVars] using parsed)
              simp at start
      | nil =>
          cases item with
          | none =>
              refine iff_of_true ?_ ⟨rfl, rfl⟩
              simpa [adjacentVars] using word_parse word
          | some elem =>
              refine iff_of_false ?_ (by simp)
              intro parsed
              obtain ⟨kind, str⟩ := elem
              cases kind with
              | stringElem => exact (isItem _ rfl).1 rfl
              | variableElem =>
                  have plain : ∀ scan : Scan, scan.inVar = false → scan.Plain '('.toUInt8 := by
                    intro scan outside
                    exact ⟨by decide, fun same => absurd same (by decide),
                      fun same => absurd same (by decide), fun same => absurd same (by decide),
                      fun same => absurd same (by decide)⟩
                  have shape : parseParameterisedString ('$'.toUInt8 :: name ++
                      '$'.toUInt8 :: '('.toUInt8 :: (str ++ lit ")")) =
                        some [⟨.variableElem, name⟩, ⟨.variableElem, str⟩] := by
                    simpa [adjacentVars, ParamStringElement.part, lit] using parsed
                  obtain ⟨text, start⟩ := second_is_string word plain shape
                  simp at start
              | embeddedShell =>
                  have shape : parseParameterisedString ('$'.toUInt8 :: name ++
                      (lit "$$shell\x7b" ++ (str ++ lit "\x7d"))) =
                        some [⟨.variableElem, name⟩, ⟨.embeddedShell, str⟩] := by
                    simpa [adjacentVars, ParamStringElement.part] using parsed
                  obtain ⟨text, start⟩ := second_is_variable word shape
                  simp at start

theorem single_variable_recognised : Recognised [lit "foo"] none := by
  refine (recognised_iff (by decide) ?_ ?_).mpr ⟨rfl, rfl⟩
  · intro name member
    rw [List.mem_singleton.mp member]
    exact ⟨by decide, bytes_of_all (by decide)⟩
  · intro elem none
    cases none

theorem adjacent_variable_missed :
    parseParameterisedString (adjacentVars [lit "foo", lit "bar"]) =
      some [⟨.variableElem, lit "foo"⟩, ⟨.stringElem, lit "bar"⟩] ∧
    ¬Recognised [lit "foo", lit "bar"] none := by
  refine ⟨by decide, ?_⟩
  unfold Recognised
  decide

end Zeptux.Zbuild
