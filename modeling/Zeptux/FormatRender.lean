import Mathlib.Data.List.TakeWhile
import Zeptux.FormatPointers

/-!
What `vsnprintf` makes of a format string that is put together from literal characters and
conversions, against a reference rendering of each of them. A piece carries the argument it
takes, so that the argument list matches by construction.
-/

namespace Zeptux.Format

open Word

/-! ## The reference -/

inductive Flag
  | none
  | left
  | zero
  | space
deriving DecidableEq, Repr

/-- What stands between the `%` and the conversion character. -/
structure Options where
  flag : Flag
  width : List (Fin 10)
  long : Bool

inductive Numeral
  | d
  | u
  | x
  | p
deriving DecidableEq, Repr

inductive Piece
  | literal (chr : Char)
  | number (options : Options) (kind : Numeral) (val : BitVec 64)
  | string (options : Options) (str : List Char)
  | percent (options : Options)

def readDigits (value : Nat) (digits : List (Fin 10)) : Nat :=
  digits.foldl (fun value digit => value * 10 + digit.val) value

def digitChars (digits : List (Fin 10)) : List Char := digits.map fun digit => digit.val.digitChar

def Options.widthValue (options : Options) : Nat := readDigits 0 options.width

/-- A width that follows no flag does not start with a zero, which would be read as the flag. -/
structure Options.Valid (options : Options) : Prop where
  bare : options.flag = .none → options.width.head? ≠ some 0
  bound : options.widthValue < 2 ^ 31

def Piece.Valid : Piece → Prop
  | .literal chr => chr ≠ '%' ∧ chr ≠ '\x00'
  | .number options _ _ => options.Valid
  | .string options _ => options.Valid
  | .percent options => options.Valid

def Flag.spell : Flag → List Char
  | .none => []
  | .left => ['-']
  | .zero => ['0']
  | .space => [' ']

def Options.spell (options : Options) : List Char :=
  options.flag.spell ++ digitChars options.width ++
    if options.long then ['l'] else []

def Numeral.chr : Numeral → Char
  | .d => 'd'
  | .u => 'u'
  | .x => 'x'
  | .p => 'p'

def Piece.spell : Piece → List Char
  | .literal chr => [chr]
  | .number options kind _ => '%' :: (options.spell ++ [kind.chr])
  | .string options _ => '%' :: (options.spell ++ ['s'])
  | .percent options => '%' :: (options.spell ++ ['%'])

def Piece.args : Piece → List Arg
  | .literal _ => []
  | .number _ _ val => [.word val]
  | .string _ str => [.str str]
  | .percent _ => []

/-- The number that is shown: 32 bits of the argument without an `l`, all of it with one and
for a pointer. -/
def Numeral.value (kind : Numeral) (long : Bool) (val : BitVec 64) : Int :=
  match kind with
  | .d => if long then val.toInt else (val.truncate 32).toInt
  | .u | .x => if long then val.toNat else (val.toNat % 2 ^ 32 : Nat)
  | .p => val.toNat

def Numeral.base : Numeral → Nat
  | .d | .u => 10
  | .x | .p => 16

def Options.pad (options : Options) (sign digits : List Char) : List Char :=
  let missing := options.widthValue - (sign ++ digits).length
  match options.flag with
  | .left => sign ++ digits ++ List.replicate missing ' '
  | .zero => sign ++ List.replicate missing '0' ++ digits
  | .none | .space => List.replicate missing ' ' ++ sign ++ digits

def Options.padString (options : Options) (text : List Char) : List Char :=
  let missing := options.widthValue - text.length
  match options.flag with
  | .left => text ++ List.replicate missing ' '
  | .none | .zero | .space => List.replicate missing ' ' ++ text

def Piece.render : Piece → List Char
  | .literal chr => [chr]
  | .number options kind val =>
      let value := kind.value options.long val
      options.pad (if value < 0 then ['-'] else []) (Nat.toDigits kind.base value.natAbs)
  | .string options str => options.padString (cString str)
  | .percent _ => ['%']

/-! ## Reading the options -/

def Flag.padChar : Flag → Char
  | .zero => '0'
  | _ => ' '

def Options.format (options : Options) : VsnprintfFormat :=
  ⟨10, false, options.flag.padChar, options.widthValue, options.flag == .left⟩

theorem isDigit_digitChar (digit : Fin 10) :
    '0' ≤ digit.val.digitChar ∧ digit.val.digitChar ≤ '9' := by
  revert digit
  decide

theorem digitValue_digitChar (digit : Fin 10) :
    digitValue digit.val.digitChar = digit.val := by
  revert digit
  decide

theorem parseWidth_other {chr : Char} (other : ¬('0' ≤ chr ∧ chr ≤ '9')) (padCount : Int)
    (fmt : List Char) : parseWidth padCount chr fmt = (padCount, chr, fmt) := by
  cases fmt with
  | nil => rw [parseWidth, if_neg other]
  | cons next fmt => rw [parseWidth, if_neg other]

theorem le_readDigits (width : List (Fin 10)) (value : Nat) : value ≤ readDigits value width := by
  induction width generalizing value with
  | nil => exact Nat.le_refl value
  | cons digit width ih =>
      have later := ih (value * 10 + digit.val)
      rw [readDigits, List.foldl_cons, ← readDigits]
      omega

theorem addDigit_digitChar {value : Nat} {digit : Fin 10} (small : value * 10 + digit.val < 2 ^ 31) :
    addDigit value digit.val.digitChar = (value * 10 + digit.val : Nat) := by
  have product : (value : Int) * 10 = (value * 10 : Nat) := by omega
  have sum : ((value * 10 : Nat) : Int) + digit.val = (value * 10 + digit.val : Nat) := by omega
  rw [addDigit, digitValue_digitChar, product, toInt32_eq (by omega), sum,
    toInt32_eq small]

theorem parseWidth_digits {chr : Char} (other : ¬('0' ≤ chr ∧ chr ≤ '9')) (fmt : List Char)
    (width : List (Fin 10)) (value : Nat) (first : Char) (rest : List Char)
    (split : digitChars width ++ chr :: fmt = first :: rest)
    (small : readDigits value width < 2 ^ 31) :
    parseWidth (value : Int) first rest =
      ((readDigits value width : Int), chr, fmt) := by
  induction width generalizing value first rest with
  | nil =>
      cases split
      exact parseWidth_other other value fmt
  | cons digit width ih =>
      have isDigit := isDigit_digitChar digit
      rw [readDigits, List.foldl_cons, ← readDigits] at small ⊢
      have sum := le_readDigits width (value * 10 + digit.val)
      rw [digitChars, List.map_cons, List.cons_append, List.cons.injEq] at split
      obtain ⟨rfl, rfl⟩ := split
      change parseWidth _ _ (digitChars width ++ chr :: fmt) = _
      generalize remaining : digitChars width ++ chr :: fmt = left
      cases left with
      | nil => simp at remaining
      | cons second left =>
          rw [parseWidth, if_pos isDigit, addDigit_digitChar (by omega)]
          exact ih _ second left remaining small

def conversionChars : List Char := ['d', 'u', 'x', 'p', 's', '%']

theorem long_spell (long : Bool) {chr : Char} (letter : chr ∈ conversionChars) (rest : List Char) :
    ∃ next fmt, (if long then ['l'] else []) ++ chr :: rest = next :: fmt ∧
      ¬('0' ≤ next ∧ next ≤ '9') ∧ next ≠ '-' ∧ next ≠ '0' ∧ next ≠ ' ' ∧
      (next == 'l' || next == 'L') = long ∧
      (if long then nextChar fmt else (next, fmt)) = (chr, rest) := by
  cases long with
  | true => exact ⟨'l', chr :: rest, rfl, by decide, by decide, by decide, by decide, rfl, rfl⟩
  | false =>
      have plain : ∀ next ∈ conversionChars, ¬('0' ≤ next ∧ next ≤ '9') ∧ next ≠ '-' ∧ next ≠ '0' ∧
          next ≠ ' ' ∧ (next == 'l' || next == 'L') = false := by
        simp [conversionChars]
      obtain ⟨noDigit, noMinus, noZero, noSpace, noLong⟩ := plain chr letter
      exact ⟨chr, rest, rfl, noDigit, noMinus, noZero, noSpace, noLong, rfl⟩

theorem bare_width {width : List (Fin 10)} (bare : width.head? ≠ some 0) {next first : Char}
    {fmt left : List Char} (noMinus : next ≠ '-') (noZero : next ≠ '0') (noSpace : next ≠ ' ')
    (split : digitChars width ++ next :: fmt = first :: left) :
    first ≠ '-' ∧ first ≠ '0' ∧ first ≠ ' ' := by
  cases width with
  | nil =>
      cases split
      exact ⟨noMinus, noZero, noSpace⟩
  | cons digit width =>
      cases split
      have nonzero : ∀ digit : Fin 10, digit ≠ 0 → digit.val.digitChar ≠ '-' ∧
          digit.val.digitChar ≠ '0' ∧ digit.val.digitChar ≠ ' ' := by
        decide
      exact nonzero digit fun zero => bare (by rw [zero]; rfl)

theorem nextChar_cons (chr : Char) (fmt : List Char) : nextChar (chr :: fmt) = (chr, fmt) := rfl

theorem parseOptions_spell {options : Options} (valid : options.Valid) {chr : Char}
    (letter : chr ∈ conversionChars) (rest : List Char) :
    parseOptions (options.spell ++ chr :: rest) = (options.format, options.long, chr, rest) := by
  obtain ⟨flag, width, long⟩ := options
  obtain ⟨next, fmt, tail, noDigit, noMinus, noZero, noSpace, isLong, last⟩ :=
    long_spell long letter rest
  generalize split : digitChars width ++ next :: fmt = field
  cases field with
  | nil => simp at split
  | cons first left =>
      have parsed : parseWidth 0 first left = ((readDigits 0 width : Int), next, fmt) :=
        parseWidth_digits noDigit fmt width 0 first left split valid.bound
      have whole : Options.spell ⟨flag, width, long⟩ ++ chr :: rest =
          flag.spell ++ first :: left := by
        rw [Options.spell, List.append_assoc, List.append_assoc, tail, split]
      rw [whole]
      cases flag with
      | left => simp [parseOptions, Flag.spell, nextChar_cons, parsed, isLong, last, Options.format,
          Flag.padChar, Options.widthValue]
      | zero => simp [parseOptions, Flag.spell, nextChar_cons, parsed, isLong, last, Options.format,
          Flag.padChar, Options.widthValue]
      | space => simp [parseOptions, Flag.spell, nextChar_cons, parsed, isLong, last, Options.format,
          Flag.padChar, Options.widthValue]
      | none =>
          obtain ⟨firstMinus, firstZero, firstSpace⟩ :=
            bare_width (valid.bare rfl) noMinus noZero noSpace split
          simp [parseOptions, Flag.spell, nextChar_cons, parsed, isLong, last, Options.format,
            Flag.padChar, Options.widthValue, firstMinus, firstZero, firstSpace]

/-! ## What the engine emits for a piece -/

def collect (out : List Char) (chr : Char) : List Char := out ++ [chr]

theorem putcRepeat_collect (out : List Char) (chr : Char) (n : Int) :
    putcRepeat collect out chr n = out ++ List.replicate n.toNat chr := by
  unfold putcRepeat
  induction n.toNat generalizing out with
  | zero => rw [putcRepeatFrom, List.replicate_zero, List.append_nil]
  | succ remaining ih =>
      rw [putcRepeatFrom, ih, collect, List.append_assoc, List.replicate_succ, List.singleton_append]

theorem puts_collect (out str : List Char) : puts collect out str = out ++ cString str := by
  induction str generalizing out with
  | nil => rw [puts, cString, List.takeWhile_nil, List.append_nil]
  | cons chr str ih =>
      rw [puts, cString]
      split
      · rename_i ends
        rw [List.takeWhile_cons_of_neg (by simpa using ends), List.append_nil]
      · rename_i more
        rw [ih, collect, List.takeWhile_cons_of_pos (by simpa using more), List.append_assoc,
          List.singleton_append, cString]

theorem formatFrom_collect (rounds : Nat) (out fmt : List Char) (args : List Arg) :
    formatFrom collect rounds out fmt args =
      (formatFrom collect rounds [] fmt args).map (out ++ ·) := by
  have step : ∀ left right chr, left = out ++ right → collect left chr = out ++ collect right chr := by
    rintro left right chr rfl
    rw [collect, collect, List.append_assoc]
  have related := formatFrom_related step (List.append_nil out).symm rounds fmt args
  generalize formatFrom collect rounds out fmt args = left at related
  generalize formatFrom collect rounds [] fmt args = right at related
  cases related with
  | none => rfl
  | some same => rw [Option.map_some, same]

/-- What `_vsnprintf_uint64` is called with for a number. -/
def Numeral.call (kind : Numeral) (options : Options) (val : BitVec 64) : Nat × VsnprintfFormat :=
  match kind with
  | .d =>
      let val := if options.long then val else (val.truncate 32).signExtend 64
      if val.toInt < 0 then ((-val).toNat, { options.format with neg := true })
      else (val.toNat, options.format)
  | .u => (if options.long then val.toNat else val.toNat % 2 ^ 32, options.format)
  | .x =>
      (if options.long then val.toNat else val.toNat % 2 ^ 32, { options.format with base := 16 })
  | .p => (val.toNat, { options.format with base := 16 })

def Piece.emits : Piece → List Char
  | .literal chr => [chr]
  | .number options kind val =>
      putUint64 collect [] (kind.call options val).1 (kind.call options val).2
  | .string options str => putsFormat collect [] str options.format
  | .percent _ => ['%']

theorem convert_number (options : Options) (kind : Numeral) (val : BitVec 64) (more : List Arg) :
    convert collect [] options.format options.long kind.chr (.word val :: more) =
      some (putUint64 collect [] (kind.call options val).1 (kind.call options val).2, more) := by
  cases kind with
  | d =>
      simp only [convert, Numeral.chr, Numeral.call, vaWord, Option.bind_eq_bind, Option.bind_some,
        or_true, if_true, putInt64]
      generalize (if options.long then val else (val.truncate 32).signExtend 64) = wide
      by_cases negative : wide.toInt < 0
      · simp only [negative, if_true]
        rfl
      · simp only [negative, if_false]
        rfl
  | u => rfl
  | x =>
      cases options with
      | mk flag width long =>
          cases long with
          | true => rfl
          | false => rfl
  | p =>
      cases options with
      | mk flag width long =>
          cases long with
          | true => rfl
          | false => rfl

theorem formatFrom_conversion {options : Options} (valid : options.Valid) {chr : Char}
    (letter : chr ∈ conversionChars) (rounds : Nat) (fmt : List Char) {text : List Char}
    {args more : List Arg}
    (converted : convert collect [] options.format options.long chr args = some (text, more)) :
    formatFrom collect (rounds + 1) [] ('%' :: (options.spell ++ chr :: fmt)) args =
      (formatFrom collect rounds [] fmt more).map (text ++ ·) := by
  have notEnd : chr ≠ '\x00' := by
    rintro rfl
    exact absurd letter (by decide)
  rw [formatFrom, if_neg (by decide), if_neg (by decide)]
  simp only [parseOptions_spell valid letter, if_neg notEnd, converted, Option.bind_eq_bind,
    Option.bind_some]
  exact formatFrom_collect rounds text fmt more

theorem formatFrom_piece {piece : Piece} (valid : piece.Valid) (rounds : Nat) (fmt : List Char)
    (more : List Arg) :
    formatFrom collect (rounds + 1) [] (piece.spell ++ fmt) (piece.args ++ more) =
      (formatFrom collect rounds [] fmt more).map (piece.emits ++ ·) := by
  cases piece with
  | literal chr =>
      change formatFrom collect (rounds + 1) [] (chr :: fmt) more = _
      rw [formatFrom, if_neg valid.2, if_pos valid.1]
      exact formatFrom_collect rounds [chr] fmt more
  | number options kind val =>
      have letter : kind.chr ∈ conversionChars := by
        cases kind <;> decide
      rw [Piece.spell, List.cons_append, List.append_assoc, List.singleton_append]
      exact formatFrom_conversion valid letter rounds fmt (convert_number options kind val more)
  | string options str =>
      rw [Piece.spell, List.cons_append, List.append_assoc, List.singleton_append]
      exact formatFrom_conversion valid (by decide) rounds fmt rfl
  | percent options =>
      rw [Piece.spell, List.cons_append, List.append_assoc, List.singleton_append]
      exact formatFrom_conversion valid (by decide) rounds fmt rfl

theorem formatFrom_pieces (pieces : List Piece) (valid : ∀ piece ∈ pieces, piece.Valid)
    (more : List Arg) (rounds : Nat) (enough : (pieces.flatMap Piece.spell).length ≤ rounds) :
    formatFrom collect rounds [] (pieces.flatMap Piece.spell)
      (pieces.flatMap Piece.args ++ more) = some (pieces.flatMap Piece.emits) := by
  induction pieces generalizing rounds with
  | nil =>
      cases rounds with
      | zero => rfl
      | succ rounds => rfl
  | cons piece pieces ih =>
      have positive : 0 < piece.spell.length := by
        cases piece <;> exact Nat.succ_pos _
      rw [List.flatMap_cons, List.length_append] at enough
      obtain ⟨rounds, rfl⟩ : ∃ left, rounds = left + 1 := ⟨rounds - 1, by omega⟩
      rw [List.flatMap_cons, List.flatMap_cons, List.flatMap_cons, List.append_assoc,
        formatFrom_piece (valid piece (.head _)),
        ih (fun other member => valid other (.tail _ member)) rounds (by omega), Option.map_some]

theorem emitted_pieces (pieces : List Piece) (valid : ∀ piece ∈ pieces, piece.Valid)
    (more : List Arg) :
    emitted (pieces.flatMap Piece.spell) (pieces.flatMap Piece.args ++ more) =
      some (pieces.flatMap Piece.emits) :=
  formatFrom_pieces pieces valid more _ (Nat.le_refl _)

/-! ## Numbers -/

theorem digits_getD {digit : Nat} (small : digit < 16) :
    digits.getD digit '\x00' = digit.digitChar := by
  have all : ∀ digit < 16, digits.getD digit '\x00' = Nat.digitChar digit := by decide
  exact all digit small

theorem fillDigits_eq {base : Nat} (low : 1 < base) (high : base ≤ 16) (rounds val : Nat)
    (valBuf : List Char) (bound : val < base ^ rounds) :
    fillDigits base rounds val valBuf =
      (if val = 0 then [] else Nat.toDigits base val) ++ valBuf := by
  induction rounds generalizing val valBuf with
  | zero =>
      rw [Nat.pow_zero] at bound
      rw [fillDigits, if_pos (by omega), List.nil_append]
  | succ rounds ih =>
      rw [fillDigits]
      by_cases zero : val = 0
      · rw [if_neg (by omega), if_pos zero, List.nil_append]
      · have digit : val % base < 16 := Nat.lt_of_lt_of_le (Nat.mod_lt val (by omega)) high
        have fits : val / base < base ^ rounds :=
          Nat.div_lt_of_lt_mul (by rwa [← Nat.pow_succ'])
        rw [if_pos (by omega), ih _ _ fits, digits_getD digit, if_neg zero]
        by_cases last : val < base
        · rw [if_pos (Nat.div_eq_of_lt last), Nat.toDigits_of_lt_base last, Nat.mod_eq_of_lt last,
            List.nil_append, List.singleton_append]
        · have more : val / base ≠ 0 := (Nat.div_pos (by omega) (by omega)).ne'
          rw [if_neg more, Nat.toDigits_of_base_le low (Nat.le_of_not_lt last), List.append_assoc,
            List.singleton_append]

theorem valBuf_eq {base val : Nat} (low : 1 < base) (high : base ≤ 16) (bound : val < 2 ^ 64) :
    (if val = 0 then ['0'] else fillDigits base 64 val []) = Nat.toDigits base val := by
  by_cases zero : val = 0
  · rw [if_pos zero, zero, Nat.toDigits_zero]
  · have fits : val < base ^ 64 := Nat.lt_of_lt_of_le bound (Nat.pow_le_pow_left low 64)
    rw [if_neg zero, fillDigits_eq low high 64 val [] fits, if_neg zero, List.append_nil]

theorem toDigits_ne_nul {base : Nat} (low : 1 < base) (val : Nat) :
    ∀ chr ∈ Nat.toDigits base val, chr ≠ '\x00' := by
  induction val using Nat.strongRecOn with
  | ind val ih =>
      rw [Nat.toDigits_eq_if low]
      split
      · intro chr member
        rw [List.mem_singleton.mp member]
        exact Nat.digitChar_ne '\x00' (by decide)
      · rename_i more
        intro chr member
        rcases List.mem_append.mp member with early | last
        · exact ih (val / base) (Nat.div_lt_self (by omega) low) chr early
        · rw [List.mem_singleton.mp last]
          exact Nat.digitChar_ne '\x00' (by decide)

theorem cString_eq {text : List Char} (free : ∀ chr ∈ text, chr ≠ '\x00') : cString text = text := by
  rw [cString, List.takeWhile_eq_self_iff]
  intro chr member
  simpa using free chr member

theorem padded_collect (out : List Char) (chr : Char) (width len : Int) :
    (if width > len then putcRepeat collect out chr (width - len) else out) =
      out ++ List.replicate (width - len).toNat chr := by
  split
  · exact putcRepeat_collect out chr _
  · rename_i wide
    rw [show (width - len).toNat = 0 by omega, List.replicate_zero, List.append_nil]

theorem putUint64_collect {val base : Nat} (options : Options) (neg : Bool) (low : 1 < base)
    (high : base ≤ 16) (bound : val < 2 ^ 64) (fits : options.widthValue < 2 ^ 31) :
    putUint64 collect [] val { options.format with base := base, neg := neg } =
      options.pad (if neg then ['-'] else []) (Nat.toDigits base val) := by
  obtain ⟨flag, width, long⟩ := options
  have digits := cString_eq (toDigits_ne_nul low val)
  have signed : cString ('-' :: Nat.toDigits base val) = '-' :: Nat.toDigits base val := by
    apply cString_eq
    intro chr member
    rcases List.mem_cons.mp member with rfl | inside
    · decide
    · exact toDigits_ne_nul low val chr inside
  simp only [putUint64, Options.format, Options.pad, valBuf_eq low high bound, Options.widthValue,
    padded_collect, puts_collect]
  generalize Nat.toDigits base val = text at digits signed
  rw [Options.widthValue] at fits
  generalize readDigits 0 width = number at fits
  have decremented : toInt32 ((number : Int) - 1) = number - 1 :=
    toInt32_of_bounds (by omega) (by omega)
  have bare : ((number : Int) - text.length).toNat = number - text.length := by omega
  have minus : ((number : Int) - (text.length + 1)).toNat = number - (text.length + 1) := by omega
  have zeros : number - 1 - text.length = number - (text.length + 1) := by omega
  cases flag <;> cases neg <;>
    simp [Flag.padChar, digits, signed, collect, bare, minus, zeros, decremented]

theorem toNat_of_nonneg {wide : BitVec 64} (nonneg : ¬wide.toInt < 0) :
    wide.toNat = wide.toInt.natAbs := by
  rw [BitVec.toInt_neg_iff] at nonneg
  rw [BitVec.toInt_eq_toNat_of_lt (by omega), Int.natAbs_natCast]

theorem toNat_neg_of_neg {wide : BitVec 64} (negative : wide.toInt < 0) :
    (-wide).toNat = wide.toInt.natAbs := by
  have bound := wide.isLt
  have high := BitVec.toInt_neg_iff.mp negative
  rw [BitVec.toNat_neg, BitVec.toInt_eq_toNat_cond, if_neg (by omega)]
  omega

theorem unsigned_call (options : Options) (base : Nat) {number : Nat} {value : Int}
    (same : value = number) :
    (number, { options.format with base := base }) =
      (value.natAbs, { options.format with base := base, neg := decide (value < 0) }) := by
  subst same
  rw [Int.natAbs_natCast, decide_eq_false (Int.not_lt.mpr (Int.natCast_nonneg number))]
  rfl

theorem Numeral.call_eq (kind : Numeral) (options : Options) (val : BitVec 64) :
    kind.call options val = ((kind.value options.long val).natAbs, { options.format with
      base := kind.base, neg := decide (kind.value options.long val < 0) }) := by
  have reduced : (if options.long then (val.toNat : Int) else (val.toNat % 2 ^ 32 : Nat)) =
      ((if options.long then val.toNat else val.toNat % 2 ^ 32 : Nat) : Int) := by
    split
    · rfl
    · rfl
  cases kind with
  | d =>
      have wide : Numeral.d.value options.long val =
          (if options.long then val else (val.truncate 32).signExtend 64).toInt := by
        rw [Numeral.value]
        split
        · rfl
        · exact (BitVec.toInt_signExtend_of_le (by omega)).symm
      simp only [Numeral.call, wide]
      generalize (if options.long then val else (val.truncate 32).signExtend 64) = extended
      by_cases negative : extended.toInt < 0
      · rw [if_pos negative, toNat_neg_of_neg negative, decide_eq_true negative]
        rfl
      · rw [if_neg negative, toNat_of_nonneg negative, decide_eq_false negative]
        rfl
  | u => exact unsigned_call options 10 reduced
  | x => exact unsigned_call options 16 reduced
  | p => exact unsigned_call options 16 rfl

theorem Numeral.base_bounds (kind : Numeral) : 1 < kind.base ∧ kind.base ≤ 16 := by
  cases kind <;> decide

theorem Numeral.value_bounds (kind : Numeral) (long : Bool) (val : BitVec 64) :
    (kind.value long val).natAbs < 2 ^ 64 ∧
      (kind.value long val < 0 → (kind.value long val).natAbs ≤ 2 ^ 63) := by
  have bound := val.isLt
  have low : -(2 ^ 63 : Int) ≤ val.toInt := BitVec.le_toInt val
  have high : val.toInt < 2 ^ 63 := BitVec.toInt_lt
  have low' : -(2 ^ 31 : Int) ≤ (val.truncate 32).toInt := BitVec.le_toInt _
  have high' : (val.truncate 32).toInt < 2 ^ 31 := BitVec.toInt_lt
  cases kind <;> cases long <;> simp only [Numeral.value, if_true, Bool.false_eq_true, if_false] <;>
    omega

theorem emits_number (options : Options) (kind : Numeral) (val : BitVec 64)
    (fits : options.widthValue < 2 ^ 31) :
    (Piece.number options kind val).emits = (Piece.number options kind val).render := by
  obtain ⟨low, high⟩ := kind.base_bounds
  rw [Piece.emits, Piece.render, kind.call_eq,
    putUint64_collect options _ low high (kind.value_bounds options.long val).1 fits]
  simp only [decide_eq_true_eq]

/-! ## Strings -/

/-- The string has at least `2 ^ 31` characters and the width exceeds its length modulo
`2 ^ 32`: taken as an `int` the length is too small. -/
def Overpadded (width len : Nat) : Prop :=
  2 ^ 31 ≤ len ∧ 0 < ((width : Int) - len) % 2 ^ 32 ∧ ((width : Int) - len) % 2 ^ 32 < 2 ^ 31

theorem string_padding {width : Nat} (len : Nat) (bound : width < 2 ^ 31) :
    ∃ count, (∀ out, (if (width : Int) > toInt32 len then
        putcRepeat collect out ' ' (toInt32 ((width : Int) - len)) else out) =
          out ++ List.replicate count ' ') ∧
      (¬Overpadded width len → count = width - len) ∧
      (Overpadded width len → width - len < count) := by
  have length : toInt32 len = (len : Int).bmod (2 ^ 32) := rfl
  refine ⟨if (width : Int) > toInt32 len then (toInt32 ((width : Int) - len)).toNat else 0,
    ?_, ?_, ?_⟩
  · intro out
    split
    · exact putcRepeat_collect out ' ' _
    · rw [List.replicate_zero, List.append_nil]
  · intro fits
    rw [Overpadded] at fits
    rw [length, toInt32, Int.bmod_def, Int.bmod_def]
    split_ifs <;> omega
  · rintro ⟨long, positive, small⟩
    rw [length, toInt32, Int.bmod_def, Int.bmod_def]
    split_ifs <;> omega

theorem putsFormat_collect (options : Options) (str : List Char) {count : Nat}
    (padded : ∀ out, (if (options.widthValue : Int) > toInt32 (strlen str) then
        putcRepeat collect out ' ' (toInt32 ((options.widthValue : Int) - strlen str))
      else out) = out ++ List.replicate count ' ') :
    putsFormat collect [] str options.format =
      if options.flag = .left then cString str ++ List.replicate count ' '
      else List.replicate count ' ' ++ cString str := by
  simp only [putsFormat, Options.format, padded, puts_collect]
  by_cases left : options.flag = .left
  · simp [left]
  · simp [left]

theorem padString_eq (options : Options) (text : List Char) :
    options.padString text =
      if options.flag = .left then text ++ List.replicate (options.widthValue - text.length) ' '
      else List.replicate (options.widthValue - text.length) ' ' ++ text := by
  rw [Options.padString]
  cases options.flag <;> rfl

theorem emits_string {options : Options} (valid : options.Valid) (str : List Char) :
    ((Piece.string options str).emits = (Piece.string options str).render ↔
      ¬Overpadded options.widthValue (strlen str)) ∧
    (Piece.string options str).render.length ≤ (Piece.string options str).emits.length := by
  obtain ⟨count, padded, fits, overlong⟩ := string_padding (strlen str) valid.bound
  rw [Piece.emits, Piece.render, putsFormat_collect options str padded, padString_eq]
  change (_ = (if options.flag = .left then
      cString str ++ List.replicate (options.widthValue - strlen str) ' '
    else List.replicate (options.widthValue - strlen str) ' ' ++ cString str) ↔ _) ∧ _
  have least : options.widthValue - strlen str ≤ count := by
    by_cases long : Overpadded options.widthValue (strlen str)
    · exact Nat.le_of_lt (overlong long)
    · exact Nat.le_of_eq (fits long).symm
  refine ⟨⟨fun same long => ?_, fun short => by rw [fits short]⟩, ?_⟩
  · have more := overlong long
    have lengths := congrArg List.length same
    split at lengths
    · simp only [List.length_append, List.length_replicate] at lengths
      omega
    · simp only [List.length_append, List.length_replicate] at lengths
      omega
  · change (if options.flag = .left then
      cString str ++ List.replicate (options.widthValue - strlen str) ' '
      else List.replicate (options.widthValue - strlen str) ' ' ++ cString str).length ≤ _
    split
    · simp only [List.length_append, List.length_replicate]
      omega
    · simp only [List.length_append, List.length_replicate]
      omega

/-! ## The whole text -/

def Piece.Fits : Piece → Prop
  | .string options str => ¬Overpadded options.widthValue (strlen str)
  | _ => True

theorem emits_iff {piece : Piece} (valid : piece.Valid) :
    (piece.emits = piece.render ↔ piece.Fits) ∧ piece.render.length ≤ piece.emits.length := by
  cases piece with
  | literal chr => exact ⟨iff_of_true rfl trivial, Nat.le_refl _⟩
  | number options kind val =>
      rw [emits_number options kind val valid.bound]
      exact ⟨iff_of_true rfl trivial, Nat.le_refl _⟩
  | string options str => exact emits_string valid str
  | percent options => exact ⟨iff_of_true rfl trivial, Nat.le_refl _⟩

theorem flatMap_length_le {α β : Type} {items : List α} {part other : α → List β}
    (shorter : ∀ item ∈ items, (other item).length ≤ (part item).length) :
    (items.flatMap other).length ≤ (items.flatMap part).length := by
  induction items with
  | nil => exact Nat.le_refl _
  | cons item items ih =>
      have here := shorter item (.head _)
      have rest := ih fun next member => shorter next (.tail _ member)
      rw [List.flatMap_cons, List.flatMap_cons, List.length_append, List.length_append]
      omega

theorem flatMap_eq_iff {α β : Type} {items : List α} {part other : α → List β}
    (shorter : ∀ item ∈ items, (other item).length ≤ (part item).length) :
    items.flatMap part = items.flatMap other ↔ ∀ item ∈ items, part item = other item := by
  induction items with
  | nil => exact iff_of_true rfl nofun
  | cons item items ih =>
      have here := shorter item (.head _)
      have later : ∀ next ∈ items, (other next).length ≤ (part next).length :=
        fun next member => shorter next (.tail _ member)
      have rest := flatMap_length_le later
      rw [List.flatMap_cons, List.flatMap_cons, List.forall_mem_cons, ← ih later]
      constructor
      · intro same
        have lengths := congrArg List.length same
        rw [List.length_append, List.length_append] at lengths
        exact List.append_inj same (by omega)
      · rintro ⟨first, last⟩
        rw [first, last]

theorem emitted_iff (pieces : List Piece) (valid : ∀ piece ∈ pieces, piece.Valid)
    (more : List Arg) :
    emitted (pieces.flatMap Piece.spell) (pieces.flatMap Piece.args ++ more) =
        some (pieces.flatMap Piece.render) ↔ ∀ piece ∈ pieces, piece.Fits := by
  rw [emitted_pieces pieces valid more, Option.some.injEq,
    flatMap_eq_iff fun piece member => (emits_iff (valid piece member)).2]
  exact forall₂_congr fun piece member => (emits_iff (valid piece member)).1

/-! ## The indices into `val_buf` -/

def Numeral.printed (kind : Numeral) (options : Options) (val : BitVec 64) (bytes : Int → Char) :
    List Char × ValBuf :=
  let filled := fillValBuf (kind.call options val).1 (kind.call options val).2 bytes
  ValBuf.read (uint64MaxChars + 1) (filled.i + 1) filled

theorem valBufText_short {base val : Nat} (options : Options) (neg : Bool) (low : 10 ≤ base)
    (high : base ≤ 16) (bound : val < 2 ^ 64) (negative : neg = true → val ≤ 2 ^ 63) :
    (valBufText val { options.format with base := base, neg := neg }).length ≤ uint64MaxChars ∧
      ∀ chr ∈ valBufText val { options.format with base := base, neg := neg }, chr ≠ '\x00' := by
  have digits : (Nat.toDigits base val).length ≤ 20 := by
    rw [Nat.length_toDigits_le_iff (by omega) (by omega)]
    exact Nat.lt_of_lt_of_le (by omega : val < 10 ^ 20) (Nat.pow_le_pow_left low 20)
  simp only [valBufText, valBuf_eq (by omega : 1 < base) high bound]
  split
  · rename_i signed
    have fewer : (Nat.toDigits base val).length ≤ 19 := by
      have small := negative signed.2
      rw [Nat.length_toDigits_le_iff (by omega) (by omega)]
      exact Nat.lt_of_lt_of_le (by omega : val < 10 ^ 19) (Nat.pow_le_pow_left low 19)
    refine ⟨Nat.succ_le_succ fewer, ?_⟩
    intro chr member
    rcases List.mem_cons.mp member with rfl | inside
    · decide
    · exact toDigits_ne_nul (by omega) val chr inside
  · exact ⟨digits, toDigits_ne_nul (by omega) val⟩

theorem printed_inside (kind : Numeral) (options : Options) (val : BitVec 64)
    (bytes : Int → Char) :
    (kind.printed options val bytes).1 =
        valBufText (kind.call options val).1 (kind.call options val).2 ∧
      ∀ index ∈ (kind.printed options val bytes).2.used, 0 ≤ index ∧ index ≤ uint64MaxChars := by
  have base : 10 ≤ kind.base := by
    cases kind <;> decide
  obtain ⟨bound, negative⟩ := kind.value_bounds options.long val
  obtain ⟨short, free⟩ := valBufText_short options (decide (kind.value options.long val < 0)) base
    kind.base_bounds.2 bound (fun isNegative => negative (of_decide_eq_true isNegative))
  rw [Numeral.printed, kind.call_eq]
  obtain ⟨holds, ends⟩ := fillValBuf_holds (kind.value options.long val).natAbs
    { options.format with base := kind.base, neg := decide (kind.value options.long val < 0) } bytes
  obtain ⟨shown, used⟩ := holds.read ends free (Nat.lt_succ_of_le short)
  refine ⟨shown, fun index member => ?_⟩
  have place := holds.index
  have bounds := used index member
  omega

/-- The emitted text is the reference rendering, and no index leaves `val_buf`. -/
structure RendersCorrectly (pieces : List Piece) (more : List Arg) : Prop where
  text : emitted (pieces.flatMap Piece.spell) (pieces.flatMap Piece.args ++ more) =
    some (pieces.flatMap Piece.render)
  inside : ∀ (kind : Numeral) (options : Options) (val : BitVec 64) (bytes : Int → Char),
    ∀ index ∈ (kind.printed options val bytes).2.used, 0 ≤ index ∧ index ≤ uint64MaxChars

theorem rendersCorrectly_iff (pieces : List Piece) (more : List Arg)
    (valid : ∀ piece ∈ pieces, piece.Valid) :
    RendersCorrectly pieces more ↔ ∀ piece ∈ pieces, piece.Fits := by
  constructor
  · intro correct
    exact (emitted_iff pieces valid more).mp correct.text
  · intro fits
    exact ⟨(emitted_iff pieces valid more).mpr fits,
      fun kind options val bytes => (printed_inside kind options val bytes).2⟩

/-- `a%05d%-4s%%` with -42 and "hi". -/
def samplePieces : List Piece :=
  [.literal 'a', .number ⟨.zero, [5], false⟩ .d (-42), .string ⟨.left, [4], false⟩ ['h', 'i'],
    .percent ⟨.none, [], false⟩]

theorem samplePieces_render :
    RendersCorrectly samplePieces [] ∧
      samplePieces.flatMap Piece.render = ['a', '-', '0', '0', '4', '2', 'h', 'i', ' ', ' ', '%'] := by
  have valid : ∀ piece ∈ samplePieces, piece.Valid := by
    intro piece member
    simp only [samplePieces, List.mem_cons, List.not_mem_nil, or_false] at member
    rcases member with rfl | rfl | rfl | rfl
    · exact ⟨by decide, by decide⟩
    · exact ⟨by decide, by decide⟩
    · exact ⟨by decide, by decide⟩
    · exact ⟨by decide, by decide⟩
  have fits : ∀ piece ∈ samplePieces, piece.Fits := by
    intro piece member
    simp only [samplePieces, List.mem_cons, List.not_mem_nil, or_false] at member
    rcases member with rfl | rfl | rfl | rfl
    · trivial
    · trivial
    · exact fun overlong => absurd overlong.1 (by decide)
    · trivial
  exact ⟨(rendersCorrectly_iff samplePieces [] valid).mpr fits, by decide +kernel⟩

theorem long_string_overpadded :
    ∃ pieces : List Piece, pieces.flatMap Piece.spell = ['%', 's'] ∧
      (∀ piece ∈ pieces, piece.Valid) ∧ ¬RendersCorrectly pieces [] := by
  have valid : ∀ piece ∈ [Piece.string ⟨.none, [], false⟩ (List.replicate (2 ^ 32 - 5) 'a')],
      piece.Valid := by
    intro piece member
    rw [List.mem_singleton.mp member]
    exact ⟨by decide, by decide⟩
  refine ⟨_, rfl, valid, fun correct => ?_⟩
  have fits := (emitted_iff _ valid []).mp correct.text _ List.mem_cons_self
  have length : strlen (List.replicate (2 ^ 32 - 5) 'a') = 2 ^ 32 - 5 := by
    rw [strlen, cString_eq, List.length_replicate]
    intro chr member
    rw [List.eq_of_mem_replicate member]
    decide
  have width : Options.widthValue ⟨.none, [], false⟩ = 0 := rfl
  rw [Piece.Fits, length, width] at fits
  exact fits ⟨by omega, by omega, by omega⟩

end Zeptux.Format
