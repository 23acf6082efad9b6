import Zeptux.FormatRender

/-! `bytes_to_human` of `lib/format.c`, and how far the number it prints is from the bytes. -/

namespace Zeptux.Format

def units : List (List Char) :=
  [['b', 'y', 't', 'e', 's'], ['K', 'i', 'B'], ['M', 'i', 'B'], ['G', 'i', 'B'], ['T', 'i', 'B']]

/-- The loop over the units: `unit_index`, `num_units` and `unit_mult` when it ends. -/
def unitFrom : Nat → Nat → Nat → Nat → Nat × Nat × Nat
  | 0, _, numUnits, unitMult => (0, numUnits, unitMult)
  | remaining + 1, i, numUnits, unitMult =>
      if numUnits < 1024 then (i, numUnits, unitMult)
      else unitFrom remaining (i + 1) (numUnits / 1024) (unitMult * 1024)

def snprintf (buf : Nat → Char) (n : Nat) (fmt : List Char) (args : List Arg) :
    Option ((Nat → Char) × Int) := vsnprintf buf n fmt args

/-- The buffer afterwards; the arithmetic is that of `uint64_t`, which nothing here overflows. -/
def bytesToHuman (bytes : Nat) (buf : Nat → Char) (bufSize : Nat) : Option (Nat → Char) :=
  let (unitIndex, numUnits, unitMult) := unitFrom units.length 0 bytes 1
  if unitIndex < 3 ∨ bytes % unitMult = 0 then
    (snprintf buf bufSize ['%', '5', 'l', 'u', ' ', '%', 's']
      [.word (BitVec.ofNat 64 numUnits), .str (units.getD unitIndex [])]).map Prod.fst
  else
    let remaining := bytes - numUnits * unitMult
    let remaining := remaining * 1024
    let remaining := remaining / unitMult
    let fract := if remaining ≥ 1000 then 9 else remaining / 100
    (snprintf buf bufSize ['%', '3', 'l', 'u', '.', '%', 'l', 'u', ' ', '%', 's']
      [.word (BitVec.ofNat 64 numUnits), .word (BitVec.ofNat 64 fract),
        .str (units.getD unitIndex [])]).map Prod.fst

/-! ## Reading the text -/

def unitSize (name : List Char) : Option Nat := (units.idxOf? name).map fun index => 1024 ^ index

/-- The whole number, the digit after the point if there is one, and the size of the unit. -/
def readHuman (text : List Char) : Option (Nat × Option Nat × Nat) :=
  let text := text.dropWhile (· = ' ')
  let whole := Nat.ofDigitChars 10 (text.takeWhile Char.isDigit) 0
  match text.dropWhile Char.isDigit with
  | ' ' :: name => (unitSize name).map fun size => (whole, none, size)
  | '.' :: tenth :: ' ' :: name =>
      (unitSize name).map fun size => (whole, some (tenth.toNat - '0'.toNat), size)
  | _ => none

/-- A whole number is rounded down, one with a decimal is less than a tenth of a unit off. -/
def AccurateText (bytes : Nat) (text : List Char) : Prop :=
  match readHuman text with
  | some (whole, none, size) => whole * size ≤ bytes ∧ bytes < (whole + 1) * size
  | some (whole, some tenth, size) =>
      (((10 * whole + tenth) * size : Nat) - (10 * bytes : Nat) : Int).natAbs < size
  | none => False

section Reading

variable (count value : Nat) {next : Char} (rest : List Char)

theorem toDigits_isDigit : ∀ chr ∈ Nat.toDigits 10 value, chr.isDigit = true := fun _ member =>
  Nat.isDigit_of_mem_toDigits (by decide) (by decide) member

theorem dropWhile_spaces :
    (List.replicate count ' ' ++ Nat.toDigits 10 value ++ rest).dropWhile (· = ' ') =
      Nat.toDigits 10 value ++ rest := by
  obtain ⟨first, digits, split⟩ := List.exists_cons_of_ne_nil (Nat.toDigits_ne_nil (n := value) (b := 10))
  have isDigit := toDigits_isDigit value first (by rw [split]; exact .head _)
  have notSpace : first ≠ ' ' := by
    rintro rfl
    exact absurd isDigit (by decide)
  rw [List.append_assoc, List.dropWhile_append_of_pos, split, List.cons_append,
    List.dropWhile_cons_of_neg (by simpa using notSpace)]
  intro chr member
  simpa using List.eq_of_mem_replicate member

theorem takeWhile_digits (noDigit : next.isDigit = false) :
    (Nat.toDigits 10 value ++ next :: rest).takeWhile Char.isDigit = Nat.toDigits 10 value := by
  rw [List.takeWhile_append_of_pos (toDigits_isDigit value),
    List.takeWhile_cons_of_neg (by simp [noDigit]), List.append_nil]

theorem dropWhile_digits (noDigit : next.isDigit = false) :
    (Nat.toDigits 10 value ++ next :: rest).dropWhile Char.isDigit = next :: rest := by
  rw [List.dropWhile_append_of_pos (toDigits_isDigit value),
    List.dropWhile_cons_of_neg (by simp [noDigit])]

end Reading

theorem readHuman_whole (count value : Nat) {name : List Char} {size : Nat}
    (known : unitSize name = some size) :
    readHuman (List.replicate count ' ' ++ Nat.toDigits 10 value ++ ' ' :: name) =
      some (value, none, size) := by
  simp only [readHuman, dropWhile_spaces, takeWhile_digits value name (by decide : ' '.isDigit = false),
    dropWhile_digits value name (by decide : ' '.isDigit = false),
    Nat.ofDigitChars_toDigits (by decide : 1 < 10) (Nat.le_refl 10), known, Option.map_some]

theorem readHuman_tenth (count value : Nat) {tenth : Nat} (digit : tenth < 10) {name : List Char}
    {size : Nat} (known : unitSize name = some size) :
    readHuman (List.replicate count ' ' ++ Nat.toDigits 10 value ++
        '.' :: (Nat.toDigits 10 tenth ++ ' ' :: name)) = some (value, some tenth, size) := by
  have point : '.'.isDigit = false := by decide
  have read : tenth.digitChar.toNat - '0'.toNat = tenth :=
    Nat.toNat_digitChar_sub_48_of_lt_ten digit
  rw [Nat.toDigits_of_lt_base digit, List.singleton_append]
  simp only [readHuman, dropWhile_spaces, takeWhile_digits value _ point,
    dropWhile_digits value _ point, Nat.ofDigitChars_toDigits (by decide : 1 < 10) (Nat.le_refl 10),
    known, Option.map_some, read]

/-! ## The unit -/

theorem unitFrom_found {remaining bytes : Nat} (bound : bytes < 1024 ^ (remaining + 1))
    (i unitMult : Nat) :
    ∃ steps ≤ remaining, bytes / 1024 ^ steps < 1024 ∧
      unitFrom (remaining + 1) i bytes unitMult =
        (i + steps, bytes / 1024 ^ steps, unitMult * 1024 ^ steps) := by
  induction remaining generalizing i bytes unitMult with
  | zero =>
      have small : bytes < 1024 := by simpa using bound
      refine ⟨0, Nat.le_refl _, by simpa using small, ?_⟩
      rw [unitFrom, if_pos small, Nat.pow_zero, Nat.div_one, Nat.mul_one, Nat.add_zero]
  | succ remaining ih =>
      rw [unitFrom]
      by_cases small : bytes < 1024
      · refine ⟨0, Nat.zero_le _, by simpa using small, ?_⟩
        rw [if_pos small, Nat.pow_zero, Nat.div_one, Nat.mul_one, Nat.add_zero]
      · have fewer : bytes / 1024 < 1024 ^ (remaining + 1) :=
          Nat.div_lt_of_lt_mul (by rwa [← Nat.pow_succ'])
        obtain ⟨steps, within, last, found⟩ := ih fewer (i + 1) (unitMult * 1024)
        rw [Nat.div_div_eq_div_mul, ← Nat.pow_succ'] at last found
        refine ⟨steps + 1, Nat.succ_le_succ within, last, ?_⟩
        rw [if_neg small, found, Nat.mul_assoc, ← Nat.pow_succ', Nat.add_right_comm]
        rfl

theorem unitFrom_exhausted {remaining bytes : Nat} (bound : 1024 ^ remaining ≤ bytes)
    (i unitMult : Nat) :
    unitFrom remaining i bytes unitMult =
      (0, bytes / 1024 ^ remaining, unitMult * 1024 ^ remaining) := by
  induction remaining generalizing i bytes unitMult with
  | zero => rw [unitFrom, Nat.pow_zero, Nat.div_one, Nat.mul_one]
  | succ remaining ih =>
      have large : ¬bytes < 1024 := by
        have positive : 0 < 1024 ^ remaining := Nat.pow_pos (by decide)
        rw [Nat.pow_succ] at bound
        omega
      have fewer : 1024 ^ remaining ≤ bytes / 1024 := by
        rwa [Nat.le_div_iff_mul_le (by decide), ← Nat.pow_succ]
      rw [unitFrom, if_neg large, ih fewer, Nat.div_div_eq_div_mul, Nat.mul_assoc,
        ← Nat.pow_succ']

/-! ## The text -/

def unsignedPiece (width : List (Fin 10)) (value : Nat) : Piece :=
  .number ⟨.none, width, true⟩ .u (BitVec.ofNat 64 value)

def stringPiece (unit : List Char) : Piece := .string ⟨.none, [], false⟩ unit

theorem render_unsignedPiece (width : List (Fin 10)) {value : Nat} (bound : value < 2 ^ 64) :
    (unsignedPiece width value).render =
      List.replicate (readDigits 0 width - (Nat.toDigits 10 value).length) ' ' ++
        Nat.toDigits 10 value := by
  have shown : Numeral.u.value true (BitVec.ofNat 64 value) = value := by
    simp only [Numeral.value, if_true, BitVec.toNat_ofNat, Nat.mod_eq_of_lt bound]
  have unsigned : ¬(value : Int) < 0 := by omega
  simp only [unsignedPiece, Piece.render, shown, Int.natAbs_natCast, unsigned, if_false,
    Options.pad, List.nil_append, List.append_nil, Options.widthValue, Numeral.base]

theorem render_literal (chr : Char) : (Piece.literal chr).render = [chr] := rfl

theorem unit_text {unit : List Char} (known : unit ∈ units) : cString unit = unit := by
  have all : ∀ unit ∈ units, cString unit = unit := by decide
  exact all unit known

theorem unit_length {unit : List Char} (known : unit ∈ units) : unit.length ≤ 5 := by
  have all : ∀ unit ∈ units, unit.length ≤ 5 := by decide
  exact all unit known

theorem render_stringPiece {unit : List Char} (known : unit ∈ units) :
    (stringPiece unit).render = unit := by
  simp only [stringPiece, Piece.render, Options.padString, unit_text known, Options.widthValue,
    readDigits, List.foldl_nil, Nat.zero_sub, List.replicate_zero, List.nil_append]

theorem stringPiece_fits {unit : List Char} (known : unit ∈ units) : (stringPiece unit).Fits := by
  have short := unit_length known
  intro overpadded
  have long := overpadded.1
  rw [strlen, unit_text known] at long
  omega

theorem emitted_whole {numUnits : Nat} (bound : numUnits < 2 ^ 64) {unit : List Char}
    (known : unit ∈ units) :
    emitted ['%', '5', 'l', 'u', ' ', '%', 's'] [.word (BitVec.ofNat 64 numUnits), .str unit] =
      some (List.replicate (5 - (Nat.toDigits 10 numUnits).length) ' ' ++
        Nat.toDigits 10 numUnits ++ ' ' :: unit) := by
  have valid : ∀ piece ∈ [unsignedPiece [5] numUnits, .literal ' ', stringPiece unit],
      piece.Valid := by
    simp only [List.forall_mem_cons]
    exact ⟨⟨by decide, by decide⟩, ⟨by decide, by decide⟩, ⟨by decide, by decide⟩, nofun⟩
  have fits : ∀ piece ∈ [unsignedPiece [5] numUnits, .literal ' ', stringPiece unit],
      piece.Fits := by
    simp only [List.forall_mem_cons]
    exact ⟨trivial, trivial, stringPiece_fits known, nofun⟩
  refine ((emitted_iff _ valid []).mpr fits).trans (congrArg some ?_)
  simp only [List.flatMap_cons, List.flatMap_nil, render_unsignedPiece [5] bound,
    render_stringPiece known, render_literal, List.append_nil, List.singleton_append]
  rfl

theorem emitted_tenth {numUnits fract : Nat} (bound : numUnits < 2 ^ 64) (digit : fract < 10)
    {unit : List Char} (known : unit ∈ units) :
    emitted ['%', '3', 'l', 'u', '.', '%', 'l', 'u', ' ', '%', 's']
        [.word (BitVec.ofNat 64 numUnits), .word (BitVec.ofNat 64 fract), .str unit] =
      some (List.replicate (3 - (Nat.toDigits 10 numUnits).length) ' ' ++
        Nat.toDigits 10 numUnits ++ '.' :: (Nat.toDigits 10 fract ++ ' ' :: unit)) := by
  have valid : ∀ piece ∈ [unsignedPiece [3] numUnits, .literal '.', unsignedPiece [] fract,
      .literal ' ', stringPiece unit], piece.Valid := by
    simp only [List.forall_mem_cons]
    exact ⟨⟨by decide, by decide⟩, ⟨by decide, by decide⟩, ⟨by decide, by decide⟩,
      ⟨by decide, by decide⟩, ⟨by decide, by decide⟩, nofun⟩
  have fits : ∀ piece ∈ [unsignedPiece [3] numUnits, .literal '.', unsignedPiece [] fract,
      .literal ' ', stringPiece unit], piece.Fits := by
    simp only [List.forall_mem_cons]
    exact ⟨trivial, trivial, trivial, trivial, stringPiece_fits known, nofun⟩
  have small : fract < 2 ^ 64 := by omega
  have unpadded : readDigits 0 [] - (Nat.toDigits 10 fract).length = 0 := Nat.zero_sub _
  refine ((emitted_iff _ valid []).mpr fits).trans (congrArg some ?_)
  simp only [List.flatMap_cons, List.flatMap_nil, render_unsignedPiece [3] bound,
    render_unsignedPiece [] small, render_stringPiece known, render_literal, List.append_nil,
    List.singleton_append, unpadded, List.replicate_zero, List.nil_append]
  rfl

/-! ## What stands in the buffer -/

structure HoldsString (buf : Nat → Char) (text : List Char) : Prop where
  chars : written buf text.length = text
  ends : buf text.length = '\x00'
  free : ∀ chr ∈ text, chr ≠ '\x00'

theorem HoldsString.not_shorter {buf : Nat → Char} {text other : List Char}
    (holds : HoldsString buf text) (holds' : HoldsString buf other) :
    ¬text.length < other.length := by
  intro shorter
  have inside : buf text.length ∈ written buf other.length :=
    List.mem_map_of_mem (List.mem_range.mpr shorter)
  rw [holds'.chars] at inside
  exact holds'.free _ inside holds.ends

theorem HoldsString.unique {buf : Nat → Char} {text other : List Char}
    (holds : HoldsString buf text) (holds' : HoldsString buf other) : text = other := by
  have length : text.length = other.length :=
    Nat.le_antisymm (Nat.le_of_not_lt (holds'.not_shorter holds))
      (Nat.le_of_not_lt (holds.not_shorter holds'))
  rw [← holds.chars, length, holds'.chars]

def AccurateCall (bytes : Nat) (buf : Nat → Char) (bufSize : Nat) : Prop :=
  ∃ after text, bytesToHuman bytes buf bufSize = some after ∧ HoldsString after text ∧
    AccurateText bytes text

theorem snprintf_holds {fmt text : List Char} {args : List Arg}
    (emits : emitted fmt args = some text) (short : text.length ≤ 11)
    (free : ∀ chr ∈ text, chr ≠ '\x00') (buf : Nat → Char) {n : Nat} (large : 12 ≤ n) :
    ∃ after, (snprintf buf n fmt args).map Prod.fst = some after ∧ HoldsString after text := by
  obtain ⟨after, returned, shown, ends, _⟩ :=
    vsnprintf_writes (by omega : 0 < n) buf emits (by omega)
  rw [Nat.min_eq_left (by omega)] at shown ends
  rw [List.take_of_length_le (by omega)] at shown
  exact ⟨after, by rw [snprintf, returned, Option.map_some], shown, ends, free⟩

theorem accurateCall_iff {bytes bufSize : Nat} {buf after : Nat → Char} {text : List Char}
    (returned : bytesToHuman bytes buf bufSize = some after) (holds : HoldsString after text) :
    AccurateCall bytes buf bufSize ↔ AccurateText bytes text := by
  constructor
  · rintro ⟨other, shown, returned', holds', accurate⟩
    cases returned.symm.trans returned'
    rwa [holds.unique holds']
  · intro accurate
    exact ⟨after, text, returned, holds, accurate⟩

theorem unit_free {unit : List Char} (known : unit ∈ units) : ∀ chr ∈ unit, chr ≠ '\x00' := by
  have all : ∀ unit ∈ units, ∀ chr ∈ unit, chr ≠ '\x00' := by simp [units]
  exact all unit known

theorem field_free (count value : Nat) {rest : List Char} (free : ∀ chr ∈ rest, chr ≠ '\x00') :
    ∀ chr ∈ List.replicate count ' ' ++ Nat.toDigits 10 value ++ rest, chr ≠ '\x00' := by
  intro chr member
  rcases List.mem_append.mp member with before | after
  · rcases List.mem_append.mp before with space | digit
    · rw [List.eq_of_mem_replicate space]
      decide
    · exact toDigits_ne_nul (by decide) value chr digit
  · exact free chr after

theorem field_length {width value : Nat} (few : (Nat.toDigits 10 value).length ≤ 5)
    (narrow : width ≤ 5) (rest : List Char) :
    (List.replicate (width - (Nat.toDigits 10 value).length) ' ' ++ Nat.toDigits 10 value ++
      rest).length ≤ 5 + rest.length := by
  rw [List.length_append, List.length_append, List.length_replicate]
  omega

theorem getD_mem_units {unitIndex : Nat} (known : unitIndex < 5) :
    units.getD unitIndex [] ∈ units ∧
      unitSize (units.getD unitIndex []) = some (1024 ^ unitIndex) := by
  have all : ∀ index < 5, units.getD index [] ∈ units ∧
      unitSize (units.getD index []) = some (1024 ^ index) := by decide
  exact all unitIndex known

theorem whole_accurate_iff {bytes unitIndex numUnits unitMult bufSize : Nat} (buf : Nat → Char)
    (found : unitFrom units.length 0 bytes 1 = (unitIndex, numUnits, unitMult))
    (known : unitIndex < 5) (few : numUnits < 10 ^ 5) (large : 12 ≤ bufSize)
    (whole : unitIndex < 3 ∨ bytes % unitMult = 0) :
    AccurateCall bytes buf bufSize ↔
      numUnits * 1024 ^ unitIndex ≤ bytes ∧ bytes < (numUnits + 1) * 1024 ^ unitIndex := by
  obtain ⟨member, size⟩ := getD_mem_units known
  have digits : (Nat.toDigits 10 numUnits).length ≤ 5 :=
    (Nat.length_toDigits_le_iff (by decide) (by decide)).mpr few
  have name := unit_length member
  have short := field_length digits (Nat.le_refl 5) (' ' :: units.getD unitIndex [])
  have free : ∀ chr ∈ ' ' :: units.getD unitIndex [], chr ≠ '\x00' :=
    List.forall_mem_cons.mpr ⟨by decide, unit_free member⟩
  rw [List.length_cons] at short
  obtain ⟨after, returned, holds⟩ := snprintf_holds
    (emitted_whole (by omega : numUnits < 2 ^ 64) member) (by omega) (field_free _ _ free) buf large
  have call : bytesToHuman bytes buf bufSize = some after := by
    simp only [bytesToHuman, found, if_pos whole, returned]
  rw [accurateCall_iff call holds, AccurateText, readHuman_whole _ _ size]

theorem tenth_accurate_iff {bytes unitIndex numUnits unitMult bufSize : Nat}
    (buf : Nat → Char) (found : unitFrom units.length 0 bytes 1 = (unitIndex, numUnits, unitMult))
    (known : unitIndex < 5) (few : numUnits < 10 ^ 5) (large : 12 ≤ bufSize)
    (partly : ¬(unitIndex < 3 ∨ bytes % unitMult = 0)) {remaining fract : Nat}
    (rest : remaining = (bytes - numUnits * unitMult) * 1024 / unitMult)
    (small : remaining < 1024)
    (shown : fract = if remaining ≥ 1000 then 9 else remaining / 100) :
    AccurateCall bytes buf bufSize ↔
      (((10 * numUnits + fract) * 1024 ^ unitIndex : Nat) - (10 * bytes : Nat) : Int).natAbs <
        1024 ^ unitIndex := by
  obtain ⟨member, size⟩ := getD_mem_units known
  have digit : fract < 10 := by
    rw [shown]
    split <;> omega
  have name : (units.getD unitIndex []).length ≤ 3 := by
    have all : ∀ index < 5, ¬index < 3 → (units.getD index []).length ≤ 3 := by decide
    exact all unitIndex known fun low => partly (.inl low)
  have digits : (Nat.toDigits 10 numUnits).length ≤ 5 :=
    (Nat.length_toDigits_le_iff (by decide) (by decide)).mpr few
  have one : (Nat.toDigits 10 fract).length ≤ 1 :=
    (Nat.length_toDigits_le_iff (by decide) (by decide)).mpr digit
  have short := field_length digits (by decide : 3 ≤ 5)
    ('.' :: (Nat.toDigits 10 fract ++ ' ' :: units.getD unitIndex []))
  have tail : ('.' :: (Nat.toDigits 10 fract ++ ' ' :: units.getD unitIndex [])).length ≤ 6 := by
    rw [List.length_cons, List.length_append, List.length_cons]
    omega
  have free : ∀ chr ∈ '.' :: (Nat.toDigits 10 fract ++ ' ' :: units.getD unitIndex []),
      chr ≠ '\x00' := by
    refine List.forall_mem_cons.mpr ⟨by decide, List.forall_mem_append.mpr ⟨?_, ?_⟩⟩
    · exact toDigits_ne_nul (by decide) fract
    · exact List.forall_mem_cons.mpr ⟨by decide, unit_free member⟩
  obtain ⟨after, returned, holds⟩ := snprintf_holds
    (emitted_tenth (by omega : numUnits < 2 ^ 64) digit member) (by omega) (field_free _ _ free) buf
    large
  have call : bytesToHuman bytes buf bufSize = some after := by
    simp only [bytesToHuman, found, if_neg partly, ← rest, ← shown, returned]
  rw [accurateCall_iff call holds, AccurateText, readHuman_tenth _ _ digit size]

/-- A thousandth is taken for a 1024th, which costs less than a tenth. -/
theorem tenth_close {part unit remaining fract : Nat} (below : part < unit)
    (rest : remaining = part * 1024 / unit)
    (shown : fract = if remaining ≥ 1000 then 9 else remaining / 100) :
    10 * part < fract * unit + unit ∧ fract * unit < 10 * part + unit := by
  have positive : 0 < unit := Nat.zero_lt_of_lt below
  have low : remaining * unit ≤ part * 1024 := by
    rw [rest]
    exact Nat.div_mul_le_self _ _
  have high : part * 1024 < (remaining + 1) * unit := by
    rw [rest]
    exact Nat.lt_mul_of_div_lt (Nat.lt_succ_self _) positive
  rw [shown]
  split
  · rename_i nearly
    have most : 1000 * unit ≤ remaining * unit := Nat.mul_le_mul_right _ nearly
    omega
  · have floor : 100 * (remaining / 100) * unit ≤ remaining * unit :=
      Nat.mul_le_mul_right _ (by omega)
    have ceiling : (remaining + 1) * unit ≤ (100 * (remaining / 100) + 100) * unit :=
      Nat.mul_le_mul_right _ (by omega)
    rw [Nat.add_mul (100 * _)] at ceiling
    rw [Nat.mul_assoc] at floor ceiling
    omega

/-- The unit is lost once there are 1024 of the largest. -/
theorem bytesToHuman_accurate_iff {bytes bufSize : Nat} (word : bytes < 2 ^ 64) (buf : Nat → Char)
    (large : 12 ≤ bufSize) : AccurateCall bytes buf bufSize ↔ bytes < 2 ^ 50 := by
  by_cases bound : bytes < 1024 ^ (4 + 1)
  · obtain ⟨steps, within, few, found⟩ := unitFrom_found bound 0 1
    rw [Nat.zero_add, Nat.one_mul] at found
    have positive : 0 < 1024 ^ steps := Nat.pow_pos (by decide)
    have low : bytes / 1024 ^ steps * 1024 ^ steps ≤ bytes := Nat.div_mul_le_self _ _
    have high : bytes < bytes / 1024 ^ steps * 1024 ^ steps + 1024 ^ steps :=
      Nat.lt_div_mul_add positive
    refine iff_of_true ?_ bound
    by_cases whole : steps < 3 ∨ bytes % 1024 ^ steps = 0
    · rw [whole_accurate_iff buf found (by omega) (by omega) large whole, Nat.add_mul, Nat.one_mul]
      exact ⟨low, high⟩
    · have below : bytes - bytes / 1024 ^ steps * 1024 ^ steps < 1024 ^ steps := by omega
      have rest : (bytes - bytes / 1024 ^ steps * 1024 ^ steps) * 1024 / 1024 ^ steps < 1024 := by
        rw [Nat.div_lt_iff_lt_mul positive]
        omega
      have close := tenth_close below rfl rfl
      rw [tenth_accurate_iff buf found (by omega) (by omega) large whole rfl rest rfl,
        Nat.add_mul, Nat.mul_assoc]
      omega
  · have found := unitFrom_exhausted (Nat.le_of_not_lt bound) 0 1
    have many : 0 < bytes / 1024 ^ 5 := Nat.div_pos (Nat.le_of_not_lt bound) (by decide)
    have few : bytes / 1024 ^ 5 < 10 ^ 5 := by omega
    rw [whole_accurate_iff buf found (by decide) few large (.inl (by decide))]
    refine iff_of_false ?_ bound
    omega

theorem bytesToHuman_accurate_gib : AccurateCall 1610612736 (fun _ => 'x') 16 :=
  (bytesToHuman_accurate_iff (by decide) (fun _ => 'x') (by decide)).mpr (by decide)

theorem bytesToHuman_pib :
    (∃ after, bytesToHuman (2 ^ 50) (fun _ => 'x') 16 = some after ∧
      HoldsString after [' ', ' ', ' ', ' ', '1', ' ', 'b', 'y', 't', 'e', 's']) ∧
    ¬AccurateCall (2 ^ 50) (fun _ => 'x') 16 := by
  have found : unitFrom units.length 0 (2 ^ 50) 1 = (0, 1, 2 ^ 50) := by decide
  have emits : emitted ['%', '5', 'l', 'u', ' ', '%', 's'] [.word 1, .str (units.getD 0 [])] =
      some [' ', ' ', ' ', ' ', '1', ' ', 'b', 'y', 't', 'e', 's'] := by
    decide +kernel
  obtain ⟨after, returned, holds⟩ :=
    snprintf_holds emits (by decide) (by simp) (fun _ => 'x') (by decide : 12 ≤ 16)
  refine ⟨⟨after, ?_, holds⟩, ?_⟩
  · simp only [bytesToHuman, found, if_pos (.inl (by decide) : 0 < 3 ∨ 2 ^ 50 % 2 ^ 50 = 0)]
    exact returned
  · rw [whole_accurate_iff _ found (by decide) (by decide) (by decide) (.inl (by decide))]
    omega

end Zeptux.Format
