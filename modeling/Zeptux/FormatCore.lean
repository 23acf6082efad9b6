import Zeptux.Common

/-!
The format engine of `lib/format.c`. Its functions reach their output only through
`_vsnprintf_putc`, so they are written over an arbitrary sink `putc`; `vsnprintf`
instantiates it with the bounded buffer. A `const char *` is the list of characters from
the pointer on, the end of the list being the terminator.
-/

namespace Zeptux.Format

open Word

/-- What `va_arg` takes from the list; an integer comes in a 64-bit slot. -/
inductive Arg
  | word (val : BitVec 64)
  | str (text : List Char)

def vaWord : List Arg → Option (BitVec 64 × List Arg)
  | .word val :: args => some (val, args)
  | _ => none

def vaStr : List Arg → Option (List Char × List Arg)
  | .str text :: args => some (text, args)
  | _ => none

structure VsnprintfFormat where
  base : Nat
  neg : Bool
  padChar : Char
  padCount : Int
  padLeft : Bool

def digits : List Char :=
  ['0', '1', '2', '3', '4', '5', '6', '7', '8', '9', 'a', 'b', 'c', 'd', 'e', 'f']

def cString (str : List Char) : List Char := str.takeWhile (· ≠ '\x00')

def strlen (str : List Char) : Nat := (cString str).length

section Sink

variable {σ : Type} (putc : σ → Char → σ)

def putcRepeatFrom (chr : Char) : Nat → σ → σ
  | 0, state => state
  | remaining + 1, state => putcRepeatFrom chr remaining (putc state chr)

def putcRepeat (state : σ) (chr : Char) (n : Int) : σ := putcRepeatFrom putc chr n.toNat state

def puts : σ → List Char → σ
  | state, [] => state
  | state, chr :: str => if chr = '\x00' then state else puts (putc state chr) str

def putsFormat (state : σ) (str : List Char) (format : VsnprintfFormat) : σ :=
  let state := if format.padLeft then puts putc state str else state
  let len := strlen str
  let state :=
    if format.padCount > toInt32 len then
      -- An `int` less a `size_t`, passed on as an `int`.
      putcRepeat putc state ' ' (toInt32 (format.padCount - len))
    else state
  if format.padLeft then state else puts putc state str

/-- The loop that fills `val_buf` from its end; a 64-bit value has at most 64 digits. -/
def fillDigits (base : Nat) : Nat → Nat → List Char → List Char
  | 0, _, valBuf => valBuf
  | rounds + 1, val, valBuf =>
      if val > 0 then
        fillDigits base rounds (val / base) (digits.getD (val % base) '\x00' :: valBuf)
      else valBuf

def putUint64 (state : σ) (val : Nat) (format : VsnprintfFormat) : σ :=
  let valBuf := if val = 0 then ['0'] else fillDigits format.base 64 val []
  let zeroPadded := format.neg ∧ format.padChar = '0'
  let padCount := if zeroPadded then toInt32 (format.padCount - 1) else format.padCount
  let state := if zeroPadded then putc state '-' else state
  let valBuf := if ¬zeroPadded ∧ format.neg then '-' :: valBuf else valBuf
  let state := if format.padLeft then puts putc state valBuf else state
  let charsOutput : Int := valBuf.length
  let state :=
    if padCount > charsOutput then putcRepeat putc state format.padChar (padCount - charsOutput)
    else state
  if format.padLeft then state else puts putc state valBuf

def putInt64 (state : σ) (val : BitVec 64) (format : VsnprintfFormat) : σ :=
  if val.toInt < 0 then putUint64 putc state (-val).toNat { format with neg := true }
  else putUint64 putc state val.toNat format

/-- `*fmt++`. -/
def nextChar : List Char → Char × List Char
  | [] => ('\x00', [])
  | chr :: fmt => (chr, fmt)

def digitValue (chr : Char) : Int := (chr.toNat : Int) - '0'.toNat

def addDigit (padCount : Int) (chr : Char) : Int :=
  toInt32 (toInt32 (padCount * 10) + digitValue chr)

def parseWidth (padCount : Int) (chr : Char) : List Char → Int × Char × List Char
  | [] =>
      if '0' ≤ chr ∧ chr ≤ '9' then (addDigit padCount chr, '\x00', [])
      else (padCount, chr, [])
  | next :: fmt =>
      if '0' ≤ chr ∧ chr ≤ '9' then parseWidth (addDigit padCount chr) next fmt
      else (padCount, chr, next :: fmt)

/-- The options after a `%`: the format, whether the value is 64 bits wide, the
conversion character and what follows it. -/
def parseOptions (fmt : List Char) : VsnprintfFormat × Bool × Char × List Char :=
  let (chr, fmt) := nextChar fmt
  let padLeft := chr == '-'
  let (chr, fmt) := if padLeft then nextChar fmt else (chr, fmt)
  let padded := !padLeft && (chr == '0' || chr == ' ')
  let padChar := if padded then chr else ' '
  let (chr, fmt) := if padded then nextChar fmt else (chr, fmt)
  let (padCount, chr, fmt) := parseWidth 0 chr fmt
  let is64 := chr == 'l' || chr == 'L'
  let (chr, fmt) := if is64 then nextChar fmt else (chr, fmt)
  (⟨10, false, padChar, padCount, padLeft⟩, is64, chr, fmt)

def formatError : List Char :=
  ['%', 'f', 'o', 'r', 'm', 'a', 't', ' ', 'e', 'r', 'r', 'o', 'r', '%']

/-- The `switch` over the conversion character; `none` where the argument is missing or
is not of the type that the conversion takes. -/
def convert (state : σ) (format : VsnprintfFormat) (is64 : Bool) (chr : Char)
    (args : List Arg) : Option (σ × List Arg) :=
  if chr = 'D' ∨ chr = 'd' then do
    let (val, args) ← vaWord args
    let val := if is64 then val else (val.truncate 32).signExtend 64
    return (putInt64 putc state val format, args)
  else if chr = 'U' ∨ chr = 'u' then do
    let (val, args) ← vaWord args
    let val := if is64 then val.toNat else val.toNat % 2 ^ 32
    return (putUint64 putc state val format, args)
  else if chr = 'P' ∨ chr = 'p' ∨ chr = 'X' ∨ chr = 'x' then do
    let is64 := is64 || chr == 'P' || chr == 'p'
    let (val, args) ← vaWord args
    let val := if is64 then val.toNat else val.toNat % 2 ^ 32
    return (putUint64 putc state val { format with base := 16 }, args)
  else if chr = 'S' ∨ chr = 's' then do
    let (str, args) ← vaStr args
    return (putsFormat putc state str format, args)
  else if chr = '%' then return (putc state '%', args)
  else return (puts putc state formatError, args)

/-- Each round takes at least one character, so the length of `fmt` is enough rounds. -/
def formatFrom : Nat → σ → List Char → List Arg → Option σ
  | 0, state, _, _ => some state
  | _ + 1, state, [], _ => some state
  | rounds + 1, state, chr :: fmt, args =>
      if chr = '\x00' then some state
      else if chr ≠ '%' then formatFrom rounds (putc state chr) fmt args
      else
        let (format, is64, chr, fmt) := parseOptions fmt
        if chr = '\x00' then some state
        else do
          let (state, args) ← convert putc state format is64 chr args
          formatFrom rounds state fmt args

end Sink

structure VsnprintfState where
  buf : Nat → Char
  n : Nat
  count : Nat

def VsnprintfState.setBuf (state : VsnprintfState) (index : Nat) (chr : Char) : VsnprintfState :=
  { state with buf := Function.update state.buf index chr }

def VsnprintfState.putc (state : VsnprintfState) (chr : Char) : VsnprintfState :=
  let written := if state.count < state.n - 1 then state.setBuf state.count chr else state
  { written with count := state.count + 1 }

def vsnprintf (buf : Nat → Char) (n : Nat) (fmt : List Char) (args : List Arg) :
    Option ((Nat → Char) × Int) :=
  if n = 0 then some (buf, 0)
  else do
    let state ← formatFrom VsnprintfState.putc fmt.length ⟨buf, n, 0⟩ fmt args
    let offset := if state.count < state.n - 1 then state.count else state.n - 1
    return ((state.setBuf offset '\x00').buf, toInt32 state.count)

end Zeptux.Format
