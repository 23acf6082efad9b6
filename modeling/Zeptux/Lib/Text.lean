import Mathlib.Data.List.Basic

/-!
Byte strings with the operations of Go's `strings` and `path` packages. A string is the
list of its bytes, whether or not they are valid UTF-8.
-/

namespace Strings

abbrev Text := List UInt8

instance : LawfulBEq Text := inferInstance

def lit (str : String) : Text := str.toList.map Char.toUInt8

def hasPrefix (str start : Text) : Bool := start.isPrefixOf str

def hasSuffix (str finish : Text) : Bool := finish.isSuffixOf str

/-- `string(chr)` of a byte is the UTF-8 encoding of the code point with that number. -/
def ofByte (chr : UInt8) : Text :=
  if chr < 128 then [chr] else [(192 : UInt8) ||| (chr >>> 6), (128 : UInt8) ||| (chr &&& 63)]

/-- The parts before and after the first `sep`, which is not empty:
`strings.SplitN(str, sep, 2)`. -/
def cut (sep : Text) : Text → Option (Text × Text)
  | [] => none
  | chr :: rest =>
      if hasPrefix (chr :: rest) sep then some ([], (chr :: rest).drop sep.length)
      else (cut sep rest).map fun parts => (chr :: parts.1, parts.2)

def contains (str sub : Text) : Bool := (cut sub str).isSome

/-- `strings.Split` for a nonempty separator; `skip` bytes of one are still to be passed. -/
def splitFrom (sep : Text) : Nat → Text → Text → List Text
  | _, part, [] => [part]
  | skip + 1, part, _ :: rest => splitFrom sep skip part rest
  | 0, part, chr :: rest =>
      if hasPrefix (chr :: rest) sep then part :: splitFrom sep (sep.length - 1) [] rest
      else splitFrom sep 0 (part ++ [chr]) rest

def split (str sep : Text) : List Text := splitFrom sep 0 [] str

def join (sep : Text) (parts : List Text) : Text := sep.intercalate parts

/-- The encodings of the code points `unicode.IsSpace` holds of. -/
def spaces : List Text :=
  [[9], [10], [11], [12], [13], [32], [0xC2, 0x85], [0xC2, 0xA0], [0xE1, 0x9A, 0x80]] ++
    (List.range 11).map (fun last => [0xE2, 0x80, 0x80 + UInt8.ofNat last]) ++
    [[0xE2, 0x80, 0xA8], [0xE2, 0x80, 0xA9], [0xE2, 0x80, 0xAF], [0xE2, 0x81, 0x9F],
      [0xE3, 0x80, 0x80]]

/-- The bytes taken by the space `str` starts with. No byte that starts one of `spaces` occurs
inside an encoding, so a decoder meets each of them where it stands. -/
def spaceLength (str : Text) : Option Nat := (spaces.find? (hasPrefix str ·)).map List.length

def trimLeft : Nat → Text → Text
  | _, [] => []
  | skip + 1, _ :: rest => trimLeft skip rest
  | 0, chr :: rest =>
      match spaceLength (chr :: rest) with
      | none => chr :: rest
      | some length => trimLeft (length - 1) rest

/-- The last of a reversed text's spaces, as `spaceLength` for its first. -/
def spaceLengthReversed (str : Text) : Option Nat :=
  (spaces.find? (hasPrefix str ·.reverse)).map List.length

def trimRightReversed : Nat → Text → Text
  | _, [] => []
  | skip + 1, _ :: rest => trimRightReversed skip rest
  | 0, chr :: rest =>
      match spaceLengthReversed (chr :: rest) with
      | none => chr :: rest
      | some length => trimRightReversed (length - 1) rest

def trimSpace (str : Text) : Text := (trimRightReversed 0 (trimLeft 0 str).reverse).reverse

/-- `strings.Fields`, with the field being read. -/
def fieldsFrom : Nat → Text → Text → List Text
  | _, field, [] => if field = [] then [] else [field]
  | skip + 1, field, _ :: rest => fieldsFrom skip field rest
  | 0, field, chr :: rest =>
      match spaceLength (chr :: rest) with
      | none => fieldsFrom 0 (field ++ [chr]) rest
      | some length =>
          if field = [] then fieldsFrom (length - 1) [] rest
          else field :: fieldsFrom (length - 1) [] rest

def fields (str : Text) : List Text := fieldsFrom 0 [] str

section Path

def slash : UInt8 := '/'.toUInt8
def dot : UInt8 := '.'.toUInt8

/-- The elements kept so far, innermost first, when one more is read. -/
def cleanElement (rooted : Bool) (kept : List Text) (element : Text) : List Text :=
  if element = [] ∨ element = lit "." then kept
  else if element = lit ".." then
    match kept with
    | [] => if rooted then [] else [element]
    | last :: outer => if last = lit ".." then element :: kept else outer
  else element :: kept

def clean (path : Text) : Text :=
  let rooted := hasPrefix path [slash]
  let kept := (split path [slash]).foldl (cleanElement rooted) []
  let cleaned := (if rooted then [slash] else []) ++ join [slash] kept.reverse
  if cleaned = [] then lit "." else cleaned

/-- `path.Join` of two elements. -/
def joinPath (dir name : Text) : Text :=
  if dir = [] then if name = [] then [] else clean name
  else clean (dir ++ [slash] ++ name)

/-- The extension with its dot, read backwards from the end of the last element. -/
def extReversed : Text → Text → Text
  | _, [] => []
  | seen, chr :: rest =>
      if chr = slash then [] else if chr = dot then chr :: seen else extReversed (chr :: seen) rest

def ext (path : Text) : Text := extReversed [] path.reverse

def base (path : Text) : Text :=
  if path = [] then lit "."
  else
    let last := ((path.reverse.dropWhile (· = slash)).takeWhile (· ≠ slash)).reverse
    if last = [] then [slash] else last

def dirname (path : Text) : Text := clean (path.reverse.dropWhile (· ≠ slash)).reverse

end Path

end Strings
