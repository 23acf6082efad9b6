import Zeptux.Common

/-!
The bitmaps of `include/bitmap.h`, with the bit searches of `include/bitwise.h` and
`include/compiler.h` they use. The flexible array `data` is a function from word
index to word, and the searches answer `-1` as the source does.
-/

namespace Zeptux

open Word

structure Bitmap where
  numBits : Nat
  numWords : Nat
  data : Nat → BitVec 64

/-- `__builtin_ffsl(x) - 1`. -/
def findFirstSetBit (word : BitVec 64) : Int :=
  match (List.range 64).find? word.getLsbD with
  | some index => index
  | none => -1

def findFirstClearBit (word : BitVec 64) : Int := findFirstSetBit (~~~word)

/-- The `while (curr > 1)` loop; each round at least halves `curr`, so `curr` rounds do. -/
def narrowBitstring : Nat → Nat → BitVec 64 → BitVec 64
  | 0, _, word => word
  | rounds + 1, curr, word =>
      if curr > 1 then
        let s := curr >>> 1
        narrowBitstring rounds (curr - s) (word &&& word <<< s)
      else word

def findBitstringLongerThan (word : BitVec 64) (n : Int) : Int :=
  let ret := findFirstSetBit (narrowBitstring n.toNat n.toNat word)
  if ret < 0 then -1 else ret - n + 1

namespace Bitmap

def calcWords (numBits : Nat) : Nat := alignUp numBits 64 / 64

def calcSize (numBits : Nat) : Nat := 8 + calcWords numBits * 8

def clearAll (bitmap : Bitmap) : Bitmap :=
  { bitmap with data := fun word => if word < bitmap.numWords then 0 else bitmap.data word }

/-- The mask of the last word is `BIT_MASK_BELOW`, and `num_words - 1` a `uint32_t`. -/
def setAll (bitmap : Bitmap) : Bitmap :=
  let data := fun word => if word < bitmap.numWords then ~~~0#64 else bitmap.data word
  let finalWordMask := 1#64 <<< (bitmap.numBits % 64) - 1#64
  let finalWord := (bitmap.numWords + (2 ^ 32 - 1)) % 2 ^ 32
  if finalWordMask ≠ 0 then
    { bitmap with
      data := fun word => if word = finalWord then data word &&& finalWordMask else data word }
  else { bitmap with data := data }

def init (bitmap : Bitmap) (numBits : Nat) : Bitmap :=
  clearAll { bitmap with
    numBits := numBits % 2 ^ 32, numWords := calcWords numBits % 2 ^ 32 }

def setBit (bitmap : Bitmap) (bit : Nat) : Bitmap :=
  let word := bit / 64
  let mask := 1#64 <<< (bit % 64)
  { bitmap with
    data := fun index => if index = word then bitmap.data word ||| mask else bitmap.data index }

def clearBit (bitmap : Bitmap) (bit : Nat) : Bitmap :=
  let word := bit / 64
  let mask := 1#64 <<< (bit % 64)
  { bitmap with
    data := fun index => if index = word then bitmap.data word ^^^ mask else bitmap.data index }

def isSet (bitmap : Bitmap) (bit : Nat) : Bool :=
  let mask := 1#64 <<< (bit % 64)
  bitmap.data (bit / 64) &&& mask == mask

/-- The first word, from `index` on, in which `search` finds something. The index is a
`uint32_t`, and so is its product with 64. -/
def searchFrom (bitmap : Bitmap) (search : BitVec 64 → Option Int) : Nat → Nat → Int
  | 0, _ => -1
  | remaining + 1, index =>
      match search (bitmap.data index) with
      | some offset => (index * 64 % 2 ^ 32 : Nat) + offset
      | none => searchFrom bitmap search remaining (index + 1)

def firstSet (bitmap : Bitmap) : Int :=
  bitmap.searchFrom (fun word =>
    let index := findFirstSetBit word
    if index ≠ -1 then some index else none) bitmap.numWords 0

def firstClear (bitmap : Bitmap) : Int :=
  let ret := bitmap.searchFrom (fun word =>
    let index := findFirstClearBit word
    if index ≠ -1 then some index else none) bitmap.numWords 0
  if ret ≥ bitmap.numBits then -1 else ret

/-- The result and `num_bits` are converted to `int`, and the sum of two `int`s is one. -/
def zeroStringLongerThan (bitmap : Bitmap) (n : Int) : Int :=
  if n > 64 then -1
  else
    let ret := toInt32 (bitmap.searchFrom (fun word =>
      let index := findBitstringLongerThan (~~~word) n
      if index > 0 then some index else none) bitmap.numWords 0)
    let numBits := toInt32 bitmap.numBits
    if ret ≥ numBits ∨ toInt32 (ret + n) > numBits then -1 else ret

end Bitmap

end Zeptux
