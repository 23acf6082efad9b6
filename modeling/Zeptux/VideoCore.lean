import Zeptux.EarlyInitCore
import Zeptux.Lib.Bytes

/-!
The early console of `early/video.c`. Memory is addressed as the code does, so that an index that
leaves the buffer writes where it leads to.
-/

namespace Zeptux.Video

open Word ByteMemory Early

def rows : Nat := 25
def cols : Nat := 80
def memorySize : Nat := 2 * rows * cols
def bufferSize : Nat := memorySize + 2 * cols

def earlyVideoSize : Nat := memorySize

/-- The cursor and the memory. `stored` are the addresses that were written for the buffer, and is
never read. -/
structure Console where
  currRow : Int
  currCol : Int
  memory : ByteMemory
  stored : List Nat

namespace Console

def store (v : Console) (address : Nat) (val : UInt8) : Console :=
  { v with memory := v.memory.store address val, stored := address :: v.stored }

def memset (v : Console) (dest : Nat) (chr : UInt8) (count : Nat) : Console :=
  { v with memory := fill v.memory dest chr count, stored := List.range' dest count ++ v.stored }

def memcpy (v : Console) (dest src count : Nat) : Console :=
  { v with
    memory := copyForward v.memory dest src count
    stored := List.range' dest count ++ v.stored }

def getBuf (v : Console) : Nat :=
  add64 earlyVideoBufferAddress (toUint64 (2 * (v.currRow * cols + v.currCol.tmod cols)))

def putCell (v : Console) (chr : UInt8) : Console :=
  let buf := v.getBuf
  (v.store buf chr).store (add64 buf 1) 15

def advance (v : Console) : Console := { v with currCol := toInt32 (v.currCol + 1) }

def putc (v : Console) (chr : UInt8) : Console :=
  if v.currCol = cols - 2 then (v.putCell '.'.toUInt8).advance
  else if v.currCol > cols - 2 then v.advance
  else (v.putCell chr).advance

def scrollDown (v : Console) : Console :=
  let target := earlyVideoBufferAddress
  let v := v.memcpy target (target + 2 * cols) memorySize
  v.memset (target + memorySize) 0 (2 * cols)

def flush (v : Console) : Console :=
  { v with memory := copyForward v.memory earlyVideoMemoryAddress earlyVideoBufferAddress memorySize }

def newline (v : Console) : Console :=
  let v := if v.currRow = rows then v.scrollDown else { v with currRow := toInt32 (v.currRow + 1) }
  flush { v with currCol := 0 }

def puttab (v : Console) : Console := (List.range 8).foldl (fun v _ => v.putc ' '.toUInt8) v

def earlyVideoInit (v : Console) : Console := v.memset earlyVideoBufferAddress 0 bufferSize

def putChr (v : Console) (chr : UInt8) : Console :=
  if chr = '\n'.toUInt8 then v.newline
  else if chr = '\t'.toUInt8 then v.puttab
  else v.putc chr

/-- The loop over a string, which ends at the first zero byte. -/
def putsFrom : List UInt8 → Console → Console
  | [], v => v
  | chr :: rest, v => if chr = 0 then v else putsFrom rest (v.putChr chr)

def earlyVideoPuts (v : Console) : Option (List UInt8) → Console
  | none => v
  | some str => putsFrom str v

end Console

end Zeptux.Video
