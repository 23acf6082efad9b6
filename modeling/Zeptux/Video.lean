import Mathlib.Data.List.Induction
import Zeptux.VideoCore

/-!
The screen shows the last lines that were completed. The buffer holds them with the line that is
being written behind them, in the hidden row once the screen is full.
-/

namespace Zeptux.Video

open Word ByteMemory Early

section Text

def expand (chr : UInt8) : List UInt8 :=
  if chr = '\t'.toUInt8 then List.replicate 8 ' '.toUInt8 else [chr]

/-- The lines that were completed, the oldest first, and the one that is being written. -/
structure History where
  done : List (List UInt8)
  current : List UInt8

def History.lines (history : History) : List (List UInt8) := history.done ++ [history.current]

def History.put (history : History) (chr : UInt8) : History :=
  if chr = '\n'.toUInt8 then ⟨history.done ++ [history.current], []⟩
  else ⟨history.done, history.current ++ expand chr⟩

def historyOf (chars : List UInt8) : History := chars.foldl History.put ⟨[], []⟩

theorem historyOf_concat (chars : List UInt8) (chr : UInt8) :
    historyOf (chars ++ [chr]) = (historyOf chars).put chr := by
  rw [historyOf, List.foldl_append]
  rfl

def History.last (history : History) : List (List UInt8) :=
  history.done.drop (history.done.length - rows)

def History.buffer (history : History) : List (List UInt8) := history.last ++ [history.current]

def cellOf (text : List UInt8) (col : Nat) : UInt8 × UInt8 :=
  if col < cols - 2 then (text[col]?.map fun chr => (chr, 15)).getD (0, 0)
  else if col = cols - 2 ∧ cols - 1 ≤ text.length then ('.'.toUInt8, 15)
  else (0, 0)

theorem cellOf_nil (col : Nat) : cellOf [] col = (0, 0) := by
  rw [cellOf]
  split_ifs with _ last
  · rfl
  · exact absurd last.2 (by decide)
  · rfl

theorem cellOf_concat (text : List UInt8) (chr : UInt8) (col : Nat) :
    cellOf (text ++ [chr]) col =
      if col = text.length ∧ col ≤ cols - 2 then
        (if col = cols - 2 then '.'.toUInt8 else chr, 15)
      else cellOf text col := by
  have width : cols = 80 := rfl
  rw [cellOf, cellOf]
  by_cases early : col < cols - 2
  · rw [if_pos early, if_pos early]
    by_cases own : col = text.length
    · rw [if_pos ⟨own, by omega⟩, if_neg (by omega), own, List.getElem?_concat_length]
      rfl
    · rw [if_neg fun both => own both.1]
      by_cases before : col < text.length
      · rw [List.getElem?_append_left before]
      · rw [List.getElem?_eq_none (by simp; omega), List.getElem?_eq_none (by omega)]
  · rw [if_neg early, if_neg early, List.length_append, List.length_singleton]
    split_ifs <;> first | rfl | omega

theorem last_length (history : History) : history.last.length = min history.done.length rows := by
  rw [History.last, List.length_drop]
  omega

end Text

section Cells

def cellAt (memory : ByteMemory) (start row col : Nat) : UInt8 × UInt8 :=
  (memory (start + 2 * (cols * row + col)), memory (start + 2 * (cols * row + col) + 1))

def Displays (memory : ByteMemory) (start count : Nat) (lines : List (List UInt8)) : Prop :=
  ∀ row < count, ∀ col < cols, cellAt memory start row col = cellOf (lines[row]?.getD []) col

/-- The cursor is behind the text, and the buffer holds it. -/
structure Kept (history : History) (v : Console) : Prop where
  row : v.currRow = history.last.length
  col : v.currCol = history.current.length
  cells : Displays v.memory earlyVideoBufferAddress (rows + 1) history.buffer
  inside : ∀ address ∈ v.stored,
    earlyVideoBufferAddress ≤ address ∧ address < earlyVideoBufferAddress + bufferSize

variable {history : History} {v : Console}

theorem buffer_fits : earlyVideoBufferAddress + bufferSize < 2 ^ 64 := by decide

theorem last_le (history : History) : history.last.length ≤ 25 := by
  rw [last_length]
  exact Nat.min_le_right _ _

theorem cols_mul (row : Nat) : cols * row = 80 * row := rfl

theorem Kept.getBuf (kept : Kept history v) (short : history.current.length < cols) :
    v.getBuf = earlyVideoBufferAddress +
      2 * (cols * history.last.length + history.current.length) := by
  have width : cols = 80 := rfl
  have size : bufferSize = 4160 := rfl
  have few := last_le history
  have fits := buffer_fits
  have offset : (2 * (history.last.length * cols + (history.current.length : Int).tmod cols) : Int) =
      (2 * (cols * history.last.length + history.current.length) : Nat) := by
    rw [Int.tmod_eq_of_lt (by omega) (by omega), Int.mul_comm (history.last.length : Int)]
    rfl
  have product := cols_mul history.last.length
  rw [Console.getBuf, kept.row, kept.col, offset, toUint64,
    Int.emod_eq_of_lt (by omega) (by omega), Int.toNat_natCast, add64_eq (by omega)]

theorem cellAt_inj {row other col otherCol : Nat} (inside : col < cols) (otherInside : otherCol < cols) :
    cols * row + col = cols * other + otherCol ↔ row = other ∧ col = otherCol := by
  have width : cols = 80 := rfl
  have product := cols_mul row
  have otherProduct := cols_mul other
  omega

theorem cellAt_store {memory : ByteMemory} {start row col : Nat} {address : Nat} {val : UInt8}
    (outside : address ≠ start + 2 * (cols * row + col) ∧
      address ≠ start + 2 * (cols * row + col) + 1) :
    cellAt (memory.store address val) start row col = cellAt memory start row col := by
  rw [cellAt, cellAt, ByteMemory.store, if_neg outside.1.symm, ByteMemory.store, if_neg outside.2.symm]

theorem Kept.putCell (kept : Kept history v) (short : history.current.length < cols - 1)
    (chr : UInt8) :
    (∀ row col, col < cols → cellAt (v.putCell chr).memory earlyVideoBufferAddress row col =
      if row = history.last.length ∧ col = history.current.length then (chr, 15)
      else cellAt v.memory earlyVideoBufferAddress row col) ∧
    ∀ address ∈ (v.putCell chr).stored,
      earlyVideoBufferAddress ≤ address ∧ address < earlyVideoBufferAddress + bufferSize := by
  have width : cols = 80 := rfl
  have size : bufferSize = 4160 := rfl
  have few := last_le history
  have fits := buffer_fits
  have place := kept.getBuf (by omega)
  have product := cols_mul history.last.length
  have next : add64 v.getBuf 1 = v.getBuf + 1 := add64_eq (by omega)
  refine ⟨fun row col inside => ?_, fun address written => ?_⟩
  · have same : cols * row + col = cols * history.last.length + history.current.length ↔
        row = history.last.length ∧ col = history.current.length := cellAt_inj inside (by omega)
    simp only [Console.putCell, Console.store, next]
    split_ifs with own
    · rw [own.1, own.2, cellAt, ← place]
      simp [ByteMemory.store]
    · have apart := mt same.mp own
      rw [cellAt_store (by omega), cellAt_store (by omega)]
  · simp only [Console.putCell, Console.store, next, List.mem_cons] at written
    rcases written with rfl | rfl | before
    · omega
    · omega
    · exact kept.inside address before

theorem buffer_getElem (history : History) (row : Nat) :
    history.buffer[row]?.getD [] =
      if row = history.last.length then history.current else history.last[row]?.getD [] := by
  rw [History.buffer]
  split_ifs with own
  · rw [own, List.getElem?_concat_length]
    rfl
  · by_cases before : row < history.last.length
    · rw [List.getElem?_append_left before]
    · rw [List.getElem?_eq_none (by simp; omega), List.getElem?_eq_none (by omega)]

def History.add (history : History) (chr : UInt8) : History :=
  ⟨history.done, history.current ++ [chr]⟩

theorem add_last (history : History) (chr : UInt8) : (history.add chr).last = history.last := rfl

theorem add_current (history : History) (chr : UInt8) :
    (history.add chr).current = history.current ++ [chr] := rfl

theorem cellOf_add (history : History) (chr : UInt8) (row col : Nat) :
    cellOf ((history.add chr).buffer[row]?.getD []) col =
      if row = history.last.length ∧ col = history.current.length ∧ col ≤ cols - 2 then
        (if col = cols - 2 then '.'.toUInt8 else chr, 15)
      else cellOf (history.buffer[row]?.getD []) col := by
  rw [buffer_getElem, buffer_getElem, add_last, add_current]
  by_cases own : row = history.last.length
  · rw [if_pos own, if_pos own, cellOf_concat]
    simp only [own, true_and]
  · rw [if_neg own, if_neg own, if_neg fun all => own all.1]

theorem Kept.advance (kept : Kept history v) (short : history.current.length + 1 < 2 ^ 31)
    (chr : UInt8) : toInt32 (v.currCol + 1) = (history.add chr).current.length := by
  have sum : v.currCol + 1 = (history.current.length + 1 : Nat) := by
    rw [kept.col]
    rfl
  rw [sum, toInt32_eq short, add_current, List.length_append]
  rfl

theorem putCell_kept (kept : Kept history v) (early : history.current.length ≤ cols - 2)
    (chr : UInt8) : Kept (history.add chr)
      (v.putCell (if history.current.length = cols - 2 then '.'.toUInt8 else chr)).advance := by
  have width : cols = 80 := rfl
  obtain ⟨cells, inside⟩ := kept.putCell (by omega)
    (if history.current.length = cols - 2 then '.'.toUInt8 else chr)
  refine ⟨kept.row, kept.advance (by omega) chr, fun row below col right => ?_, inside⟩
  refine (cells row col right).trans ?_
  rw [cellOf_add, kept.cells row below col right]
  by_cases own : row = history.last.length ∧ col = history.current.length
  · obtain ⟨rfl, rfl⟩ := own
    rw [if_pos (And.intro rfl rfl), if_pos (And.intro rfl (And.intro rfl early))]
  · rw [if_neg own, if_neg fun all => own ⟨all.1, all.2.1⟩]

theorem putc_kept (kept : Kept history v) (short : history.current.length + 1 < 2 ^ 31)
    (chr : UInt8) : Kept (history.add chr) (v.putc chr) := by
  have width : cols = 80 := rfl
  have place := kept.col
  rw [Console.putc]
  split_ifs with last beyond
  · have written := putCell_kept kept (by omega) chr
    rwa [if_pos (by omega)] at written
  · refine ⟨kept.row, kept.advance short chr, fun row below col right => ?_, kept.inside⟩
    rw [cellOf_add, if_neg (by omega)]
    exact kept.cells row below col right
  · have written := putCell_kept kept (by omega) chr
    rwa [if_neg (by omega)] at written

theorem puttab_kept (kept : Kept history v) (short : history.current.length + 8 < 2 ^ 31) :
    Kept ⟨history.done, history.current ++ expand '\t'.toUInt8⟩ v.puttab := by
  have spaces : ∀ count (history : History) v, Kept history v →
      history.current.length + count < 2 ^ 31 →
      Kept ⟨history.done, history.current ++ List.replicate count ' '.toUInt8⟩
        ((List.range count).foldl (fun v _ => v.putc ' '.toUInt8) v) := by
    intro count
    induction count with
    | zero =>
        intro history v kept _
        rw [List.replicate_zero, List.append_nil]
        exact kept
    | succ count ih =>
        intro history v kept short
        rw [List.range_succ, List.foldl_append, List.replicate_succ', ← List.append_assoc]
        have before := ih history v kept (by omega)
        exact putc_kept before (by simp; omega) ' '.toUInt8
  exact spaces 8 history v kept short

end Cells

section Lines

variable {history : History} {v : Console}

theorem cellAt_copied {memory : ByteMemory} {dest src count : Nat}
    (order : dest ≤ src ∨ src + 2 * cols * count ≤ dest) {row col : Nat} (inside : row < count)
    (right : col < cols) :
    cellAt (copyForward memory dest src (2 * cols * count)) dest row col = cellAt memory src row col := by
  have width : cols = 80 := rfl
  have product := cols_mul row
  have whole : 2 * cols * count = 160 * count := by rw [width]
  have first : dest + 2 * (cols * row + col) - dest = 2 * (cols * row + col) := by omega
  have second : dest + 2 * (cols * row + col) + 1 - dest = 2 * (cols * row + col) + 1 := by omega
  rw [copyForward_eq _ _ _ _ order, cellAt, overwrite_inside (by omega) (by omega),
    overwrite_inside (by omega) (by omega), first, second]
  rfl

theorem cellAt_apart {memory : ByteMemory} {dest length start : Nat} {source : Nat → UInt8} {row col : Nat}
    (apart : start + 2 * (cols * row + col) + 1 < dest ∨ dest + length ≤ start + 2 * (cols * row + col)) :
    cellAt (overwrite memory dest length source) start row col = cellAt memory start row col := by
  rw [cellAt, overwrite_outside (by omega), overwrite_outside (by omega), cellAt]

theorem memset_memory (v : Console) (dest : Nat) (chr : UInt8) (count : Nat) :
    (v.memset dest chr count).memory = fill v.memory dest chr count := rfl

theorem memcpy_memory (v : Console) (dest src count : Nat) :
    (v.memcpy dest src count).memory = copyForward v.memory dest src count := rfl

theorem flush_memory (v : Console) : v.flush.memory =
    copyForward v.memory earlyVideoMemoryAddress earlyVideoBufferAddress memorySize := by
  rw [Console.flush]

theorem scrollDown_cells (v : Console) {row col : Nat} (below : row < rows + 1) (right : col < cols) :
    cellAt v.scrollDown.memory earlyVideoBufferAddress row col =
      if row = rows then (0, 0) else cellAt v.memory earlyVideoBufferAddress (row + 1) col := by
  have width : cols = 80 := rfl
  have height : rows = 25 := rfl
  have size : memorySize = 4000 := rfl
  have product := cols_mul row
  rw [Console.scrollDown, memset_memory, memcpy_memory, fill_eq]
  split_ifs with last
  · rw [cellAt, overwrite_inside (by omega) (by omega), overwrite_inside (by omega) (by omega)]
  · rw [cellAt_apart (by omega)]
    have copied : cellAt (copyForward v.memory earlyVideoBufferAddress
        (earlyVideoBufferAddress + 2 * cols) (2 * cols * 25)) earlyVideoBufferAddress row col =
        cellAt v.memory (earlyVideoBufferAddress + 2 * cols) row col :=
      cellAt_copied (.inl (by omega)) (by omega) right
    have next : earlyVideoBufferAddress + 2 * cols + 2 * (cols * row + col) =
        earlyVideoBufferAddress + 2 * (cols * (row + 1) + col) := by
      rw [Nat.mul_succ]
      omega
    have whole : memorySize = 2 * cols * 25 := rfl
    rw [whole, copied, cellAt, next, cellAt]

theorem flush_cells (v : Console) {row col : Nat} (right : col < cols) :
    (row < rows → cellAt v.flush.memory earlyVideoMemoryAddress row col =
      cellAt v.memory earlyVideoBufferAddress row col) ∧
    (row < rows + 1 → cellAt v.flush.memory earlyVideoBufferAddress row col =
      cellAt v.memory earlyVideoBufferAddress row col) := by
  have width : cols = 80 := rfl
  have height : rows = 25 := rfl
  have size : memorySize = 4000 := rfl
  have product := cols_mul row
  have apart : earlyVideoBufferAddress + bufferSize < earlyVideoMemoryAddress := by decide
  have buffer : bufferSize = 4160 := rfl
  refine ⟨fun below => ?_, fun below => ?_⟩
  · have whole : memorySize = 2 * cols * 25 := rfl
    rw [flush_memory, whole]
    exact cellAt_copied (.inr (by omega)) (by omega) right
  · rw [flush_memory, copyForward_eq _ _ _ _ (.inr (by omega)), cellAt_apart (by omega)]

def History.finish (history : History) : History := ⟨history.done ++ [history.current], []⟩

theorem finish_last (history : History) :
    history.finish.last =
      if history.done.length < rows then history.buffer else history.buffer.drop 1 := by
  have height : rows = 25 := rfl
  rw [History.buffer, History.last, History.last, History.finish]
  dsimp only
  rw [List.length_append, List.length_singleton]
  split_ifs with filling
  · rw [Nat.sub_eq_zero_of_le (by omega), Nat.sub_eq_zero_of_le (by omega)]
    rfl
  · rw [show history.done.length + 1 - rows = history.done.length - rows + 1 by omega,
      List.drop_append_of_le_length (by omega),
      List.drop_append_of_le_length (by rw [List.length_drop]; omega), List.drop_drop]

theorem finish_buffer (history : History) (row : Nat) :
    history.finish.buffer[row]?.getD [] = history.finish.last[row]?.getD [] := by
  rw [buffer_getElem]
  split_ifs with end_
  · rw [List.getElem?_eq_none (by omega)]
    rfl
  · rfl

theorem finish_rows (history : History) (row : Nat) :
    history.finish.buffer[row]?.getD [] =
      history.buffer[if history.done.length < rows then row else row + 1]?.getD [] := by
  rw [finish_buffer, finish_last]
  split_ifs
  · rfl
  · rw [List.getElem?_drop, Nat.add_comm]

theorem finish_length (history : History) :
    history.finish.last.length = if history.done.length < rows then history.last.length + 1 else rows := by
  have height : rows = 25 := rfl
  rw [last_length, last_length, History.finish, List.length_append, List.length_singleton]
  split_ifs <;> omega

theorem mem_written {stored : List Nat} {dest count address : Nat}
    (written : address ∈ List.range' dest count ++ stored) :
    dest ≤ address ∧ address < dest + count ∨ address ∈ stored := by
  rcases List.mem_append.mp written with own | before
  · obtain ⟨offset, below, same⟩ := List.mem_range'.mp own
    exact .inl (by omega)
  · exact .inr before

theorem scrollDown_row (v : Console) : v.scrollDown.currRow = v.currRow := by
  rw [Console.scrollDown, Console.memset, Console.memcpy]

theorem scrollDown_stored {v : Console} {address : Nat} (written : address ∈ v.scrollDown.stored) :
    earlyVideoBufferAddress ≤ address ∧ address < earlyVideoBufferAddress + bufferSize ∨
      address ∈ v.stored := by
  have size : bufferSize = memorySize + 2 * cols := rfl
  rw [Console.scrollDown] at written
  rcases mem_written written with own | copied
  · exact .inl (by omega)
  · rcases mem_written copied with own | before
    · exact .inl (by omega)
    · exact .inr before

theorem scrollDown_kept (kept : Kept history v) (full : ¬history.done.length < rows) :
    Kept history.finish { v.scrollDown with currCol := 0 } := by
  have height : rows = 25 := rfl
  have sameRow := scrollDown_row v
  have cells := @scrollDown_cells v
  have inside := @scrollDown_stored v
  generalize v.scrollDown = moved at sameRow cells inside ⊢
  refine ⟨?_, rfl, fun row below col right => ?_, fun address written => ?_⟩
  · rw [finish_length, if_neg full]
    refine sameRow.trans (kept.row.trans ?_)
    rw [last_length, Nat.min_eq_right (by omega)]
  · refine (cells below right).trans ?_
    rw [finish_rows, if_neg full]
    split_ifs with last
    · have all : history.buffer.length = rows + 1 := by
        rw [History.buffer, List.length_append, List.length_singleton, last_length,
          Nat.min_eq_right (by omega)]
      rw [List.getElem?_eq_none (by omega)]
      exact (cellOf_nil col).symm
    · exact kept.cells (row + 1) (by omega) col right
  · exact (inside written).elim id (kept.inside address)

theorem nextRow_kept (kept : Kept history v) (room : history.done.length < rows) :
    Kept history.finish { v with currRow := toInt32 (v.currRow + 1), currCol := 0 } := by
  have height : rows = 25 := rfl
  refine ⟨?_, rfl, fun row below col right => ?_, kept.inside⟩
  · have sum : v.currRow + 1 = (history.last.length + 1 : Nat) := by
      rw [kept.row]
      rfl
    have few := last_le history
    rw [finish_length, if_pos room, sum, toInt32_eq (by omega)]
  · rw [finish_rows, if_pos room]
    exact kept.cells row below col right

theorem flush_kept (kept : Kept history.finish v) : Kept history.finish v.flush ∧
    Displays v.flush.memory earlyVideoMemoryAddress rows history.finish.last := by
  have height : rows = 25 := rfl
  have cells := @flush_cells v
  have row : v.flush.currRow = v.currRow := by rw [Console.flush]
  have col : v.flush.currCol = v.currCol := by rw [Console.flush]
  have stored : v.flush.stored = v.stored := by rw [Console.flush]
  generalize v.flush = flushed at cells row col stored ⊢
  refine ⟨⟨row.trans kept.row, col.trans kept.col, fun row below col right => ?_, ?_⟩,
    fun row below col right => ?_⟩
  · rw [(cells right).2 below]
    exact kept.cells row below col right
  · rw [stored]
    exact kept.inside
  · rw [(cells right).1 below, ← finish_buffer]
    exact kept.cells row (by omega) col right

theorem newline_kept (kept : Kept history v) : Kept history.finish v.newline ∧
    Displays v.newline.memory earlyVideoMemoryAddress rows history.finish.last := by
  have height : rows = 25 := rfl
  rw [Console.newline]
  by_cases full : history.done.length < rows
  · have differs : v.currRow ≠ rows := by
      rw [kept.row, last_length]
      omega
    rw [if_neg differs]
    exact flush_kept (nextRow_kept kept full)
  · have same : v.currRow = rows := by
      rw [kept.row, last_length, Nat.min_eq_right (by omega)]
    rw [if_pos same]
    exact flush_kept (scrollDown_kept kept full)

end Lines

section Runs

variable {history : History} {v : Console}

/-- No line is so long that the column is no `int`. -/
def History.Short (history : History) : Prop := ∀ line ∈ history.lines, line.length < 2 ^ 31

theorem History.Short.before {chr : UInt8} (short : (history.put chr).Short) : history.Short := by
  rw [History.put] at short
  split_ifs at short
  · intro line inside
    exact short line (List.mem_append_left _ inside)
  · intro line inside
    rcases List.mem_append.mp inside with completed | current
    · exact short line (List.mem_append_left _ completed)
    · have longer := short _ (List.mem_append_right _ (List.mem_singleton_self _))
      rw [List.length_append] at longer
      rw [List.mem_singleton.mp current]
      omega

theorem putChr_kept (kept : Kept history v) {chr : UInt8} (short : (history.put chr).Short) :
    Kept (history.put chr) (v.putChr chr) := by
  rw [Console.putChr]
  rw [History.put] at short ⊢
  split_ifs at short ⊢ with newline tab
  · exact (newline_kept kept).1
  · have length := short _ (List.mem_append_right _ (List.mem_singleton_self _))
    subst tab
    rw [List.length_append] at length
    exact puttab_kept kept length
  · have length := short _ (List.mem_append_right _ (List.mem_singleton_self _))
    rw [expand, if_neg tab] at length ⊢
    rw [List.length_append] at length
    exact putc_kept kept length chr

def started (memory : ByteMemory) : Console := Console.earlyVideoInit ⟨0, 0, memory, []⟩

theorem started_kept (memory : ByteMemory) : Kept (historyOf []) (started memory) := by
  have width : cols = 80 := rfl
  have height : rows = 25 := rfl
  have size : bufferSize = 4160 := rfl
  refine ⟨?_, ?_, fun row below col right => ?_, fun address written => ?_⟩
  · rw [started, Console.earlyVideoInit, Console.memset]
    rfl
  · rw [started, Console.earlyVideoInit, Console.memset]
    rfl
  · have product := cols_mul row
    have blank : (historyOf []).buffer[row]?.getD [] = [] := by
      cases row <;> rfl
    rw [blank, cellOf_nil, started, Console.earlyVideoInit, memset_memory, fill_eq, cellAt,
      overwrite_inside (by omega) (by omega), overwrite_inside (by omega) (by omega)]
  · rw [started, Console.earlyVideoInit] at written
    rcases mem_written written with own | before
    · exact own
    · cases before

theorem short_of_append {front back : List UInt8} (short : (historyOf (front ++ back)).Short) :
    (historyOf front).Short := by
  induction back using List.reverseRecOn with
  | nil => rwa [List.append_nil] at short
  | append_singleton back chr ih =>
      rw [← List.append_assoc, historyOf_concat] at short
      exact ih short.before

theorem chars_kept (memory : ByteMemory) (chars : List UInt8) (short : (historyOf chars).Short) :
    Kept (historyOf chars) (chars.foldl Console.putChr (started memory)) := by
  induction chars using List.reverseRecOn with
  | nil => exact started_kept memory
  | append_singleton chars chr ih =>
      rw [historyOf_concat] at short ⊢
      rw [List.foldl_append]
      exact putChr_kept (ih short.before) short

def charsOf (strings : List (Option (List UInt8))) : List UInt8 :=
  strings.flatMap fun str => (str.getD []).takeWhile (· ≠ 0)

theorem putsFrom_eq (str : List UInt8) (v : Console) :
    Console.putsFrom str v = (str.takeWhile (· ≠ 0)).foldl Console.putChr v := by
  induction str generalizing v with
  | nil => rfl
  | cons chr rest ih =>
      rw [Console.putsFrom]
      split_ifs with last
      · simp [last]
      · rw [ih]
        simp [last]

theorem earlyVideoPuts_run (strings : List (Option (List UInt8))) (v : Console) :
    strings.foldl Console.earlyVideoPuts v = (charsOf strings).foldl Console.putChr v := by
  induction strings generalizing v with
  | nil => rfl
  | cons str rest ih =>
      rw [List.foldl_cons, ih, charsOf, charsOf, List.flatMap_cons, List.foldl_append]
      congr 1
      cases str with
      | none => rfl
      | some str => exact putsFrom_eq str v

/-- Whatever strings are printed, as long as no line is too long, nothing is written outside of the
buffer, and after each newline the screen shows the last lines. -/
theorem earlyVideoPuts_shows (memory : ByteMemory) (strings : List (Option (List UInt8)))
    (short : (historyOf (charsOf strings)).Short) :
    (∀ address ∈ (strings.foldl Console.earlyVideoPuts (started memory)).stored,
      earlyVideoBufferAddress ≤ address ∧ address < earlyVideoBufferAddress + bufferSize) ∧
    ∀ front back, charsOf strings = front ++ '\n'.toUInt8 :: back →
      ∃ now : Console, now = (front ++ ['\n'.toUInt8]).foldl Console.putChr (started memory) ∧
        strings.foldl Console.earlyVideoPuts (started memory) = back.foldl Console.putChr now ∧
        Displays now.memory earlyVideoMemoryAddress rows
          (historyOf (front ++ ['\n'.toUInt8])).last := by
  rw [earlyVideoPuts_run]
  refine ⟨(chars_kept memory _ short).inside, fun front back split => ⟨_, rfl, ?_, ?_⟩⟩
  · rw [split, ← List.foldl_append, List.append_assoc]
    rfl
  · rw [split] at short
    have completed := (newline_kept (chars_kept memory front (short_of_append short))).2
    rw [historyOf_concat, List.foldl_append]
    exact completed

theorem short_line_shown :
    (historyOf (charsOf [some [104, 105, 10]])).Short ∧
    ∀ col < cols,
      cellAt ([some [104, 105, 10]].foldl Console.earlyVideoPuts (started fun _ => 0)).memory
        earlyVideoMemoryAddress 0 col = cellOf [104, 105] col := by
  have short : (historyOf (charsOf [some [104, 105, 10]])).Short := by
    intro line inside
    have lines : (historyOf (charsOf [some [104, 105, 10]])).lines = [[104, 105], []] := by decide
    rw [lines] at inside
    simp only [List.mem_cons, List.not_mem_nil, or_false] at inside
    rcases inside with rfl | rfl <;> decide
  obtain ⟨-, shown⟩ := earlyVideoPuts_shows (fun _ => 0) [some [104, 105, 10]] short
  obtain ⟨now, -, reached, displays⟩ := shown [104, 105] [] (by decide)
  refine ⟨short, fun col right => ?_⟩
  rw [reached]
  exact displays 0 (by decide) col right

theorem repeated_cursor (memory : ByteMemory) (count : Nat) :
    ((List.replicate count 97).foldl Console.putChr (started memory)).currRow = 0 ∧
      ((List.replicate count 97).foldl Console.putChr (started memory)).currCol = toInt32 count := by
  induction count with
  | zero =>
      have kept := started_kept memory
      exact ⟨kept.row, kept.col⟩
  | succ count ih =>
      rw [List.replicate_succ', List.foldl_append, List.foldl_cons, List.foldl_nil]
      generalize (List.replicate count 97).foldl Console.putChr (started memory) = v at ih ⊢
      rw [Console.putChr, if_neg (by decide), if_neg (by decide), Console.putc]
      have next : toInt32 (v.currCol + 1) = toInt32 (count + 1 : Nat) := by
        rw [ih.2, toInt32, toInt32, toInt32, Int.bmod_add_bmod]
        rfl
      split_ifs
      · exact ⟨ih.1, next⟩
      · exact ⟨ih.1, next⟩
      · exact ⟨ih.1, next⟩

theorem long_line_strays :
    earlyVideoBufferAddress - 96 ∈
      ([some (List.replicate (2 ^ 31 + 1) 97)].foldl Console.earlyVideoPuts
        (started fun _ => 0)).stored ∧
    ¬∀ address ∈ ([some (List.replicate (2 ^ 31 + 1) 97)].foldl Console.earlyVideoPuts
        (started fun _ => 0)).stored,
      earlyVideoBufferAddress ≤ address ∧ address < earlyVideoBufferAddress + bufferSize := by
  have chars (count : Nat) : charsOf [some (List.replicate count 97)] = List.replicate count 97 := by
    rw [charsOf, List.flatMap_cons, List.flatMap_nil, List.append_nil, Option.getD_some]
    rw [List.takeWhile_replicate]
    exact if_pos (by decide)
  have strays : earlyVideoBufferAddress - 96 ∈
      ([some (List.replicate (2 ^ 31 + 1) 97)].foldl Console.earlyVideoPuts
        (started fun _ => 0)).stored := by
    obtain ⟨row, col⟩ := repeated_cursor (fun _ => 0) (2 ^ 31)
    rw [earlyVideoPuts_run, chars, List.replicate_succ', List.foldl_append, List.foldl_cons,
      List.foldl_nil]
    generalize (List.replicate (2 ^ 31) 97).foldl Console.putChr (started fun _ => 0) = v at row col ⊢
    have negative : v.currCol = -2 ^ 31 := by
      rw [col]
      decide
    have place : v.getBuf = earlyVideoBufferAddress - 96 := by
      rw [Console.getBuf, row, negative]
      decide
    rw [Console.putChr, if_neg (by decide), if_neg (by decide), Console.putc, if_neg (by rw [negative]; decide),
      if_neg (by rw [negative]; decide), ← place]
    exact List.mem_cons_of_mem _ List.mem_cons_self
  refine ⟨strays, fun inside => ?_⟩
  have bound := (inside _ strays).1
  exact absurd bound (by decide)

end Runs

end Zeptux.Video
