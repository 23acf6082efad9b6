import Zeptux.Lib.Runs
import Zeptux.PageDumpCore
import Zeptux.PageWalk

/-!
The state of `dump_mapped_pages` as a tracker of runs. The positions are those of the 48 bits
that the tables translate; the keys of the runs are the flags of the pages.
-/

namespace Zeptux.Page

open Word X86Paging Runs

/-! ## Addresses of positions -/

/-- The canonical address that the tables translate as this position. -/
def virtOf (position : Nat) : Nat :=
  if position < 2 ^ 47 then position else position + (2 ^ 64 - 2 ^ 48)

def stopOf (position : Nat) : Nat :=
  if position ≤ 2 ^ 47 then position else (position + (2 ^ 64 - 2 ^ 48)) % 2 ^ 64

theorem bitMaskAbove_physAddrBits : bitMaskAbove physAddrBits = 2 ^ 64 - 2 ^ 48 := by decide

theorem or_high {position : Nat} (bound : position < 2 ^ 48) :
    position ||| (2 ^ 64 - 2 ^ 48) = position + (2 ^ 64 - 2 ^ 48) := by
  have shape : 2 ^ 64 - 2 ^ 48 = 2 ^ 48 * (2 ^ 16 - 1) := by decide
  rw [shape, Nat.or_comm, ← Nat.two_pow_add_eq_or_of_lt bound, Nat.add_comm]

theorem high_or_high {position : Nat} (bound : position < 2 ^ 48) :
    (position + (2 ^ 64 - 2 ^ 48)) ||| (2 ^ 64 - 2 ^ 48) = position + (2 ^ 64 - 2 ^ 48) := by
  rw [← or_high bound, Nat.or_assoc, Nat.or_self]

theorem isBitSet_virtOf {position : Nat} (bound : position < 2 ^ 48) :
    isBitSet (virtOf position) (physAddrBits - 1) = true ↔ 2 ^ 47 ≤ position := by
  rw [isBitSet_iff, virtOf, physAddrBits]
  split <;> omega

theorem signExtend_eq {va : Nat} (bound : va < 2 ^ 48) :
    (if isBitSet va (physAddrBits - 1) then va ||| bitMaskAbove physAddrBits else va) =
      virtOf va := by
  have high : isBitSet va (physAddrBits - 1) = true ↔ 2 ^ 47 ≤ va := by
    rw [isBitSet_iff, physAddrBits]
    omega
  rw [bitMaskAbove_physAddrBits, or_high bound, virtOf]
  simp only [high]
  split <;> split <;> omega

theorem encodeVirt_eq {pgde pude pmde ptde : Nat} (pgdeIn : pgde < 512) (pudeIn : pude < 512)
    (pmdeIn : pmde < 512) (ptdeIn : ptde < 512) {position : Nat}
    (place : position = pgde * 2 ^ 39 + pude * 2 ^ 30 + pmde * 2 ^ 21 + ptde * 2 ^ 12) :
    encodeVirt pgde pude pmde ptde 0 = virtOf position := by
  have joined : ((pgde <<< pgdShift) % 2 ^ 64) ||| ((pude <<< pudShift) % 2 ^ 64) |||
      ((pmde <<< pmdShift) % 2 ^ 64) ||| ((ptde <<< pageShift) % 2 ^ 64) ||| 0 =
      pgde * 2 ^ 39 + pude * 2 ^ 30 + pmde * 2 ^ 21 + ptde * 2 ^ 12 := by
    simp only [Nat.shiftLeft_eq, pgdShift, pudShift, pmdShift, pageShift]
    rw [Nat.mod_eq_of_lt (by omega : pgde * 2 ^ 39 < 2 ^ 64),
      Nat.mod_eq_of_lt (by omega : pude * 2 ^ 30 < 2 ^ 64),
      Nat.mod_eq_of_lt (by omega : pmde * 2 ^ 21 < 2 ^ 64),
      Nat.mod_eq_of_lt (by omega : ptde * 2 ^ 12 < 2 ^ 64), Nat.or_zero]
    have second := Nat.two_pow_add_eq_or_of_lt (by omega : pude * 2 ^ 30 < 2 ^ 39) pgde
    have third := Nat.two_pow_add_eq_or_of_lt (by omega : pmde * 2 ^ 21 < 2 ^ 30)
      (pgde * 2 ^ 9 + pude)
    have fourth := Nat.two_pow_add_eq_or_of_lt (by omega : ptde * 2 ^ 12 < 2 ^ 21)
      (pgde * 2 ^ 18 + pude * 2 ^ 9 + pmde)
    rw [Nat.mul_comm pgde, ← second,
      (by omega : 2 ^ 39 * pgde + pude * 2 ^ 30 = 2 ^ 30 * (pgde * 2 ^ 9 + pude)), ← third,
      (by omega : 2 ^ 30 * (pgde * 2 ^ 9 + pude) + pmde * 2 ^ 21 =
        2 ^ 21 * (pgde * 2 ^ 18 + pude * 2 ^ 9 + pmde)), ← fourth]
  simp only [encodeVirt, joined, ← place]
  exact signExtend_eq (by omega)

theorem add64_virtOf {position size : Nat} (aligned : size ∣ position) (divides : size ∣ 2 ^ 47)
    (bound : position + size ≤ 2 ^ 48) (positive : 0 < size) :
    add64 (virtOf position) size = stopOf (position + size) := by
  have lower : position < 2 ^ 47 → position + size ≤ 2 ^ 47 := by
    intro below
    obtain ⟨pages, rfl⟩ := aligned
    obtain ⟨half, shape⟩ := divides
    rw [shape] at below ⊢
    have := Nat.mul_le_mul_left size (Nat.lt_of_mul_lt_mul_left below)
    rwa [Nat.mul_succ] at this
  rw [virtOf, stopOf, add64]
  split
  · rename_i below
    have := lower below
    rw [if_pos this, Nat.mod_eq_of_lt (by omega)]
  · rw [if_neg (by omega)]
    congr 1
    omega

/-! ## The range that is printed for a run -/

def printedStop (start stop : Nat) : Nat :=
  if 2 ^ 47 ≤ start ∧ stop = 2 ^ 48 then 2 ^ 64 - 2 ^ 48 else stopOf stop

def dumpedRange (run : Run Nat) : DumpedRange :=
  let start := virtOf run.start
  let stop := printedStop run.start run.stop
  ⟨start, stop, sub64 stop start, run.key, dumpFlags run.key⟩

theorem printed_start {position : Nat} (bound : position < 2 ^ 48) :
    (if isBitSet (virtOf position) (physAddrBits - 1) then
      virtOf position ||| bitMaskAbove physAddrBits else virtOf position) = virtOf position := by
  rw [bitMaskAbove_physAddrBits]
  split
  · rename_i high
    rw [virtOf, if_neg (Nat.not_lt.mpr ((isBitSet_virtOf bound).mp high)), high_or_high bound]
  · rfl

theorem printed_stop {start stop : Nat} (nonempty : start < stop) (bound : stop ≤ 2 ^ 48) :
    (if isBitSet (virtOf start) (physAddrBits - 1) then
      stopOf stop ||| bitMaskAbove physAddrBits else stopOf stop) = printedStop start stop := by
  rw [bitMaskAbove_physAddrBits, printedStop]
  simp only [isBitSet_virtOf (by omega : start < 2 ^ 48)]
  by_cases high : 2 ^ 47 ≤ start
  · rw [if_pos high, stopOf, if_neg (by omega)]
    by_cases last : stop = 2 ^ 48
    · rw [if_pos ⟨high, last⟩, last]
      decide
    · rw [if_neg (by omega), Nat.mod_eq_of_lt (by omega), high_or_high (by omega)]
  · rw [if_neg high, if_neg (by omega)]

/-! ## The state of the dump as a tracker of runs -/

structure Shows (tracker : Tracker Nat) (state : PageDumpState) : Prop where
  printed : state.printed = tracker.closed.map dumpedRange
  outside : tracker.current = none → state.inRange = false
  inside : ∀ run, tracker.current = some run → state.inRange = true ∧
    state.start = virtOf run.start ∧ state.stop = stopOf run.stop ∧ state.rawFlags = run.key

theorem maybeDumpRange_shows {tracker : Tracker Nat} {state : PageDumpState}
    (shows : Shows tracker state)
    (within : ∀ run ∈ tracker.runs, run.start < run.stop ∧ run.stop ≤ 2 ^ 48) :
    Shows tracker.close (maybeDumpRange state) := by
  cases current : tracker.current with
  | none =>
      have idle : maybeDumpRange state = state := by simp [maybeDumpRange, shows.outside current]
      rw [idle]
      refine ⟨?_, fun _ => shows.outside current, by simp [Tracker.close]⟩
      simpa [Tracker.close, Tracker.runs, current] using shows.printed
  | some run =>
      obtain ⟨inRange, start, stop, flags⟩ := shows.inside run current
      obtain ⟨nonempty, bound⟩ := within run (by simp [Tracker.runs, current])
      refine ⟨?_, ?_, by simp [Tracker.close]⟩
      · simp only [maybeDumpRange, inRange, Bool.not_true, Bool.false_eq_true, ↓reduceIte, start,
          stop, flags, shows.printed, printed_start (by omega : run.start < 2 ^ 48),
          printed_stop nonempty bound]
        simp [Tracker.close, Tracker.runs, current, dumpedRange]
      · intro _
        simp [maybeDumpRange, inRange]

theorem rangeFlags_idem (mask : Bool) (flags : Nat) :
    rangeFlags mask (rangeFlags mask flags) = rangeFlags mask flags := by
  cases mask with
  | false => rfl
  | true => simp [rangeFlags]

theorem extendDumpRange_shows {tracker : Tracker Nat} {state : PageDumpState} {piece : Run Nat}
    {flags : Nat} (shows : Shows tracker state)
    (within : ∀ run ∈ tracker.runs, run.start < run.stop ∧ run.stop ≤ 2 ^ 48)
    (key : piece.key = rangeFlags state.maskHugeFlag flags)
    (keys : ∀ run, tracker.current = some run →
      rangeFlags state.maskHugeFlag run.key = run.key) :
    Shows (tracker.extend piece)
      (extendDumpRange state (virtOf piece.start) (stopOf piece.stop) flags) := by
  cases current : tracker.current with
  | none =>
      have outside := shows.outside current
      simp only [Tracker.extend, current, extendDumpRange, outside, Bool.false_and,
        Bool.false_eq_true, ↓reduceIte, Bool.not_false]
      exact ⟨shows.printed, by simp, by simp [key]⟩
  | some run =>
      obtain ⟨inRange, start, stop, sameFlags⟩ := shows.inside run current
      simp only [Tracker.extend, current, extendDumpRange, inRange, Bool.true_and, sameFlags,
        keys run current, ← key, bne_iff_ne]
      by_cases same : run.key = piece.key
      · simp only [same, ne_eq, not_true_eq_false, ↓reduceIte, inRange, Bool.not_true,
          Bool.false_eq_true]
        refine ⟨shows.printed, by simp, ?_⟩
        intro grown isGrown
        obtain rfl := Option.some.inj isGrown
        exact ⟨rfl, start, rfl, sameFlags.trans same⟩
      · have dumped := maybeDumpRange_shows shows within
        simp only [ne_eq, Ne.symm same, not_false_eq_true, ↓reduceIte, same, Bool.not_false]
        exact ⟨dumped.printed, by simp, by simp⟩

/-! ## What the walk over the entries keeps -/

def labelFrom (mem : Memory) (mask : Bool) (level table position : Nat) : Option Nat :=
  (walkFrom mem level table position).map fun leaf => rangeFlags mask leaf.flags

def PageDumpState.counted (state : PageDumpState) : Nat :=
  state.numPages4kib * pageSize + state.numPages2mib * pageSize2mib +
    state.numPages1gib * pageSize1gib

structure PageDumpState.InTables (state : PageDumpState) : Prop where
  pgd : state.pgdIndex < 512
  pud : state.pudIndex < 512
  pmd : state.pmdIndex < 512

structure Dumped (mem : Memory) (pgd : Nat) (mask : Bool) (position : Nat)
    (state : PageDumpState) : Prop where
  indexes : state.InTables
  masked : state.maskHugeFlag = mask
  tracked : ∃ tracker, Follows (labelFrom mem mask 3 pgd) position tracker ∧
    Shows tracker state ∧ state.counted = tracker.size

structure SameAbove (level : Nat) (before after : PageDumpState) : Prop where
  pgd : level ≤ 2 → after.pgdIndex = before.pgdIndex
  pud : level ≤ 1 → after.pudIndex = before.pudIndex
  pmd : level ≤ 0 → after.pmdIndex = before.pmdIndex

theorem SameAbove.refl (level : Nat) (state : PageDumpState) : SameAbove level state state :=
  ⟨fun _ => rfl, fun _ => rfl, fun _ => rfl⟩

theorem SameAbove.trans {level : Nat} {before middle after : PageDumpState}
    (first : SameAbove level before middle) (second : SameAbove level middle after) :
    SameAbove level before after where
  pgd := fun low => (second.pgd low).trans (first.pgd low)
  pud := fun low => (second.pud low).trans (first.pud low)
  pmd := fun low => (second.pmd low).trans (first.pmd low)

theorem SameAbove.mono {level higher : Nat} {before after : PageDumpState}
    (same : SameAbove level before after) (order : level ≤ higher) :
    SameAbove higher before after where
  pgd := fun low => same.pgd (by omega)
  pud := fun low => same.pud (by omega)
  pmd := fun low => same.pmd (by omega)

/-- Neither closing nor extending a range touches the indexes, the option or the counts. -/
structure SameBesides (before after : PageDumpState) : Prop where
  indexes : SameAbove 0 before after
  masked : after.maskHugeFlag = before.maskHugeFlag
  counted : after.counted = before.counted

theorem maybeDumpRange_same (state : PageDumpState) :
    SameBesides state (maybeDumpRange state) := by
  unfold maybeDumpRange
  split
  · exact ⟨.refl 0 state, rfl, rfl⟩
  · exact ⟨⟨fun _ => rfl, fun _ => rfl, fun _ => rfl⟩, rfl, rfl⟩

theorem extendDumpRange_same (state : PageDumpState) (start stop flags : Nat) :
    SameBesides state (extendDumpRange state start stop flags) := by
  obtain ⟨⟨pgd, pud, pmd⟩, masked, counted⟩ := maybeDumpRange_same state
  simp only [extendDumpRange]
  split <;> split
  · exact ⟨⟨pgd, pud, pmd⟩, masked, counted⟩
  · exact ⟨⟨pgd, pud, pmd⟩, masked, counted⟩
  · exact ⟨⟨fun _ => rfl, fun _ => rfl, fun _ => rfl⟩, rfl, rfl⟩
  · exact ⟨⟨fun _ => rfl, fun _ => rfl, fun _ => rfl⟩, rfl, rfl⟩

theorem PageDumpState.InTables.congr {before after : PageDumpState} (inTables : before.InTables)
    (same : SameAbove 0 before after) : after.InTables where
  pgd := by
    rw [same.pgd (by decide)]
    exact inTables.pgd
  pud := by
    rw [same.pud (by decide)]
    exact inTables.pud
  pmd := by
    rw [same.pmd (by decide)]
    exact inTables.pmd

theorem labelFrom_masked {mem : Memory} {mask : Bool} {level table position key : Nat}
    (label : labelFrom mem mask level table position = some key) : rangeFlags mask key = key := by
  obtain ⟨leaf, _, rfl⟩ := Option.map_eq_some_iff.mp label
  exact rangeFlags_idem mask leaf.flags

section Dumped

variable {mem : Memory} {pgd position : Nat} {mask : Bool} {state : PageDumpState}

theorem Dumped.gap (dumped : Dumped mem pgd mask position state) {stop : Nat}
    (later : position < stop) (bound : stop ≤ 2 ^ 48)
    (unmapped : ∀ place, position ≤ place → place < stop →
      labelFrom mem mask 3 pgd place = none) :
    Dumped mem pgd mask stop (maybeDumpRange state) := by
  obtain ⟨tracker, follows, shows, counted⟩ := dumped.tracked
  have same := maybeDumpRange_same state
  refine ⟨dumped.indexes.congr same.indexes, same.masked.trans dumped.masked, tracker.close,
    follows.close later unmapped, maybeDumpRange_shows shows (follows.within (by omega)), ?_⟩
  rw [same.counted, counted, Tracker.size, Tracker.size, Tracker.close_runs]

structure Counts (count : PageDumpState → PageDumpState) (size : Nat) : Prop where
  indexes : ∀ state, SameAbove 0 state (count state)
  masked : ∀ state, (count state).maskHugeFlag = state.maskHugeFlag
  shows : ∀ tracker state, Shows tracker state → Shows tracker (count state)
  counted : ∀ state, (count state).counted = state.counted + size

theorem Dumped.leaf (dumped : Dumped mem pgd mask position state)
    {count : PageDumpState → PageDumpState} {size flags : Nat} (counts : Counts count size)
    (positive : 0 < size) (aligned : size ∣ position) (divides : size ∣ 2 ^ 47)
    (bound : position + size ≤ 2 ^ 48)
    (mapped : ∀ place, position ≤ place → place < position + size →
      labelFrom mem mask 3 pgd place = some (rangeFlags mask flags)) :
    Dumped mem pgd mask (position + size)
      (count (extendDumpRange state (virtOf position) (add64 (virtOf position) size) flags)) := by
  obtain ⟨tracker, follows, shows, counted⟩ := dumped.tracked
  rw [add64_virtOf aligned divides bound positive]
  have same := extendDumpRange_same state (virtOf position) (stopOf (position + size)) flags
  let piece : Run Nat := ⟨position, position + size, rangeFlags mask flags⟩
  have keys : ∀ run, tracker.current = some run →
      rangeFlags state.maskHugeFlag run.key = run.key := by
    intro run current
    have member : run ∈ tracker.runs := by simp [Tracker.runs, current]
    rw [dumped.masked]
    exact labelFrom_masked (follows.partition.labelled run member run.start
      ⟨Nat.le_refl _, follows.partition.nonempty run member⟩)
  have extended : Shows (tracker.extend piece)
      (extendDumpRange state (virtOf piece.start) (stopOf piece.stop) flags) :=
    extendDumpRange_shows shows (follows.within (by omega)) (by rw [dumped.masked]) keys
  obtain ⟨followed, grown⟩ : Follows (labelFrom mem mask 3 pgd) piece.stop
      (tracker.extend piece) ∧ (tracker.extend piece).size = tracker.size + piece.length :=
    follows.extend rfl (Nat.lt_add_of_pos_right positive) fun place holds =>
      mapped place holds.1 holds.2
  refine ⟨(dumped.indexes.congr same.indexes).congr (counts.indexes _),
    (counts.masked _).trans (same.masked.trans dumped.masked), tracker.extend piece, followed,
    counts.shows _ _ extended, ?_⟩
  rw [counts.counted, same.counted, counted, grown]
  change tracker.size + size = tracker.size + (position + size - position)
  omega

end Dumped

end Zeptux.Page
