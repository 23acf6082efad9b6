import Zeptux.Align
import Zeptux.BitmapCore

/-! Bitmaps as sets of bits, and what the searches find in them. -/

namespace Zeptux

open Word

/-! ## Words -/

theorem findFirstSetBit_cases (word : BitVec 64) :
    (∃ index : Nat, findFirstSetBit word = index ∧ index < 64 ∧ word.getLsbD index = true ∧
      ∀ lower < index, word.getLsbD lower = false) ∨
    findFirstSetBit word = -1 ∧ ∀ index, word.getLsbD index = false := by
  unfold findFirstSetBit
  cases found : (List.range 64).find? word.getLsbD with
  | some index =>
      rw [List.find?_range_eq_some] at found
      obtain ⟨isSet, inside, below⟩ := found
      refine Or.inl ⟨index, rfl, List.mem_range.mp inside, isSet, ?_⟩
      intro lower order
      simpa using below lower order
  | none =>
      rw [List.find?_range_eq_none] at found
      refine Or.inr ⟨rfl, ?_⟩
      intro index
      by_cases inside : index < 64
      · simpa using found index inside
      · exact BitVec.getLsbD_of_ge word index (by omega)

theorem getLsbD_not {word : BitVec 64} {index : Nat} (inside : index < 64) :
    (~~~word).getLsbD index = !word.getLsbD index := by
  simp [inside]

theorem findFirstClearBit_cases (word : BitVec 64) :
    (∃ index : Nat, findFirstClearBit word = index ∧ index < 64 ∧ word.getLsbD index = false ∧
      ∀ lower < index, word.getLsbD lower = true) ∨
    findFirstClearBit word = -1 ∧ ∀ index < 64, word.getLsbD index = true := by
  rcases findFirstSetBit_cases (~~~word) with ⟨index, found, inside, isSet, below⟩ | ⟨found, none⟩
  · refine Or.inl ⟨index, found, inside, ?_, ?_⟩
    · rw [getLsbD_not inside] at isSet
      simpa using isSet
    · intro lower order
      have clear := below lower order
      rw [getLsbD_not (by omega)] at clear
      simpa using clear
  · refine Or.inr ⟨found, ?_⟩
    intro index inside
    have clear := none index
    rw [getLsbD_not inside] at clear
    simpa using clear

def RunEndsAt (word : BitVec 64) (length last : Nat) : Prop :=
  length ≤ last + 1 ∧ ∀ back < length, word.getLsbD (last - back) = true

/-- The loop halves the length: two runs of the rest, `s` bits apart, are one of the whole. -/
theorem narrowBitstring_bit (rounds curr : Nat) (word : BitVec 64) (last : Nat)
    (positive : 0 < curr) (enough : curr ≤ rounds + 1) :
    (narrowBitstring rounds curr word).getLsbD last = true ↔ RunEndsAt word curr last := by
  have single : ∀ word : BitVec 64, word.getLsbD last = true ↔ RunEndsAt word 1 last := by
    intro word
    constructor
    · intro isSet
      refine ⟨by omega, ?_⟩
      intro back inside
      rwa [show last - back = last by omega]
    · intro run
      exact run.2 0 (by omega)
  induction rounds generalizing curr word with
  | zero =>
      have one : curr = 1 := by omega
      rw [one]
      exact single word
  | succ rounds ih =>
      rw [narrowBitstring]
      by_cases more : curr > 1
      · have half : curr >>> 1 = curr / 2 := rfl
        have next := ih (curr - curr / 2) (word &&& word <<< (curr / 2)) (by omega) (by omega)
        rw [if_pos more, half]
        refine next.trans ?_
        have shifted : ∀ index, (word &&& word <<< (curr / 2)).getLsbD index = true ↔
            word.getLsbD index = true ∧ curr / 2 ≤ index ∧
              word.getLsbD (index - curr / 2) = true := by
          intro index
          rw [BitVec.getLsbD_and, BitVec.getLsbD_shiftLeft, Bool.and_eq_true]
          by_cases inside : index < 64
          · simp [inside]
          · simp [BitVec.getLsbD_of_ge word index (by omega)]
        constructor
        · rintro ⟨room, run⟩
          have far := ((shifted _).mp (run (curr - curr / 2 - 1) (by omega))).2.1
          refine ⟨by omega, ?_⟩
          intro back inside
          by_cases near : back < curr - curr / 2
          · exact ((shifted _).mp (run back near)).1
          · have isSet := ((shifted _).mp (run (back - curr / 2) (by omega))).2.2
            rwa [show last - (back - curr / 2) - curr / 2 = last - back by omega] at isSet
        · rintro ⟨room, run⟩
          refine ⟨by omega, ?_⟩
          intro back inside
          refine (shifted _).mpr ⟨run back (by omega), by omega, ?_⟩
          have isSet := run (back + curr / 2) (by omega)
          rwa [show last - (back + curr / 2) = last - back - curr / 2 by omega] at isSet
      · rw [if_neg more, show curr = 1 by omega]
        exact single word

def narrowShifts : Nat → Nat → List Nat
  | 0, _ => []
  | rounds + 1, curr =>
      if curr > 1 then
        let s := curr >>> 1
        s :: narrowShifts rounds (curr - s)
      else []

theorem narrowBitstring_shifts (rounds curr : Nat) (word : BitVec 64) :
    narrowBitstring rounds curr word =
      (narrowShifts rounds curr).foldl (fun word s => word &&& word <<< s) word := by
  induction rounds generalizing curr word with
  | zero => rfl
  | succ rounds ih =>
      rw [narrowBitstring, narrowShifts]
      split
      · exact ih _ _
      · rfl

theorem narrowShifts_lt {rounds curr s : Nat} (used : s ∈ narrowShifts rounds curr) :
    s < curr := by
  induction rounds generalizing curr with
  | zero => cases used
  | succ rounds ih =>
      rw [narrowShifts] at used
      split at used
      case isTrue more =>
        have half : curr >>> 1 = curr / 2 := rfl
        rcases List.mem_cons.mp used with first | later
        · omega
        · have below := ih later
          omega
      case isFalse => cases used

theorem narrowShifts_rounds {rounds curr : Nat} (enough : curr ≤ rounds + 1) (extra : Nat) :
    narrowShifts (rounds + extra) curr = narrowShifts rounds curr := by
  induction rounds generalizing curr with
  | zero =>
      cases extra with
      | zero => rfl
      | succ extra => exact if_neg (by omega)
  | succ rounds ih =>
      rw [Nat.add_right_comm, narrowShifts, narrowShifts]
      have half : curr >>> 1 = curr / 2 := rfl
      split
      · exact congrArg (curr >>> 1 :: ·) (ih (by omega))
      · rfl

def RunStartsAt (word : BitVec 64) (length start : Nat) : Prop :=
  start + length ≤ 64 ∧ ∀ offset < length, word.getLsbD (start + offset) = true

theorem RunEndsAt.starts {word : BitVec 64} {length last : Nat} (run : RunEndsAt word length last)
    (inside : last < 64) : RunStartsAt word length (last + 1 - length) := by
  obtain ⟨room, run⟩ := run
  refine ⟨by omega, ?_⟩
  intro offset low
  have here := run (length - 1 - offset) (by omega)
  rwa [show last - (length - 1 - offset) = last + 1 - length + offset by omega] at here

theorem RunStartsAt.ends {word : BitVec 64} {length start : Nat}
    (run : RunStartsAt word length start) : RunEndsAt word length (start + length - 1) := by
  refine ⟨by omega, ?_⟩
  intro back low
  have here := run.2 (length - 1 - back) (by omega)
  rwa [show start + (length - 1 - back) = start + length - 1 - back by omega] at here

theorem findBitstringLongerThan_cases (word : BitVec 64) {n : Nat} (positive : 0 < n) :
    (∃ start : Nat, findBitstringLongerThan word n = start ∧ RunStartsAt word n start ∧
      ∀ lower < start, ¬RunStartsAt word n lower) ∨
    findBitstringLongerThan word n = -1 ∧ ∀ start, ¬RunStartsAt word n start := by
  have marked := fun last => narrowBitstring_bit n n word last positive (by omega)
  unfold findBitstringLongerThan
  rw [Int.toNat_natCast]
  rcases findFirstSetBit_cases (narrowBitstring n n word) with
    ⟨last, answer, inside, isSet, below⟩ | ⟨answer, nothing⟩
  · have ends := (marked last).mp isSet
    have room := ends.1
    refine Or.inl ⟨last + 1 - n, ?_, ends.starts inside, ?_⟩
    · simp only [answer]
      rw [if_neg (by omega)]
      omega
    · intro lower order run
      have unset := below (lower + n - 1) (by omega)
      rw [(marked _).mpr (run.ends)] at unset
      cases unset
  · refine Or.inr ⟨by simp only [answer]; rfl, ?_⟩
    intro start run
    have unset := nothing (start + n - 1)
    rw [(marked _).mpr (run.ends)] at unset
    cases unset

/-- The first run is returned, and `-1` exactly when there is none. The loop has ended after `n`
rounds and shifts by less than the width of a word. -/
theorem findBitstringLongerThan_first (word : BitVec 64) {n : Nat} (positive : 1 ≤ n)
    (short : n ≤ 64) :
    ((∃ start, RunStartsAt word n start) →
      ∃ first : Nat, findBitstringLongerThan word n = first ∧ RunStartsAt word n first ∧
        ∀ lower < first, ¬RunStartsAt word n lower) ∧
    (findBitstringLongerThan word n = -1 ↔ ∀ start, ¬RunStartsAt word n start) ∧
    (∀ rounds ≥ n, narrowBitstring rounds n word =
      (narrowShifts n n).foldl (fun word s => word &&& word <<< s) word) ∧
    ∀ s ∈ narrowShifts n n, s < 64 := by
  refine ⟨?_, ?_, ?_, ?_⟩
  · rintro ⟨start, run⟩
    rcases findBitstringLongerThan_cases word positive with found | ⟨_, nothing⟩
    · exact found
    · exact absurd run (nothing start)
  · rcases findBitstringLongerThan_cases word positive with ⟨first, answer, run, _⟩ | missing
    · exact iff_of_false (by omega) fun nothing => nothing first run
    · exact iff_of_true missing.1 missing.2
  · intro rounds enough
    obtain ⟨extra, rfl⟩ := Nat.exists_eq_add_of_le enough
    rw [narrowBitstring_shifts, narrowShifts_rounds (by omega)]
  · intro s used
    have below := narrowShifts_lt used
    omega

theorem three_bits_found :
    (∃ first : Nat, findBitstringLongerThan 0b1110011#64 3 = first ∧
      RunStartsAt 0b1110011#64 3 first) ∧ findBitstringLongerThan 0b1110011#64 3 = 4 := by
  have run : RunStartsAt 0b1110011#64 3 4 := ⟨by decide, by decide⟩
  obtain ⟨first, answer, here, least⟩ :=
    (findBitstringLongerThan_first 0b1110011#64 (by decide) (by decide)).1 ⟨4, run⟩
  exact ⟨⟨first, answer, here⟩, by decide⟩

namespace Bitmap

/-! ## Single bits -/

theorem mask_getLsbD {bit index : Nat} :
    (1#64 <<< (bit % 64)).getLsbD index = decide (index = bit % 64) := by
  rw [BitVec.getLsbD_shiftLeft, BitVec.getLsbD_one]
  by_cases same : index = bit % 64
  · subst same
    simp [Nat.mod_lt bit (by omega : 0 < 64)]
  · by_cases low : index < bit % 64
    · simp [low, same]
    · simp [same]
      omega

theorem isSet_eq (bitmap : Bitmap) (bit : Nat) :
    bitmap.isSet bit = (bitmap.data (bit / 64)).getLsbD (bit % 64) := by
  rw [Bool.eq_iff_iff, isSet, beq_iff_eq]
  constructor
  · intro same
    have here := congrArg (fun word => word.getLsbD (bit % 64)) same
    simpa [mask_getLsbD, Nat.mod_lt bit (by omega : 0 < 64)] using here
  · intro isSet
    apply BitVec.eq_of_getLsbD_eq
    intro index inside
    rw [BitVec.getLsbD_and, mask_getLsbD]
    by_cases same : index = bit % 64
    · simp [same, isSet]
    · simp [same]

theorem isSet_setBit (bitmap : Bitmap) (bit other : Nat) :
    (bitmap.setBit bit).isSet other = (decide (other = bit) || bitmap.isSet other) := by
  rw [isSet_eq, isSet_eq, setBit]
  by_cases word : other / 64 = bit / 64
  · simp only [word, ↓reduceIte]
    rw [BitVec.getLsbD_or, mask_getLsbD, Bool.or_comm]
    congr 1
    exact decide_eq_decide.mpr ⟨fun same => by omega, fun same => by omega⟩
  · have different : other ≠ bit := fun same => word (by rw [same])
    simp [word, different]

theorem isSet_toggled (bitmap : Bitmap) (bit other : Nat) :
    (bitmap.clearBit bit).isSet other = (decide (other = bit) ^^ bitmap.isSet other) := by
  rw [isSet_eq, isSet_eq, clearBit]
  by_cases word : other / 64 = bit / 64
  · simp only [word, ↓reduceIte]
    rw [BitVec.getLsbD_xor, mask_getLsbD, Bool.xor_comm]
    congr 1
    exact decide_eq_decide.mpr ⟨fun same => by omega, fun same => by omega⟩
  · have different : other ≠ bit := fun same => word (by rw [same])
    simp [word, different]

theorem isSet_init (bitmap : Bitmap) {numBits bit : Nat} (clear : ∀ index, bitmap.data index = 0) :
    (bitmap.init numBits).isSet bit = false := by
  rw [isSet_eq, init, clearAll]
  simp [clear]

/-! ## Searching -/

structure Sized (bitmap : Bitmap) (count : Nat) : Prop where
  numBits : bitmap.numBits = count
  room : count ≤ bitmap.numWords * 64
  small : bitmap.numWords * 64 < 2 ^ 31

theorem Sized.setBit {bitmap : Bitmap} {count : Nat} (sized : bitmap.Sized count) (bit : Nat) :
    (bitmap.setBit bit).Sized count :=
  ⟨sized.numBits, sized.room, sized.small⟩

/-- Without a bound on the words the product with 64 wraps. -/
theorem searchFrom_wraps (bitmap : Bitmap) (search : BitVec 64 → Option Int)
    (remaining index : Nat) :
    (∃ word offset, index ≤ word ∧ word < index + remaining ∧
      search (bitmap.data word) = some offset ∧
      (∀ lower, index ≤ lower → lower < word → search (bitmap.data lower) = none) ∧
      bitmap.searchFrom search remaining index = (word * 64 % 2 ^ 32 : Nat) + offset) ∨
    bitmap.searchFrom search remaining index = -1 ∧
      ∀ word, index ≤ word → word < index + remaining → search (bitmap.data word) = none := by
  induction remaining generalizing index with
  | zero => exact Or.inr ⟨rfl, fun word low high => by omega⟩
  | succ remaining ih =>
      rw [searchFrom]
      cases found : search (bitmap.data index) with
      | some offset =>
          exact Or.inl ⟨index, offset, Nat.le_refl _, by omega, found, fun _ _ _ => by omega, rfl⟩
      | none =>
          have first : ∀ lower, index ≤ lower → ¬index + 1 ≤ lower →
              search (bitmap.data lower) = none := by
            intro lower low notLater
            rwa [show lower = index by omega]
          rcases ih (index + 1) with
            ⟨word, offset, low, high, answer, before, result⟩ | ⟨result, nothing⟩
          · refine Or.inl ⟨word, offset, by omega, by omega, answer, ?_, result⟩
            intro lower lowerLow lowerHigh
            by_cases later : index + 1 ≤ lower
            · exact before lower later lowerHigh
            · exact first lower lowerLow later
          · refine Or.inr ⟨result, ?_⟩
            intro word low high
            by_cases later : index + 1 ≤ word
            · exact nothing word later (by omega)
            · exact first word low later

theorem searchFrom_cases (bitmap : Bitmap) (search : BitVec 64 → Option Int) (remaining index : Nat)
    (small : (index + remaining) * 64 ≤ 2 ^ 32) :
    (∃ word offset, index ≤ word ∧ word < index + remaining ∧
      search (bitmap.data word) = some offset ∧
      (∀ lower, index ≤ lower → lower < word → search (bitmap.data lower) = none) ∧
      bitmap.searchFrom search remaining index = (word * 64 : Nat) + offset) ∨
    bitmap.searchFrom search remaining index = -1 ∧
      ∀ word, index ≤ word → word < index + remaining → search (bitmap.data word) = none := by
  rcases searchFrom_wraps bitmap search remaining index with
    ⟨word, offset, low, high, found, before, result⟩ | nothing
  · rw [Nat.mod_eq_of_lt (by omega : word * 64 < 2 ^ 32)] at result
    exact Or.inl ⟨word, offset, low, high, found, before, result⟩
  · exact Or.inr nothing

def Finds (search : BitVec 64 → Option Int) (wanted : Bool) : Prop :=
  ∀ word : BitVec 64,
    (∃ index : Nat, search word = some (index : Int) ∧ index < 64 ∧
      word.getLsbD index = wanted ∧ ∀ lower < index, word.getLsbD lower = !wanted) ∨
    search word = none ∧ ∀ index < 64, word.getLsbD index = !wanted

/-- The answer is an `int64_t` computed from a `uint32_t`, so it is taken modulo `2 ^ 32`. -/
theorem Finds.first {search : BitVec 64 → Option Int} {wanted : Bool} (finds : Finds search wanted)
    (bitmap : Bitmap) :
    (∃ bit : Nat, bitmap.searchFrom search bitmap.numWords 0 = (bit % 2 ^ 32 : Nat) ∧
      bit < bitmap.numWords * 64 ∧ bitmap.isSet bit = wanted ∧
      ∀ lower < bit, bitmap.isSet lower = !wanted) ∨
    bitmap.searchFrom search bitmap.numWords 0 = -1 ∧
      ∀ bit < bitmap.numWords * 64, bitmap.isSet bit = !wanted := by
  have passed : ∀ word, search (bitmap.data word) = none →
      ∀ bit, bit / 64 = word → bitmap.isSet bit = !wanted := by
    intro word nothing bit place
    rcases finds (bitmap.data word) with ⟨index, answer, _⟩ | ⟨_, all⟩
    · rw [answer] at nothing
      cases nothing
    · rw [isSet_eq, place]
      exact all _ (Nat.mod_lt _ (by omega))
  rcases searchFrom_wraps bitmap search bitmap.numWords 0 with
    ⟨word, offset, _, high, answer, before, result⟩ | ⟨result, nothing⟩
  · rcases finds (bitmap.data word) with ⟨index, found, inside, here, below⟩ | ⟨found, _⟩
    · rw [found] at answer
      obtain rfl := Option.some.inj answer
      refine Or.inl ⟨word * 64 + index, ?_, by omega, ?_, ?_⟩
      · rw [result]
        omega
      · rw [isSet_eq, show (word * 64 + index) / 64 = word by omega,
          show (word * 64 + index) % 64 = index by omega]
        exact here
      · intro lower order
        by_cases earlier : lower / 64 < word
        · exact passed _ (before _ (Nat.zero_le _) earlier) lower rfl
        · rw [isSet_eq, show lower / 64 = word by omega]
          exact below _ (by omega)
    · rw [found] at answer
      cases answer
  · refine Or.inr ⟨result, ?_⟩
    intro bit bound
    exact passed _ (nothing _ (Nat.zero_le _) (by omega)) bit rfl

theorem setSearch_finds : Finds (fun word =>
    let index := findFirstSetBit word
    if index ≠ -1 then some index else none) true := by
  intro word
  rcases findFirstSetBit_cases word with ⟨index, found, inside, isSet, below⟩ | ⟨found, none⟩
  · refine Or.inl ⟨index, ?_, inside, isSet, below⟩
    simp only [found]
    exact if_pos (by omega)
  · refine Or.inr ⟨?_, fun index _ => none index⟩
    simp [found]

theorem clearSearch_finds : Finds (fun word =>
    let index := findFirstClearBit word
    if index ≠ -1 then some index else none) false := by
  intro word
  rcases findFirstClearBit_cases word with ⟨index, found, inside, clear, below⟩ | ⟨found, all⟩
  · refine Or.inl ⟨index, ?_, inside, clear, below⟩
    simp only [found]
    exact if_pos (by omega)
  · refine Or.inr ⟨?_, all⟩
    simp [found]

theorem firstClear_cases {bitmap : Bitmap} {count : Nat} (sized : bitmap.Sized count) :
    (∃ bit : Nat, bitmap.firstClear = bit ∧ bit < count ∧ bitmap.isSet bit = false ∧
      ∀ lower < bit, bitmap.isSet lower = true) ∨
    bitmap.firstClear = -1 ∧ ∀ bit < count, bitmap.isSet bit = true := by
  obtain ⟨rfl, room, small⟩ := sized
  unfold firstClear
  rcases clearSearch_finds.first bitmap with ⟨bit, result, inside, clear, below⟩ | ⟨result, all⟩
  · rw [Nat.mod_eq_of_lt (by omega)] at result
    simp only [result]
    by_cases out : bit ≥ bitmap.numBits
    · exact Or.inr ⟨if_pos (by omega), fun lower bound => below lower (by omega)⟩
    · exact Or.inl ⟨bit, if_neg (by omega), by omega, clear, below⟩
  · simp only [result]
    exact Or.inr ⟨if_neg (by omega), fun bit bound => all bit (by omega)⟩

def ClearRun (bitmap : Bitmap) (n start : Nat) : Prop :=
  start % 64 + n ≤ 64 ∧ ∀ offset < n, bitmap.isSet (start + offset) = false

theorem clearRun_iff (bitmap : Bitmap) (n : Nat) {word offset : Nat} (inside : offset < 64) :
    bitmap.ClearRun n (word * 64 + offset) ↔ RunStartsAt (~~~bitmap.data word) n offset := by
  rw [ClearRun, RunStartsAt, show (word * 64 + offset) % 64 = offset by omega]
  refine and_congr_right fun room => forall₂_congr fun place low => ?_
  rw [isSet_eq, getLsbD_not (by omega), show (word * 64 + offset + place) / 64 = word by omega,
    show (word * 64 + offset + place) % 64 = offset + place by omega]
  simp

/-- What `bitmap_zero_string_longer_than` looks for in a word. -/
def zeroSearch (n : Int) (word : BitVec 64) : Option Int :=
  let index := findBitstringLongerThan (~~~word) n
  if index > 0 then some index else none

theorem zeroSearch_none {bitmap : Bitmap} {n word : Nat} (positive : 0 < n)
    (nothing : zeroSearch n (bitmap.data word) = none) {start : Nat} (place : start / 64 = word)
    (run : bitmap.ClearRun n start) : bitmap.ClearRun n (word * 64) := by
  have split : start = word * 64 + start % 64 := by omega
  rw [split, clearRun_iff bitmap n (Nat.mod_lt _ (by omega))] at run
  rcases findBitstringLongerThan_cases (~~~bitmap.data word) positive with
    ⟨first, answer, here, _⟩ | ⟨_, none⟩
  · have zero : first = 0 := by
      by_contra more
      simp only [zeroSearch, answer] at nothing
      rw [if_pos (by omega)] at nothing
      cases nothing
    rw [zero, ← clearRun_iff bitmap n (by omega)] at here
    exact here
  · exact absurd run (none _)

theorem zeroSearch_some {bitmap : Bitmap} {n word : Nat} (positive : 0 < n) {index : Int}
    (found : zeroSearch n (bitmap.data word) = some index) :
    ∃ offset : Nat, index = offset ∧ 0 < offset ∧ offset < 64 ∧
      bitmap.ClearRun n (word * 64 + offset) ∧
      ∀ lower < offset, ¬bitmap.ClearRun n (word * 64 + lower) := by
  rcases findBitstringLongerThan_cases (~~~bitmap.data word) positive with
    ⟨offset, answer, here, before⟩ | ⟨answer, _⟩
  · simp only [zeroSearch, answer] at found
    split at found
    · rename_i more
      cases found
      have room := here.1
      refine ⟨offset, rfl, by omega, by omega, ?_, ?_⟩
      · exact (clearRun_iff bitmap n (by omega)).mpr here
      · intro lower order run
        exact before lower order ((clearRun_iff bitmap n (by omega)).mp run)
    · cases found
  · simp [zeroSearch, answer] at found

/-- The loop stops at the first run that is the first of its word and not at its beginning. -/
theorem zeroSearch_cases {bitmap : Bitmap} {n : Nat} (positive : 0 < n)
    (small : bitmap.numWords * 64 ≤ 2 ^ 32) :
    (∃ bit : Nat, bitmap.searchFrom (zeroSearch n) bitmap.numWords 0 = bit ∧
      bit < bitmap.numWords * 64 ∧ bitmap.ClearRun n bit ∧ ¬bitmap.ClearRun n (bit / 64 * 64) ∧
      ∀ lower < bit, bitmap.ClearRun n lower →
        lower / 64 < bit / 64 ∧ bitmap.ClearRun n (lower / 64 * 64)) ∨
    bitmap.searchFrom (zeroSearch n) bitmap.numWords 0 = -1 ∧
      ∀ bit < bitmap.numWords * 64, bitmap.ClearRun n bit → bitmap.ClearRun n (bit / 64 * 64) := by
  rcases searchFrom_cases bitmap (zeroSearch n) bitmap.numWords 0 (by omega) with
    ⟨word, index, _, high, found, before, result⟩ | ⟨result, nothing⟩
  · obtain ⟨offset, rfl, more, inside, run, first⟩ := zeroSearch_some positive found
    rw [← Int.natCast_add] at result
    have here : (word * 64 + offset) / 64 = word := by omega
    refine Or.inl ⟨word * 64 + offset, result, by omega, run, ?_, ?_⟩
    · rw [here]
      exact first 0 more
    · intro lower order lowerRun
      have earlier : lower / 64 < word := by
        by_contra same
        refine first (lower % 64) (by omega) ?_
        rwa [show word * 64 + lower % 64 = lower by omega]
      rw [here]
      exact ⟨earlier, zeroSearch_none positive (before _ (Nat.zero_le _) earlier) rfl lowerRun⟩
  · refine Or.inr ⟨result, ?_⟩
    intro bit inside run
    exact zeroSearch_none positive (nothing _ (Nat.zero_le _) (by omega)) rfl run

theorem zeroStringLongerThan_eq (bitmap : Bitmap) {n : Nat} (short : n ≤ 64) :
    bitmap.zeroStringLongerThan n =
      if toInt32 (bitmap.searchFrom (zeroSearch n) bitmap.numWords 0) ≥ toInt32 bitmap.numBits ∨
          toInt32 (toInt32 (bitmap.searchFrom (zeroSearch n) bitmap.numWords 0) + n) >
            toInt32 bitmap.numBits
      then -1 else toInt32 (bitmap.searchFrom (zeroSearch n) bitmap.numWords 0) := by
  rw [zeroStringLongerThan, if_neg (by omega)]
  rfl

/-- The run ends at bit `2 ^ 31` and begins inside the bitmap, which it leaves: its end is
not an `int`. -/
def Wraps (bitmap : Bitmap) (n bit : Nat) : Prop := bit + n = 2 ^ 31 ∧ bit < bitmap.numBits

theorem Sized.not_wraps {bitmap : Bitmap} {count n bit : Nat} (sized : bitmap.Sized count)
    (short : n ≤ 64) : ¬bitmap.Wraps n bit := by
  rintro ⟨sum, started⟩
  obtain ⟨bits, room, small⟩ := sized
  omega

theorem zeroStringLongerThan_of_search {bitmap : Bitmap} {n bit : Nat} (short : n ≤ 64)
    (bits : bitmap.numBits < 2 ^ 31) (below : bit + n ≤ 2 ^ 31) (positive : 0 < n)
    (result : bitmap.searchFrom (zeroSearch n) bitmap.numWords 0 = bit) :
    bitmap.zeroStringLongerThan n =
      open Classical in
      if bit + n ≤ bitmap.numBits ∨ bitmap.Wraps n bit then (bit : Int) else -1 := by
  rw [zeroStringLongerThan_eq bitmap short, toInt32_eq bits, result,
    toInt32_eq (by omega : bit < 2 ^ 31), ← Int.natCast_add, Wraps]
  by_cases last : bit + n = 2 ^ 31
  · rw [last, toInt32_large (le_refl _) (by decide)]
    split_ifs <;> omega
  · rw [toInt32_eq (by omega : bit + n < 2 ^ 31)]
    split_ifs <;> omega

theorem zeroStringLongerThan_cases {bitmap : Bitmap} {n : Nat} (positive : 0 < n) (short : n ≤ 64)
    (room : bitmap.numBits ≤ bitmap.numWords * 64) (bits : bitmap.numBits < 2 ^ 31)
    (words : bitmap.numWords * 64 ≤ 2 ^ 31) :
    (∃ bit : Nat, bitmap.zeroStringLongerThan n = bit ∧
      (bit + n ≤ bitmap.numBits ∨ bitmap.Wraps n bit) ∧
      bitmap.ClearRun n bit ∧ ¬bitmap.ClearRun n (bit / 64 * 64) ∧
      ∀ lower < bit, bitmap.ClearRun n lower → bitmap.ClearRun n (lower / 64 * 64)) ∨
    bitmap.zeroStringLongerThan n = -1 ∧
      (∀ bit, bit + n ≤ bitmap.numBits → bitmap.ClearRun n bit →
        bitmap.ClearRun n (bit / 64 * 64)) ∧
      ∀ bit, bitmap.Wraps n bit → bitmap.ClearRun n bit →
        bitmap.ClearRun n (bit / 64 * 64) ∨ ∃ lower < bit, bitmap.ClearRun n lower := by
  rcases zeroSearch_cases positive (by omega : bitmap.numWords * 64 ≤ 2 ^ 32) with
    ⟨bit, result, inside, run, notFirst, before⟩ | ⟨result, nothing⟩
  · have below := run.1
    have answer := zeroStringLongerThan_of_search short bits (by omega) positive result
    by_cases taken : bit + n ≤ bitmap.numBits ∨ bitmap.Wraps n bit
    · rw [if_pos taken] at answer
      exact Or.inl ⟨bit, answer, taken, run, notFirst,
        fun lower order runs => (before lower order runs).2⟩
    · rw [if_neg taken] at answer
      have passed := not_or.mp taken
      refine Or.inr ⟨answer, ?_, ?_⟩
      · intro lower fits runs
        exact (before lower (by omega) runs).2
      · intro last wraps runs
        refine Or.inr ⟨bit, ?_, run⟩
        by_contra order
        obtain ⟨sum, started⟩ := wraps
        exact passed.2 ⟨by omega, by omega⟩
  · refine Or.inr ⟨?_, fun bit below run => nothing bit (by omega) run, ?_⟩
    · rw [zeroStringLongerThan_eq bitmap short, result]
      exact ite_self _
    · intro bit wraps run
      exact Or.inl (nothing bit (Nat.lt_of_lt_of_le wraps.2 room) run)

/-- A run of clear bits; what the answer `-1` means is left open. -/
theorem zeroStringLongerThan_sound {bitmap : Bitmap} {count n : Nat} (sized : bitmap.Sized count)
    (positive : 0 < n) (found : bitmap.zeroStringLongerThan n ≠ -1) :
    ∃ bit : Nat, bitmap.zeroStringLongerThan n = bit ∧ bit + n ≤ count ∧
      ∀ offset < n, bitmap.isSet (bit + offset) = false := by
  have short : n ≤ 64 := by
    by_contra long
    exact found (if_pos (by omega))
  have unwrapped : ∀ bit, ¬bitmap.Wraps n bit := fun _ => sized.not_wraps short
  obtain ⟨rfl, room, small⟩ := sized
  rcases zeroStringLongerThan_cases positive short room (by omega) (by omega) with
    ⟨bit, result, fits | wraps, run, _⟩ | ⟨result, _⟩
  · exact ⟨bit, result, fits, run.2⟩
  · exact absurd wraps (unwrapped bit)
  · exact absurd result found

theorem calcWords_eq {count : Nat} (small : count < 2 ^ 63) :
    calcWords count = (count + 63) / 64 := by
  have up := alignUp_eq (by omega : count + (2 ^ 6 - 1) < 2 ^ 64) (by omega)
  rw [show 2 ^ 6 = 64 by decide] at up
  rw [calcWords, up]
  omega

theorem init_sized {bitmap : Bitmap} {count : Nat} (small : count < 2 ^ 30) :
    (bitmap.init count).Sized count := by
  have words := calcWords_eq (by omega : count < 2 ^ 63)
  refine ⟨Nat.mod_eq_of_lt (by omega), ?_, ?_⟩
  · change count ≤ calcWords count % 2 ^ 32 * 64
    rw [words]
    omega
  · change calcWords count % 2 ^ 32 * 64 < 2 ^ 31
    rw [words]
    omega

end Bitmap

end Zeptux
