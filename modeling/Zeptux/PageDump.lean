import Zeptux.PageDumpWalk

/-!
What `dump_mapped_pages` reports. The addresses it prints are right unless a run of pages
reaches over the middle or to the end of the address space.
-/

namespace Zeptux.Page

open Word X86Paging Runs

def DumpedRange.Holds (range : DumpedRange) (address : Nat) : Prop :=
  range.start ≤ address ∧ address < range.stop

def SameFlags (mask : Bool) (left right : Nat) : Prop :=
  ∀ bit, (mask = true → bit ≠ pageFlagPseBit) → left.testBit bit = right.testBit bit

/-- The dump shows exactly what the tables map. -/
structure Reports (mem : Memory) (pgd : Nat) (mask : Bool) (dump : PageDump) : Prop where
  nonempty : ∀ range ∈ dump.ranges, range.start < range.stop
  ascending : dump.ranges.Pairwise fun first second => first.stop ≤ second.start
  covers : ∀ address, (∃ range ∈ dump.ranges, range.Holds address) ↔
    ∃ leaf, walk mem pgd address = some leaf
  flags : ∀ range ∈ dump.ranges, ∀ address, range.Holds address → ∀ leaf,
    walk mem pgd address = some leaf → SameFlags mask leaf.flags range.rawFlags
  total : (dump.ranges.map fun range => range.stop - range.start).sum = dump.totalBytes

/-- The last page of the lower half and the first of the upper half would share a range. -/
def MappedOverHole (mem : Memory) (pgd : Nat) (mask : Bool) : Prop :=
  ∃ low high, walk mem pgd (2 ^ 47 - 1) = some low ∧ walk mem pgd (2 ^ 64 - 2 ^ 47) = some high ∧
    SameFlags mask low.flags high.flags

/-! ## Flags -/

theorem testBit_rangeFlags {mask : Bool} {flags bit : Nat} (word : flags < 2 ^ 64) :
    (rangeFlags mask flags).testBit bit =
      (flags.testBit bit && !(mask && decide (bit = pageFlagPseBit))) := by
  cases mask with
  | false => simp [rangeFlags]
  | true =>
      simp only [rangeFlags, ↓reduceIte, bitMaskExcluding, not64, Nat.testBit_and,
        Nat.testBit_xor, Nat.testBit_two_pow_sub_one, Nat.testBit_two_pow, Bool.true_and]
      by_cases inside : bit < 64
      · simp [inside, eq_comm]
      · have zero : flags.testBit bit = false := Nat.testBit_lt_two_pow
          (Nat.lt_of_lt_of_le word (Nat.pow_le_pow_right (by decide) (by omega)))
        simp [zero]

theorem rangeFlags_eq_iff {mask : Bool} {left right : Nat} (leftWord : left < 2 ^ 64)
    (rightWord : right < 2 ^ 64) :
    rangeFlags mask left = rangeFlags mask right ↔ SameFlags mask left right := by
  constructor
  · intro same bit shown
    have bits := congrArg (fun flags => flags.testBit bit) same
    simp only [testBit_rangeFlags leftWord, testBit_rangeFlags rightWord] at bits
    have kept : (mask && decide (bit = pageFlagPseBit)) = false := by
      cases mask with
      | false => rfl
      | true => simpa using shown rfl
    simpa [kept] using bits
  · intro same
    apply Nat.eq_of_testBit_eq
    intro bit
    rw [testBit_rangeFlags leftWord, testBit_rangeFlags rightWord]
    by_cases masked : mask = true ∧ bit = pageFlagPseBit
    · simp [masked.1, masked.2]
    · rw [same bit fun on here => masked ⟨on, here⟩]

theorem rangeFlags_lt (mask : Bool) {flags : Nat} (word : flags < 2 ^ 64) :
    rangeFlags mask flags < 2 ^ 64 := by
  unfold rangeFlags
  split
  · exact Nat.lt_of_le_of_lt Nat.and_le_left word
  · exact word

theorem flagsOf_lt (entry : Nat) : flagsOf entry < 2 ^ 64 := by
  unfold flagsOf
  omega

theorem walkFrom_flags_lt {mem : Memory} {level table address : Nat} {leaf : Leaf}
    (found : walkFrom mem level table address = some leaf) : leaf.flags < 2 ^ 64 := by
  induction level generalizing table with
  | zero =>
      simp only [walkFrom] at found
      split at found
      · obtain rfl := Option.some.inj found
        exact flagsOf_lt _
      · cases found
  | succ level ih =>
      simp only [walkFrom] at found
      split at found
      · cases found
      · split at found
        · obtain rfl := Option.some.inj found
          exact flagsOf_lt _
        · exact ih found

theorem walk_eq_some_iff {mem : Memory} {pgd address : Nat} {leaf : Leaf} :
    walk mem pgd address = some leaf ↔
      Canonical address ∧ walkFrom mem 3 pgd address = some leaf := by
  rw [walk]
  split
  · rename_i canonical
    simp [canonical]
  · rename_i outside
    simp [outside]

theorem labelFrom_eq_some_iff {mem : Memory} {pgd address key : Nat} {mask : Bool}
    (canonical : Canonical address) :
    labelFrom mem mask 3 pgd (address % 2 ^ 48) = some key ↔
      ∃ leaf, walk mem pgd address = some leaf ∧ rangeFlags mask leaf.flags = key := by
  have congruent : address % 2 ^ 48 % entrySize 4 = address % entrySize 4 := by
    rw [(by rw [entrySize] : entrySize 4 = 2 ^ 48), Nat.mod_mod]
  have sameFlags : labelFrom mem mask 3 pgd (address % 2 ^ 48) =
      labelFrom mem mask 3 pgd address := by
    rw [labelFrom, labelFrom, walkFrom_mod mem pgd congruent]
  rw [sameFlags, labelFrom, Option.map_eq_some_iff]
  simp only [walk_eq_some_iff, canonical, true_and]

/-! ## The addresses of a run -/

def Plain (run : Run Nat) : Prop :=
  run.stop ≤ 2 ^ 47 ∨ 2 ^ 47 ≤ run.start ∧ run.stop < 2 ^ 48

theorem Plain.addresses {run : Run Nat} (plain : Plain run) (nonempty : run.start < run.stop) :
    (dumpedRange run).start = virtOf run.start ∧
      (dumpedRange run).stop = virtOf run.start + run.length := by
  simp only [dumpedRange, printedStop, stopOf, virtOf, Run.length, true_and]
  rcases plain with low | ⟨high, bound⟩
  · rw [if_neg (by omega), if_pos low, if_pos (by omega)]
    omega
  · rw [if_neg (by omega), if_neg (by omega), if_neg (by omega), Nat.mod_eq_of_lt (by omega)]
    omega

theorem Plain.holds_iff {run : Run Nat} (plain : Plain run) (nonempty : run.start < run.stop)
    (address : Nat) :
    (dumpedRange run).Holds address ↔ Canonical address ∧ run.Holds (address % 2 ^ 48) := by
  obtain ⟨start, stop⟩ := plain.addresses nonempty
  rw [DumpedRange.Holds, start, stop, virtOf, Run.length, Canonical, Run.Holds]
  rcases plain with low | ⟨high, bound⟩
  · rw [if_pos (by omega)]
    omega
  · rw [if_neg (by omega)]
    omega

theorem printed_stop_lt (run : Run Nat) : (dumpedRange run).stop < 2 ^ 64 := by
  simp only [dumpedRange, printedStop, stopOf]
  split
  · decide
  · split
    · omega
    · exact Nat.mod_lt _ (by decide)

section Partition

variable {mem : Memory} {pgd : Nat} {mask : Bool} {runs : List (Run Nat)}

theorem reports_of_plain
    (partition : Partition (labelFrom mem mask 3 pgd) (2 ^ 48) runs)
    (plain : ∀ run ∈ runs, Plain run) {dump : PageDump}
    (ranges : dump.ranges = runs.map dumpedRange)
    (total : dump.totalBytes = (runs.map Run.length).sum) : Reports mem pgd mask dump where
  nonempty := by
    rw [ranges]
    simp only [List.mem_map, forall_exists_index, and_imp, forall_apply_eq_imp_iff₂]
    intro run member
    have nonempty := partition.nonempty run member
    obtain ⟨start, stop⟩ := (plain run member).addresses nonempty
    rw [start, stop, Run.length]
    omega
  ascending := by
    rw [ranges, List.pairwise_map]
    refine partition.apart.imp_of_mem ?_
    intro first second firstIn secondIn apart
    have firstNonempty := partition.nonempty first firstIn
    have secondNonempty := partition.nonempty second secondIn
    have firstPlain := plain first firstIn
    obtain ⟨_, firstStop⟩ := firstPlain.addresses firstNonempty
    obtain ⟨secondStart, _⟩ := (plain second secondIn).addresses secondNonempty
    have order := apart.1
    rw [firstStop, secondStart, virtOf, virtOf, Run.length]
    rcases firstPlain with low | ⟨high, _⟩
    · rw [if_pos (by omega)]
      split <;> omega
    · rw [if_neg (by omega), if_neg (by omega)]
      omega
  covers := by
    intro address
    rw [ranges]
    constructor
    · rintro ⟨range, member, holds⟩
      obtain ⟨run, runMember, rfl⟩ := List.mem_map.mp member
      obtain ⟨canonical, here⟩ :=
        ((plain run runMember).holds_iff (partition.nonempty run runMember) address).mp holds
      have label := partition.labelled run runMember _ here
      obtain ⟨leaf, found, _⟩ := (labelFrom_eq_some_iff canonical).mp label
      exact ⟨leaf, found⟩
    · rintro ⟨leaf, found⟩
      have canonical := (walk_eq_some_iff.mp found).1
      have label : labelFrom mem mask 3 pgd (address % 2 ^ 48) =
          some (rangeFlags mask leaf.flags) :=
        (labelFrom_eq_some_iff canonical).mpr ⟨leaf, found, rfl⟩
      obtain ⟨run, member, here⟩ :=
        partition.covered _ (Nat.mod_lt _ (by decide)) _ label
      refine ⟨dumpedRange run, List.mem_map_of_mem member, ?_⟩
      exact ((plain run member).holds_iff (partition.nonempty run member) address).mpr
        ⟨canonical, here⟩
  flags := by
    rw [ranges]
    intro range member address holds leaf found
    obtain ⟨run, runMember, rfl⟩ := List.mem_map.mp member
    obtain ⟨canonical, here⟩ :=
      ((plain run runMember).holds_iff (partition.nonempty run runMember) address).mp holds
    have label := partition.labelled run runMember _ here
    obtain ⟨other, sameLeaf, key⟩ := (labelFrom_eq_some_iff canonical).mp label
    obtain rfl := Option.some.inj (found.symm.trans sameLeaf)
    have word := walkFrom_flags_lt (walk_eq_some_iff.mp found).2
    change SameFlags mask leaf.flags run.key
    rw [← key]
    exact (rangeFlags_eq_iff word (rangeFlags_lt mask word)).mp (rangeFlags_idem mask _).symm
  total := by
    rw [ranges, total, List.map_map]
    congr 1
    apply List.map_congr_left
    intro run member
    obtain ⟨start, stop⟩ := (plain run member).addresses (partition.nonempty run member)
    rw [Function.comp_apply, start, stop]
    omega

theorem mappedOverHole_iff :
    MappedOverHole mem pgd mask ↔ ∃ key, labelFrom mem mask 3 pgd (2 ^ 47 - 1) = some key ∧
      labelFrom mem mask 3 pgd (2 ^ 47) = some key := by
  have lowLabel : ∀ key, labelFrom mem mask 3 pgd (2 ^ 47 - 1) = some key ↔
      ∃ leaf, walk mem pgd (2 ^ 47 - 1) = some leaf ∧ rangeFlags mask leaf.flags = key :=
    fun key => labelFrom_eq_some_iff (by decide : Canonical (2 ^ 47 - 1))
  have highLabel : ∀ key, labelFrom mem mask 3 pgd (2 ^ 47) = some key ↔
      ∃ leaf, walk mem pgd (2 ^ 64 - 2 ^ 47) = some leaf ∧ rangeFlags mask leaf.flags = key :=
    fun key => labelFrom_eq_some_iff (by decide : Canonical (2 ^ 64 - 2 ^ 47))
  simp only [lowLabel, highLabel]
  constructor
  · rintro ⟨low, high, lowFound, highFound, same⟩
    have lowWord := walkFrom_flags_lt (walk_eq_some_iff.mp lowFound).2
    have highWord := walkFrom_flags_lt (walk_eq_some_iff.mp highFound).2
    exact ⟨rangeFlags mask low.flags, ⟨low, lowFound, rfl⟩, high, highFound,
      ((rangeFlags_eq_iff lowWord highWord).mpr same).symm⟩
  · rintro ⟨key, ⟨low, lowFound, lowKey⟩, high, highFound, highKey⟩
    have lowWord := walkFrom_flags_lt (walk_eq_some_iff.mp lowFound).2
    have highWord := walkFrom_flags_lt (walk_eq_some_iff.mp highFound).2
    exact ⟨low, high, lowFound, highFound,
      (rangeFlags_eq_iff lowWord highWord).mp (lowKey.trans highKey.symm)⟩

theorem last_label (last : walk mem pgd (2 ^ 64 - 1) = none) :
    labelFrom mem mask 3 pgd (2 ^ 48 - 1) = none := by
  cases label : labelFrom mem mask 3 pgd (2 ^ 48 - 1) with
  | none => rfl
  | some key =>
      have place : (2 ^ 64 - 1) % 2 ^ 48 = 2 ^ 48 - 1 := by decide
      rw [← place] at label
      obtain ⟨leaf, found, _⟩ := (labelFrom_eq_some_iff (by decide)).mp label
      rw [last] at found
      cases found

theorem plain_of_unmapped (partition : Partition (labelFrom mem mask 3 pgd) (2 ^ 48) runs)
    (last : walk mem pgd (2 ^ 64 - 1) = none) (hole : ¬MappedOverHole mem pgd mask) :
    ∀ run ∈ runs, Plain run := by
  intro run member
  have nonempty := partition.nonempty run member
  have bounded := partition.bounded run member
  have labelled := partition.labelled run member
  by_cases low : run.stop ≤ 2 ^ 47
  · exact Or.inl low
  by_cases high : 2 ^ 47 ≤ run.start
  · refine Or.inr ⟨high, Nat.lt_of_le_of_ne bounded ?_⟩
    intro whole
    have here := labelled (2 ^ 48 - 1) ⟨by omega, by omega⟩
    rw [last_label last] at here
    cases here
  · exact absurd (mappedOverHole_iff.mpr ⟨run.key, labelled _ ⟨by omega, by omega⟩,
      labelled _ ⟨by omega, by omega⟩⟩) hole

theorem last_not_held {dump : PageDump} (ranges : dump.ranges = runs.map dumpedRange) :
    ∀ range ∈ dump.ranges, ¬range.Holds (2 ^ 64 - 1) := by
  rw [ranges]
  rintro range member ⟨_, reaches⟩
  obtain ⟨run, _, rfl⟩ := List.mem_map.mp member
  have below := printed_stop_lt run
  omega

theorem Reports.last_unmapped {dump : PageDump} (reports : Reports mem pgd mask dump)
    (ranges : dump.ranges = runs.map dumpedRange) : walk mem pgd (2 ^ 64 - 1) = none := by
  cases found : walk mem pgd (2 ^ 64 - 1) with
  | none => rfl
  | some leaf =>
      obtain ⟨range, member, holds⟩ := (reports.covers _).mpr ⟨leaf, found⟩
      exact absurd holds (last_not_held ranges range member)

theorem Reports.hole_unmapped {dump : PageDump} (reports : Reports mem pgd mask dump)
    (partition : Partition (labelFrom mem mask 3 pgd) (2 ^ 48) runs)
    (ranges : dump.ranges = runs.map dumpedRange) : ¬MappedOverHole mem pgd mask := by
  intro joined
  have last := reports.last_unmapped ranges
  obtain ⟨key, low, high⟩ := mappedOverHole_iff.mp joined
  obtain ⟨run, member, ⟨starts, _⟩, _, stops⟩ := partition.joined (by decide) low high
  have bounded := partition.bounded run member
  have notLast : run.stop ≠ 2 ^ 48 := by
    intro whole
    have here := partition.labelled run member (2 ^ 48 - 1) ⟨by omega, by omega⟩
    rw [last_label last] at here
    cases here
  have shown : (dumpedRange run).Holds (2 ^ 47) := by
    simp only [DumpedRange.Holds, dumpedRange, printedStop, stopOf, virtOf]
    rw [if_pos (by omega), if_neg (by omega), if_neg (by omega), Nat.mod_eq_of_lt (by omega)]
    omega
  have listed : dumpedRange run ∈ dump.ranges := by
    rw [ranges]
    exact List.mem_map_of_mem member
  obtain ⟨leaf, found⟩ := (reports.covers (2 ^ 47)).mp ⟨_, listed, shown⟩
  exact absurd (walk_eq_some_iff.mp found).1 (by decide)

end Partition

theorem dumpMappedPages_reports_iff (mem : Memory) (pgd : Nat) (mask : Bool) :
    Reports mem pgd mask (dumpMappedPages mem pgd mask) ↔
      walk mem pgd (2 ^ 64 - 1) = none ∧ ¬MappedOverHole mem pgd mask := by
  obtain ⟨runs, partition, ranges, total⟩ := dumpMappedPages_runs mem pgd mask
  constructor
  · intro reports
    exact ⟨reports.last_unmapped ranges, reports.hole_unmapped partition ranges⟩
  · rintro ⟨last, hole⟩
    exact reports_of_plain partition (plain_of_unmapped partition last hole) ranges total

/-! ## The last page -/

def mapLastPage : Except MapStop (PageMapState Nat) :=
  mapPageRange bumpAllocators mapKernel 0x1000 0xfffffffffffff000 0x3ff000 (1 : Nat) (fun _ => 0) 2

/-- The end of the range would be 2 ^ 64: no range that is printed holds the last address. -/
theorem last_page_not_reported :
    ∃ after leaf, mapLastPage = .ok after ∧ WellFormed after.mem 3 0x1000 ∧
      walk after.mem 0x1000 0xffffffffffffffff = some leaf ∧
      (∀ range ∈ (dumpMappedPages after.mem 0x1000 false).ranges,
        ¬range.Holds 0xffffffffffffffff) ∧
      ¬Reports after.mem 0x1000 false (dumpMappedPages after.mem 0x1000 false) := by
  have succeeds : mapLastPage.isOk = true := by decide +kernel
  have outcome : Outcome (fun after => Passed bumpPages mapKernel 3 0x1000 4
      (rangeStart 0xfffffffffffff000 0x3ff000 1 (fun _ => 0) 2) after 1 1) mapLastPage :=
    mapPageRange_maps bumpAllocators_supplies (Or.inl (by decide)) (by decide) (by decide)
      (Or.inr (by decide)) (by decide) bump_sound
      fun address _ _ => emptyMemory_unmapped 0x1000 address
  cases returned : mapLastPage with
  | error stop =>
      rw [returned] at succeeds
      cases succeeds
  | ok after =>
      rw [returned] at outcome
      have passed : Passed bumpPages mapKernel 3 0x1000 4
        (rangeStart 0xfffffffffffff000 0x3ff000 1 (fun _ => 0) 2) after 1 1 := outcome
      obtain ⟨leaf, found, _⟩ := passed.walk_inside (by decide) (by decide) (Or.inr (by decide))
        (by decide : 0xfff < 2 ^ 12 * 1) (by decide) (emptyMemory_unmapped _ _)
      obtain ⟨runs, _, ranges, _⟩ := dumpMappedPages_runs after.mem 0x1000 false
      refine ⟨after, leaf, rfl, passed.change.wellFormed, found, last_not_held ranges, ?_⟩
      intro reports
      have unmapped := reports.last_unmapped ranges
      cases unmapped.symm.trans found

end Zeptux.Page
