import Zeptux.PageDumpRuns

/-!
The walk of `dump_mapped_pages` over the tables, level by level: the ranges it prints stand for
the maximal runs of mapped positions with the same flags.
-/

namespace Zeptux.Page

open Word X86Paging Runs

/-! ## The positions of an entry -/

theorem indexAt_piece {level base index place : Nat} (aligned : entrySize (level + 1) ∣ base)
    (inside : index < 512) (low : base + index * entrySize level ≤ place)
    (high : place < base + index * entrySize level + entrySize level) :
    indexAt level place = index := by
  obtain ⟨number, rfl⟩ := aligned
  have positive : 0 < entrySize level := Nat.two_pow_pos _
  have quotient : place / entrySize level = 512 * number + index := by
    rw [Nat.div_eq_iff positive]
    rw [entrySize_succ, Nat.mul_assoc] at low high
    rw [Nat.add_mul, Nat.mul_comm (512 * number)]
    omega
  rw [indexAt, quotient, Nat.mul_add_mod, Nat.mod_eq_of_lt inside]

structure Reads (mem : Memory) (pgd : Nat) (mask : Bool) (level table base : Nat) : Prop where
  aligned : entrySize (level + 1) ∣ base
  bound : base + entrySize (level + 1) ≤ 2 ^ 48
  same : ∀ place, base ≤ place → place < base + entrySize (level + 1) →
    labelFrom mem mask 3 pgd place = labelFrom mem mask level table place

section Reads

variable {mem : Memory} {pgd level table base index : Nat} {mask : Bool}

theorem piece_le (level : Nat) {index : Nat} (inside : index < 512) :
    index * entrySize level + entrySize level ≤ entrySize (level + 1) := by
  rw [entrySize_succ, Nat.mul_comm (entrySize level), ← Nat.succ_mul]
  exact Nat.mul_le_mul_right _ inside

theorem Reads.piece (reads : Reads mem pgd mask level table base) (inside : index < 512)
    {place : Nat} (low : base + index * entrySize level ≤ place)
    (high : place < base + index * entrySize level + entrySize level) :
    labelFrom mem mask 3 pgd place = labelFrom mem mask level table place ∧
      indexAt level place = index := by
  have := piece_le level inside
  exact ⟨reads.same place (by omega) (by omega), indexAt_piece reads.aligned inside low high⟩

theorem Reads.absent (reads : Reads mem pgd mask level table base) (inside : index < 512)
    (absent : ¬Present (entryAt mem table index)) :
    ∀ place, base + index * entrySize level ≤ place →
      place < base + index * entrySize level + entrySize level →
      labelFrom mem mask 3 pgd place = none := by
  intro place low high
  obtain ⟨same, here⟩ := reads.piece inside low high
  rw [same, labelFrom, Option.map_eq_none_iff]
  cases level with
  | zero => simp only [walkFrom, here, if_neg absent]
  | succ level => simp only [walkFrom, here, if_pos absent]

theorem Reads.leaf (reads : Reads mem pgd mask level table base) (inside : index < 512)
    (present : Present (entryAt mem table index))
    (isLeaf : level = 0 ∨ Huge level (entryAt mem table index)) :
    ∀ place, base + index * entrySize level ≤ place →
      place < base + index * entrySize level + entrySize level →
      labelFrom mem mask 3 pgd place =
        some (rangeFlags mask (entryRawFlags (entryAt mem table index))) := by
  intro place low high
  obtain ⟨same, here⟩ := reads.piece inside low high
  rw [same, labelFrom, entryRawFlags, rawFlags_eq, Option.map_eq_some_iff]
  refine ⟨leafOf level (entryAt mem table index) place, ?_, rfl⟩
  cases level with
  | zero => simp only [walkFrom, here, if_pos present]
  | succ level =>
      have huge : Huge (level + 1) (entryAt mem table index) := isLeaf.resolve_left (by omega)
      simp only [walkFrom, here, present, not_true_eq_false, ↓reduceIte, huge]

theorem Reads.lower (reads : Reads mem pgd mask (level + 1) table base) (inside : index < 512)
    (present : Present (entryAt mem table index))
    (notHuge : ¬Huge (level + 1) (entryAt mem table index)) :
    Reads mem pgd mask level (entryTable (entryAt mem table index))
      (base + index * entrySize (level + 1)) where
  aligned := by
    apply Nat.dvd_add _ (Nat.dvd_mul_left _ _)
    exact Nat.dvd_trans ⟨512, entrySize_succ (level + 1)⟩ reads.aligned
  bound := by
    have := piece_le (level + 1) inside
    have := reads.bound
    omega
  same := by
    intro place low high
    obtain ⟨same, here⟩ := reads.piece inside low high
    rw [same, labelFrom, labelFrom, entryTable_eq]
    simp only [walkFrom, here, present, not_true_eq_false, ↓reduceIte, notHuge]

end Reads

/-! ## The loops -/

/-- The first position below the table of this level that the indexes select. -/
def PageDumpState.base (state : PageDumpState) : Nat → Nat
  | 0 => state.pgdIndex * 2 ^ 39 + state.pudIndex * 2 ^ 30 + state.pmdIndex * 2 ^ 21
  | 1 => state.pgdIndex * 2 ^ 39 + state.pudIndex * 2 ^ 30
  | 2 => state.pgdIndex * 2 ^ 39
  | _ + 3 => 0

theorem SameAbove.base_eq {level : Nat} {before after : PageDumpState}
    (same : SameAbove level before after) : after.base level = before.base level := by
  rcases level with _ | _ | _ | level
  · rw [PageDumpState.base, PageDumpState.base, same.pgd (by decide), same.pud (by decide), same.pmd (by decide)]
  · rw [PageDumpState.base, PageDumpState.base, same.pgd (by decide), same.pud (by decide)]
  · rw [PageDumpState.base, PageDumpState.base, same.pgd (by decide)]
  · rw [PageDumpState.base, PageDumpState.base]

/-- From one state to another the positions of an entry of this level have been dealt with. -/
structure Dumps (mem : Memory) (pgd : Nat) (mask : Bool) (level stop : Nat)
    (before after : PageDumpState) : Prop where
  dumped : Dumped mem pgd mask stop after
  same : SameAbove level before after

section Loops

variable {mem : Memory} {pgd level table : Nat} {mask : Bool} {state : PageDumpState}

theorem table_dumped {step : PageDumpState → Nat → PageDumpState}
    (dumped : Dumped mem pgd mask (state.base level) state)
    (each : ∀ index < 512, ∀ now, now.base level = state.base level →
      Dumped mem pgd mask (state.base level + index * entrySize level) now →
      Dumps mem pgd mask level (state.base level + index * entrySize level + entrySize level)
        now (step now index)) :
    Dumps mem pgd mask level (state.base level + entrySize (level + 1)) state
      ((List.range numPageTableEntries).foldl step state) := by
  have run : Dumps mem pgd mask level (state.base level + 512 * entrySize level) state
      ((List.range 512).foldl step state) := by
    refine foldl_range_run (motive := fun index now =>
      Dumps mem pgd mask level (state.base level + index * entrySize level) state now) ?_ ?_
    · exact ⟨by simpa using dumped, .refl level state⟩
    · intro index inside now before
      obtain ⟨after, same⟩ := each index inside now before.same.base_eq before.dumped
      rw [Nat.add_assoc, ← Nat.succ_mul] at after
      exact ⟨after, before.same.trans same⟩
  rw [entrySize_succ, Nat.mul_comm]
  exact run

theorem dvd_half {level : Nat} (low : level ≤ 2) : entrySize level ∣ 2 ^ 47 :=
  Nat.pow_dvd_pow 2 (by omega)

theorem dvd_piece (level index : Nat) {base : Nat} (aligned : entrySize (level + 1) ∣ base) :
    entrySize level ∣ base + index * entrySize level :=
  Nat.dvd_add (Nat.dvd_trans ⟨512, entrySize_succ level⟩ aligned) (Nat.dvd_mul_left _ _)

theorem counts_pages {small medium large size : Nat}
    (isSize : size = small * pageSize + medium * pageSize2mib + large * pageSize1gib) :
    Counts (fun state => { state with
      numPages4kib := state.numPages4kib + small
      numPages2mib := state.numPages2mib + medium
      numPages1gib := state.numPages1gib + large }) size where
  indexes := fun state => ⟨fun _ => rfl, fun _ => rfl, fun _ => rfl⟩
  masked := fun _ => rfl
  shows := fun _ _ shows => ⟨shows.printed, shows.outside, shows.inside⟩
  counted := by
    intro state
    subst isSize
    simp only [PageDumpState.counted, Nat.add_mul]
    omega

theorem count4kib : Counts (fun state => { state with numPages4kib := state.numPages4kib + 1 })
    (entrySize 0) :=
  @counts_pages 1 0 0 _ rfl

theorem count2mib : Counts (fun state => { state with numPages2mib := state.numPages2mib + 1 })
    (entrySize 1) :=
  @counts_pages 0 1 0 _ rfl

theorem count1gib : Counts (fun state => { state with numPages1gib := state.numPages1gib + 1 })
    (entrySize 2) :=
  @counts_pages 0 0 1 _ rfl

theorem Reads.absent_dumps {base index : Nat} (reads : Reads mem pgd mask level table base)
    (inside : index < 512) (absent : ¬Present (entryAt mem table index))
    (dumped : Dumped mem pgd mask (base + index * entrySize level) state) :
    Dumped mem pgd mask (base + index * entrySize level + entrySize level)
      (maybeDumpRange state) := by
  have bound := reads.bound
  have piece := piece_le level inside
  have positive := entrySize_pos level
  exact dumped.gap (by omega) (by omega) (reads.absent inside absent)

theorem Reads.leaf_dumps {base index : Nat} {count : PageDumpState → PageDumpState}
    (reads : Reads mem pgd mask level table base) (inside : index < 512) (low : level ≤ 2)
    (counts : Counts count (entrySize level)) (present : Present (entryAt mem table index))
    (isLeaf : level = 0 ∨ Huge level (entryAt mem table index))
    (dumped : Dumped mem pgd mask (base + index * entrySize level) state) :
    Dumped mem pgd mask (base + index * entrySize level + entrySize level)
      (count (extendDumpRange state (virtOf (base + index * entrySize level))
        (add64 (virtOf (base + index * entrySize level)) (entrySize level))
        (entryRawFlags (entryAt mem table index)))) := by
  have bound := reads.bound
  have piece := piece_le level inside
  exact dumped.leaf counts (entrySize_pos level) (dvd_piece level index reads.aligned)
    (dvd_half low) (by omega) (reads.leaf inside present isLeaf)

theorem dumpPtde_dumps {ptd index : Nat} (reads : Reads mem pgd mask 0 ptd (state.base 0))
    (inside : index < 512)
    (dumped : Dumped mem pgd mask (state.base 0 + index * entrySize 0) state) :
    Dumps mem pgd mask 0 (state.base 0 + index * entrySize 0 + entrySize 0) state
      (dumpPtde mem ptd state index) := by
  simp only [dumpPtde, Bool.not_eq_eq_eq_not, Bool.not_true]
  split
  · rename_i absent
    rw [← Bool.not_eq_true, entryPresent_iff] at absent
    exact ⟨reads.absent_dumps inside absent dumped, (maybeDumpRange_same state).indexes⟩
  · rename_i present
    rw [Bool.not_eq_false, entryPresent_iff] at present
    obtain ⟨pgdIn, pudIn, pmdIn⟩ := dumped.indexes
    have place : state.base 0 + index * entrySize 0 = state.pgdIndex * 2 ^ 39 +
        state.pudIndex * 2 ^ 30 + state.pmdIndex * 2 ^ 21 + index * 2 ^ 12 := by
      rw [PageDumpState.base, entrySize]
    rw [encodeVirt_eq pgdIn pudIn pmdIn inside place]
    refine ⟨reads.leaf_dumps inside (by decide) count4kib present (Or.inl rfl) dumped, ?_⟩
    have same := (extendDumpRange_same state (virtOf (state.base 0 + index * entrySize 0))
      (add64 (virtOf (state.base 0 + index * entrySize 0)) (entrySize 0))
      (entryRawFlags (entryAt mem ptd index))).indexes
    exact same.trans (count4kib.indexes _)

theorem dumpMappedPagesPtd_dumps {ptd : Nat} (reads : Reads mem pgd mask 0 ptd (state.base 0))
    (dumped : Dumped mem pgd mask (state.base 0) state) :
    Dumps mem pgd mask 0 (state.base 0 + entrySize 1) state
      (dumpMappedPagesPtd mem ptd state) := by
  unfold dumpMappedPagesPtd
  apply table_dumped dumped
  intro index inside now base before
  rw [← base] at reads before ⊢
  exact dumpPtde_dumps reads inside before

structure Describes (mem : Memory) (pgd : Nat) (mask : Bool) (directory : DumpDirectory)
    (lower : Nat) : Prop where
  low : lower + 1 ≤ 2
  size : directory.size = entrySize (lower + 1)
  counts : Counts directory.count (entrySize (lower + 1))
  select : ∀ index state, SameAbove (lower + 1) state (directory.select index state)
  selected : ∀ {index position state}, index < 512 → Dumped mem pgd mask position state →
    Dumped mem pgd mask position (directory.select index state)
  base : ∀ index state, (directory.select index state).base lower =
    state.base (lower + 1) + index * entrySize (lower + 1)
  virt : ∀ {state : PageDumpState}, state.InTables →
    directory.virt state = virtOf (state.base lower)
  below : ∀ {table state}, Reads mem pgd mask lower table (state.base lower) →
    Dumped mem pgd mask (state.base lower) state →
    Dumps mem pgd mask lower (state.base lower + entrySize (lower + 1)) state
      (directory.dumpLower table state)

theorem dumpDirectoryEntry_dumps {directory : DumpDirectory} {lower index : Nat}
    (describes : Describes mem pgd mask directory lower)
    (reads : Reads mem pgd mask (lower + 1) table (state.base (lower + 1)))
    (inside : index < 512)
    (before : Dumped mem pgd mask (state.base (lower + 1) + index * entrySize (lower + 1)) state) :
    Dumps mem pgd mask (lower + 1)
      (state.base (lower + 1) + index * entrySize (lower + 1) + entrySize (lower + 1)) state
      (dumpDirectoryEntry directory mem table state index) := by
  have selected := describes.selected inside before
  have select := describes.select index state
  have base := describes.base index state
  simp only [dumpDirectoryEntry, Bool.not_eq_eq_eq_not, Bool.not_true]
  generalize directory.select index state = chosen at selected select base ⊢
  split
  · rename_i absent
    rw [← Bool.not_eq_true, entryPresent_iff] at absent
    exact ⟨reads.absent_dumps inside absent selected,
      select.trans ((maybeDumpRange_same chosen).indexes.mono (by omega))⟩
  · rename_i present
    rw [Bool.not_eq_false, entryPresent_iff] at present
    split
    · rename_i pse
      have huge : Huge (lower + 1) (entryAt mem table index) :=
        ⟨Nat.lt_succ_of_le describes.low, (entryPse_iff _).mp pse⟩
      rw [describes.virt selected.indexes, describes.size, base]
      refine ⟨reads.leaf_dumps inside describes.low describes.counts present (Or.inr huge)
        selected, select.trans (.mono ?_ (Nat.zero_le _))⟩
      exact (extendDumpRange_same _ _ _ _).indexes.trans (describes.counts.indexes _)
    · rename_i notPse
      have notHuge : ¬Huge (lower + 1) (entryAt mem table index) := fun huge =>
        notPse ((entryPse_iff _).mpr huge.2)
      have readsLower := reads.lower inside present notHuge
      rw [← base] at readsLower selected ⊢
      obtain ⟨dumped, same⟩ := describes.below readsLower selected
      exact ⟨dumped, select.trans (same.mono (by omega))⟩

theorem dumpMappedPagesDirectory_dumps {directory : DumpDirectory} {lower : Nat}
    (describes : Describes mem pgd mask directory lower)
    (reads : Reads mem pgd mask (lower + 1) table (state.base (lower + 1)))
    (dumped : Dumped mem pgd mask (state.base (lower + 1)) state) :
    Dumps mem pgd mask (lower + 1) (state.base (lower + 1) + entrySize (lower + 2)) state
      (dumpMappedPagesDirectory directory mem table state) := by
  unfold dumpMappedPagesDirectory
  apply table_dumped dumped
  intro index inside now base before
  rw [← base] at reads before ⊢
  exact dumpDirectoryEntry_dumps describes reads inside before

theorem pmdDump_describes (mem : Memory) (pgd : Nat) (mask : Bool) :
    Describes mem pgd mask (pmdDump mem) 0 where
  low := by decide
  size := rfl
  counts := count2mib
  select := fun index state => ⟨fun _ => rfl, fun _ => rfl, fun low => absurd low (by decide)⟩
  selected := by
    rintro index position state inside ⟨⟨pgdIn, pudIn, _⟩, masked, tracker, follows, shows, counted⟩
    exact ⟨⟨pgdIn, pudIn, inside⟩, masked, tracker, follows,
      ⟨shows.printed, shows.outside, shows.inside⟩, counted⟩
  base := by
    intro index state
    simp only [PageDumpState.base, pmdDump, entrySize, Nat.zero_add, Nat.mul_one, Nat.reduceAdd]
  virt := by
    intro state inTables
    simp only [pmdDump]
    apply encodeVirt_eq inTables.pgd inTables.pud inTables.pmd (by decide)
    rw [PageDumpState.base]
    omega
  below := by
    intro table state reads dumped
    simp only [pmdDump, Nat.zero_add]
    exact dumpMappedPagesPtd_dumps reads dumped

theorem dumpMappedPagesPmd_dumps {pmd : Nat} (reads : Reads mem pgd mask 1 pmd (state.base 1))
    (dumped : Dumped mem pgd mask (state.base 1) state) :
    Dumps mem pgd mask 1 (state.base 1 + entrySize 2) state (dumpMappedPagesPmd mem pmd state) :=
  dumpMappedPagesDirectory_dumps (pmdDump_describes mem pgd mask) reads dumped

theorem pudDump_describes (mem : Memory) (pgd : Nat) (mask : Bool) :
    Describes mem pgd mask (pudDump mem) 1 where
  low := by decide
  size := rfl
  counts := count1gib
  select := fun index state =>
    ⟨fun _ => rfl, fun low => absurd low (by decide), fun low => absurd low (by decide)⟩
  selected := by
    rintro index position state inside ⟨⟨pgdIn, _, pmdIn⟩, masked, tracker, follows, shows, counted⟩
    exact ⟨⟨pgdIn, inside, pmdIn⟩, masked, tracker, follows,
      ⟨shows.printed, shows.outside, shows.inside⟩, counted⟩
  base := by
    intro index state
    simp only [PageDumpState.base, pudDump, entrySize, Nat.reduceMul, Nat.reduceAdd]
  virt := by
    intro state inTables
    simp only [pudDump]
    apply encodeVirt_eq inTables.pgd inTables.pud (by decide) (by decide)
    rw [PageDumpState.base]
    omega
  below := by
    intro table state reads dumped
    simp only [pudDump, Nat.reduceAdd]
    exact dumpMappedPagesPmd_dumps reads dumped

theorem dumpMappedPagesPud_dumps {pud : Nat} (reads : Reads mem pgd mask 2 pud (state.base 2))
    (dumped : Dumped mem pgd mask (state.base 2) state) :
    Dumps mem pgd mask 2 (state.base 2 + entrySize 3) state (dumpMappedPagesPud mem pud state) :=
  dumpMappedPagesDirectory_dumps (pudDump_describes mem pgd mask) reads dumped

theorem dumpPgde_dumps {index : Nat} (reads : Reads mem pgd mask 3 pgd 0) (inside : index < 512)
    (before : Dumped mem pgd mask (index * entrySize 3) state) :
    Dumps mem pgd mask 3 (index * entrySize 3 + entrySize 3) state
      (dumpPgde mem pgd state index) := by
  have selected : Dumped mem pgd mask (index * entrySize 3) { state with pgdIndex := index } := by
    obtain ⟨⟨_, pudIn, pmdIn⟩, masked, tracker, follows, shows, counted⟩ := before
    exact ⟨⟨inside, pudIn, pmdIn⟩, masked, tracker, follows,
      ⟨shows.printed, shows.outside, shows.inside⟩, counted⟩
  have any : ∀ after, SameAbove 3 state after := fun after =>
    ⟨fun low => absurd low (by decide), fun low => absurd low (by decide),
      fun low => absurd low (by decide)⟩
  refine ⟨?_, any _⟩
  have start : index * entrySize 3 = 0 + index * entrySize 3 := (Nat.zero_add _).symm
  simp only [dumpPgde, Bool.not_eq_eq_eq_not, Bool.not_true]
  split
  · rename_i absent
    rw [← Bool.not_eq_true, entryPresent_iff] at absent
    rw [start] at selected ⊢
    exact reads.absent_dumps inside absent selected
  · rename_i present
    rw [Bool.not_eq_false, entryPresent_iff] at present
    have notHuge : ¬Huge 3 (entryAt mem pgd index) := fun huge => absurd huge.1 (by decide)
    have readsLower := reads.lower inside present notHuge
    have base : 0 + index * entrySize 3 =
        PageDumpState.base { state with pgdIndex := index } 2 := by
      rw [PageDumpState.base, Nat.zero_add, entrySize]
    rw [base] at readsLower
    rw [start, base] at selected ⊢
    exact (dumpMappedPagesPud_dumps readsLower selected).dumped

end Loops

/-! ## The ranges that are printed -/

theorem reads_all (mem : Memory) (pgd : Nat) (mask : Bool) : Reads mem pgd mask 3 pgd 0 where
  aligned := Nat.dvd_zero _
  bound := by decide
  same := fun _ _ _ => rfl

theorem dumpMappedPages_runs (mem : Memory) (pgd : Nat) (mask : Bool) :
    ∃ runs, Partition (labelFrom mem mask 3 pgd) (2 ^ 48) runs ∧
      (dumpMappedPages mem pgd mask).ranges = runs.map dumpedRange ∧
      (dumpMappedPages mem pgd mask).totalBytes = (runs.map Run.length).sum := by
  let initial : PageDumpState := ⟨false, mask, 0, 0, 0, 0, 0, 0, 0, 0, 0, []⟩
  have top : ∀ state : PageDumpState, state.base 3 = 0 := fun state => by
    rw [PageDumpState.base]
  have before : Dumped mem pgd mask (initial.base 3) initial := by
    rw [top]
    refine ⟨⟨?_, ?_, ?_⟩, rfl, ⟨[], none⟩, .nothing _, ⟨rfl, fun _ => rfl, by simp⟩, ?_⟩
    · exact Nat.zero_lt_succ 511
    · exact Nat.zero_lt_succ 511
    · exact Nat.zero_lt_succ 511
    · simp [PageDumpState.counted, initial, Tracker.size, Tracker.runs]
  have walked : Dumps mem pgd mask 3 (initial.base 3 + entrySize 4) initial
      ((List.range numPageTableEntries).foldl (dumpPgde mem pgd) initial) := by
    apply table_dumped before
    intro index inside now _ dumped
    rw [top, Nat.zero_add] at dumped ⊢
    exact dumpPgde_dumps (reads_all mem pgd mask) inside dumped
  obtain ⟨tracker, follows, shows, counted⟩ := walked.dumped.tracked
  have all : initial.base 3 + entrySize 4 = 2 ^ 48 := by
    rw [top, entrySize, Nat.zero_add]
  rw [all] at follows
  generalize state : (List.range numPageTableEntries).foldl (dumpPgde mem pgd) initial = final
    at shows counted
  have closed := maybeDumpRange_shows shows (follows.within (Nat.le_refl _))
  have same := maybeDumpRange_same final
  refine ⟨tracker.runs, follows.partition, ?_, ?_⟩
  · simp only [dumpMappedPages]
    rw [state]
    exact closed.printed
  · simp only [dumpMappedPages]
    rw [state]
    have small := follows.partition.length_sum_le
    have total : (maybeDumpRange final).counted = (tracker.runs.map Run.length).sum := by
      rw [same.counted, counted, Tracker.size]
    rw [← total] at small ⊢
    simp only [add64, PageDumpState.counted] at small ⊢
    omega

end Zeptux.Page
