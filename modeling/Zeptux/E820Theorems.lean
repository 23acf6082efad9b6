import Zeptux.E820

/-! The e820 pipeline of `early_mem_init` as a whole. -/

namespace Zeptux.Early

open Word

structure Merged (member : E820Entry → Prop) (merged : List E820Entry) : Prop where
  apart : merged.Pairwise fun entry next => entry.type = next.type →
    entry.base + entry.size < next.base
  nonempty : ∀ entry ∈ merged, 0 < entry.size
  bounded : ∀ entry ∈ merged, entry.base + entry.size ≤ 2 ^ 48
  sound : ∀ entry ∈ merged, ∀ address, entry.Holds address →
    ∃ source, Reached member source ∧ source.type = entry.type ∧ source.Holds address
  complete : ∀ source, Reached member source → ∃ entry ∈ merged, entry.type = source.type ∧
    ∀ address, source.Holds address → entry.Holds address

section TypesApart

variable {sorted : Nat → E820Entry} {count : Nat}

theorem EntriesOk.sameRun (ok : EntriesOk (Among sorted count)) (order : Sorted sorted count)
    {first second : Nat} (before : first ≤ second) (inside : second < count)
    (type : (sorted second).type = (sorted first).type)
    (touches : (sorted second).base ≤ (sorted first).base + (sorted first).size) :
    SameRun (· < ·) sorted count first second := by
  refine ⟨type, fun between bound place => ?_⟩
  by_contra other
  have members : ∀ index < count, Among sorted count (sorted index) :=
    fun index bound => ⟨index, bound, rfl⟩
  have size := ok.nonempty _ (members between bound)
  have low := sorted_base order (by omega : first ≤ between) bound
  have high := sorted_base order (by omega : between ≤ second) inside
  have apart := ok.typesApart _ (members first (by omega)) _ (members between bound) (Ne.symm other)
  have apartNext := ok.typesApart _ (members between bound) _ (members second inside)
    (by rw [type]; exact other)
  have firstSize := ok.nonempty _ (members first (by omega))
  have secondSize := ok.nonempty _ (members second inside)
  omega

theorem EntriesOk.sameRun_of_base (ok : EntriesOk (Among sorted count))
    (order : Sorted sorted count) {first second : Nat} (firstInside : first < count)
    (secondInside : second < count) (type : (sorted second).type = (sorted first).type)
    (base : (sorted second).base = (sorted first).base) :
    SameRun (· < ·) sorted count first second := by
  rcases Nat.le_total first second with before | before
  · exact ok.sameRun order before secondInside type (by omega)
  · exact (ok.sameRun order before firstInside type.symm (by omega)).symm

theorem EntriesOk.kept_iff (ok : EntriesOk (Among sorted count)) (order : Sorted sorted count)
    {index : Nat} (inside : index < count) :
    Kept (· < ·) sorted count index ↔ Reached (Among sorted count) (sorted index) := by
  constructor
  · intro kept
    rw [Kept] at kept
    generalize sorted index = entry at kept
    induction kept with
    | shortest member least =>
        obtain ⟨place, bound, run, rfl⟩ := member
        refine .shortest ⟨place, bound, rfl⟩ ?_
        rintro other ⟨otherPlace, otherBound, rfl⟩ type base
        have together := ok.sameRun_of_base order bound otherBound type base
        exact least _ ⟨otherPlace, otherBound, run.trans together inside bound otherBound, rfl⟩
          type base
    | touching _ member type below touches ih =>
        obtain ⟨place, bound, _, rfl⟩ := member
        exact .touching ih ⟨place, bound, rfl⟩ type below touches
  · intro reached
    generalize same : sorted index = entry at reached
    induction reached generalizing index with
    | shortest member least =>
        subst same
        refine .shortest ⟨index, inside, .self index, rfl⟩ ?_
        rintro other ⟨place, bound, _, rfl⟩ type base
        exact least _ ⟨place, bound, rfl⟩ type base
    | touching covered member type below touches ih =>
        subst same
        obtain ⟨place, bound, rfl⟩ := covered.member
        have before : place < index := by
          by_contra later
          have low := sorted_base order (by omega : index ≤ place) bound
          omega
        have together := ok.sameRun order (Nat.le_of_lt before) inside type.symm touches
        have kept := ih bound rfl
        rw [Kept, runOf_congr together bound inside] at kept
        exact .touching kept ⟨index, inside, .self index, rfl⟩ type
          below touches

theorem merged_of_merging {entries : Nat → E820Entry} {currIndex : Nat} {origin : Nat → Nat}
    (ok : EntriesOk (Among sorted count)) (order : Sorted sorted count)
    (merging : Merging sorted count count currIndex entries origin) :
    Merged (Among sorted count) (slice entries 0 (currIndex + 1)) := by
  have kept : ∀ entry ∈ slice entries 0 (currIndex + 1),
      ∃ place ≤ currIndex, entries place = entry := by
    intro entry member
    obtain ⟨offset, inside, same⟩ := mem_slice.mp member
    exact ⟨offset, by omega, by rw [← same, Nat.zero_add]⟩
  have sources : ∀ place ≤ currIndex, ∀ address, (entries place).Holds address →
      ∃ source, Reached (Among sorted count) source ∧ source.type = (entries place).type ∧
        source.Holds address := by
    intro place inside address holds
    obtain ⟨source, bound, run, covered, found⟩ := merging.sound place inside address holds
    exact ⟨_, (ok.kept_iff order bound).mp covered, by rw [run.1, merging.types place inside],
      found⟩
  constructor
  · apply pairwise_slice
    intro first second before inside type
    rw [Nat.zero_add, Nat.zero_add] at type ⊢
    have firstBound := merging.origins first (by omega)
    have secondBound := merging.origins second (by omega)
    by_cases same : SameRun (· < ·) sorted count (origin first) (origin second)
    · exact merging.apart first second before (by omega) same
    · have size := merging.nonempty first (by omega)
      obtain ⟨source, bound, run, _, low, high⟩ := merging.sound first (by omega)
        ((entries first).base + (entries first).size - 1) ⟨by omega, by omega⟩
      by_contra near
      rw [merging.bases second (by omega)] at near
      have ordered := merging.ordered first second before (by omega)
      refine same ?_
      by_cases beyond : origin second ≤ source
      · exact run.trans (run.between firstBound bound (by omega) beyond).symm firstBound bound
          secondBound
      · refine run.trans (ok.sameRun order (by omega : source ≤ origin second) secondBound ?_
          (by omega)) firstBound bound secondBound
        rw [run.1, ← merging.types first (by omega), ← merging.types second (by omega), type]
  · intro entry member
    obtain ⟨place, inside, rfl⟩ := kept entry member
    exact merging.nonempty place inside
  · intro entry member
    obtain ⟨place, inside, rfl⟩ := kept entry member
    have size := merging.nonempty place inside
    obtain ⟨source, reached, _, low, high⟩ := sources place inside
      ((entries place).base + (entries place).size - 1) ⟨by omega, by omega⟩
    have bound := ok.bounded source reached.member
    omega
  · intro entry member address holds
    obtain ⟨place, inside, rfl⟩ := kept entry member
    exact sources place inside address holds
  · intro source reached
    obtain ⟨index, bound, rfl⟩ := reached.member
    obtain ⟨place, inside, run, start, finish⟩ :=
      merging.complete index bound ((ok.kept_iff order bound).mpr reached)
    refine ⟨entries place, mem_slice.mpr ⟨place, by omega, by rw [Nat.zero_add]⟩,
      by rw [merging.types place inside, run.1], ?_⟩
    rintro address ⟨low, high⟩
    exact ⟨by omega, by omega⟩

end TypesApart

def BootInfo.Entry (info : BootInfo) (entry : E820Entry) : Prop :=
  Among info.e820Entries info.numE820Entries entry

theorem sort_merge_merged {info : BootInfo} (nonempty : 0 < info.numE820Entries)
    (ok : EntriesOk info.Entry) :
    Merged info.Entry (earlyMergeE820 (earlySortE820 info)).entryList := by
  obtain ⟨place, arranged⟩ := earlySortE820_arranged info nonempty
  have same : Among (earlySortE820 info).e820Entries info.numE820Entries = info.Entry :=
    arranged.among_eq
  rw [← same] at ok ⊢
  obtain ⟨origin, merging⟩ := mergeFrom_merging ok.sized arranged.sorted (info.numE820Entries - 1)
    (by omega) (merging_first ok.sized arranged.sorted nonempty)
  exact merged_of_merging ok arranged.sorted merging

def FrameInside (member : E820Entry → Prop) (frame : Nat) : Prop :=
  ∀ address, pageSize * frame ≤ address → address < pageSize * (frame + 1) →
    ∃ entry, member entry ∧ entry.type = e820TypeRam ∧ entry.Holds address

section Normalised

variable {member : E820Entry → Prop} {merged : List E820Entry}

theorem normaliseEntry_other {entry : E820Entry} (other : entry.type ≠ e820TypeRam) :
    normaliseEntry entry = some entry := by
  rw [normaliseEntry, if_pos other]

def normalRams (merged : List E820Entry) : List E820Entry :=
  (merged.filterMap normaliseEntry).filter fun entry => entry.type = e820TypeRam

theorem Merged.normaliseEntry_ram (facts : Merged member merged) {entry : E820Entry}
    (kept : entry ∈ merged) (ram : entry.type = e820TypeRam) :
    (∃ normal, normaliseEntry entry = some normal ∧ Normal entry normal) ∨
      normaliseEntry entry = none ∧ ∀ frame, ¬entry.HasFrame frame := by
  have bound := facts.bounded entry kept
  exact Early.normaliseEntry_ram ram (facts.nonempty entry kept) (by omega) (by omega)

theorem Merged.mem_normalRams (facts : Merged member merged) {normal : E820Entry}
    (inside : normal ∈ normalRams merged) :
    ∃ entry ∈ merged, entry.type = e820TypeRam ∧ Normal entry normal := by
  rw [normalRams, List.mem_filter, List.mem_filterMap, decide_eq_true_eq] at inside
  obtain ⟨⟨entry, kept, normalised⟩, ram⟩ := inside
  have entryRam : entry.type = e820TypeRam := by
    by_contra other
    rw [normaliseEntry_other other] at normalised
    cases normalised
    exact other ram
  refine ⟨entry, kept, entryRam, ?_⟩
  rcases facts.normaliseEntry_ram kept entryRam with
    ⟨other, same, normal⟩ | ⟨gone, _⟩
  · rw [normalised] at same
    cases same
    exact normal
  · rw [normalised] at gone
    cases gone

theorem Merged.separate (facts : Merged member merged) : Separate (normalRams merged) := by
  have shrunk : ∀ entry ∈ merged, ∀ normal, normaliseEntry entry = some normal →
      normal.type = entry.type ∧ entry.base ≤ normal.base ∧
        normal.base + normal.size ≤ entry.base + entry.size := by
    intro entry kept normal normalised
    by_cases ram : entry.type = e820TypeRam
    · rcases facts.normaliseEntry_ram kept ram with
        ⟨other, same, shape⟩ | ⟨gone, _⟩
      · rw [normalised] at same
        cases same
        exact ⟨shape.type, shape.start, shape.finish⟩
      · rw [normalised] at gone
        cases gone
    · rw [normaliseEntry_other ram] at normalised
      cases normalised
      exact ⟨rfl, Nat.le_refl _, Nat.le_refl _⟩
  have apart : (merged.filterMap normaliseEntry).Pairwise fun entry next =>
      entry.type = next.type → entry.base + entry.size < next.base := by
    rw [List.pairwise_filterMap]
    refine facts.apart.imp_of_mem ?_
    intro entry next kept nextKept below normal normalised nextNormal nextNormalised same
    obtain ⟨type, _, finish⟩ := shrunk entry kept normal normalised
    obtain ⟨nextType, start, _⟩ := shrunk next nextKept nextNormal nextNormalised
    have gap := below (by rw [← type, same, nextType])
    omega
  refine (apart.filter _).imp_of_mem ?_
  intro entry next kept nextKept below
  rw [List.mem_filter, decide_eq_true_eq] at kept nextKept
  exact below (kept.2.trans nextKept.2.symm)

theorem Merged.aligned (facts : Merged member merged) :
    ∀ entry ∈ normalRams merged, PageAligned entry := by
  intro normal inside
  obtain ⟨entry, _, _, shape⟩ := facts.mem_normalRams inside
  exact ⟨shape.baseAligned, shape.sizeAligned, shape.nonempty⟩

theorem Merged.rams_bounded (facts : Merged member merged) :
    ∀ entry ∈ normalRams merged, entry.base + entry.size ≤ 2 ^ 48 := by
  intro normal inside
  obtain ⟨entry, kept, _, shape⟩ := facts.mem_normalRams inside
  exact Nat.le_trans shape.finish (facts.bounded entry kept)

theorem Merged.frames (facts : Merged member merged) (frame : Nat) :
    (∃ entry ∈ normalRams merged, entry.HasFrame frame) ↔ FrameInside (Reached member) frame := by
  constructor
  · rintro ⟨normal, inside, holds⟩ address low high
    obtain ⟨entry, kept, ram, shape⟩ := facts.mem_normalRams inside
    obtain ⟨start, finish⟩ := (shape.frames frame).mp holds
    obtain ⟨source, reached, type, found⟩ := facts.sound entry kept address
      ⟨Nat.le_trans start low, Nat.lt_of_lt_of_le high finish⟩
    exact ⟨source, reached, type.trans ram, found⟩
  · intro covered
    let rams := merged.filter fun entry => entry.type = e820TypeRam
    have separate : Separate rams := by
      refine (facts.apart.filter _).imp_of_mem ?_
      intro entry next kept nextKept below
      rw [List.mem_filter, decide_eq_true_eq] at kept nextKept
      exact below (kept.2.trans nextKept.2.symm)
    have held : ∀ address, pageSize * frame ≤ address →
        address < pageSize * frame + (pageSize - 1 + 1) → ∃ entry ∈ rams, entry.Holds address := by
      intro address low high
      obtain ⟨source, reached, ram, holds⟩ := covered address low
        (by rw [Nat.mul_add, Nat.mul_one]; simpa [pageSize, pageShift] using high)
      obtain ⟨entry, kept, type, covers⟩ := facts.complete source reached
      exact ⟨entry, List.mem_filter.mpr ⟨kept, by simpa using type.trans ram⟩,
        covers address holds⟩
    obtain ⟨entry, inside, start, finish⟩ := separate.run _ _ held
    rw [List.mem_filter, decide_eq_true_eq] at inside
    obtain ⟨kept, ram⟩ := inside
    have hasFrame : entry.HasFrame frame := by
      refine ⟨start, ?_⟩
      rw [Nat.mul_add, Nat.mul_one]
      simpa [pageSize, pageShift] using finish
    rcases facts.normaliseEntry_ram kept ram with
      ⟨normal, normalised, shape⟩ | ⟨_, none⟩
    · refine ⟨normal, ?_, (shape.frames frame).mpr hasFrame⟩
      rw [normalRams, List.mem_filter, List.mem_filterMap, decide_eq_true_eq]
      exact ⟨⟨entry, kept, normalised⟩, shape.type.trans ram⟩
    · exact absurd hasFrame (none frame)

end Normalised

theorem earlySetTotalRam_returns {info : BootInfo}
    (bytes : (info.ramEntries.map E820Entry.size).sum < 2 ^ 64)
    (few : info.ramEntries.length ≤ maxE820RamEntries) :
    earlySetTotalRam info = .ok { info with
      totalAvailRamBytes := (info.ramEntries.map E820Entry.size).sum
      numRamSpans := info.ramEntries.length } := by
  have limit : maxE820RamEntries = 72 := rfl
  have counted := countRamFrom_eq info info.numE820Entries 0 0 0
    (by rw [Nat.zero_add]; exact bytes)
    (by
      change 0 + info.ramEntries.length < 2 ^ 64
      omega)
  rw [Nat.zero_add, Nat.zero_add] at counted
  rw [earlySetTotalRam, counted]
  exact if_neg (Nat.not_lt.mpr few)

/-- What the passes are for: the RAM entries are the frames inside the RAM of the e820 map. -/
structure E820Correct (before after : BootInfo) : Prop where
  separate : Separate after.ramEntries
  aligned : ∀ entry ∈ after.ramEntries, PageAligned entry
  frames : ∀ frame, (∃ entry ∈ after.ramEntries, entry.HasFrame frame) ↔
    FrameInside before.Entry frame
  totalAvailRamBytes : ∃ frames : Finset Nat,
    (∀ frame, frame ∈ frames ↔ FrameInside before.Entry frame) ∧
      after.totalAvailRamBytes = pageSize * frames.card
  numRamSpans : after.numRamSpans = after.ramEntries.length

theorem e820_correct_iff (info : BootInfo) (nonempty : 0 < info.numE820Entries)
    (ok : EntriesOk info.Entry) :
    ∃ normalised, earlyNormaliseE820 (earlyMergeE820 (earlySortE820 info)) = .ok normalised ∧
      (normalised.ramEntries.length ≤ maxE820RamEntries →
        ∃ after, earlySetTotalRam normalised = .ok after ∧
          (E820Correct info after ↔
            ∀ frame, FrameInside info.Entry frame → FrameInside (Reached info.Entry) frame)) := by
  have facts := sort_merge_merged nonempty ok
  obtain ⟨normalised, returned, list⟩ :=
    earlyNormaliseE820_list (earlyMergeE820 (earlySortE820 info))
  have rams : normalised.ramEntries =
      normalRams (earlyMergeE820 (earlySortE820 info)).entryList := by
    rw [BootInfo.ramEntries, list, normalRams]
  refine ⟨normalised, returned, fun few => ?_⟩
  have separate := facts.separate
  have aligned := facts.aligned
  have frames := facts.frames
  have small := frameSet_card_le aligned facts.rams_bounded
  rw [← rams] at separate aligned frames small
  have bytes := card_frameSet separate aligned
  have bounded : (normalised.ramEntries.map E820Entry.size).sum < 2 ^ 64 := by
    rw [bytes, pageSize, pageShift]
    omega
  refine ⟨_, earlySetTotalRam_returns bounded few, ?_, ?_⟩
  · intro correct frame inside
    exact (frames frame).mp ((correct.frames frame).mpr inside)
  · intro kept
    have same : ∀ frame, FrameInside (Reached info.Entry) frame ↔
        FrameInside info.Entry frame := by
      intro frame
      refine ⟨fun covered address low high => ?_, kept frame⟩
      obtain ⟨entry, reached, found⟩ := covered address low high
      exact ⟨entry, reached.member, found⟩
    refine ⟨separate, aligned, fun frame => (frames frame).trans (same frame),
      ⟨frameSet normalised.ramEntries, fun frame => ?_, bytes⟩, rfl⟩
    rw [mem_frameSet aligned, frames, same]

/-- Without two RAM entries of one base and different sizes nothing is lost. -/
theorem reached_of_distinct {member : E820Entry → Prop}
    (distinct : ∀ entry, member entry → ∀ other, member other → other.type = entry.type →
      other.base = entry.base → entry.size ≤ other.size) {frame : Nat}
    (inside : FrameInside member frame) : FrameInside (Reached member) frame := by
  intro address low high
  obtain ⟨entry, present, found⟩ := inside address low high
  exact ⟨entry, .shortest present (distinct entry present), found⟩

def bootInfoOf (entries : List E820Entry) : BootInfo :=
  ⟨0, 0, 0, entries.length, fun index => entries.getD index ⟨0, 0, 0⟩⟩

theorem bootInfoOf_entry (entries : List E820Entry) :
    (bootInfoOf entries).Entry = fun entry => entry ∈ entries := by
  funext entry
  apply propext
  constructor
  · rintro ⟨index, inside, rfl⟩
    have same : (bootInfoOf entries).e820Entries index = entries[index] :=
      List.getD_eq_getElem _ _ inside
    rw [same]
    exact List.getElem_mem inside
  · intro member
    obtain ⟨index, bound, rfl⟩ := List.mem_iff_getElem.mp member
    exact ⟨index, bound, List.getD_eq_getElem _ _ bound⟩

def sampleE820 : List E820Entry :=
  [⟨0x100000, 0x200000, e820TypeRam⟩, ⟨0, 0x9fc00, e820TypeRam⟩, ⟨0x9fc00, 0x400, e820TypeReserved⟩,
    ⟨0x280000, 0x100000, e820TypeRam⟩, ⟨0x500010, 0x20, e820TypeRam⟩]

theorem sampleE820_correct :
    ∃ normalised after,
      earlyNormaliseE820 (earlyMergeE820 (earlySortE820 (bootInfoOf sampleE820))) = .ok normalised ∧
      earlySetTotalRam normalised = .ok after ∧ E820Correct (bootInfoOf sampleE820) after := by
  have ok : EntriesOk (bootInfoOf sampleE820).Entry := by
    rw [bootInfoOf_entry]
    exact ⟨by decide, by decide, by decide⟩
  have distinct : ∀ frame, FrameInside (bootInfoOf sampleE820).Entry frame →
      FrameInside (Reached (bootInfoOf sampleE820).Entry) frame := by
    intro frame
    apply reached_of_distinct
    rw [bootInfoOf_entry]
    decide
  obtain ⟨normalised, returned, correct⟩ := e820_correct_iff (bootInfoOf sampleE820) (by decide) ok
  have few : normalised.ramEntries.length ≤ maxE820RamEntries := by
    obtain ⟨same, again, list⟩ :=
      earlyNormaliseE820_list (earlyMergeE820 (earlySortE820 (bootInfoOf sampleE820)))
    rw [returned] at again
    cases again
    rw [BootInfo.ramEntries, list]
    decide +kernel
  obtain ⟨after, set, iff⟩ := correct few
  exact ⟨normalised, after, returned, set, iff.mpr distinct⟩

/-- Two RAM entries of one base: the longer one is dropped, and with it its second frame. -/
theorem same_base_loses_frame :
    ∃ info normalised after, 0 < info.numE820Entries ∧ EntriesOk info.Entry ∧
      earlyNormaliseE820 (earlyMergeE820 (earlySortE820 info)) = .ok normalised ∧
      normalised.ramEntries.length ≤ maxE820RamEntries ∧
      earlySetTotalRam normalised = .ok after ∧ ¬E820Correct info after := by
  let info := bootInfoOf [⟨0, 0x1000, e820TypeRam⟩, ⟨0, 0x2000, e820TypeRam⟩]
  obtain ⟨normalised, returned, list⟩ :=
    earlyNormaliseE820_list (earlyMergeE820 (earlySortE820 info))
  have rams : normalised.ramEntries = [⟨0, 0x1000, e820TypeRam⟩] := by
    rw [BootInfo.ramEntries, list]
    decide +kernel
  have few : normalised.ramEntries.length ≤ maxE820RamEntries := by
    rw [rams]
    decide
  have bytes : (normalised.ramEntries.map E820Entry.size).sum < 2 ^ 64 := by
    rw [rams]
    decide
  refine ⟨info, normalised, _, by decide, ?_, returned, few, earlySetTotalRam_returns bytes few,
    fun correct => ?_⟩
  · rw [bootInfoOf_entry]
    exact ⟨by decide, by decide, by decide⟩
  · have inside : FrameInside info.Entry 1 := by
      intro address low high
      rw [bootInfoOf_entry]
      refine ⟨⟨0, 0x2000, e820TypeRam⟩, by decide, rfl, ?_⟩
      simp only [E820Entry.Holds, pageSize, pageShift] at low high ⊢
      omega
    obtain ⟨entry, member, holds⟩ := (correct.frames 1).mpr inside
    change entry ∈ normalised.ramEntries at member
    rw [rams, List.mem_singleton] at member
    rw [member] at holds
    simp [E820Entry.HasFrame, pageSize, pageShift] at holds

end Zeptux.Early
