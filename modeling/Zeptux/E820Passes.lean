import Zeptux.E820Theorems

/-!
The passes over the e820 entries one by one, for entries of any types that may overlap in any
way: what the sort and the merge leave apart, what the merge keeps covered, and what the
normalisation makes of each entry.
-/

namespace Zeptux.Early

open Word

/-! ## What still touches -/

def E820Entry.Touches (entry other : E820Entry) : Prop :=
  entry.base ≤ other.base + other.size ∧ other.base ≤ entry.base + entry.size

def BootInfo.NoneTouch (info : BootInfo) : Prop :=
  ∀ first second, first < second → second < info.numE820Entries →
    (info.e820Entries first).type = (info.e820Entries second).type →
    ¬(info.e820Entries first).Touches (info.e820Entries second)

/-- A kept entry ends before each entry of its type that is in a later run. -/
def RunsApart (before : Nat → Nat → Prop) (entries : Nat → E820Entry) (count : Nat) : Prop :=
  ∀ first < count, ∀ second < count, Kept before entries count first → before first second →
    (entries first).type = (entries second).type → ¬SameRun before entries count first second →
    (entries first).base + (entries first).size < (entries second).base

theorem exists_kept {sorted : Nat → E820Entry} {count index : Nat} (inside : index < count) :
    ∃ other < count, SameRun (· < ·) sorted count index other ∧ Kept (· < ·) sorted count other ∧
      (sorted other).base = (sorted index).base := by
  have run : SameRun (· < ·) sorted count index index := .self index
  let inRun := fun size => ∃ other < count, SameRun (· < ·) sorted count index other ∧
    (sorted other).base = (sorted index).base ∧ (sorted other).size = size
  obtain ⟨size, ⟨other, bound, together, base, rfl⟩, least⟩ :=
    WellFounded.has_min Nat.lt_wfRel.wf { size | inRun size } ⟨_, index, inside, run, rfl, rfl⟩
  refine ⟨other, bound, together, ?_, base⟩
  refine .shortest ⟨other, bound, .self other, rfl⟩ ?_
  rintro _ ⟨third, thirdBound, near, rfl⟩ _ same
  by_contra shorter
  exact least (sorted third).size ⟨third, thirdBound, together.trans near inside bound thirdBound,
    same.trans base, rfl⟩ (Nat.lt_of_not_le shorter)

section Touching

variable {sorted entries : Nat → E820Entry} {count currIndex : Nat} {origin : Nat → Nat}

/-- Two of the merged entries touch just when they come from different runs that do. -/
theorem Merging.noneTouch_iff (merging : Merging sorted count count currIndex entries origin)
    (order : Sorted sorted count) :
    (∀ first second, first < second → second < currIndex + 1 →
      (entries first).type = (entries second).type → ¬(entries first).Touches (entries second)) ↔
      RunsApart (· < ·) sorted count := by
  constructor
  · intro none first firstInside second inside kept before type other
    by_contra near
    obtain ⟨place, placeKept, placeRun, low, high⟩ := merging.complete first firstInside kept
    obtain ⟨third, thirdBound, thirdRun, thirdKept, base⟩ := exists_kept inside
    obtain ⟨next, nextKept, nextRun, nextLow, nextHigh⟩ :=
      merging.complete third thirdBound thirdKept
    have placeBound := merging.origins place placeKept
    have nextBound := merging.origins next nextKept
    have nextSecond := nextRun.trans thirdRun.symm nextBound thirdBound inside
    -- The run of the first entry is all before that of the second.
    have origins : origin place < origin next := by
      by_contra later
      refine other ?_
      by_cases beyond : origin next ≤ first
      · exact (nextSecond.between nextBound inside beyond (Nat.le_of_lt before))
      · have middle := placeRun.symm.between firstInside placeBound (by omega : first ≤ origin next)
          (by omega)
        exact (placeRun.symm.trans middle.symm firstInside placeBound nextBound).trans nextSecond
          firstInside nextBound inside
    have places : place < next := by
      by_contra later
      by_cases same : place = next
      · rw [same] at origins
        omega
      · have reversed := merging.ordered next place (by omega) placeKept
        omega
    have starts := sorted_base order (Nat.le_of_lt origins) nextBound
    have nextSize := merging.nonempty next nextKept
    refine none place next places (by omega) ?_ ?_
    · rw [merging.types place placeKept, merging.types next nextKept, ← placeRun.1, ← nextSecond.1,
        type]
    · rw [← merging.bases place placeKept, ← merging.bases next nextKept] at starts
      exact ⟨by omega, by omega⟩
  · rintro apart first second before inside type ⟨_, touches⟩
    have firstBound := merging.origins first (by omega)
    have secondBound := merging.origins second (by omega)
    by_cases same : SameRun (· < ·) sorted count (origin first) (origin second)
    · have gap := merging.apart first second before (by omega) same
      omega
    · have size := merging.nonempty first (by omega)
      have ordered := merging.ordered first second before (by omega)
      obtain ⟨source, bound, run, kept, low, high⟩ := merging.sound first (by omega)
        ((entries first).base + (entries first).size - 1) ⟨by omega, by omega⟩
      have earlier : source < origin second := by
        by_contra beyond
        exact same (run.trans (run.between firstBound bound (by omega) (by omega)).symm firstBound
          bound secondBound)
      have gap := apart source bound (origin second) secondBound kept earlier
        (by rw [run.1, ← merging.types first (by omega), ← merging.types second (by omega), type])
        fun together => same (run.trans together firstBound bound secondBound)
      rw [← merging.bases second (by omega)] at gap
      omega

end Touching

/-! ## From the sorted entries back to those before the sort -/

section Arranged

variable {before after : Nat → E820Entry} {count : Nat} {place : Nat → Nat}

theorem Arranged.sameRun_iff (arranged : Arranged before after count place) {first second : Nat}
    (firstInside : first < count) (secondInside : second < count) :
    SameRun (· < ·) after count first second ↔
      SameRun (Precedes before) before count (place first) (place second) := by
  rw [SameRun, SameRun, arranged.same first firstInside, arranged.same second secondInside]
  refine and_congr_right fun _ => ?_
  constructor
  · intro between source sourceInside order
    obtain ⟨index, inside, rfl⟩ := arranged.onto source sourceInside
    rw [← arranged.same index inside]
    rw [arranged.precedes_iff firstInside inside, arranged.precedes_iff inside secondInside,
      arranged.precedes_iff secondInside inside, arranged.precedes_iff inside firstInside] at order
    exact between index inside order
  · intro between index inside order
    rw [arranged.same index inside]
    refine between (place index) (arranged.inside index inside) ?_
    rw [arranged.precedes_iff firstInside inside, arranged.precedes_iff inside secondInside,
      arranged.precedes_iff secondInside inside, arranged.precedes_iff inside firstInside]
    exact order

theorem Arranged.runOf_eq (arranged : Arranged before after count place) {index : Nat}
    (inside : index < count) :
    RunOf (· < ·) after count index = RunOf (Precedes before) before count (place index) := by
  funext entry
  apply propext
  constructor
  · rintro ⟨other, bound, run, rfl⟩
    exact ⟨place other, arranged.inside other bound, (arranged.sameRun_iff inside bound).mp run,
      (arranged.same other bound).symm⟩
  · rintro ⟨source, bound, run, rfl⟩
    obtain ⟨other, otherBound, rfl⟩ := arranged.onto source bound
    exact ⟨other, otherBound, (arranged.sameRun_iff inside otherBound).mpr run,
      arranged.same other otherBound⟩

theorem Arranged.kept_iff (arranged : Arranged before after count place) {index : Nat}
    (inside : index < count) :
    Kept (· < ·) after count index ↔ Kept (Precedes before) before count (place index) := by
  rw [Kept, Kept, arranged.runOf_eq inside, arranged.same index inside]

theorem Arranged.runsApart_iff (arranged : Arranged before after count place) :
    RunsApart (· < ·) after count ↔ RunsApart (Precedes before) before count := by
  constructor
  · intro apart first firstInside second inside kept order type other
    obtain ⟨index, bound, rfl⟩ := arranged.onto first firstInside
    obtain ⟨next, nextBound, rfl⟩ := arranged.onto second inside
    have gap := apart index bound next nextBound ((arranged.kept_iff bound).mpr kept)
      ((arranged.precedes_iff bound nextBound).mp order)
    rw [arranged.same index bound, arranged.same next nextBound,
      arranged.sameRun_iff bound nextBound] at gap
    exact gap type other
  · intro apart index bound next nextBound kept order
    rw [arranged.same index bound, arranged.same next nextBound,
      arranged.sameRun_iff bound nextBound]
    exact apart _ (arranged.inside index bound) _ (arranged.inside next nextBound)
      ((arranged.kept_iff bound).mp kept) ((arranged.precedes_iff bound nextBound).mpr order)

end Arranged

theorem sort_merge_noneTouch_iff (info : BootInfo) (nonempty : 0 < info.numE820Entries)
    (sized : EntriesSized info.Entry) :
    (earlyMergeE820 (earlySortE820 info)).NoneTouch ↔
      RunsApart (Precedes info.e820Entries) info.e820Entries info.numE820Entries := by
  obtain ⟨place, arranged⟩ := earlySortE820_arranged info nonempty
  have same : Among (earlySortE820 info).e820Entries info.numE820Entries = info.Entry :=
    arranged.among_eq
  rw [← same] at sized
  obtain ⟨origin, merging⟩ := mergeFrom_merging sized arranged.sorted (info.numE820Entries - 1)
    (by omega) (merging_first sized arranged.sorted nonempty)
  rw [← arranged.runsApart_iff]
  exact merging.noneTouch_iff arranged.sorted

def unsortedE820 : List E820Entry :=
  [⟨0x2000, 0x1000, e820TypeRam⟩, ⟨0x5000, 0x1000, e820TypeReserved⟩, ⟨0x1000, 0x1000, e820TypeRam⟩]

theorem unsortedE820_noneTouch :
    (earlyMergeE820 (earlySortE820 (bootInfoOf unsortedE820))).NoneTouch := by
  refine (sort_merge_noneTouch_iff (bootInfoOf unsortedE820) (by decide) ?_).mpr ?_
  · rw [bootInfoOf_entry]
    exact ⟨by decide, by decide⟩
  · have oneRun : ∀ first < 3, ∀ second < 3,
        ((bootInfoOf unsortedE820).e820Entries first).type =
          ((bootInfoOf unsortedE820).e820Entries second).type →
        SameRun (Precedes (bootInfoOf unsortedE820).e820Entries)
          (bootInfoOf unsortedE820).e820Entries 3 first second := by
      decide
    intro first firstInside second inside _ _ type other
    exact absurd (oneRun first firstInside second inside type) other

theorem interleaved_entries_touch :
    ∃ info, 0 < info.numE820Entries ∧ EntriesSized info.Entry ∧
      ¬(earlyMergeE820 (earlySortE820 info)).NoneTouch := by
  refine ⟨bootInfoOf [⟨0, 0x3000, e820TypeRam⟩, ⟨0x1000, 0x1000, e820TypeReserved⟩,
    ⟨0x2000, 0x2000, e820TypeRam⟩], by decide, ?_, fun none => ?_⟩
  · rw [bootInfoOf_entry]
    exact ⟨by decide, by decide⟩
  · exact none 0 2 (by decide) (by decide +kernel) (by decide +kernel)
      ⟨by decide +kernel, by decide +kernel⟩

/-! ## What stays covered -/

def BootInfo.Covers (info : BootInfo) (type address : Nat) : Prop :=
  ∃ entry, info.Entry entry ∧ entry.type = type ∧ entry.Holds address

structure MergeKeeps (before after : BootInfo) : Prop where
  sorted : ∀ first second, first < second → second < after.numE820Entries →
    (after.e820Entries first).base ≤ (after.e820Entries second).base
  coverage : ∀ type address, after.Covers type address ↔ before.Covers type address
  count : after.numE820Entries ≤ before.numE820Entries

theorem Merging.covers_iff {info : BootInfo} {currIndex : Nat} {entries : Nat → E820Entry}
    {origin : Nat → Nat} (merging : Merging info.e820Entries info.numE820Entries
      info.numE820Entries currIndex entries origin) (type address : Nat) :
    (∃ place ≤ currIndex, (entries place).type = type ∧ (entries place).Holds address) ↔
      ∃ index < info.numE820Entries, Kept (· < ·) info.e820Entries info.numE820Entries index ∧
        (info.e820Entries index).type = type ∧ (info.e820Entries index).Holds address := by
  constructor
  · rintro ⟨place, kept, rfl, holds⟩
    obtain ⟨source, bound, run, covered, found⟩ := merging.sound place kept address holds
    exact ⟨source, bound, covered, by rw [run.1, merging.types place kept], found⟩
  · rintro ⟨index, bound, covered, rfl, low, high⟩
    obtain ⟨place, kept, run, start, finish⟩ := merging.complete index bound covered
    exact ⟨place, kept, by rw [merging.types place kept, run.1], by omega, by omega⟩

theorem merge_keeps_iff (info : BootInfo) (nonempty : 0 < info.numE820Entries)
    (sized : EntriesSized info.Entry) (order : Sorted info.e820Entries info.numE820Entries) :
    MergeKeeps info (earlyMergeE820 info) ↔
      ∀ index < info.numE820Entries, ∀ address, (info.e820Entries index).Holds address →
        ∃ kept < info.numE820Entries, Kept (· < ·) info.e820Entries info.numE820Entries kept ∧
          (info.e820Entries kept).type = (info.e820Entries index).type ∧
          (info.e820Entries kept).Holds address := by
  obtain ⟨origin, merging⟩ := mergeFrom_merging sized order (info.numE820Entries - 1) (by omega)
    (merging_first sized order nonempty)
  have behind := merging.behind
  have covers : ∀ type address, (earlyMergeE820 info).Covers type address ↔
      ∃ index < info.numE820Entries, Kept (· < ·) info.e820Entries info.numE820Entries index ∧
        (info.e820Entries index).type = type ∧ (info.e820Entries index).Holds address := by
    intro type address
    rw [← merging.covers_iff]
    constructor
    · rintro ⟨_, ⟨place, inside, rfl⟩, found⟩
      exact ⟨place, Nat.le_of_lt_succ inside, found⟩
    · rintro ⟨place, kept, found⟩
      exact ⟨_, ⟨place, Nat.lt_succ_of_le kept, rfl⟩, found⟩
  constructor
  · intro keeps index inside address holds
    have covered := (keeps.coverage _ address).mpr ⟨_, ⟨index, inside, rfl⟩, rfl, holds⟩
    exact (covers _ address).mp covered
  · intro condition
    refine ⟨?_, ?_, ?_⟩
    · intro first second before inside
      have kept : second ≤ (mergeFrom (info.numE820Entries - 1) 1 0 info.e820Entries).1 :=
        Nat.le_of_lt_succ inside
      have origins := merging.ordered first second before kept
      have bases := sorted_base order (Nat.le_of_lt origins) (merging.origins second kept)
      rwa [← merging.bases first (by omega), ← merging.bases second kept] at bases
    · intro type address
      rw [covers]
      constructor
      · rintro ⟨index, inside, _, found⟩
        exact ⟨_, ⟨index, inside, rfl⟩, found⟩
      · rintro ⟨_, ⟨index, inside, rfl⟩, rfl, holds⟩
        exact condition index inside address holds
    · exact behind

theorem overlapping_entries_keep :
    MergeKeeps (bootInfoOf [⟨0, 0x1000, e820TypeRam⟩, ⟨0x800, 0x1000, e820TypeRam⟩])
      (earlyMergeE820
        (bootInfoOf [⟨0, 0x1000, e820TypeRam⟩, ⟨0x800, 0x1000, e820TypeRam⟩])) := by
  refine (merge_keeps_iff _ (by decide) ?_ ?_).mpr ?_
  · rw [bootInfoOf_entry]
    exact ⟨by decide, by decide⟩
  · intro first second before inside
    have small : second < 2 := inside
    obtain rfl : first = 0 := by omega
    obtain rfl : second = 1 := by omega
    decide
  · intro index inside address holds
    refine ⟨index, inside, ?_, rfl, holds⟩
    refine .shortest ⟨index, inside, .self index, rfl⟩ ?_
    rintro _ ⟨other, bound, _, rfl⟩ _ base
    have small : ∀ first < 2, ∀ second < 2,
        ((bootInfoOf [⟨0, 0x1000, e820TypeRam⟩, ⟨0x800, 0x1000, e820TypeRam⟩]).e820Entries
          first).size ≤
        ((bootInfoOf [⟨0, 0x1000, e820TypeRam⟩, ⟨0x800, 0x1000, e820TypeRam⟩]).e820Entries
          second).size := by
      decide
    exact small index inside other bound

/-- Of two RAM entries with one base the longer one is dropped. -/
theorem same_base_loses_coverage :
    ∃ info, 0 < info.numE820Entries ∧ EntriesSized info.Entry ∧
      Sorted info.e820Entries info.numE820Entries ∧ ¬MergeKeeps info (earlyMergeE820 info) := by
  let info := bootInfoOf [⟨0, 0x1000, e820TypeRam⟩, ⟨0, 0x2000, e820TypeRam⟩]
  refine ⟨info, by decide, ?_, ?_, fun keeps => ?_⟩
  · rw [bootInfoOf_entry]
    exact ⟨by decide, by decide⟩
  · intro first second before inside
    have small : second < 2 := inside
    obtain rfl : first = 0 := by omega
    obtain rfl : second = 1 := by omega
    decide
  · have covered : info.Covers e820TypeRam 0x1000 :=
      ⟨⟨0, 0x2000, e820TypeRam⟩, ⟨1, by decide, rfl⟩, rfl, by decide, by decide⟩
    obtain ⟨_, ⟨place, inside, rfl⟩, _, _, high⟩ := (keeps.coverage _ _).mpr covered
    have count : (earlyMergeE820 info).numE820Entries = 1 := by decide +kernel
    obtain rfl : place = 0 := by omega
    have only : (earlyMergeE820 info).e820Entries 0 = ⟨0, 0x1000, e820TypeRam⟩ := by
      decide +kernel
    rw [only] at high
    exact absurd high (by decide)

/-! ## What the normalisation makes of the entries -/

instance (entry : E820Entry) (frame : Nat) : Decidable (entry.HasFrame frame) :=
  inferInstanceAs (Decidable (_ ∧ _))

theorem E820Entry.hasFrame_iff (entry : E820Entry) :
    entry.HasFrame ((entry.base + 4095) / pageSize) ↔ ∃ frame, entry.HasFrame frame := by
  constructor
  · intro first
    exact ⟨_, first⟩
  · rintro ⟨frame, low, high⟩
    simp only [E820Entry.HasFrame, pageSize, pageShift] at low high ⊢
    omega

instance (entry : E820Entry) : Decidable (∃ frame, entry.HasFrame frame) :=
  decidable_of_iff _ entry.hasFrame_iff

/-- The RAM entries become, in order, the frames of those that have any; the others stay. -/
structure NormalisedExactly (before after : List E820Entry) : Prop where
  others : after.filter (fun entry => entry.type ≠ e820TypeRam) =
    before.filter fun entry => entry.type ≠ e820TypeRam
  aligned : ∀ entry ∈ after, entry.type = e820TypeRam → PageAligned entry
  frames : List.Forall₂ (fun entry normal => ∀ frame, normal.HasFrame frame ↔ entry.HasFrame frame)
    (before.filter fun entry => entry.type = e820TypeRam ∧ ∃ frame, entry.HasFrame frame)
    (after.filter fun entry => entry.type = e820TypeRam)

theorem normaliseEntry_wrapped {entry : E820Entry} (ram : entry.type = e820TypeRam)
    (nonempty : 0 < entry.size) (bounded : entry.base + entry.size < 2 ^ 64)
    (last : 2 ^ 64 - 2 ^ 12 < entry.base) :
    normaliseEntry entry = some ⟨0, 2 ^ 64 - 2 ^ 12, e820TypeRam⟩ := by
  have page : pageSize = 2 ^ 12 := rfl
  have start : alignUp entry.base (2 ^ 12) = 0 := by
    obtain ⟨offset, place⟩ : ∃ offset, entry.base = 2 ^ 64 - 2 ^ 12 + 1 + offset :=
      Nat.exists_eq_add_of_lt last |>.imp fun offset place => by omega
    have wraps : sub64 (add64 entry.base (2 ^ 12)) 1 = offset := by
      unfold sub64 add64
      omega
    rw [alignUp, wraps, align_eq (by omega : offset < 2 ^ 64) (by omega),
      Nat.div_eq_of_lt (by omega), Nat.zero_mul]
  have finish : align (entry.base + entry.size) (2 ^ 12) = 2 ^ 64 - 2 ^ 12 := by
    rw [align_eq bounded (by omega)]
    omega
  have unaligned : ¬2 ^ 12 ∣ entry.base := by omega
  unfold normaliseEntry
  rw [if_neg (by simp [ram]), add64_eq bounded, page]
  simp only [Bool.and_eq_true, isAligned_iff, unaligned, false_and, if_false, start, finish]
  rw [if_pos (Nat.sub_pos_of_lt (Nat.pow_lt_pow_right (by omega) (by omega))), ram, Nat.sub_zero]

section Normalising

variable {before : List E820Entry}

theorem normalise_exact (sized : EntriesSized (· ∈ before))
    (low : ∀ entry ∈ before, entry.type = e820TypeRam → entry.base ≤ 2 ^ 64 - 2 ^ 12) :
    NormalisedExactly before (before.filterMap normaliseEntry) := by
  induction before with
  | nil => exact ⟨rfl, nofun, .nil⟩
  | cons entry entries ih =>
      have rest := ih ⟨fun other member => sized.nonempty other (.tail _ member),
        fun other member => sized.bounded other (.tail _ member)⟩
        fun other member => low other (.tail _ member)
      by_cases ram : entry.type = e820TypeRam
      · rcases normaliseEntry_ram ram (sized.nonempty entry (.head _))
          (sized.bounded entry (.head _)) (low entry (.head _) ram) with
          ⟨normal, normalised, shape⟩ | ⟨gone, none⟩
        · have normalRam := shape.type.trans ram
          have framed : ∃ frame, entry.HasFrame frame := by
            refine ⟨normal.base / pageSize, (shape.frames _).mp ?_⟩
            have base := shape.baseAligned
            have size := shape.sizeAligned
            have nonempty := shape.nonempty
            simp only [E820Entry.HasFrame, pageSize, pageShift] at base size ⊢
            omega
          rw [List.filterMap_cons_some normalised]
          refine ⟨?_, ?_, ?_⟩
          · simpa [ram, normalRam] using rest.others
          · intro other member
            rcases List.mem_cons.mp member with rfl | inRest
            · exact fun _ => ⟨shape.baseAligned, shape.sizeAligned, shape.nonempty⟩
            · exact rest.aligned other inRest
          · rw [List.filter_cons_of_pos (by simpa [ram] using framed),
              List.filter_cons_of_pos (by simpa using normalRam)]
            exact .cons shape.frames rest.frames
        · rw [List.filterMap_cons_none gone]
          refine ⟨?_, rest.aligned, ?_⟩
          · simpa [ram] using rest.others
          · rw [List.filter_cons_of_neg (by simpa [ram] using none)]
            exact rest.frames
      · rw [List.filterMap_cons_some (normaliseEntry_other ram)]
        refine ⟨?_, ?_, ?_⟩
        · simpa [ram] using rest.others
        · intro other member otherRam
          rcases List.mem_cons.mp member with rfl | inRest
          · exact absurd otherRam ram
          · exact rest.aligned other inRest otherRam
        · rw [List.filter_cons_of_neg (by simp [ram]), List.filter_cons_of_neg (by simp [ram])]
          exact rest.frames

/-- No RAM entry with a frame goes, so one that is invented makes them too many. -/
theorem normalise_count (sized : EntriesSized (· ∈ before)) :
    before.countP (fun entry => entry.type = e820TypeRam ∧ ∃ frame, entry.HasFrame frame) +
        before.countP (fun entry => entry.type = e820TypeRam ∧ 2 ^ 64 - 2 ^ 12 < entry.base) ≤
      (before.filterMap normaliseEntry).countP fun entry => entry.type = e820TypeRam := by
  induction before with
  | nil => exact Nat.le_refl _
  | cons entry entries ih =>
      have rest := ih ⟨fun other member => sized.nonempty other (.tail _ member),
        fun other member => sized.bounded other (.tail _ member)⟩
      have nonempty := sized.nonempty entry (.head _)
      have bounded := sized.bounded entry (.head _)
      rw [List.countP_cons, List.countP_cons]
      by_cases ram : entry.type = e820TypeRam
      · by_cases last : 2 ^ 64 - 2 ^ 12 < entry.base
        · have frameless : ¬∃ frame, entry.HasFrame frame := by
            rintro ⟨frame, low, high⟩
            simp only [pageSize, pageShift] at low high
            omega
          rw [List.filterMap_cons_some (normaliseEntry_wrapped ram nonempty bounded last),
            List.countP_cons]
          simp only [ram, last, frameless, and_true, and_false, decide_true, decide_false, if_true,
            Bool.false_eq_true, if_false]
          omega
        · rcases normaliseEntry_ram ram nonempty bounded (by omega) with
            ⟨normal, normalised, shape⟩ | ⟨gone, none⟩
          · rw [List.filterMap_cons_some normalised, List.countP_cons]
            simp only [ram, last, shape.type.trans ram, true_and, and_false, decide_true,
              decide_false, if_true, Bool.false_eq_true, if_false]
            split <;> omega
          · have frameless : ¬∃ frame, entry.HasFrame frame := by
              rintro ⟨frame, inside⟩
              exact none frame inside
            rw [List.filterMap_cons_none gone]
            simp only [last, frameless, and_false, decide_false, Bool.false_eq_true, if_false]
            omega
      · rw [List.filterMap_cons_some (normaliseEntry_other ram), List.countP_cons]
        simp only [ram, false_and, decide_false, Bool.false_eq_true, if_false]
        omega

end Normalising

theorem normalise_exact_iff (info : BootInfo) (sized : EntriesSized (· ∈ info.entryList)) :
    ∃ after, earlyNormaliseE820 info = .ok after ∧
      (NormalisedExactly info.entryList after.entryList ↔
        ∀ entry ∈ info.entryList, entry.type = e820TypeRam → entry.base ≤ 2 ^ 64 - 2 ^ 12) := by
  obtain ⟨after, returned, list⟩ := earlyNormaliseE820_list info
  refine ⟨after, returned, ?_⟩
  rw [list]
  constructor
  · intro exactly entry member ram
    by_contra last
    have many := normalise_count sized
    have pairs := exactly.frames.length_eq
    have invented : 0 < info.entryList.countP fun entry =>
        entry.type = e820TypeRam ∧ 2 ^ 64 - 2 ^ 12 < entry.base := by
      rw [List.countP_pos_iff]
      exact ⟨entry, member, by simpa [ram] using last⟩
    rw [← List.countP_eq_length_filter, ← List.countP_eq_length_filter] at pairs
    omega
  · exact normalise_exact sized

def unalignedE820 : List E820Entry :=
  [⟨0x800, 0x2000, e820TypeRam⟩, ⟨0x3000, 0x10, e820TypeReserved⟩, ⟨0x5010, 0x20, e820TypeRam⟩]

theorem unalignedE820_normalised :
    ∃ after, earlyNormaliseE820 (bootInfoOf unalignedE820) = .ok after ∧
      NormalisedExactly (bootInfoOf unalignedE820).entryList after.entryList := by
  obtain ⟨after, returned, exactly⟩ := normalise_exact_iff (bootInfoOf unalignedE820)
    ⟨by decide, by decide⟩
  exact ⟨after, returned, exactly.mpr (by decide)⟩

theorem last_page_invents_ram :
    ∃ info after, EntriesSized (· ∈ info.entryList) ∧ earlyNormaliseE820 info = .ok after ∧
      after.entryList = [⟨0, 2 ^ 64 - 2 ^ 12, e820TypeRam⟩] ∧
      ¬NormalisedExactly info.entryList after.entryList := by
  let info := bootInfoOf [⟨2 ^ 64 - 0x100, 0x10, e820TypeRam⟩]
  obtain ⟨after, returned, list⟩ := earlyNormaliseE820_list info
  have whole : after.entryList = [⟨0, 2 ^ 64 - 2 ^ 12, e820TypeRam⟩] := by
    rw [list]
    decide +kernel
  refine ⟨info, after, ⟨by decide, by decide⟩, returned, whole, fun exactly => ?_⟩
  have pairs := exactly.frames
  rw [whole] at pairs
  have none : info.entryList.filter (fun entry => entry.type = e820TypeRam ∧
      ∃ frame, entry.HasFrame frame) = [] := by
    decide +kernel
  rw [none] at pairs
  cases pairs

end Zeptux.Early
