import Mathlib.Data.Finset.Card
import Mathlib.Order.Interval.Finset.Nat
import Zeptux.Align
import Zeptux.E820Merge

/-!
The last two passes over the e820 entries, and what all four of them make of the RAM
entries.
-/

namespace Zeptux.Early

open Word

def slice (entries : Nat → E820Entry) : Nat → Nat → List E820Entry
  | _, 0 => []
  | start, count + 1 => entries start :: slice entries (start + 1) count

def BootInfo.entryList (info : BootInfo) : List E820Entry :=
  slice info.e820Entries 0 info.numE820Entries

def BootInfo.ramEntries (info : BootInfo) : List E820Entry :=
  info.entryList.filter fun entry => entry.type = e820TypeRam

theorem slice_congr {left right : Nat → E820Entry} {first second count : Nat}
    (same : ∀ offset < count, left (first + offset) = right (second + offset)) :
    slice left first count = slice right second count := by
  induction count generalizing first second with
  | zero => rfl
  | succ count ih =>
      have head : left first = right second := same 0 (by omega)
      rw [slice, slice, head]
      congr 1
      apply ih
      intro offset inside
      have next := same (offset + 1) (by omega)
      rwa [Nat.add_comm offset 1, ← Nat.add_assoc, ← Nat.add_assoc] at next

theorem slice_append (entries : Nat → E820Entry) (start first second : Nat) :
    slice entries start (first + second) =
      slice entries start first ++ slice entries (start + first) second := by
  induction first generalizing start with
  | zero => rw [Nat.zero_add, slice, List.nil_append, Nat.add_zero]
  | succ first ih =>
      rw [Nat.add_right_comm, slice, slice, ih, List.cons_append, Nat.add_assoc start,
        Nat.add_comm 1 first]

theorem mem_slice {entries : Nat → E820Entry} {start count : Nat} {entry : E820Entry} :
    entry ∈ slice entries start count ↔ ∃ offset < count, entries (start + offset) = entry := by
  induction count generalizing start with
  | zero => simp [slice]
  | succ count ih =>
      rw [slice, List.mem_cons, ih]
      constructor
      · rintro (rfl | ⟨offset, inside, rfl⟩)
        · exact ⟨0, by omega, rfl⟩
        · exact ⟨offset + 1, by omega, by rw [Nat.add_comm offset, Nat.add_assoc]⟩
      · rintro ⟨offset, inside, rfl⟩
        rcases offset with _ | offset
        · exact Or.inl rfl
        · exact Or.inr ⟨offset, by omega, by rw [Nat.add_comm offset, Nat.add_assoc]⟩

theorem pairwise_slice {entries : Nat → E820Entry} {start count : Nat}
    {Related : E820Entry → E820Entry → Prop}
    (related : ∀ first second, first < second → second < count →
      Related (entries (start + first)) (entries (start + second))) :
    (slice entries start count).Pairwise Related := by
  induction count generalizing start with
  | zero => exact .nil
  | succ count ih =>
      rw [slice, List.pairwise_cons]
      constructor
      · intro entry member
        obtain ⟨offset, inside, rfl⟩ := mem_slice.mp member
        have pair := related 0 (offset + 1) (by omega) (by omega)
        rwa [Nat.add_zero, Nat.add_comm offset, ← Nat.add_assoc] at pair
      · apply ih
        intro first second order inside
        have pair := related (first + 1) (second + 1) (by omega) (by omega)
        rwa [Nat.add_comm first, Nat.add_comm second, ← Nat.add_assoc, ← Nat.add_assoc] at pair

/-! ## Normalising -/

theorem shiftDownFrom_apply (remaining index : Nat) (entries : Nat → E820Entry) (place : Nat) :
    shiftDownFrom remaining index entries place =
      if index ≤ place ∧ place < index + remaining then entries (place + 1)
      else entries place := by
  induction remaining generalizing index entries with
  | zero =>
      rw [shiftDownFrom, if_neg (by omega)]
  | succ remaining ih =>
      rw [shiftDownFrom, ih]
      by_cases here : place = index
      · subst place
        rw [if_neg (by omega), if_pos (by omega), Function.update_self]
      · by_cases above : index + 1 ≤ place ∧ place < index + 1 + remaining
        · rw [if_pos above, if_pos (by omega), Function.update_of_ne (by omega)]
        · rw [if_neg above, if_neg (by omega), Function.update_of_ne here]

theorem normaliseFrom_list (remaining i : Nat) (info : BootInfo)
    (total : i + remaining = info.numE820Entries) :
    ∃ after, normaliseFrom remaining i info = .ok after ∧
      after.entryList = slice info.e820Entries 0 i ++
        (slice info.e820Entries i remaining).filterMap normaliseEntry := by
  induction remaining generalizing i info with
  | zero =>
      refine ⟨info, rfl, ?_⟩
      rw [BootInfo.entryList, ← total, slice, List.filterMap_nil, List.append_nil, Nat.add_zero]
  | succ remaining ih =>
      rw [slice, normaliseFrom]
      cases normalised : normaliseEntry (info.e820Entries i) with
      | some entry =>
          obtain ⟨after, returned, list⟩ := ih (i + 1)
            { info with e820Entries := Function.update info.e820Entries i entry } (by simp only; omega)
          refine ⟨after, returned, ?_⟩
          have front : slice (Function.update info.e820Entries i entry) 0 (i + 1) =
              slice info.e820Entries 0 i ++ [entry] := by
            rw [slice_append, slice, slice, Nat.zero_add, Function.update_self]
            congr 1
            exact slice_congr fun offset inside => Function.update_of_ne (by omega) _ _
          have back : slice (Function.update info.e820Entries i entry) (i + 1) remaining =
              slice info.e820Entries (i + 1) remaining :=
            slice_congr fun offset inside => Function.update_of_ne (by omega) _ _
          rw [list, front, back, List.filterMap_cons_some normalised, List.append_assoc]
          rfl
      | none =>
          have present : info.numE820Entries ≠ 0 := by omega
          have left : info.numE820Entries - 1 - i = remaining := by omega
          obtain ⟨after, returned, list⟩ := ih i
            { info with
              e820Entries := shiftDownFrom remaining i info.e820Entries
              numE820Entries := info.numE820Entries - 1 } (by simp only; omega)
          refine ⟨after, ?_, ?_⟩
          · simp only [deleteE820Entry, if_neg present, left]
            exact returned
          · have front : slice (shiftDownFrom remaining i info.e820Entries) 0 i =
                slice info.e820Entries 0 i :=
              slice_congr fun offset inside => by rw [shiftDownFrom_apply, if_neg (by omega)]
            have back : slice (shiftDownFrom remaining i info.e820Entries) i remaining =
                slice info.e820Entries (i + 1) remaining :=
              slice_congr fun offset inside => by
                rw [shiftDownFrom_apply, if_pos (by omega), Nat.add_right_comm]
            rw [list, front, back, List.filterMap_cons_none normalised]

theorem earlyNormaliseE820_list (info : BootInfo) :
    ∃ after, earlyNormaliseE820 info = .ok after ∧
      after.entryList = info.entryList.filterMap normaliseEntry := by
  obtain ⟨after, returned, list⟩ :=
    normaliseFrom_list info.numE820Entries 0 info (Nat.zero_add _)
  exact ⟨after, returned, list⟩

def E820Entry.HasFrame (entry : E820Entry) (frame : Nat) : Prop :=
  entry.base ≤ pageSize * frame ∧ pageSize * (frame + 1) ≤ entry.base + entry.size

/-- What `early_normalise_e820` makes of a RAM entry: the frames inside it. -/
structure Normal (entry normal : E820Entry) : Prop where
  type : normal.type = entry.type
  start : entry.base ≤ normal.base
  finish : normal.base + normal.size ≤ entry.base + entry.size
  baseAligned : pageSize ∣ normal.base
  sizeAligned : pageSize ∣ normal.size
  nonempty : 0 < normal.size
  frames : ∀ frame, normal.HasFrame frame ↔ entry.HasFrame frame

theorem normaliseEntry_ram {entry : E820Entry} (ram : entry.type = e820TypeRam)
    (nonempty : 0 < entry.size) (bounded : entry.base + entry.size < 2 ^ 64)
    (start : entry.base ≤ 2 ^ 64 - 2 ^ 12) :
    (∃ normal, normaliseEntry entry = some normal ∧ Normal entry normal) ∨
      normaliseEntry entry = none ∧ ∀ frame, ¬entry.HasFrame frame := by
  have page : pageSize = 2 ^ 12 := rfl
  have up := alignUp_eq (by omega : entry.base + (2 ^ 12 - 1) < 2 ^ 64) (by omega)
  have down := align_eq bounded (by omega : 12 ≤ 64)
  unfold normaliseEntry
  rw [if_neg (by simp [ram]), add64_eq bounded, page]
  simp only [Bool.and_eq_true, isAligned_iff, up, down]
  split
  · rename_i aligned
    refine Or.inl ⟨entry, rfl, rfl, Nat.le_refl _, Nat.le_refl _, aligned.1, ?_, nonempty,
      fun _ => Iff.rfl⟩
    exact (Nat.dvd_add_right aligned.1).mp aligned.2
  · split
    · rename_i room
      refine Or.inl ⟨_, rfl, rfl, by simp only; omega, by simp only; omega, ?_, ?_,
        by simp only; omega, ?_⟩
      · exact Nat.dvd_mul_left _ _
      · exact Nat.dvd_sub (Nat.dvd_mul_left _ _) (Nat.dvd_mul_left _ _)
      · intro frame
        simp only [E820Entry.HasFrame, page]
        omega
    · rename_i room
      refine Or.inr ⟨rfl, ?_⟩
      intro frame
      simp only [E820Entry.HasFrame, page]
      omega

/-! ## Counting -/

theorem countRamFrom_eq (info : BootInfo) (remaining i bytes numRamEntries : Nat)
    (bytesBound : bytes + (((slice info.e820Entries i remaining).filter
      fun entry => entry.type = e820TypeRam).map E820Entry.size).sum < 2 ^ 64)
    (countBound : numRamEntries + ((slice info.e820Entries i remaining).filter
      fun entry => entry.type = e820TypeRam).length < 2 ^ 64) :
    countRamFrom info remaining i bytes numRamEntries =
      (bytes + (((slice info.e820Entries i remaining).filter
          fun entry => entry.type = e820TypeRam).map E820Entry.size).sum,
        numRamEntries + ((slice info.e820Entries i remaining).filter
          fun entry => entry.type = e820TypeRam).length) := by
  induction remaining generalizing i bytes numRamEntries with
  | zero => rfl
  | succ remaining ih =>
      rw [slice] at bytesBound countBound
      rw [countRamFrom, slice]
      by_cases ram : (info.e820Entries i).type = e820TypeRam
      · rw [List.filter_cons_of_pos (by simpa using ram), List.map_cons, List.sum_cons,
          List.length_cons]
        rw [List.filter_cons_of_pos (by simpa using ram), List.map_cons, List.sum_cons] at bytesBound
        rw [List.filter_cons_of_pos (by simpa using ram), List.length_cons] at countBound
        simp only [ram, ne_eq, not_true_eq_false, ↓reduceIte]
        rw [add64_eq (by omega), add64_eq (by omega), ih _ _ _ (by omega) (by omega)]
        congr 1
        · omega
        · omega
      · rw [List.filter_cons_of_neg (by simpa using ram)]
        rw [List.filter_cons_of_neg (by simpa using ram)] at bytesBound countBound
        simp only [ram, ne_eq, not_false_eq_true, ↓reduceIte]
        exact ih _ _ _ bytesBound countBound

def Separate (entries : List E820Entry) : Prop :=
  entries.Pairwise fun entry next => entry.base + entry.size < next.base

theorem Separate.eq_or_apart {entries : List E820Entry} (separate : Separate entries)
    {entry other : E820Entry} (member : entry ∈ entries) (otherMember : other ∈ entries) :
    entry = other ∨ entry.base + entry.size < other.base ∨
      other.base + other.size < entry.base := by
  induction entries with
  | nil => cases member
  | cons first rest ih =>
      obtain ⟨below, tail⟩ := List.pairwise_cons.mp separate
      rcases List.mem_cons.mp member with rfl | inRest
      · rcases List.mem_cons.mp otherMember with rfl | otherInRest
        · exact Or.inl rfl
        · exact Or.inr (Or.inl (below other otherInRest))
      · rcases List.mem_cons.mp otherMember with rfl | otherInRest
        · exact Or.inr (Or.inr (below entry inRest))
        · exact ih tail inRest otherInRest

theorem Separate.run {entries : List E820Entry} (separate : Separate entries) (start length : Nat)
    (held : ∀ address, start ≤ address → address < start + (length + 1) →
      ∃ entry ∈ entries, entry.Holds address) :
    ∃ entry ∈ entries, entry.base ≤ start ∧ start + (length + 1) ≤ entry.base + entry.size := by
  induction length with
  | zero =>
      obtain ⟨entry, member, low, high⟩ := held start (by omega) (by omega)
      exact ⟨entry, member, low, high⟩
  | succ length ih =>
      obtain ⟨entry, member, low, high⟩ :=
        ih fun address lower upper => held address lower (by omega)
      obtain ⟨next, nextMember, holds⟩ := held (start + (length + 1)) (by omega) (by omega)
      have first := holds.1
      have last := holds.2
      rcases separate.eq_or_apart member nextMember with rfl | below | above
      · exact ⟨entry, member, low, last⟩
      · omega
      · omega

def frameSet : List E820Entry → Finset Nat
  | [] => ∅
  | entry :: entries =>
      Finset.Ico (entry.base / pageSize) ((entry.base + entry.size) / pageSize) ∪ frameSet entries

structure PageAligned (entry : E820Entry) : Prop where
  base : pageSize ∣ entry.base
  size : pageSize ∣ entry.size
  nonempty : 0 < entry.size

theorem mem_frameSet {entries : List E820Entry}
    (aligned : ∀ entry ∈ entries, PageAligned entry) (frame : Nat) :
    frame ∈ frameSet entries ↔ ∃ entry ∈ entries, entry.HasFrame frame := by
  induction entries with
  | nil => simp [frameSet]
  | cons entry entries ih =>
      have here : frame ∈ Finset.Ico (entry.base / pageSize)
          ((entry.base + entry.size) / pageSize) ↔ entry.HasFrame frame := by
        obtain ⟨base, hasBase⟩ := (aligned entry List.mem_cons_self).base
        obtain ⟨size, hasSize⟩ := (aligned entry List.mem_cons_self).size
        simp only [Finset.mem_Ico, E820Entry.HasFrame, pageSize, pageShift] at hasBase hasSize ⊢
        omega
      rw [frameSet, Finset.mem_union, here, ih fun other member =>
        aligned other (List.mem_cons_of_mem _ member)]
      simp

theorem card_frameSet {entries : List E820Entry} (separate : Separate entries)
    (aligned : ∀ entry ∈ entries, PageAligned entry) :
    (entries.map E820Entry.size).sum = pageSize * (frameSet entries).card := by
  induction entries with
  | nil => rfl
  | cons entry entries ih =>
      obtain ⟨below, rest⟩ := List.pairwise_cons.mp separate
      have others : ∀ other ∈ entries, PageAligned other := fun other member =>
        aligned other (List.mem_cons_of_mem _ member)
      have apart : Disjoint (Finset.Ico (entry.base / pageSize)
          ((entry.base + entry.size) / pageSize)) (frameSet entries) := by
        rw [Finset.disjoint_left]
        intro frame here there
        obtain ⟨other, member, holds⟩ := (mem_frameSet others frame).mp there
        have gap := below other member
        simp only [Finset.mem_Ico, E820Entry.HasFrame, pageSize, pageShift] at here holds
        omega
      rw [List.map_cons, List.sum_cons, ih rest others, frameSet,
        Finset.card_union_of_disjoint apart, Nat.card_Ico]
      obtain ⟨base, hasBase⟩ := (aligned entry List.mem_cons_self).base
      obtain ⟨size, hasSize⟩ := (aligned entry List.mem_cons_self).size
      simp only [pageSize, pageShift] at hasBase hasSize ⊢
      omega

theorem frameSet_card_le {entries : List E820Entry}
    (aligned : ∀ entry ∈ entries, PageAligned entry)
    (bounded : ∀ entry ∈ entries, entry.base + entry.size ≤ 2 ^ 48) :
    (frameSet entries).card ≤ 2 ^ 36 := by
  have subset : frameSet entries ⊆ Finset.range (2 ^ 36) := by
    intro frame member
    obtain ⟨entry, inside, holds⟩ := (mem_frameSet aligned frame).mp member
    have bound := bounded entry inside
    simp only [E820Entry.HasFrame, pageSize, pageShift] at holds
    rw [Finset.mem_range]
    omega
  have card := Finset.card_le_card subset
  rwa [Finset.card_range] at card

end Zeptux.Early
