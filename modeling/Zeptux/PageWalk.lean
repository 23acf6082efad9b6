import Zeptux.PageTheorems

/-! The software page walk of `mm/page.c` against the walk of the processor. -/

namespace Zeptux.Page

open Word X86Paging

/-! ## The entry that is found -/

def PageLevel.number : PageLevel → Nat
  | .pgd => 3
  | .pud => 2
  | .pmd => 1
  | .ptd => 0

theorem entryData_eq {level : Nat} (small : level ≤ 2) (entry : Nat) :
    entryData (12 + 9 * level) entry = frameOf level entry := by
  rw [entryData, pageTablePhysAddrMask, physAddrMask, bitMaskAbove, bitMaskBelow, bitMaskBelow,
    ← Nat.and_assoc, physAddrBits, Nat.and_two_pow_sub_one_eq_mod,
    and_not64_low (by omega) (by omega), frameOf, entrySize]
  have levels : level = 0 ∨ level = 1 ∨ level = 2 := by omega
  rcases levels with rfl | rfl | rfl <;> omega

theorem rawFlags_eq (entry : Nat) : entry &&& pageTableFlagMask = flagsOf entry := by
  rw [pageTableFlagMask, Nat.and_or_distrib_left, bitMaskBelow, Nat.and_two_pow_sub_one_eq_mod,
    pageFlagNx, Nat.and_two_pow, Nat.testBit_eq_decide_div_mod_eq, flagsOf, pageShift]
  have small : entry % 2 ^ 12 < 2 ^ 63 := by omega
  by_cases high : entry / 2 ^ 63 % 2 = 1
  · rw [decide_eq_true high, high, Nat.or_comm, Nat.add_comm]
    exact (Nat.two_pow_add_eq_or_of_lt small 1).symm
  · have clear : entry / 2 ^ 63 % 2 = 0 := by omega
    rw [decide_eq_false high, clear]
    simp

theorem walkToData_cases (mem : Memory) (pgd va : Nat) :
    (∃ panic, walkToData mem pgd va = .error panic ∧ walkFrom mem 3 pgd va = none) ∨
      ∃ raw level, walkToData mem pgd va = .ok (raw, level) ∧ level ≠ .pgd ∧
        walkFrom mem 3 pgd va = some (leafOf level.number raw va) := by
  have pgdIndex : virtIndex pgdShift va = indexAt 3 va := virtIndex_eq 3 va
  have pudIndex : virtIndex pudShift va = indexAt 2 va := virtIndex_eq 2 va
  have pmdIndex : virtIndex pmdShift va = indexAt 1 va := virtIndex_eq 1 va
  have ptdIndex : virtIndex pageShift va = indexAt 0 va := virtIndex_eq 0 va
  have notHuge : ∀ entry, ¬Huge 3 entry := fun entry huge => absurd huge.1 (by decide)
  have huge : ∀ level entry, level < 3 → (Huge level entry ↔ entryPse entry = true) := by
    intro level entry low
    rw [entryPse_iff, Huge]
    exact ⟨fun both => both.2, fun pse => ⟨low, pse⟩⟩
  simp only [walkToData, walkFrom, pgdIndex, pudIndex, pmdIndex, ptdIndex, entryTable_eq, notHuge,
    ↓reduceIte, Bool.not_eq_eq_eq_not, Bool.not_true, huge 2 _ (by decide), huge 1 _ (by decide),
    ← entryPresent_iff, Bool.not_eq_true]
  split
  · exact Or.inl ⟨_, rfl, rfl⟩
  · split
    · exact Or.inl ⟨_, rfl, rfl⟩
    · split
      · exact Or.inr ⟨_, .pud, rfl, by decide, rfl⟩
      · split
        · exact Or.inl ⟨_, rfl, rfl⟩
        · split
          · exact Or.inr ⟨_, .pmd, rfl, by decide, rfl⟩
          · split
            · rename_i absent
              exact Or.inl ⟨_, rfl, if_neg (by simp [absent])⟩
            · rename_i present
              exact Or.inr ⟨_, .ptd, rfl, by decide, if_pos (by simpa using present)⟩

/-! ## What the walk returns -/

theorem walkVirtToPhys_cases (mem : Memory) (pgd va : Nat) :
    (∃ panic, walkVirtToPhys mem pgd va = .error panic ∧ walkFrom mem 3 pgd va = none) ∨
      ∃ leaf frame, walkVirtToPhys mem pgd va = .ok frame ∧ 2 ^ 12 ∣ frame ∧
        walkFrom mem 3 pgd va = some leaf ∧ leaf.pa = frame + va % entrySize leaf.level := by
  rcases walkToData_cases mem pgd va with ⟨panic, stops, none⟩ | ⟨raw, level, found, low, leaf⟩
  · left
    refine ⟨panic, ?_, none⟩
    rw [walkVirtToPhys, stops]
    rfl
  · right
    have frame : ∀ level, 2 ^ 12 ∣ frameOf level raw := by
      intro level
      exact Nat.dvd_mul_left_of_dvd (Nat.pow_dvd_pow 2 (by omega)) _
    refine ⟨_, frameOf level.number raw, ?_, frame _, leaf, rfl⟩
    rw [walkVirtToPhys, found]
    cases level with
    | pgd => exact absurd rfl low
    | pud => exact congrArg Except.ok (entryData_eq (by decide : 2 ≤ 2) raw)
    | pmd => exact congrArg Except.ok (entryData_eq (by decide : 1 ≤ 2) raw)
    | ptd => exact congrArg Except.ok (entryData_eq (by decide : 0 ≤ 2) raw)

/-- The software walk gives the page of the address that the processor gives, and panics
where that faults. -/
def WalkAgrees (mem : Memory) (pgd va : Nat) : Prop :=
  match walk mem pgd va with
  | some leaf => walkVirtToPhys mem pgd va = .ok (leaf.pa / 2 ^ 12 * 2 ^ 12)
  | none => ∃ panic, walkVirtToPhys mem pgd va = .error panic

/-- Where the tables lead to a leaf, the address is canonical and in the first 4 KiB of it. -/
def InFirstPage (mem : Memory) (pgd va : Nat) : Prop :=
  ∀ leaf, walkFrom mem 3 pgd va = some leaf → Canonical va ∧ va % entrySize leaf.level < 2 ^ 12

theorem walkAgrees_iff (mem : Memory) (pgd va : Nat) :
    WalkAgrees mem pgd va ↔ InFirstPage mem pgd va := by
  rw [WalkAgrees, InFirstPage, walk]
  rcases walkVirtToPhys_cases mem pgd va with
    ⟨panic, stops, none⟩ | ⟨leaf, frame, returns, aligned, found, pa⟩
  · rw [none, ite_self]
    simp [stops]
  · rw [found]
    by_cases canonical : Canonical va
    · simp only [canonical, ↓reduceIte, returns, Except.ok.injEq, Option.some.injEq,
        forall_eq', true_and, pa]
      omega
    · simp [canonical, returns]

theorem walkVirtToPhys_eq_iff {mem : Memory} {pgd va pa : Nat} (aligned : 2 ^ 12 ∣ pa)
    {leaf : Leaf} (found : walk mem pgd va = some leaf) (place : leaf.pa = pa) :
    walkVirtToPhys mem pgd va = .ok pa ↔ InFirstPage mem pgd va := by
  rw [← walkAgrees_iff, WalkAgrees, found]
  change _ ↔ walkVirtToPhys mem pgd va = .ok (leaf.pa / 2 ^ 12 * 2 ^ 12)
  rw [place, Nat.div_mul_cancel aligned]

theorem walkVirtToPhys_agrees_iff (mem : Memory) (pgd : Nat) :
    (∀ va, WalkAgrees mem pgd va ↔ InFirstPage mem pgd va) ∧
    ∀ {σ : Type} {alloc : PageAllocators σ} {owned : Stock σ} {flags : Nat}
      {startVa startPa numPages : Nat} {allocState : σ} {after : PageMapState σ},
      SuppliesTables owned alloc → ValidMapFlags flags → 1 ≤ numPages → 2 ^ 12 ∣ startVa →
      2 ^ 12 ∣ startPa → InOneHalf startVa numPages → startPa + 2 ^ 12 * numPages ≤ 2 ^ 48 →
      Sound owned 3 pgd (rangeStart startVa startPa numPages mem allocState) →
      (∀ address, startVa ≤ address → address < startVa + 2 ^ 12 * numPages →
        walk mem pgd address = none) →
      mapPageRange alloc flags pgd startVa startPa numPages mem allocState = .ok after →
      ∀ page < numPages,
        (walkVirtToPhys after.mem pgd (startVa + 2 ^ 12 * page) = .ok (startPa + 2 ^ 12 * page) ↔
          InFirstPage after.mem pgd (startVa + 2 ^ 12 * page)) := by
  refine ⟨walkAgrees_iff mem pgd, ?_⟩
  intro σ alloc owned flags startVa startPa numPages allocState after supplies valid
    positive vaAligned paAligned half paBound sound unmapped returned page inside
  have outcome := mapPageRange_maps supplies valid positive vaAligned half paBound sound
    unmapped
  rw [returned] at outcome
  obtain ⟨leaf, found, place, _⟩ := Passed.walk_inside outcome vaAligned paAligned half
    (by omega : 2 ^ 12 * page < 2 ^ 12 * numPages) (by omega) (unmapped _ (by omega) (by omega))
  exact walkVirtToPhys_eq_iff (Nat.dvd_add paAligned (Nat.dvd_mul_right _ _)) found place

/-! ## A small page and a large one -/

/-- 513 pages at 0x1ff000: a small page, and a large one from 0x200000 on. -/
def mapSmallAndLarge : Except MapStop (PageMapState Nat) :=
  mapPageRange bumpAllocators mapKernel 0x1000 0x1ff000 0x3ff000 (513 : Nat) (fun _ => 0) 2

theorem mapSmallAndLarge_passed :
    ∃ after, mapSmallAndLarge = .ok after ∧
      Passed bumpPages mapKernel 3 0x1000 4
        (rangeStart 0x1ff000 0x3ff000 513 (fun _ => 0) 2) after 513 513 ∧
      walkVirtToPhys after.mem 0x1000 0x201000 = .ok 0x400000 ∧
      (walkFrom after.mem 3 0x1000 0x200000).map Leaf.level = some 1 := by
  have computed : (match mapSmallAndLarge with
      | .ok after => (match walkVirtToPhys after.mem 0x1000 0x201000 with
          | .ok pa => pa == 0x400000
          | .error _ => false) &&
          (walkFrom after.mem 3 0x1000 0x200000).map Leaf.level == some 1
      | .error _ => false) = true := by
    decide +kernel
  have outcome : Outcome (fun after => Passed bumpPages mapKernel 3 0x1000 4
      (rangeStart 0x1ff000 0x3ff000 513 (fun _ => 0) 2) after 513 513) mapSmallAndLarge :=
    mapPageRange_maps bumpAllocators_supplies (Or.inl (by decide)) (by decide) (by decide)
      (Or.inl (by decide)) (by decide) bump_sound
      fun address _ _ => emptyMemory_unmapped 0x1000 address
  cases returned : mapSmallAndLarge with
  | error stop =>
      rw [returned] at computed
      cases computed
  | ok after =>
      rw [returned] at outcome computed
      obtain ⟨first, level⟩ := Bool.and_eq_true_iff.mp computed
      refine ⟨after, rfl, outcome, ?_, by simpa using level⟩
      split at first
      · rename_i pa result
        rw [result, beq_iff_eq.mp first]
      · cases first

theorem large_page_walk_disagrees :
    ∃ after, mapSmallAndLarge = .ok after ∧ WellFormed after.mem 3 0x1000 ∧
      (∃ leaf, walk after.mem 0x1000 0x201000 = some leaf ∧ leaf.pa = 0x401000) ∧
      walkVirtToPhys after.mem 0x1000 0x201000 = .ok 0x400000 ∧
      ¬WalkAgrees after.mem 0x1000 0x201000 := by
  obtain ⟨after, returned, passed, walked, _⟩ := mapSmallAndLarge_passed
  obtain ⟨leaf, found, place, _⟩ := passed.walk_inside (by decide) (by decide) (Or.inl (by decide))
    (by decide : 0x2000 < 2 ^ 12 * 513) (by decide) (emptyMemory_unmapped _ _)
  have here : walk after.mem 0x1000 0x201000 = some leaf := found
  have pa : leaf.pa = 0x401000 := place
  refine ⟨after, returned, passed.change.wellFormed, ⟨leaf, here, pa⟩, walked, ?_⟩
  rw [WalkAgrees, here]
  change walkVirtToPhys after.mem 0x1000 0x201000 ≠ .ok (leaf.pa / 2 ^ 12 * 2 ^ 12)
  rw [walked, pa]
  intro same
  cases same

theorem first_pages_walk_agree :
    ∃ after, mapSmallAndLarge = .ok after ∧ WalkAgrees after.mem 0x1000 0x200000 ∧
      walkVirtToPhys after.mem 0x1000 0x200000 = .ok 0x400000 := by
  obtain ⟨after, returned, _, _, level⟩ := mapSmallAndLarge_passed
  have first : InFirstPage after.mem 0x1000 0x200000 := by
    intro leaf found
    rw [found, Option.map_some, Option.some.injEq] at level
    rw [level]
    exact ⟨by decide, by decide⟩
  refine ⟨after, returned, ((walkVirtToPhys_agrees_iff _ _).1 _).mpr first, ?_⟩
  exact ((walkVirtToPhys_agrees_iff _ _).2 bumpAllocators_supplies (Or.inl (by decide)) (by decide)
    (by decide) (by decide) (Or.inl (by decide)) (by decide) bump_sound
    (fun address _ _ => emptyMemory_unmapped 0x1000 address) returned 1 (by decide)).mpr first

end Zeptux.Page
