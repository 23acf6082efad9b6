import Zeptux.DirectMap

/-!
Large leaves in a table that is already in use. A chunk of 2 MiB gets one leaf if no table
stands in its place, and a range leaves alone every chunk that has no page in it.
-/

namespace Zeptux.Page

open Word X86Paging

section

variable {σ : Type} {owned : Stock σ} {flags level table count pages : Nat}
variable {before middle after : PageMapState σ}

theorem Entered.vacant {lower address : Nat}
    (entered : Entered owned (level + 1) table (indexAt (level + 2) address) before (lower, middle))
    (vacant : Vacant before.mem (level + 2) table address) :
    Vacant middle.mem (level + 1) lower address := by
  by_cases isPresent : Present (entryAt before.mem table (indexAt (level + 2) address))
  · rcases vacant with absent | ⟨old, below, deeper⟩
    · exact absurd isPresent absent
    · have same : middle.mem = before.mem := entered.kept isPresent
      have found : child middle.mem (level + 1) table _ = some lower := entered.below
      rw [same, below] at found
      cases found
      rwa [same]
  · exact vacant_empty level (entered.fresh isPresent).2 address

theorem Visited.vacant {scope address : Nat}
    (visited : Visited owned flags level table scope before after count pages)
    (together : region (level + 1) address = region (level + 1) before.va)
    (away : ∀ page, InRange before pages page → region 1 page ≠ region 1 address)
    (vacant : Vacant before.mem level table address) : Vacant after.mem level table address := by
  induction visited with
  | @leaf level table count bits before cursor small absent flagBits shape huge vaAligned paAligned
      room =>
      cases level with
      | zero => exact absurd vacant id
      | succ level =>
          have index : indexAt (level + 1) address ≠ indexAt (level + 1) before.va := by
            intro same
            have inside := (atEntry vaAligned).inRange address ((indexAt_eq_iff together).mp same)
            exact away address inside rfl
          refine vacant_other ?_ ?_ vacant
          · rw [leafWritten_mem, entryAt_setEntry_index index]
          · intro page below other inside
            have wellFormed := cursor.sound.wellFormed
            have used := mem_tables_succ.mpr (Or.inr ⟨_, indexAt_lt (level + 1) address, below⟩)
            have different : page ≠ table := by
              rintro rfl
              exact wellFormed.2.2.1 _ (indexAt_lt _ _) below
            rw [leafWritten_mem, entryAt_setEntry_table wellFormed.isTable
              (wellFormed.tables_isTable used) different (indexAt_lt _ _) inside]
  | skip => exact absurd vacant id
  | @lower level table count pages lower before middle after cursor entered unfit visited ih =>
      have passed := visited.passed
      have sound := (entered.cursor cursor).sound
      have below := entered.below
      have va : middle.va = before.va := entered.va
      have page : middle.page = before.page := congrArg pageStart va
      rw [← va] at below
      by_cases index : indexAt (level + 1) address = indexAt (level + 1) before.va
      · have here := (indexAt_eq_iff together).mp index
        have still := passed.still sound below
        rw [va, ← index] at still
        refine Or.inr ⟨lower, still, ih (by rw [va]; exact here) ?_ ?_⟩
        · intro other inside
          rw [InRange, page] at inside
          exact away other inside
        · cases level with
          | zero =>
              refine absurd ?_ (away before.page ⟨Nat.le_refl _, ?_⟩)
              · rw [region_page, here]
              · have positive := passed.positive
                omega
          | succ level =>
              rw [← index] at entered
              exact entered.vacant vacant
      · have middleVacant : Vacant middle.mem (level + 1) table address :=
          vacant_other (entered.others _ (indexAt_lt _ _) index)
            (entered.same _ (indexAt_lt _ _) index) vacant
        rw [← va] at index
        have replaces := passed.replaces sound below
        exact vacant_other (replaces.others _ (indexAt_lt _ _) index)
          (replaces.same _ (indexAt_lt _ _) index) middleVacant
  | last _ _ ih => exact ih together away vacant
  | append cursor visited more stays rest first second =>
      obtain ⟨place, _⟩ := visited.passed.place cursor more
      refine second (together.trans stays.symm) ?_ (first together ?_ vacant)
      · rintro page ⟨low, high⟩
        exact away page ⟨by omega, by omega⟩
      · rintro page ⟨low, high⟩
        exact away page ⟨low, by omega⟩

theorem Visited.large {scope : Nat}
    (visited : Visited owned flags level table scope before after count pages)
    (few : count < entryPages 2) (room : entryPages 1 ≤ count) (vaAligned : entrySize 1 ∣ before.va)
    (paAligned : entrySize 1 ∣ before.pa) (vacant : Vacant before.mem level table before.va) :
    (walkFrom after.mem level table before.va).map Leaf.level = some 1 := by
  induction visited with
  | @leaf level table count bits before cursor small absent flagBits shape huge _ _ fits =>
      have one : level = 1 := by
        have levels : level = 0 ∨ level = 1 ∨ level = 2 := by omega
        rcases levels with rfl | rfl | rfl
        · exact absurd vacant id
        · rfl
        · omega
      subst one
      rw [walkFrom_leafWritten small flagBits huge rfl]
      rfl
  | skip => exact absurd vacant id
  | @lower level table count pages lower before middle after cursor entered unfit visited ih =>
      have sound := (entered.cursor cursor).sound
      have va : middle.va = before.va := entered.va
      have pa : middle.pa = before.pa := entered.pa
      have below := entered.below
      rw [← va] at below
      have still := visited.passed.still sound below
      rw [va] at still
      rw [walkFrom_child still]
      cases level with
      | zero =>
          rcases vacant with absent | ⟨_, _, deeper⟩
          · exact absurd ⟨vaAligned, paAligned, room⟩ (unfit absent (by omega))
          · exact absurd deeper id
      | succ level =>
          rw [← va]
          refine ih few room (by rwa [va]) (by rwa [pa]) ?_
          rw [va]
          exact entered.vacant vacant
  | last _ _ ih => exact ih few room vaAligned paAligned vacant
  | @append level table count pages more before middle after cursor visited fewer stays rest first _ =>
      obtain ⟨place, _⟩ := visited.passed.place cursor fewer
      have positive := visited.passed.positive
      have small : 2 ^ 12 ∣ entrySize 1 := by decide
      have start : before.page = before.va := pageStart_of_dvd (small.trans vaAligned)
      rw [rest.passed.outside _ stays.symm]
      · exact first few room vaAligned paAligned vacant
      · rintro ⟨low, _⟩
        omega

end

/-- The address can be taken to lie in the half of the range, still away from it. -/
theorem InOneHalf.chunk_alias {startVa numPages address : Nat} (half : InOneHalf startVa numPages)
    (canonical : Canonical address)
    (away : ∀ page, startVa ≤ page → page < startVa + 2 ^ 12 * numPages →
      region 1 page ≠ region 1 address) :
    ∃ other, address % 2 ^ 48 = other % 2 ^ 48 ∧ other / 2 ^ 48 = startVa / 2 ^ 48 ∧
      ∀ page, startVa ≤ page → page < startVa + 2 ^ 12 * numPages →
        region 1 page ≠ region 1 other := by
  have size : entrySize 1 = 2 ^ 21 := rfl
  refine ⟨startVa / 2 ^ 48 * 2 ^ 48 + address % 2 ^ 48, by omega, by omega, ?_⟩
  intro page low high
  have apart := away page low high
  rw [region, region, size] at apart ⊢
  rcases half with lower | upper
  · rcases canonical with below | above
    · omega
    · omega
  · rcases canonical with below | above
    · omega
    · omega

end Zeptux.Page

namespace Zeptux.Early

open Page Word X86Paging

section

variable {σ : Type} {owned : Stock σ} {flags pgd va pa numPages : Nat} {before after : σ × Memory}

theorem RangeVisited.fewer (visited : RangeVisited owned flags pgd va pa numPages before after) :
    owned after.1 ⊆ owned before.1 := by
  rcases visited with ⟨_, rfl⟩ | ⟨mapped, rfl, visited⟩
  · exact Set.Subset.refl _
  · exact visited.passed.change.fewer

theorem RangeVisited.vacant (visited : RangeVisited owned flags pgd va pa numPages before after)
    (half : InOneHalf (pageStart va) numPages) {address : Nat} (canonical : Canonical address)
    (away : ∀ page, pageStart va ≤ page → page < pageStart va + 2 ^ 12 * numPages →
      region 1 page ≠ region 1 address) (vacant : Vacant before.2 3 pgd address) :
    Vacant after.2 3 pgd address := by
  rcases visited with ⟨_, rfl⟩ | ⟨mapped, rfl, visited⟩
  · exact vacant
  · have size : entrySize 4 = 2 ^ 48 := rfl
    have start : pageStart va / entrySize 4 = va / entrySize 4 :=
      region_page 4 (rangeStart va pa numPages before.2 before.1)
    obtain ⟨other, low, same, apart⟩ := half.chunk_alias canonical away
    rw [← size] at low same
    refine vacant_mod low.symm (visited.vacant (same.trans start) ?_ (vacant_mod low vacant))
    exact fun page inside => apart page inside.1 inside.2

theorem RangeVisited.large (visited : RangeVisited owned flags pgd va pa 512 before after)
    (half : InOneHalf va 512) (vaAligned : 2 ^ 21 ∣ va) (paAligned : 2 ^ 21 ∣ pa)
    (vacant : Vacant before.2 3 pgd va) :
    ∃ leaf, walk after.2 pgd va = some leaf ∧ leaf.level = 1 := by
  rcases visited with ⟨none, _⟩ | ⟨mapped, rfl, visited⟩
  · cases none
  · have level := visited.large (by decide) (by decide) vaAligned paAligned vacant
    rw [walk, if_pos (half.canonical (Nat.le_refl _) (by omega))]
    exact Option.map_eq_some_iff.mp level

theorem Ranged.chunk (ranged : Ranged owned flags pgd va pa numPages before after) {address : Nat}
    {leaf : Leaf} (unmapped : walk before.2 pgd address = none)
    (found : walk after.2 pgd address = some leaf) (other : Nat)
    (same : region leaf.level other = region leaf.level address) :
    pageStart va ≤ other ∧ other < pageStart va + 2 ^ 12 * numPages := by
  by_contra outside
  obtain ⟨also, there, level⟩ := (walk_leaf found).2.2 other same
  rw [ranged.outside other outside] at there
  rw [← level] at same
  obtain ⟨old, here, _⟩ := (walk_leaf there).2.2 address same.symm
  rw [unmapped] at here
  cases here

theorem Ranged.large (ranged : Ranged owned flags pgd va pa numPages before after)
    (few : numPages ≤ 512) {address : Nat} {leaf : Leaf}
    (unmapped : walk before.2 pgd address = none) (found : walk after.2 pgd address = some leaf)
    (isLarge : leaf.level ≠ 0) :
    numPages = 512 ∧ 2 ^ 21 ∣ pageStart va ∧ leaf.pa % 2 ^ 21 = address % 2 ^ 21 := by
  have aligned := (walk_leaf found).2.1
  have chunk := ranged.chunk unmapped found
  have positive := entrySize_pos leaf.level
  have size : 2 ^ 21 ≤ entrySize leaf.level := Nat.pow_le_pow_right (by decide) (by omega)
  generalize region leaf.level address = number at chunk
  have first := (chunk (number * entrySize leaf.level) (region_of_end _ _)).1
  have last := (chunk (entrySize leaf.level - 1 + number * entrySize leaf.level) (by
    rw [region, Nat.add_mul_div_right _ _ positive, Nat.div_eq_of_lt (by omega), Nat.zero_add])).2
  have twoMib : entrySize leaf.level = 2 ^ 21 := by omega
  rw [twoMib] at first last aligned
  exact ⟨by omega, by omega, aligned⟩

end

end Zeptux.Early
