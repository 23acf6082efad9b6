import Zeptux.Align
import Zeptux.PageCore

/-! What the masks and shifts of `include/page.h` make of entries and addresses. -/

namespace Zeptux.Page

open Word X86Paging

theorem isBitSet_iff (value bit : Nat) : isBitSet value bit = true ↔ value / 2 ^ bit % 2 = 1 := by
  rw [isBitSet, isMaskSet, Nat.and_two_pow, beq_iff_eq, Nat.testBit_eq_decide_div_mod_eq]
  have positive : 0 < 2 ^ bit := Nat.two_pow_pos bit
  by_cases set : value / 2 ^ bit % 2 = 1
  · simp [set]
  · simp only [set, decide_false, Bool.toNat_false, Nat.zero_mul, iff_false]
    omega

theorem entryPresent_iff (entry : Nat) : entryPresent entry = true ↔ Present entry := by
  rw [entryPresent, isBitSet_iff, pageFlagPresentBit, Nat.pow_zero, Nat.div_one]
  exact Iff.rfl

theorem entryPse_iff (entry : Nat) : entryPse entry = true ↔ PageSize entry :=
  isBitSet_iff entry pageFlagPseBit

theorem entryTable_eq (entry : Nat) : entryTable entry = tableOf entry := by
  rw [entryTable, pageTablePhysAddrMask, physAddrMask, bitMaskAbove, bitMaskBelow, bitMaskBelow,
    ← Nat.and_assoc, physAddrBits, Nat.and_two_pow_sub_one_eq_mod,
    and_not64_low (by omega) (by decide), pageShift, tableOf]
  omega

theorem virtIndex_eq (level va : Nat) : virtIndex (12 + 9 * level) va = indexAt level va := by
  rw [virtIndex, bitMaskBelow, Nat.and_two_pow_sub_one_eq_mod, Nat.shiftRight_eq_div_pow, indexAt,
    entrySize]

def pageStart (address : Nat) : Nat := address / 2 ^ 12 * 2 ^ 12

theorem dvd_pageStart (address : Nat) : 2 ^ 12 ∣ pageStart address := Nat.dvd_mul_left _ _

theorem pageStart_of_dvd {address : Nat} (aligned : 2 ^ 12 ∣ address) :
    pageStart address = address :=
  Nat.div_mul_cancel aligned

theorem offsetPages_pageStart (address pages : Nat) :
    offsetPages address pages = (pageStart address + 2 ^ 12 * pages) % 2 ^ 64 := by
  rw [offsetPages, pageShift, Nat.shiftRight_eq_div_pow, add64, Nat.shiftLeft_eq, pageStart]
  omega

theorem offsetPages_eq {address : Nat} (aligned : 2 ^ 12 ∣ address) (pages : Nat) :
    offsetPages address pages = (address + 2 ^ 12 * pages) % 2 ^ 64 := by
  rw [offsetPages_pageStart, pageStart_of_dvd aligned]

/-- The value fits in the flag bits of an entry: the low bits and the highest one. -/
def FlagBits (flags : Nat) : Prop :=
  ∃ low bit, low < 2 ^ 12 ∧ bit < 2 ∧ flags = 2 ^ 63 * bit + low ∧ low % 2 = 1

def ValidMapFlags (flags : Nat) : Prop :=
  flags &&& mapFlagModeMask = mapKernel ∨ flags &&& mapFlagModeMask = mapKernelNoglobal ∨
    flags &&& mapFlagModeMask = mapDevice

theorem ValidMapFlags.flagBits {flags : Nat} (valid : ValidMapFlags flags) :
    FlagBits (mapFlagsToPageFlags flags) ∧ mapFlagsToPageFlags flags / 2 ^ 7 % 2 = 0 := by
  have shape : ∀ value : Nat, 2 ^ 63 * (value / 2 ^ 63) + value % 2 ^ 12 = value ∧
      value / 2 ^ 63 < 2 ∧ value % 2 = 1 ∧ value / 2 ^ 7 % 2 = 0 →
      FlagBits value ∧ value / 2 ^ 7 % 2 = 0 := by
    rintro value ⟨sum, bit, isPresent, notPse⟩
    exact ⟨⟨value % 2 ^ 12, value / 2 ^ 63, Nat.mod_lt _ (by decide), bit, sum.symm, by omega⟩,
      notPse⟩
  apply shape
  unfold mapFlagsToPageFlags
  rcases valid with mode | mode | mode <;>
    cases isMaskSet flags mapCode <;> cases isMaskSet flags mapReadonly <;> rw [mode] <;> decide

theorem or_flags {address flags : Nat} (aligned : 2 ^ 12 ∣ address) (bound : address < 2 ^ 48)
    (bits : FlagBits flags) : address ||| flags = address + flags := by
  obtain ⟨low, bit, small, one, rfl, _⟩ := bits
  obtain ⟨page, rfl⟩ := aligned
  calc
    2 ^ 12 * page ||| (2 ^ 63 * bit + low)
    _ = 2 ^ 12 * page ||| (2 ^ 63 * bit ||| low) := by
      rw [Nat.two_pow_add_eq_or_of_lt (by omega)]
    _ = 2 ^ 63 * bit ||| (2 ^ 12 * page ||| low) := by
      rw [← Nat.or_assoc, Nat.or_comm (2 ^ 12 * page), Nat.or_assoc]
    _ = 2 ^ 63 * bit ||| (2 ^ 12 * page + low) := by
      rw [Nat.two_pow_add_eq_or_of_lt small]
    _ = 2 ^ 63 * bit + (2 ^ 12 * page + low) := by
      rw [← Nat.two_pow_add_eq_or_of_lt (by omega)]
    _ = 2 ^ 12 * page + (2 ^ 63 * bit + low) := by omega

theorem pse_or {flags : Nat} (clear : flags / 2 ^ 7 % 2 = 0) :
    pageFlagPse ||| flags = flags + 2 ^ 7 := by
  have split : flags = 2 ^ 8 * (flags / 2 ^ 8) + flags % 2 ^ 7 := by omega
  have low : flags % 2 ^ 7 < 2 ^ 7 := Nat.mod_lt _ (by decide)
  generalize flags / 2 ^ 8 = high at split
  generalize flags % 2 ^ 7 = rest at split low
  subst split
  calc
    2 ^ 7 * 1 ||| (2 ^ 8 * high + rest)
    _ = 2 ^ 7 * 1 ||| (2 ^ 8 * high ||| rest) := by
      rw [Nat.two_pow_add_eq_or_of_lt (by omega)]
    _ = 2 ^ 8 * high ||| (2 ^ 7 * 1 ||| rest) := by
      rw [← Nat.or_assoc, Nat.or_comm (2 ^ 7 * 1), Nat.or_assoc]
    _ = 2 ^ 8 * high ||| (2 ^ 7 * 1 + rest) := by
      rw [Nat.two_pow_add_eq_or_of_lt low]
    _ = 2 ^ 8 * high + (2 ^ 7 * 1 + rest) := by
      rw [← Nat.two_pow_add_eq_or_of_lt (by omega)]
    _ = 2 ^ 8 * high + rest + 2 ^ 7 := by omega

theorem pse_flagBits {flags : Nat} (bits : FlagBits flags) (clear : flags / 2 ^ 7 % 2 = 0) :
    FlagBits (flags + 2 ^ 7) := by
  obtain ⟨low, bit, small, one, rfl, isPresent⟩ := bits
  exact ⟨low + 2 ^ 7, bit, by omega, one, by omega, by omega⟩

/-! ## The entries that the assignments write -/

theorem tableEntry_eq {lower : Nat} (isTable : IsTable lower) :
    (lower &&& not64 pageMask) ||| pageFlagDefault = lower + 3 := by
  obtain ⟨⟨page, rfl⟩, bound⟩ := isTable
  have masked : 2 ^ 12 * page &&& not64 pageMask = 2 ^ 12 * page := by
    have low := and_not64_low (by omega : 2 ^ 12 * page < 2 ^ 64) (by decide : 12 ≤ 64)
    rw [pageMask, bitMaskBelow, pageShift, low]
    omega
  rw [masked]
  exact (Nat.two_pow_add_eq_or_of_lt (by decide : 3 < 2 ^ 12) page).symm

theorem tableEntry_facts {lower : Nat} (isTable : IsTable lower) :
    Present (lower + 3) ∧ ¬PageSize (lower + 3) ∧ tableOf (lower + 3) = lower := by
  obtain ⟨⟨page, rfl⟩, bound⟩ := isTable
  simp only [Present, PageSize, tableOf]
  omega

theorem tableEntry_open {lower : Nat} (isTable : IsTable lower) : Open (lower + 3) := by
  obtain ⟨⟨page, rfl⟩, bound⟩ := isTable
  simp only [Open]
  omega

theorem dataEntry_eq {pa : Nat} (word : pa < 2 ^ 64) (flags : Nat) :
    (pa &&& not64 pageMask) ||| flags = pageStart pa ||| flags := by
  rw [pageMask, bitMaskBelow, pageShift, and_not64_low word (by decide : 12 ≤ 64)]
  rfl

theorem hugeEntry_eq {level pa flags : Nat} (aligned : entrySize level ∣ pa)
    (small : level ≤ 2) (word : pa < 2 ^ 64) (clear : flags / 2 ^ 7 % 2 = 0) :
    (pa &&& not64 (bitMaskBelow (12 + 9 * level))) ||| pageFlagPse ||| flags =
      pa ||| (flags + 2 ^ 7) := by
  have masked : pa &&& not64 (bitMaskBelow (12 + 9 * level)) = pa := by
    rw [bitMaskBelow, and_not64_low word (by omega : 12 + 9 * level ≤ 64)]
    exact Nat.div_mul_cancel aligned
  rw [masked, Nat.or_assoc, pse_or clear]

theorem leafEntry_low {pa flags : Nat} (aligned : 2 ^ 12 ∣ pa) (bits : FlagBits flags) :
    Present (pa ||| flags) ∧ (pa ||| flags) / 2 ^ 7 % 2 = flags / 2 ^ 7 % 2 := by
  have low : (pa ||| flags) % 2 ^ 12 = flags % 2 ^ 12 := by
    rw [Nat.or_mod_two_pow, Nat.mod_eq_zero_of_dvd aligned, Nat.zero_or]
  obtain ⟨rest, bit, _, _, shape, isPresent⟩ := bits
  unfold Present
  omega

theorem leafEntry_facts {level pa flags : Nat} (aligned : entrySize level ∣ pa)
    (small : level ≤ 2) (bound : pa < 2 ^ 48) (bits : FlagBits flags) :
    frameOf level (pa ||| flags) = pa ∧ flagsOf (pa ||| flags) = flags := by
  have pageAligned : 2 ^ 12 ∣ pa := Nat.dvd_trans (Nat.pow_dvd_pow 2 (by omega)) aligned
  rw [or_flags pageAligned bound bits]
  obtain ⟨low, bit, lowSmall, one, rfl, isPresent⟩ := bits
  obtain ⟨page, rfl⟩ := aligned
  simp only [frameOf, flagsOf]
  have levels : level = 0 ∨ level = 1 ∨ level = 2 := by omega
  rcases levels with rfl | rfl | rfl
  · have size : entrySize 0 = 2 ^ 12 := rfl
    have width : 2 ^ (36 - 9 * 0) = 2 ^ 36 := rfl
    rw [size] at bound ⊢
    rw [width]
    omega
  · have size : entrySize 1 = 2 ^ 21 := rfl
    have width : 2 ^ (36 - 9 * 1) = 2 ^ 27 := rfl
    rw [size] at bound ⊢
    rw [width]
    omega
  · have size : entrySize 2 = 2 ^ 30 := rfl
    have width : 2 ^ (36 - 9 * 2) = 2 ^ 18 := rfl
    rw [size] at bound ⊢
    rw [width]
    omega

end Zeptux.Page
