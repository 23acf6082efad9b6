import Mathlib.Algebra.Group.Nat.Defs
import Mathlib.Data.Set.Lattice
import Mathlib.Order.CompletePartialOrder

/-!
Four-level page tables as the processor reads them. Memory is a function from the
physical byte address of a word to the word; a table of level 0 holds 4 KiB leaves, and
an entry of level 1 or 2 is a leaf when its page-size bit is set.
-/

namespace X86Paging

abbrev Memory := Nat → Nat

def entryAt (mem : Memory) (table index : Nat) : Nat := mem (table + 8 * index)

def setEntry (mem : Memory) (table index entry : Nat) : Memory :=
  Function.update mem (table + 8 * index) entry

def entrySize (level : Nat) : Nat := 2 ^ (12 + 9 * level)

def indexAt (level address : Nat) : Nat := address / entrySize level % 512

def Present (entry : Nat) : Prop := entry % 2 = 1

def PageSize (entry : Nat) : Prop := entry / 2 ^ 7 % 2 = 1

def tableOf (entry : Nat) : Nat := entry / 2 ^ 12 % 2 ^ 36 * 2 ^ 12

def frameOf (level entry : Nat) : Nat :=
  entry / entrySize level % 2 ^ (36 - 9 * level) * entrySize level

def flagsOf (entry : Nat) : Nat := entry % 2 ^ 12 + entry / 2 ^ 63 % 2 * 2 ^ 63

instance (entry : Nat) : Decidable (Present entry) := inferInstanceAs (Decidable (_ = _))

instance (entry : Nat) : Decidable (PageSize entry) := inferInstanceAs (Decidable (_ = _))

structure Leaf where
  pa : Nat
  flags : Nat
  level : Nat
deriving DecidableEq, Repr

def leafOf (level entry address : Nat) : Leaf :=
  ⟨frameOf level entry + address % entrySize level, flagsOf entry, level⟩

def Huge (level entry : Nat) : Prop := level < 3 ∧ PageSize entry

instance (level entry : Nat) : Decidable (Huge level entry) := inferInstanceAs (Decidable (_ ∧ _))

def walkFrom (mem : Memory) : Nat → Nat → Nat → Option Leaf
  | 0, table, address =>
      let entry := entryAt mem table (indexAt 0 address)
      if Present entry then some (leafOf 0 entry address) else none
  | level + 1, table, address =>
      let entry := entryAt mem table (indexAt (level + 1) address)
      if ¬Present entry then none
      else if Huge (level + 1) entry then some (leafOf (level + 1) entry address)
      else walkFrom mem level (tableOf entry) address

def Canonical (address : Nat) : Prop :=
  address < 2 ^ 47 ∨ 2 ^ 64 - 2 ^ 47 ≤ address ∧ address < 2 ^ 64

instance (address : Nat) : Decidable (Canonical address) := inferInstanceAs (Decidable (_ ∨ _))

def walk (mem : Memory) (pgd address : Nat) : Option Leaf :=
  if Canonical address then walkFrom mem 3 pgd address else none

/-! ## Trees of tables -/

/-- The table of the given level that an entry of the next level refers to. -/
def child (mem : Memory) (level table index : Nat) : Option Nat :=
  let entry := entryAt mem table index
  if Present entry ∧ ¬Huge (level + 1) entry then some (tableOf entry) else none

def tables (mem : Memory) : Nat → Nat → Set Nat
  | 0, table => {table}
  | level + 1, table =>
      insert table {page | ∃ index < 512, ∃ lower, child mem level table index = some lower ∧
        page ∈ tables mem level lower}

def tablesBelow (mem : Memory) (level table index : Nat) : Set Nat :=
  {page | ∃ lower, child mem level table index = some lower ∧ page ∈ tables mem level lower}

def IsTable (page : Nat) : Prop := 2 ^ 12 ∣ page ∧ page < 2 ^ 48

/-- The tables form a tree of distinct pages. -/
def WellFormed (mem : Memory) : Nat → Nat → Prop
  | 0, table => IsTable table
  | level + 1, table =>
      IsTable table ∧
      (∀ index < 512, ∀ lower, child mem level table index = some lower →
        WellFormed mem level lower) ∧
      (∀ index < 512, table ∉ tablesBelow mem level table index) ∧
      ∀ first < 512, ∀ second < 512, first ≠ second →
        Disjoint (tablesBelow mem level table first) (tablesBelow mem level table second)

/-- An entry that leaves the permissions to the lower levels: writable and executable. -/
def Open (entry : Nat) : Prop := entry / 2 % 2 = 1 ∧ entry / 2 ^ 63 % 2 = 0

/-- The entries that refer to tables take no permission away, so that those of an address
are the ones of its leaf. -/
def Permissive (mem : Memory) : Nat → Nat → Prop
  | 0, _ => True
  | level + 1, table => ∀ index < 512, ∀ lower, child mem level table index = some lower →
      Open (entryAt mem table index) ∧ Permissive mem level lower

theorem mem_tables_succ {mem : Memory} {level table page : Nat} :
    page ∈ tables mem (level + 1) table ↔
      page = table ∨ ∃ index < 512, page ∈ tablesBelow mem level table index := by
  simp only [tables, tablesBelow, Set.mem_insert_iff, Set.mem_ofPred_eq]

theorem table_mem_tables (mem : Memory) (level table : Nat) : table ∈ tables mem level table := by
  cases level with
  | zero => exact Set.mem_singleton table
  | succ level => exact Set.mem_insert table _

theorem WellFormed.isTable {mem : Memory} {level table : Nat}
    (wellFormed : WellFormed mem level table) : IsTable table := by
  cases level with
  | zero => exact wellFormed
  | succ level => exact wellFormed.1

theorem WellFormed.tables_isTable {mem : Memory} {level table page : Nat}
    (wellFormed : WellFormed mem level table) (member : page ∈ tables mem level table) :
    IsTable page := by
  induction level generalizing table with
  | zero =>
      rw [Set.mem_singleton_iff.mp member]
      exact wellFormed
  | succ level ih =>
      rcases mem_tables_succ.mp member with rfl | ⟨index, inside, lower, below, deeper⟩
      · exact wellFormed.1
      · exact ih (wellFormed.2.1 index inside lower below) deeper

theorem indexAt_lt (level address : Nat) : indexAt level address < 512 :=
  Nat.mod_lt _ (by omega)

/-! ## Memories that agree on the tables -/

def SameOn (mem mem' : Memory) (pages : Set Nat) : Prop :=
  ∀ page ∈ pages, ∀ index < 512, entryAt mem' page index = entryAt mem page index

theorem SameOn.mono {mem mem' : Memory} {pages fewer : Set Nat} (same : SameOn mem mem' pages)
    (subset : fewer ⊆ pages) : SameOn mem mem' fewer :=
  fun page member => same page (subset member)

theorem SameOn.trans {first second third : Memory} {pages : Set Nat}
    (before : SameOn first second pages) (after : SameOn second third pages) :
    SameOn first third pages := fun page used index inside =>
  (after page used index inside).trans (before page used index inside)

section SameOn

variable {mem mem' : Memory} {level table : Nat}

theorem child_congr {index : Nat}
    (same : entryAt mem' table index = entryAt mem table index) :
    child mem' level table index = child mem level table index := by
  simp only [child, same]

theorem tables_below_subset {index lower : Nat} (inside : index < 512)
    (below : child mem level table index = some lower) :
    tables mem level lower ⊆ tables mem (level + 1) table := by
  intro page member
  exact mem_tables_succ.mpr (Or.inr ⟨index, inside, lower, below, member⟩)

theorem tables_congr (same : SameOn mem mem' (tables mem level table)) :
    tables mem' level table = tables mem level table := by
  induction level generalizing table with
  | zero => rfl
  | succ level ih =>
      ext page
      simp only [mem_tables_succ, tablesBelow, Set.mem_ofPred_eq]
      have children : ∀ index < 512,
          child mem' level table index = child mem level table index := fun index inside =>
        child_congr (same table (table_mem_tables _ _ _) index inside)
      have deeper : ∀ index < 512, ∀ lower, child mem level table index = some lower →
          tables mem' level lower = tables mem level lower := fun index inside lower below =>
        ih (same.mono (tables_below_subset inside below))
      constructor
      · rintro (same | ⟨index, inside, lower, below, member⟩)
        · exact Or.inl same
        · rw [children index inside] at below
          rw [deeper index inside lower below] at member
          exact Or.inr ⟨index, inside, lower, below, member⟩
      · rintro (same | ⟨index, inside, lower, below, member⟩)
        · exact Or.inl same
        · rw [← deeper index inside lower below] at member
          rw [← children index inside] at below
          exact Or.inr ⟨index, inside, lower, below, member⟩

theorem tablesBelow_congr {index : Nat}
    (entry : entryAt mem' table index = entryAt mem table index)
    (same : SameOn mem mem' (tablesBelow mem level table index)) :
    tablesBelow mem' level table index = tablesBelow mem level table index := by
  ext page
  simp only [tablesBelow, Set.mem_ofPred_eq, child_congr entry]
  constructor
  · rintro ⟨lower, below, member⟩
    rw [tables_congr fun other deeper => same other ⟨lower, below, deeper⟩] at member
    exact ⟨lower, below, member⟩
  · rintro ⟨lower, below, member⟩
    rw [← tables_congr fun other deeper => same other ⟨lower, below, deeper⟩] at member
    exact ⟨lower, below, member⟩

theorem wellFormed_congr (same : SameOn mem mem' (tables mem level table))
    (wellFormed : WellFormed mem level table) : WellFormed mem' level table := by
  induction level generalizing table with
  | zero => exact wellFormed
  | succ level ih =>
      obtain ⟨isTable, lowers, notBelow, apart⟩ := wellFormed
      have entries : ∀ index < 512, entryAt mem' table index = entryAt mem table index :=
        same table (table_mem_tables _ _ _)
      have below : ∀ index < 512,
          tablesBelow mem' level table index = tablesBelow mem level table index := by
        intro index inside
        apply tablesBelow_congr (entries index inside)
        exact same.mono fun page member => mem_tables_succ.mpr (Or.inr ⟨index, inside, member⟩)
      refine ⟨isTable, ?_, ?_, ?_⟩
      · intro index inside lower found
        rw [child_congr (entries index inside)] at found
        exact ih (same.mono (tables_below_subset inside found)) (lowers index inside lower found)
      · intro index inside
        rw [below index inside]
        exact notBelow index inside
      · intro first firstInside second secondInside different
        rw [below first firstInside, below second secondInside]
        exact apart first firstInside second secondInside different

theorem permissive_congr (same : SameOn mem mem' (tables mem level table))
    (permissive : Permissive mem level table) : Permissive mem' level table := by
  induction level generalizing table with
  | zero => trivial
  | succ level ih =>
      intro index inside lower found
      have entry := same table (table_mem_tables _ _ _) index inside
      rw [child_congr entry] at found
      rw [entry]
      obtain ⟨isOpen, below⟩ := permissive index inside lower found
      exact ⟨isOpen, ih (same.mono (tables_below_subset inside found)) below⟩

theorem walkFrom_entry_congr {address : Nat}
    (entry : entryAt mem' table (indexAt (level + 1) address) =
      entryAt mem table (indexAt (level + 1) address))
    (lowerWalk : ∀ lower, child mem level table (indexAt (level + 1) address) = some lower →
      walkFrom mem' level lower address = walkFrom mem level lower address) :
    walkFrom mem' (level + 1) table address = walkFrom mem (level + 1) table address := by
  simp only [walkFrom, entry]
  split
  · rfl
  · rename_i isPresent
    split
    · rfl
    · rename_i notHuge
      apply lowerWalk
      simp only [child]
      exact if_pos ⟨not_not.mp isPresent, notHuge⟩

theorem walkFrom_congr (same : SameOn mem mem' (tables mem level table)) (address : Nat) :
    walkFrom mem' level table address = walkFrom mem level table address := by
  induction level generalizing table with
  | zero =>
      have entry := same table (table_mem_tables _ _ _) _ (indexAt_lt 0 address)
      simp only [walkFrom, entry]
  | succ level ih =>
      refine walkFrom_entry_congr
        (same table (table_mem_tables _ _ _) _ (indexAt_lt (level + 1) address)) ?_
      intro lower below
      exact ih (same.mono (tables_below_subset (indexAt_lt _ _) below))

end SameOn

/-! ## Changing one entry -/

/-- What stands under one entry of a table is replaced, with pages that were not used. -/
structure Replaces (mem mem' : Memory) (level table index : Nat) (fresh : Set Nat) : Prop where
  inside : index < 512
  others : ∀ other < 512, other ≠ index → entryAt mem' table other = entryAt mem table other
  same : ∀ other < 512, other ≠ index → SameOn mem mem' (tablesBelow mem level table other)
  lowers : ∀ lower, child mem' level table index = some lower → WellFormed mem' level lower
  below : tablesBelow mem' level table index ⊆ tablesBelow mem level table index ∪ fresh
  unused : Disjoint (tables mem (level + 1) table) fresh

section Replaces

variable {mem mem' : Memory} {level table index : Nat} {fresh : Set Nat}

theorem Replaces.other (replaces : Replaces mem mem' level table index fresh) {other : Nat}
    (inside : other < 512) (different : other ≠ index) :
    tablesBelow mem' level table other = tablesBelow mem level table other :=
  tablesBelow_congr (replaces.others other inside different) (replaces.same other inside different)

theorem Replaces.tables_subset (replaces : Replaces mem mem' level table index fresh) :
    tables mem' (level + 1) table ⊆ tables mem (level + 1) table ∪ fresh := by
  intro page member
  rcases mem_tables_succ.mp member with same | ⟨other, inside, deeper⟩
  · exact Or.inl (mem_tables_succ.mpr (Or.inl same))
  · by_cases here : other = index
    · rw [here] at deeper inside
      rcases replaces.below deeper with old | new
      · exact Or.inl (mem_tables_succ.mpr (Or.inr ⟨index, inside, old⟩))
      · exact Or.inr new
    · rw [replaces.other inside here] at deeper
      exact Or.inl (mem_tables_succ.mpr (Or.inr ⟨other, inside, deeper⟩))

theorem Replaces.wellFormed (replaces : Replaces mem mem' level table index fresh)
    (wellFormed : WellFormed mem (level + 1) table) : WellFormed mem' (level + 1) table := by
  obtain ⟨isTable, lowers, notBelow, apart⟩ := wellFormed
  have notFresh : ∀ page, page ∈ tables mem (level + 1) table → page ∉ fresh := fun page used =>
    Set.disjoint_left.mp replaces.unused used
  -- Nothing below another entry is below the changed one.
  have separate : ∀ other < 512, other ≠ index →
      Disjoint (tablesBelow mem level table other) (tablesBelow mem' level table index) := by
    intro other inside different
    rw [Set.disjoint_left]
    intro page member changed
    rcases replaces.below changed with old | new
    · exact Set.disjoint_left.mp (apart other inside index replaces.inside different) member old
    · exact notFresh page (mem_tables_succ.mpr (Or.inr ⟨other, inside, member⟩)) new
  refine ⟨isTable, ?_, ?_, ?_⟩
  · intro other inside lower found
    by_cases here : other = index
    · rw [here] at found
      exact replaces.lowers lower found
    · rw [child_congr (replaces.others other inside here)] at found
      apply wellFormed_congr _ (lowers other inside lower found)
      exact (replaces.same other inside here).mono fun page member => ⟨lower, found, member⟩
  · intro other inside
    by_cases here : other = index
    · rw [here]
      intro changed
      rcases replaces.below changed with old | new
      · exact notBelow index replaces.inside old
      · exact notFresh table (table_mem_tables _ _ _) new
    · rw [replaces.other inside here]
      exact notBelow other inside
  · intro first firstInside second secondInside different
    by_cases firstHere : first = index
    · subst first
      rw [replaces.other secondInside (Ne.symm different)]
      exact (separate second secondInside (Ne.symm different)).symm
    · rw [replaces.other firstInside firstHere]
      by_cases secondHere : second = index
      · subst second
        exact separate first firstInside different
      · rw [replaces.other secondInside secondHere]
        exact apart first firstInside second secondInside different

theorem Replaces.permissive (replaces : Replaces mem mem' level table index fresh)
    (here : ∀ lower, child mem' level table index = some lower →
      Open (entryAt mem' table index) ∧ Permissive mem' level lower)
    (permissive : Permissive mem (level + 1) table) : Permissive mem' (level + 1) table := by
  intro other inside lower found
  by_cases same : other = index
  · subst same
    exact here lower found
  · have entry := replaces.others other inside same
    rw [child_congr entry] at found
    rw [entry]
    obtain ⟨isOpen, below⟩ := permissive other inside lower found
    refine ⟨isOpen, permissive_congr ?_ below⟩
    exact (replaces.same other inside same).mono fun page member => ⟨lower, found, member⟩

theorem Replaces.walkFrom_other (replaces : Replaces mem mem' level table index fresh)
    {address : Nat} (different : indexAt (level + 1) address ≠ index) :
    walkFrom mem' (level + 1) table address = walkFrom mem (level + 1) table address := by
  have inside := indexAt_lt (level + 1) address
  refine walkFrom_entry_congr (replaces.others _ inside different) fun lower below => ?_
  apply walkFrom_congr
  exact (replaces.same _ inside different).mono fun page member => ⟨_, below, member⟩

end Replaces

theorem walkFrom_child {mem : Memory} {level table lower address : Nat}
    (below : child mem level table (indexAt (level + 1) address) = some lower) :
    walkFrom mem (level + 1) table address = walkFrom mem level lower address := by
  simp only [child] at below
  split at below
  · rename_i descends
    cases below
    simp only [walkFrom, descends.1, descends.2, not_true_eq_false, ↓reduceIte]
  · cases below

theorem entryAt_setEntry_self (mem : Memory) (table index entry : Nat) :
    entryAt (setEntry mem table index entry) table index = entry :=
  Function.update_self _ _ _

theorem entryAt_setEntry_index {index other : Nat} (different : other ≠ index) (mem : Memory)
    (table entry : Nat) :
    entryAt (setEntry mem table index entry) table other = entryAt mem table other :=
  Function.update_of_ne (by omega) _ _

theorem entryAt_setEntry_table {table page index other : Nat} (isTable : IsTable table)
    (isPage : IsTable page) (different : page ≠ table) (inside : index < 512)
    (otherInside : other < 512) (mem : Memory) (entry : Nat) :
    entryAt (setEntry mem table index entry) page other = entryAt mem page other := by
  apply Function.update_of_ne
  have tableAligned := isTable.1
  have pageAligned := isPage.1
  omega

/-! ## Empty tables -/

section Empty

variable {mem : Memory} {page : Nat}

theorem absent_of_zero {index : Nat} (zero : entryAt mem page index = 0) :
    ¬Present (entryAt mem page index) := by
  simp [zero, Present]

theorem child_absent (level : Nat) {index : Nat} (absent : ¬Present (entryAt mem page index)) :
    child mem level page index = none := by
  simp [child, absent]

theorem tables_absent (level : Nat)
    (absent : ∀ index < 512, ¬Present (entryAt mem page index)) :
    tables mem level page = {page} := by
  cases level with
  | zero => rfl
  | succ level =>
      ext other
      rw [mem_tables_succ, Set.mem_singleton_iff]
      constructor
      · rintro (same | ⟨index, inside, lower, below, _⟩)
        · exact same
        · rw [child_absent level (absent index inside)] at below
          cases below
      · exact Or.inl

theorem tables_empty (level : Nat) (zeros : ∀ index < 512, entryAt mem page index = 0) :
    tables mem level page = {page} :=
  tables_absent level fun index inside => absent_of_zero (zeros index inside)

theorem wellFormed_absent (level : Nat) (isTable : IsTable page)
    (absent : ∀ index < 512, ¬Present (entryAt mem page index)) : WellFormed mem level page := by
  cases level with
  | zero => exact isTable
  | succ level =>
      have none : ∀ index < 512, tablesBelow mem level page index = ∅ := by
        intro index inside
        ext other
        simp [tablesBelow, child_absent level (absent index inside)]
      refine ⟨isTable, ?_, ?_, ?_⟩
      · intro index inside lower below
        rw [child_absent level (absent index inside)] at below
        cases below
      · intro index inside
        rw [none index inside]
        exact Set.notMem_empty page
      · intro first firstInside second secondInside _
        rw [none first firstInside]
        exact Set.empty_disjoint _

theorem wellFormed_empty (level : Nat) (isTable : IsTable page)
    (zeros : ∀ index < 512, entryAt mem page index = 0) : WellFormed mem level page :=
  wellFormed_absent level isTable fun index inside => absent_of_zero (zeros index inside)

theorem permissive_empty (level : Nat) (zeros : ∀ index < 512, entryAt mem page index = 0) :
    Permissive mem level page := by
  cases level with
  | zero => trivial
  | succ level =>
      intro index inside lower below
      rw [child_absent level (absent_of_zero (zeros index inside))] at below
      cases below

theorem walkFrom_empty (level : Nat) (zeros : ∀ index < 512, entryAt mem page index = 0)
    (address : Nat) : walkFrom mem level page address = none := by
  cases level with
  | zero => simp [walkFrom, zeros _ (indexAt_lt 0 address), Present]
  | succ level => simp [walkFrom, zeros _ (indexAt_lt (level + 1) address), Present]

end Empty

/-! ## Regions -/

/-- The number of the region that the address has among those of the entries of a level. -/
def region (level address : Nat) : Nat := address / entrySize level

theorem entrySize_succ (level : Nat) : entrySize (level + 1) = entrySize level * 512 := by
  rw [entrySize, entrySize, Nat.mul_add, Nat.mul_one, ← Nat.add_assoc, Nat.pow_add]

theorem entrySize_pos (level : Nat) : 0 < entrySize level := Nat.two_pow_pos _

theorem region_succ (level address : Nat) : region (level + 1) address = region level address / 512 := by
  rw [region, region, entrySize_succ, Nat.div_div_eq_div_mul]

theorem indexAt_eq (level address : Nat) : indexAt level address = region level address % 512 := rfl

theorem region_of_page {address other : Nat} (same : region 0 address = region 0 other)
    (level : Nat) : region level address = region level other := by
  induction level with
  | zero => exact same
  | succ level ih => rw [region_succ, region_succ, ih]

theorem indexAt_eq_iff {level address other : Nat}
    (together : region (level + 1) address = region (level + 1) other) :
    indexAt level address = indexAt level other ↔ region level address = region level other := by
  rw [region_succ, region_succ] at together
  rw [indexAt_eq, indexAt_eq]
  omega

theorem mod_entrySize_congr {level lower address other : Nat} (le : lower ≤ level)
    (same : address % entrySize level = other % entrySize level) :
    address % entrySize lower = other % entrySize lower := by
  have divides : entrySize lower ∣ entrySize level := Nat.pow_dvd_pow 2 (by omega)
  rw [← Nat.mod_mod_of_dvd address divides, same, Nat.mod_mod_of_dvd other divides]

theorem indexAt_congr {level address other : Nat}
    (same : address % entrySize (level + 1) = other % entrySize (level + 1)) :
    indexAt level address = indexAt level other := by
  rw [entrySize_succ] at same
  have left := Nat.mod_mul_right_div_self address (entrySize level) 512
  have right := Nat.mod_mul_right_div_self other (entrySize level) 512
  rw [indexAt, indexAt, ← left, ← right, same]

theorem walkFrom_mod (mem : Memory) {level address other : Nat} (table : Nat)
    (same : address % entrySize (level + 1) = other % entrySize (level + 1)) :
    walkFrom mem level table address = walkFrom mem level table other := by
  induction level generalizing table with
  | zero =>
      have offset := mod_entrySize_congr (Nat.zero_le 1) same
      simp only [walkFrom, indexAt_congr same, leafOf, offset]
  | succ level ih =>
      have offset := mod_entrySize_congr (Nat.le_succ (level + 1)) same
      simp only [walkFrom, indexAt_congr same, leafOf, offset, ih _ offset]

theorem walkFrom_level_congr (mem : Memory) {level address other : Nat} (table : Nat)
    (same : region 0 address = region 0 other) :
    (walkFrom mem level table address).map Leaf.level =
      (walkFrom mem level table other).map Leaf.level := by
  induction level generalizing table with
  | zero =>
      have index : indexAt 0 address = indexAt 0 other := by
        rw [indexAt_eq, indexAt_eq, same]
      simp only [walkFrom, index]
      split
      · rfl
      · rfl
  | succ level ih =>
      have index : indexAt (level + 1) address = indexAt (level + 1) other := by
        rw [indexAt_eq, indexAt_eq, region_of_page same]
      simp only [walkFrom, index]
      split
      · rfl
      · split
        · rfl
        · exact ih _

theorem walk_level_congr (mem : Memory) {address other : Nat} (pgd : Nat)
    (same : region 0 address = region 0 other) :
    (walk mem pgd address).map Leaf.level = (walk mem pgd other).map Leaf.level := by
  have pages : address / 2 ^ 12 = other / 2 ^ 12 := same
  have canonical : Canonical address ↔ Canonical other := by
    unfold Canonical
    omega
  simp only [walk, canonical]
  split
  · exact walkFrom_level_congr mem pgd same
  · rfl

theorem region_of_le {level lower address other : Nat} (le : lower ≤ level)
    (same : region lower address = region lower other) :
    region level address = region level other := by
  induction level with
  | zero =>
      rw [Nat.le_zero.mp le] at same
      exact same
  | succ level ih =>
      rcases Nat.le_succ_iff.mp le with deeper | here
      · rw [region_succ, region_succ, ih deeper]
      · rw [here] at same
        exact same

theorem walkFrom_leaf (mem : Memory) {level table address : Nat} {leaf : Leaf}
    (found : walkFrom mem level table address = some leaf) :
    leaf.level ≤ level ∧
      leaf.pa % entrySize leaf.level = address % entrySize leaf.level ∧
      ∀ other, region leaf.level other = region leaf.level address → ∃ also,
        walkFrom mem level table other = some also ∧ also.level = leaf.level := by
  have offset : ∀ level entry, (leafOf level entry address).pa % entrySize level =
      address % entrySize level := by
    intro level entry
    rw [leafOf, frameOf, Nat.mul_add_mod_self_right, Nat.mod_mod]
  induction level generalizing table with
  | zero =>
      simp only [walkFrom] at found
      split at found
      · rename_i isPresent
        cases found
        refine ⟨Nat.le_refl 0, offset 0 _, ?_⟩
        intro other same
        have index : indexAt 0 other = indexAt 0 address := congrArg (· % 512) same
        simp only [walkFrom, index, if_pos isPresent]
        exact ⟨_, rfl, rfl⟩
      · cases found
  | succ level ih =>
      simp only [walkFrom] at found
      split at found
      · cases found
      · rename_i isPresent
        split at found
        · rename_i huge
          cases found
          refine ⟨Nat.le_refl (level + 1), offset (level + 1) _, ?_⟩
          intro other same
          have index : indexAt (level + 1) other = indexAt (level + 1) address :=
            congrArg (· % 512) same
          simp only [walkFrom, index, if_neg isPresent, if_pos huge]
          exact ⟨_, rfl, rfl⟩
        · rename_i notHuge
          obtain ⟨deeper, place, others⟩ := ih found
          refine ⟨Nat.le_succ_of_le deeper, place, ?_⟩
          intro other same
          have index : indexAt (level + 1) other = indexAt (level + 1) address :=
            congrArg (· % 512) (region_of_le (Nat.le_succ_of_le deeper) same)
          simp only [walkFrom, index, if_neg isPresent, if_neg notHuge]
          exact others other same

theorem walk_leaf {mem : Memory} {pgd address : Nat} {leaf : Leaf}
    (found : walk mem pgd address = some leaf) :
    leaf.level ≤ 3 ∧ leaf.pa % entrySize leaf.level = address % entrySize leaf.level ∧
      ∀ other, region leaf.level other = region leaf.level address → ∃ also,
        walk mem pgd other = some also ∧ also.level = leaf.level := by
  rw [walk] at found
  split at found
  · rename_i canonical
    obtain ⟨bound, offset, others⟩ := walkFrom_leaf mem found
    refine ⟨bound, offset, ?_⟩
    intro other same
    have half : other / 2 ^ 39 = address / 2 ^ 39 := region_of_le bound same
    have also : Canonical other := by
      unfold Canonical at canonical ⊢
      omega
    rw [walk, if_pos also]
    exact others other same
  · cases found

/-! ## Addresses without a table -/

/-- The walk ends at an absent entry before it reaches a table of level 0. -/
def Vacant (mem : Memory) : Nat → Nat → Nat → Prop
  | 0, _, _ => False
  | level + 1, table, address =>
      ¬Present (entryAt mem table (indexAt (level + 1) address)) ∨
        ∃ lower, child mem level table (indexAt (level + 1) address) = some lower ∧
          Vacant mem level lower address

theorem vacant_congr {mem mem' : Memory} {level table address : Nat}
    (same : SameOn mem mem' (tables mem level table)) (vacant : Vacant mem level table address) :
    Vacant mem' level table address := by
  induction level generalizing table with
  | zero => exact vacant
  | succ level ih =>
      have entry := same table (table_mem_tables _ _ _) _ (indexAt_lt (level + 1) address)
      rcases vacant with absent | ⟨lower, below, deeper⟩
      · left
        rwa [entry]
      · right
        refine ⟨lower, ?_, ih (same.mono (tables_below_subset (indexAt_lt _ _) below)) deeper⟩
        rwa [child_congr entry]

theorem vacant_other {mem mem' : Memory} {level table address : Nat}
    (entry : entryAt mem' table (indexAt (level + 1) address) =
      entryAt mem table (indexAt (level + 1) address))
    (same : SameOn mem mem' (tablesBelow mem level table (indexAt (level + 1) address)))
    (vacant : Vacant mem (level + 1) table address) : Vacant mem' (level + 1) table address := by
  rcases vacant with absent | ⟨lower, below, deeper⟩
  · left
    rwa [entry]
  · right
    refine ⟨lower, ?_, vacant_congr (same.mono fun page member => ⟨lower, below, member⟩) deeper⟩
    rwa [child_congr entry]

theorem vacant_mod {mem : Memory} {level table address other : Nat}
    (same : address % entrySize (level + 1) = other % entrySize (level + 1))
    (vacant : Vacant mem level table address) : Vacant mem level table other := by
  induction level generalizing table with
  | zero => exact vacant
  | succ level ih =>
      have index := indexAt_congr same
      rw [Vacant, index] at vacant
      rcases vacant with absent | ⟨lower, below, deeper⟩
      · exact Or.inl absent
      · exact Or.inr ⟨lower, below, ih (mod_entrySize_congr (Nat.le_succ (level + 1)) same) deeper⟩

theorem vacant_empty {mem : Memory} {page : Nat} (level : Nat)
    (zeros : ∀ index < 512, entryAt mem page index = 0) (address : Nat) :
    Vacant mem (level + 1) page address :=
  Or.inl (absent_of_zero (zeros _ (indexAt_lt _ _)))

end X86Paging
