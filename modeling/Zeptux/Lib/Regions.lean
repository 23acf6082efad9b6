import Mathlib.Data.List.Pairwise
import Mathlib.Logic.Function.Basic

/-!
Regions of an address space that lie one after the other, and changes of a memory that are
confined to a set of addresses.
-/

namespace Regions

structure Region where
  start : Nat
  size : Nat
deriving DecidableEq, Repr

def Region.stop (region : Region) : Nat := region.start + region.size

def Region.Holds (region : Region) (address : Nat) : Prop :=
  region.start ≤ address ∧ address < region.stop

def Region.Apart (first second : Region) : Prop :=
  ∀ address, ¬(first.Holds address ∧ second.Holds address)

/-- Each region starts where the one before ends. -/
def Consecutive : Nat → List Region → Nat → Prop
  | start, [], stop => start = stop
  | start, region :: rest, stop => region.start = start ∧ Consecutive region.stop rest stop

namespace Consecutive

variable {start stop : Nat} {regions : List Region}

theorem append {middle : Nat} {first second : List Region}
    (before : Consecutive start first middle) (after : Consecutive middle second stop) :
    Consecutive start (first ++ second) stop := by
  induction first generalizing start with
  | nil =>
      obtain rfl := before
      exact after
  | cons region rest ih => exact ⟨before.1, ih before.2⟩

theorem le (consecutive : Consecutive start regions stop) : start ≤ stop := by
  induction regions generalizing start with
  | nil => exact Nat.le_of_eq consecutive
  | cons region rest ih =>
      obtain ⟨rfl, later⟩ := consecutive
      exact Nat.le_trans (Nat.le_add_right _ _) (ih later)

theorem inside (consecutive : Consecutive start regions stop) :
    ∀ region ∈ regions, start ≤ region.start ∧ region.stop ≤ stop := by
  induction regions generalizing start with
  | nil => simp
  | cons first rest ih =>
      obtain ⟨rfl, later⟩ := consecutive
      intro region member
      rcases List.mem_cons.mp member with rfl | inRest
      · exact ⟨Nat.le_refl _, later.le⟩
      · obtain ⟨low, high⟩ := ih later region inRest
        exact ⟨Nat.le_trans (Nat.le_add_right _ _) low, high⟩

theorem apart (consecutive : Consecutive start regions stop) : regions.Pairwise Region.Apart := by
  induction regions generalizing start with
  | nil => exact List.Pairwise.nil
  | cons first rest ih =>
      refine List.pairwise_cons.mpr ⟨?_, ih consecutive.2⟩
      rintro region member address ⟨⟨_, beforeEnd⟩, fromStart, _⟩
      have after := (consecutive.2.inside region member).1
      omega

end Consecutive

/-! ## Confined changes -/

def ChangesOnly {α β : Type} (touched : α → Prop) (before after : α → β) : Prop :=
  ∀ place, ¬touched place → after place = before place

namespace ChangesOnly

variable {α β : Type} {touched : α → Prop} {before middle after : α → β}

theorem refl (touched : α → Prop) (before : α → β) : ChangesOnly touched before before :=
  fun _ _ => rfl

theorem trans (first : ChangesOnly touched before middle)
    (second : ChangesOnly touched middle after) : ChangesOnly touched before after :=
  fun place untouched => (second place untouched).trans (first place untouched)

theorem mono {more : α → Prop} (changes : ChangesOnly touched before after)
    (grows : ∀ place, touched place → more place) : ChangesOnly more before after :=
  fun place untouched => changes place fun here => untouched (grows place here)

theorem update [DecidableEq α] (before : α → β) {place : α} (value : β) (here : touched place) :
    ChangesOnly touched before (Function.update before place value) := by
  intro other untouched
  apply Function.update_of_ne
  rintro rfl
  exact untouched here

end ChangesOnly

end Regions
