import Mathlib.Data.List.Pairwise
import Mathlib.Algebra.BigOperators.Group.List.Basic
import Mathlib.Algebra.Ring.Nat

/-!
The maximal runs of equal labels along the natural numbers, and a tracker that finds them
from pieces that come in order.
-/

namespace Runs

variable {β : Type}

structure Run (β : Type) where
  start : Nat
  stop : Nat
  key : β

def Run.Holds (run : Run β) (position : Nat) : Prop := run.start ≤ position ∧ position < run.stop

def Run.length (run : Run β) : Nat := run.stop - run.start

/-- The first run ends before the second, and the two are not one run that was cut. -/
def Run.Apart (first second : Run β) : Prop :=
  first.stop ≤ second.start ∧ (first.stop = second.start → first.key ≠ second.key)

/-- The runs are the maximal ones of the labels below the bound. -/
structure Partition (label : Nat → Option β) (bound : Nat) (runs : List (Run β)) : Prop where
  apart : runs.Pairwise Run.Apart
  nonempty : ∀ run ∈ runs, run.start < run.stop
  bounded : ∀ run ∈ runs, run.stop ≤ bound
  labelled : ∀ run ∈ runs, ∀ position, run.Holds position → label position = some run.key
  covered : ∀ position < bound, ∀ key, label position = some key →
    ∃ run ∈ runs, run.Holds position

namespace Partition

variable {label : Nat → Option β} {bound : Nat} {runs : List (Run β)}

theorem gap (partition : Partition label bound runs) {stop : Nat} (later : bound ≤ stop)
    (unlabelled : ∀ position, bound ≤ position → position < stop → label position = none) :
    Partition label stop runs where
  apart := partition.apart
  nonempty := partition.nonempty
  bounded := fun run member => Nat.le_trans (partition.bounded run member) later
  labelled := partition.labelled
  covered := by
    intro position below key here
    by_cases before : position < bound
    · exact partition.covered position before key here
    · rw [unlabelled position (by omega) below] at here
      cases here

theorem append (partition : Partition label bound runs) {piece : Run β}
    (starts : piece.start = bound) (nonempty : piece.start < piece.stop)
    (apart : ∀ run ∈ runs, run.Apart piece)
    (labelled : ∀ position, piece.Holds position → label position = some piece.key) :
    Partition label piece.stop (runs ++ [piece]) where
  apart := by
    rw [List.pairwise_append]
    refine ⟨partition.apart, List.pairwise_singleton _ _, ?_⟩
    intro run member other isPiece
    rw [List.mem_singleton.mp isPiece]
    exact apart run member
  nonempty := by
    intro run member
    rcases List.mem_append.mp member with old | new
    · exact partition.nonempty run old
    · rw [List.mem_singleton.mp new]
      exact nonempty
  bounded := by
    intro run member
    rcases List.mem_append.mp member with old | new
    · have := partition.bounded run old
      omega
    · exact Nat.le_of_eq (congrArg Run.stop (List.mem_singleton.mp new))
  labelled := by
    intro run member
    rcases List.mem_append.mp member with old | new
    · exact partition.labelled run old
    · rw [List.mem_singleton.mp new]
      exact labelled
  covered := by
    intro position below key here
    by_cases before : position < bound
    · obtain ⟨run, member, holds⟩ := partition.covered position before key here
      exact ⟨run, List.mem_append_left _ member, holds⟩
    · exact ⟨piece, by simp, by omega, below⟩

theorem grow {front : List (Run β)} {run piece : Run β}
    (partition : Partition label bound (front ++ [run])) (touches : run.stop = bound)
    (starts : piece.start = bound) (nonempty : piece.start < piece.stop)
    (same : run.key = piece.key)
    (labelled : ∀ position, piece.Holds position → label position = some piece.key) :
    Partition label piece.stop (front ++ [{ run with stop := piece.stop }]) := by
  obtain ⟨frontApart, _, before⟩ := List.pairwise_append.mp partition.apart
  have runNonempty := partition.nonempty run (by simp)
  refine ⟨?_, ?_, ?_, ?_, ?_⟩
  · rw [List.pairwise_append]
    refine ⟨frontApart, List.pairwise_singleton _ _, ?_⟩
    intro other member grown isGrown
    rw [List.mem_singleton.mp isGrown]
    exact before other member run (by simp)
  · intro other member
    rcases List.mem_append.mp member with old | new
    · exact partition.nonempty other (List.mem_append_left _ old)
    · rw [List.mem_singleton.mp new]
      change run.start < piece.stop
      omega
  · intro other member
    rcases List.mem_append.mp member with old | new
    · have := partition.bounded other (List.mem_append_left _ old)
      omega
    · obtain rfl := List.mem_singleton.mp new
      exact Nat.le_refl _
  · intro other member position holds
    rcases List.mem_append.mp member with old | new
    · exact partition.labelled other (List.mem_append_left _ old) position holds
    · rw [List.mem_singleton.mp new] at holds ⊢
      by_cases earlier : position < run.stop
      · exact partition.labelled run (by simp) position ⟨holds.1, earlier⟩
      · change label position = some run.key
        rw [same]
        exact labelled position ⟨by omega, holds.2⟩
  · intro position below key here
    by_cases earlier : position < bound
    · obtain ⟨other, member, holds⟩ := partition.covered position earlier key here
      rcases List.mem_append.mp member with old | new
      · exact ⟨other, List.mem_append_left _ old, holds⟩
      · rw [List.mem_singleton.mp new] at holds
        exact ⟨_, List.mem_append_right _ (List.mem_singleton.mpr rfl), holds.1, below⟩
    · refine ⟨_, List.mem_append_right _ (List.mem_singleton.mpr rfl), ?_, below⟩
      change run.start ≤ position
      omega

theorem order (partition : Partition label bound runs) {first second : Run β}
    (firstMember : first ∈ runs) (secondMember : second ∈ runs) :
    first.Apart second ∨ second.Apart first ∨ first = second := by
  obtain ⟨i, firstInside, rfl⟩ := List.mem_iff_getElem.mp firstMember
  obtain ⟨j, secondInside, rfl⟩ := List.mem_iff_getElem.mp secondMember
  have pairs := List.pairwise_iff_getElem.mp partition.apart
  rcases Nat.lt_trichotomy i j with before | rfl | after
  · exact Or.inl (pairs i j firstInside secondInside before)
  · exact Or.inr (Or.inr rfl)
  · exact Or.inr (Or.inl (pairs j i secondInside firstInside after))

theorem joined (partition : Partition label bound runs) {position : Nat} {key : β}
    (inside : position + 1 < bound) (here : label position = some key)
    (next : label (position + 1) = some key) :
    ∃ run ∈ runs, run.Holds position ∧ run.Holds (position + 1) := by
  obtain ⟨first, firstMember, firstHolds⟩ := partition.covered position (by omega) key here
  obtain ⟨second, secondMember, secondHolds⟩ := partition.covered (position + 1) inside key next
  have sameKey : first.key = second.key := by
    rw [partition.labelled first firstMember _ firstHolds] at here
    rw [partition.labelled second secondMember _ secondHolds] at next
    exact Option.some.inj (here.trans next.symm)
  simp only [Run.Holds] at firstHolds secondHolds
  rcases partition.order firstMember secondMember with before | after | rfl
  · have touching : first.stop = second.start := by
      have := before.1
      omega
    exact absurd sameKey (before.2 touching)
  · have := after.1
    omega
  · exact ⟨first, firstMember, firstHolds, secondHolds⟩

theorem length_sum_le (partition : Partition label bound runs) :
    (runs.map Run.length).sum ≤ bound := by
  have tail : ∀ (runs : List (Run β)) (low : Nat), low ≤ bound → runs.Pairwise Run.Apart →
      (∀ run ∈ runs, low ≤ run.start ∧ run.start < run.stop ∧ run.stop ≤ bound) →
      (runs.map Run.length).sum ≤ bound - low := by
    intro runs
    induction runs with
    | nil => simp
    | cons run rest ih =>
        intro low _ apart inside
        obtain ⟨before, restApart⟩ := List.pairwise_cons.mp apart
        obtain ⟨later, nonempty, within⟩ := inside run (by simp)
        have restSum := ih run.stop within restApart fun other member =>
          ⟨(before other member).1, (inside other (by simp [member])).2⟩
        rw [List.map_cons, List.sum_cons, Run.length]
        omega
  exact tail runs 0 (Nat.zero_le _) partition.apart fun run member =>
    ⟨Nat.zero_le _, partition.nonempty run member, partition.bounded run member⟩

end Partition

/-! ## The tracker -/

/-- The runs that are complete, and the one that the next piece may extend. -/
structure Tracker (β : Type) where
  closed : List (Run β)
  current : Option (Run β)

namespace Tracker

def runs (tracker : Tracker β) : List (Run β) := tracker.closed ++ tracker.current.toList

def size (tracker : Tracker β) : Nat := (tracker.runs.map Run.length).sum

def close (tracker : Tracker β) : Tracker β := ⟨tracker.runs, none⟩

def extend [DecidableEq β] (tracker : Tracker β) (piece : Run β) : Tracker β :=
  match tracker.current with
  | none => ⟨tracker.closed, some piece⟩
  | some run =>
      if run.key = piece.key then ⟨tracker.closed, some { run with stop := piece.stop }⟩
      else ⟨tracker.runs, some piece⟩

@[simp] theorem close_runs (tracker : Tracker β) : tracker.close.runs = tracker.runs := by
  simp [close, runs]

end Tracker

structure Follows (label : Nat → Option β) (position : Nat) (tracker : Tracker β) : Prop where
  partition : Partition label position tracker.runs
  touches : ∀ run, tracker.current = some run → run.stop = position
  ended : tracker.current = none → ∀ run ∈ tracker.closed, run.stop < position

namespace Follows

variable {label : Nat → Option β} {position : Nat} {tracker : Tracker β}

theorem nothing (label : Nat → Option β) : Follows label 0 ⟨[], none⟩ where
  partition := ⟨by simp [Tracker.runs], by simp [Tracker.runs], by simp [Tracker.runs],
    by simp [Tracker.runs], fun _ below => absurd below (by omega)⟩
  touches := by simp
  ended := by simp

theorem closed_before (follows : Follows label position tracker) :
    ∀ run ∈ tracker.closed, run.stop < position := by
  intro other member
  cases current : tracker.current with
  | none => exact follows.ended current other member
  | some run =>
      have shape : tracker.runs = tracker.closed ++ [run] := by simp [Tracker.runs, current]
      have partition := follows.partition
      rw [shape] at partition
      have before := (List.pairwise_append.mp partition.apart).2.2 other member run (by simp)
      have nonempty := partition.nonempty run (by simp)
      have touches := follows.touches run current
      have := before.1
      omega

theorem within (follows : Follows label position tracker) {limit : Nat}
    (bound : position ≤ limit) : ∀ run ∈ tracker.runs, run.start < run.stop ∧ run.stop ≤ limit := by
  intro run member
  exact ⟨follows.partition.nonempty run member,
    Nat.le_trans (follows.partition.bounded run member) bound⟩

theorem close (follows : Follows label position tracker) {stop : Nat} (later : position < stop)
    (unlabelled : ∀ place, position ≤ place → place < stop → label place = none) :
    Follows label stop tracker.close where
  partition := by
    rw [Tracker.close_runs]
    exact follows.partition.gap (by omega) unlabelled
  touches := by simp [Tracker.close]
  ended := by
    intro _ run member
    have := follows.partition.bounded run member
    omega

theorem apart (follows : Follows label position tracker) {piece : Run β}
    (starts : piece.start = position)
    (differs : ∀ run, tracker.current = some run → run.key ≠ piece.key) :
    ∀ run ∈ tracker.runs, run.Apart piece := by
  intro run member
  rcases List.mem_append.mp member with old | new
  · have := follows.closed_before run old
    exact ⟨by omega, by omega⟩
  · have current : tracker.current = some run := by simpa using new
    have := follows.touches run current
    exact ⟨by omega, fun _ => differs run current⟩

theorem extend [DecidableEq β] (follows : Follows label position tracker) {piece : Run β}
    (starts : piece.start = position) (nonempty : piece.start < piece.stop)
    (labelled : ∀ place, piece.Holds place → label place = some piece.key) :
    Follows label piece.stop (tracker.extend piece) ∧
      (tracker.extend piece).size = tracker.size + piece.length := by
  have fresh : (∀ run, tracker.current = some run → run.key ≠ piece.key) →
      Follows label piece.stop ⟨tracker.runs, some piece⟩ ∧
        (⟨tracker.runs, some piece⟩ : Tracker β).size = tracker.size + piece.length := by
    intro differs
    refine ⟨⟨?_, by simp, by simp⟩, by simp [Tracker.size, Tracker.runs, Nat.add_assoc]⟩
    exact follows.partition.append starts nonempty (follows.apart starts differs) labelled
  cases current : tracker.current with
  | none =>
      have runs : tracker.runs = tracker.closed := by simp [Tracker.runs, current]
      simp only [Tracker.extend, current]
      rw [← runs]
      exact fresh (by simp [current])
  | some run =>
      simp only [Tracker.extend, current]
      by_cases same : run.key = piece.key
      · rw [if_pos same]
        have runs : tracker.runs = tracker.closed ++ [run] := by simp [Tracker.runs, current]
        have partition := follows.partition
        rw [runs] at partition
        have touches := follows.touches run current
        have runNonempty := partition.nonempty run (by simp)
        refine ⟨⟨partition.grow touches starts nonempty same labelled, by simp, by simp⟩, ?_⟩
        simp only [Tracker.size, Tracker.runs, current, List.map_append, List.sum_append,
          Option.toList_some, List.map_singleton, List.sum_singleton, Run.length]
        omega
      · rw [if_neg same]
        exact fresh fun other found => by
          rw [current] at found
          rwa [← Option.some.inj found]

end Follows

end Runs
