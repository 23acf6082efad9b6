import Zeptux.Lib.Word

/-! What the sources share: panics, masks, alignment, a few constants, fallible steps and loops. -/

namespace Zeptux

open Word

/-- A call of `panic` or `early_panic`: the format string and its arguments. The
file and line prefix that `early_panic` adds is left out. -/
structure Panic where
  fmt : String
  args : List Int
deriving DecidableEq, Repr

def isMaskSet (value mask : Nat) : Bool := value &&& mask == mask

def align (number unit : Nat) : Nat := number &&& not64 (unit - 1)

def alignUp (number unit : Nat) : Nat := align (sub64 (add64 number unit) 1) unit

def isAligned (number unit : Nat) : Bool := number &&& (unit - 1) == 0

def pageShift : Nat := 12
def pageSize : Nat := 2 ^ pageShift

def stage2Sectors : Nat := 4
def bootSectors : Nat := 1 + stage2Sectors

def elfShtNobits : Nat := 8

def physToPfn (pa : Nat) : Nat := pa >>> pageShift

def bytesToPages (bytes : Nat) : Nat := alignUp bytes pageSize >>> pageShift

theorem bind_ok {ε α β : Type} {first : Except ε α} {rest : α → Except ε β} {result : β}
    (ok : first >>= rest = .ok result) : ∃ value, first = .ok value ∧ rest value = .ok result := by
  cases first with
  | error panic => cases ok
  | ok value => exact ⟨value, rfl, ok⟩

/-- A loop over the first numbers: what each round preserves holds after all of them. -/
theorem foldl_range_run {σ : Type} {motive : Nat → σ → Prop} {step : σ → Nat → σ} {state : σ}
    {count : Nat} (start : motive 0 state)
    (each : ∀ index < count, ∀ state, motive index state → motive (index + 1) (step state index)) :
    motive count ((List.range count).foldl step state) := by
  induction count with
  | zero => exact start
  | succ count ih =>
      rw [List.range_succ, List.foldl_append]
      exact each count (by omega) _ (ih fun index inside => each index (by omega))

end Zeptux
