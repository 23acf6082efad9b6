import Zeptux.FormatCore

/-!
What `vsnprintf` leaves in the buffer. Two sinks that stay related by every `putc` stay
related by the whole format engine; with the list of characters as the second sink this
says which characters reach the buffer.
-/

namespace Zeptux.Format

open Word

theorem rel_bind {α β γ δ : Type} {First : α → β → Prop} {Second : γ → δ → Prop}
    {left : Option α} {right : Option β} {leftRest : α → Option γ} {rightRest : β → Option δ}
    (related : Option.Rel First left right)
    (rest : ∀ one two, First one two → Option.Rel Second (leftRest one) (rightRest two)) :
    Option.Rel Second (left >>= leftRest) (right >>= rightRest) := by
  cases related with
  | some both => exact rest _ _ both
  | none => exact .none

section Simulation

variable {σ τ : Type} {putc : σ → Char → σ} {putc' : τ → Char → τ} {Related : σ → τ → Prop}
variable (step : ∀ left right chr, Related left right → Related (putc left chr) (putc' right chr))
include step

theorem putcRepeat_related {left : σ} {right : τ} (related : Related left right) (chr : Char)
    (n : Int) : Related (putcRepeat putc left chr n) (putcRepeat putc' right chr n) := by
  unfold putcRepeat
  induction n.toNat generalizing left right with
  | zero => exact related
  | succ remaining ih => exact ih (step left right chr related)

theorem puts_related {left : σ} {right : τ} (related : Related left right) (str : List Char) :
    Related (puts putc left str) (puts putc' right str) := by
  induction str generalizing left right with
  | nil => exact related
  | cons chr str ih =>
      simp only [puts]
      split
      · exact related
      · exact ih (step left right chr related)

/-- The shape that strings and numbers share: text on one side, padding on the other. -/
theorem padded_related {left : σ} {right : τ} (related : Related left right) (padLeft : Bool)
    (str : List Char) (short : Prop) [Decidable short] (chr : Char) (n : Int) :
    Related
      (if padLeft then
        if short then putcRepeat putc (if padLeft then puts putc left str else left) chr n
        else if padLeft then puts putc left str else left
      else
        puts putc
          (if short then putcRepeat putc (if padLeft then puts putc left str else left) chr n
          else if padLeft then puts putc left str else left) str)
      (if padLeft then
        if short then putcRepeat putc' (if padLeft then puts putc' right str else right) chr n
        else if padLeft then puts putc' right str else right
      else
        puts putc'
          (if short then putcRepeat putc' (if padLeft then puts putc' right str else right) chr n
          else if padLeft then puts putc' right str else right) str) := by
  cases padLeft with
  | true =>
      simp only [↓reduceIte]
      split
      · exact putcRepeat_related step (puts_related step related str) chr n
      · exact puts_related step related str
  | false =>
      simp only [Bool.false_eq_true, ↓reduceIte]
      apply puts_related step
      split
      · exact putcRepeat_related step related chr n
      · exact related

theorem putsFormat_related {left : σ} {right : τ} (related : Related left right)
    (str : List Char) (format : VsnprintfFormat) :
    Related (putsFormat putc left str format) (putsFormat putc' right str format) :=
  padded_related step related _ _ _ _ _

theorem putUint64_related {left : σ} {right : τ} (related : Related left right) (val : Nat)
    (format : VsnprintfFormat) :
    Related (putUint64 putc left val format) (putUint64 putc' right val format) := by
  have signed : Related (if format.neg ∧ format.padChar = '0' then putc left '-' else left)
      (if format.neg ∧ format.padChar = '0' then putc' right '-' else right) := by
    split
    · exact step left right '-' related
    · exact related
  exact padded_related step signed _ _ _ _ _

theorem putInt64_related {left : σ} {right : τ} (related : Related left right)
    (val : BitVec 64) (format : VsnprintfFormat) :
    Related (putInt64 putc left val format) (putInt64 putc' right val format) := by
  unfold putInt64
  split
  · exact putUint64_related step related _ _
  · exact putUint64_related step related _ _

theorem convert_related {left : σ} {right : τ} (related : Related left right)
    (format : VsnprintfFormat) (is64 : Bool) (chr : Char) (args : List Arg) :
    Option.Rel (fun first second => Related first.1 second.1 ∧ first.2 = second.2)
      (convert putc left format is64 chr args) (convert putc' right format is64 chr args) := by
  unfold convert
  split
  · cases vaWord args with
    | none => exact .none
    | some taken => exact .some ⟨putInt64_related step related _ _, rfl⟩
  split
  · cases vaWord args with
    | none => exact .none
    | some taken => exact .some ⟨putUint64_related step related _ _, rfl⟩
  split
  · cases vaWord args with
    | none => exact .none
    | some taken => exact .some ⟨putUint64_related step related _ _, rfl⟩
  split
  · cases vaStr args with
    | none => exact .none
    | some taken => exact .some ⟨putsFormat_related step related _ _, rfl⟩
  split
  · exact .some ⟨step left right '%' related, rfl⟩
  · exact .some ⟨puts_related step related _, rfl⟩

theorem formatFrom_related {left : σ} {right : τ} (related : Related left right) (rounds : Nat)
    (fmt : List Char) (args : List Arg) :
    Option.Rel Related (formatFrom putc rounds left fmt args)
      (formatFrom putc' rounds right fmt args) := by
  induction rounds generalizing left right fmt args with
  | zero => exact .some related
  | succ rounds ih =>
      cases fmt with
      | nil => exact .some related
      | cons chr fmt =>
          simp only [formatFrom]
          split
          · exact .some related
          split
          · exact ih (step left right chr related) fmt args
          split
          · exact .some related
          · apply rel_bind (convert_related step related _ _ _ _)
            rintro ⟨leftNext, leftArgs⟩ ⟨rightNext, rightArgs⟩ ⟨both, rfl⟩
            exact ih both _ _

end Simulation

/-! ## The characters that reach the buffer -/

def emitted (fmt : List Char) (args : List Arg) : Option (List Char) :=
  formatFrom (fun out chr => out ++ [chr]) fmt.length [] fmt args

def overwrite (buf : Nat → Char) (text : List Char) (index : Nat) : Char :=
  text.getD index (buf index)

theorem overwrite_append (buf : Nat → Char) (text : List Char) (chr : Char) :
    overwrite buf (text ++ [chr]) = Function.update (overwrite buf text) text.length chr := by
  funext index
  by_cases same : index = text.length
  · subst index
    simp [overwrite]
  · rw [Function.update_of_ne same]
    by_cases inside : index < text.length
    · simp [overwrite, List.getElem?_append_left inside]
    · have outside : (text ++ [chr]).length ≤ index := by
        rw [List.length_append, List.length_singleton]
        omega
      simp [overwrite, List.getElem?_eq_none outside, List.getElem?_eq_none (by omega : text.length ≤ index)]

/-- After the characters `out` the buffer of size `n` holds those that fit. -/
def Filled (buf : Nat → Char) (n : Nat) (state : VsnprintfState) (out : List Char) : Prop :=
  state = ⟨overwrite buf (out.take (n - 1)), n, out.length⟩

theorem putc_filled {buf : Nat → Char} {n : Nat} (state : VsnprintfState) (out : List Char)
    (chr : Char) (filled : Filled buf n state out) :
    Filled buf n (state.putc chr) (out ++ [chr]) := by
  rw [Filled] at filled ⊢
  subst state
  by_cases room : out.length < n - 1
  · have all : out.take (n - 1) = out := List.take_of_length_le (by omega)
    have allNext : (out ++ [chr]).take (n - 1) = out ++ [chr] :=
      List.take_of_length_le (by rw [List.length_append, List.length_singleton]; omega)
    rw [allNext, overwrite_append]
    simp [VsnprintfState.putc, VsnprintfState.setBuf, room, all]
  · have same : (out ++ [chr]).take (n - 1) = out.take (n - 1) :=
      List.take_append_of_le_length (by omega)
    simp [VsnprintfState.putc, room, same]

/-- `vsnprintf` writes the emitted characters that fit and a terminator, and nothing else. -/
theorem vsnprintf_eq {n : Nat} (positive : 0 < n) (buf : Nat → Char) (fmt : List Char)
    (args : List Arg) :
    vsnprintf buf n fmt args = (emitted fmt args).map fun out =>
      (overwrite buf (out.take (n - 1) ++ ['\x00']), toInt32 out.length) := by
  have start : Filled buf n ⟨buf, n, 0⟩ [] := by
    rw [Filled, List.take_nil]
    rfl
  have related := formatFrom_related putc_filled start fmt.length fmt args
  unfold vsnprintf emitted
  rw [if_neg (by omega)]
  generalize formatFrom VsnprintfState.putc fmt.length ⟨buf, n, 0⟩ fmt args = left at related
  generalize formatFrom (fun out chr => out ++ [chr]) fmt.length [] fmt args = right at related
  cases related with
  | none => rfl
  | @some state out filled =>
      rw [Filled] at filled
      subst state
      have length : (out.take (n - 1)).length =
          if out.length < n - 1 then out.length else n - 1 := by
        rw [List.length_take]
        split <;> omega
      simp only [Option.map_some, overwrite_append, length]
      rfl

end Zeptux.Format
