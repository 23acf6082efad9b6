import Mathlib.Logic.Basic

/-!
Procedures over a state that can stop before they are done. What a procedure did to the state
before it stopped stays done.
-/

abbrev Procedure (ε σ : Type) := ExceptT ε (StateM σ)

namespace Procedure

variable {ε σ α β : Type}

def call (procedure : Procedure ε σ α) (state : σ) : Except ε α × σ := procedure.run.run state

section Calls

variable (state : σ)

@[simp] theorem call_pure (val : α) : (pure val : Procedure ε σ α).call state = (.ok val, state) :=
  rfl

@[simp] theorem call_get : (get : Procedure ε σ σ).call state = (.ok state, state) := rfl

@[simp] theorem call_modify (change : σ → σ) :
    (modify change : Procedure ε σ PUnit).call state = (.ok ⟨⟩, change state) := rfl

theorem call_bind (procedure : Procedure ε σ α) (next : α → Procedure ε σ β) :
    (procedure >>= next).call state =
      match procedure.call state with
      | (.ok val, after) => (next val).call after
      | (.error err, after) => (.error err, after) := by
  simp only [call, ExceptT.run_bind, StateT.run_bind]
  rcases procedure.run.run state with ⟨err | val, after⟩ <;> rfl

theorem call_bind_ok {procedure : Procedure ε σ α} {next : α → Procedure ε σ β} {val : α}
    {after : σ} (returned : procedure.call state = (.ok val, after)) :
    (procedure >>= next).call state = (next val).call after := by
  rw [call_bind, returned]

end Calls

theorem bind_returned {state : σ} {procedure : Procedure ε σ α} {next : α → Procedure ε σ β} {val : β} {after : σ}
    (returned : (procedure >>= next).call state = (.ok val, after)) :
    ∃ first middle, procedure.call state = (.ok first, middle) ∧
      (next first).call middle = (.ok val, after) := by
  rw [call_bind] at returned
  rcases called : procedure.call state with ⟨err | first, middle⟩
  · rw [called] at returned
    cases returned
  · rw [called] at returned
    exact ⟨first, middle, rfl, returned⟩

/-- From a state with the invariant, the procedure ends in one, with a result that meets `post`
or an error that `allowed` admits. -/
def Meets (inv : σ → Prop) (allowed : ε → Prop) (post : α → Prop)
    (procedure : Procedure ε σ α) : Prop :=
  ∀ state, inv state → inv (procedure.call state).2 ∧
    match (procedure.call state).1 with
    | .ok val => post val
    | .error err => allowed err

abbrev Keeps (inv : σ → Prop) (allowed : ε → Prop) (procedure : Procedure ε σ α) : Prop :=
  Meets inv allowed (fun _ => True) procedure

namespace Meets

variable {inv : σ → Prop} {allowed : ε → Prop} {post : α → Prop}

theorem pure {val : α} (met : post val) :
    Meets inv allowed post (pure val : Procedure ε σ α) := fun _ holds => ⟨holds, met⟩

theorem throw {err : ε} (met : allowed err) :
    Meets inv allowed post (throw err : Procedure ε σ α) := fun _ holds => ⟨holds, met⟩

theorem get : Meets inv allowed inv (get : Procedure ε σ σ) := fun _ holds => ⟨holds, holds⟩

theorem modify {change : σ → σ} (kept : ∀ state, inv state → inv (change state)) :
    Keeps inv allowed (modify change : Procedure ε σ PUnit) :=
  fun state holds => ⟨kept state holds, trivial⟩

theorem modifyGet {change : σ → α × σ}
    (kept : ∀ state, inv state → inv (change state).2) :
    Keeps inv allowed (modifyGet change : Procedure ε σ α) :=
  fun state holds => ⟨kept state holds, trivial⟩

theorem bind {procedure : Procedure ε σ α} {next : α → Procedure ε σ β} {goal : β → Prop}
    (first : Meets inv allowed post procedure)
    (second : ∀ val, post val → Meets inv allowed goal (next val)) :
    Meets inv allowed goal (procedure >>= next) := by
  intro state holds
  obtain ⟨kept, outcome⟩ := first state holds
  rw [call_bind]
  rcases called : procedure.call state with ⟨err | val, after⟩
  · rw [called] at kept outcome
    exact ⟨kept, outcome⟩
  · rw [called] at kept outcome
    exact second val outcome after kept

theorem mono {procedure : Procedure ε σ α} {goal : α → Prop}
    (first : Meets inv allowed post procedure) (weaker : ∀ val, post val → goal val) :
    Meets inv allowed goal procedure := by
  intro state holds
  obtain ⟨kept, outcome⟩ := first state holds
  refine ⟨kept, ?_⟩
  cases result : (procedure.call state).1 with
  | ok val =>
      rw [result] at outcome
      exact weaker val outcome
  | error err =>
      rw [result] at outcome
      exact outcome

theorem keeps {procedure : Procedure ε σ α} (first : Meets inv allowed post procedure) :
    Keeps inv allowed procedure := first.mono fun _ _ => trivial

theorem outcome {procedure : Procedure ε σ α} (first : Meets inv allowed post procedure)
    {state : σ} (holds : inv state) :
    inv (procedure.call state).2 ∧ ∀ err, (procedure.call state).1 = .error err → allowed err := by
  obtain ⟨kept, result⟩ := first state holds
  refine ⟨kept, fun err stopped => ?_⟩
  rw [stopped] at result
  exact result

theorem ok {procedure : Procedure ε σ α} (first : Meets inv allowed post procedure)
    {state after : σ} {val : α} (holds : inv state)
    (called : procedure.call state = (.ok val, after)) : inv after ∧ post val := by
  have kept := first state holds
  rw [called] at kept
  exact kept

theorem both {procedure : Procedure ε σ α} {goal : α → Prop}
    (first : Meets inv allowed post procedure) (second : Meets inv allowed goal procedure) :
    Meets inv allowed (fun val => post val ∧ goal val) procedure := by
  intro state holds
  obtain ⟨kept, outcome⟩ := first state holds
  obtain ⟨-, other⟩ := second state holds
  refine ⟨kept, ?_⟩
  cases result : (procedure.call state).1 with
  | ok val =>
      rw [result] at outcome other
      exact ⟨outcome, other⟩
  | error err =>
      rw [result] at outcome
      exact outcome

theorem returns {procedure : Procedure ε σ α} (first : Meets inv allowed post procedure) :
    Meets inv allowed
      (fun val => post val ∧ ∃ state after, inv state ∧ procedure.call state = (.ok val, after))
      procedure := by
  intro state holds
  obtain ⟨kept, outcome⟩ := first state holds
  refine ⟨kept, ?_⟩
  rcases called : procedure.call state with ⟨err | val, after⟩
  · rw [called] at outcome
    exact outcome
  · rw [called] at outcome
    exact ⟨outcome, state, after, holds, called⟩

theorem forM {each : β → Procedure ε σ PUnit} {list : List β}
    (all : ∀ item ∈ list, Keeps inv allowed (each item)) :
    Keeps inv allowed (list.forM each) := by
  induction list with
  | nil => exact pure trivial
  | cons item rest ih =>
      exact (all item (by simp)).bind fun _ _ => ih fun other inside => all other (by simp [inside])

theorem mapM {each : β → Procedure ε σ α} {list : List β}
    (all : ∀ item ∈ list, Meets inv allowed post (each item)) :
    Meets inv allowed (fun vals => ∀ val ∈ vals, post val) (list.mapM each) := by
  induction list with
  | nil => exact pure (by simp)
  | cons item rest ih =>
      rw [List.mapM_cons]
      refine (all item (by simp)).bind fun val met => ?_
      refine (ih fun other inside => all other (by simp [inside])).bind fun vals mets => ?_
      refine pure fun other inside => ?_
      rcases List.mem_cons.mp inside with rfl | later
      · exact met
      · exact mets other later

theorem lift {computed : Except ε α}
    (met : match computed with | .ok val => post val | .error err => allowed err) :
    Meets inv allowed post (liftM computed : Procedure ε σ α) := by
  intro state holds
  cases computed with
  | ok val => exact ⟨holds, met⟩
  | error err => exact ⟨holds, met⟩

end Meets

def Always (yes : α → Bool) (procedure : Procedure ε σ α) : Prop :=
  ∀ state val after, procedure.call state = (.ok val, after) → yes val = true

theorem Always.pure {yes : α → Bool} {val : α} (positive : yes val = true) :
    Always yes (pure val : Procedure ε σ α) := by
  intro state other after called
  cases called
  exact positive

theorem Always.bind {yes : β → Bool} {procedure : Procedure ε σ α} {next : α → Procedure ε σ β}
    (each : ∀ val, Always yes (next val)) : Always yes (procedure >>= next) := by
  intro state val after called
  obtain ⟨first, middle, -, rest⟩ := bind_returned called
  exact each first middle val after rest

/-- The procedure asks whether something holds, and leaves the state idle as long as it does not.
Once it does, nothing more is said of the state. -/
def Decides (idle : σ → Prop) (yes : α → Bool) (holds : Prop) (procedure : Procedure ε σ α) :
    Prop :=
  ∀ state, idle state → ∀ val after, procedure.call state = (.ok val, after) →
    (yes val = true → holds) ∧ (yes val = false → ¬holds ∧ idle after)

namespace Decides

variable {idle : σ → Prop} {yes : α → Bool} {holds other : Prop} {procedure : Procedure ε σ α}

theorem pure {val : α} (answer : yes val = true ↔ holds) :
    Decides idle yes holds (pure val : Procedure ε σ α) := by
  intro state isIdle result after called
  cases called
  refine ⟨answer.mp, fun negative => ⟨fun met => ?_, isIdle⟩⟩
  rw [answer.mpr met] at negative
  cases negative

theorem congr (first : Decides idle yes holds procedure) (same : holds ↔ other) :
    Decides idle yes other procedure := by
  rwa [propext same] at first

theorem after {read : Procedure ε σ β} {next : β → Procedure ε σ α} {allowed : ε → Prop}
    {post : β → Prop} (first : Meets idle allowed post read)
    (second : ∀ val, post val → Decides idle yes holds (next val)) :
    Decides idle yes holds (read >>= next) := by
  intro state isIdle result last called
  obtain ⟨val, middle, reading, rest⟩ := bind_returned called
  obtain ⟨still, met⟩ := first.ok isIdle reading
  exact second val met middle still result last rest

theorem bind {more : β → Bool} {next : α → Procedure ε σ β}
    (first : Decides idle yes holds procedure)
    (carried : ∀ val, yes val = true → Always more (next val))
    (second : ∀ val, yes val = false → Decides idle more other (next val)) :
    Decides idle more (holds ∨ other) (procedure >>= next) := by
  intro state isIdle result after called
  obtain ⟨val, middle, asking, rest⟩ := bind_returned called
  obtain ⟨met, unmet⟩ := first state isIdle val middle asking
  cases answer : yes val with
  | true =>
      refine ⟨fun _ => .inl (met answer), fun negative => ?_⟩
      rw [carried val answer middle result after rest] at negative
      cases negative
  | false =>
      obtain ⟨no, still⟩ := unmet answer
      obtain ⟨metRest, unmetRest⟩ := second val answer middle still result after rest
      refine ⟨fun positive => .inr (metRest positive), fun negative => ?_⟩
      obtain ⟨noRest, last⟩ := unmetRest negative
      exact ⟨fun either => either.elim no noRest, last⟩

theorem map {more : β → Bool} {say : α → β} (first : Decides idle yes holds procedure)
    (agree : ∀ val, more (say val) = yes val) :
    Decides idle more holds (procedure >>= fun val => Pure.pure (say val)) := by
  intro state isIdle result after called
  obtain ⟨val, middle, asking, rest⟩ := bind_returned called
  cases rest
  rw [agree]
  exact first state isIdle val after asking

end Decides

end Procedure
