import Mathlib.Data.Finset.Insert
import Mathlib.Data.Finset.Erase

/-!
Programs over a shared state that synchronise through spinlocks. A program is a
tree whose nodes read the state, update it, and take or drop a lock. `run` executes
it alone; `wp` is its weakest precondition under a contract, which says what the
program knows of the state while others may write, and what it leaves to them.
-/

namespace LockProgram

inductive Program (σ ℓ ε α : Type) : Type
  | done (value : α)
  | fail (error : ε)
  | read (next : σ → Program σ ℓ ε α)
  | update (change : σ → σ) (next : Program σ ℓ ε α)
  | acquire (lock : ℓ) (next : Program σ ℓ ε α)
  | release (lock : ℓ) (next : Program σ ℓ ε α)

namespace Program

variable {σ ℓ ε α β : Type}

def bind (program : Program σ ℓ ε α) (rest : α → Program σ ℓ ε β) : Program σ ℓ ε β :=
  match program with
  | .done value => rest value
  | .fail error => .fail error
  | .read next => .read fun data => (next data).bind rest
  | .update change next => .update change (next.bind rest)
  | .acquire lock next => .acquire lock (next.bind rest)
  | .release lock next => .release lock (next.bind rest)

instance : Monad (Program σ ℓ ε) where
  pure := .done
  bind := .bind

theorem bind_bind {γ : Type} (program : Program σ ℓ ε α) (first : α → Program σ ℓ ε β)
    (second : β → Program σ ℓ ε γ) :
    program >>= first >>= second = program >>= fun value => first value >>= second := by
  change (program.bind first).bind second = program.bind fun value => (first value).bind second
  induction program with
  | done value => rfl
  | fail error => rfl
  | read next ih => exact congrArg Program.read (funext ih)
  | update change next ih => exact congrArg (Program.update change) ih
  | acquire lock next ih => exact congrArg (Program.acquire lock) ih
  | release lock next ih => exact congrArg (Program.release lock) ih

def gets (view : σ → α) : Program σ ℓ ε α := .read fun data => .done (view data)

def modify (change : σ → σ) : Program σ ℓ ε Unit := .update change (.done ())

def lock (lock : ℓ) : Program σ ℓ ε Unit := .acquire lock (.done ())

def unlock (lock : ℓ) : Program σ ℓ ε Unit := .release lock (.done ())

def throw (error : ε) : Program σ ℓ ε α := .fail error

def waitingOn : Program σ ℓ ε α → Option ℓ
  | .acquire lock _ => some lock
  | _ => none

end Program

/-! ## One processor -/

structure Machine (σ ℓ : Type) where
  data : σ
  held : ℓ → Bool

namespace Machine

variable {σ ℓ : Type} [DecidableEq ℓ]

def take (machine : Machine σ ℓ) (lock : ℓ) : Machine σ ℓ :=
  { machine with held := Function.update machine.held lock true }

def drop (machine : Machine σ ℓ) (lock : ℓ) : Machine σ ℓ :=
  { machine with held := Function.update machine.held lock false }

def holding (data : σ) (locks : Finset ℓ) : Machine σ ℓ := ⟨data, fun lock => decide (lock ∈ locks)⟩

theorem take_holding (data : σ) (locks : Finset ℓ) (lock : ℓ) :
    (holding data locks).take lock = holding data (insert lock locks) := by
  simp only [take, holding, Machine.mk.injEq, true_and]
  funext other
  by_cases same : other = lock
  · simp [same]
  · simp [same]

theorem drop_holding (data : σ) (locks : Finset ℓ) (lock : ℓ) :
    (holding data locks).drop lock = holding data (locks.erase lock) := by
  simp only [drop, holding, Machine.mk.injEq, true_and]
  funext other
  by_cases same : other = lock
  · simp [same]
  · simp [same]

end Machine

/-- `blocked` is a processor that spins on a lock which nobody will release. -/
inductive Outcome (σ ℓ ε α : Type) : Type
  | returned (value : α) (machine : Machine σ ℓ)
  | failed (error : ε)
  | blocked (lock : ℓ) (machine : Machine σ ℓ)

def Outcome.bind {σ ℓ ε α β : Type} (outcome : Outcome σ ℓ ε α)
    (rest : α → Machine σ ℓ → Outcome σ ℓ ε β) : Outcome σ ℓ ε β :=
  match outcome with
  | .returned value machine => rest value machine
  | .failed error => .failed error
  | .blocked lock machine => .blocked lock machine

section Alone

variable {σ ℓ ε α β : Type} [DecidableEq ℓ]

def run : Program σ ℓ ε α → Machine σ ℓ → Outcome σ ℓ ε α
  | .done value, machine => .returned value machine
  | .fail error, _ => .failed error
  | .read next, machine => run (next machine.data) machine
  | .update change next, machine => run next { machine with data := change machine.data }
  | .acquire lock next, machine =>
      if machine.held lock then .blocked lock machine else run next (machine.take lock)
  | .release lock next, machine => run next (machine.drop lock)

theorem run_bind (program : Program σ ℓ ε α) (rest : α → Program σ ℓ ε β)
    (machine : Machine σ ℓ) :
    run (program >>= rest) machine =
      (run program machine).bind fun value machine => run (rest value) machine := by
  change run (program.bind rest) machine = _
  induction program generalizing machine with
  | done value => rfl
  | fail error => rfl
  | read next ih => exact ih machine.data machine
  | update change next ih => exact ih _
  | acquire lock next ih =>
      simp only [Program.bind, run]
      split
      · rfl
      · exact ih _
  | release lock next ih => exact ih _

theorem run_bind_returned {program : Program σ ℓ ε α} {rest : α → Program σ ℓ ε β}
    {machine after : Machine σ ℓ} {value : β}
    (returned : run (program >>= rest) machine = .returned value after) :
    ∃ middle changed, run program machine = .returned middle changed ∧
      run (rest middle) changed = .returned value after := by
  rw [run_bind] at returned
  cases outcome : run program machine with
  | returned middle changed =>
      rw [outcome] at returned
      exact ⟨middle, changed, rfl, returned⟩
  | failed error =>
      rw [outcome] at returned
      cases returned
  | blocked lock changed =>
      rw [outcome] at returned
      cases returned

theorem run_pure_returned {machine after : Machine σ ℓ} {given value : α}
    (returned : run (pure given : Program σ ℓ ε α) machine = .returned value after) :
    given = value ∧ machine = after := by
  cases returned
  exact ⟨rfl, rfl⟩

/-- The updates that a run makes, each as the state before it and the state after it. -/
def updates : Program σ ℓ ε α → Machine σ ℓ → List (σ × σ)
  | .done _, _ => []
  | .fail _, _ => []
  | .read next, machine => updates (next machine.data) machine
  | .update change next, machine =>
      (machine.data, change machine.data) ::
        updates next { machine with data := change machine.data }
  | .acquire lock next, machine =>
      if machine.held lock then [] else updates next (machine.take lock)
  | .release lock next, machine => updates next (machine.drop lock)

end Alone

/-! ## Contracts -/

/-- What a program relies on and what it guarantees. `describes data view`: the state
`data` is as the program takes it to be, up to parts that others may write. -/
structure Contract (σ ℓ ε : Type) where
  describes : σ → σ → Prop
  keeps : σ → σ → Prop
  takes : ℓ → Prop
  drops : ℓ → Prop
  fails : ε → Prop

section Wp

variable {σ ℓ ε α β : Type} [DecidableEq ℓ] {contract : Contract σ ℓ ε}
  {view : σ} {locks : Finset ℓ}

def wp (contract : Contract σ ℓ ε) :
    Program σ ℓ ε α → σ → Finset ℓ → (α → σ → Finset ℓ → Prop) → Prop
  | .done value, view, locks, post => post value view locks
  | .fail error, _, _, _ => contract.fails error
  | .read next, view, locks, post =>
      ∀ data, contract.describes data view → wp contract (next data) view locks post
  | .update change next, view, locks, post =>
      (∀ data, contract.describes data view →
        contract.describes (change data) (change view) ∧ contract.keeps data (change data)) ∧
      wp contract next (change view) locks post
  | .acquire lock next, view, locks, post =>
      lock ∉ locks ∧ contract.takes lock ∧ wp contract next view (insert lock locks) post
  | .release lock next, view, locks, post =>
      contract.drops lock ∧ wp contract next view (locks.erase lock) post

/-- A contract may be exchanged for one that asks for less in return for as much. -/
theorem wp_contract {other : Contract σ ℓ ε} {program : Program σ ℓ ε α}
    {post : α → σ → Finset ℓ → Prop}
    (describes : ∀ data view, other.describes data view ↔ contract.describes data view)
    (keeps : ∀ data changed, contract.keeps data changed → other.keeps data changed)
    (takes : ∀ lock, contract.takes lock → other.takes lock)
    (drops : ∀ lock, contract.drops lock → other.drops lock)
    (fails : ∀ error, contract.fails error → other.fails error)
    (holds : wp contract program view locks post) : wp other program view locks post := by
  induction program generalizing view locks with
  | done value => exact holds
  | fail error => exact fails error holds
  | read next ih =>
      exact fun data described => ih data (holds data ((describes data view).mp described))
  | update change next ih =>
      refine ⟨fun data described => ?_, ih holds.2⟩
      have changed := holds.1 data ((describes data view).mp described)
      exact ⟨(describes _ _).mpr changed.1, keeps _ _ changed.2⟩
  | acquire lock next ih => exact ⟨holds.1, takes lock holds.2.1, ih holds.2.2⟩
  | release lock next ih => exact ⟨drops lock holds.1, ih holds.2⟩

theorem wp_bind {program : Program σ ℓ ε α} {rest : α → Program σ ℓ ε β}
    {post : β → σ → Finset ℓ → Prop}
    (holds : wp contract program view locks fun value view locks =>
      wp contract (rest value) view locks post) :
    wp contract (program >>= rest) view locks post := by
  change wp contract (program.bind rest) view locks post
  induction program generalizing view locks with
  | done value => exact holds
  | fail error => exact holds
  | read next ih => exact fun data described => ih data (holds data described)
  | update change next ih => exact ⟨holds.1, ih holds.2⟩
  | acquire lock next ih => exact ⟨holds.1, holds.2.1, ih holds.2.2⟩
  | release lock next ih => exact ⟨holds.1, ih holds.2⟩

theorem wp_gets_bind {project : σ → α} {rest : α → Program σ ℓ ε β}
    {post : β → σ → Finset ℓ → Prop}
    (known : ∀ data, contract.describes data view → project data = project view)
    (holds : wp contract (rest (project view)) view locks post) :
    wp contract (.gets project >>= rest) view locks post := by
  apply wp_bind
  intro data described
  change wp contract (rest (project data)) view locks post
  rw [known data described]
  exact holds

theorem wp_modify_bind {change : σ → σ} {rest : Unit → Program σ ℓ ε β}
    {post : β → σ → Finset ℓ → Prop}
    (respects : ∀ data, contract.describes data view →
      contract.describes (change data) (change view) ∧ contract.keeps data (change data))
    (holds : wp contract (rest ()) (change view) locks post) :
    wp contract (.modify change >>= rest) view locks post :=
  wp_bind ⟨respects, holds⟩

theorem wp_lock_bind {lock : ℓ} {rest : Unit → Program σ ℓ ε β}
    {post : β → σ → Finset ℓ → Prop} (free : lock ∉ locks) (takes : contract.takes lock)
    (holds : wp contract (rest ()) view (insert lock locks) post) :
    wp contract (.lock lock >>= rest) view locks post :=
  wp_bind ⟨free, takes, holds⟩

theorem wp_unlock_bind {lock : ℓ} {rest : Unit → Program σ ℓ ε β}
    {post : β → σ → Finset ℓ → Prop} (drops : contract.drops lock)
    (holds : wp contract (rest ()) view (locks.erase lock) post) :
    wp contract (.unlock lock >>= rest) view locks post :=
  wp_bind ⟨drops, holds⟩

theorem run_of_wp {program : Program σ ℓ ε α} {post : α → σ → Finset ℓ → Prop}
    (known : ∀ view, contract.describes view view)
    (holds : wp contract program view locks post) :
    (∃ value data held, run program (Machine.holding view locks) =
        .returned value (Machine.holding data held) ∧ post value data held) ∨
      ∃ error, run program (Machine.holding view locks) = .failed error ∧
        contract.fails error := by
  induction program generalizing view locks with
  | done value => exact Or.inl ⟨value, view, locks, rfl, holds⟩
  | fail error => exact Or.inr ⟨error, rfl, holds⟩
  | read next ih => exact ih view (holds view (known view))
  | update change next ih => exact ih holds.2
  | acquire lock next ih =>
      have free : (Machine.holding view locks).held lock = false := by
        simp [Machine.holding, holds.1]
      simp only [run, free, Bool.false_eq_true, ↓reduceIte, Machine.take_holding]
      exact ih holds.2.2
  | release lock next ih =>
      simp only [run, Machine.drop_holding]
      exact ih holds.2

theorem keeps_of_wp {program : Program σ ℓ ε α} {post : α → σ → Finset ℓ → Prop}
    (known : ∀ view, contract.describes view view)
    (holds : wp contract program view locks post) :
    ∀ pair ∈ updates program (Machine.holding view locks), contract.keeps pair.1 pair.2 := by
  induction program generalizing view locks with
  | done value => simp [updates]
  | fail error => simp [updates]
  | read next ih => exact ih view (holds view (known view))
  | update change next ih =>
      intro pair member
      rcases List.mem_cons.mp member with rfl | later
      · exact (holds.1 view (known view)).2
      · exact ih holds.2 pair later
  | acquire lock next ih =>
      have free : (Machine.holding view locks).held lock = false := by
        simp [Machine.holding, holds.1]
      simp only [updates, free, Bool.false_eq_true, ↓reduceIte, Machine.take_holding]
      exact ih holds.2.2
  | release lock next ih =>
      simp only [updates, Machine.drop_holding]
      exact ih holds.2

end Wp

/-! ## Cut branches -/

section Cuts

variable {σ ℓ ε α β : Type} {error : ε}

/-- The first program is the second with some of its branches replaced by a failure. -/
inductive Cuts (error : ε) : Program σ ℓ ε α → Program σ ℓ ε α → Prop
  | cut (program : Program σ ℓ ε α) : Cuts error (.fail error) program
  | done (value : α) : Cuts error (.done value) (.done value)
  | fail (other : ε) : Cuts error (.fail other) (.fail other)
  | read {short next : σ → Program σ ℓ ε α} : (∀ data, Cuts error (short data) (next data)) →
      Cuts error (.read short) (.read next)
  | update (change : σ → σ) {short next : Program σ ℓ ε α} : Cuts error short next →
      Cuts error (.update change short) (.update change next)
  | acquire (lock : ℓ) {short next : Program σ ℓ ε α} : Cuts error short next →
      Cuts error (.acquire lock short) (.acquire lock next)
  | release (lock : ℓ) {short next : Program σ ℓ ε α} : Cuts error short next →
      Cuts error (.release lock short) (.release lock next)

theorem Cuts.refl (program : Program σ ℓ ε α) : Cuts error program program := by
  induction program with
  | done value => exact .done value
  | fail other => exact .fail other
  | read next ih => exact .read ih
  | update change next ih => exact .update change ih
  | acquire lock next ih => exact .acquire lock ih
  | release lock next ih => exact .release lock ih

theorem Cuts.bind {short program : Program σ ℓ ε α} {shortRest rest : α → Program σ ℓ ε β}
    (cuts : Cuts error short program)
    (rests : ∀ value, Cuts error (shortRest value) (rest value)) :
    Cuts error (short >>= shortRest) (program >>= rest) := by
  change Cuts error (short.bind shortRest) (program.bind rest)
  induction cuts with
  | cut program => exact .cut _
  | done value => exact rests value
  | fail other => exact .fail other
  | read _ ih => exact .read ih
  | update change _ ih => exact .update change ih
  | acquire lock _ ih => exact .acquire lock ih
  | release lock _ ih => exact .release lock ih

theorem Cuts.after {shortRest rest : α → Program σ ℓ ε β} (program : Program σ ℓ ε α)
    (rests : ∀ value, Cuts error (shortRest value) (rest value)) :
    Cuts error (program >>= shortRest) (program >>= rest) :=
  (Cuts.refl program).bind rests

theorem Cuts.gets_bind {project : σ → α} {shortRest rest : α → Program σ ℓ ε β}
    (rests : ∀ data, Cuts error (shortRest (project data)) (rest (project data))) :
    Cuts error (.gets project >>= shortRest) (.gets project >>= rest) :=
  .read rests

variable [DecidableEq ℓ] {short program : Program σ ℓ ε α} {contract : Contract σ ℓ ε}
  {view : σ} {locks : Finset ℓ} {post : α → σ → Finset ℓ → Prop}

/-- A run that enters no cut branch does not see that it is cut. -/
theorem Cuts.run_eq {machine : Machine σ ℓ} (cuts : Cuts error short program)
    (kept : run short machine ≠ .failed error) : run program machine = run short machine := by
  induction cuts generalizing machine with
  | cut program => exact absurd rfl kept
  | done value => rfl
  | fail other => rfl
  | read _ ih => exact ih machine.data kept
  | update change _ ih => exact ih kept
  | acquire lock _ ih =>
      simp only [run] at kept ⊢
      split
      · rfl
      · next free =>
        rw [if_neg free] at kept
        exact ih kept
  | release lock _ ih => exact ih kept

theorem Cuts.wp_whole (cuts : Cuts error short program) (unable : ¬contract.fails error)
    (holds : wp contract short view locks post) : wp contract program view locks post := by
  induction cuts generalizing view locks with
  | cut program => exact absurd holds unable
  | done value => exact holds
  | fail other => exact holds
  | read _ ih => exact fun data described => ih data (holds data described)
  | update change _ ih => exact ⟨holds.1, ih holds.2⟩
  | acquire lock _ ih => exact ⟨holds.1, holds.2.1, ih holds.2.2⟩
  | release lock _ ih => exact ⟨holds.1, ih holds.2⟩

theorem Cuts.wp_short (cuts : Cuts error short program) (able : contract.fails error)
    (holds : wp contract program view locks post) : wp contract short view locks post := by
  induction cuts generalizing view locks with
  | cut program => exact able
  | done value => exact holds
  | fail other => exact holds
  | read _ ih => exact fun data described => ih data (holds data described)
  | update change _ ih => exact ⟨holds.1, ih holds.2⟩
  | acquire lock _ ih => exact ⟨holds.1, holds.2.1, ih holds.2.2⟩
  | release lock _ ih => exact ⟨holds.1, ih holds.2⟩

end Cuts

end LockProgram
