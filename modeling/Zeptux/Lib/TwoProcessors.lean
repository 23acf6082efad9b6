import Mathlib.Logic.Relation
import Zeptux.Lib.LockProgram

/-!
Two processors that run lock programs on one state. The lock words have no owner;
`owner` is the ghost record of who took them. `never_deadlocked` is the rule for
programs that hold private locks around one section under a big lock: they do not
deadlock if the section takes none of the other program's private locks.
-/

namespace LockProgram

structure Config (σ ℓ ε α : Type) where
  data : σ
  owner : ℓ → Option Bool
  program : Bool → Program σ ℓ ε α

namespace Config

variable {σ ℓ ε α : Type}

def resume (config : Config σ ℓ ε α) (cpu : Bool) (next : Program σ ℓ ε α) : Config σ ℓ ε α :=
  { config with program := Function.update config.program cpu next }

@[simp] theorem resume_self (config : Config σ ℓ ε α) (cpu : Bool) (next : Program σ ℓ ε α) :
    (config.resume cpu next).program cpu = next := by
  simp [resume]

@[simp] theorem resume_other (config : Config σ ℓ ε α) (cpu : Bool) (next : Program σ ℓ ε α) :
    (config.resume cpu next).program (!cpu) = config.program (!cpu) := by
  cases cpu <;> simp [resume]

variable [DecidableEq ℓ]

/-- One step of a processor; `none` if it has finished or spins. -/
def step (cpu : Bool) (config : Config σ ℓ ε α) : Option (Config σ ℓ ε α) :=
  match config.program cpu with
  | .done _ => none
  | .fail _ => none
  | .read next => some (config.resume cpu (next config.data))
  | .update change next => some ({ config with data := change config.data }.resume cpu next)
  | .acquire lock next =>
      if config.owner lock = none then
        some ({ config with owner := Function.update config.owner lock (some cpu) }.resume cpu next)
      else none
  | .release lock next =>
      some ({ config with owner := Function.update config.owner lock none }.resume cpu next)

def Reaches (start config : Config σ ℓ ε α) : Prop :=
  Relation.ReflTransGen (fun before after => ∃ cpu, before.step cpu = some after) start config

def Deadlocked (config : Config σ ℓ ε α) : Prop :=
  ∃ first second, (config.program false).waitingOn = some first ∧
    config.owner first = some true ∧ (config.program true).waitingOn = some second ∧
    config.owner second = some false

/-- Follow a schedule; a processor that cannot move loses its turn. -/
def follow (config : Config σ ℓ ε α) : List Bool → Config σ ℓ ε α
  | [] => config
  | cpu :: schedule => follow ((config.step cpu).getD config) schedule

theorem reaches_follow (start : Config σ ℓ ε α) (schedule : List Bool) :
    Reaches start (start.follow schedule) := by
  induction schedule generalizing start with
  | nil => exact .refl
  | cons cpu schedule ih =>
      have rest := ih ((start.step cpu).getD start)
      cases moved : start.step cpu with
      | none =>
          rw [moved] at rest
          simpa [follow, moved] using rest
      | some next =>
          rw [moved] at rest
          rw [follow, moved]
          exact Relation.ReflTransGen.head ⟨cpu, moved⟩ rest

theorem owner_of_take {owner : ℓ → Option Bool} {lock other : ℓ} {taker cpu : Bool}
    (owned : Function.update owner lock (some taker) other = some cpu) :
    (other = lock ∧ taker = cpu) ∨ owner other = some cpu := by
  by_cases same : other = lock
  · subst other
    rw [Function.update_self] at owned
    exact Or.inl ⟨rfl, Option.some.inj owned⟩
  · rw [Function.update_of_ne same] at owned
    exact Or.inr owned

theorem owner_of_drop {owner : ℓ → Option Bool} {lock other : ℓ} {cpu : Bool}
    (owned : Function.update owner lock none other = some cpu) : owner other = some cpu := by
  by_cases same : other = lock
  · subst other
    rw [Function.update_self] at owned
    cases owned
  · rwa [Function.update_of_ne same] at owned

theorem step_cases {config after : Config σ ℓ ε α} {cpu : Bool}
    (moved : config.step cpu = some after) :
    (∃ next, config.program cpu = .read next ∧
      after = config.resume cpu (next config.data)) ∨
    (∃ change next, config.program cpu = .update change next ∧
      after = { config with data := change config.data }.resume cpu next) ∨
    (∃ lock next, config.program cpu = .acquire lock next ∧ config.owner lock = none ∧
      after = { config with owner := Function.update config.owner lock (some cpu) }.resume cpu
        next) ∨
    (∃ lock next, config.program cpu = .release lock next ∧
      after = { config with owner := Function.update config.owner lock none }.resume cpu next) := by
  unfold step at moved
  split at moved
  · cases moved
  · cases moved
  · rename_i next shape
    cases moved
    exact Or.inl ⟨next, shape, rfl⟩
  · rename_i change next shape
    cases moved
    exact Or.inr (Or.inl ⟨change, next, shape, rfl⟩)
  · rename_i lock next shape
    split at moved
    · rename_i free
      cases moved
      exact Or.inr (Or.inr (Or.inl ⟨lock, next, shape, free, rfl⟩))
    · cases moved
  · rename_i lock next shape
    cases moved
    exact Or.inr (Or.inr (Or.inr ⟨lock, next, shape, rfl⟩))

end Config

/-! ## Sections under a big lock -/

/-- How the state and the locks are divided. `SameOwn cpu` compares the part of the
state private to a processor, `SameShared` the part private to neither. -/
structure Division (σ ℓ : Type) where
  big : ℓ
  own : Bool → ℓ → Prop
  SameOwn : Bool → σ → σ → Prop
  SameShared : σ → σ → Prop
  ownApart : ∀ lock, own false lock → ¬own true lock
  bigShared : ∀ cpu, ¬own cpu big
  ownEquivalence : ∀ cpu, Equivalence (SameOwn cpu)
  sharedEquivalence : Equivalence SameShared

namespace Division

variable {σ ℓ ε α β : Type} [DecidableEq ℓ]

def outer (division : Division σ ℓ) (ε : Type) (cpu : Bool) : Contract σ ℓ ε where
  describes := division.SameOwn cpu
  keeps := fun data changed =>
    division.SameOwn (!cpu) data changed ∧ division.SameShared data changed
  takes := division.own cpu
  drops := fun lock => lock ≠ division.big
  fails := fun _ => True

def inner (division : Division σ ℓ) (ε : Type) (cpu : Bool) : Contract σ ℓ ε where
  describes := fun data view => division.SameOwn cpu data view ∧ division.SameShared data view
  keeps := fun data changed => division.SameOwn (!cpu) data changed
  takes := fun lock => ¬division.own (!cpu) lock
  drops := fun lock => lock ≠ division.big
  fails := fun _ => True

def Final : Program σ ℓ ε α → Prop
  | .done _ => True
  | .fail _ => True
  | .release _ next => Final next
  | _ => False

/-- The rest of a section under the big lock. -/
def Inside (division : Division σ ℓ) (cpu : Bool) : Program σ ℓ ε α → σ → Prop
  | .done _, _ => True
  | .fail _, _ => True
  | .read next, view =>
      ∀ data, (division.inner ε cpu).describes data view → Inside division cpu (next data) view
  | .update change next, view =>
      (∀ data, (division.inner ε cpu).describes data view →
        (division.inner ε cpu).describes (change data) (change view) ∧
          (division.inner ε cpu).keeps data (change data)) ∧
      Inside division cpu next (change view)
  | .acquire lock next, view =>
      (division.inner ε cpu).takes lock ∧ Inside division cpu next view
  | .release lock next, view =>
      if lock = division.big then Final next else Inside division cpu next view

def Outside (division : Division σ ℓ) (cpu : Bool) : Program σ ℓ ε α → σ → Prop
  | .done _, _ => True
  | .fail _, _ => True
  | .read next, view =>
      ∀ data, (division.outer ε cpu).describes data view → Outside division cpu (next data) view
  | .update change next, view =>
      (∀ data, (division.outer ε cpu).describes data view →
        (division.outer ε cpu).describes (change data) (change view) ∧
          (division.outer ε cpu).keeps data (change data)) ∧
      Outside division cpu next (change view)
  | .acquire lock next, view =>
      if lock = division.big then Inside division cpu next view
      else (division.outer ε cpu).takes lock ∧ Outside division cpu next view
  | .release lock next, view => lock ≠ division.big ∧ Outside division cpu next view

section Rules

variable {division : Division σ ℓ} {cpu : Bool} {view : σ} {locks : Finset ℓ}

theorem inside_bind {program : Program σ ℓ ε α} {rest : α → Program σ ℓ ε β}
    (holds : wp (division.inner ε cpu) program view locks fun value view _ =>
      Inside division cpu (rest value) view) :
    Inside division cpu (program >>= rest) view := by
  change Inside division cpu (program.bind rest) view
  induction program generalizing view locks with
  | done value => exact holds
  | fail error => trivial
  | read next ih => exact fun data described => ih data (holds data described)
  | update change next ih => exact ⟨holds.1, ih holds.2⟩
  | acquire lock next ih => exact ⟨holds.2.1, ih holds.2.2⟩
  | release lock next ih =>
      have kept : lock ≠ division.big := holds.1
      simp only [Program.bind, Inside, if_neg kept]
      exact ih holds.2

theorem outside_bind {program : Program σ ℓ ε α} {rest : α → Program σ ℓ ε β}
    (holds : wp (division.outer ε cpu) program view locks fun value view _ =>
      Outside division cpu (rest value) view) :
    Outside division cpu (program >>= rest) view := by
  change Outside division cpu (program.bind rest) view
  induction program generalizing view locks with
  | done value => exact holds
  | fail error => trivial
  | read next ih => exact fun data described => ih data (holds data described)
  | update change next ih => exact ⟨holds.1, ih holds.2⟩
  | acquire lock next ih =>
      have small : lock ≠ division.big := by
        rintro rfl
        exact division.bigShared cpu holds.2.1
      simp only [Program.bind, Outside, if_neg small]
      exact ⟨holds.2.1, ih holds.2.2⟩
  | release lock next ih => exact ⟨holds.1, ih holds.2⟩

theorem outside_gets_bind {project : σ → α} {rest : α → Program σ ℓ ε β}
    (known : ∀ data, (division.outer ε cpu).describes data view → project data = project view)
    (outside : Outside division cpu (rest (project view)) view) :
    Outside division cpu (.gets project >>= rest) view := by
  intro data described
  change Outside division cpu (rest (project data)) view
  rw [known data described]
  exact outside

theorem outside_modify_bind {change : σ → σ} {rest : Unit → Program σ ℓ ε β}
    (respects : ∀ data, (division.outer ε cpu).describes data view →
      (division.outer ε cpu).describes (change data) (change view) ∧
        (division.outer ε cpu).keeps data (change data))
    (outside : Outside division cpu (rest ()) (change view)) :
    Outside division cpu (.modify change >>= rest) view :=
  ⟨respects, outside⟩

theorem outside_lock_big {rest : Unit → Program σ ℓ ε β}
    (inside : Inside division cpu (rest ()) view) :
    Outside division cpu (.lock division.big >>= rest) view := by
  change Outside division cpu (.acquire division.big (rest ())) view
  simp only [Outside, ↓reduceIte]
  exact inside

theorem inside_unlock_big {rest : Unit → Program σ ℓ ε β} (final : Final (rest ())) :
    Inside division cpu (.unlock division.big >>= rest) view := by
  change Inside division cpu (.release division.big (rest ())) view
  simp only [Inside, ↓reduceIte]
  exact final

end Rules

/-! ## The invariant of the interleaving -/

variable {division : Division σ ℓ}

structure BothOutside (division : Division σ ℓ) (config : Config σ ℓ ε α) : Prop where
  outside : ∀ cpu, ∃ view, division.Outside cpu (config.program cpu) view ∧
    division.SameOwn cpu config.data view ∧ division.SameShared config.data view
  held : ∀ cpu lock, config.owner lock = some cpu → division.own cpu lock

structure OneInside (division : Division σ ℓ) (config : Config σ ℓ ε α) (cpu : Bool) : Prop where
  inside : ∃ view, division.Inside cpu (config.program cpu) view ∧
    division.SameOwn cpu config.data view ∧ division.SameShared config.data view
  outside : ∃ view, division.Outside (!cpu) (config.program (!cpu)) view ∧
    division.SameOwn (!cpu) config.data view
  held : ∀ lock, config.owner lock = some (!cpu) → division.own (!cpu) lock
  big : config.owner division.big = some cpu

def Safe (division : Division σ ℓ) (config : Config σ ℓ ε α) : Prop :=
  division.BothOutside config ∨ (∃ cpu, division.OneInside config cpu) ∨
    ∃ cpu, Final (config.program cpu)

theorem final_step {config after : Config σ ℓ ε α} {cpu mover : Bool}
    (final : Final (config.program cpu)) (moved : config.step mover = some after) :
    Final (after.program cpu) := by
  by_cases same : mover = cpu
  · subst mover
    rcases Config.step_cases moved with ⟨next, shape, rfl⟩ | ⟨change, next, shape, rfl⟩ |
      ⟨lock, next, shape, _, rfl⟩ | ⟨lock, next, shape, rfl⟩
    · rw [shape] at final
      exact absurd final id
    · rw [shape] at final
      exact absurd final id
    · rw [shape] at final
      exact absurd final id
    · rw [shape] at final
      rw [Config.resume_self]
      exact final
  · have other : cpu = !mover := by cases cpu <;> cases mover <;> simp_all
    subst cpu
    rcases Config.step_cases moved with ⟨next, _, rfl⟩ | ⟨change, next, _, rfl⟩ |
      ⟨lock, next, _, _, rfl⟩ | ⟨lock, next, _, rfl⟩ <;>
      rw [Config.resume_other] <;> exact final

theorem OneInside.step_inside {config after : Config σ ℓ ε α} {cpu : Bool}
    (one : division.OneInside config cpu) (moved : config.step cpu = some after) :
    division.OneInside after cpu ∨ Final (after.program cpu) := by
  obtain ⟨view, inside, own, shared⟩ := one.inside
  obtain ⟨otherView, outside, otherOwn⟩ := one.outside
  have equivalence := division.ownEquivalence (!cpu)
  rcases Config.step_cases moved with ⟨next, shape, rfl⟩ | ⟨change, next, shape, rfl⟩ |
    ⟨lock, next, shape, free, rfl⟩ | ⟨lock, next, shape, rfl⟩
  · rw [shape] at inside
    refine Or.inl ⟨⟨view, ?_, own, shared⟩, ⟨otherView, ?_, otherOwn⟩, one.held, one.big⟩
    · rw [Config.resume_self]
      exact inside config.data ⟨own, shared⟩
    · rw [Config.resume_other]
      exact outside
  · rw [shape] at inside
    have changed := inside.1 config.data ⟨own, shared⟩
    refine Or.inl ⟨⟨change view, ?_, changed.1⟩, ⟨otherView, ?_, ?_⟩, one.held, one.big⟩
    · rw [Config.resume_self]
      exact inside.2
    · rw [Config.resume_other]
      exact outside
    · exact equivalence.trans (equivalence.symm changed.2) otherOwn
  · rw [shape] at inside
    refine Or.inl ⟨⟨view, ?_, own, shared⟩, ⟨otherView, ?_, otherOwn⟩, ?_, ?_⟩
    · rw [Config.resume_self]
      exact inside.2
    · rw [Config.resume_other]
      exact outside
    · intro other owned
      rcases Config.owner_of_take owned with ⟨_, wrong⟩ | old
      · cases cpu <;> simp at wrong
      · exact one.held other old
    · have different : division.big ≠ lock := by
        rintro rfl
        rw [one.big] at free
        cases free
      exact (Function.update_of_ne different _ _).trans one.big
  · rw [shape] at inside
    by_cases big : lock = division.big
    · simp only [Inside, big, ↓reduceIte] at inside
      rw [Config.resume_self]
      exact Or.inr inside
    · simp only [Inside, big, ↓reduceIte] at inside
      refine Or.inl ⟨⟨view, ?_, own, shared⟩, ⟨otherView, ?_, otherOwn⟩, ?_, ?_⟩
      · rw [Config.resume_self]
        exact inside
      · rw [Config.resume_other]
        exact outside
      · exact fun other owned => one.held other (Config.owner_of_drop owned)
      · exact (Function.update_of_ne (fun same => big same.symm) _ _).trans one.big

theorem OneInside.step_outside {config after : Config σ ℓ ε α} {cpu : Bool}
    (one : division.OneInside config cpu) (moved : config.step (!cpu) = some after) :
    division.OneInside after cpu := by
  obtain ⟨view, inside, own, shared⟩ := one.inside
  obtain ⟨otherView, outside, otherOwn⟩ := one.outside
  have self : ∀ (config : Config σ ℓ ε α) next,
      (config.resume (!cpu) next).program cpu = config.program cpu := by
    intro config next
    have other := config.resume_other (!cpu) next
    rwa [Bool.not_not] at other
  rcases Config.step_cases moved with ⟨next, shape, rfl⟩ | ⟨change, next, shape, rfl⟩ |
    ⟨lock, next, shape, free, rfl⟩ | ⟨lock, next, shape, rfl⟩
  · rw [shape] at outside
    refine ⟨⟨view, ?_, own, shared⟩, ⟨otherView, ?_, otherOwn⟩, one.held, one.big⟩
    · rw [self]
      exact inside
    · rw [Config.resume_self]
      exact outside config.data otherOwn
  · rw [shape] at outside
    have changed := outside.1 config.data otherOwn
    have keeps := changed.2
    simp only [outer, Bool.not_not] at keeps
    have equivalence := division.ownEquivalence cpu
    have sharedEquivalence := division.sharedEquivalence
    refine ⟨⟨view, ?_, ?_, ?_⟩, ⟨change otherView, ?_, changed.1⟩, one.held, one.big⟩
    · rw [self]
      exact inside
    · exact equivalence.trans (equivalence.symm keeps.1) own
    · exact sharedEquivalence.trans (sharedEquivalence.symm keeps.2) shared
    · rw [Config.resume_self]
      exact outside.2
  · rw [shape] at outside
    have different : lock ≠ division.big := by
      rintro rfl
      rw [one.big] at free
      cases free
    simp only [Outside, if_neg different] at outside
    refine ⟨⟨view, ?_, own, shared⟩, ⟨otherView, ?_, otherOwn⟩, ?_, ?_⟩
    · rw [self]
      exact inside
    · rw [Config.resume_self]
      exact outside.2
    · intro other owned
      rcases Config.owner_of_take owned with ⟨rfl, _⟩ | old
      · exact outside.1
      · exact one.held other old
    · exact (Function.update_of_ne different.symm _ _).trans one.big
  · rw [shape] at outside
    refine ⟨⟨view, ?_, own, shared⟩, ⟨otherView, ?_, otherOwn⟩, ?_, ?_⟩
    · rw [self]
      exact inside
    · rw [Config.resume_self]
      exact outside.2
    · exact fun other owned => one.held other (Config.owner_of_drop owned)
    · exact (Function.update_of_ne outside.1.symm _ _).trans one.big

theorem BothOutside.step {config after : Config σ ℓ ε α} {cpu : Bool}
    (both : division.BothOutside config) (moved : config.step cpu = some after) :
    division.BothOutside after ∨ division.OneInside after cpu := by
  obtain ⟨view, outside, own, shared⟩ := both.outside cpu
  obtain ⟨otherView, otherOutside, otherOwn, otherShared⟩ := both.outside (!cpu)
  -- Every step but taking the big lock leaves both outside; `join` puts the two halves together.
  have join : ∀ after : Config σ ℓ ε α,
      (∃ view, division.Outside cpu (after.program cpu) view ∧
        division.SameOwn cpu after.data view ∧ division.SameShared after.data view) →
      (∃ view, division.Outside (!cpu) (after.program (!cpu)) view ∧
        division.SameOwn (!cpu) after.data view ∧ division.SameShared after.data view) →
      (∀ other lock, after.owner lock = some other → division.own other lock) →
      division.BothOutside after := by
    intro after mine others held
    refine ⟨?_, held⟩
    intro other
    by_cases same : other = cpu
    · subst other
      exact mine
    · have negation : other = !cpu := by cases cpu <;> cases other <;> simp_all
      subst other
      exact others
  rcases Config.step_cases moved with ⟨next, shape, rfl⟩ | ⟨change, next, shape, rfl⟩ |
    ⟨lock, next, shape, free, rfl⟩ | ⟨lock, next, shape, rfl⟩
  · rw [shape] at outside
    refine Or.inl (join _ ⟨view, ?_, own, shared⟩ ⟨otherView, ?_, otherOwn, otherShared⟩ both.held)
    · rw [Config.resume_self]
      exact outside config.data own
    · rw [Config.resume_other]
      exact otherOutside
  · rw [shape] at outside
    have equivalence := division.ownEquivalence (!cpu)
    have sharedEquivalence := division.sharedEquivalence
    have changed := outside.1 config.data own
    have viewKept := (outside.1 view ((division.ownEquivalence cpu).refl view)).2
    refine Or.inl (join _ ⟨change view, ?_, changed.1, ?_⟩ ⟨otherView, ?_, ?_, ?_⟩ both.held)
    · rw [Config.resume_self]
      exact outside.2
    · exact sharedEquivalence.trans (sharedEquivalence.symm changed.2.2)
        (sharedEquivalence.trans shared viewKept.2)
    · rw [Config.resume_other]
      exact otherOutside
    · exact equivalence.trans (equivalence.symm changed.2.1) otherOwn
    · exact sharedEquivalence.trans (sharedEquivalence.symm changed.2.2) otherShared
  · rw [shape] at outside
    by_cases big : lock = division.big
    · simp only [Outside, big, ↓reduceIte] at outside
      refine Or.inr ⟨⟨view, ?_, own, shared⟩, ⟨otherView, ?_, otherOwn⟩, ?_, ?_⟩
      · rw [Config.resume_self]
        exact outside
      · rw [Config.resume_other]
        exact otherOutside
      · intro other owned
        rcases Config.owner_of_take owned with ⟨_, wrong⟩ | old
        · cases cpu <;> simp at wrong
        · exact both.held _ other old
      · subst big
        exact Function.update_self _ _ _
    · simp only [Outside, if_neg big] at outside
      refine Or.inl (join _ ⟨view, ?_, own, shared⟩ ⟨otherView, ?_, otherOwn, otherShared⟩ ?_)
      · rw [Config.resume_self]
        exact outside.2
      · rw [Config.resume_other]
        exact otherOutside
      · intro taker other owned
        rcases Config.owner_of_take owned with ⟨rfl, rfl⟩ | old
        · exact outside.1
        · exact both.held taker other old
  · rw [shape] at outside
    refine Or.inl (join _ ⟨view, ?_, own, shared⟩ ⟨otherView, ?_, otherOwn, otherShared⟩ ?_)
    · rw [Config.resume_self]
      exact outside.2
    · rw [Config.resume_other]
      exact otherOutside
    · exact fun taker other owned => both.held taker other (Config.owner_of_drop owned)

theorem Safe.step {config after : Config σ ℓ ε α} {cpu : Bool} (safe : division.Safe config)
    (moved : config.step cpu = some after) : division.Safe after := by
  rcases safe with both | ⟨insider, one⟩ | ⟨finished, final⟩
  · rcases both.step moved with still | one
    · exact Or.inl still
    · exact Or.inr (Or.inl ⟨cpu, one⟩)
  · by_cases same : cpu = insider
    · subst cpu
      rcases one.step_inside moved with still | final
      · exact Or.inr (Or.inl ⟨insider, still⟩)
      · exact Or.inr (Or.inr ⟨insider, final⟩)
    · have other : cpu = !insider := by cases cpu <;> cases insider <;> simp_all
      subst cpu
      exact Or.inr (Or.inl ⟨insider, one.step_outside moved⟩)
  · exact Or.inr (Or.inr ⟨finished, final_step final moved⟩)

omit [DecidableEq ℓ] in
theorem Final.not_waiting {program : Program σ ℓ ε α} (final : Final program) :
    program.waitingOn = none := by
  cases program with
  | acquire lock next => exact absurd final id
  | _ => rfl

theorem Outside.waiting {program : Program σ ℓ ε α} {cpu : Bool} {view : σ} {lock : ℓ}
    (outside : division.Outside cpu program view) (waits : program.waitingOn = some lock) :
    lock = division.big ∨ division.own cpu lock := by
  cases program with
  | acquire other next =>
      cases waits
      by_cases big : lock = division.big
      · exact Or.inl big
      · simp only [Outside, if_neg big] at outside
        exact Or.inr outside.1
  | _ => cases waits

theorem Inside.waiting {program : Program σ ℓ ε α} {cpu : Bool} {view : σ} {lock : ℓ}
    (inside : division.Inside cpu program view) (waits : program.waitingOn = some lock) :
    ¬division.own (!cpu) lock := by
  cases program with
  | acquire other next =>
      cases waits
      exact inside.1
  | _ => cases waits

theorem Safe.not_deadlocked {config : Config σ ℓ ε α} (safe : division.Safe config) :
    ¬config.Deadlocked := by
  rintro ⟨first, second, firstWaits, firstOwner, secondWaits, secondOwner⟩
  -- The same facts for a processor given by its number.
  have waits : ∀ cpu, ∃ lock, (config.program cpu).waitingOn = some lock ∧
      config.owner lock = some (!cpu) := by
    intro cpu
    cases cpu with
    | false => exact ⟨first, firstWaits, firstOwner⟩
    | true => exact ⟨second, secondWaits, secondOwner⟩
  rcases safe with both | ⟨cpu, one⟩ | ⟨cpu, final⟩
  · obtain ⟨view, outside, _⟩ := both.outside false
    have held := both.held true first firstOwner
    rcases outside.waiting firstWaits with rfl | own
    · exact division.bigShared true held
    · exact division.ownApart first own held
  · obtain ⟨lock, cpuWaits, owner⟩ := waits cpu
    obtain ⟨view, inside, _⟩ := one.inside
    exact inside.waiting cpuWaits (one.held lock owner)
  · obtain ⟨lock, cpuWaits, _⟩ := waits cpu
    rw [final.not_waiting] at cpuWaits
    cases cpuWaits

theorem never_deadlocked {start config : Config σ ℓ ε α}
    (outside : ∀ cpu, division.Outside cpu (start.program cpu) start.data)
    (free : ∀ lock, start.owner lock = none) (reaches : start.Reaches config) :
    ¬config.Deadlocked := by
  have initial : division.Safe start := by
    refine Or.inl ⟨fun cpu => ⟨start.data, outside cpu, ?_, ?_⟩, ?_⟩
    · exact (division.ownEquivalence cpu).refl _
    · exact division.sharedEquivalence.refl _
    · intro cpu lock owned
      rw [free lock] at owned
      cases owned
  have safe : division.Safe config := by
    induction reaches with
    | refl => exact initial
    | tail _ moved ih =>
        obtain ⟨cpu, moved⟩ := moved
        exact ih.step moved
  exact safe.not_deadlocked

end Division

end LockProgram
