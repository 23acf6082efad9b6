import Zeptux.Lib.Processors

/-!
Programs whose every access to the state lies in a section of one lock. Whatever the
interleaving, the sections that have ended ran one after another, each by itself.
-/

namespace LockProgram

inductive Session (σ ℓ ε β α : Type) : Type
  | done (value : α)
  | fail (error : ε)
  | critical (body : Program σ ℓ ε β) (rest : β → Session σ ℓ ε β α)

section Sessions

variable {π σ ℓ ε β α : Type} [DecidableEq ℓ]

def Session.program (big : ℓ) : Session σ ℓ ε β α → Program σ ℓ ε α
  | .done value => .done value
  | .fail error => .fail error
  | .critical body rest =>
      .acquire big (body.bind fun value => .release big ((rest value).program big))

def Avoids (big : ℓ) : Program σ ℓ ε α → Prop
  | .done _ => True
  | .fail _ => True
  | .read next => ∀ data, Avoids big (next data)
  | .update _ next => Avoids big next
  | .acquire lock next => lock ≠ big ∧ Avoids big next
  | .release lock next => lock ≠ big ∧ Avoids big next

omit [DecidableEq ℓ] in
theorem avoids_bind {γ : Type} {big : ℓ} {program : Program σ ℓ ε α}
    {rest : α → Program σ ℓ ε γ} (first : Avoids big program)
    (second : ∀ value, Avoids big (rest value)) : Avoids big (program >>= rest) := by
  change Avoids big (program.bind rest)
  induction program with
  | done value => exact second value
  | fail error => trivial
  | read next ih => exact fun data => ih data (first data)
  | update change next ih => exact ih first
  | acquire lock next ih => exact ⟨first.1, ih first.2⟩
  | release lock next ih => exact ⟨first.1, ih first.2⟩

section Avoids

variable {big lock : ℓ}

omit [DecidableEq ℓ]

@[simp] theorem avoids_pure (value : α) : Avoids big (pure value : Program σ ℓ ε α) := trivial

@[simp] theorem avoids_gets (view : σ → α) :
    Avoids big (.gets view : Program σ ℓ ε α) := fun _ => trivial

@[simp] theorem avoids_modify (change : σ → σ) :
    Avoids big (.modify change : Program σ ℓ ε Unit) := trivial

@[simp] theorem avoids_throw (error : ε) : Avoids big (.throw error : Program σ ℓ ε α) := trivial

@[simp] theorem avoids_lock : Avoids big (.lock lock : Program σ ℓ ε Unit) ↔ lock ≠ big :=
  and_iff_left trivial

@[simp] theorem avoids_unlock : Avoids big (.unlock lock : Program σ ℓ ε Unit) ↔ lock ≠ big :=
  and_iff_left trivial

end Avoids

/-- A program that avoids the lock may run inside a section of it and outside. -/
theorem Avoids.brackets {big : ℓ} {program : Program σ ℓ ε α} (avoids : Avoids big program)
    {inside : Bool} {post : α → Bool → Prop} (holds : ∀ value, post value inside) :
    Brackets big program inside post := by
  induction program with
  | done value => exact holds value
  | fail error => trivial
  | read next ih => exact fun data => ih data (avoids data)
  | update change next ih => exact ih avoids
  | acquire lock next ih => simpa [Brackets, avoids.1] using ih avoids.2
  | release lock next ih => simpa [Brackets, avoids.1] using ih avoids.2

section Brackets

variable {lock : ℓ} {inside : Bool} {post : β → Bool → Prop}

omit [DecidableEq ℓ] in
theorem brackets_avoids_bind [DecidableEq ℓ] {program : Program σ ℓ ε α}
    {rest : α → Program σ ℓ ε β} (avoids : LockProgram.Avoids lock program)
    (brackets : ∀ value, Brackets lock (rest value) inside post) :
    Brackets lock (program >>= rest) inside post :=
  brackets_bind (avoids.brackets brackets)

theorem brackets_lock_bind {rest : Unit → Program σ ℓ ε β}
    (brackets : Brackets lock (rest ()) true post) :
    Brackets lock (.lock lock >>= rest) false post := by
  change Brackets lock (.acquire lock (rest ())) false post
  simpa [Brackets] using brackets

theorem brackets_unlock_bind {rest : Unit → Program σ ℓ ε β}
    (brackets : Brackets lock (rest ()) false post) :
    Brackets lock (.unlock lock >>= rest) true post := by
  change Brackets lock (.release lock (rest ())) true post
  simpa [Brackets] using brackets

end Brackets

def Session.Avoids (big : ℓ) : Session σ ℓ ε β α → Prop
  | .done _ => True
  | .fail _ => True
  | .critical body rest => LockProgram.Avoids big body ∧ ∀ value, (rest value).Avoids big

variable [DecidableEq π]

/-- The processors take turns, each of one section. The history is who ran and what the
section returned. -/
inductive Serial (big : ℓ) (start : Machine σ ℓ) (sessions : π → Session σ ℓ ε β α) :
    List (π × β) → Machine σ ℓ → (π → Session σ ℓ ε β α) → Prop
  | refl : Serial big start sessions [] start sessions
  | turn {history before now cpu body rest value after} :
      Serial big start sessions history before now → now cpu = .critical body rest →
      run body (before.take big) = .returned value after →
      Serial big start sessions (history ++ [(cpu, value)]) (after.drop big)
        (Function.update now cpu (rest value))

/-! ## The invariant of the interleaving -/

structure Quiet (big : ℓ) (machine : Machine σ ℓ) (now : π → Session σ ℓ ε β α)
    (system : System π σ ℓ ε α Bool Unit) : Prop where
  data : system.data = machine.data
  word : system.word = machine.held
  holds : ∀ cpu, system.holds cpu big = false
  program : ∀ cpu, system.program cpu = (now cpu).program big

/-- One processor is in a section, and on its way to where the section takes it alone. -/
structure Busy (big : ℓ) (machine : Machine σ ℓ) (now : π → Session σ ℓ ε β α) (cpu : π)
    (body inner : Program σ ℓ ε β) (rest : β → Session σ ℓ ε β α)
    (system : System π σ ℓ ε α Bool Unit) : Prop where
  session : now cpu = .critical body rest
  avoids : Avoids big inner
  word : system.word big = true
  holds : ∀ other, system.holds other big = true ↔ other = cpu
  outcome : run inner ⟨system.data, system.word⟩ = run body (machine.take big)
  program : system.program cpu = inner.bind fun value => .release big ((rest value).program big)
  others : ∀ other, other ≠ cpu → system.program other = (now other).program big

def Serialised (big : ℓ) (start : Machine σ ℓ) (sessions : π → Session σ ℓ ε β α)
    (system : System π σ ℓ ε α Bool Unit) : Prop :=
  ∃ history machine now, Serial big start sessions history machine now ∧
    machine.held big = false ∧ (∀ cpu, (now cpu).Avoids big) ∧
    (Quiet big machine now system ∨ ∃ cpu body inner rest,
      Busy big machine now cpu body inner rest system)

section Step

variable {big : ℓ} {start machine : Machine σ ℓ} {sessions now : π → Session σ ℓ ε β α}
  {system : System π σ ℓ ε α Bool Unit} {cpu mover : π} {body inner : Program σ ℓ ε β}
  {rest : β → Session σ ℓ ε β α}

theorem Quiet.step (quiet : Quiet big machine now system) (free : machine.held big = false)
    (avoids : (now mover).Avoids big) :
    Quiet big machine now (system.step atomicLock mover) ∨ ∃ body inner rest,
      Busy big machine now mover body inner rest (system.step atomicLock mover) := by
  have shape := quiet.program mover
  cases session : now mover with
  | done value =>
      rw [session] at shape
      rw [System.step_finished (by rw [shape]; rfl)]
      exact Or.inl quiet
  | fail error =>
      rw [session] at shape
      rw [System.step_finished (by rw [shape]; rfl)]
      exact Or.inl quiet
  | critical body rest =>
      rw [session] at shape avoids
      have access : atomicLock.acquire (system.point mover) (system.word big) = (true, none) := by
        simp [atomicLock, quiet.word, free]
      rw [System.step_enter shape access]
      refine Or.inr ⟨body, body, rest, session, avoids.1, ?_, fun other => ?_, ?_, ?_,
        fun other different => ?_⟩
      · simp [System.resume, System.setHolds, System.setPoint, System.setWord]
      · change (((system.setWord big true).setPoint mover ()).setHolds mover big true).holds other
          big = true ↔ _
        rw [holds_setHolds]
        by_cases same : other = mover
        · simp [same]
        · simpa [same, System.setPoint, System.setWord] using quiet.holds other
      · simp [System.resume, System.setHolds, System.setPoint, System.setWord, quiet.data,
          quiet.word, Machine.take]
      · simp [System.resume, System.setHolds, System.setPoint, System.setWord]
      · simpa [System.resume, System.setHolds, System.setPoint, System.setWord, different] using
          quiet.program other

theorem Busy.step_other (busy : Busy big machine now cpu body inner rest system)
    (different : mover ≠ cpu) : system.step atomicLock mover = system := by
  have shape := busy.others mover different
  cases session : now mover with
  | done value =>
      rw [session] at shape
      exact System.step_finished (by rw [shape]; rfl)
  | fail error =>
      rw [session] at shape
      exact System.step_finished (by rw [shape]; rfl)
  | critical body rest =>
      rw [session] at shape
      exact step_busy shape busy.word

theorem Busy.resume (busy : Busy big machine now cpu body inner rest system)
    (after : System π σ ℓ ε α Bool Unit) {next : Program σ ℓ ε β}
    (avoids : Avoids big next) (word : after.word big = true)
    (holds : ∀ other, after.holds other big = system.holds other big)
    (same : run next ⟨after.data, after.word⟩ = run inner ⟨system.data, system.word⟩)
    (programs : after.program = system.program) :
    Busy big machine now cpu body next rest
      (after.resume cpu (next.bind fun value => .release big ((rest value).program big))) := by
  refine ⟨busy.session, avoids, word, fun other => ?_, same.trans busy.outcome, ?_,
    fun other different => ?_⟩
  · rw [← busy.holds other, ← holds other]
    rfl
  · simp [System.resume]
  · simpa [System.resume, different, programs] using busy.others other different

theorem Busy.step_own (busy : Busy big machine now cpu body inner rest system) :
    (∃ inner, Busy big machine now cpu body inner rest (system.step atomicLock cpu)) ∨
      ∃ value after, run body (machine.take big) = .returned value after ∧
        Quiet big (after.drop big) (Function.update now cpu (rest value))
          (system.step atomicLock cpu) := by
  have shape := busy.program
  have avoids := busy.avoids
  have runs := busy.outcome
  cases inner with
  | done value =>
      rw [System.step_release shape]
      refine Or.inr ⟨value, ⟨system.data, system.word⟩, runs.symm, rfl, rfl, fun other => ?_,
        fun other => ?_⟩
      · change ((system.setWord big _).setHolds cpu big false).holds other big = false
        rw [holds_setHolds]
        by_cases same : other = cpu
        · simp [same]
        · rw [if_neg fun both => same both.1, ← Bool.not_eq_true]
          exact fun held => same ((busy.holds other).mp held)
      · by_cases same : other = cpu
        · subst other
          simp [System.resume]
        · simpa [System.resume, System.setHolds, System.setWord, same] using
            busy.others other same
  | fail error =>
      rw [System.step_finished (by rw [shape]; rfl)]
      exact Or.inl ⟨_, busy⟩
  | read next =>
      rw [System.step_read shape]
      exact Or.inl ⟨next system.data, busy.resume system (avoids system.data) busy.word (fun _ => rfl) rfl
        rfl⟩
  | update change next =>
      rw [System.step_update shape]
      exact Or.inl ⟨next, busy.resume { system with data := change system.data } avoids busy.word
        (fun _ => rfl) rfl rfl⟩
  | acquire lock next =>
      cases held : system.word lock with
      | true =>
          rw [step_busy shape held]
          exact Or.inl ⟨_, busy⟩
      | false =>
          have access : atomicLock.acquire (system.point cpu) (system.word lock) =
              (true, none) := by
            simp [atomicLock, held]
          have apart : big ≠ lock := fun same => avoids.1 same.symm
          rw [System.step_enter shape access]
          refine Or.inl ⟨next, busy.resume (((system.setWord lock true).setPoint cpu
            atomicLock.entry).setHolds cpu lock true) avoids.2 ?_ (fun other => ?_) ?_ rfl⟩
          · simpa [System.setHolds, System.setPoint, System.setWord, apart] using busy.word
          · rw [holds_setHolds, if_neg fun both => apart both.2]
            rfl
          · simp [run, held, Machine.take, System.setHolds, System.setPoint, System.setWord]
  | release lock next =>
      have apart : big ≠ lock := fun same => avoids.1 same.symm
      rw [System.step_release shape]
      refine Or.inl ⟨next, busy.resume ((system.setWord lock
        (atomicLock.release (system.word lock))).setHolds cpu lock false) avoids.2 ?_
        (fun other => ?_) rfl rfl⟩
      · simpa [System.setHolds, System.setWord, apart] using busy.word
      · rw [holds_setHolds, if_neg fun both => apart both.2]
        rfl

theorem Serialised.step (serialised : Serialised big start sessions system) (cpu : π) :
    Serialised big start sessions (system.step atomicLock cpu) := by
  obtain ⟨history, machine, now, serial, free, avoids, quiet | ⟨owner, body, inner, rest, busy⟩⟩ :=
    serialised
  · exact ⟨history, machine, now, serial, free, avoids, (quiet.step free (avoids cpu)).imp_right
      fun entered => ⟨cpu, entered⟩⟩
  · by_cases same : cpu = owner
    · subst cpu
      rcases busy.step_own with ⟨inner, still⟩ | ⟨value, after, returned, quiet⟩
      · exact ⟨history, machine, now, serial, free, avoids, Or.inr ⟨owner, body, inner, rest,
          still⟩⟩
      · refine ⟨_, _, _, serial.turn busy.session returned, by simp [Machine.drop], ?_,
          Or.inl quiet⟩
        intro other
        by_cases same : other = owner
        · subst other
          have own := avoids owner
          rw [busy.session] at own
          simpa using own.2 value
        · simpa [same] using avoids other
    · rw [busy.step_other same]
      exact ⟨history, machine, now, serial, free, avoids, Or.inr ⟨owner, body, inner, rest, busy⟩⟩

end Step

theorem serialised {big : ℓ} (data : σ) {sessions : π → Session σ ℓ ε β α}
    (avoids : ∀ cpu, (sessions cpu).Avoids big) (schedule : List π) :
    Serialised big ⟨data, fun _ => false⟩ sessions ((System.start atomicLock data fun cpu =>
      (sessions cpu).program big).follow atomicLock schedule) := by
  apply System.follow_holds
  · exact fun system cpu serialised => serialised.step cpu
  · exact ⟨[], _, sessions, .refl, rfl, avoids, Or.inl ⟨rfl, rfl, fun _ => rfl,
      fun _ => rfl⟩⟩

end Sessions

end LockProgram
