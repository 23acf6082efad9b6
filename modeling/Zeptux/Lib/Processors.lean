import Zeptux.Lib.LockProgram

/-!
Any number of processors that run lock programs. How a lock is taken is left to a
`LockCode`, which makes one atomic access of the lock word at a time. A code that
`Implements` locks lets the programs do exactly what they do with locks that are taken
in one step, and keeps two processors out of the sections of one lock.
-/

namespace LockProgram

/-- `acquire point word` is the access made at `point`: what it leaves in the word, and
where it goes on; `none` if it has taken the lock. -/
structure LockCode (ω κ : Type) where
  free : ω
  entry : κ
  acquire : κ → ω → ω × Option κ
  release : ω → ω

/-- The lock that a processor takes in one access if it is free. -/
def atomicLock : LockCode Bool Unit where
  free := false
  entry := ()
  acquire := fun _ word => (true, if word then some () else none)
  release := fun _ => false

/-- `holds` records, for each processor, the locks it has taken and not given back since. -/
structure System (π σ ℓ ε α ω κ : Type) where
  data : σ
  word : ℓ → ω
  point : π → κ
  holds : π → ℓ → Bool
  program : π → Program σ ℓ ε α

def Program.finished {σ ℓ ε α : Type} : Program σ ℓ ε α → Bool
  | .done _ => true
  | .fail _ => true
  | _ => false

namespace System

variable {π σ ℓ ε α ω κ : Type}

def start (code : LockCode ω κ) (data : σ) (program : π → Program σ ℓ ε α) :
    System π σ ℓ ε α ω κ :=
  ⟨data, fun _ => code.free, fun _ => code.entry, fun _ _ => false, program⟩

variable [DecidableEq π] [DecidableEq ℓ]

def resume (system : System π σ ℓ ε α ω κ) (cpu : π) (next : Program σ ℓ ε α) :
    System π σ ℓ ε α ω κ :=
  { system with program := Function.update system.program cpu next }

def setWord (system : System π σ ℓ ε α ω κ) (lock : ℓ) (word : ω) : System π σ ℓ ε α ω κ :=
  { system with word := Function.update system.word lock word }

def setPoint (system : System π σ ℓ ε α ω κ) (cpu : π) (point : κ) : System π σ ℓ ε α ω κ :=
  { system with point := Function.update system.point cpu point }

def setHolds (system : System π σ ℓ ε α ω κ) (cpu : π) (lock : ℓ) (holds : Bool) :
    System π σ ℓ ε α ω κ :=
  { system with
    holds := Function.update system.holds cpu (Function.update (system.holds cpu) lock holds) }

/-- One step of a processor. One that has finished stays where it is. -/
def step (code : LockCode ω κ) (cpu : π) (system : System π σ ℓ ε α ω κ) :
    System π σ ℓ ε α ω κ :=
  match system.program cpu with
  | .done _ => system
  | .fail _ => system
  | .read next => system.resume cpu (next system.data)
  | .update change next => { system with data := change system.data }.resume cpu next
  | .acquire lock next =>
      let accessed := code.acquire (system.point cpu) (system.word lock)
      match accessed.2 with
      | none => (((system.setWord lock accessed.1).setPoint cpu code.entry).setHolds cpu lock
          true).resume cpu next
      | some point => (system.setWord lock accessed.1).setPoint cpu point
  | .release lock next =>
      ((system.setWord lock (code.release (system.word lock))).setHolds cpu lock false).resume cpu
        next

def follow (code : LockCode ω κ) (system : System π σ ℓ ε α ω κ) (schedule : List π) :
    System π σ ℓ ε α ω κ :=
  schedule.foldl (fun system cpu => system.step code cpu) system

section Step

variable {code : LockCode ω κ} {cpu : π} {system : System π σ ℓ ε α ω κ}

theorem step_finished (finished : (system.program cpu).finished = true) :
    system.step code cpu = system := by
  cases shape : system.program cpu with
  | done value => simp [step, shape]
  | fail error => simp [step, shape]
  | _ => simp [shape, Program.finished] at finished

theorem step_read {next : σ → Program σ ℓ ε α} (shape : system.program cpu = .read next) :
    system.step code cpu = system.resume cpu (next system.data) := by
  simp [step, shape]

theorem step_update {change : σ → σ} {next : Program σ ℓ ε α}
    (shape : system.program cpu = .update change next) :
    system.step code cpu = { system with data := change system.data }.resume cpu next := by
  simp [step, shape]

theorem step_enter {lock : ℓ} {next : Program σ ℓ ε α} {word : ω}
    (shape : system.program cpu = .acquire lock next)
    (access : code.acquire (system.point cpu) (system.word lock) = (word, none)) :
    system.step code cpu = (((system.setWord lock word).setPoint cpu code.entry).setHolds cpu
      lock true).resume cpu next := by
  simp [step, shape, access]

theorem step_spin {lock : ℓ} {next : Program σ ℓ ε α} {word : ω} {point : κ}
    (shape : system.program cpu = .acquire lock next)
    (access : code.acquire (system.point cpu) (system.word lock) = (word, some point)) :
    system.step code cpu = (system.setWord lock word).setPoint cpu point := by
  simp [step, shape, access]

theorem step_release {lock : ℓ} {next : Program σ ℓ ε α}
    (shape : system.program cpu = .release lock next) :
    system.step code cpu = ((system.setWord lock (code.release (system.word lock))).setHolds cpu
      lock false).resume cpu next := by
  simp [step, shape]

end Step

inductive Moves (code : LockCode ω κ) (cpu : π) (system : System π σ ℓ ε α ω κ) :
    System π σ ℓ ε α ω κ → Prop
  | finished : (system.program cpu).finished = true → Moves code cpu system system
  | read {next} : system.program cpu = .read next →
      Moves code cpu system (system.resume cpu (next system.data))
  | update {change next} : system.program cpu = .update change next →
      Moves code cpu system ({ system with data := change system.data }.resume cpu next)
  | enter {lock next word} : system.program cpu = .acquire lock next →
      code.acquire (system.point cpu) (system.word lock) = (word, none) →
      Moves code cpu system ((((system.setWord lock word).setPoint cpu code.entry).setHolds cpu
        lock true).resume cpu next)
  | spin {lock next word point} : system.program cpu = .acquire lock next →
      code.acquire (system.point cpu) (system.word lock) = (word, some point) →
      Moves code cpu system ((system.setWord lock word).setPoint cpu point)
  | release {lock next} : system.program cpu = .release lock next →
      Moves code cpu system (((system.setWord lock
        (code.release (system.word lock))).setHolds cpu lock false).resume cpu next)

theorem step_moves (code : LockCode ω κ) (cpu : π) (system : System π σ ℓ ε α ω κ) :
    Moves code cpu system (system.step code cpu) := by
  cases shape : system.program cpu with
  | done value =>
      have finished : (system.program cpu).finished = true := by simp [shape, Program.finished]
      rw [step_finished finished]
      exact .finished finished
  | fail error =>
      have finished : (system.program cpu).finished = true := by simp [shape, Program.finished]
      rw [step_finished finished]
      exact .finished finished
  | read next =>
      rw [step_read shape]
      exact .read shape
  | update change next =>
      rw [step_update shape]
      exact .update shape
  | acquire lock next =>
      cases access : code.acquire (system.point cpu) (system.word lock) with
      | mk word rest =>
          cases rest with
          | none =>
              rw [step_enter shape access]
              exact .enter shape access
          | some point =>
              rw [step_spin shape access]
              exact .spin shape access
  | release lock next =>
      rw [step_release shape]
      exact .release shape

theorem follow_append (code : LockCode ω κ) (system : System π σ ℓ ε α ω κ)
    (first second : List π) :
    system.follow code (first ++ second) = (system.follow code first).follow code second := by
  simp [follow]

theorem follow_holds {code : LockCode ω κ} {property : System π σ ℓ ε α ω κ → Prop}
    (preserved : ∀ system cpu, property system → property (system.step code cpu))
    {system : System π σ ℓ ε α ω κ} (holds : property system) (schedule : List π) :
    property (system.follow code schedule) := by
  induction schedule generalizing system with
  | nil => exact holds
  | cons cpu schedule ih => exact ih (preserved system cpu holds)

theorem Moves.word_holds {code : LockCode ω κ} {property : ω → Prop} {cpu : π}
    {system after : System π σ ℓ ε α ω κ} (moves : Moves code cpu system after)
    (acquired : ∀ point word, property word → property (code.acquire point word).1)
    (released : ∀ word, property (code.release word))
    (holds : ∀ lock, property (system.word lock)) (lock : ℓ) : property (after.word lock) := by
  have written : ∀ other word, property word →
      property (Function.update system.word other word lock) := by
    intro other word wordHolds
    by_cases same : lock = other
    · subst other
      simpa using wordHolds
    · simpa [same] using holds lock
  cases moves with
  | finished finished => exact holds lock
  | read shape => exact holds lock
  | update shape => exact holds lock
  | @enter other next word shape access =>
      have left := acquired (system.point cpu) (system.word other) (holds other)
      rw [access] at left
      exact written _ _ left
  | @spin other next word point shape access =>
      have left := acquired (system.point cpu) (system.word other) (holds other)
      rw [access] at left
      exact written _ _ left
  | release shape => exact written _ _ (released _)

end System

/-! ## A code and the locks it stands for -/

/-- `taken` tells a word that stands for a lock somebody holds, and `rank` bounds the
accesses left to a processor that finds the lock free. -/
structure Implements {ω κ : Type} (code : LockCode ω κ) (taken : ω → Prop) (rank : κ → Nat) :
    Prop where
  free : ¬taken code.free
  enters : ∀ {point word after}, code.acquire point word = (after, none) →
    ¬taken word ∧ taken after
  waits : ∀ {point word after next}, code.acquire point word = (after, some next) →
    (taken after ↔ taken word)
  advances : ∀ {point word after next}, code.acquire point word = (after, some next) →
    ¬taken word → rank next < rank point
  releases : ∀ word, ¬taken (code.release word)

section Refinement

variable {π σ ℓ ε α ω κ : Type} {code : LockCode ω κ} {taken : ω → Prop} {rank : κ → Nat}

/-- The two systems differ only in how a taken lock is written down, and in where a
processor stands that is taking one. -/
structure Like (taken : ω → Prop) (system : System π σ ℓ ε α ω κ)
    (model : System π σ ℓ ε α Bool Unit) : Prop where
  data : system.data = model.data
  word : ∀ lock, taken (system.word lock) ↔ model.word lock = true
  holds : system.holds = model.holds
  program : system.program = model.program

theorem like_start (implements : Implements code taken rank) (data : σ)
    (program : π → Program σ ℓ ε α) :
    Like taken (System.start code data program) (System.start atomicLock data program) := by
  refine ⟨rfl, fun lock => ?_, rfl, rfl⟩
  simpa [System.start, atomicLock] using implements.free

variable {system : System π σ ℓ ε α ω κ} {model : System π σ ℓ ε α Bool Unit}

section Updates

variable [DecidableEq π]

theorem Like.resume (like : Like taken system model) (cpu : π) (next : Program σ ℓ ε α) :
    Like taken (system.resume cpu next) (model.resume cpu next) :=
  ⟨like.data, like.word, like.holds, by simp [System.resume, like.program]⟩

theorem Like.setPoint (like : Like taken system model) (cpu : π) (point : κ) :
    Like taken (system.setPoint cpu point) model :=
  ⟨like.data, like.word, like.holds, like.program⟩

omit [DecidableEq π] in
theorem Like.change (like : Like taken system model) (change : σ → σ) :
    Like taken { system with data := change system.data }
      { model with data := change model.data } :=
  ⟨by simp [like.data], like.word, like.holds, like.program⟩

variable [DecidableEq ℓ]

theorem Like.setHolds (like : Like taken system model) (cpu : π) (lock : ℓ) (holds : Bool) :
    Like taken (system.setHolds cpu lock holds) (model.setHolds cpu lock holds) :=
  ⟨like.data, like.word, by simp [System.setHolds, like.holds], like.program⟩

omit [DecidableEq π] in
theorem Like.setWord (like : Like taken system model) (lock : ℓ) {word : ω} (bit : Bool)
    (same : taken word ↔ bit = true) :
    Like taken (system.setWord lock word) (model.setWord lock bit) := by
  refine ⟨like.data, fun other => ?_, like.holds, like.program⟩
  by_cases equal : other = lock
  · subst other
    simpa [System.setWord] using same
  · simpa [System.setWord, equal] using like.word other

omit [DecidableEq π] in
/-- A word that stands for the same as before need not be written in the model. -/
theorem Like.keepWord (like : Like taken system model) (lock : ℓ) {word : ω}
    (same : taken word ↔ taken (system.word lock)) :
    Like taken (system.setWord lock word) model := by
  refine ⟨like.data, fun other => ?_, like.holds, like.program⟩
  by_cases equal : other = lock
  · subst other
    simpa [System.setWord] using same.trans (like.word lock)
  · simpa [System.setWord, equal] using like.word other

end Updates

variable [DecidableEq π] [DecidableEq ℓ]

theorem Like.enter (implements : Implements code taken rank) (like : Like taken system model)
    {cpu : π} {lock : ℓ} {next : Program σ ℓ ε α} {word : ω}
    (shape : system.program cpu = .acquire lock next)
    (access : code.acquire (system.point cpu) (system.word lock) = (word, none)) :
    Like taken ((((system.setWord lock word).setPoint cpu code.entry).setHolds cpu lock
      true).resume cpu next) (model.step atomicLock cpu) := by
  obtain ⟨wasFree, isTaken⟩ := implements.enters access
  have modelShape : model.program cpu = .acquire lock next := like.program ▸ shape
  have modelFree : model.word lock = false := by
    rw [← Bool.not_eq_true, ← like.word lock]
    exact wasFree
  have modelAccess : atomicLock.acquire (model.point cpu) (model.word lock) = (true, none) := by
    simp [atomicLock, modelFree]
  rw [System.step_enter modelShape modelAccess]
  have written := like.setWord lock true (by simpa using isTaken)
  exact ((written.setPoint cpu code.entry).setHolds cpu lock true).resume cpu next

theorem Like.step (implements : Implements code taken rank) (like : Like taken system model)
    (cpu : π) : Like taken (system.step code cpu) model ∨
      Like taken (system.step code cpu) (model.step atomicLock cpu) := by
  generalize moved : system.step code cpu = after
  have moves := system.step_moves code cpu
  rw [moved] at moves
  cases moves with
  | finished finished => exact Or.inl like
  | read shape =>
      rw [System.step_read (like.program ▸ shape), ← like.data]
      exact Or.inr (like.resume cpu _)
  | update shape =>
      rw [System.step_update (like.program ▸ shape)]
      exact Or.inr ((like.change _).resume cpu _)
  | enter shape access => exact Or.inr (like.enter implements shape access)
  | spin shape access =>
      exact Or.inl ((like.keepWord _ (implements.waits access)).setPoint cpu _)
  | @release lock next shape =>
      rw [System.step_release (like.program ▸ shape)]
      have written := like.setWord lock false
        (by simpa using implements.releases (system.word lock))
      exact Or.inr ((written.setHolds cpu lock false).resume cpu next)

theorem Like.follow (implements : Implements code taken rank) (like : Like taken system model)
    (schedule : List π) :
    ∃ modelSchedule, Like taken (system.follow code schedule)
      (model.follow atomicLock modelSchedule) := by
  induction schedule generalizing system model with
  | nil => exact ⟨[], like⟩
  | cons cpu schedule ih =>
      rcases like.step implements cpu with unseen | seen
      · exact ih unseen
      · obtain ⟨rest, alike⟩ := ih seen
        exact ⟨cpu :: rest, alike⟩

theorem step_busy {cpu : π} {lock : ℓ} {next : Program σ ℓ ε α}
    (shape : model.program cpu = .acquire lock next) (busy : model.word lock = true) :
    model.step atomicLock cpu = model := by
  have access : atomicLock.acquire (model.point cpu) (model.word lock) = (true, some ()) := by
    simp [atomicLock, busy]
  rw [System.step_spin shape access]
  have sameWord : model.setWord lock true = model := by
    rw [System.setWord, ← busy, Function.update_eq_self]
  have samePoint : Function.update model.point cpu () = model.point := funext fun _ => rfl
  rw [sameWord, System.setPoint, samePoint]

theorem Like.take (implements : Implements code taken rank) (like : Like taken system model)
    {cpu : π} {lock : ℓ} {next : Program σ ℓ ε α}
    (shape : system.program cpu = .acquire lock next) (isFree : ¬taken (system.word lock)) :
    ∃ count, Like taken (system.follow code (List.replicate count cpu))
      (model.step atomicLock cpu) := by
  generalize left : rank (system.point cpu) = accesses
  induction accesses using Nat.strongRecOn generalizing system with
  | ind accesses ih =>
      cases access : code.acquire (system.point cpu) (system.word lock) with
      | mk word rest =>
          cases rest with
          | none =>
              refine ⟨1, ?_⟩
              rw [List.replicate_one, System.follow, List.foldl_cons, List.foldl_nil,
                System.step_enter shape access]
              exact like.enter implements shape access
          | some point =>
              have same := implements.waits access
              have closer := implements.advances access isFree
              have spun := (like.keepWord lock same).setPoint cpu point
              obtain ⟨count, alike⟩ := ih (rank point) (left ▸ closer) spun shape
                (by simpa [System.setPoint, System.setWord, same] using isFree)
                (by simp [System.setPoint])
              refine ⟨count + 1, ?_⟩
              rw [List.replicate_succ, System.follow, List.foldl_cons,
                System.step_spin shape access]
              exact alike

theorem Like.catchUp (implements : Implements code taken rank) (like : Like taken system model)
    (cpu : π) : ∃ count, Like taken (system.follow code (List.replicate count cpu))
      (model.step atomicLock cpu) := by
  by_cases waits : ∃ lock next, system.program cpu = .acquire lock next
  · obtain ⟨lock, next, shape⟩ := waits
    by_cases busy : taken (system.word lock)
    · rw [step_busy (like.program ▸ shape) ((like.word lock).mp busy)]
      exact ⟨0, like⟩
    · exact like.take implements shape busy
  · refine ⟨1, ?_⟩
    change Like taken (system.step code cpu) _
    generalize moved : system.step code cpu = after
    have moves := system.step_moves code cpu
    rw [moved] at moves
    cases moves with
    | finished finished =>
        rw [System.step_finished (like.program ▸ finished)]
        exact like
    | read shape =>
        rw [System.step_read (like.program ▸ shape), ← like.data]
        exact like.resume cpu _
    | update shape =>
        rw [System.step_update (like.program ▸ shape)]
        exact (like.change _).resume cpu _
    | enter shape access => exact absurd ⟨_, _, shape⟩ waits
    | spin shape access => exact absurd ⟨_, _, shape⟩ waits
    | @release lock next shape =>
        rw [System.step_release (like.program ▸ shape)]
        have written := like.setWord lock false
          (by simpa using implements.releases (system.word lock))
        exact (written.setHolds cpu lock false).resume cpu next

theorem Like.catchUp_all (implements : Implements code taken rank)
    (like : Like taken system model) (modelSchedule : List π) :
    ∃ schedule, Like taken (system.follow code schedule)
      (model.follow atomicLock modelSchedule) := by
  induction modelSchedule generalizing system model with
  | nil => exact ⟨[], like⟩
  | cons cpu modelSchedule ih =>
      obtain ⟨count, caught⟩ := like.catchUp implements cpu
      obtain ⟨schedule, alike⟩ := ih caught
      refine ⟨List.replicate count cpu ++ schedule, ?_⟩
      rw [System.follow_append]
      exact alike

theorem Implements.step_waiting (implements : Implements code taken rank) {cpu mover : π}
    {lock : ℓ} {next : Program σ ℓ ε α} {after : System π σ ℓ ε α ω κ}
    (shape : system.program cpu = .acquire lock next) (isFree : ¬taken (system.word lock))
    (moves : System.Moves code mover system after) :
    after.holds mover lock = true ∨ (after.program cpu = .acquire lock next ∧
      ¬taken (after.word lock) ∧
      rank (after.point cpu) + (if mover = cpu then 1 else 0) ≤ rank (system.point cpu)) := by
  cases moves with
  | finished finished =>
      have different : mover ≠ cpu := by
        rintro rfl
        simp [shape, Program.finished] at finished
      exact Or.inr ⟨shape, isFree, by simp [different]⟩
  | read reads =>
      have different : mover ≠ cpu := by
        rintro rfl
        simp [shape] at reads
      exact Or.inr ⟨by simp [System.resume, different.symm, shape], isFree,
        by simp [different, System.resume]⟩
  | update updates =>
      have different : mover ≠ cpu := by
        rintro rfl
        simp [shape] at updates
      exact Or.inr ⟨by simp [System.resume, different.symm, shape], isFree,
        by simp [different, System.resume]⟩
  | @enter other rest word enters access =>
      by_cases same : other = lock
      · subst other
        exact Or.inl (by simp [System.resume, System.setHolds])
      · have different : mover ≠ cpu := by
          rintro rfl
          rw [shape] at enters
          cases enters
          exact same rfl
        have apart : lock ≠ other := fun equal => same equal.symm
        refine Or.inr ⟨?_, ?_, ?_⟩
        · simp [System.resume, System.setHolds, System.setPoint, System.setWord, different.symm,
            shape]
        · simpa [System.resume, System.setHolds, System.setPoint, System.setWord, apart] using isFree
        · simp [System.resume, System.setHolds, System.setPoint, System.setWord, different,
            different.symm]
  | @spin other rest word point spins access =>
      have free : ¬taken (Function.update system.word other word lock) := by
        by_cases same : lock = other
        · subst other
          simpa [implements.waits access] using isFree
        · simpa [same] using isFree
      refine Or.inr ⟨shape, free, ?_⟩
      by_cases same : mover = cpu
      · subst mover
        rw [shape] at spins
        cases spins
        have closer := implements.advances access isFree
        simp only [System.setPoint, System.setWord, Function.update_self, ↓reduceIte]
        omega
      · have apart : cpu ≠ mover := fun equal => same equal.symm
        simp [System.setPoint, System.setWord, same, apart]
  | @release other rest releases =>
      have different : mover ≠ cpu := by
        rintro rfl
        simp [shape] at releases
      have free : ¬taken (Function.update system.word other (code.release (system.word other))
          lock) := by
        by_cases same : lock = other
        · subst other
          simpa using implements.releases _
        · simpa [same] using isFree
      exact Or.inr ⟨by simp [System.resume, System.setHolds, System.setWord, different.symm,
        shape], free, by simp [System.resume, System.setHolds, System.setWord, different]⟩

/-- A free lock does not stay free while a processor that wants it gets its turns. -/
theorem Implements.taken_soon (implements : Implements code taken rank) {cpu : π} {lock : ℓ}
    {next : Program σ ℓ ε α} (shape : system.program cpu = .acquire lock next)
    (isFree : ¬taken (system.word lock)) {schedule : List π}
    (turns : rank (system.point cpu) < schedule.count cpu) :
    ∃ turn ≤ schedule.length, ∃ taker,
      (system.follow code (schedule.take turn)).holds taker lock = true := by
  induction schedule generalizing system with
  | nil => simp at turns
  | cons mover schedule ih =>
      rcases implements.step_waiting shape isFree (system.step_moves code mover) with
        holds | ⟨waits, free, closer⟩
      · exact ⟨1, by simp, mover, by simpa [System.follow] using holds⟩
      · rw [List.count_cons] at turns
        simp only [beq_iff_eq] at turns
        obtain ⟨turn, bound, taker, holds⟩ := ih waits free (by omega)
        exact ⟨turn + 1, by simpa using bound, taker, by simpa [System.follow] using holds⟩

end Refinement

/-! ## Mutual exclusion -/

/-- The program takes `lock` only without it and drops it only with it. -/
def Brackets {σ ℓ ε α : Type} [DecidableEq ℓ] (lock : ℓ) :
    Program σ ℓ ε α → Bool → (α → Bool → Prop) → Prop
  | .done value, inside, post => post value inside
  | .fail _, _, _ => True
  | .read next, inside, post => ∀ data, Brackets lock (next data) inside post
  | .update _ next, inside, post => Brackets lock next inside post
  | .acquire other next, inside, post =>
      if other = lock then inside = false ∧ Brackets lock next true post
      else Brackets lock next inside post
  | .release other next, inside, post =>
      if other = lock then inside = true ∧ Brackets lock next false post
      else Brackets lock next inside post

section Brackets

variable {σ ℓ ε α β : Type} [DecidableEq ℓ] {lock : ℓ} {inside : Bool}

theorem brackets_bind {program : Program σ ℓ ε α} {rest : α → Program σ ℓ ε β}
    {post : β → Bool → Prop}
    (brackets : Brackets lock program inside fun value inside =>
      Brackets lock (rest value) inside post) : Brackets lock (program >>= rest) inside post := by
  change Brackets lock (program.bind rest) inside post
  induction program generalizing inside with
  | done value => exact brackets
  | fail error => trivial
  | read next ih => exact fun data => ih data (brackets data)
  | update change next ih => exact ih brackets
  | acquire other next ih =>
      by_cases same : other = lock
      · simp only [Program.bind, Brackets, same, ↓reduceIte] at brackets ⊢
        exact ⟨brackets.1, ih brackets.2⟩
      · simp only [Program.bind, Brackets, same, ↓reduceIte] at brackets ⊢
        exact ih brackets
  | release other next ih =>
      by_cases same : other = lock
      · simp only [Program.bind, Brackets, same, ↓reduceIte] at brackets ⊢
        exact ⟨brackets.1, ih brackets.2⟩
      · simp only [Program.bind, Brackets, same, ↓reduceIte] at brackets ⊢
        exact ih brackets

theorem brackets_mono {program : Program σ ℓ ε α} {post other : α → Bool → Prop}
    (weaker : ∀ value inside, post value inside → other value inside)
    (brackets : Brackets lock program inside post) : Brackets lock program inside other := by
  induction program generalizing inside with
  | done value => exact weaker value inside brackets
  | fail error => trivial
  | read next ih => exact fun data => ih data (brackets data)
  | update change next ih => exact ih brackets
  | acquire other next ih =>
      by_cases same : other = lock
      · simp only [Brackets, same, ↓reduceIte] at brackets ⊢
        exact ⟨brackets.1, ih brackets.2⟩
      · simp only [Brackets, same, ↓reduceIte] at brackets ⊢
        exact ih brackets
  | release other next ih =>
      by_cases same : other = lock
      · simp only [Brackets, same, ↓reduceIte] at brackets ⊢
        exact ⟨brackets.1, ih brackets.2⟩
      · simp only [Brackets, same, ↓reduceIte] at brackets ⊢
        exact ih brackets

end Brackets

section Exclusion

variable {π σ ℓ ε α ω κ : Type} [DecidableEq π] [DecidableEq ℓ] {code : LockCode ω κ}
  {taken : ω → Prop} {rank : κ → Nat} {lock : ℓ} {post : α → Bool → Prop}

structure Excluded (taken : ω → Prop) (lock : ℓ) (post : α → Bool → Prop)
    (system : System π σ ℓ ε α ω κ) : Prop where
  brackets : ∀ cpu, Brackets lock (system.program cpu) (system.holds cpu lock) post
  word : taken (system.word lock) ↔ ∃ cpu, system.holds cpu lock = true
  exclusive : ∀ first second, system.holds first lock = true →
    system.holds second lock = true → first = second

variable {system after : System π σ ℓ ε α ω κ} {cpu : π}

theorem Excluded.resume (excluded : Excluded taken lock post system)
    {next : Program σ ℓ ε α} (brackets : Brackets lock next (system.holds cpu lock) post) :
    Excluded taken lock post (system.resume cpu next) := by
  refine ⟨fun other => ?_, excluded.word, excluded.exclusive⟩
  by_cases same : other = cpu
  · subst other
    simpa [System.resume] using brackets
  · simpa [System.resume, same] using excluded.brackets other

theorem holds_setHolds (other : π) (mine : ℓ) (holds : Bool) :
    (system.setHolds cpu mine holds).holds other lock =
      if other = cpu ∧ lock = mine then holds else system.holds other lock := by
  by_cases same : other = cpu
  · subst other
    by_cases equal : lock = mine
    · subst mine
      simp [System.setHolds]
    · simp [System.setHolds, equal]
  · simp [System.setHolds, same]

theorem Excluded.elsewhere (excluded : Excluded taken lock post system) {other : ℓ}
    (different : lock ≠ other) (word : ω) (holds : Bool) :
    Excluded taken lock post ((system.setWord other word).setHolds cpu other holds) := by
  have same : ∀ mover, ((system.setWord other word).setHolds cpu other holds).holds mover lock =
      system.holds mover lock := by
    intro mover
    rw [holds_setHolds, if_neg fun both => different both.2]
    rfl
  refine ⟨fun mover => ?_, ?_, fun first second => ?_⟩
  · rw [same mover]
    exact excluded.brackets mover
  · simp only [same]
    simpa [System.setHolds, System.setWord, different] using excluded.word
  · rw [same, same]
    exact excluded.exclusive first second

theorem Excluded.setPoint (excluded : Excluded taken lock post system) (point : κ) :
    Excluded taken lock post (system.setPoint cpu point) :=
  ⟨excluded.brackets, excluded.word, excluded.exclusive⟩

omit [DecidableEq π] in
theorem Excluded.keepWord (excluded : Excluded taken lock post system) {other : ℓ} {word : ω}
    (same : taken word ↔ taken (system.word other)) :
    Excluded taken lock post (system.setWord other word) := by
  refine ⟨excluded.brackets, ?_, excluded.exclusive⟩
  by_cases equal : lock = other
  · subst other
    simpa [System.setWord] using same.trans excluded.word
  · simpa [System.setWord, equal] using excluded.word

theorem Excluded.enter (excluded : Excluded taken lock post system) {word : ω}
    {next : Program σ ℓ ε α} (wasFree : ¬taken (system.word lock)) (isTaken : taken word)
    (brackets : Brackets lock next true post) :
    Excluded taken lock post (((system.setWord lock word).setHolds cpu lock true).resume cpu
      next) := by
  have nobody : ∀ mover, system.holds mover lock = false := by
    intro mover
    rw [← Bool.not_eq_true]
    exact fun held => wasFree (excluded.word.mpr ⟨mover, held⟩)
  have only : ∀ mover, (((system.setWord lock word).setHolds cpu lock true).resume cpu
      next).holds mover lock = true ↔ mover = cpu := by
    intro mover
    change ((system.setWord lock word).setHolds cpu lock true).holds mover lock = true ↔ _
    rw [holds_setHolds]
    by_cases same : mover = cpu
    · simp [same]
    · simpa [same, System.setWord] using nobody mover
  refine ⟨fun mover => ?_, ?_, fun first second firstHolds secondHolds => ?_⟩
  · by_cases same : mover = cpu
    · subst mover
      rw [(only cpu).mpr rfl]
      simpa [System.resume] using brackets
    · have outside := excluded.brackets mover
      have still := (only mover).not.mpr same
      rw [Bool.not_eq_true] at still
      rw [still]
      rw [nobody mover] at outside
      simpa [System.resume, System.setHolds, System.setWord, same] using outside
  · exact ⟨fun _ => ⟨cpu, (only cpu).mpr rfl⟩, fun _ => by
      simpa [System.resume, System.setHolds, System.setWord] using isTaken⟩
  · exact ((only first).mp firstHolds).trans ((only second).mp secondHolds).symm

theorem Excluded.leave (excluded : Excluded taken lock post system) {word : ω}
    {next : Program σ ℓ ε α} (held : system.holds cpu lock = true) (isFree : ¬taken word)
    (brackets : Brackets lock next false post) :
    Excluded taken lock post (((system.setWord lock word).setHolds cpu lock false).resume cpu
      next) := by
  have nobody : ∀ mover, (((system.setWord lock word).setHolds cpu lock false).resume cpu
      next).holds mover lock = false := by
    intro mover
    change ((system.setWord lock word).setHolds cpu lock false).holds mover lock = false
    rw [holds_setHolds]
    by_cases same : mover = cpu
    · simp [same]
    · rw [if_neg fun both => same both.1, ← Bool.not_eq_true]
      exact fun other => same (excluded.exclusive mover cpu other held)
  refine ⟨fun mover => ?_, ?_, fun first second firstHolds => ?_⟩
  · rw [nobody mover]
    by_cases same : mover = cpu
    · subst mover
      simpa [System.resume] using brackets
    · have outside := excluded.brackets mover
      have still : system.holds mover lock = false := by
        rw [← Bool.not_eq_true]
        exact fun other => same (excluded.exclusive mover cpu other held)
      rw [still] at outside
      simpa [System.resume, System.setHolds, System.setWord, same] using outside
  · simp only [nobody, Bool.false_eq_true, exists_false, iff_false]
    simpa [System.resume, System.setHolds, System.setWord] using isFree
  · simp [nobody first] at firstHolds

theorem Excluded.moves (implements : Implements code taken rank)
    (excluded : Excluded taken lock post system) (moves : System.Moves code cpu system after) :
    Excluded taken lock post after := by
  have own := excluded.brackets cpu
  cases moves with
  | finished finished => exact excluded
  | read shape =>
      rw [shape] at own
      exact excluded.resume (own system.data)
  | @update change next shape =>
      rw [shape] at own
      have changed : Excluded taken lock post { system with data := change system.data } :=
        ⟨excluded.brackets, excluded.word, excluded.exclusive⟩
      exact changed.resume own
  | @enter other next word shape access =>
      rw [shape] at own
      obtain ⟨wasFree, isTaken⟩ := implements.enters access
      by_cases same : other = lock
      · subst other
        simp only [Brackets, ↓reduceIte] at own
        exact (excluded.setPoint code.entry).enter wasFree isTaken own.2
      · simp only [Brackets, same, ↓reduceIte] at own
        refine ((excluded.setPoint code.entry).elsewhere (Ne.symm same) word true).resume ?_
        rw [holds_setHolds, if_neg fun both => same both.2.symm]
        exact own
  | spin shape access =>
      exact (excluded.keepWord (implements.waits access)).setPoint _
  | @release other next shape =>
      rw [shape] at own
      by_cases same : other = lock
      · subst other
        simp only [Brackets, ↓reduceIte] at own
        exact excluded.leave own.1 (implements.releases _) own.2
      · simp only [Brackets, same, ↓reduceIte] at own
        refine (excluded.elsewhere (Ne.symm same) _ false).resume ?_
        rw [holds_setHolds, if_neg fun both => same both.2.symm]
        exact own

/-- Two processors are never both in a section of the lock, and the word tells whether one is. -/
theorem mutual_exclusion (implements : Implements code taken rank) (data : σ)
    {program : π → Program σ ℓ ε α}
    (brackets : ∀ cpu, Brackets lock (program cpu) false post) (schedule : List π) :
    Excluded taken lock post ((System.start code data program).follow code schedule) := by
  apply System.follow_holds
  · exact fun system cpu excluded => excluded.moves implements (system.step_moves code cpu)
  · refine ⟨brackets, ?_, ?_⟩
    · simpa [System.start] using implements.free
    · simp [System.start]

end Exclusion

end LockProgram
