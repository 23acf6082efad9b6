import Zeptux.Lib.Processors

/-!
The spinlock of `arch/x86_64/include/spinlock.h` over the atomic accesses of
`include/atomic.h`. Each access is one step of the processor that makes it, so that other
processors may come between any two of them.
-/

namespace Zeptux

open LockProgram

/-- An access to an `atomic_t`: what it returns, and what it leaves there. -/
abbrev Access := UInt32 → UInt32 × UInt32

def atomicLoadRelaxed : Access := fun word => (word, word)

def atomicExchangeAcquire (value : UInt32) : Access := fun word => (word, value)

def atomicStoreRelease (value : UInt32) : UInt32 → UInt32 := fun _ => value

def emptySpinlock : UInt32 := 0

/-- The two places at which `spinlock_acquire` touches the lock: the head of the outer loop
and the head of the inner one. -/
inductive AcquirePoint
  | exchange
  | load
deriving DecidableEq, Repr

def spinlockAcquire (point : AcquirePoint) (word : UInt32) : UInt32 × Option AcquirePoint :=
  match point with
  | .exchange =>
      let (old, word) := atomicExchangeAcquire 1 word
      (word, if old = 0 then none else some .load)
  | .load =>
      let (current, word) := atomicLoadRelaxed word
      (word, some (if current ≠ 0 then .load else .exchange))

def spinlockRelease : UInt32 → UInt32 := atomicStoreRelease 0

def spinlock : LockCode UInt32 AcquirePoint where
  free := emptySpinlock
  entry := .exchange
  acquire := spinlockAcquire
  release := spinlockRelease

def AcquirePoint.rank : AcquirePoint → Nat
  | .exchange => 0
  | .load => 1

theorem spinlock_implements : Implements spinlock (· ≠ 0) AcquirePoint.rank where
  free := by simp [spinlock, emptySpinlock]
  enters := by
    intro point word after access
    cases point with
    | exchange =>
        simp only [spinlock, spinlockAcquire, atomicExchangeAcquire, Prod.mk.injEq] at access
        obtain ⟨rfl, enters⟩ := access
        by_cases free : word = 0
        · simp [free]
        · simp [free] at enters
    | load => simp [spinlock, spinlockAcquire, atomicLoadRelaxed] at access
  waits := by
    intro point word after next access
    cases point with
    | exchange =>
        simp only [spinlock, spinlockAcquire, atomicExchangeAcquire, Prod.mk.injEq] at access
        obtain ⟨rfl, spins⟩ := access
        by_cases free : word = 0
        · simp [free] at spins
        · simp [free]
    | load =>
        simp only [spinlock, spinlockAcquire, atomicLoadRelaxed, Prod.mk.injEq] at access
        rw [access.1]
  advances := by
    intro point word after next access isFree
    have zero : word = 0 := not_not.mp isFree
    cases point with
    | exchange =>
        simp [spinlock, spinlockAcquire, atomicExchangeAcquire, zero] at access
    | load =>
        simp only [spinlock, spinlockAcquire, atomicLoadRelaxed, zero, ne_eq, not_true_eq_false,
          ↓reduceIte, Prod.mk.injEq, Option.some.injEq] at access
        rw [← access.2]
        decide
  releases := by simp [spinlock, spinlockRelease, atomicStoreRelease]

section Kernel

variable {π σ ℓ ε α : Type} [DecidableEq π] [DecidableEq ℓ]

def boot (data : σ) (program : π → Program σ ℓ ε α) :
    System π σ ℓ ε α UInt32 AcquirePoint :=
  System.start spinlock data program

/-- The two systems have run the programs to the same places, and a lock word is 1 where the
model's lock is taken and 0 where it is not. -/
structure Mirrors (system : System π σ ℓ ε α UInt32 AcquirePoint)
    (model : System π σ ℓ ε α Bool Unit) : Prop where
  data : system.data = model.data
  word : ∀ lock, system.word lock = if model.word lock then 1 else 0
  holds : system.holds = model.holds
  program : system.program = model.program

def Bit (word : UInt32) : Prop := word = 0 ∨ word = 1

theorem Bit.ne_zero_iff {word : UInt32} (bit : Bit word) : word ≠ 0 ↔ word = 1 := by
  rcases bit with rfl | rfl <;> simp

def BitWords (system : System π σ ℓ ε α UInt32 AcquirePoint) : Prop :=
  ∀ lock, Bit (system.word lock)

theorem boot_bitWords (data : σ) (program : π → Program σ ℓ ε α) (schedule : List π) :
    BitWords ((boot data program).follow spinlock schedule) := by
  apply System.follow_holds
  · intro system cpu holds
    refine (system.step_moves spinlock cpu).word_holds ?_ ?_ holds
    · intro point word
      cases point <;> simp [Bit, spinlock, spinlockAcquire, atomicExchangeAcquire, atomicLoadRelaxed]
    · simp [Bit, spinlock, spinlockRelease, atomicStoreRelease]
  · exact fun lock => Or.inl rfl

omit [DecidableEq π] [DecidableEq ℓ] in
theorem Mirrors.of_like {system : System π σ ℓ ε α UInt32 AcquirePoint}
    {model : System π σ ℓ ε α Bool Unit} (like : Like (· ≠ 0) system model)
    (bits : BitWords system) : Mirrors system model := by
  refine ⟨like.data, fun lock => ?_, like.holds, like.program⟩
  have same := like.word lock
  rcases bits lock with free | held
  · have modelFree : model.word lock = false := by
      rw [← Bool.not_eq_true, ← same]
      simp [free]
    simp [free, modelFree]
  · have modelHeld : model.word lock = true := same.mp (by simp [held])
    simp [held, modelHeld]

theorem follow_mirrors (data : σ) (program : π → Program σ ℓ ε α) (schedule : List π) :
    ∃ modelSchedule, Mirrors ((boot data program).follow spinlock schedule)
      ((System.start atomicLock data program).follow atomicLock modelSchedule) := by
  have like := like_start spinlock_implements data program
  obtain ⟨modelSchedule, alike⟩ := like.follow spinlock_implements schedule
  exact ⟨modelSchedule, .of_like alike (boot_bitWords data program schedule)⟩

/-- Between any two accesses other processors may run, and yet the programs do what they do
with locks that are taken in one step, no more and no less. -/
theorem spinlock_refines_atomic (data : σ) (program : π → Program σ ℓ ε α) :
    (∀ schedule, ∃ modelSchedule, Mirrors ((boot data program).follow spinlock schedule)
      ((System.start atomicLock data program).follow atomicLock modelSchedule)) ∧
    ∀ modelSchedule, ∃ schedule, Mirrors ((boot data program).follow spinlock schedule)
      ((System.start atomicLock data program).follow atomicLock modelSchedule) := by
  refine ⟨follow_mirrors data program, ?_⟩
  intro modelSchedule
  have like := like_start spinlock_implements data program
  obtain ⟨schedule, alike⟩ := like.catchUp_all spinlock_implements modelSchedule
  exact ⟨schedule, .of_like alike (boot_bitWords data program schedule)⟩

end Kernel

end Zeptux
