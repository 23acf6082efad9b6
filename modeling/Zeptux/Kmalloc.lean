import Mathlib.Order.Bounds.Basic
import Zeptux.Align
import Zeptux.KmallocCore
import Zeptux.PhysOwned

/-!
The order that `kmalloc` asks for, and whether the block it gets is large enough. The
requests in the upper half of the admitted range find no order, and the ones whose size
wraps when it is rounded up get one page.
-/

namespace Zeptux.Kmalloc

open Dyadic Phys Early LockProgram Word

/-! ## The order of a request -/

theorem bytesToPages_wraps {size : Nat} (word : size < 2 ^ 64) (large : 2 ^ 64 - pageSize < size) :
    bytesToPages size = 0 := by
  simp only [pageSize, pageShift] at large
  obtain ⟨rest, wrapped, low⟩ : ∃ rest, sub64 (add64 size pageSize) 1 = rest ∧ rest < 2 ^ 12 := by
    refine ⟨_, rfl, ?_⟩
    simp only [add64, sub64, pageSize, pageShift]
    omega
  rw [bytesToPages, alignUp, wrapped, pageSize, pageShift, align_eq (by omega) (by omega),
    Nat.div_eq_of_lt low]
  rfl

theorem bytesToPages_ceil {size : Nat} (small : size ≤ 2 ^ 64 - pageSize) :
    bytesToPages size = (size + 4095) / 2 ^ 12 := by
  simp only [pageSize, pageShift] at small
  by_cases last : size = 2 ^ 64 - 2 ^ 12
  · subst last
    decide
  · exact bytesToPages_eq (by omega)

theorem firstOrderFrom_ok {pages remaining order last : Nat}
    (below : ∀ lower < order, 2 ^ lower < pages) (enough : pages ≤ 2 ^ last)
    (lower : order ≤ last) (upper : last < order + remaining) :
    ∃ found, firstOrderFrom pages remaining order = .ok found ∧
      IsLeast {order | pages ≤ 2 ^ order} found := by
  induction remaining generalizing order with
  | zero => omega
  | succ remaining ih =>
      rw [firstOrderFrom, Nat.one_shiftLeft]
      by_cases fits : 2 ^ order ≥ pages
      · rw [if_pos fits]
        refine ⟨order, rfl, fits, ?_⟩
        intro other otherFits
        by_contra smaller
        have short := below other (by omega)
        exact absurd otherFits (by simpa using short)
      · rw [if_neg fits]
        have different : order ≠ last := by
          rintro rfl
          exact fits enough
        apply ih _ (by omega) (by omega)
        intro other smaller
        by_cases same : other = order
        · rw [same]
          omega
        · exact below other (by omega)

theorem firstOrderFrom_error {pages remaining order : Nat}
    (short : ∀ other < order + remaining, 2 ^ other < pages) :
    firstOrderFrom pages remaining order = .error ⟨"Impossible?", []⟩ := by
  induction remaining generalizing order with
  | zero => rfl
  | succ remaining ih =>
      have here := short order (by omega)
      rw [firstOrderFrom, Nat.one_shiftLeft, if_neg (by omega)]
      exact ih fun other bound => short other (by omega)

theorem bytesToOrder_least {size : Nat} (fits : bytesToPages size ≤ 2 ^ 11) :
    ∃ order, bytesToOrder size = .ok order ∧ IsLeast {order | bytesToPages size ≤ 2 ^ order} order := by
  rw [bytesToOrder, if_neg (by simp only [maxOrder]; omega)]
  exact firstOrderFrom_ok (fun lower bound => absurd bound (Nat.not_lt_zero lower)) fits (by omega)
    (by decide)

theorem bytesToOrder_impossible {size : Nat} (large : 2 ^ 11 < bytesToPages size)
    (admitted : bytesToPages size ≤ 2 ^ maxOrder) :
    bytesToOrder size = .error ⟨"Impossible?", []⟩ := by
  rw [bytesToOrder, if_neg (by rw [Nat.one_shiftLeft]; omega)]
  apply firstOrderFrom_error
  intro other bound
  have power : 2 ^ other ≤ 2 ^ 11 := Nat.pow_le_pow_right (by omega) (by simp only [maxOrder] at bound; omega)
  omega

theorem bytesToOrder_exceeds {size : Nat} (large : 2 ^ maxOrder < bytesToPages size) :
    bytesToOrder size = .error (exceedsMaximum (bytesToPages size)) := by
  rw [bytesToOrder, if_pos (by rw [Nat.one_shiftLeft]; exact large)]

/-- The request gets the least order that holds its pages, or it is too large and is told so. -/
structure OrderChosen (size : Nat) : Prop where
  least : 1 ≤ bytesToPages size → bytesToPages size ≤ 2 ^ maxOrder →
    ∃ order, bytesToOrder size = .ok order ∧ IsLeast {order | bytesToPages size ≤ 2 ^ order} order
  exceeds : size ≤ 2 ^ 64 - pageSize → 2 ^ maxOrder * pageSize < size →
    bytesToOrder size = .error (exceedsMaximum (bytesToPages size))

theorem orderChosen_iff {size : Nat} (word : size < 2 ^ 64) :
    OrderChosen size ↔ ¬(2 ^ 23 < size ∧ size ≤ 2 ^ 24) := by
  constructor
  · rintro chosen ⟨lower, upper⟩
    have pages := bytesToPages_ceil (by simp only [pageSize, pageShift]; omega : size ≤ 2 ^ 64 - pageSize)
    obtain ⟨order, found, _⟩ := chosen.least (by omega) (by simp only [maxOrder]; omega)
    rw [bytesToOrder_impossible (by omega) (by simp only [maxOrder]; omega)] at found
    cases found
  · intro outside
    constructor
    · intro positive admitted
      have fits : size ≤ 2 ^ 64 - pageSize := by
        by_contra large
        have none := bytesToPages_wraps word (by omega)
        omega
      have pages := bytesToPages_ceil fits
      simp only [maxOrder] at admitted
      exact bytesToOrder_least (by omega)
    · intro fits large
      have pages := bytesToPages_ceil fits
      simp only [maxOrder, pageSize, pageShift] at large
      exact bytesToOrder_exceeds (by simp only [maxOrder]; omega)

theorem orderChosen_page : OrderChosen 4096 := (orderChosen_iff (by decide)).mpr (by decide)

/-- 16 MiB are 4096 pages, which is the announced maximum. -/
theorem bytesToOrder_maximum :
    bytesToPages (2 ^ 24) = 2 ^ maxOrder ∧ bytesToOrder (2 ^ 24) = .error ⟨"Impossible?", []⟩ ∧
      ¬OrderChosen (2 ^ 24) := by
  have panics : bytesToOrder (2 ^ 24) = .error ⟨"Impossible?", []⟩ := by decide
  refine ⟨by decide, panics, ?_⟩
  intro chosen
  obtain ⟨order, found, _⟩ := chosen.least (by decide) (by decide)
  rw [panics] at found
  cases found

/-! ## The block of a request -/

structure PointsTo (state : PhysState) (ptr block order : Nat) : Prop where
  place : ptr = physToVirt (block <<< pageShift % 2 ^ 64)
  live : Live state block order

theorem bytesToOrder_ok {size order : Nat} (chosen : bytesToOrder size = .ok order) :
    order ≤ maxOrder ∧ bytesToPages size ≤ 2 ^ order := by
  by_cases half : bytesToPages size ≤ 2 ^ 11
  · obtain ⟨found, same, least⟩ := bytesToOrder_least half
    rw [same] at chosen
    cases chosen
    exact ⟨Nat.le_trans (least.2 half) (by decide), least.1⟩
  · by_cases admitted : bytesToPages size ≤ 2 ^ maxOrder
    · rw [bytesToOrder_impossible (by omega) admitted] at chosen
      cases chosen
    · rw [bytesToOrder_exceeds (by omega)] at chosen
      cases chosen

theorem bytesToOrder_holds_iff {size order : Nat} (word : size < 2 ^ 64)
    (chosen : bytesToOrder size = .ok order) :
    size ≤ pageSize * 2 ^ order ↔ size ≤ 2 ^ 64 - pageSize := by
  obtain ⟨bound, fits⟩ := bytesToOrder_ok chosen
  constructor
  · intro held
    have most : 2 ^ order ≤ 2 ^ maxOrder := Nat.pow_le_pow_right (by omega) bound
    simp only [pageSize, pageShift, maxOrder] at held most ⊢
    omega
  · intro small
    have pages := bytesToPages_ceil small
    simp only [pageSize, pageShift]
    omega

theorem memset_outside {bytes : Bytes} {target chr count address : Nat} (bound : target < 2 ^ 64)
    (outside : ∀ offset < count, address ≠ add64 target offset) :
    memset bytes target chr count address = bytes address := by
  induction count generalizing bytes target with
  | zero => rfl
  | succ count ih =>
      have first := outside 0 (by omega)
      rw [add64, Nat.add_zero, Nat.mod_eq_of_lt bound] at first
      have next : add64 target 1 < 2 ^ 64 := Nat.mod_lt _ (Nat.two_pow_pos 64)
      rw [memset, ih next, Function.update_of_ne first]
      intro offset inside
      have later := outside (offset + 1) (by omega)
      rw [add64] at later
      rwa [add64, add64, Nat.mod_add_mod, Nat.add_assoc, Nat.add_comm 1]

theorem physToVirt_lt (pa : Nat) : physToVirt pa < 2 ^ 64 := by
  rw [physToVirt, add64]
  exact Nat.mod_lt _ (Nat.two_pow_pos 64)

theorem orPanic_returned {α : Type} {computed : Except Panic α} {value : α}
    {machine after : PhysMachine}
    (returned : run (orPanic computed) machine = .returned value after) :
    computed = .ok value ∧ machine = after := by
  cases computed with
  | error reason => cases returned
  | ok given =>
      obtain ⟨rfl, rfl⟩ := run_pure_returned returned
      exact ⟨rfl, rfl⟩

theorem kmalloc_cases {machine after : PhysMachine} {fuel size flags ptr : Nat}
    (reachable : Reachable machine)
    (returned : run (kmalloc fuel size flags) machine = .returned ptr after) :
    ∃ block order, bytesToOrder size = .ok order ∧ PointsTo after.data ptr block order := by
  obtain ⟨order, _, picks, allocates⟩ := run_bind_returned returned
  obtain ⟨chosen, rfl⟩ := orPanic_returned picks
  by_cases known : flags &&& kmallocTypeMask = kmallocKernel
  · rw [kmallocOrder, if_pos known] at allocates
    obtain ⟨pa, _, found, last⟩ := run_bind_returned allocates
    obtain ⟨rfl, rfl⟩ := run_pure_returned last
    obtain ⟨block, _, takes, last⟩ := run_bind_returned found
    obtain ⟨rfl, rfl⟩ := run_pure_returned last
    obtain ⟨blocks, allotted⟩ := reachable.allotted
    have valid : ValidFlags (allocKernel ||| allocMovable) := Or.inl (by decide)
    have now := Allotted.alloc allotted (bytesToOrder_ok chosen).1 valid takes
    exact ⟨block, order, chosen, rfl, (now.live_iff _ _).mp (Set.mem_insert _ _)⟩
  · rw [kmallocOrder, if_neg known] at allocates
    cases allocates

theorem kmalloc_holds_iff {machine : PhysMachine} (reachable : Reachable machine)
    {fuel size flags : Nat} (word : size < 2 ^ 64) :
    (∀ ptr after, run (kmalloc fuel size flags) machine = .returned ptr after →
      ∃ block order, PointsTo after.data ptr block order ∧
        (size ≤ pageSize * 2 ^ order ↔ size ≤ 2 ^ 64 - pageSize)) ∧
    ∀ bytes ptr written after,
      run (kzalloc fuel size flags bytes) machine = .returned (ptr, written) after →
      ∃ block order, PointsTo after.data ptr block order ∧
        ((size ≤ pageSize * 2 ^ order ∧ ∀ address, written address ≠ bytes address →
            ∃ offset < pageSize * 2 ^ order, address = add64 ptr offset) ↔
          size ≤ 2 ^ 64 - pageSize) := by
  constructor
  · intro ptr after returned
    obtain ⟨block, order, chosen, points⟩ := kmalloc_cases reachable returned
    exact ⟨block, order, points, bytesToOrder_holds_iff word chosen⟩
  · intro bytes ptr written after returned
    obtain ⟨ret, _, allocates, last⟩ := run_bind_returned returned
    obtain ⟨same, rfl⟩ := run_pure_returned last
    obtain ⟨rfl, rfl⟩ := Prod.mk.inj same
    obtain ⟨block, order, chosen, points⟩ := kmalloc_cases reachable allocates
    have fits := bytesToOrder_holds_iff word chosen
    refine ⟨block, order, points, fun held => fits.mp held.1, fun small => ?_⟩
    have room := fits.mpr small
    have pointer : ret < 2 ^ 64 := by
      rw [points.place]
      exact physToVirt_lt _
    refine ⟨room, ?_⟩
    intro address changes
    by_contra outside
    apply changes
    apply memset_outside pointer
    intro offset inside same
    exact outside ⟨offset, by omega, same⟩

theorem kmalloc_returns {state : PhysState} {fuel size order : Nat} (ready : Ready state)
    (chosen : bytesToOrder size = .ok order) (enough : maxOrder < fuel)
    (freeRun : ∃ first, FreeRun state first order) :
    ∃ ptr after, run (kmalloc fuel size kmallocKernel) (idle state) = .returned ptr after := by
  have valid : ValidFlags (allocKernel ||| allocMovable) := Or.inl (by decide)
  obtain ⟨block, after, _, returned, _⟩ :=
    ready.alloc_returns (bytesToOrder_ok chosen).1 valid enough freeRun
  have known : kmallocKernel &&& kmallocTypeMask = kmallocKernel := by decide
  refine ⟨physToVirt (block <<< pageShift % 2 ^ 64), idle after, ?_⟩
  rw [kmalloc, chosen]
  change run (kmallocOrder fuel order kmallocKernel) (idle state) = _
  rw [kmallocOrder, if_pos known, physAlloc, run_bind, run_bind, returned]
  rfl

theorem kmalloc_page_held :
    ∃ machine ptr after, Reachable machine ∧
      run (kmalloc 13 4096 kmallocKernel) machine = .returned ptr after ∧
      ∃ block order, PointsTo after.data ptr block order ∧ 4096 ≤ pageSize * 2 ^ order := by
  obtain ⟨state, reachable, ready, spans, pages⟩ := unused_reachable (by decide : 2 ≤ 2 ^ 52)
  have chosen : bytesToOrder 4096 = .ok 0 := by decide
  obtain ⟨ptr, after, returned⟩ := kmalloc_returns ready chosen (by decide : maxOrder < 13)
    ⟨0, unused_freeRun ready spans pages (by decide)⟩
  obtain ⟨block, order, points, fits⟩ :=
    (kmalloc_holds_iff reachable (by decide : 4096 < 2 ^ 64)).1 ptr after returned
  exact ⟨idle state, ptr, after, reachable, returned, block, order, points,
    fits.mpr (by decide)⟩

theorem kmalloc_word_not_held :
    ∃ machine ptr after, Reachable machine ∧
      run (kmalloc 13 (2 ^ 64 - 1) kmallocKernel) machine = .returned ptr after ∧
      ∀ block order, PointsTo after.data ptr block order → pageSize * 2 ^ order < 2 ^ 64 - 1 := by
  obtain ⟨state, reachable, ready, spans, pages⟩ := unused_reachable (by decide : 2 ≤ 2 ^ 52)
  have chosen : bytesToOrder (2 ^ 64 - 1) = .ok 0 := by decide
  obtain ⟨ptr, after, returned⟩ := kmalloc_returns ready chosen (by decide : maxOrder < 13)
    ⟨0, unused_freeRun ready spans pages (by decide)⟩
  refine ⟨idle state, ptr, after, reachable, returned, ?_⟩
  intro block order points
  have most : 2 ^ order ≤ 2 ^ maxOrder :=
    Nat.pow_le_pow_right (by omega) points.live.isBlock.bounded
  simp only [pageSize, pageShift, maxOrder] at most ⊢
  omega

end Zeptux.Kmalloc
