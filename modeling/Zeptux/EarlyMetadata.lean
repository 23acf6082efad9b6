import Zeptux.DirectMap
import Zeptux.EarlyMetadataScratch
import Zeptux.EarlyReserved
import Zeptux.Lib.Regions

/-!
Where `early_page_alloc_init` puts its metadata: the scratch pages follow each other, and so do
the state page and the bitmaps in them.
-/

namespace Zeptux.Early

open Page Word X86Paging Regions

/-! ## Pointers through the direct map -/

theorem sub64_directMap {pa : Nat} (low : pa < 2 ^ 47) :
    sub64 (kernelDirectMapBase + pa) kernelDirectMapBase = pa := by
  rw [sub64_eq (Nat.le_add_right _ _)]
  · exact Nat.add_sub_cancel_left _ _
  · unfold kernelDirectMapBase
    omega

theorem loadWord_directMap (mem : Memory) {pa : Nat} (low : pa < 2 ^ 47) :
    loadWord mem (kernelDirectMapBase + pa) = mem pa := by
  rw [loadWord, sub64_directMap low]

theorem storeWord_directMap (mem : Memory) {pa : Nat} (low : pa < 2 ^ 47) (word : Nat) :
    storeWord mem (kernelDirectMapBase + pa) word = Function.update mem pa word := by
  rw [storeWord, sub64_directMap low]

theorem fieldPtr_directMap {pa index : Nat} (low : pa + 8 * index < 2 ^ 47) :
    fieldPtr (kernelDirectMapBase + pa) index = kernelDirectMapBase + (pa + 8 * index) := by
  rw [fieldPtr, add64_eq, Nat.add_assoc]
  unfold kernelDirectMapBase
  omega

theorem spanPtr_directMap {pa index : Nat} (low : pa + (48 + 56 * index) < 2 ^ 47) :
    spanPtr (kernelDirectMapBase + pa) index = kernelDirectMapBase + (pa + (48 + 56 * index)) := by
  rw [spanPtr, sizeofState, sizeofSpan, add64_eq, Nat.add_assoc]
  unfold kernelDirectMapBase
  omega

/-! ## Scratch pages -/

def scratchPage (number : Nat) : Nat := earlyScratchAllocInit.start + pageSize * number

theorem scratchPage_eq (number : Nat) : scratchPage number = 0xc00000 + 4096 * number := by
  have start : earlyScratchAllocInit.start = 0xc00000 := by decide
  rw [scratchPage, start]
  rfl

theorem scratchPage_limit : scratchPage earlyMaxScratchPages = kernelElfAddressPhys := by decide

theorem scratchPageAlloc_ok {before after : BootMemory} {pa : Nat}
    (start : before.scratch.start = earlyScratchAllocInit.start)
    (call : scratchPageAlloc before = .ok (pa, after)) :
    pa = scratchPage before.scratch.pages ∧ ScratchGrown before.scratch after.scratch 1 ∧
      after.mem = zeroPage before.mem (scratchPage before.scratch.pages) := by
  obtain ⟨⟨page, scratch⟩, taken, rest⟩ := bind_ok call
  cases rest
  obtain ⟨grown, place⟩ := earlyScratchPageAlloc_ok taken
  have few := grown.few
  rw [grown.pages, earlyMaxScratchPages] at few
  have address : pa = scratchPage before.scratch.pages := by
    have begins : earlyScratchAllocInit.start = 0xc00000 := by decide
    have size : pageSize = 4096 := rfl
    rw [place, start, scratchPage, Nat.mod_eq_of_lt (by rw [size]; omega), add64_eq]
    rw [begins, size]
    omega
  exact ⟨address, grown, by rw [← address]⟩

def InScratch (first count address : Nat) : Prop :=
  scratchPage first ≤ address ∧ address < scratchPage (first + count)

/-- More scratch pages have been taken, and only these are written. -/
structure PagesTaken (before after : BootMemory) (count : Nat) : Prop where
  grown : ScratchGrown before.scratch after.scratch count
  changes : ChangesOnly (InScratch before.scratch.pages count) before.mem after.mem

theorem zeroPage_changes (mem : Memory) (first : Nat) :
    ChangesOnly (InScratch first 1) mem (zeroPage mem (scratchPage first)) := by
  intro address outside
  have next : scratchPage (first + 1) = scratchPage first + pageSize := by
    rw [scratchPage, scratchPage, Nat.mul_add, Nat.mul_one, Nat.add_assoc]
  rw [InScratch, next] at outside
  exact if_neg outside

theorem InScratch.mono {first count other more address : Nat}
    (inside : InScratch first count address) (low : other ≤ first)
    (high : first + count ≤ other + more) : InScratch other more address := by
  simp only [InScratch, scratchPage_eq] at inside ⊢
  omega

theorem furtherPagesAlloc_ok {before after : BootMemory} {count : Nat}
    (start : before.scratch.start = earlyScratchAllocInit.start)
    (few : before.scratch.pages ≤ earlyMaxScratchPages)
    (call : furtherPagesAlloc count before = .ok after) : PagesTaken before after count := by
  induction count generalizing before with
  | zero =>
      cases call
      exact ⟨⟨rfl, rfl, few⟩, .refl _ _⟩
  | succ count ih =>
      obtain ⟨⟨pa, middle⟩, first, rest⟩ := bind_ok call
      obtain ⟨_, grown, zeroed⟩ := scratchPageAlloc_ok start first
      have later := ih (grown.start.trans start) grown.few rest
      have whole := grown.trans later.grown
      rw [Nat.add_comm] at whole
      have changes := later.changes
      rw [grown.pages] at changes
      have firstChanges := zeroPage_changes before.mem before.scratch.pages
      rw [← zeroed] at firstChanges
      refine ⟨whole, .trans (firstChanges.mono ?_) (changes.mono ?_)⟩
      · exact fun address inside => inside.mono (by omega) (by omega)
      · exact fun address inside => inside.mono (by omega) (by omega)

/-! ## One bitmap -/

structure BitmapTaken (field bitmapPages : Nat) (before after : BootMemory) : Prop where
  grown : ScratchGrown before.scratch after.scratch bitmapPages
  pointer : after.mem field = kernelDirectMapBase + scratchPage before.scratch.pages
  changes : ChangesOnly (fun address => address = field ∨
    InScratch before.scratch.pages bitmapPages address) before.mem after.mem

theorem bitmapAlloc_ok {before after : BootMemory} {field bitmapPages : Nat}
    (start : before.scratch.start = earlyScratchAllocInit.start)
    (below : field < scratchPage before.scratch.pages) (positive : 0 < bitmapPages)
    (small : bitmapPages < 2 ^ 31)
    (call : bitmapAlloc (kernelDirectMapBase + field) bitmapPages before = .ok after) :
    BitmapTaken field bitmapPages before after := by
  obtain ⟨⟨pa, middle⟩, first, rest⟩ := bind_ok call
  obtain ⟨rfl, grown, zeroed⟩ := scratchPageAlloc_ok start first
  have few := grown.few
  rw [grown.pages, earlyMaxScratchPages] at few
  have low : scratchPage before.scratch.pages < 2 ^ 47 := by
    rw [scratchPage_eq]
    omega
  simp only [toInt32_eq small, (by omega : ((bitmapPages : Int) - 1).toNat = bitmapPages - 1),
    physToVirt_eq low, storeWord_directMap _ (Nat.lt_trans below low)] at rest
  generalize stored : Function.update middle.mem field
    (kernelDirectMapBase + scratchPage before.scratch.pages) = mem at rest
  have begins : (BootMemory.mk middle.scratch mem).scratch.start = earlyScratchAllocInit.start :=
    grown.start.trans start
  have later := furtherPagesAlloc_ok begins grown.few rest
  have changes := later.changes
  simp only [grown.pages] at changes
  have whole := grown.trans later.grown
  rw [Nat.add_sub_cancel' positive] at whole
  refine ⟨whole, ?_, ?_⟩
  · have outside : ¬InScratch (before.scratch.pages + 1) (bitmapPages - 1) field := by
      simp only [InScratch, scratchPage_eq] at below ⊢
      omega
    rw [changes field outside, ← stored, Function.update_self]
  · have firstChanges := zeroPage_changes before.mem before.scratch.pages
    rw [← zeroed] at firstChanges
    rw [← stored] at changes
    refine .trans (firstChanges.mono ?_) (.trans (.update _ _ (Or.inl rfl)) (changes.mono ?_))
    · exact fun address inside => Or.inr (inside.mono (by omega) (by omega))
    · exact fun address inside => Or.inr (inside.mono (by omega) (by omega))

def wordsOf (numBits : Nat) : Nat := (numBits + 63) / 64

structure EmptyBitmapAt (mem : Memory) (pa numBits : Nat) : Prop where
  header : mem pa = numBits + wordsOf numBits * 2 ^ 32
  clear : ∀ word < wordsOf numBits, mem (pa + 8 * (1 + word)) = 0

def InBitmap (pa numBits address : Nat) : Prop :=
  pa ≤ address ∧ address < pa + 8 * (1 + wordsOf numBits)

theorem EmptyBitmapAt.keep {mem after : Memory} {pa numBits : Nat} {touched : Nat → Prop}
    (empty : EmptyBitmapAt mem pa numBits) (changes : ChangesOnly touched mem after)
    (outside : ∀ address, InBitmap pa numBits address → ¬touched address) :
    EmptyBitmapAt after pa numBits where
  header := by
    rw [changes pa (outside pa ⟨Nat.le_refl _, by omega⟩), empty.header]
  clear := by
    intro word inside
    rw [changes _ (outside _ ⟨by omega, by omega⟩), empty.clear word inside]

theorem bitmapInit_ok (mem : Memory) {pa numBits : Nat} (small : numBits < 2 ^ 32)
    (low : pa + 8 * (1 + wordsOf numBits) < 2 ^ 47) :
    EmptyBitmapAt (bitmapInit (kernelDirectMapBase + pa) numBits mem) pa numBits ∧
      ChangesOnly (InBitmap pa numBits) mem
        (bitmapInit (kernelDirectMapBase + pa) numBits mem) := by
  have words : Bitmap.calcWords numBits % 2 ^ 32 = wordsOf numBits := by
    rw [Bitmap.calcWords_eq (by omega), wordsOf, Nat.mod_eq_of_lt (by omega)]
  have fewWords : wordsOf numBits < 2 ^ 32 := by
    unfold wordsOf
    omega
  let header := numBits + wordsOf numBits * 2 ^ 32
  have shape : bitmapInit (kernelDirectMapBase + pa) numBits mem =
      (List.range (wordsOf numBits)).foldl
        (fun mem word => storeWord mem (fieldPtr (kernelDirectMapBase + pa) (1 + word)) 0)
        (Function.update mem pa header) := by
    have read : (bitmapAt (Function.update mem pa header) (kernelDirectMapBase + pa)).numWords =
        wordsOf numBits := by
      rw [bitmapAt, loadWord_directMap _ (by omega), Function.update_self]
      change (numBits + wordsOf numBits * 2 ^ 32) / 2 ^ 32 % 2 ^ 32 = wordsOf numBits
      omega
    simp only [bitmapInit, words, Nat.mod_eq_of_lt small]
    rw [storeWord_directMap _ (by omega), bitmapClearAll, read]
  have run : (∀ word < wordsOf numBits,
        bitmapInit (kernelDirectMapBase + pa) numBits mem (pa + 8 * (1 + word)) = 0) ∧
      ChangesOnly (fun address => pa < address ∧ InBitmap pa numBits address)
        (Function.update mem pa header) (bitmapInit (kernelDirectMapBase + pa) numBits mem) := by
    rw [shape]
    refine foldl_range_run (motive := fun count now =>
      (∀ word < count, now (pa + 8 * (1 + word)) = 0) ∧
        ChangesOnly (fun address => pa < address ∧ InBitmap pa numBits address)
          (Function.update mem pa header) now) ⟨by simp, .refl _ _⟩ ?_
    rintro index inside now ⟨cleared, changes⟩
    rw [fieldPtr_directMap (by omega), storeWord_directMap _ (by omega)]
    refine ⟨?_, changes.trans (.update _ _ ⟨by omega, by omega, by omega⟩)⟩
    intro word below
    by_cases last : word = index
    · rw [last, Function.update_self]
    · rw [Function.update_of_ne (by omega)]
      exact cleared word (by omega)
  obtain ⟨cleared, changes⟩ := run
  refine ⟨⟨?_, cleared⟩, .trans (.update _ _ ⟨Nat.le_refl _, by omega⟩)
    (changes.mono fun _ inside => inside.2)⟩
  rw [changes pa (fun inside => Nat.lt_irrefl _ inside.1), Function.update_self]

/-! ## The bitmaps of a span -/

def fieldsAlloc (span bitmapPages : Nat) : List Nat → BootMemory → Except Panic BootMemory
  | [], state => return state
  | field :: rest, state => do
      let state ← bitmapAlloc (fieldPtr span field) bitmapPages state
      fieldsAlloc span bitmapPages rest state

def fieldInit (span numPages : Nat) (mem : Memory) (field : Nat) : Memory :=
  bitmapInit (loadWord mem (fieldPtr span field)) numPages mem

theorem foldl_four {σ : Type} (step : σ → Nat → σ) (state : σ) :
    (List.range' 3 4).foldl step state = step (step (step (step state 3) 4) 5) 6 := rfl

theorem spanBitmapsInit_eq (span numPages : Nat) (mem : Memory) :
    spanBitmapsInit span numPages mem =
      (List.range' 3 4).foldl (fieldInit span numPages) mem := by
  rw [foldl_four, fieldInit, fieldInit, fieldInit, fieldInit, spanBitmapsInit, spanAllocBitmapPtr,
    spanEphemeralBitmapPtr, spanPagetableBitmapPtr, spanPhysblockBitmapPtr]

def InFields (span first count address : Nat) : Prop :=
  span + 8 * first ≤ address ∧ address < span + 8 * (first + count)

structure FieldsTaken (span bitmapPages first count : Nat) (before after : BootMemory) : Prop where
  grown : ScratchGrown before.scratch after.scratch (count * bitmapPages)
  pointers : ∀ index < count, after.mem (span + 8 * (first + index)) =
    kernelDirectMapBase + scratchPage (before.scratch.pages + index * bitmapPages)
  changes : ChangesOnly (fun address => InFields span first count address ∨
    InScratch before.scratch.pages (count * bitmapPages) address) before.mem after.mem

theorem fieldsAlloc_ok {span bitmapPages first count : Nat} {before after : BootMemory}
    (start : before.scratch.start = earlyScratchAllocInit.start)
    (few : before.scratch.pages ≤ earlyMaxScratchPages)
    (below : span + 8 * (first + count) ≤ scratchPage before.scratch.pages)
    (positive : 0 < bitmapPages) (small : bitmapPages < 2 ^ 31)
    (call : fieldsAlloc (kernelDirectMapBase + span) bitmapPages (List.range' first count) before =
      .ok after) : FieldsTaken span bitmapPages first count before after := by
  induction count generalizing first before with
  | zero =>
      cases call
      exact ⟨⟨rfl, by simp, few⟩, fun index none => absurd none (by omega), .refl _ _⟩
  | succ count ih =>
      rw [List.range'_succ] at call
      obtain ⟨middle, one, rest⟩ := bind_ok call
      have low : scratchPage before.scratch.pages < 2 ^ 47 := by
        rw [earlyMaxScratchPages] at few
        rw [scratchPage_eq]
        omega
      rw [fieldPtr_directMap (by omega)] at one
      have taken := bitmapAlloc_ok start (by omega) positive small one
      have pages := taken.grown.pages
      have stillBelow : span + 8 * (first + 1 + count) ≤ scratchPage middle.scratch.pages := by
        rw [pages]
        rw [scratchPage_eq] at below ⊢
        omega
      have later := ih (taken.grown.start.trans start) taken.grown.few stillBelow rest
      have whole := taken.grown.trans later.grown
      have changes := later.changes
      have pointers := later.pointers
      rw [pages] at changes pointers
      have product : (count + 1) * bitmapPages = bitmapPages + count * bitmapPages := by
        rw [Nat.succ_mul, Nat.add_comm]
      rw [← product] at whole
      refine ⟨whole, ?_, .trans (taken.changes.mono ?_) (changes.mono ?_)⟩
      · intro index inside
        cases index with
        | zero =>
            have outside : ¬(InFields span (first + 1) count (span + 8 * (first + 0)) ∨
                InScratch (before.scratch.pages + bitmapPages) (count * bitmapPages)
                  (span + 8 * (first + 0))) := by
              simp only [InFields, InScratch, scratchPage_eq] at below ⊢
              omega
            rw [changes _ outside, Nat.add_zero, taken.pointer, Nat.zero_mul, Nat.add_zero]
        | succ index =>
            have pointer := pointers index (by omega)
            rw [(by omega : first + (index + 1) = first + 1 + index), pointer, Nat.succ_mul]
            congr 2
            omega
      · rintro address (rfl | inside)
        · exact Or.inl ⟨Nat.le_refl _, by omega⟩
        · exact Or.inr (inside.mono (Nat.le_refl _) (by omega))
      · rintro address (inside | inside)
        · obtain ⟨from_, upTo⟩ := inside
          exact Or.inl ⟨by omega, by omega⟩
        · exact Or.inr (inside.mono (by omega) (by omega))

theorem wordsOf_fits (numPages : Nat) :
    8 * (1 + wordsOf numPages) ≤ pageSize * bitmapPagesOf numPages := by
  have size : pageSize = 4096 := rfl
  rw [wordsOf, bitmapPagesOf, size]
  omega

theorem InBitmap.inScratch {numPages first address : Nat}
    (inside : InBitmap (scratchPage first) numPages address) :
    InScratch first (bitmapPagesOf numPages) address := by
  have fits := wordsOf_fits numPages
  have size : pageSize = 4096 := rfl
  rw [size] at fits
  simp only [InBitmap, InScratch, scratchPage_eq] at inside ⊢
  omega

theorem InScratch.later {first count address : Nat} {index bitmapPages : Nat} (less : index < count)
    (inside : InScratch (first + index * bitmapPages) bitmapPages address) :
    InScratch first (count * bitmapPages) address := by
  have product := Nat.mul_le_mul_right bitmapPages less
  rw [Nat.succ_mul] at product
  exact inside.mono (Nat.le_add_right _ _) (by omega)

theorem InScratch.apart {first address bitmapPages index other : Nat} (different : index ≠ other)
    (here : InScratch (first + index * bitmapPages) bitmapPages address) :
    ¬InScratch (first + other * bitmapPages) bitmapPages address := by
  intro there
  simp only [InScratch, scratchPage_eq] at here there
  rcases Nat.lt_or_gt_of_ne different with less | greater
  · have product := Nat.mul_le_mul_right bitmapPages less
    rw [Nat.succ_mul] at product
    omega
  · have product := Nat.mul_le_mul_right bitmapPages greater
    rw [Nat.succ_mul] at product
    omega

theorem fieldsInit_ok {span numPages first count pages : Nat} {mem : Memory}
    (small : numPages < 2 ^ 32) (few : pages + count * bitmapPagesOf numPages ≤ earlyMaxScratchPages)
    (below : span + 8 * (first + count) ≤ scratchPage pages)
    (pointers : ∀ index < count, mem (span + 8 * (first + index)) =
      kernelDirectMapBase + scratchPage (pages + index * bitmapPagesOf numPages)) :
    (∀ index < count, EmptyBitmapAt
        ((List.range' first count).foldl (fieldInit (kernelDirectMapBase + span) numPages) mem)
        (scratchPage (pages + index * bitmapPagesOf numPages)) numPages) ∧
      ChangesOnly (InScratch pages (count * bitmapPagesOf numPages)) mem
        ((List.range' first count).foldl (fieldInit (kernelDirectMapBase + span) numPages) mem) := by
  rw [List.range'_eq_map_range, List.foldl_map]
  refine foldl_range_run (motive := fun done now => done ≤ count →
    (∀ index < done, EmptyBitmapAt now
        (scratchPage (pages + index * bitmapPagesOf numPages)) numPages) ∧
      ChangesOnly (InScratch pages (count * bitmapPagesOf numPages)) mem now) ?_ ?_
    (Nat.le_refl count)
  · exact fun _ => ⟨fun index none => absurd none (by omega), .refl _ _⟩
  · intro done inside now before upTo
    obtain ⟨empty, changes⟩ := before (by omega)
    have product := Nat.mul_le_mul_right (bitmapPagesOf numPages) inside
    rw [Nat.succ_mul] at product
    rw [earlyMaxScratchPages] at few
    have low : scratchPage pages < 2 ^ 47 := by
      rw [scratchPage_eq]
      omega
    have outside : ¬InScratch pages (count * bitmapPagesOf numPages)
        (span + 8 * (first + done)) := by
      simp only [InScratch]
      omega
    have pointer : loadWord now (fieldPtr (kernelDirectMapBase + span) (first + done)) =
        kernelDirectMapBase + scratchPage (pages + done * bitmapPagesOf numPages) := by
      rw [fieldPtr_directMap (by omega), loadWord_directMap _ (by omega),
        changes _ outside, pointers done inside]
    have fits := wordsOf_fits numPages
    have size : pageSize = 4096 := rfl
    rw [size] at fits
    have room : scratchPage (pages + done * bitmapPagesOf numPages) + 8 * (1 + wordsOf numPages) <
        2 ^ 47 := by
      rw [scratchPage_eq]
      omega
    obtain ⟨isEmpty, only⟩ := bitmapInit_ok now small room
    rw [fieldInit, pointer]
    refine ⟨?_, changes.trans (only.mono fun address here => here.inScratch.later inside)⟩
    intro index less
    by_cases last : index = done
    · rw [last]
      exact isEmpty
    · exact (empty index (by omega)).keep only fun address here there =>
        here.inScratch.apart last there.inScratch

theorem fieldsAlloc_four {span bitmapPages : Nat} {first second third fourth before : BootMemory}
    (firstCall : bitmapAlloc (spanAllocBitmapPtr span) bitmapPages before = .ok first)
    (secondCall : bitmapAlloc (spanEphemeralBitmapPtr span) bitmapPages first = .ok second)
    (thirdCall : bitmapAlloc (spanPagetableBitmapPtr span) bitmapPages second = .ok third)
    (fourthCall : bitmapAlloc (spanPhysblockBitmapPtr span) bitmapPages third = .ok fourth) :
    fieldsAlloc span bitmapPages (List.range' 3 4) before = .ok fourth := by
  rw [spanAllocBitmapPtr] at firstCall
  rw [spanEphemeralBitmapPtr] at secondCall
  rw [spanPagetableBitmapPtr] at thirdCall
  rw [spanPhysblockBitmapPtr] at fourthCall
  have bind : ∀ (state : BootMemory) (rest : BootMemory → Except Panic BootMemory),
      (Except.ok state >>= rest) = rest state := fun _ _ => rfl
  simp only [List.range'_succ, List.range'_zero, Nat.reduceAdd, fieldsAlloc, firstCall, secondCall,
    thirdCall, fourthCall, bind]
  rfl

/-- A span has its four bitmaps, one after the other. -/
structure SpanTaken (span numPages : Nat) (before after : BootMemory) : Prop where
  grown : ScratchGrown before.scratch after.scratch (4 * bitmapPagesOf numPages)
  pointers : ∀ index < 4, after.mem (span + 8 * (3 + index)) =
    kernelDirectMapBase + scratchPage (before.scratch.pages + index * bitmapPagesOf numPages)
  empty : ∀ index < 4, EmptyBitmapAt after.mem
    (scratchPage (before.scratch.pages + index * bitmapPagesOf numPages)) numPages
  changes : ChangesOnly (fun address => InFields span 3 4 address ∨
    InScratch before.scratch.pages (4 * bitmapPagesOf numPages) address) before.mem after.mem

theorem spanBitmapsAlloc_ok {span numPages count : Nat} {before after : BootMemory}
    (start : before.scratch.start = earlyScratchAllocInit.start)
    (few : before.scratch.pages ≤ earlyMaxScratchPages)
    (below : span + sizeofSpan ≤ scratchPage before.scratch.pages)
    (small : numPages < 2 ^ 32) (stored : before.mem (span + 8) = numPages)
    (call : spanBitmapsAlloc (kernelDirectMapBase + span) before = .ok (count, after)) :
    count = 4 * bitmapPagesOf numPages ∧ SpanTaken span numPages before after := by
  rw [sizeofSpan] at below
  have low : scratchPage before.scratch.pages < 2 ^ 47 := by
    rw [earlyMaxScratchPages] at few
    rw [scratchPage_eq]
    omega
  have read : loadWord before.mem (fieldPtr (kernelDirectMapBase + span) 1) = numPages := by
    rw [fieldPtr_directMap (by omega), loadWord_directMap _ (by omega), stored]
  have positive : 0 < bitmapPagesOf numPages := by
    unfold bitmapPagesOf
    omega
  have fewPages : bitmapPagesOf numPages < 2 ^ 31 := by
    unfold bitmapPagesOf
    omega
  unfold spanBitmapsAlloc at call
  simp only [spanNumPagesPtr, read, bytesToPages_calcSize (by omega : numPages < 2 ^ 48)] at call
  obtain ⟨first, firstCall, call⟩ := bind_ok call
  obtain ⟨second, secondCall, call⟩ := bind_ok call
  obtain ⟨third, thirdCall, call⟩ := bind_ok call
  obtain ⟨middle, fourthCall, call⟩ := bind_ok call
  cases call
  have taken : fieldsAlloc (kernelDirectMapBase + span) (bitmapPagesOf numPages)
      (List.range' 3 4) before = .ok middle :=
    fieldsAlloc_four firstCall secondCall thirdCall fourthCall
  have fields : FieldsTaken span (bitmapPagesOf numPages) 3 4 before middle :=
    fieldsAlloc_ok start few (by omega) positive fewPages taken
  have limit := fields.grown.few
  rw [fields.grown.pages] at limit
  obtain ⟨empty, only⟩ :=
    fieldsInit_ok small limit (by omega : span + 8 * (3 + 4) ≤ _) fields.pointers
  rw [← spanBitmapsInit_eq] at only
  simp only [← spanBitmapsInit_eq] at empty
  refine ⟨Nat.mul_comm _ _, fields.grown, ?_, empty, ?_⟩
  · intro index inside
    have outside : ¬InScratch before.scratch.pages (4 * bitmapPagesOf numPages)
        (span + 8 * (3 + index)) := by
      simp only [InScratch]
      omega
    exact (only _ outside).trans (fields.pointers index inside)
  · exact fields.changes.trans (only.mono fun address inside => Or.inr inside)

/-! ## The records of the spans -/

def spanAddress (statePage index : Nat) : Nat := statePage + (sizeofState + sizeofSpan * index)

def InSpans (statePage first count address : Nat) : Prop :=
  spanAddress statePage first ≤ address ∧ address < spanAddress statePage (first + count)

theorem spanAddress_eq (statePage index : Nat) :
    spanAddress statePage index = statePage + (48 + 56 * index) := rfl

theorem spanPtr_spanAddress {statePage index : Nat} (low : spanAddress statePage index + 56 < 2 ^ 47) :
    spanPtr (kernelDirectMapBase + statePage) index =
      kernelDirectMapBase + spanAddress statePage index := by
  rw [spanAddress_eq] at low ⊢
  exact spanPtr_directMap (by omega)

theorem spanAt_directMap (mem : Memory) {span : Nat} (low : span + 56 < 2 ^ 47) :
    spanAt mem (kernelDirectMapBase + span) =
      ⟨mem span, mem (span + 8), mem (span + 16), mem (span + 24), mem (span + 32),
        mem (span + 40), mem (span + 48)⟩ := by
  have field : ∀ index < 7, loadWord mem (fieldPtr (kernelDirectMapBase + span) index) =
      mem (span + 8 * index) := by
    intro index inside
    rw [fieldPtr_directMap (by omega), loadWord_directMap _ (by omega)]
  simp only [spanAt, spanStartPtr, spanNumPagesPtr, spanNumAllocatedPagesPtr, spanAllocBitmapPtr,
    spanEphemeralBitmapPtr, spanPagetableBitmapPtr, spanPhysblockBitmapPtr, field 0 (by decide),
    field 1 (by decide), field 2 (by decide), field 3 (by decide), field 4 (by decide),
    field 5 (by decide), field 6 (by decide), Nat.reduceMul, Nat.add_zero]

theorem spanAt_keep {mem after : Memory} {span : Nat} {touched : Nat → Prop}
    (changes : ChangesOnly touched mem after) (low : span + 56 < 2 ^ 47)
    (outside : ∀ address, span ≤ address → address < span + 56 → ¬touched address) :
    spanAt after (kernelDirectMapBase + span) = spanAt mem (kernelDirectMapBase + span) := by
  have same : ∀ offset < 56, after (span + offset) = mem (span + offset) := fun offset inside =>
    changes _ (outside _ (Nat.le_add_right _ _) (by omega))
  rw [spanAt_directMap _ low, spanAt_directMap _ low, same 8 (by decide), same 16 (by decide),
    same 24 (by decide), same 32 (by decide), same 40 (by decide), same 48 (by decide)]
  have start := same 0 (by decide)
  rw [Nat.add_zero] at start
  rw [start]

def bitmapRegion (numPages bitmap : Nat) : Region :=
  ⟨sub64 bitmap kernelDirectMapBase, pageSize * bytesToPages (Bitmap.calcSize numPages)⟩

def SpanRecord.regions (span : SpanRecord) : List Region :=
  span.bitmaps.map (bitmapRegion span.numPages)

/-- The record describes the entry, and its bitmaps are there and empty. -/
structure SpanRecord.Describes (mem : Memory) (span : SpanRecord) (entry : E820Entry) : Prop where
  start : span.start = entry.base
  numPages : span.numPages = entry.size >>> pageShift
  numAllocatedPages : span.numAllocatedPages = 0
  bitmaps : ∀ bitmap ∈ span.bitmaps,
    EmptyBitmapAt mem (sub64 bitmap kernelDirectMapBase) span.numPages

structure SpanLaid (span numPages : Nat) (entry : E820Entry) (before after : BootMemory) :
    Prop where
  grown : ScratchGrown before.scratch after.scratch (4 * bitmapPagesOf numPages)
  describes : (spanAt after.mem (kernelDirectMapBase + span)).Describes after.mem entry
  regions : Consecutive (scratchPage before.scratch.pages)
    (spanAt after.mem (kernelDirectMapBase + span)).regions (scratchPage after.scratch.pages)
  changes : ChangesOnly (fun address => span ≤ address ∧ address < span + sizeofSpan ∨
    InScratch before.scratch.pages (4 * bitmapPagesOf numPages) address)
    before.mem after.mem

structure SpanStarted (span numPages : Nat) (entry : E820Entry) (mem after : Memory) : Prop where
  start : after span = entry.base
  numPages : after (span + 8) = numPages
  numAllocatedPages : after (span + 16) = 0
  changes : ChangesOnly (fun address => span ≤ address ∧ address < span + sizeofSpan) mem after

theorem spanStarted {span numPages : Nat} {entry : E820Entry} {mem : Memory} (low : span + 56 < 2 ^ 47)
    (zero : mem (span + 16) = 0) :
    SpanStarted span numPages entry mem
      (storeWord (storeWord mem (spanStartPtr (kernelDirectMapBase + span)) entry.base)
        (spanNumPagesPtr (kernelDirectMapBase + span)) numPages) := by
  have size : sizeofSpan = 56 := rfl
  rw [spanStartPtr, spanNumPagesPtr, fieldPtr_directMap (by omega), fieldPtr_directMap (by omega),
    storeWord_directMap _ (by omega), storeWord_directMap _ (by omega), Nat.mul_zero, Nat.add_zero,
    Nat.mul_one]
  refine ⟨?_, Function.update_self _ _ _, ?_, ?_⟩
  · rw [Function.update_of_ne (by omega), Function.update_self]
  · rw [Function.update_of_ne (by omega), Function.update_of_ne (by omega), zero]
  · exact .trans (.update _ _ ⟨by omega, by omega⟩) (.update _ _ ⟨by omega, by omega⟩)

theorem spanBitmapsAlloc_laid {span count numPages : Nat} {entry : E820Entry}
    {before started after : BootMemory}
    (start : before.scratch.start = earlyScratchAllocInit.start)
    (few : before.scratch.pages ≤ earlyMaxScratchPages)
    (below : span + sizeofSpan ≤ scratchPage before.scratch.pages)
    (isPages : entry.size >>> pageShift = numPages) (small : numPages < 2 ^ 32)
    (scratch : started.scratch = before.scratch)
    (stored : SpanStarted span numPages entry before.mem started.mem)
    (call : spanBitmapsAlloc (kernelDirectMapBase + span) started = .ok (count, after)) :
    count = 4 * bitmapPagesOf numPages ∧ SpanLaid span numPages entry before after := by
  obtain ⟨startedScratch, startedMem⟩ := started
  obtain rfl : startedScratch = before.scratch := scratch
  obtain ⟨isCount, taken⟩ := @spanBitmapsAlloc_ok span _ count ⟨before.scratch, startedMem⟩ after
    start few below small stored.numPages call
  have low : scratchPage before.scratch.pages < 2 ^ 47 := by
    rw [earlyMaxScratchPages] at few
    rw [scratchPage_eq]
    omega
  rw [sizeofSpan] at below
  have kept : ∀ offset < 24, after.mem (span + offset) = startedMem (span + offset) := by
    intro offset inside
    apply taken.changes
    simp only [InFields, InScratch]
    omega
  have startField := (kept 0 (by decide)).trans stored.start
  have pagesField := (kept 8 (by decide)).trans stored.numPages
  have allocatedField := (kept 16 (by decide)).trans stored.numAllocatedPages
  have limit := taken.grown.few
  have pages := taken.grown.pages
  simp only [earlyMaxScratchPages] at limit pages
  have pointers := taken.pointers
  have empty := taken.empty
  simp only [Nat.forall_lt_succ_right, Nat.not_lt_zero, IsEmpty.forall_iff, implies_true, true_and,
    Nat.reduceAdd, Nat.reduceMul, Nat.zero_mul, Nat.add_zero, Nat.one_mul] at pointers empty
  obtain ⟨⟨⟨firstPointer, secondPointer⟩, thirdPointer⟩, fourthPointer⟩ := pointers
  obtain ⟨⟨⟨firstEmpty, secondEmpty⟩, thirdEmpty⟩, fourthEmpty⟩ := empty
  have near : ∀ number ≤ 1024, scratchPage number < 2 ^ 47 := by
    intro number few
    rw [scratchPage_eq]
    omega
  have record : spanAt after.mem (kernelDirectMapBase + span) =
      ⟨entry.base, numPages, 0, kernelDirectMapBase + scratchPage before.scratch.pages,
        kernelDirectMapBase + scratchPage (before.scratch.pages + bitmapPagesOf numPages),
        kernelDirectMapBase + scratchPage (before.scratch.pages + 2 * bitmapPagesOf numPages),
        kernelDirectMapBase + scratchPage (before.scratch.pages + 3 * bitmapPagesOf numPages)⟩ := by
    rw [Nat.add_zero] at startField
    rw [spanAt_directMap _ (by omega), startField, pagesField, allocatedField, firstPointer,
      secondPointer, thirdPointer, fourthPointer]
  have place : ∀ number ≤ 1024,
      sub64 (kernelDirectMapBase + scratchPage number) kernelDirectMapBase = scratchPage number :=
    fun number few => sub64_directMap (near number few)
  refine ⟨isCount, taken.grown, ?_, ?_, ?_⟩
  · rw [record]
    refine ⟨rfl, isPages.symm, rfl, ?_⟩
    simp only [SpanRecord.bitmaps, List.mem_cons, List.not_mem_nil, or_false]
    rintro bitmap (rfl | rfl | rfl | rfl)
    · rwa [place _ (by omega)]
    · rwa [place _ (by omega)]
    · rwa [place _ (by omega)]
    · rwa [place _ (by omega)]
  · have size : pageSize = 4096 := rfl
    rw [record, pages]
    simp only [SpanRecord.regions, SpanRecord.bitmaps, List.map_cons, List.map_nil, bitmapRegion,
      bytesToPages_calcSize (by omega : numPages < 2 ^ 48), Consecutive, Region.stop, true_and,
      place _ (by omega : before.scratch.pages ≤ 1024),
      place _ (by omega : before.scratch.pages + bitmapPagesOf numPages ≤ 1024),
      place _ (by omega : before.scratch.pages + 2 * bitmapPagesOf numPages ≤ 1024),
      place _ (by omega : before.scratch.pages + 3 * bitmapPagesOf numPages ≤ 1024)]
    simp only [scratchPage_eq, size]
    omega
  · refine .trans (stored.changes.mono fun address inside => Or.inl inside)
      (taken.changes.mono ?_)
    rintro address (⟨from24, upTo⟩ | inside)
    · exact Or.inl ⟨by omega, by rw [sizeofSpan]; omega⟩
    · exact Or.inr inside

theorem SpanRecord.Describes.keep {mem after : Memory} {span : SpanRecord} {entry : E820Entry}
    {touched : Nat → Prop} (describes : span.Describes mem entry)
    (small : entry.size >>> pageShift < 2 ^ 32) (changes : ChangesOnly touched mem after)
    (outside : ∀ region ∈ span.regions, ∀ address, region.Holds address → ¬touched address) :
    span.Describes after entry where
  start := describes.start
  numPages := describes.numPages
  numAllocatedPages := describes.numAllocatedPages
  bitmaps := by
    intro bitmap member
    apply (describes.bitmaps bitmap member).keep changes
    rintro address ⟨low, high⟩
    apply outside (bitmapRegion span.numPages bitmap) (List.mem_map_of_mem member)
    refine ⟨low, ?_⟩
    have fits := wordsOf_fits span.numPages
    rw [← describes.numPages] at small
    rw [Region.stop, bitmapRegion, bytesToPages_calcSize (by omega)]
    change address < sub64 bitmap kernelDirectMapBase + pageSize * bitmapPagesOf span.numPages
    omega

def spanRecords (mem : Memory) (allocState first count : Nat) : List SpanRecord :=
  (List.range' first count).map fun index => spanAt mem (spanPtr allocState index)

theorem spanRecords_succ (mem : Memory) (allocState first count : Nat) :
    spanRecords mem allocState first (count + 1) =
      spanAt mem (spanPtr allocState first) :: spanRecords mem allocState (first + 1) count := by
  rw [spanRecords, List.range'_succ, List.map_cons, ← spanRecords]

structure SpansLaid (statePage first added : Nat) (entries : List E820Entry)
    (before after : BootMemory) : Prop where
  grown : ScratchGrown before.scratch after.scratch added
  described : List.Forall₂ (fun span entry => SpanRecord.Describes after.mem span entry)
    (spanRecords after.mem (kernelDirectMapBase + statePage) first entries.length) entries
  regions : Consecutive (scratchPage before.scratch.pages)
    ((spanRecords after.mem (kernelDirectMapBase + statePage) first entries.length).flatMap
      SpanRecord.regions) (scratchPage after.scratch.pages)
  changes : ChangesOnly (fun address => InSpans statePage first entries.length address ∨
    InScratch before.scratch.pages added address) before.mem after.mem

theorem SpanLaid.cons {statePage first numPages added : Nat} {entry : E820Entry}
    {rest : List E820Entry} {before middle after : BootMemory}
    (few : before.scratch.pages ≤ earlyMaxScratchPages)
    (room : spanAddress statePage (first + (rest.length + 1)) ≤ scratchPage before.scratch.pages)
    (isPages : entry.size >>> pageShift = numPages) (small : numPages < 2 ^ 32)
    (laid : SpanLaid (spanAddress statePage first) numPages entry before middle)
    (later : SpansLaid statePage (first + 1) added rest middle after) :
    SpansLaid statePage first (4 * bitmapPagesOf numPages + added) (entry :: rest) before after := by
  have pages := laid.grown.pages
  have changes := later.changes
  rw [pages] at changes
  rw [earlyMaxScratchPages] at few
  have low : spanAddress statePage first + 56 < 2 ^ 47 := by
    simp only [spanAddress_eq, scratchPage_eq] at room ⊢
    omega
  have ptr := spanPtr_spanAddress low
  have sameRecord : spanAt after.mem (kernelDirectMapBase + spanAddress statePage first) =
      spanAt middle.mem (kernelDirectMapBase + spanAddress statePage first) := by
    apply spanAt_keep changes low
    intro address from_ upTo
    simp only [InSpans, InScratch, spanAddress_eq, scratchPage_eq] at from_ upTo room ⊢
    omega
  have describes : (spanAt middle.mem
      (kernelDirectMapBase + spanAddress statePage first)).Describes after.mem entry := by
    apply laid.describes.keep (by rw [isPages]; exact small) changes
    rintro region member address ⟨from_, upTo⟩
    obtain ⟨lower, upper⟩ := laid.regions.inside region member
    rw [pages] at upper
    simp only [InSpans, InScratch, spanAddress_eq, scratchPage_eq] at lower upper room ⊢
    omega
  refine ⟨laid.grown.trans later.grown, ?_, ?_, .trans (laid.changes.mono ?_) (changes.mono ?_)⟩
  · rw [List.length_cons, spanRecords_succ, ptr, sameRecord]
    exact List.Forall₂.cons describes later.described
  · rw [List.length_cons, spanRecords_succ, ptr, sameRecord, List.flatMap_cons]
    exact laid.regions.append later.regions
  · rintro address (⟨from_, upTo⟩ | inside)
    · left
      rw [sizeofSpan] at upTo
      simp only [InSpans, spanAddress_eq, List.length_cons] at from_ upTo ⊢
      omega
    · exact Or.inr (inside.mono (Nat.le_refl _) (by omega))
  · rintro address (⟨from_, upTo⟩ | inside)
    · left
      simp only [InSpans, spanAddress_eq, List.length_cons] at from_ upTo ⊢
      omega
    · exact Or.inr (inside.mono (by omega) (by omega))

theorem SpanLaid.zero_later {statePage first count numPages : Nat} {entry : E820Entry}
    {before middle : BootMemory}
    (laid : SpanLaid (spanAddress statePage first) numPages entry before middle)
    (room : spanAddress statePage (first + (count + 1)) ≤ scratchPage before.scratch.pages)
    (zero : ∀ address, InSpans statePage first (count + 1) address → before.mem address = 0) :
    ∀ address, InSpans statePage (first + 1) count address → middle.mem address = 0 := by
  rintro address ⟨from_, upTo⟩
  have untouched : ¬(spanAddress statePage first ≤ address ∧
      address < spanAddress statePage first + sizeofSpan ∨
      InScratch before.scratch.pages (4 * bitmapPagesOf numPages) address) := by
    rw [sizeofSpan]
    simp only [InScratch, spanAddress_eq, scratchPage_eq] at from_ upTo room ⊢
    omega
  rw [laid.changes address untouched]
  apply zero
  simp only [InSpans, spanAddress_eq] at from_ upTo ⊢
  omega

theorem spanRound_laid {statePage first added : Nat} {entry : E820Entry}
    {before middle : BootMemory}
    (start : before.scratch.start = earlyScratchAllocInit.start)
    (few : before.scratch.pages ≤ earlyMaxScratchPages)
    (room : spanAddress statePage (first + 1) ≤ scratchPage before.scratch.pages)
    (small : entry.size >>> pageShift < 2 ^ 32)
    (zero : before.mem (spanAddress statePage first + 16) = 0)
    (call : spanBitmapsAlloc (spanPtr (kernelDirectMapBase + statePage) first)
      ⟨before.scratch, storeWord (storeWord before.mem
        (spanStartPtr (spanPtr (kernelDirectMapBase + statePage) first)) entry.base)
        (spanNumPagesPtr (spanPtr (kernelDirectMapBase + statePage) first))
        (entry.size >>> pageShift)⟩ = .ok (added, middle)) :
    added = 4 * bitmapPagesOf (entry.size >>> pageShift) ∧
      SpanLaid (spanAddress statePage first) (entry.size >>> pageShift) entry before middle := by
  have pagesBound : before.scratch.pages ≤ 1024 := few
  have low : spanAddress statePage first + 56 < 2 ^ 47 := by
    simp only [spanAddress_eq, scratchPage_eq] at room ⊢
    omega
  have below : spanAddress statePage first + sizeofSpan ≤ scratchPage before.scratch.pages := by
    rw [sizeofSpan]
    simp only [spanAddress_eq] at room ⊢
    omega
  have stored := @spanStarted _ (entry.size >>> pageShift) entry before.mem low zero
  rw [spanPtr_spanAddress low] at call
  generalize storeWord (storeWord before.mem _ entry.base) _ (entry.size >>> pageShift) = mem
    at stored call
  exact @spanBitmapsAlloc_laid _ added _ entry before ⟨before.scratch, mem⟩ middle start few below rfl
    small rfl stored call

theorem spansInitFrom_ok {info : BootInfo} {statePage : Nat} (remaining i : Nat)
    {first count total : Nat} {before after : BootMemory} {entries : List E820Entry}
    (isEntries : entries = (slice info.e820Entries i remaining).filter fun entry =>
      entry.type = e820TypeRam)
    (start : before.scratch.start = earlyScratchAllocInit.start)
    (few : before.scratch.pages ≤ earlyMaxScratchPages)
    (room : spanAddress statePage (first + entries.length) ≤ scratchPage before.scratch.pages)
    (small : ∀ entry ∈ entries, entry.size >>> pageShift < 2 ^ 32)
    (zero : ∀ address, InSpans statePage first entries.length address → before.mem address = 0)
    (counted : count ≤ before.scratch.pages)
    (call : spansInitFrom info (kernelDirectMapBase + statePage) remaining i first count before =
      .ok (total, after)) :
    ∃ added, total = count + added ∧ SpansLaid statePage first added entries before after := by
  induction remaining generalizing i first count before entries with
  | zero =>
      cases call
      subst isEntries
      exact ⟨0, rfl, ⟨rfl, rfl, few⟩, List.Forall₂.nil, rfl, .refl _ _⟩
  | succ remaining ih =>
      rw [spansInitFrom] at call
      rw [slice] at isEntries
      by_cases ram : (info.e820Entries i).type = e820TypeRam
      · rw [if_neg (by simp [ram])] at call
        rw [List.filter_cons_of_pos (by simp [ram])] at isEntries
        subst isEntries
        generalize others : (slice info.e820Entries (i + 1) remaining).filter (fun entry =>
          entry.type = e820TypeRam) = rest at room small zero ⊢
        generalize info.e820Entries i = entry at call small ⊢
        rw [List.length_cons] at room zero
        have size := small entry List.mem_cons_self
        have clear : before.mem (spanAddress statePage first + 16) = 0 := by
          apply zero
          simp only [InSpans, spanAddress_eq]
          omega
        have roundRoom : spanAddress statePage (first + 1) ≤ scratchPage before.scratch.pages := by
          simp only [spanAddress_eq] at room ⊢
          omega
        obtain ⟨⟨added, middle⟩, firstCall, restCall⟩ := bind_ok call
        obtain ⟨rfl, laid⟩ := spanRound_laid start few roundRoom size clear firstCall
        have pages := laid.grown.pages
        have limit : middle.scratch.pages ≤ 1024 := laid.grown.few
        simp only [add64_eq (by omega : count + 4 * bitmapPagesOf (entry.size >>> pageShift) < 2 ^ 64)]
          at restCall
        have laterRoom : spanAddress statePage (first + 1 + rest.length) ≤
            scratchPage middle.scratch.pages := by
          simp only [spanAddress_eq, scratchPage_eq] at room ⊢
          omega
        obtain ⟨more, isTotal, later⟩ := ih (i + 1) others.symm (laid.grown.start.trans start)
          laid.grown.few laterRoom (fun other member => small other (List.mem_cons_of_mem _ member))
          (laid.zero_later room zero) (by omega) restCall
        exact ⟨_, by rw [isTotal, Nat.add_assoc], laid.cons few room rfl size later⟩
      · rw [if_pos ram] at call
        rw [List.filter_cons_of_neg (by simp [ram])] at isEntries
        exact ih (i + 1) isEntries start few room small zero counted call

/-! ## The metadata as a whole -/

/-- The state page with the structures of the spans, and the pages of all bitmaps. -/
def metadataRegions (info : BootInfo) (result : MetadataInit) : List Region :=
  ⟨result.firstScratchPage, pageSize⟩ ::
    (spanRecords result.state.mem result.allocState 0 info.ramEntries.length).flatMap
      SpanRecord.regions

/-- Memory after the loop: the state page is the first of the pages that were taken. -/
structure MetadataLaid (info : BootInfo) (before : BootMemory) (result : MetadataInit) : Prop where
  first : result.firstScratchPage = scratchPage before.scratch.pages
  allocState : result.allocState = kernelDirectMapBase + scratchPage before.scratch.pages
  grown : ScratchGrown before.scratch result.state.scratch result.numScratchPages
  totalPages : loadWord result.state.mem (stateTotalPagesPtr result.allocState) =
    bytesToPages info.totalAvailRamBytes
  numSpans : loadWord result.state.mem (stateNumSpansPtr result.allocState) = info.numRamSpans
  described : List.Forall₂ (fun span entry => SpanRecord.Describes result.state.mem span entry)
    (spanRecords result.state.mem result.allocState 0 info.ramEntries.length) info.ramEntries
  regions : Consecutive (scratchPage before.scratch.pages) (metadataRegions info result)
    (scratchPage result.state.scratch.pages)

theorem metadataInit_ok {info : BootInfo} {before : BootMemory} {result : MetadataInit}
    (start : before.scratch.start = earlyScratchAllocInit.start)
    (few : info.ramEntries.length ≤ maxE820RamEntries)
    (small : ∀ entry ∈ info.ramEntries, entry.size >>> pageShift < 2 ^ 32)
    (call : metadataInit info before = .ok result) : MetadataLaid info before result := by
  unfold metadataInit at call
  obtain ⟨⟨pa, middle⟩, firstCall, call⟩ := bind_ok call
  obtain ⟨rfl, grown, zeroed⟩ := scratchPageAlloc_ok start firstCall
  simp only at call
  split at call
  · cases call
  obtain ⟨⟨total, after⟩, spansCall, call⟩ := bind_ok call
  cases call
  have limit : middle.scratch.pages ≤ 1024 := grown.few
  have pages := grown.pages
  have spans : info.ramEntries.length ≤ 72 := few
  have next : scratchPage middle.scratch.pages = scratchPage before.scratch.pages + 4096 := by
    rw [pages, scratchPage_eq, scratchPage_eq]
    omega
  have low : scratchPage before.scratch.pages + 4096 < 2 ^ 47 := by
    rw [scratchPage_eq]
    omega
  generalize statePage : scratchPage before.scratch.pages = page at *
  rw [physToVirt_eq (by omega), stateTotalPagesPtr, stateNumSpansPtr,
    fieldPtr_directMap (by omega), fieldPtr_directMap (by omega),
    storeWord_directMap _ (by omega), storeWord_directMap _ (by omega)] at spansCall
  generalize stored : Function.update (Function.update middle.mem (page + 8 * 0)
    (bytesToPages info.totalAvailRamBytes)) (page + 8 * 5) info.numRamSpans = mem at spansCall
  have zero : ∀ address, InSpans page 0 info.ramEntries.length address → mem address = 0 := by
    rintro address ⟨from_, upTo⟩
    rw [spanAddress_eq] at from_ upTo
    rw [← stored, Function.update_of_ne (by omega), Function.update_of_ne (by omega), zeroed,
      zeroPage, if_pos ⟨by omega, by change address < page + 4096; omega⟩]
  obtain ⟨added, rfl, laid⟩ := @spansInitFrom_ok info page info.numE820Entries 0 0 1 total
    ⟨middle.scratch, mem⟩ after info.ramEntries rfl (grown.start.trans start) grown.few (by
      change spanAddress page _ ≤ scratchPage middle.scratch.pages
      rw [spanAddress_eq, next]
      omega)
    small zero (by change 1 ≤ middle.scratch.pages; omega) spansCall
  have header : ∀ address, page ≤ address → address < page + 48 → after.mem address = mem address := by
    intro address from_ upTo
    apply laid.changes
    change ¬(InSpans page 0 info.ramEntries.length address ∨
      InScratch middle.scratch.pages added address)
    rw [InSpans, spanAddress_eq, InScratch, next]
    omega
  have pointer : physToVirt page = kernelDirectMapBase + page := physToVirt_eq (by omega)
  refine ⟨statePage.symm, by rw [statePage, pointer], grown.trans laid.grown, ?_, ?_, ?_, ?_⟩
  · rw [pointer, stateTotalPagesPtr, fieldPtr_directMap (by omega),
      loadWord_directMap _ (by omega), header _ (by omega) (by omega), ← stored,
      Function.update_of_ne (by omega), Function.update_self]
  · rw [pointer, stateNumSpansPtr, fieldPtr_directMap (by omega),
      loadWord_directMap _ (by omega), header _ (by omega) (by omega), ← stored,
      Function.update_self]
  · rw [pointer]
    exact laid.described
  · rw [metadataRegions, pointer, statePage]
    have later := laid.regions
    rw [next] at later
    exact ⟨rfl, later⟩

theorem MetadataLaid.inside {info : BootInfo} {before : BootMemory} {result : MetadataInit}
    (laid : MetadataLaid info before result) : ∀ region ∈ metadataRegions info result,
      earlyScratchAllocInit.start ≤ region.start ∧ region.stop ≤ kernelElfAddressPhys := by
  intro region member
  have limit := laid.grown.few
  obtain ⟨from_, upTo⟩ := laid.regions.inside region member
  have top : scratchPage result.state.scratch.pages ≤ scratchPage earlyMaxScratchPages := by
    rw [scratchPage_eq, scratchPage_eq]
    omega
  rw [scratchPage_limit] at top
  rw [scratchPage] at from_
  omega

structure BitmapHeld (mem : Memory) (numPages bitmap : Nat) : Prop where
  numBits : (bitmapAt mem bitmap).numBits = numPages
  words : numPages ≤ 64 * (bitmapAt mem bitmap).numWords
  inside : 8 + 8 * (bitmapAt mem bitmap).numWords ≤ (bitmapRegion numPages bitmap).size

theorem wordsOf_lt {numPages : Nat} (small : numPages < 2 ^ 32) : wordsOf numPages < 2 ^ 32 := by
  unfold wordsOf
  omega

theorem EmptyBitmapAt.numBits {mem : Memory} {numPages ptr : Nat} (small : numPages < 2 ^ 32)
    (empty : EmptyBitmapAt mem (sub64 ptr kernelDirectMapBase) numPages) :
    (bitmapAt mem ptr).numBits = numPages := by
  have header : loadWord mem ptr = numPages + wordsOf numPages * 2 ^ 32 := empty.header
  change loadWord mem ptr % 2 ^ 32 = numPages
  rw [header]
  omega

theorem EmptyBitmapAt.numWords {mem : Memory} {numPages ptr : Nat} (small : numPages < 2 ^ 32)
    (empty : EmptyBitmapAt mem (sub64 ptr kernelDirectMapBase) numPages) :
    (bitmapAt mem ptr).numWords = wordsOf numPages := by
  have words := wordsOf_lt small
  have header : loadWord mem ptr = numPages + wordsOf numPages * 2 ^ 32 := empty.header
  change loadWord mem ptr / 2 ^ 32 % 2 ^ 32 = wordsOf numPages
  rw [header]
  omega

theorem EmptyBitmapAt.held {mem : Memory} {numPages bitmap : Nat} (small : numPages < 2 ^ 32)
    (empty : EmptyBitmapAt mem (sub64 bitmap kernelDirectMapBase) numPages) :
    BitmapHeld mem numPages bitmap := by
  refine ⟨empty.numBits small, ?_, ?_⟩
  · rw [empty.numWords small, wordsOf]
    omega
  · have fits := wordsOf_fits numPages
    rw [empty.numWords small, bitmapRegion, bytesToPages_calcSize (by omega)]
    change 8 + 8 * wordsOf numPages ≤ pageSize * bitmapPagesOf numPages
    omega

/-- The metadata does not overlap, and its scratch pages are handed to `alloc_init_pages`. -/
structure MetadataApart (info : BootInfo) (before : BootMemory) (result : MetadataInit) : Prop where
  placed : sub64 result.allocState kernelDirectMapBase = result.firstScratchPage
  statePage : sizeofState + sizeofSpan * info.ramEntries.length ≤ pageSize
  spans : List.Forall₂
    (fun span entry => SpanRecord.start span = entry.base ∧
      span.numPages = entry.size >>> pageShift)
    (spanRecords result.state.mem result.allocState 0 info.ramEntries.length) info.ramEntries
  bitmaps : ∀ span ∈ spanRecords result.state.mem result.allocState 0 info.ramEntries.length,
    ∀ bitmap ∈ span.bitmaps, BitmapHeld result.state.mem span.numPages bitmap
  apart : (metadataRegions info result).Pairwise Region.Apart
  inside : ∀ region ∈ metadataRegions info result,
    earlyScratchAllocInit.start ≤ region.start ∧ region.stop ≤ kernelElfAddressPhys
  first : result.firstScratchPage =
    earlyScratchAllocInit.start + pageSize * before.scratch.pages
  counted : result.state.scratch.pages = before.scratch.pages + result.numScratchPages
  passed : earlyPageAllocInit info before.scratch =
    (fun state => (state, result.state.scratch)) <$>
      allocInitPages info result.firstScratchPage result.numScratchPages
        (emptyState (bytesToPages info.totalAvailRamBytes) (info.layout.take info.numRamSpans))

theorem exists_of_forall₂ {α β : Type} {related : α → β → Prop} {left : List α} {right : List β}
    (pairs : List.Forall₂ related left right) :
    ∀ first ∈ left, ∃ second ∈ right, related first second := by
  induction pairs with
  | nil => simp
  | cons pair _ ih =>
      intro first member
      rcases List.mem_cons.mp member with rfl | later
      · exact ⟨_, List.mem_cons_self, pair⟩
      · obtain ⟨second, inRest, here⟩ := ih first later
        exact ⟨second, List.mem_cons_of_mem _ inRest, here⟩

theorem metadataInit_apart {info : BootInfo} {before : BootMemory} {result : MetadataInit}
    (start : before.scratch.start = earlyScratchAllocInit.start)
    (few : info.ramEntries.length ≤ maxE820RamEntries)
    (small : ∀ entry ∈ info.ramEntries, entry.size >>> pageShift < 2 ^ 32)
    (call : metadataInit info before = .ok result) : MetadataApart info before result := by
  have laid := metadataInit_ok start few small call
  have limit := laid.grown.few
  have low : scratchPage before.scratch.pages < 2 ^ 47 := by
    have pages := laid.grown.pages
    rw [earlyMaxScratchPages] at limit
    rw [scratchPage_eq]
    omega
  refine ⟨?_, ?_, ?_, ?_, laid.regions.apart, laid.inside, laid.first, laid.grown.pages, ?_⟩
  · rw [laid.allocState, sub64_directMap low, laid.first]
  · have spans : info.ramEntries.length ≤ 72 := few
    change 48 + 56 * info.ramEntries.length ≤ 4096
    omega
  · exact laid.described.imp fun span entry describes => ⟨describes.start, describes.numPages⟩
  · intro span member bitmap isBitmap
    obtain ⟨entry, isEntry, describes⟩ := exists_of_forall₂ laid.described span member
    have size := small entry isEntry
    rw [← describes.numPages] at size
    exact (describes.bitmaps bitmap isBitmap).held size
  · rw [earlyPageAllocInit_eq, call]
    exact pure_bind result _

theorem holeInfo_metadata_apart :
    ∃ result, metadataInit holeInfo ⟨earlyScratchAllocInit, fun _ => 0⟩ = .ok result ∧
      MetadataApart holeInfo ⟨earlyScratchAllocInit, fun _ => 0⟩ result := by
  have returns : (metadataInit holeInfo ⟨earlyScratchAllocInit, fun _ => 0⟩).isOk = true := by
    decide +kernel
  cases call : metadataInit holeInfo ⟨earlyScratchAllocInit, fun _ => 0⟩ with
  | error panic =>
      rw [call] at returns
      cases returns
  | ok result => exact ⟨result, rfl, metadataInit_apart rfl (by decide) (by decide) call⟩

/-! ## The allocator's state in memory -/

/-- Memory holds the bitmap; words that the bitmap does not count are left out. -/
structure BitmapMatches (mem : Memory) (ptr : Nat) (bitmap : Bitmap) : Prop where
  numBits : (bitmapAt mem ptr).numBits = bitmap.numBits
  numWords : (bitmapAt mem ptr).numWords = bitmap.numWords
  data : ∀ word < bitmap.numWords, (bitmapAt mem ptr).data word = bitmap.data word

structure SpanRecord.Matches (mem : Memory) (record : SpanRecord) (span : PageAllocSpan) :
    Prop where
  start : record.start = span.start
  numPages : record.numPages = span.numPages
  numAllocatedPages : record.numAllocatedPages = span.numAllocatedPages
  allocBitmap : BitmapMatches mem record.allocBitmap span.allocBitmap
  ephemeralBitmap : BitmapMatches mem record.ephemeralBitmap span.ephemeralBitmap
  pagetableBitmap : BitmapMatches mem record.pagetableBitmap span.pagetableBitmap
  physblockBitmap : BitmapMatches mem record.physblockBitmap span.physblockBitmap

theorem EmptyBitmapAt.matches {mem : Memory} {numPages ptr : Nat} (small : numPages < 2 ^ 32)
    (low : sub64 ptr kernelDirectMapBase < 2 ^ 47)
    (empty : EmptyBitmapAt mem (sub64 ptr kernelDirectMapBase) numPages) :
    BitmapMatches mem ptr (emptyBitmap numPages) := by
  have words := wordsOf_lt small
  have counted : (emptyBitmap numPages).numWords = wordsOf numPages := by
    change Bitmap.calcWords numPages % 2 ^ 32 = wordsOf numPages
    rw [Bitmap.calcWords_eq (by omega)]
    exact Nat.mod_eq_of_lt words
  refine ⟨?_, ?_, ?_⟩
  · rw [empty.numBits small]
    exact (Nat.mod_eq_of_lt small).symm
  · rw [empty.numWords small, counted]
  · intro word inside
    rw [counted] at inside
    have stored : loadWord mem (fieldPtr ptr (1 + word)) = 0 := by
      rw [loadWord, fieldPtr, sub64_add64 (by omega)]
      exact empty.clear word inside
    change BitVec.ofNat 64 (loadWord mem (fieldPtr ptr (1 + word))) = _
    rw [stored, emptyBitmap, Bitmap.init, Bitmap.clearAll]
    exact (ite_self _).symm

theorem SpanRecord.Describes.matches {mem : Memory} {record : SpanRecord} {entry : E820Entry}
    (small : record.numPages < 2 ^ 32)
    (low : ∀ bitmap ∈ record.bitmaps, sub64 bitmap kernelDirectMapBase < 2 ^ 47)
    (describes : record.Describes mem entry) : record.Matches mem entry.extent.emptySpan := by
  have held : ∀ bitmap ∈ record.bitmaps, BitmapMatches mem bitmap (emptyBitmap record.numPages) :=
    fun bitmap member => (describes.bitmaps bitmap member).matches small (low bitmap member)
  have pages : record.numPages = entry.extent.numPages := describes.numPages
  rw [pages] at held
  exact ⟨describes.start, pages, describes.numAllocatedPages, held _ (by simp [SpanRecord.bitmaps]),
    held _ (by simp [SpanRecord.bitmaps]), held _ (by simp [SpanRecord.bitmaps]), held _ (by simp [SpanRecord.bitmaps])⟩

/-- Memory holds the state that `alloc_init_pages` starts from. -/
theorem metadataInit_matches {info : BootInfo} {before : BootMemory} {result : MetadataInit}
    (start : before.scratch.start = earlyScratchAllocInit.start)
    (few : info.ramEntries.length ≤ maxE820RamEntries)
    (small : ∀ entry ∈ info.ramEntries, entry.size >>> pageShift < 2 ^ 32)
    (call : metadataInit info before = .ok result) :
    List.Forall₂ (SpanRecord.Matches result.state.mem)
      (spanRecords result.state.mem result.allocState 0 info.ramEntries.length)
      (emptyState (bytesToPages info.totalAvailRamBytes) info.layout).spans := by
  have laid := metadataInit_ok start few small call
  have fit : ∀ record ∈ spanRecords result.state.mem result.allocState 0 info.ramEntries.length,
      record.numPages < 2 ^ 32 ∧
        ∀ bitmap ∈ record.bitmaps, sub64 bitmap kernelDirectMapBase < 2 ^ 47 := by
    intro record member
    obtain ⟨entry, isEntry, describes⟩ := exists_of_forall₂ laid.described record member
    refine ⟨by rw [describes.numPages]; exact small entry isEntry, fun bitmap isBitmap => ?_⟩
    obtain ⟨_, upTo⟩ := laid.inside (bitmapRegion record.numPages bitmap)
      (List.mem_cons_of_mem _ (List.mem_flatMap.mpr
        ⟨record, member, List.mem_map_of_mem isBitmap⟩))
    have bound : sub64 bitmap kernelDirectMapBase ≤ kernelElfAddressPhys :=
      (Nat.le_add_right _ _).trans upTo
    unfold kernelElfAddressPhys at bound
    omega
  rw [emptyState, BootInfo.layout, List.map_map, List.forall₂_map_right_iff]
  refine ((List.forall₂_and_left _ _).mpr ⟨fit, laid.described⟩).imp ?_
  rintro record entry ⟨⟨pages, low⟩, describes⟩
  exact describes.matches pages low

end Zeptux.Early
