import Zeptux.Format

/-!
The two arrays that the format engine goes through with an index: the format string, and
`val_buf`, which `_vsnprintf_uint64` fills from its end. Here a read of the format string past
its last character is a fault, and every index into `val_buf` is noted.
-/

namespace Zeptux.Format

open Word

/-! ## The format string -/

/-- `*fmt++`; `none` is a read past the array. -/
def fetch : List Char → Option (Char × List Char)
  | [] => none
  | chr :: fmt => some (chr, fmt)

def fetchIf (option : Bool) (chr : Char) (fmt : List Char) : Option (Char × List Char) :=
  if option then fetch fmt else some (chr, fmt)

def fetchWidth (padCount : Int) (chr : Char) : List Char → Option (Int × Char × List Char)
  | [] => if '0' ≤ chr ∧ chr ≤ '9' then none else some (padCount, chr, [])
  | next :: fmt =>
      if '0' ≤ chr ∧ chr ≤ '9' then fetchWidth (addDigit padCount chr) next fmt
      else some (padCount, chr, next :: fmt)

def fetchOptions (fmt : List Char) : Option (VsnprintfFormat × Bool × Char × List Char) := do
  let (chr, fmt) ← fetch fmt
  let padLeft := chr == '-'
  let (chr, fmt) ← fetchIf padLeft chr fmt
  let padded := !padLeft && (chr == '0' || chr == ' ')
  let padChar := if padded then chr else ' '
  let (chr, fmt) ← fetchIf padded chr fmt
  let (padCount, chr, fmt) ← fetchWidth 0 chr fmt
  let is64 := chr == 'l' || chr == 'L'
  let (chr, fmt) ← fetchIf is64 chr fmt
  return (⟨10, false, padChar, padCount, padLeft⟩, is64, chr, fmt)

section Sink

variable {σ : Type} (putc : σ → Char → σ)

/-- The loop of `vsnprintf` on the array that holds the format string and its terminator. The
outer `none` is a read past the array, or too few rounds. -/
def fetchFrom : Nat → σ → List Char → List Arg → Option (Option σ)
  | 0, _, _, _ => none
  | rounds + 1, state, fmt, args => do
      let (chr, fmt) ← fetch fmt
      if chr = '\x00' then some (some state)
      else if chr ≠ '%' then fetchFrom rounds (putc state chr) fmt args
      else
        let (format, is64, chr, fmt) ← fetchOptions fmt
        if chr = '\x00' then some (some state)
        else
          match convert putc state format is64 chr args with
          | none => some none
          | some (state, args) => fetchFrom rounds state fmt args

end Sink

def vsnprintfFetching (buf : Nat → Char) (n : Nat) (fmt : List Char) (args : List Arg) :
    Option (Option ((Nat → Char) × Int)) :=
  if n = 0 then some (some (buf, 0))
  else do
    let outcome ← fetchFrom VsnprintfState.putc fmt.length ⟨buf, n, 0⟩ fmt args
    return do
      let state ← outcome
      let offset := if state.count < state.n - 1 then state.count else state.n - 1
      return ((state.setBuf offset '\x00').buf, toInt32 state.count)

/-- The character read last, what is left of the array and what is left of the string: with the
terminator both are used up. -/
def Reading (chr : Char) (array rest : List Char) : Prop :=
  chr ≠ '\x00' ∧ array = rest ++ ['\x00'] ∧ '\x00' ∉ rest ∨
    chr = '\x00' ∧ array = [] ∧ rest = []

section Fetching

variable {chr : Char} {array rest : List Char}

theorem Reading.array_eq (reading : Reading chr array rest) (more : chr ≠ '\x00') :
    array = rest ++ ['\x00'] ∧ '\x00' ∉ rest := by
  rcases reading with ⟨_, same, free⟩ | ⟨last, _⟩
  · exact ⟨same, free⟩
  · exact absurd last more

theorem fetch_reading (free : '\x00' ∉ rest) :
    ∃ next array' rest', fetch (rest ++ ['\x00']) = some (next, array') ∧
      nextChar rest = (next, rest') ∧ Reading next array' rest' ∧ rest'.length ≤ rest.length := by
  cases rest with
  | nil => exact ⟨'\x00', [], [], rfl, rfl, Or.inr ⟨rfl, rfl, rfl⟩, Nat.le_refl _⟩
  | cons next rest =>
      rw [List.mem_cons, not_or] at free
      exact ⟨next, rest ++ ['\x00'], rest, rfl, rfl, Or.inl ⟨Ne.symm free.1, rfl, free.2⟩,
        Nat.le_succ _⟩

theorem fetchIf_reading (reading : Reading chr array rest) (option : Bool)
    (more : option = true → chr ≠ '\x00') :
    ∃ next array' rest', fetchIf option chr array = some (next, array') ∧
      (if option then nextChar rest else (chr, rest)) = (next, rest') ∧
      Reading next array' rest' ∧ rest'.length ≤ rest.length := by
  cases option with
  | false => exact ⟨chr, array, rest, rfl, rfl, reading, Nat.le_refl _⟩
  | true =>
      obtain ⟨rfl, free⟩ := reading.array_eq (more rfl)
      exact fetch_reading free

theorem fetchWidth_reading (padCount : Int) (reading : Reading chr array rest) :
    ∃ width next array' rest', fetchWidth padCount chr array = some (width, next, array') ∧
      parseWidth padCount chr rest = (width, next, rest') ∧ Reading next array' rest' ∧
      rest'.length ≤ rest.length := by
  induction rest generalizing padCount chr array with
  | nil =>
      by_cases digit : '0' ≤ chr ∧ chr ≤ '9'
      · have more : chr ≠ '\x00' := by
          rintro rfl
          exact absurd digit.1 (by decide)
        obtain ⟨rfl, _⟩ := reading.array_eq more
        refine ⟨addDigit padCount chr, '\x00', [], [], ?_, ?_, Or.inr ⟨rfl, rfl, rfl⟩,
          Nat.le_refl _⟩
        · rw [List.nil_append, fetchWidth, if_pos digit, fetchWidth, if_neg (by decide)]
        · rw [parseWidth, if_pos digit]
      · refine ⟨padCount, chr, array, [], ?_, ?_, reading, Nat.le_refl _⟩
        · cases array with
          | nil => rw [fetchWidth, if_neg digit]
          | cons next array => rw [fetchWidth, if_neg digit]
        · rw [parseWidth, if_neg digit]
  | cons next rest ih =>
      have more : chr ≠ '\x00' := by
        rintro rfl
        rcases reading with ⟨more, _⟩ | ⟨_, _, empty⟩
        · exact more rfl
        · cases empty
      obtain ⟨rfl, free⟩ := reading.array_eq more
      by_cases digit : '0' ≤ chr ∧ chr ≤ '9'
      · rw [List.mem_cons, not_or] at free
        obtain ⟨width, last, array', rest', fetched, parsed, left, shorter⟩ :=
          ih (addDigit padCount chr) (Or.inl ⟨Ne.symm free.1, rfl, free.2⟩)
        refine ⟨width, last, array', rest', ?_, ?_, left, Nat.le_succ_of_le shorter⟩
        · rw [List.cons_append, fetchWidth, if_pos digit, fetched]
        · rw [parseWidth, if_pos digit, parsed]
      · refine ⟨padCount, chr, next :: rest ++ ['\x00'], next :: rest, ?_, ?_, reading,
          Nat.le_refl _⟩
        · rw [List.cons_append, fetchWidth, if_neg digit]
        · rw [parseWidth, if_neg digit]

theorem fetchOptions_reading (free : '\x00' ∉ rest) :
    ∃ format is64 next array' rest',
      fetchOptions (rest ++ ['\x00']) = some (format, is64, next, array') ∧
      parseOptions rest = (format, is64, next, rest') ∧ Reading next array' rest' ∧
      rest'.length ≤ rest.length := by
  obtain ⟨first, array₁, rest₁, fetched₁, parsed₁, reading₁, shorter₁⟩ := fetch_reading free
  have minus : (first == '-') = true → first ≠ '\x00' := by
    intro equal
    rw [beq_iff_eq.mp equal]
    decide
  obtain ⟨second, array₂, rest₂, fetched₂, parsed₂, reading₂, shorter₂⟩ :=
    fetchIf_reading reading₁ (first == '-') minus
  have padding : (!(first == '-') && (second == '0' || second == ' ')) = true →
      second ≠ '\x00' := by
    intro padded equal
    rw [equal] at padded
    simp at padded
  obtain ⟨third, array₃, rest₃, fetched₃, parsed₃, reading₃, shorter₃⟩ :=
    fetchIf_reading reading₂ (!(first == '-') && (second == '0' || second == ' ')) padding
  obtain ⟨width, fourth, array₄, rest₄, fetched₄, parsed₄, reading₄, shorter₄⟩ :=
    fetchWidth_reading 0 reading₃
  have long : (fourth == 'l' || fourth == 'L') = true → fourth ≠ '\x00' := by
    intro is64 equal
    rw [equal] at is64
    simp at is64
  obtain ⟨fifth, array₅, rest₅, fetched₅, parsed₅, reading₅, shorter₅⟩ :=
    fetchIf_reading reading₄ (fourth == 'l' || fourth == 'L') long
  refine ⟨⟨10, false, if !(first == '-') && (second == '0' || second == ' ') then second else ' ',
    width, first == '-'⟩, fourth == 'l' || fourth == 'L', fifth, array₅, rest₅, ?_, ?_, reading₅,
    by omega⟩
  · simp only [fetchOptions, fetched₁, Option.bind_eq_bind, Option.bind_some, fetched₂, fetched₃,
      fetched₄, fetched₅]
    rfl
  · simp only [parseOptions, parsed₁, parsed₂, parsed₃, parsed₄, parsed₅]

theorem fetchFrom_eq {σ : Type} (putc : σ → Char → σ) (fetches rounds : Nat) (state : σ)
    (text : List Char) (args : List Arg) (free : '\x00' ∉ text) (enough : text.length < fetches)
    (bound : text.length ≤ rounds) :
    fetchFrom putc fetches state (text ++ ['\x00']) args =
      some (formatFrom putc rounds state text args) := by
  induction fetches generalizing rounds state text args with
  | zero => omega
  | succ fetches ih =>
      cases text with
      | nil =>
          cases rounds with
          | zero => rfl
          | succ rounds => rfl
      | cons chr text =>
          cases rounds with
          | zero => cases bound
          | succ rounds =>
              rw [List.length_cons] at enough bound
              rw [List.mem_cons, not_or] at free
              rw [List.cons_append, fetchFrom, formatFrom]
              simp only [fetch, Option.bind_eq_bind, Option.bind_some, if_neg (Ne.symm free.1)]
              split
              · exact ih rounds (putc state chr) text args free.2 (by omega) (by omega)
              · obtain ⟨format, is64, next, array, rest, fetched, parsed, reading, shorter⟩ :=
                  fetchOptions_reading free.2
                simp only [fetched, parsed, Option.bind_some]
                split
                · rfl
                · rename_i more
                  obtain ⟨rfl, restFree⟩ := reading.array_eq more
                  cases convert putc state format is64 next args with
                  | none => rfl
                  | some next =>
                      exact ih rounds next.1 rest next.2 restFree (by omega) (by omega)

/-- No read goes past the terminator, wherever the string ends. -/
theorem vsnprintfFetching_eq (buf : Nat → Char) (n : Nat) {text : List Char}
    (free : '\x00' ∉ text) (args : List Arg) :
    vsnprintfFetching buf n (text ++ ['\x00']) args = some (vsnprintf buf n text args) := by
  rw [vsnprintfFetching, vsnprintf]
  split
  · rfl
  · rw [fetchFrom_eq _ _ text.length _ _ _ free (by simp) (Nat.le_refl _)]
    rfl

end Fetching

/-! ## What reaches the buffer -/

def written (buf : Nat → Char) (count : Nat) : List Char := (List.range count).map buf

theorem overwrite_of_le {buf : Nat → Char} {text : List Char} {index : Nat}
    (beyond : text.length ≤ index) : overwrite buf text index = buf index := by
  rw [overwrite, List.getD_eq_getElem?_getD, List.getElem?_eq_none beyond, Option.getD_none]

theorem written_overwrite (buf : Nat → Char) (text : List Char) :
    written (overwrite buf text) text.length = text := by
  refine List.ext_getElem (by simp [written]) fun index inside bound => ?_
  simp [written, overwrite, List.getElem?_eq_getElem bound]

theorem vsnprintf_writes {n : Nat} (positive : 0 < n) (buf : Nat → Char) {text S : List Char}
    {args : List Arg} (emits : emitted text args = some S) (short : S.length < 2 ^ 31) :
    ∃ after, vsnprintf buf n text args = some (after, (S.length : Int)) ∧
      written after (min S.length (n - 1)) = S.take (n - 1) ∧
      after (min S.length (n - 1)) = '\x00' ∧
      ∀ index, min S.length (n - 1) < index → after index = buf index := by
  have length : (S.take (n - 1)).length = min S.length (n - 1) := by
    rw [List.length_take, Nat.min_comm]
  refine ⟨overwrite buf (S.take (n - 1) ++ ['\x00']), ?_, ?_, ?_, ?_⟩
  · rw [vsnprintf_eq positive, emits, Option.map_some, toInt32_eq short]
  · rw [overwrite_append, length, ← length]
    have below : written (Function.update (overwrite buf (S.take (n - 1))) (S.take (n - 1)).length
        '\x00') (S.take (n - 1)).length =
        written (overwrite buf (S.take (n - 1))) (S.take (n - 1)).length := by
      refine List.map_congr_left fun index inside => Function.update_of_ne ?_ _ _
      exact Nat.ne_of_lt (List.mem_range.mp inside)
    rw [below, written_overwrite]
  · rw [overwrite_append, ← length, Function.update_self]
  · intro index beyond
    rw [overwrite_of_le]
    rw [List.length_append, length]
    exact beyond

theorem vsnprintf_truncates {text S : List Char} {args : List Arg} (free : '\x00' ∉ text)
    (emits : emitted text args = some S) (short : S.length < 2 ^ 31) :
    (∀ (buf : Nat → Char) (n : Nat), 0 < n →
      ∃ after, vsnprintf buf n text args = some (after, (S.length : Int)) ∧
        written after (min S.length (n - 1)) = S.take (n - 1) ∧
        after (min S.length (n - 1)) = '\x00' ∧
        ∀ index, min S.length (n - 1) < index → after index = buf index) ∧
    (∀ (buf buf' : Nat → Char) (n n' : Nat), 0 < n → n ≤ n' →
      ∃ after after' count, vsnprintf buf n text args = some (after, count) ∧
        vsnprintf buf' n' text args = some (after', count) ∧
        written after (min S.length (n - 1)) <+: written after' (min S.length (n' - 1))) ∧
    ∀ (buf : Nat → Char) (n : Nat),
      vsnprintfFetching buf n (text ++ ['\x00']) args = some (vsnprintf buf n text args) := by
  refine ⟨fun buf n positive => vsnprintf_writes positive buf emits short, ?_,
    fun buf n => vsnprintfFetching_eq buf n free args⟩
  intro buf buf' n n' positive order
  obtain ⟨after, returned, shown, _⟩ := vsnprintf_writes positive buf emits short
  obtain ⟨after', returned', shown', _⟩ :=
    vsnprintf_writes (by omega : 0 < n') buf' emits short
  refine ⟨after, after', S.length, returned, returned', ?_⟩
  rw [shown, shown']
  exact List.take_prefix_take_left (by omega)

theorem vsnprintf_truncates_sample :
    ∃ after, vsnprintf (fun _ => 'x') 9 ['%', '5', 'd', '|', '%', 's']
        [.word 42, .str ['a', 'b', 'c', 'd']] = some (after, 10) ∧
      written after 8 = [' ', ' ', ' ', '4', '2', '|', 'a', 'b'] ∧ after 8 = '\x00' := by
  have emits : emitted ['%', '5', 'd', '|', '%', 's'] [.word 42, .str ['a', 'b', 'c', 'd']] =
      some [' ', ' ', ' ', '4', '2', '|', 'a', 'b', 'c', 'd'] := by
    decide +kernel
  obtain ⟨after, returned, shown, ends, _⟩ :=
    (vsnprintf_truncates (by decide) emits (by decide)).1 (fun _ => 'x') 9 (by decide)
  exact ⟨after, returned, shown, ends⟩

/-! ## The buffer for a number -/

def uint64MaxChars : Nat := 20

/-- `val_buf` and the index `i`, with every index into it that was used. -/
structure ValBuf where
  bytes : Int → Char
  i : Int
  used : List Int

def ValBuf.write (valBuf : ValBuf) (index : Int) (chr : Char) : ValBuf :=
  { valBuf with bytes := Function.update valBuf.bytes index chr, used := index :: valBuf.used }

/-- `val_buf[i--] = chr`. -/
def ValBuf.push (valBuf : ValBuf) (chr : Char) : ValBuf :=
  { valBuf.write valBuf.i chr with i := valBuf.i - 1 }

def ValBuf.pushDigits (base : Nat) : Nat → Nat → ValBuf → ValBuf
  | 0, _, valBuf => valBuf
  | rounds + 1, val, valBuf =>
      if val > 0 then
        pushDigits base rounds (val / base) (valBuf.push (digits.getD (val % base) '\x00'))
      else valBuf

def ValBuf.ofDigits (base val : Nat) (bytes : Int → Char) : ValBuf :=
  let valBuf : ValBuf := ⟨bytes, uint64MaxChars - 1, []⟩
  let valBuf :=
    if val = 0 then { valBuf.write (uint64MaxChars - 1) '0' with i := valBuf.i - 1 } else valBuf
  ValBuf.pushDigits base 64 val valBuf

def ValBuf.sign (valBuf : ValBuf) (format : VsnprintfFormat) : ValBuf :=
  if format.neg ∧ format.padChar = '0' then valBuf
  else if format.neg then valBuf.push '-'
  else valBuf

/-- What `_vsnprintf_uint64` writes into `val_buf`. -/
def fillValBuf (val : Nat) (format : VsnprintfFormat) (bytes : Int → Char) : ValBuf :=
  ((ValBuf.ofDigits format.base val bytes).write uint64MaxChars '\x00').sign format

/-- `_vsnprintf_puts` on `&val_buf[index]`: the characters it finds. -/
def ValBuf.read : Nat → Int → ValBuf → List Char × ValBuf
  | 0, _, valBuf => ([], valBuf)
  | rounds + 1, index, valBuf =>
      let seen := { valBuf with used := index :: valBuf.used }
      if valBuf.bytes index = '\x00' then ([], seen)
      else
        let (text, after) := read rounds (index + 1) seen
        (valBuf.bytes index :: text, after)

def valBufText (val : Nat) (format : VsnprintfFormat) : List Char :=
  let valBuf := if val = 0 then ['0'] else fillDigits format.base 64 val []
  if ¬(format.neg ∧ format.padChar = '0') ∧ format.neg then '-' :: valBuf else valBuf

structure ValBuf.Holds (valBuf : ValBuf) (text : List Char) : Prop where
  index : valBuf.i = (uint64MaxChars : Int) - 1 - text.length
  bytes : ∀ offset (inside : offset < text.length),
    valBuf.bytes (valBuf.i + 1 + offset) = text.get ⟨offset, inside⟩
  used : ∀ index ∈ valBuf.used, valBuf.i < index ∧ index ≤ uint64MaxChars

section ValBuf

variable {valBuf : ValBuf} {text : List Char}

theorem ValBuf.Holds.push (holds : valBuf.Holds text) (chr : Char) :
    (valBuf.push chr).Holds (chr :: text) := by
  have place := holds.index
  refine ⟨?_, ?_, ?_⟩
  · change valBuf.i - 1 = _
    rw [List.length_cons]
    omega
  · intro offset inside
    change Function.update valBuf.bytes valBuf.i chr (valBuf.i - 1 + 1 + offset) = _
    cases offset with
    | zero =>
        rw [show valBuf.i - 1 + 1 + ((0 : Nat) : Int) = valBuf.i by omega, Function.update_self]
        rfl
    | succ offset =>
        rw [Function.update_of_ne (by omega)]
        have old := holds.bytes offset (Nat.lt_of_succ_lt_succ inside)
        rw [show valBuf.i - 1 + 1 + ((offset + 1 : Nat) : Int) = valBuf.i + 1 + offset by omega, old]
        rfl
  · intro index member
    change valBuf.i - 1 < index ∧ _
    rcases List.mem_cons.mp member with rfl | old
    · omega
    · have bounds := holds.used index old
      omega

theorem ValBuf.Holds.pushDigits (base : Nat) (rounds val : Nat) (holds : valBuf.Holds text) :
    (ValBuf.pushDigits base rounds val valBuf).Holds (fillDigits base rounds val text) := by
  induction rounds generalizing val valBuf text with
  | zero => exact holds
  | succ rounds ih =>
      rw [ValBuf.pushDigits, fillDigits]
      split
      · exact ih (val / base) (holds.push _)
      · exact holds

theorem ValBuf.Holds.terminate (holds : valBuf.Holds text) :
    (valBuf.write uint64MaxChars '\x00').Holds text := by
  have place := holds.index
  refine ⟨holds.index, ?_, ?_⟩
  · intro offset inside
    change Function.update valBuf.bytes uint64MaxChars '\x00' (valBuf.i + 1 + offset) = _
    rw [Function.update_of_ne (by omega)]
    exact holds.bytes offset inside
  · intro index member
    change valBuf.i < index ∧ _
    rcases List.mem_cons.mp member with rfl | old
    · omega
    · exact holds.used index old

theorem ValBuf.ofDigits_holds (base val : Nat) (bytes : Int → Char) :
    (ValBuf.ofDigits base val bytes).Holds
      (if val = 0 then ['0'] else fillDigits base 64 val []) := by
  have start : ValBuf.Holds ⟨bytes, uint64MaxChars - 1, []⟩ [] :=
    ⟨by simp, fun offset inside => absurd inside (Nat.not_lt_zero _), nofun⟩
  unfold ValBuf.ofDigits
  by_cases zero : val = 0
  · subst zero
    exact start.push '0'
  · simp only [zero, if_false]
    exact start.pushDigits base 64 val

theorem fillValBuf_holds (val : Nat) (format : VsnprintfFormat) (bytes : Int → Char) :
    (fillValBuf val format bytes).Holds (valBufText val format) ∧
      (fillValBuf val format bytes).bytes uint64MaxChars = '\x00' := by
  have digits := (ValBuf.ofDigits_holds format.base val bytes).terminate
  have ends : ((ValBuf.ofDigits format.base val bytes).write uint64MaxChars '\x00').bytes
      uint64MaxChars = '\x00' := by
    simp [ValBuf.write]
  unfold fillValBuf valBufText
  generalize (ValBuf.ofDigits format.base val bytes).write uint64MaxChars '\x00' = valBuf at *
  generalize (if val = 0 then ['0'] else fillDigits format.base 64 val []) = text at *
  rw [ValBuf.sign]
  by_cases zeroPadded : format.neg = true ∧ format.padChar = '0'
  · rw [if_pos zeroPadded, if_neg (fun both => both.1 zeroPadded)]
    exact ⟨digits, ends⟩
  · rw [if_neg zeroPadded]
    by_cases negative : format.neg = true
    · rw [if_pos negative, if_pos ⟨zeroPadded, negative⟩]
      refine ⟨digits.push '-', (Function.update_of_ne ?_ _ _).trans ends⟩
      have place := digits.index
      omega
    · rw [if_neg negative, if_neg (fun both => negative both.2)]
      exact ⟨digits, ends⟩

theorem ValBuf.Holds.read_from (holds : valBuf.Holds text)
    (ends : valBuf.bytes uint64MaxChars = '\x00') (free : ∀ chr ∈ text, chr ≠ '\x00')
    {rounds offset : Nat} (inside : offset ≤ text.length) (enough : text.length < offset + rounds) :
    (ValBuf.read rounds (valBuf.i + 1 + offset) valBuf).1 = text.drop offset ∧
      ∀ index ∈ (ValBuf.read rounds (valBuf.i + 1 + offset) valBuf).2.used,
        valBuf.i < index ∧ index ≤ uint64MaxChars := by
  induction rounds generalizing offset valBuf with
  | zero => omega
  | succ rounds ih =>
      have place := holds.index
      have seen : ({ valBuf with used := (valBuf.i + 1 + offset) :: valBuf.used } : ValBuf).Holds
          text := by
        refine ⟨holds.index, holds.bytes, ?_⟩
        intro index member
        rcases List.mem_cons.mp member with rfl | old
        · change valBuf.i < _ ∧ _
          omega
        · exact holds.used index old
      rw [ValBuf.read]
      by_cases last : offset = text.length
      · have here : valBuf.bytes (valBuf.i + 1 + offset) = '\x00' := by
          rw [← ends]
          congr 1
          omega
        rw [if_pos here, last, List.drop_length]
        exact ⟨rfl, last ▸ seen.used⟩
      · have here := holds.bytes offset (by omega)
        have more : valBuf.bytes (valBuf.i + 1 + offset) ≠ '\x00' := by
          rw [here]
          exact free _ (List.get_mem _ _)
        have next : valBuf.i + 1 + ((offset + 1 : Nat) : Int) = valBuf.i + 1 + offset + 1 := by
          omega
        have later := ih seen ends (by omega : offset + 1 ≤ text.length) (by omega)
        simp only [next] at later
        rw [if_neg more, List.drop_eq_getElem_cons (by omega)]
        exact ⟨congrArg₂ List.cons here later.1, later.2⟩

theorem ValBuf.Holds.read (holds : valBuf.Holds text)
    (ends : valBuf.bytes uint64MaxChars = '\x00') (free : ∀ chr ∈ text, chr ≠ '\x00')
    {rounds : Nat} (enough : text.length < rounds) :
    (ValBuf.read rounds (valBuf.i + 1) valBuf).1 = text ∧
      ∀ index ∈ (ValBuf.read rounds (valBuf.i + 1) valBuf).2.used,
        valBuf.i < index ∧ index ≤ uint64MaxChars := by
  have whole := holds.read_from ends free (Nat.zero_le _) (by omega : text.length < 0 + rounds)
  rw [show valBuf.i + 1 + ((0 : Nat) : Int) = valBuf.i + 1 by omega, List.drop_zero] at whole
  exact whole

end ValBuf

end Zeptux.Format
