import Mathlib.Data.List.Forall2
import Mathlib.Data.List.Induction
import Zeptux.Format
import Zeptux.LogCore

/-!
Which messages the kernel log holds. While the ring fills, message `i` is in slot `i`;
the message after the last slot goes past the end of the array.
-/

namespace Zeptux.Log

open Format

def Holds (entry : KernelLogEntry) (message : Message) : Prop :=
  entry.flags = message.flags ∧ ∃ out, emitted message.fmt message.args = some out ∧
    ∀ index ≤ (out.take (kernelLogBufSize - 1)).length,
      entry.buf index = (out.take (kernelLogBufSize - 1)).getD index '\x00'

def ringEntries (state : KernelLogState) : List KernelLogEntry :=
  (List.range state.numEntries).map fun index =>
    state.entries ((state.readOffset + index) % kernelLogMaxNumEntries)

structure RingCorrect (start : Kernel) (messages : List Message) (after : Kernel) : Prop where
  slots : ∀ earlier message later, messages = earlier ++ message :: later →
    ∀ kernel, logAll start earlier = .ok kernel →
      (nextWriteEntry kernel.log).1 < kernelLogMaxNumEntries
  numEntries : after.log.numEntries = min messages.length kernelLogMaxNumEntries
  entries : List.Forall₂ Holds (ringEntries after.log)
    (messages.drop (messages.length - after.log.numEntries))

/-- The arguments match the format and the level passes the filter. -/
structure Logged (global : KernelGlobal) (message : Message) : Prop where
  passes : passesLevel global message.flags
  matching : (emitted message.fmt message.args).isSome

theorem formatInto_ok {buf : Nat → Char} {n : Nat} {fmt : List Char} {args : List Arg}
    {out : List Char} (positive : 0 < n) (text : emitted fmt args = some out) :
    formatInto buf n fmt args = .ok (overwrite buf (out.take (n - 1) ++ ['\x00'])) := by
  rw [formatInto, vsnprintf_eq positive, text]
  rfl

theorem earlyPrintf_returns {fmt : List Char} {args : List Arg} (kernel : Kernel)
    (matching : (emitted fmt args).isSome) :
    ∃ console, earlyPrintf kernel fmt args = .ok { kernel with console := console } := by
  obtain ⟨out, text⟩ := Option.isSome_iff_exists.mp matching
  rw [earlyPrintf, formatInto_ok (by decide) text]
  exact ⟨_, rfl⟩

theorem levelName_matches {level : Nat} {name : List Char} (named : levelName level = some name) :
    (emitted name []).isSome := by
  unfold levelName at named
  repeat' split at named
  all_goals cases named
  all_goals decide

theorem line_matches (text : List Char) : (emitted ['%', 's', '\n'] [.str text]).isSome := rfl

theorem maybeEchoLog_returns (kernel : Kernel) (flags : Nat) (buf : Nat → Char)
    (stage : kernel.global.stage = .hasRingBuffer) :
    ∃ console, maybeEchoLog kernel flags buf = .ok { kernel with console := console } := by
  unfold maybeEchoLog
  by_cases quiet : kernel.global.logEcho = false
  · exact ⟨kernel.console, by simp [quiet]; rfl⟩
  · simp only [Bool.not_eq_false] at quiet
    simp only [quiet, stage]
    cases named : levelName (flags &&& kernelLogMask) with
    | none => exact earlyPrintf_returns kernel (line_matches _)
    | some name =>
        obtain ⟨console, printed⟩ := earlyPrintf_returns kernel (levelName_matches named)
        obtain ⟨final, rest⟩ := earlyPrintf_returns { kernel with console := console }
          (line_matches (bufString kernelLogBufSize buf))
        refine ⟨final, ?_⟩
        simp only [Bool.not_true, Bool.false_eq_true, ↓reduceIte, printed]
        exact rest

theorem nextWriteEntry_entries (state : KernelLogState) :
    (nextWriteEntry state).2.entries = state.entries := by
  unfold nextWriteEntry
  split <;> rfl

theorem holds_overwrite {message : Message} {out : List Char} (timestamp : Nat)
    (buf : Nat → Char) (text : emitted message.fmt message.args = some out) :
    Holds ⟨timestamp, message.flags,
      overwrite buf (out.take (kernelLogBufSize - 1) ++ ['\x00'])⟩ message := by
  refine ⟨rfl, out, text, ?_⟩
  intro index inside
  generalize out.take (kernelLogBufSize - 1) = kept at inside
  rw [overwrite_append]
  by_cases last : index = kept.length
  · subst index
    simp
  · have before : index < kept.length := by omega
    simp [last, overwrite, before]

theorem logVprintf_returns {kernel : Kernel} {message : Message}
    (stage : kernel.global.stage = .hasRingBuffer) (logged : Logged kernel.global message) :
    ∃ entry console, Holds entry message ∧
      logVprintf kernel message = .ok
        { kernel with
          log := { (nextWriteEntry kernel.log).2 with
            entries := Function.update kernel.log.entries (nextWriteEntry kernel.log).1 entry }
          console := console } := by
  obtain ⟨out, text⟩ := Option.isSome_iff_exists.mp logged.matching
  have passes := logged.passes
  have holds := holds_overwrite (kernel.log.entries (nextWriteEntry kernel.log).1).timestamp
    (kernel.log.entries (nextWriteEntry kernel.log).1).buf text
  obtain ⟨console, echoed⟩ := maybeEchoLog_returns
    { kernel with
      log := { (nextWriteEntry kernel.log).2 with
        entries := Function.update kernel.log.entries (nextWriteEntry kernel.log).1 _ } }
    message.flags _ stage
  refine ⟨_, console, holds, ?_⟩
  unfold logVprintf
  simp only [passes, not_true_eq_false, ↓reduceIte, nextWriteEntry_entries,
    formatInto_ok (by decide : 0 < kernelLogBufSize) text]
  exact echoed

/-! ## The ring while it fills -/

structure Filling (start kernel : Kernel) (messages : List Message) : Prop where
  global : kernel.global = start.global
  numEntries : kernel.log.numEntries = messages.length
  readOffset : kernel.log.readOffset = 0
  writeOffset : kernel.log.writeOffset = messages.length
  entries : ∀ index message, messages[index]? = some message →
    Holds (kernel.log.entries index) message

theorem Filling.slot {start kernel : Kernel} {messages : List Message}
    (filling : Filling start kernel messages) :
    (nextWriteEntry kernel.log).1 = messages.length := by
  unfold nextWriteEntry
  split <;> exact filling.writeOffset

theorem Filling.step {start kernel : Kernel} {messages : List Message} {message : Message}
    (stage : start.global.stage = .hasRingBuffer) (logged : Logged start.global message)
    (filling : Filling start kernel messages) (room : messages.length < kernelLogMaxNumEntries) :
    ∃ after, logVprintf kernel message = .ok after ∧
      Filling start after (messages ++ [message]) := by
  rw [← filling.global] at stage logged
  obtain ⟨entry, console, holds, returned⟩ := logVprintf_returns stage logged
  have notFull : kernel.log.numEntries < kernelLogMaxNumEntries := by
    rw [filling.numEntries]
    exact room
  refine ⟨_, returned, filling.global, ?_, ?_, ?_, ?_⟩
  · simp only [nextWriteEntry, notFull, ↓reduceIte]
    rw [filling.numEntries, List.length_append, List.length_singleton]
  · simp only [nextWriteEntry, notFull, ↓reduceIte]
    exact filling.readOffset
  · simp only [nextWriteEntry, notFull, ↓reduceIte]
    rw [filling.writeOffset, List.length_append, List.length_singleton]
  · intro index other found
    rw [filling.slot]
    by_cases last : index = messages.length
    · subst index
      simp only [List.getElem?_concat_length, Option.some.injEq] at found
      simpa [found] using holds
    · have before : index < messages.length := by
        have inside := (List.getElem?_eq_some_iff.mp found).1
        rw [List.length_append, List.length_singleton] at inside
        omega
      rw [List.getElem?_append_left before] at found
      simpa [last] using filling.entries index other found

theorem logAll_append (kernel : Kernel) (messages : List Message) (message : Message) :
    logAll kernel (messages ++ [message]) =
      (logAll kernel messages).bind fun after => logVprintf after message := by
  simp only [logAll, List.foldlM_append, List.foldlM_cons, List.foldlM_nil, bind_pure]
  rfl

theorem filling_logAll {start : Kernel} (empty : Filling start start [])
    (stage : start.global.stage = .hasRingBuffer) {messages : List Message}
    (logged : ∀ message ∈ messages, Logged start.global message)
    (room : messages.length ≤ kernelLogMaxNumEntries) :
    ∃ after, logAll start messages = .ok after ∧ Filling start after messages := by
  induction messages using List.reverseRecOn with
  | nil => exact ⟨start, rfl, empty⟩
  | append_singleton messages message ih =>
      rw [List.length_append, List.length_singleton] at room
      obtain ⟨before, returned, filling⟩ :=
        ih (fun other member => logged other (List.mem_append_left _ member)) (by omega)
      obtain ⟨after, last, filled⟩ := filling.step stage
        (logged message (List.mem_append_right _ (List.mem_singleton_self _))) (by omega)
      refine ⟨after, ?_, filled⟩
      rw [logAll_append, returned]
      exact last

theorem Filling.entries_hold {start kernel : Kernel} {messages : List Message}
    (filling : Filling start kernel messages)
    (room : messages.length ≤ kernelLogMaxNumEntries) :
    List.Forall₂ Holds (ringEntries kernel.log)
      (messages.drop (messages.length - kernel.log.numEntries)) := by
  rw [ringEntries, filling.numEntries, filling.readOffset, Nat.sub_self, List.drop_zero,
    List.forall₂_iff_get]
  refine ⟨by simp, ?_⟩
  intro index left right
  have inside : (0 + index) % kernelLogMaxNumEntries = index := by
    rw [Nat.zero_add, Nat.mod_eq_of_lt (by omega)]
  simp only [List.get_eq_getElem, List.getElem_map, List.getElem_range, inside]
  exact filling.entries index _ (List.getElem?_eq_getElem right)

theorem filling_init (kernel : Kernel) :
    Filling (kernelLogInit kernel) (kernelLogInit kernel) [] :=
  ⟨rfl, rfl, rfl, rfl, by simp⟩

theorem logAll_returns {start : Kernel} (stage : start.global.stage = .hasRingBuffer)
    {messages : List Message} (logged : ∀ message ∈ messages, Logged start.global message) :
    ∃ after, logAll start messages = .ok after ∧ after.global = start.global := by
  induction messages using List.reverseRecOn with
  | nil => exact ⟨start, rfl, rfl⟩
  | append_singleton messages message ih =>
      obtain ⟨before, returned, same⟩ :=
        ih fun other member => logged other (List.mem_append_left _ member)
      have next := logged message (List.mem_append_right _ (List.mem_singleton_self _))
      rw [← same] at next stage
      obtain ⟨entry, console, _, last⟩ := logVprintf_returns stage next
      rw [logAll_append, returned]
      exact ⟨_, last, same⟩

/-- The message after a full ring is handed the slot past its end. -/
theorem slot_past_end {kernel : Kernel} {messages : List Message}
    (logged : ∀ message ∈ messages, Logged (kernelLogInit kernel).global message)
    (full : messages.length = kernelLogMaxNumEntries) :
    ∃ after, logAll (kernelLogInit kernel) messages = .ok after ∧
      (nextWriteEntry after.log).1 = kernelLogMaxNumEntries := by
  obtain ⟨after, returned, filling⟩ :=
    filling_logAll (filling_init kernel) rfl logged (by omega)
  exact ⟨after, returned, filling.slot.trans full⟩

theorem ringCorrect_iff (kernel : Kernel) (messages : List Message)
    (logged : ∀ message ∈ messages, Logged (kernelLogInit kernel).global message) :
    ∃ after, logAll (kernelLogInit kernel) messages = .ok after ∧
      (RingCorrect (kernelLogInit kernel) messages after ↔
        messages.length ≤ kernelLogMaxNumEntries) := by
  obtain ⟨after, returned, _⟩ := logAll_returns rfl logged
  refine ⟨after, returned, ?_, ?_⟩
  · intro correct
    by_contra many
    have split : messages = messages.take kernelLogMaxNumEntries ++
        messages[kernelLogMaxNumEntries] :: messages.drop (kernelLogMaxNumEntries + 1) := by
      rw [List.getElem_cons_drop, List.take_append_drop]
    have full : (messages.take kernelLogMaxNumEntries).length = kernelLogMaxNumEntries := by
      rw [List.length_take]
      omega
    obtain ⟨before, reached, slot⟩ := slot_past_end
      (fun message member => logged message (List.mem_of_mem_take member)) full
    have inside := correct.slots _ _ _ split before reached
    omega
  · intro room
    obtain ⟨last, same, filling⟩ :=
      filling_logAll (filling_init kernel) rfl logged room
    rw [returned] at same
    cases same
    refine ⟨?_, by rw [filling.numEntries]; omega, filling.entries_hold room⟩
    rintro earlier message later rfl before reached
    rw [List.length_append, List.length_cons] at room
    obtain ⟨again, twice, earlierFilling⟩ := filling_logAll (filling_init kernel) rfl
      (fun other member => logged other (List.mem_append_left _ member))
      (by omega : earlier.length ≤ kernelLogMaxNumEntries)
    rw [reached] at twice
    cases twice
    rw [earlierFilling.slot]
    omega

def bootedKernel : Kernel :=
  ⟨⟨.early, true, kernelLogDebug⟩, ⟨0, 0, 0, fun _ => ⟨0, 0, fun _ => '\x00'⟩⟩, []⟩

def bootMessage : Message := ⟨kernelLogInfo, ['%', 'u', ' ', 'o', 'k'], [.word 7]⟩

theorem bootMessage_logged : Logged (kernelLogInit bootedKernel).global bootMessage :=
  ⟨by decide, by decide⟩

theorem one_message_ringCorrect :
    ∃ after, logAll (kernelLogInit bootedKernel) [bootMessage] = .ok after ∧
      RingCorrect (kernelLogInit bootedKernel) [bootMessage] after := by
  obtain ⟨after, returned, correct⟩ := ringCorrect_iff bootedKernel [bootMessage]
    (by simpa using bootMessage_logged)
  exact ⟨after, returned, correct.mpr (by decide)⟩

theorem ring_overrun :
    ∃ after, (∀ message ∈ List.replicate 1024 bootMessage,
        Logged (kernelLogInit bootedKernel).global message) ∧
      logAll (kernelLogInit bootedKernel) (List.replicate 1024 bootMessage) = .ok after ∧
      ¬RingCorrect (kernelLogInit bootedKernel) (List.replicate 1024 bootMessage) after := by
  have logged : ∀ count, ∀ message ∈ List.replicate count bootMessage,
      Logged (kernelLogInit bootedKernel).global message := by
    intro count message member
    rw [List.eq_of_mem_replicate member]
    exact bootMessage_logged
  obtain ⟨after, returned, _⟩ := logAll_returns rfl (logged 1024)
  refine ⟨after, logged 1024, returned, fun correct => ?_⟩
  obtain ⟨before, reached, slot⟩ := slot_past_end (logged 1023) List.length_replicate
  have inside := correct.slots (List.replicate 1023 bootMessage) bootMessage []
    List.replicate_succ' before reached
  omega

end Zeptux.Log
