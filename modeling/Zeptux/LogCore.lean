import Zeptux.FormatCore

/-!
The kernel log of `kernel/log.c`, a ring of entries behind `kzalloc`. The array of entries
is a function from slot to entry, so that a slot past its end is memory like any other.
-/

namespace Zeptux.Log

open Format

def kernelLogMaxNumEntries : Nat := 1023
def kernelLogBufSize : Nat := 500
def earlyPrintfBufferSize : Nat := 1024

def kernelLogTrace : Nat := 0
def kernelLogDebug : Nat := 1
def kernelLogInfo : Nat := 2
def kernelLogWarn : Nat := 3
def kernelLogError : Nat := 4
def kernelLogCritical : Nat := 5
def kernelLogMask : Nat := 2 ^ 10 - 1

structure KernelLogEntry where
  timestamp : Nat
  flags : Nat
  buf : Nat → Char

structure KernelLogState where
  numEntries : Nat
  readOffset : Nat
  writeOffset : Nat
  entries : Nat → KernelLogEntry

inductive KernelStage
  | early
  | hasRingBuffer
  | hasInterruptHandler
  | hasMultiCore
  | loaded
deriving DecidableEq, Repr

def KernelStage.number : KernelStage → Int
  | .early => 1
  | .hasRingBuffer => 2
  | .hasInterruptHandler => 3
  | .hasMultiCore => 4
  | .loaded => 5

structure KernelGlobal where
  stage : KernelStage
  logEcho : Bool
  logLevel : Nat

/-- The two global states and the text sent to the early console. -/
structure Kernel where
  global : KernelGlobal
  log : KernelLogState
  console : List Char

inductive Failure
  | panic (panic : Panic)
  | badArgument
deriving DecidableEq, Repr

structure Message where
  flags : Nat
  fmt : List Char
  args : List Arg

def kernelLogInit (kernel : Kernel) : Kernel :=
  { kernel with
    log := ⟨0, 0, 0, fun _ => ⟨0, 0, fun _ => '\x00'⟩⟩
    global := { kernel.global with stage := .hasRingBuffer } }

/-- The index of the slot that is handed out, and the state after. -/
def nextWriteEntry (state : KernelLogState) : Nat × KernelLogState :=
  if state.numEntries < kernelLogMaxNumEntries then
    (state.writeOffset,
      { state with numEntries := state.numEntries + 1, writeOffset := state.writeOffset + 1 })
  else
    (state.writeOffset,
      { state with
        writeOffset := (state.writeOffset + 1) % kernelLogMaxNumEntries
        readOffset := (state.readOffset + 1) % kernelLogMaxNumEntries })

def formatInto (buf : Nat → Char) (n : Nat) (fmt : List Char) (args : List Arg) :
    Except Failure (Nat → Char) :=
  match vsnprintf buf n fmt args with
  | some (written, _) => .ok written
  | none => .error .badArgument

def bufString (n : Nat) (buf : Nat → Char) : List Char := cString ((List.range n).map buf)

def earlyPrintf (kernel : Kernel) (fmt : List Char) (args : List Arg) :
    Except Failure Kernel := do
  let buf ← formatInto (fun _ => '\x00') earlyPrintfBufferSize fmt args
  return { kernel with console := kernel.console ++ bufString earlyPrintfBufferSize buf }

def levelName (level : Nat) : Option (List Char) :=
  if level = kernelLogTrace then some ['T', 'R', 'A', 'C', 'E', ':', ' ']
  else if level = kernelLogDebug then some ['D', 'E', 'B', 'U', 'G', ':', ' ']
  else if level = kernelLogInfo then some ['I', 'N', 'F', 'O', ':', ' ', ' ']
  else if level = kernelLogWarn then some ['W', 'A', 'R', 'N', ':', ' ', ' ']
  else if level = kernelLogError then some ['E', 'R', 'R', 'O', 'R', ':', ' ']
  else if level = kernelLogCritical then some ['C', 'R', 'I', 'T', ':', ' ', ' ']
  else none

def maybeEchoLog (kernel : Kernel) (flags : Nat) (buf : Nat → Char) : Except Failure Kernel := do
  if !kernel.global.logEcho then return kernel
  match kernel.global.stage with
  | .early | .hasRingBuffer =>
      let kernel ←
        match levelName (flags &&& kernelLogMask) with
        | some name => earlyPrintf kernel name []
        | none => pure kernel
      earlyPrintf kernel ['%', 's', '\n'] [.str (bufString kernelLogBufSize buf)]
  | stage => throw (.panic ⟨"Unsupported kernel stage %d", [stage.number]⟩)

def passesLevel (global : KernelGlobal) (flags : Nat) : Prop :=
  ¬flags &&& kernelLogMask < global.logLevel &&& kernelLogMask

instance (global : KernelGlobal) (flags : Nat) : Decidable (passesLevel global flags) :=
  inferInstanceAs (Decidable (¬_))

def logVprintf (kernel : Kernel) (message : Message) : Except Failure Kernel := do
  if ¬passesLevel kernel.global message.flags then return kernel
  let (slot, log) := nextWriteEntry kernel.log
  let entry := { log.entries slot with flags := message.flags }
  let buf ← formatInto entry.buf kernelLogBufSize message.fmt message.args
  let entries := Function.update log.entries slot { entry with buf := buf }
  maybeEchoLog { kernel with log := { log with entries := entries } } message.flags buf

def logAll (kernel : Kernel) (messages : List Message) : Except Failure Kernel :=
  messages.foldlM logVprintf kernel

end Zeptux.Log
