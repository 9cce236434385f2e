import Aesd.DriverAnswers
import Aesd.Lib.Interleaving
import Aesd.Lib.Linearization

/-!
# The file operations in steps

Any number of callers are inside the driver at once. A call is cut wherever it
touches what the callers share, so between two of its steps the others may run:
the heap, the lock, and under the lock every slot and every piece that is
copied. A step shows when the call takes effect, which is ghost code.
-/

set_option autoImplicit false

namespace Aesd.DriverStages
open BlockHeap MachineInt Linearization Interleaving
open Aesd.CircularBuffer Aesd.KernelMemory Aesd.CharDriver Aesd.DriverRuns Aesd.DriverAnswers

/-- What has been done of a call, with the locals which are still needed. -/
inductive Stage where
  | outside
  | called (c : DriverCall)
  | copying (c : WriteCall) (tmpBuf : Addr)
  | acquiring (c : WriteCall) (tmpBuf : Addr)
  | scanning (c : WriteCall) (tmpBuf : Addr)
  | adding (c : WriteCall) (tmpBuf : Addr)
  | combining (c : WriteCall) (tmpBuf : Addr) (hasNewline : Bool)
  | merging (c : WriteCall) (tmpBuf combinedBuf : Addr) (combinedSize : ℕ) (hasNewline : Bool)
  | discarding (c : WriteCall) (tmpBuf combinedBuf : Addr) (combinedSize : ℕ) (hasNewline : Bool)
  | keeping (c : WriteCall) (combinedBuf : Addr) (combinedSize : ℕ) (hasNewline : Bool)
  | reading (c : ReadCall) (faults : List (Option ℕ)) (r : ReadCursor)
  | summing (fPos offset whence : ℤ) (index : ℕ) (total : ℤ)
  | checking (fPos : ℤ) (seekto : AesdSeekto)
  | counting (fPos : ℤ) (seekto : AesdSeekto) (i : ℕ) (newFpos : ℤ)
  | unlocking (answer : ReadResult) (tmpBuf : Option Addr)
  | freeing (answer : ReadResult) (tmpBuf : Addr)
  | returning (answer : ReadResult)

def Stage.locked : Stage → Bool
  | .scanning .. | .adding .. | .combining .. | .merging .. | .discarding .. | .keeping ..
  | .reading .. | .summing .. | .checking .. | .counting .. | .unlocking .. => true
  | _ => false

def Stage.phase : Stage → Phase DriverCall ReadResult
  | .outside => .outside
  | .called c => .pending c
  | .copying c _ | .acquiring c _ | .scanning c _ | .adding c _ | .combining c _ _
  | .merging c _ _ _ _ | .discarding c _ _ _ _ | .keeping c _ _ _ => .pending (.write c)
  | .reading c _ _ => .pending (.read c)
  | .summing fPos offset whence _ _ => .pending (.llseek fPos offset whence)
  | .checking fPos seekto | .counting fPos seekto _ _ =>
    .pending (.ioctl fPos AESDCHAR_IOCSEEKTO (some seekto))
  | .unlocking answer _ | .freeing answer _ | .returning answer => .answered answer

abbrev Shown := Option (Event DriverCall ReadResult)

abbrev StageStep := Except Fault (Option (DriverState × Stage × Shown))

def silently (s : DriverState) (stage : Stage) : StageStep := .ok (some (s, stage, none))

def takesEffect (s : DriverState) (c : DriverCall) (answer : ReadResult) (stage : Stage) :
    StageStep :=
  .ok (some (s, stage, some (.effect c answer)))

def lockThen (s : DriverState) (stage : Stage) : StageStep :=
  if s.dev.bufferLock then .ok none
  else silently { s with dev := { s.dev with bufferLock := true } } stage

def Stage.next (K : Kernel) (s : DriverState) : Stage → StageStep
  | .outside => .ok none
  | .called (.write c) =>
    if c.nullArg ∨ c.fPos < 0 ∨ c.data.length = 0 then
      takesEffect s (.write c) (writeAnswer c (-EINVAL)) (.returning (writeAnswer c (-EINVAL)))
    else if c.nullDev then
      takesEffect s (.write c) (writeAnswer c (-EINVAL)) (.returning (writeAnswer c (-EINVAL)))
    else
      match kmalloc K s.heap c.data.length c.kmallocAt with
      | none =>
        takesEffect s (.write c) (writeAnswer c (-ENOMEM))
          (.returning (writeAnswer c (-ENOMEM)))
      | some (tmpBuf, heap) => silently { s with heap } (.copying c tmpBuf)
  | .copying c tmpBuf =>
    if c.copyFaults then
      takesEffect s (.write c) (writeAnswer c (-EFAULT))
        (.freeing (writeAnswer c (-EFAULT)) tmpBuf)
    else do
      let heap ← store s.heap tmpBuf 0 c.data
      silently { s with heap } (.acquiring c tmpBuf)
  | .acquiring c tmpBuf =>
    if c.interrupted then
      takesEffect s (.write c) (writeAnswer c (-ERESTARTSYS))
        (.freeing (writeAnswer c (-ERESTARTSYS)) tmpBuf)
    else lockThen s (.scanning c tmpBuf)
  | .scanning c tmpBuf => do
    let bytes ← load s.heap tmpBuf 0 c.data.length
    let hasNewline := bytes.contains newline
    if s.dev.partialWrite = none ∧ hasNewline then silently s (.adding c tmpBuf)
    else silently s (.combining c tmpBuf hasNewline)
  | .adding c tmpBuf =>
    let answer := writeAnswer c (wrapS64 c.data.length)
    takesEffect (addEntry s ⟨some tmpBuf, c.data.length⟩) (.write c) answer
      (.unlocking answer none)
  | .combining c tmpBuf hasNewline =>
    match s.dev.partialWrite with
    | some p => do
      let combinedSize := wrapU64 (s.dev.partialSize+c.data.length)
      match ← krealloc K s.heap p combinedSize c.kreallocAt with
      | none =>
        takesEffect s (.write c) (writeAnswer c (-ENOMEM))
          (.unlocking (writeAnswer c (-ENOMEM)) (some tmpBuf))
      | some (combinedBuf, heap) =>
        silently { s with heap } (.merging c tmpBuf combinedBuf combinedSize hasNewline)
    | none => silently s (.keeping c tmpBuf c.data.length hasNewline)
  | .merging c tmpBuf combinedBuf combinedSize hasNewline => do
    let bytes ← load s.heap tmpBuf 0 c.data.length
    let heap ← store s.heap combinedBuf s.dev.partialSize bytes
    silently { s with heap } (.discarding c tmpBuf combinedBuf combinedSize hasNewline)
  | .discarding c tmpBuf combinedBuf combinedSize hasNewline => do
    let heap ← free s.heap tmpBuf
    silently { s with heap } (.keeping c combinedBuf combinedSize hasNewline)
  | .keeping c combinedBuf combinedSize hasNewline =>
    let answer := writeAnswer c (wrapS64 c.data.length)
    takesEffect (keepCombined s combinedBuf combinedSize hasNewline) (.write c) answer
      (.unlocking answer none)
  | .called (.read c) =>
    if c.nullArg ∨ c.fPos < 0 ∨ c.count = 0 then
      takesEffect s (.read c) ⟨-EINVAL, c.fPos, c.buf⟩ (.returning ⟨-EINVAL, c.fPos, c.buf⟩)
    else if c.interrupted then
      takesEffect s (.read c) ⟨-ERESTARTSYS, c.fPos, c.buf⟩
        (.returning ⟨-ERESTARTSYS, c.fPos, c.buf⟩)
    else lockThen s (.reading c c.copyFaults (readStart c))
  | .reading c faults r => do
    match ← readTurn s faults r with
    | .leaves r done =>
      takesEffect s (.read c) (readAnswer r done) (.unlocking (readAnswer r done) none)
    | .goesOn r => silently s (.reading c faults.tail r)
  | .called (.llseek fPos offset whence) => lockThen s (.summing fPos offset whence 0 0)
  | .summing fPos offset whence index total =>
    if index < maxWriteOperationsSupported then
      silently s (.summing fPos offset whence (index+1)
        (wrapS64 (total+(s.dev.buffer.slot index).size)))
    else
      let answer := seekAnswer total fPos offset whence
      takesEffect s (.llseek fPos offset whence) answer (.unlocking answer none)
  | .called (.ioctl fPos cmd arg) =>
    if cmd ≠ AESDCHAR_IOCSEEKTO then
      takesEffect s (.ioctl fPos cmd arg) ⟨-ENOTTY, fPos, []⟩ (.returning ⟨-ENOTTY, fPos, []⟩)
    else
      match arg with
      | none =>
        takesEffect s (.ioctl fPos cmd arg) ⟨-EFAULT, fPos, []⟩ (.returning ⟨-EFAULT, fPos, []⟩)
      | some seekto => lockThen s (.checking fPos seekto)
  | .checking fPos seekto =>
    let refused : ReadResult := ⟨-EINVAL, fPos, []⟩
    let writeCmd := seekto.writeCmd.toNat
    let totalCommands :=
      if s.dev.buffer.full then maxWriteOperationsSupported else s.dev.buffer.inOffs
    let entry := s.dev.buffer.slot ((s.dev.buffer.outOffs+writeCmd) % maxWriteOperationsSupported)
    if writeCmd ≥ totalCommands then
      takesEffect s (.ioctl fPos AESDCHAR_IOCSEEKTO (some seekto)) refused (.unlocking refused none)
    else if entry.buffptr = none ∨ seekto.writeCmdOffset.toNat ≥ entry.size then
      takesEffect s (.ioctl fPos AESDCHAR_IOCSEEKTO (some seekto)) refused (.unlocking refused none)
    else silently s (.counting fPos seekto 0 0)
  | .counting fPos seekto i newFpos =>
    if i < seekto.writeCmd.toNat then
      silently s (.counting fPos seekto (i+1) (wrapS64 (newFpos+
        (s.dev.buffer.slot ((s.dev.buffer.outOffs+i) % maxWriteOperationsSupported)).size)))
    else
      let answer : ReadResult := ⟨0, wrapS64 (newFpos+seekto.writeCmdOffset.toNat), []⟩
      takesEffect s (.ioctl fPos AESDCHAR_IOCSEEKTO (some seekto)) answer (.unlocking answer none)
  | .unlocking answer tmpBuf => do
    let dev ← mutexUnlock s.dev
    match tmpBuf with
    | some a => silently { s with dev } (.freeing answer a)
    | none => silently { s with dev } (.returning answer)
  | .freeing answer tmpBuf => do
    let heap ← free s.heap tmpBuf
    silently { s with heap } (.returning answer)
  | .returning answer => .ok (some (s, .outside, some (.returned answer)))

inductive Move where
  | call (c : TypedCall)
  | goOn

/-- A caller which is inside makes no other call, one outside has no step. -/
def driverProgram (K : Kernel) : Program Fault DriverState Stage Move Shown
  | s, .outside, .call c => .ok (some (s, .called c.1, some (.called c.1)))
  | _, _, .call _ => .ok none
  | s, stage, .goOn => stage.next K s

end Aesd.DriverStages
