import Aesd.DriverRuns
import Aesd.Lib.Traced

/-!
# The sums which the driver computes

The operations once more, with a record of every 64-bit sum and difference of
the two files: where it is computed and its exact value, before it is reduced
to the width with which the driver goes on. Without the records they are the
operations of the driver, in every state.
-/

set_option autoImplicit false

namespace Aesd.DriverSums
open BlockHeap MachineInt
open Aesd.CircularBuffer Aesd.KernelMemory Aesd.CharDriver Aesd.DriverWrite Aesd.DriverRuns

/-- The places where the driver adds or subtracts in 64 bits. -/
inductive Site where
  | combinedSize
  | accumulatedBytes
  | entryOffset
  | bytesToRead
  | readPosition
  | bytesCopied
  | remainingCount
  | totalSize
  | seekTarget
  | newFpos
  deriving DecidableEq, Repr

def Site.low : Site → ℤ
  | .seekTarget => -2^63
  | _ => 0

def Site.high : Site → ℤ
  | .readPosition => 2^63
  | .totalSize => 2^63
  | .seekTarget => 2^63
  | .newFpos => 2^63
  | _ => 2^64

structure Computed where
  site : Site
  value : ℤ
  deriving DecidableEq, Repr

def Computed.Fits (x : Computed) : Prop := x.site.low ≤ x.value ∧ x.value < x.site.high

instance (x : Computed) : Decidable x.Fits := by
  unfold Computed.Fits
  infer_instance

abbrev Summed := Traced Computed Fault

def sumU64 (site : Site) (a b : ℕ) : Summed ℕ := do
  Traced.record ⟨site, a+b⟩
  return wrapU64 (a+b)

def differenceU64 (site : Site) (a b : ℕ) : Summed ℕ := do
  Traced.record ⟨site, a-b⟩
  return subU64 a b

def sumS64 (site : Site) (a b : ℤ) : Summed ℤ := do
  Traced.record ⟨site, a+b⟩
  return wrapS64 (a+b)

/-- The comparison and the update of `accumulated_bytes` compute one sum. -/
def findEntryLoopSummed (buffer : AesdCircularBuffer) (charOffset entryOffsetByteRtn : ℕ) :
    ℕ → ℕ → ℕ → Summed (Option ℕ × ℕ)
  | 0, _, _ => return (none, entryOffsetByteRtn)
  | remaining+1, accumulatedBytes, index => do
    let bytes ← sumU64 .accumulatedBytes accumulatedBytes (buffer.slot index).size
    if charOffset < bytes then
      let offset ← differenceU64 .entryOffset charOffset accumulatedBytes
      return (some index, offset)
    else if buffer.full ∧ remaining = 0 then
      return (none, entryOffsetByteRtn)
    else if !buffer.full ∧ next index = buffer.inOffs then
      return (none, entryOffsetByteRtn)
    else
      findEntryLoopSummed buffer charOffset entryOffsetByteRtn remaining bytes (next index)

def findEntrySummed (buffer : AesdCircularBuffer) (charOffset entryOffsetByteRtn : ℕ) :
    Summed (Option ℕ × ℕ) :=
  if !buffer.full ∧ buffer.inOffs = buffer.outOffs then
    return (none, entryOffsetByteRtn)
  else
    findEntryLoopSummed buffer charOffset entryOffsetByteRtn maxWriteOperationsSupported 0
      buffer.outOffs

def writeLockedSummed (K : Kernel) (s : DriverState) (tmpBuf : Addr) (count : ℕ)
    (kreallocAt : Option Addr) : Summed (DriverState × ℤ × Option Addr) := do
  let bytes ← load s.heap tmpBuf 0 count
  let hasNewline := bytes.contains newline
  if s.dev.partialWrite = none ∧ hasNewline then
    return (addEntry s ⟨some tmpBuf, count⟩, wrapS64 count, none)
  else
    match s.dev.partialWrite with
    | some p =>
      let combinedSize ← sumU64 .combinedSize s.dev.partialSize count
      match ← krealloc K s.heap p combinedSize kreallocAt with
      | none => return (s, -ENOMEM, some tmpBuf)
      | some (combinedBuf, heap) =>
        let bytes ← load heap tmpBuf 0 count
        let heap ← store heap combinedBuf s.dev.partialSize bytes
        let heap ← free heap tmpBuf
        return (keepCombined { s with heap } combinedBuf combinedSize hasNewline,
          wrapS64 count, none)
    | none => return (keepCombined s tmpBuf count hasNewline, wrapS64 count, none)

def aesdWriteSummed (K : Kernel) (s : DriverState) (c : WriteCall) : Summed (DriverState × ℤ) :=
  if c.nullArg ∨ c.fPos < 0 ∨ c.data.length = 0 then
    return (s, -EINVAL)
  else if c.nullDev then
    return (s, -EINVAL)
  else
    match kmalloc K s.heap c.data.length c.kmallocAt with
    | none => return (s, -ENOMEM)
    | some (tmpBuf, heap) =>
      if c.copyFaults then do
        let heap ← free heap tmpBuf
        return ({ s with heap }, -EFAULT)
      else do
        let heap ← store heap tmpBuf 0 c.data
        if c.interrupted then
          let heap ← free heap tmpBuf
          return ({ s with heap }, -ERESTARTSYS)
        else
          let dev ← mutexLock s.dev
          let (s, retval, tmpBuf) ←
            writeLockedSummed K ⟨dev, heap⟩ tmpBuf c.data.length c.kreallocAt
          writeUnlock s retval tmpBuf

def readLoopSummed (s : DriverState) :
    ℕ → List (Option ℕ) → ReadCursor → Summed (ReadCursor × Bool)
  | 0, _, _ => liftM (Except.error Fault.outOfFuel : Except Fault (ReadCursor × Bool))
  | fuel+1, faults, r =>
    if r.remainingCount = 0 then return (r, true)
    else do
      let found ← findEntrySummed s.dev.buffer (toU64 r.fPos) r.entryOffset
      match found.1 with
      | none => return ({ r with entryOffset := found.2 }, true)
      | some index =>
        let entry := s.dev.buffer.slot index
        match entry.buffptr with
        | none => return ({ r with entryOffset := found.2 }, true)
        | some p => do
          let left ← differenceU64 .bytesToRead entry.size found.2
          let bytesToRead := min left r.remainingCount
          let bytes ← load s.heap p found.2 bytesToRead
          let copied := copyToUser r.buf r.bytesCopied bytes (faults.headD none)
          if !copied.2 then
            return ({ r with buf := copied.1, entryOffset := found.2 }, false)
          else
            let fPos ← sumS64 .readPosition r.fPos bytesToRead
            let bytesCopied ← sumU64 .bytesCopied r.bytesCopied bytesToRead
            let remainingCount ← differenceU64 .remainingCount r.remainingCount bytesToRead
            readLoopSummed s fuel faults.tail
              { fPos := fPos
                buf := copied.1
                bytesCopied := bytesCopied
                remainingCount := remainingCount
                entryOffset := found.2 }

def aesdReadSummed (s : DriverState) (c : ReadCall) : Summed (DriverState × ReadResult) :=
  if c.nullArg ∨ c.fPos < 0 ∨ c.count = 0 then
    return (s, ⟨-EINVAL, c.fPos, c.buf⟩)
  else if c.interrupted then
    return (s, ⟨-ERESTARTSYS, c.fPos, c.buf⟩)
  else do
    let dev ← mutexLock s.dev
    let (r, done) ← readLoopSummed { s with dev } (c.count+1) c.copyFaults
      { fPos := c.fPos
        buf := c.buf
        bytesCopied := 0
        remainingCount := c.count
        entryOffset := 0 }
    let retval := if done then (if r.bytesCopied > 0 then wrapS64 r.bytesCopied else 0)
      else -EFAULT
    let dev ← mutexUnlock dev
    return ({ s with dev }, ⟨retval, r.fPos, r.buf⟩)

def totalSizeSummed (buffer : AesdCircularBuffer) : Summed ℤ :=
  buffer.foreach.foldlM (fun total entry => sumS64 .totalSize total entry.size) 0

def seekTargetSummed (total fPos offset whence : ℤ) : Summed (Option ℤ) :=
  if whence = SEEK_SET then return some offset
  else if whence = SEEK_CUR then do
    let newFpos ← sumS64 .seekTarget fPos offset
    return some newFpos
  else if whence = SEEK_END then do
    let newFpos ← sumS64 .seekTarget total offset
    return some newFpos
  else return none

def aesdLlseekSummed (s : DriverState) (fPos offset whence : ℤ) :
    Summed (DriverState × ℤ × ℤ) := do
  let dev ← mutexLock s.dev
  let total ← totalSizeSummed dev.buffer
  let target ← seekTargetSummed total fPos offset whence
  let dev ← mutexUnlock dev
  match target with
  | none => return ({ s with dev }, fPos, -EINVAL)
  | some newFpos =>
    if newFpos < 0 ∨ newFpos > total then
      return ({ s with dev }, fPos, -EINVAL)
    else
      return ({ s with dev }, newFpos, newFpos)

def seekBaseSummed (buffer : AesdCircularBuffer) (writeCmd : ℕ) : Summed ℤ :=
  (List.range writeCmd).foldlM (fun newFpos i =>
    sumS64 .newFpos newFpos
      (buffer.slot ((buffer.outOffs+i) % maxWriteOperationsSupported)).size) 0

def aesdUnlockedIoctlSummed (s : DriverState) (fPos : ℤ) (cmd : ℕ) (arg : Option AesdSeekto) :
    Summed (DriverState × ℤ × ℤ) :=
  if cmd ≠ AESDCHAR_IOCSEEKTO then
    return (s, fPos, -ENOTTY)
  else
    match arg with
    | none => return (s, fPos, -EFAULT)
    | some seekto => do
      let dev ← mutexLock s.dev
      let writeCmd := seekto.writeCmd.toNat
      let totalCommands :=
        if dev.buffer.full then maxWriteOperationsSupported else dev.buffer.inOffs
      if writeCmd ≥ totalCommands then
        let dev ← mutexUnlock dev
        return ({ s with dev }, fPos, -EINVAL)
      else
        let index := (dev.buffer.outOffs+writeCmd) % maxWriteOperationsSupported
        let entry := dev.buffer.slot index
        if entry.buffptr = none ∨ seekto.writeCmdOffset.toNat ≥ entry.size then
          let dev ← mutexUnlock dev
          return ({ s with dev }, fPos, -EINVAL)
        else
          let base ← seekBaseSummed dev.buffer writeCmd
          let newFpos ← sumS64 .newFpos base seekto.writeCmdOffset.toNat
          let dev ← mutexUnlock dev
          return ({ s with dev }, newFpos, 0)

def driverStepSummed (K : Kernel) (s : DriverState) : DriverCall → Summed (DriverState × Reply)
  | .write c => do
    let (s, retval) ← aesdWriteSummed K s c
    return (s, ⟨retval, c.fPos⟩)
  | .read c => do
    let (s, r) ← aesdReadSummed s c
    return (s, ⟨r.retval, r.fPos⟩)
  | .llseek fPos offset whence => do
    let (s, fPos, retval) ← aesdLlseekSummed s fPos offset whence
    return (s, ⟨retval, fPos⟩)
  | .ioctl fPos cmd arg => do
    let (s, fPos, retval) ← aesdUnlockedIoctlSummed s fPos cmd arg
    return (s, ⟨retval, fPos⟩)

section Values

@[simp] theorem value_sumU64 (site : Site) (a b : ℕ) :
    (sumU64 site a b).value = .ok (wrapU64 (a+b)) := rfl

@[simp] theorem value_differenceU64 (site : Site) (a b : ℕ) :
    (differenceU64 site a b).value = .ok (subU64 a b) := rfl

@[simp] theorem value_sumS64 (site : Site) (a b : ℤ) :
    (sumS64 site a b).value = .ok (wrapS64 (a+b)) := rfl

theorem value_findEntryLoop (buffer : AesdCircularBuffer)
    (charOffset entryOffsetByteRtn remaining accumulatedBytes index : ℕ) :
    (findEntryLoopSummed buffer charOffset entryOffsetByteRtn remaining accumulatedBytes
      index).value =
      .ok (findEntryLoop buffer charOffset entryOffsetByteRtn remaining accumulatedBytes index) := by
  induction remaining generalizing accumulatedBytes index with
  | zero => rfl
  | succ remaining ih =>
    rw [findEntryLoopSummed, findEntryLoop]
    simp only [Traced.value_bind, value_sumU64, ok_bind]
    split_ifs
    · rfl
    · rfl
    · rfl
    · exact ih _ _

theorem value_findEntry (buffer : AesdCircularBuffer) (charOffset entryOffsetByteRtn : ℕ) :
    (findEntrySummed buffer charOffset entryOffsetByteRtn).value =
      .ok (aesdCircularBufferFindEntryOffsetForFpos buffer charOffset entryOffsetByteRtn) := by
  rw [findEntrySummed, aesdCircularBufferFindEntryOffsetForFpos]
  split_ifs
  · rfl
  · exact value_findEntryLoop _ _ _ _ _ _

theorem value_writeLocked (K : Kernel) (s : DriverState) (tmpBuf : Addr) (count : ℕ)
    (kreallocAt : Option Addr) :
    (writeLockedSummed K s tmpBuf count kreallocAt).value =
      writeLocked K s tmpBuf count kreallocAt := by
  simp only [writeLockedSummed, writeLocked, Traced.value_bind, Traced.value_lift]
  congr 1
  funext bytes
  split_ifs
  · rfl
  · cases s.dev.partialWrite with
    | none => rfl
    | some p =>
      simp only [Traced.value_bind, value_sumU64, ok_bind, Traced.value_lift]
      congr 1
      funext grown
      rcases grown with _ | ⟨combinedBuf, heap⟩
      · rfl
      · simp only [Traced.value_bind, Traced.value_lift]
        rfl

theorem value_aesdWrite (K : Kernel) (s : DriverState) (c : WriteCall) :
    (aesdWriteSummed K s c).value = aesdWrite K s c := by
  rw [aesdWriteSummed, aesdWrite]
  rcases kmalloc K s.heap c.data.length c.kmallocAt with _ | ⟨tmpBuf, heap⟩
  · split_ifs <;> rfl
  split_ifs
  · rfl
  · rfl
  · simp only [Traced.value_bind, Traced.value_lift]
    rfl
  · simp only [Traced.value_bind, Traced.value_lift]
    rfl
  · simp only [Traced.value_bind, Traced.value_lift, value_writeLocked]

theorem value_readLoop (s : DriverState) (fuel : ℕ) (faults : List (Option ℕ)) (r : ReadCursor) :
    (readLoopSummed s fuel faults r).value = readLoop s fuel faults r := by
  induction fuel generalizing faults r with
  | zero => rfl
  | succ fuel ih =>
    rw [readLoopSummed, readLoop]
    split_ifs
    · rfl
    · simp only [Traced.value_bind, value_findEntry, ok_bind]
      generalize aesdCircularBufferFindEntryOffsetForFpos s.dev.buffer (toU64 r.fPos)
        r.entryOffset = found
      rcases found with ⟨_ | index, offset⟩
      · rfl
      · cases hslot : (s.dev.buffer.slot index).buffptr with
        | none => simp only [hslot, Traced.value_pure]
        | some p =>
          simp only [hslot, Traced.value_bind, value_differenceU64, Traced.value_lift, ok_bind]
          congr 1
          funext bytes
          split_ifs
          · rfl
          · simp only [Traced.value_bind, value_sumS64, value_sumU64, value_differenceU64, ok_bind,
              ih]

theorem value_aesdRead (s : DriverState) (c : ReadCall) :
    (aesdReadSummed s c).value = aesdRead s c := by
  rw [aesdReadSummed, aesdRead]
  split_ifs
  · rfl
  · rfl
  · simp only [Traced.value_bind, Traced.value_lift, value_readLoop, Traced.value_pure]
    rfl

theorem value_totalSize (buffer : AesdCircularBuffer) :
    (totalSizeSummed buffer).value = .ok (totalSize buffer) :=
  Traced.value_foldlM _ _ (fun _ _ => rfl) _ _

theorem value_seekTarget (total fPos offset whence : ℤ) :
    (seekTargetSummed total fPos offset whence).value =
      .ok (seekTarget total fPos offset whence) := by
  rw [seekTargetSummed, seekTarget]
  split_ifs <;> rfl

theorem value_aesdLlseek (s : DriverState) (fPos offset whence : ℤ) :
    (aesdLlseekSummed s fPos offset whence).value = aesdLlseek s fPos offset whence := by
  simp only [aesdLlseekSummed, aesdLlseek, Traced.value_bind, Traced.value_lift, value_totalSize,
    value_seekTarget, ok_bind]
  congr 1
  funext dev
  congr 1
  funext dev'
  cases seekTarget (totalSize dev.buffer) fPos offset whence with
  | none => rfl
  | some newFpos =>
    dsimp only
    split_ifs <;> rfl

theorem value_seekBase (buffer : AesdCircularBuffer) (writeCmd : ℕ) :
    (seekBaseSummed buffer writeCmd).value = .ok (seekBase buffer writeCmd) :=
  Traced.value_foldlM _ _ (fun _ _ => rfl) _ _

theorem value_aesdUnlockedIoctl (s : DriverState) (fPos : ℤ) (cmd : ℕ)
    (arg : Option AesdSeekto) :
    (aesdUnlockedIoctlSummed s fPos cmd arg).value = aesdUnlockedIoctl s fPos cmd arg := by
  unfold aesdUnlockedIoctlSummed aesdUnlockedIoctl
  by_cases hcmd : cmd ≠ AESDCHAR_IOCSEEKTO
  · rw [if_pos hcmd, if_pos hcmd]
    rfl
  · rw [if_neg hcmd, if_neg hcmd]
    cases arg with
    | none => rfl
    | some seekto =>
      simp only [Traced.value_bind, Traced.value_lift]
      congr 1
      funext dev
      split_ifs <;>
        simp only [Traced.value_bind, Traced.value_lift, value_seekBase, value_sumS64, ok_bind,
          Traced.value_pure, pure_eq_ok]

/-- The records are all that is added to the driver. -/
theorem value_driverStep (K : Kernel) (s : DriverState) (c : DriverCall) :
    (driverStepSummed K s c).value = driverStep K s c := by
  cases c with
  | write c =>
    simp only [driverStepSummed, driverStep, Traced.value_bind, value_aesdWrite]
    rfl
  | read c =>
    simp only [driverStepSummed, driverStep, Traced.value_bind, value_aesdRead]
    rfl
  | llseek fPos offset whence =>
    simp only [driverStepSummed, driverStep, Traced.value_bind, value_aesdLlseek]
    rfl
  | ioctl fPos cmd arg =>
    simp only [driverStepSummed, driverStep, Traced.value_bind, value_aesdUnlockedIoctl]
    rfl

end Values

end Aesd.DriverSums
