import Aesd.CircularBuffer
import Aesd.KernelMemory

/-!
# The character driver of `main.c`

The file operations run against one device and the heap which holds its
blocks. Each call carries what its environment decides: the placement of an
allocation, whether a copy faults and whether taking the lock is interrupted.
Registration of the device and the debug messages have no part in this state.
-/

set_option autoImplicit false

namespace Aesd.CharDriver
open BlockHeap MachineInt Aesd.CircularBuffer Aesd.KernelMemory

structure AesdDev where
  buffer : AesdCircularBuffer
  bufferLock : Bool
  partialWrite : Option Addr
  partialSize : ℕ
  deriving DecidableEq, Repr

structure DriverState where
  dev : AesdDev
  heap : Heap UInt8

def newline : UInt8 := 10

def mutexLock (dev : AesdDev) : Except Fault AesdDev :=
  if dev.bufferLock then .error .relock else .ok { dev with bufferLock := true }

def mutexUnlock (dev : AesdDev) : Except Fault AesdDev :=
  if dev.bufferLock then .ok { dev with bufferLock := false } else .error .unlockNotHeld

def aesdInitModule : DriverState where
  dev :=
    { buffer := aesdCircularBufferInit
      bufferLock := false
      partialWrite := none
      partialSize := 0 }
  heap := empty

/-- A call of `aesd_write` with the `count` bytes at `buf`. `nullArg` says that
`buf` or `filp` is `NULL`, `nullDev` that `filp->private_data` is. There is no
case for `f_pos`, which `PDEBUG` reads before it is tested. -/
structure WriteCall where
  nullArg : Bool := false
  nullDev : Bool := false
  fPos : ℤ := 0
  data : List UInt8
  kmallocAt : Option Addr
  copyFaults : Bool := false
  interrupted : Bool := false
  kreallocAt : Option Addr := none

def addEntry (s : DriverState) (newEntry : AesdBufferEntry) : DriverState :=
  { s with dev := { s.dev with buffer := (aesdCircularBufferAddEntry s.dev.buffer newEntry).1 } }

def keepCombined (s : DriverState) (combinedBuf : Addr) (combinedSize : ℕ)
    (hasNewline : Bool) : DriverState :=
  if hasNewline then
    let s := addEntry s ⟨some combinedBuf, combinedSize⟩
    { s with dev := { s.dev with partialWrite := none, partialSize := 0 } }
  else
    { s with dev := { s.dev with partialWrite := some combinedBuf, partialSize := combinedSize } }

/-- `aesd_write` between taking the lock and `unlock_exit`. The last component
is `tmp_buf` as it stands there, `none` once its block has a new owner. -/
def writeLocked (K : Kernel) (s : DriverState) (tmpBuf : Addr) (count : ℕ)
    (kreallocAt : Option Addr) : Except Fault (DriverState × ℤ × Option Addr) := do
  let bytes ← load s.heap tmpBuf 0 count
  let hasNewline := bytes.contains newline
  if s.dev.partialWrite = none ∧ hasNewline then
    return (addEntry s ⟨some tmpBuf, count⟩, wrapS64 count, none)
  else
    match s.dev.partialWrite with
    | some p =>
      let combinedSize := wrapU64 (s.dev.partialSize+count)
      match ← krealloc K s.heap p combinedSize kreallocAt with
      | none => return (s, -ENOMEM, some tmpBuf)
      | some (combinedBuf, heap) =>
        let bytes ← load heap tmpBuf 0 count
        let heap ← store heap combinedBuf s.dev.partialSize bytes
        let heap ← free heap tmpBuf
        return (keepCombined { s with heap } combinedBuf combinedSize hasNewline,
          wrapS64 count, none)
    | none => return (keepCombined s tmpBuf count hasNewline, wrapS64 count, none)

def writeUnlock (s : DriverState) (retval : ℤ) (tmpBuf : Option Addr) :
    Except Fault (DriverState × ℤ) := do
  let dev ← mutexUnlock s.dev
  match tmpBuf with
  | some a =>
    let heap ← free s.heap a
    return (⟨dev, heap⟩, retval)
  | none => return ({ s with dev }, retval)

def aesdWrite (K : Kernel) (s : DriverState) (c : WriteCall) :
    Except Fault (DriverState × ℤ) :=
  if c.nullArg ∨ c.fPos < 0 ∨ c.data.length = 0 then
    .ok (s, -EINVAL)
  else if c.nullDev then
    .ok (s, -EINVAL)
  else
    match kmalloc K s.heap c.data.length c.kmallocAt with
    | none => .ok (s, -ENOMEM)
    | some (tmpBuf, heap) =>
      if c.copyFaults then do
        let heap ← free heap tmpBuf
        return ({ s with heap }, -EFAULT)
      else do
        let heap ← store heap tmpBuf 0 c.data
        if c.interrupted then
          let heap ← free heap tmpBuf
          return ({ s with heap }, -ERESTARTSYS)
        else
          let dev ← mutexLock s.dev
          let (s, retval, tmpBuf) ←
            writeLocked K ⟨dev, heap⟩ tmpBuf c.data.length c.kreallocAt
          writeUnlock s retval tmpBuf

/-- A call of `aesd_read`. `buf` is the memory which the user can write from
the address given on, as it is before the call. The list gives the outcome of
each `copy_to_user` in turn: `some k` faults after `k` bytes at most, `none`
and what is beyond the list fault only at the end of that memory. -/
structure ReadCall where
  nullArg : Bool := false
  fPos : ℤ
  buf : List UInt8
  count : ℕ
  interrupted : Bool := false
  copyFaults : List (Option ℕ) := []

def copyToUser (buf : List UInt8) (off : ℕ) (bytes : List UInt8) :
    Option ℕ → List UInt8 × Bool
  | some k => (overwrite buf off (bytes.dropLast.take (min k (buf.length-off))), false)
  | none =>
    if off+bytes.length ≤ buf.length then (overwrite buf off bytes, true)
    else (overwrite buf off (bytes.take (buf.length-off)), false)

structure ReadCursor where
  fPos : ℤ
  buf : List UInt8
  bytesCopied : ℕ
  remainingCount : ℕ
  entryOffset : ℕ

/-- The copy loop. The flag is `false` when it leaves for `unlock_exit` with
`-EFAULT`. Every iteration copies at least one byte of those remaining, so
fuel for one more iteration than bytes asked for is enough. -/
def readLoop (s : DriverState) :
    ℕ → List (Option ℕ) → ReadCursor → Except Fault (ReadCursor × Bool)
  | 0, _, _ => .error .outOfFuel
  | fuel+1, faults, r =>
    if r.remainingCount = 0 then .ok (r, true)
    else
      let found := aesdCircularBufferFindEntryOffsetForFpos s.dev.buffer (toU64 r.fPos)
        r.entryOffset
      match found.1 with
      | none => .ok ({ r with entryOffset := found.2 }, true)
      | some index =>
        let entry := s.dev.buffer.slot index
        match entry.buffptr with
        | none => .ok ({ r with entryOffset := found.2 }, true)
        | some p => do
          let bytesToRead := min (subU64 entry.size found.2) r.remainingCount
          let bytes ← load s.heap p found.2 bytesToRead
          let copied := copyToUser r.buf r.bytesCopied bytes (faults.headD none)
          if !copied.2 then
            return ({ r with buf := copied.1, entryOffset := found.2 }, false)
          else
            readLoop s fuel faults.tail
              { fPos := wrapS64 (r.fPos+bytesToRead)
                buf := copied.1
                bytesCopied := wrapU64 (r.bytesCopied+bytesToRead)
                remainingCount := subU64 r.remainingCount bytesToRead
                entryOffset := found.2 }

structure ReadResult where
  retval : ℤ
  fPos : ℤ
  buf : List UInt8
  deriving DecidableEq, Repr

def aesdRead (s : DriverState) (c : ReadCall) : Except Fault (DriverState × ReadResult) :=
  if c.nullArg ∨ c.fPos < 0 ∨ c.count = 0 then
    .ok (s, ⟨-EINVAL, c.fPos, c.buf⟩)
  else if c.interrupted then
    .ok (s, ⟨-ERESTARTSYS, c.fPos, c.buf⟩)
  else do
    let dev ← mutexLock s.dev
    let (r, done) ← readLoop { s with dev } (c.count+1) c.copyFaults
      { fPos := c.fPos
        buf := c.buf
        bytesCopied := 0
        remainingCount := c.count
        entryOffset := 0 }
    let retval := if done then (if r.bytesCopied > 0 then wrapS64 r.bytesCopied else 0)
      else -EFAULT
    let dev ← mutexUnlock dev
    return ({ s with dev }, ⟨retval, r.fPos, r.buf⟩)

def SEEK_SET : ℤ := 0
def SEEK_CUR : ℤ := 1
def SEEK_END : ℤ := 2

def totalSize (buffer : AesdCircularBuffer) : ℤ :=
  buffer.foreach.foldl (fun total entry => wrapS64 (total+entry.size)) 0

/-- The `switch` of `aesd_llseek`, `none` in its default case. -/
def seekTarget (total fPos offset whence : ℤ) : Option ℤ :=
  if whence = SEEK_SET then some offset
  else if whence = SEEK_CUR then some (wrapS64 (fPos+offset))
  else if whence = SEEK_END then some (wrapS64 (total+offset))
  else none

/-- The result is the state, `filp->f_pos` on return, and the return value. -/
def aesdLlseek (s : DriverState) (fPos offset whence : ℤ) :
    Except Fault (DriverState × ℤ × ℤ) := do
  let dev ← mutexLock s.dev
  let total := totalSize dev.buffer
  let target := seekTarget total fPos offset whence
  let dev ← mutexUnlock dev
  match target with
  | none => return ({ s with dev }, fPos, -EINVAL)
  | some newFpos =>
    if newFpos < 0 ∨ newFpos > total then
      return ({ s with dev }, fPos, -EINVAL)
    else
      return ({ s with dev }, newFpos, newFpos)

structure AesdSeekto where
  writeCmd : UInt32
  writeCmdOffset : UInt32
  deriving DecidableEq, Repr

/-- `_IOWR(AESD_IOC_MAGIC, 1, struct aesd_seekto)` -/
def AESDCHAR_IOCSEEKTO : ℕ := 0xC0081601

def seekBase (buffer : AesdCircularBuffer) (writeCmd : ℕ) : ℤ :=
  (List.range writeCmd).foldl (fun newFpos i =>
    wrapS64 (newFpos+
      (buffer.slot ((buffer.outOffs+i) % maxWriteOperationsSupported)).size)) 0

/-- `arg` is the structure at the user address, `none` if it cannot be copied. -/
def aesdUnlockedIoctl (s : DriverState) (fPos : ℤ) (cmd : ℕ) (arg : Option AesdSeekto) :
    Except Fault (DriverState × ℤ × ℤ) :=
  if cmd ≠ AESDCHAR_IOCSEEKTO then
    .ok (s, fPos, -ENOTTY)
  else
    match arg with
    | none => .ok (s, fPos, -EFAULT)
    | some seekto => do
      let dev ← mutexLock s.dev
      let writeCmd := seekto.writeCmd.toNat
      let totalCommands :=
        if dev.buffer.full then maxWriteOperationsSupported else dev.buffer.inOffs
      if writeCmd ≥ totalCommands then
        let dev ← mutexUnlock dev
        return ({ s with dev }, fPos, -EINVAL)
      else
        let index := (dev.buffer.outOffs+writeCmd) % maxWriteOperationsSupported
        let entry := dev.buffer.slot index
        if entry.buffptr = none ∨ seekto.writeCmdOffset.toNat ≥ entry.size then
          let dev ← mutexUnlock dev
          return ({ s with dev }, fPos, -EINVAL)
        else
          let newFpos := wrapS64 (seekBase dev.buffer writeCmd+seekto.writeCmdOffset.toNat)
          let dev ← mutexUnlock dev
          return ({ s with dev }, newFpos, 0)

def freeSlot (s : DriverState) (index : ℕ) : Except Fault DriverState :=
  let entry := s.dev.buffer.slot index
  match entry.buffptr with
  | some p => do
    let heap ← free s.heap p
    return ⟨{ s.dev with buffer := s.dev.buffer.setSlot index ⟨none, entry.size⟩ }, heap⟩
  | none => .ok s

def aesdCleanupModule (s : DriverState) : Except Fault DriverState := do
  let s ← match s.dev.partialWrite with
    | some p => do
      let heap ← free s.heap p
      pure (⟨{ s.dev with partialWrite := none }, heap⟩ : DriverState)
    | none => pure s
  (List.range maxWriteOperationsSupported).foldlM freeSlot s

end Aesd.CharDriver
