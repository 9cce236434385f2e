import Aesd.SeekParser

/-!
# The client threads of `aesdsocket.c`

A thread receives one request into a growing buffer, hands it to the device
under `mutex_read_write`, and sends the content back under the same mutex
taken again. Between the two sections only the global `ioctl_just_performed`
remembers what the request was. A descriptor of the device is the position of
its open file; log messages have no part in the state.
-/

set_option autoImplicit false

namespace Aesd.SocketServer
open BlockHeap Allocation MachineInt
open Aesd.KernelMemory Aesd.CharDriver Aesd.SeekParser

abbrev clientBufferLen : ℕ := 1024

structure Libc where
  mallocMax : ℕ
  poison : UInt8
  mallocMax_small : mallocMax < 2^63

def Libc.allocator (M : Libc) : Allocator := ⟨M.mallocMax, M.poison⟩

def calloc (M : Libc) (h : Heap UInt8) (size : ℕ) (at' : Option Addr) :
    Option (Addr × Heap UInt8) :=
  place M.allocator h (List.replicate size 0) at'

def malloc (M : Libc) (h : Heap UInt8) (size : ℕ) (at' : Option Addr) :
    Option (Addr × Heap UInt8) :=
  place M.allocator h (fresh M.allocator size) at'

def realloc (M : Libc) (h : Heap UInt8) (p : Addr) (size : ℕ) (at' : Option Addr) :
    Except Fault (Option (Addr × Heap UInt8)) :=
  resize M.allocator h p size at'

structure Server where
  driver : DriverState
  heap : Heap UInt8
  mutexReadWrite : Bool
  ioctlJustPerformed : Bool

def pthreadMutexLock (mutex : Bool) : Except Fault Bool :=
  if mutex then .error .relock else .ok true

def pthreadMutexUnlock (mutex : Bool) : Except Fault Bool :=
  if mutex then .ok false else .error .unlockNotHeld

inductive Segment where
  | data (bytes : List UInt8)
  | closed
  | error
  deriving DecidableEq, Repr

/-- `recv` with room for `len` bytes: what it stores, `none` when it returns 0
or less, and what is still to come. Behind the last segment the peer has
closed; a segment longer than the room is delivered in pieces. -/
def recv (len : ℕ) : List Segment → Option (List UInt8) × List Segment
  | .data bytes::segments =>
    if bytes = [] ∨ len = 0 then (none, segments)
    else if bytes.length ≤ len then (some bytes, segments)
    else (some (bytes.take len), .data (bytes.drop len)::segments)
  | .closed::segments => (none, segments)
  | .error::segments => (none, segments)
  | [] => (none, [])

/-- What the environment decides in `send_rcv_socket_data`: the placement of
`client_buffer` and of its reallocations, the segments, and the course of the
call into the driver. -/
structure RequestEnv where
  callocAt : Option Addr
  segments : List Segment
  reallocAt : List (Option Addr) := []
  kmallocAt : Option Addr := none
  copyFaults : Bool := false
  interrupted : Bool := false
  kreallocAt : Option Addr := none

def RequestEnv.writeCall (env : RequestEnv) (fPos : ℤ) (data : List UInt8) : WriteCall where
  fPos := fPos
  data := data
  kmallocAt := env.kmallocAt
  copyFaults := env.copyFaults
  interrupted := env.interrupted
  kreallocAt := env.kreallocAt

/-- The receive loop. It ends with the buffer and `total_received` at the first
newline, or with `none` after it has freed the buffer. Every iteration which
does not end it receives a byte, which bounds how often it is entered. -/
def receiveLoop (M : Libc) : ℕ → Heap UInt8 → Addr → ℕ → ℕ → List Segment →
    List (Option Addr) → Except Fault (Heap UInt8 × Option (Addr × ℕ))
  | 0, _, _, _, _, _, _ => .error .outOfFuel
  | fuel+1, heap, clientBuffer, totalReceived, currentSize, segments, reallocAt =>
    match recv (subU64 (subU64 currentSize totalReceived) 1) segments with
    | (none, _) => do
      let heap ← free heap clientBuffer
      return (heap, none)
    | (some bytes, segments) => do
      let heap ← store heap clientBuffer totalReceived bytes
      let totalReceived := wrapU64 (totalReceived+bytes.length)
      let heap ← store heap clientBuffer totalReceived [0]
      let received ← load heap clientBuffer 0 totalReceived
      if received.contains newline then
        return (heap, some (clientBuffer, totalReceived))
      else if totalReceived ≥ subU64 currentSize 1 then
        let newSize := wrapU64 (currentSize*2)
        match ← realloc M heap clientBuffer newSize (reallocAt.headD none) with
        | none => do
          let heap ← free heap clientBuffer
          return (heap, none)
        | some (clientBuffer, heap) =>
          receiveLoop M fuel heap clientBuffer totalReceived newSize segments reallocAt.tail
      else
        receiveLoop M fuel heap clientBuffer totalReceived currentSize segments reallocAt

def Segment.length : Segment → ℕ
  | .data bytes => bytes.length
  | _ => 0

def receiveFuel (segments : List Segment) : ℕ := (segments.map Segment.length).sum+1

structure Dispatched where
  driver : DriverState
  ioctlJustPerformed : Bool
  fPos : ℤ
  written : ℤ

/-- The section of `send_rcv_socket_data` under `mutex_read_write`. The request
is followed by a zero in the buffer, so `strncmp` looks for the command at its
start. -/
def dispatchRequest (K : Kernel) (driver : DriverState) (ioctlJustPerformed : Bool) (fPos : ℤ)
    (request : List UInt8) (env : RequestEnv) : Except Fault Dispatched :=
  if SEEK_COMMAND.isPrefixOf request then
    match sscanfSeek (request.drop SEEK_COMMAND.length) with
    | some seekParams => do
      let (driver, fPos, retval) ←
        aesdUnlockedIoctl driver fPos AESDCHAR_IOCSEEKTO (some seekParams)
      if retval < 0 then
        return ⟨driver, ioctlJustPerformed, fPos, -1⟩
      else
        return ⟨driver, true, fPos, 1⟩
    | none => .ok ⟨driver, ioctlJustPerformed, fPos, -1⟩
  else do
    let (driver, written) ← aesdWrite K driver (env.writeCall fPos request)
    if written < 0 ∨ written ≠ request.length then
      return ⟨driver, ioctlJustPerformed, fPos, -1⟩
    else
      return ⟨driver, false, fPos, written⟩

def gatherRequest (M : Libc) (heap : Heap UInt8) (env : RequestEnv) :
    Except Fault (Heap UInt8 × Option (Addr × ℕ)) :=
  match calloc M heap clientBufferLen env.callocAt with
  | none => .ok (heap, none)
  | some (clientBuffer, heap) =>
    receiveLoop M (receiveFuel env.segments) heap clientBuffer 0 clientBufferLen env.segments
      env.reallocAt

/-- `send_rcv_socket_data` from the lock to the unlock. The result is the state,
the position of `file_fd` and `written`. -/
def requestSection (K : Kernel) (srv : Server) (fPos : ℤ) (clientBuffer : Addr)
    (totalReceived : ℕ) (env : RequestEnv) : Except Fault (Server × ℤ × ℤ) := do
  let mutex ← pthreadMutexLock srv.mutexReadWrite
  let request ← load srv.heap clientBuffer 0 totalReceived
  let d ← dispatchRequest K srv.driver srv.ioctlJustPerformed fPos request env
  let heap ← free srv.heap clientBuffer
  let mutex ← pthreadMutexUnlock mutex
  return (⟨d.driver, heap, mutex, d.ioctlJustPerformed⟩, d.fPos, d.written)

/-- The result is the state, the position of `file_fd` and the return value. -/
def sendRcvSocketData (K : Kernel) (M : Libc) (srv : Server) (fPos : ℤ) (env : RequestEnv) :
    Except Fault (Server × ℤ × ℤ) := do
  let (heap, received) ← gatherRequest M srv.heap env
  match received with
  | none => return ({ srv with heap }, fPos, -1)
  | some (clientBuffer, totalReceived) =>
    let (srv, fPos, written) ←
      requestSection K { srv with heap } fPos clientBuffer totalReceived env
    return (srv, fPos, wrapS32 written)

/-- How a `read` of the device goes: nothing disturbs it, the lock is
interrupted, or the first copy to user space faults. -/
inductive ReadOutcome where
  | undisturbed
  | interrupted
  | copyFaults
  deriving DecidableEq, Repr

inductive SendOutcome where
  | accepts (count : ℕ)
  | interrupted
  | fails
  deriving DecidableEq, Repr

/-- What the environment decides in `return_socketdata_to_client`. Reads beyond
the list are undisturbed and sends beyond it take everything. -/
structure ReplyEnv where
  mallocAt : Option Addr
  openFails : Bool := false
  reads : List ReadOutcome := []
  sends : List SendOutcome := []

structure Replied where
  driver : DriverState
  fPos : ℤ
  sent : List UInt8
  retval : ℤ

def ReadOutcome.call (fPos : ℤ) (sendBuffer : List UInt8) (o : ReadOutcome) : ReadCall where
  fPos := fPos
  buf := sendBuffer
  count := clientBufferLen
  interrupted := o == .interrupted
  copyFaults := if o = .copyFaults then [some 0] else []

/-- The `while` loop of `return_socketdata_to_client`. Every read which does not
end it advances in the content, which bounds how often it is entered. -/
def replyLoop (driver : DriverState) : ℕ → ℤ → List UInt8 → List ReadOutcome →
    List SendOutcome → Except Fault Replied
  | 0, _, _, _, _ => .error .outOfFuel
  | fuel+1, fPos, sendBuffer, reads, sends => do
    let (driver, r) ← aesdRead driver ((reads.headD .undisturbed).call fPos sendBuffer)
    if r.retval ≤ 0 then
      return ⟨driver, r.fPos, [], 0⟩
    else
      let bytes := r.buf.take r.retval.toNat
      match sends.headD (.accepts bytes.length) with
      | .accepts count => do
        let rest ← replyLoop driver fuel r.fPos r.buf reads.tail sends.tail
        return { rest with sent := bytes.take count ++ rest.sent }
      | .interrupted => replyLoop driver fuel r.fPos r.buf reads.tail sends.tail
      | .fails => return ⟨driver, r.fPos, [], -1⟩

def replyFuel (driver : DriverState) : ℕ := (totalSize driver.dev.buffer).toNat+1

/-- The section of `return_socketdata_to_client` under `mutex_read_write`: the
reply with the value it leaves in `ioctl_just_performed`. -/
def replySection (driver : DriverState) (ioctlJustPerformed : Bool) (fPos : ℤ)
    (sendBuffer : List UInt8) (env : ReplyEnv) : Except Fault (Bool × Replied) :=
  if !ioctlJustPerformed ∧ env.openFails then
    .ok (ioctlJustPerformed, ⟨driver, fPos, [], -1⟩)
  else do
    let fPos := if ioctlJustPerformed then fPos else 0
    let r ← replyLoop driver (replyFuel driver) fPos sendBuffer env.reads env.sends
    return (false, r)

def returnSocketdataToClient (M : Libc) (srv : Server) (fPos : ℤ) (env : ReplyEnv) :
    Except Fault (Server × List UInt8 × ℤ) :=
  match malloc M srv.heap clientBufferLen env.mallocAt with
  | none => .ok (srv, [], -1)
  | some (sendBuffer, heap) => do
    let mutex ← pthreadMutexLock srv.mutexReadWrite
    let bytes ← load heap sendBuffer 0 clientBufferLen
    let (flag, r) ← replySection srv.driver srv.ioctlJustPerformed fPos bytes env
    let heap ← free heap sendBuffer
    let mutex ← pthreadMutexUnlock mutex
    return (⟨r.driver, heap, mutex, flag⟩, r.sent, r.retval)

structure Client where
  openFails : Bool := false
  request : RequestEnv
  reply : ReplyEnv

def threadOperation (K : Kernel) (M : Libc) (srv : Server) (c : Client) :
    Except Fault (Server × List UInt8) :=
  if c.openFails then .ok (srv, [])
  else do
    let (srv, fPos, written) ← sendRcvSocketData K M srv 0 c.request
    if written > 0 then
      let (srv, sent, _) ← returnSocketdataToClient M srv fPos c.reply
      return (srv, sent)
    else
      return (srv, [])

end Aesd.SocketServer
