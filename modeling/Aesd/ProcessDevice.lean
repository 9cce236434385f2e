import Aesd.OwnDescriptors
import Aesd.SocketReply
import Aesd.SocketRequest

/-!
# The process with its device

The threads of the process with their buffers and the device behind their
numbers. Every call which goes through a number is a step of its own and goes to
the file which the number refers to by then, so what another thread has closed
or opened meanwhile is felt. A thread receives its request in one step: which
bytes `recv` brings is left open anyway. Where `SIGPIPE` ends the process its run
just stops, and what `main` hands to a thread is no block of the heap here.
-/

set_option autoImplicit false

namespace Aesd.ProcessDevice
open BlockHeap Allocation DescriptorTable MachineInt
open Aesd.KernelMemory Aesd.CharDriver Aesd.SeekParser Aesd.SocketServer Aesd.ServerProcess

/-- The first `bytesRead` bytes of `sendBuffer` were read and not sent yet. Kept for
the statements: the request, what the client of the thread has taken so far, and
whether every read was undisturbed and all of it taken. -/
structure Reply where
  request : List UInt8
  sendBuffer : Addr
  bytesRead : ℕ
  sent : List UInt8
  whole : Bool
  deriving DecidableEq

/-- What a thread has in its memory. The buffer of a request which was dispatched
is freed, the request is kept for the statements. -/
inductive Held where
  | nothing
  | buffer (clientBuffer : Addr) (totalReceived : ℕ)
  | dispatched (request : List UInt8)
  | reply (r : Reply)
  deriving DecidableEq

def Held.request : Held → Option (List UInt8)
  | .dispatched request => some request
  | .reply r => some r.request
  | _ => none

structure System where
  process : Process
  driver : DriverState
  heap : Heap UInt8
  fPos : File → ℤ
  held : ℕ → Held

def launchedOn (m : Startup) (s : DriverState) : System :=
  ⟨launched m, s, empty, fun _ => 0, fun _ => .nothing⟩

/-- How the calls of a thread's next step go. The last fields but one are about
calls on a file which is not the device: whether a `write` or an `ioctl` is
accepted, and what a `read` brings. A `send` takes everything by default. -/
structure Calls where
  openFails : Bool := false
  request : RequestEnv := { callocAt := none, segments := [] }
  mallocAt : Option Addr := none
  read : ReadOutcome := .undisturbed
  accepted : Bool := false
  brought : List UInt8 := []
  send : Option SendOutcome := none

inductive SystemAction where
  | main (ok : Bool)
  | thread (k : ℕ) (calls : Calls)
  | signal

inductive Shown where
  | stored (k : ℕ) (request : List UInt8)
  | replied (k : ℕ) (sent : List UInt8) (whole : Bool)
  deriving DecidableEq

structure Effect where
  goesOn : Option Outcome
  driver : DriverState
  heap : Heap UInt8
  fPos : File → ℤ
  ioctlJustPerformed : Bool
  held : Held
  shown : Option Shown

def System.idle (s : System) (k : ℕ) : Effect :=
  ⟨none, s.driver, s.heap, s.fPos, s.process.ioctlJustPerformed, s.held k, none⟩

/-- The request under a number which is not the device's any more. -/
def dispatchElsewhere (s : System) (request : List UInt8) (accepted : Bool) : Dispatched :=
  if !accepted then ⟨s.driver, s.process.ioctlJustPerformed, 0, -1⟩
  else if SEEK_COMMAND.isPrefixOf request then
    match sscanfSeek (request.drop SEEK_COMMAND.length) with
    | some _ => ⟨s.driver, true, 0, 1⟩
    | none => ⟨s.driver, s.process.ioctlJustPerformed, 0, -1⟩
  else ⟨s.driver, false, 0, request.length⟩

def dispatchTo (K : Kernel) (s : System) (request : List UInt8) (c : Calls) :
    Option File → Except Fault (Dispatched × (File → ℤ))
  | some (.device j n) => do
    let d ← dispatchRequest K s.driver s.process.ioctlJustPerformed (s.fPos (.device j n)) request
      c.request
    return (d, Function.update s.fPos (.device j n) d.fPos)
  | some _ => .ok (dispatchElsewhere s request c.accepted, s.fPos)
  | none => .ok (dispatchElsewhere s request false, s.fPos)

def dispatchEffect (K : Kernel) (s : System) (k fileFd : ℕ) (clientBuffer : Addr)
    (totalReceived : ℕ) (c : Calls) : Except Fault Effect :=
  if s.process.mutexReadWrite ≠ none then .ok (s.idle k)
  else do
    let request ← load s.heap clientBuffer 0 totalReceived
    let file := lookup s.process.table fileFd
    let (d, fPos) ← dispatchTo K s request c file
    let heap ← free s.heap clientBuffer
    let shown := match file with
      | some (.device _ _) => if d.written > 0 ∧ ¬ SEEK_COMMAND.isPrefixOf request then
          some (.stored k request) else none
      | _ => none
    if wrapS32 d.written > 0 then
      let o := if d.ioctlJustPerformed then .seeks else .succeeds
      return ⟨some o, d.driver, heap, fPos, d.ioctlJustPerformed, .dispatched request, shown⟩
    else
      return ⟨some .fails, d.driver, heap, fPos, d.ioctlJustPerformed, .nothing, shown⟩

def readFrom (s : System) (sendBuffer : List UInt8) (c : Calls) :
    Option File → Except Fault (DriverState × (File → ℤ) × ℤ × List UInt8)
  | some (.device j n) => do
    let (driver, r) ← aesdRead s.driver (c.read.call (s.fPos (.device j n)) sendBuffer)
    return (driver, Function.update s.fPos (.device j n) r.fPos, r.retval, r.buf)
  | some _ =>
    let bytes := c.brought.take clientBufferLen
    .ok (s.driver, s.fPos, bytes.length, overwrite sendBuffer 0 bytes)
  | none => .ok (s.driver, s.fPos, -1, sendBuffer)

def isDevice : Option File → Bool
  | some (.device _ _) => true
  | _ => false

def readEffect (s : System) (k replyFd : ℕ) (r : Reply) (c : Calls) : Except Fault Effect := do
  let sendBuffer ← load s.heap r.sendBuffer 0 clientBufferLen
  let file := lookup s.process.table replyFd
  let (driver, fPos, bytesRead, sendBuffer) ← readFrom s sendBuffer c file
  let heap ← store s.heap r.sendBuffer 0 sendBuffer
  let whole := r.whole && isDevice file && c.read = .undisturbed
  if bytesRead > 0 then
    return ⟨none, driver, heap, fPos, s.process.ioctlJustPerformed,
      .reply { r with bytesRead := bytesRead.toNat, whole }, none⟩
  else
    let heap ← free heap r.sendBuffer
    return ⟨some .succeeds, driver, heap, fPos, s.process.ioctlJustPerformed, .nothing,
      some (.replied k r.sent whole)⟩

/-- Only sockets and the like take what is sent to them. -/
def sendOutcome (c : Calls) (len : ℕ) : Option File → SendOutcome
  | some (.device _ _) => .fails
  | some _ => c.send.getD (.accepts len)
  | none => .fails

def sendEffect (s : System) (k clientFd : ℕ) (r : Reply) (c : Calls) : Except Fault Effect := do
  let bytes ← load s.heap r.sendBuffer 0 r.bytesRead
  let file := lookup s.process.table clientFd
  match sendOutcome c bytes.length file with
  | .accepts count =>
    let own := decide (file = some (.client k))
    return { s.idle k with held := .reply { r with
      bytesRead := 0
      sent := if own then r.sent ++ bytes.take count else r.sent
      whole := r.whole && own && bytes.length ≤ count } }
  | .interrupted =>
    return { s.idle k with held := .reply { r with bytesRead := 0, whole := false } }
  | .fails =>
    let heap ← free s.heap r.sendBuffer
    return { s.idle k with
      goesOn := some .succeeds
      heap := heap
      held := .nothing
      shown := some (.replied k r.sent false) }

def threadEffect (K : Kernel) (M : Libc) (s : System) (k : ℕ) (c : Calls) : Except Fault Effect :=
  match s.process.thread k, s.held k with
  | .opening _, _ =>
    if c.openFails then .ok { s.idle k with goesOn := some .fails }
    else .ok { s.idle k with
      goesOn := some .succeeds
      fPos := Function.update s.fPos (.device k 0) 0 }
  | .requesting _ _, .nothing => do
    let (heap, received) ← gatherRequest M s.heap c.request
    match received with
    | none => return { s.idle k with goesOn := some .fails, heap }
    | some (clientBuffer, totalReceived) =>
      return { s.idle k with heap, held := .buffer clientBuffer totalReceived }
  | .requesting _ fileFd, .buffer clientBuffer totalReceived =>
    dispatchEffect K s k fileFd clientBuffer totalReceived c
  | .replying _ _, .dispatched request =>
    match malloc M s.heap clientBufferLen c.mallocAt with
    | none => .ok { s.idle k with goesOn := some .fails, held := .nothing }
    | some (sendBuffer, heap) =>
      .ok { s.idle k with heap, held := .reply ⟨request, sendBuffer, 0, [], true⟩ }
  | .reopening _ _, .reply r =>
    if c.openFails then do
      let heap ← free s.heap r.sendBuffer
      return { s.idle k with goesOn := some .fails, heap, held := .nothing }
    else .ok { s.idle k with
      goesOn := some .succeeds
      fPos := Function.update s.fPos (.device k 1) 0 }
  | .serving clientFd _ replyFd, .reply r =>
    if r.bytesRead = 0 then readEffect s k replyFd r c else sendEffect s k clientFd r c
  | _, _ => .ok { s.idle k with goesOn := some .succeeds }

def System.take (s : System) (k : ℕ) (e : Effect) (p : Process) : System :=
  ⟨p, e.driver, e.heap, e.fPos, Function.update s.held k e.held⟩

def threadCall (K : Kernel) (M : Libc) (s : System) (k : ℕ) (c : Calls) :
    Except Fault (System × Option Shown) :=
  if s.process.main = .exited then .ok (s, none)
  else do
    let e ← threadEffect K M s k c
    match e.goesOn with
    | none => return (s.take k e s.process, e.shown)
    | some o =>
      match processStep { s.process with ioctlJustPerformed := e.ioctlJustPerformed }
          (.thread k o) with
      | .ok (p, _) => return (s.take k e p, e.shown)
      | .error _ => return (s, none)

/-- A step of `main`, of a thread, or a signal. Who has to wait changes nothing. -/
def systemStep (K : Kernel) (M : Libc) (s : System) : SystemAction →
    Except Fault (System × Option Shown)
  | .thread k c => threadCall K M s k c
  | .main ok =>
    match processStep s.process (.main ok) with
    | .ok (p, _) => .ok ({ s with process := p }, none)
    | .error _ => .ok (s, none)
  | .signal =>
    match processStep s.process .signal with
    | .ok (p, _) => .ok ({ s with process := p }, none)
    | .error _ => .ok (s, none)

def systemRun (K : Kernel) (M : Libc) :
    System → List SystemAction → Except Fault (System × List (Option Shown)) :=
  Runs.run (systemStep K M)

end Aesd.ProcessDevice
