import Aesd.Lib.DescriptorTable
import Aesd.ServerProcess

/-!
# How the server gets to its loop

`main` up to its loop, with `create_daemon` and the exits through `clean`. Any
call may fail. A process is followed to where it enters the loop or exits; a
daemon is a second process, and its parent exits behind `fork`. Messages, the
connection which `syslog` opens for them from the first one on, and what
`setsockopt` and `sigaction` do have no part in this.
-/

set_option autoImplicit false

namespace Aesd.ServerStartup
open DescriptorTable

/-- What a descriptor refers to: a file the process was started with, the
socket of the server, or `/dev/null` as `create_daemon` has opened it. -/
inductive StartFile where
  | inherited (n : ℕ)
  | socket
  | devNull
  deriving DecidableEq, Repr

inductive ServerInfo where
  | null
  | list
  | freed
  deriving DecidableEq, Repr

structure Image where
  table : Table StartFile
  sockfd : Option ℕ
  serverInfo : ServerInfo
  deriving DecidableEq, Repr

inductive BadUse where
  | freedTwice
  | noList
  deriving DecidableEq, Repr

/-- Which calls fail. `dup2` is told by the descriptor it is to replace. -/
structure Failures where
  socket : Bool := false
  getaddrinfo : Bool := false
  bind : Bool := false
  fork : Bool := false
  setsid : Bool := false
  chdir : Bool := false
  openNull : Bool := false
  dup2 : ℕ → Bool := fun _ => false
  listen : Bool := false

inductive Ending where
  | looping
  | exited (status : ℕ)
  deriving DecidableEq, Repr

structure Ended where
  image : Image
  ending : Ending
  deriving DecidableEq, Repr

/-- The process which was started, and the daemon it has forked. -/
structure Launch where
  started : Ended
  daemon : Option Ended
  deriving DecidableEq, Repr

def EXIT_SUCCESS : ℕ := 0

def clean (p : Image) : Ended :=
  ⟨{ p with table := (p.sockfd.map (close p.table)).getD p.table }, .exited 0⟩

def freeaddrinfo (p : Image) : Except BadUse Image :=
  match p.serverInfo with
  | .null => .ok p
  | .list => .ok { p with serverInfo := .freed }
  | .freed => .error .freedTwice

def freeAndClean (p : Image) : Except BadUse Ended := do
  let p ← freeaddrinfo p
  return clean p

def bindSocket (f : Failures) (p : Image) : Except BadUse Bool :=
  if p.serverInfo = .list then .ok !f.bind else .error .noList

def redirectStdio (f : Failures) (devNullFd : ℕ) : List ℕ → Table StartFile → Table StartFile × Bool
  | [], t => (t, true)
  | fd::fds, t =>
    if f.dup2 fd then (t, false) else redirectStdio f devNullFd fds (duplicate t devNullFd fd)

def daemonSetup (f : Failures) (p : Image) : Image × Bool :=
  if f.setsid then (p, false)
  else if f.chdir then (p, false)
  else if f.openNull then (p, false)
  else
    let devNullFd := lowestFree p.table
    let (table, ok) := redirectStdio f devNullFd [0,1,2] (install p.table .devNull)
    ({ p with table := close table devNullFd }, ok)

/-- `create_daemon`: the parent, if there is one, and the process which goes on. -/
def createDaemon (f : Failures) (p : Image) : Option Ended × Image × Bool :=
  if f.fork then (none, p, false)
  else (some ⟨p, .exited EXIT_SUCCESS⟩, daemonSetup f p)

def listenSocket (f : Failures) (p : Image) : Bool :=
  !f.listen && p.sockfd.any fun fd => lookup p.table fd = some .socket

def listenAndLoop (f : Failures) (p : Image) : Except BadUse Ended :=
  if listenSocket f p then .ok ⟨p, .looping⟩ else freeAndClean p

def launched (parent : Option Ended) (p : Ended) : Launch :=
  match parent with
  | none => ⟨p, none⟩
  | some parent => ⟨parent, some p⟩

def daemonAndLoop (f : Failures) (daemonMode : Bool) (p : Image) : Except BadUse Launch :=
  if daemonMode then do
    let (parent, p, ok) := createDaemon f p
    let ended ← if ok then listenAndLoop f p else freeAndClean p
    return launched parent ended
  else do
    let ended ← listenAndLoop f p
    return launched none ended

/-- `main` up to its loop, started with these files. -/
def main (f : Failures) (daemonMode : Bool) (files : Table ℕ) : Except BadUse Launch :=
  let table := files.map (Option.map .inherited)
  if f.socket then .ok (launched none (clean ⟨table, none, .null⟩))
  else
    let p : Image := ⟨install table .socket, some (lowestFree table), .null⟩
    if f.getaddrinfo then do
      let ended ← freeAndClean p
      return launched none ended
    else do
      let p := { p with serverInfo := .list }
      if ← bindSocket f p then daemonAndLoop f daemonMode p
      else
        let ended ← freeAndClean p
        return launched none ended

def Launch.server (l : Launch) : Ended := l.daemon.getD l.started

/-- A process which exits has status 0, has freed the list if it had one and
has no socket left. -/
structure ExitsClean (p : Ended) : Prop where
  status : p.ending = .exited 0
  list : p.image.serverInfo ≠ .list
  socket : ∀ d, lookup p.image.table d ≠ some .socket

/-- A process in the loop listens on the socket and has nothing else open but
what it was started with, where a daemon has `/dev/null` for its standard files. -/
structure EntersLoop (files : Table ℕ) (daemonMode : Bool) (p : Ended) : Prop where
  ending : p.ending = .looping
  list : p.image.serverInfo = .list
  sockfd : p.image.sockfd = some (lowestFree files)
  table : ∀ d, lookup p.image.table d =
    if d = lowestFree files then some .socket
    else if daemonMode = true ∧ d < 3 then some .devNull
    else (lookup files d).map .inherited

def SocketAt (t : Table StartFile) (fd : ℕ) : Prop := ∀ d, lookup t d = some .socket → d = fd

section
variable {f : Failures} {t : Table StartFile} {n : ℕ}

end

section
variable {f : Failures} {p : Image} {fd : ℕ}

theorem clean_exits (hs : p.sockfd = some fd) (hat : SocketAt p.table fd)
    (hl : p.serverInfo ≠ .list) : ExitsClean (clean p) where
  status := rfl
  list := hl
  socket d := by
    rw [clean, hs]
    change lookup (close p.table fd) d ≠ _
    rw [lookup_close]
    split_ifs with hd
    · exact nofun
    · exact fun h => hd (hat d h)

theorem freeAndClean_exits (hs : p.sockfd = some fd) (hat : SocketAt p.table fd)
    (hl : p.serverInfo ≠ .freed) : ∃ ended, freeAndClean p = .ok ended ∧ ExitsClean ended := by
  cases hi : p.serverInfo with
  | null =>
    refine ⟨clean p, ?_, clean_exits hs hat (by simp [hi])⟩
    rw [freeAndClean, freeaddrinfo, hi]
    rfl
  | list =>
    refine ⟨clean { p with serverInfo := .freed }, ?_, clean_exits hs hat nofun⟩
    rw [freeAndClean, freeaddrinfo, hi]
    rfl
  | freed => exact absurd hi hl

end

section
variable {f : Failures} {daemonMode : Bool} {files : Table ℕ}

theorem inherited_other (files : Table ℕ) (d : ℕ) :
    (lookup files d).map StartFile.inherited ≠ some .socket := by
  cases lookup files d <;> simp

theorem EntersLoop.ends {p : Ended} (h : EntersLoop files daemonMode p) :
    ∃ ended, freeAndClean p.image = .ok ended ∧ ExitsClean ended := by
  refine freeAndClean_exits h.sockfd (fun d hd => ?_) (by simp [h.list])
  rw [h.table] at hd
  split_ifs at hd with hsock hstd
  · exact hsock
  · cases hd
  · exact absurd hd (inherited_other files d)

end

end Aesd.ServerStartup
