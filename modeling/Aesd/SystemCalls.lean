import Aesd.Lib.DescriptorTable
import Mathlib.Data.List.Infix

/-!
# The functions of `systemcalls.c` which start a command

Behind `fork` the same code runs in two processes which tell themselves apart
by its return value. What the system calls do is given, and every process is
followed to where it leaves the function: it returns, `execv` replaces it by
the command, or it is aborted. What `perror` prints has no part in this.
-/

set_option autoImplicit false

namespace Aesd.SystemCalls
open DescriptorTable

structure CString where
  bytes : List UInt8
  terminated : 0 ∉ bytes
  deriving DecidableEq, Repr

structure Arguments where
  words : List (Option CString)
  nonempty : words ≠ []

def Arguments.command (args : Arguments) : List (Option CString) := args.words ++ [none]

def STDOUT_FILENO : ℕ := 1

inductive CommandEnd where
  | exited (status : UInt8)
  | killed (signal : ℕ)
  deriving DecidableEq, Repr

/-- How the system calls go. `execv` is `none` when it returns -1, and otherwise
how the command which it has started ends. -/
structure Outcomes where
  accessFails : Bool := false
  openFails : Bool := false
  forkFails : Bool := false
  dup2Fails : Bool := false
  execv : Option CommandEnd
  deriving DecidableEq, Repr

inductive BadRead where
  | outside (i : ℕ)
  | null (i : ℕ)
  deriving DecidableEq, Repr

def stringAt (command : List (Option CString)) (i : ℕ) : Except BadRead CString :=
  match command[i]? with
  | none => .error (.outside i)
  | some none => .error (.null i)
  | some (some word) => .ok word

def strstr (haystack : CString) (needle : List UInt8) : Bool := needle <:+: haystack.bytes

def bin : List UInt8 := [98,105,110]

/-- Where a process leaves the function. `started` names what `execv` was given
and how the command ends. -/
inductive Ending where
  | returned (retval : Bool)
  | started (path : Option CString) (argv : List (Option CString)) (commandEnd : CommandEnd)
  | aborted
  deriving DecidableEq, Repr

inductive Pid where
  | child
  | parent
  | failed
  deriving DecidableEq, Repr

section
variable {β : Type}

structure Process (β : Type) where
  table : Table β
  ending : Ending
  deriving DecidableEq, Repr

structure Run (β : Type) where
  caller : Process β
  child : Option (Process β)
  deriving DecidableEq, Repr

def fork (o : Outcomes) (body : Pid → Process β) : Run β :=
  if o.forkFails then ⟨body .failed, none⟩ else ⟨body .parent, some (body .child)⟩

/-- `do_exec` behind `fork`. The parent calls `wait(NULL)`, which returns when
the child has ended and tells nothing else. -/
def doExecForked (o : Outcomes) (table : Table β) (command : List (Option CString)) :
    Pid → Process β
  | .child =>
    match o.execv with
    | none => ⟨table, .returned false⟩
    | some commandEnd => ⟨table, .started (command.headD none) command commandEnd⟩
  | .parent => ⟨table, .returned true⟩
  | .failed => ⟨table, .returned false⟩

def doExec (o : Outcomes) (table : Table β) (args : Arguments) : Except BadRead (Run β) :=
  if o.accessFails then .ok ⟨⟨table, .returned false⟩, none⟩
  else do
    let third ← stringAt args.command 2
    if !strstr third bin then return ⟨⟨table, .returned false⟩, none⟩
    else return fork o (doExecForked o table args.command)

/-- `do_exec_redirect` behind `fork`, where `fd` is open. Only a caller which
could not fork closes it. -/
def doExecRedirectForked (o : Outcomes) (table : Table β) (fd : ℕ)
    (command : List (Option CString)) : Pid → Process β
  | .child =>
    if o.dup2Fails then ⟨close table fd, .aborted⟩
    else
      let table := close (duplicate table fd STDOUT_FILENO) fd
      match o.execv with
      | none => ⟨close table fd, .returned false⟩
      | some commandEnd => ⟨table, .started (command.headD none) command commandEnd⟩
  | .parent => ⟨table, .returned true⟩
  | .failed => ⟨close table fd, .returned false⟩

/-- `output` is what `open` opens under the name `outputfile`. -/
def doExecRedirect (o : Outcomes) (table : Table β) (output : β) (args : Arguments) :
    Except BadRead (Run β) :=
  if o.openFails then .ok ⟨⟨table, .returned false⟩, none⟩
  else .ok (fork o (doExecRedirectForked o (install table output) (lowestFree table) args.command))

def Ending.succeeded : Ending → Bool
  | .started _ _ (.exited status) => status = 0
  | _ => false

def Ending.retval : Ending → Option Bool
  | .returned retval => some retval
  | _ => none

def Run.succeeded (r : Run β) : Bool := r.child.any fun p => p.ending.succeeded

/-- The function returns in the calling process only, and its value tells
whether the command has succeeded. -/
structure Reports (x : Except BadRead (Run β)) : Prop where
  answer : ∃ r, x = .ok r ∧ r.caller.ending = .returned r.succeeded
  only : ∀ r, x = .ok r → ∀ p ∈ r.child, ∀ b, p.ending ≠ .returned b

def told : Except BadRead (Run β) → Option Bool
  | .ok r => r.caller.ending.retval
  | .error _ => none

end

end Aesd.SystemCalls
