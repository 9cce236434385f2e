import Aesd.Lib.DescriptorTable
import Aesd.Lib.Runs

/-!
# The server as a process

The threads of `aesdsocket.c` and its main loop share one table of descriptors.
Every call which changes the table, the list of threads or the memory handed
from one thread to another is a step of its own, so the steps of the threads
may interleave as `mutex_read_write` and `thread_join` allow. What a request
does to the device is left out: only whether it is served, and whether it was a
seek, decides what a thread does next. Left out too are `SIGPIPE`, by which a
`send` to a client which is gone ends the process, and the message of the
signal handler, which waits for itself if the signal comes inside `syslog`.
-/

set_option autoImplicit false

namespace Aesd.ServerProcess
open DescriptorTable

/-- What a descriptor refers to: a file which the process had before the loop,
the socket of the client accepted as number `k`, or the device as thread `k`
has opened it for the first or the second time. -/
inductive File where
  | own (n : ℕ)
  | client (k : ℕ)
  | device (k opening : ℕ)
  deriving DecidableEq, Repr

inductive Block where
  | arg (k : ℕ)
  | node (k : ℕ)
  deriving DecidableEq, Repr

inductive Owner where
  | main
  | thread (k : ℕ)
  deriving DecidableEq, Repr

/-- What a step is seen to do. A close is recorded with the file it has hit. -/
inductive Event where
  | opened (file : File)
  | closed (owner : Owner) (hit : Option File)
  | made (block : Block)
  | freed (block : Block)
  | created (k : ℕ)
  | joined (k : ℕ)
  deriving DecidableEq, Repr

/-- Where `main` is. `joining` and `unlinking` are inside `thread_join`, called
behind the loop if `last` is set; `current` and `next` are its variables. -/
inductive MainPhase where
  | looping
  | accepting
  | accepted (k clientFd : ℕ)
  | creating (k clientFd : ℕ)
  | freeing (k clientFd : ℕ)
  | refused (k clientFd : ℕ)
  | adding (k : ℕ)
  | joining (last : Bool) (current : List ℕ)
  | unlinking (last : Bool) (current : ℕ) (next : List ℕ)
  | cleaning
  | exited
  deriving DecidableEq, Repr

/-- Where `thread_operation` is. From `replying` to `serving` it is inside
`return_socketdata_to_client`, which has its own copy of `file_fd`. -/
inductive ThreadPhase where
  | unborn
  | opening (clientFd : ℕ)
  | requesting (clientFd fileFd : ℕ)
  | replying (clientFd fileFd : ℕ)
  | locked (clientFd fileFd : ℕ)
  | reopening (clientFd fileFd : ℕ)
  | serving (clientFd fileFd replyFd : ℕ)
  | closing (clientFd fileFd : ℕ)
  | closingClient (clientFd : ℕ)
  | freeing
  | finished
  | joined
  deriving DecidableEq, Repr

structure Process where
  table : Table File
  sockfd : ℕ
  clients : ℕ
  main : MainPhase
  thread : ℕ → ThreadPhase
  head : List ℕ
  mutexReadWrite : Option ℕ
  ioctlJustPerformed : Bool
  exitFlag : Bool

structure Startup where
  files : Table ℕ
  sockfd : ℕ
  listening : lookup files sockfd ≠ none

def launched (m : Startup) : Process where
  table := m.files.map (Option.map .own)
  sockfd := m.sockfd
  clients := 0
  main := .looping
  thread := fun _ => .unborn
  head := []
  mutexReadWrite := none
  ioctlJustPerformed := false
  exitFlag := false

/-- How the call of a step goes. A request which succeeds is either data which
was written or a seek which was accepted. -/
inductive Outcome where
  | fails
  | succeeds
  | seeks
  deriving DecidableEq, Repr

inductive Action where
  | main (ok : Bool)
  | thread (k : ℕ) (outcome : Outcome)
  | signal
  deriving DecidableEq, Repr

inductive Blocked where
  | blocked
  deriving DecidableEq, Repr

def Process.go (s : Process) (k : ℕ) (p : ThreadPhase) : Process :=
  { s with thread := Function.update s.thread k p }

@[simp] theorem go_clients (s : Process) (k : ℕ) (p : ThreadPhase) :
    (s.go k p).clients = s.clients := rfl

@[simp] theorem go_head (s : Process) (k : ℕ) (p : ThreadPhase) : (s.go k p).head = s.head := rfl

theorem go_thread (s : Process) (k j : ℕ) (p : ThreadPhase) :
    (s.go k p).thread j = if j = k then p else s.thread j :=
  Function.update_apply s.thread k p j

@[simp] theorem go_same (s : Process) (k : ℕ) (p : ThreadPhase) : (s.go k p).thread k = p := by
  rw [go_thread, if_pos rfl]

theorem go_other (s : Process) {k j : ℕ} (p : ThreadPhase) (h : j ≠ k) :
    (s.go k p).thread j = s.thread j := by
  rw [go_thread, if_neg h]

/-- The next step of `main`; `ok` tells whether the call in it succeeds. A
thread which was joined before cannot be joined again. -/
def mainStep (s : Process) (ok : Bool) : Except Blocked (Process × Option Event) :=
  match s.main with
  | .looping =>
    .ok ({ s with main := if s.exitFlag then .joining true s.head else .accepting }, none)
  | .accepting =>
    if ok then
      .ok ({ s with table := install s.table (.client s.clients), clients := s.clients+1,
                    main := .accepted s.clients (lowestFree s.table) },
        some (.opened (.client s.clients)))
    else .ok ({ s with main := .looping }, none)
  | .accepted k clientFd =>
    if ok then .ok ({ s with main := .creating k clientFd }, some (.made (.arg k)))
    else .ok ({ s with main := .refused k clientFd }, none)
  | .creating k clientFd =>
    if ok then
      .ok ({ s.go k (.opening clientFd) with main := .adding k }, some (.created k))
    else .ok ({ s with main := .freeing k clientFd }, none)
  | .freeing k clientFd =>
    .ok ({ s with main := .refused k clientFd }, some (.freed (.arg k)))
  | .refused _ clientFd =>
    .ok ({ s with table := close s.table clientFd, main := .looping },
      some (.closed .main (lookup s.table clientFd)))
  | .adding k =>
    if ok then
      .ok ({ s with head := k::s.head, main := .joining false (k::s.head) },
        some (.made (.node k)))
    else .ok ({ s with main := .joining false s.head }, none)
  | .joining last [] =>
    .ok ({ s with main := if last then .cleaning else .looping }, none)
  | .joining last (current::next) =>
    match s.thread current with
    | .finished =>
      .ok ({ s.go current .joined with main := .unlinking last current next },
        some (.joined current))
    | .joined => .ok ({ s with main := .joining last next }, none)
    | _ => .error .blocked
  | .unlinking last current next =>
    .ok ({ s with head := s.head.erase current, main := .joining last next },
      some (.freed (.node current)))
  | .cleaning =>
    .ok ({ s with table := close s.table s.sockfd, main := .exited },
      some (.closed .main (lookup s.table s.sockfd)))
  | .exited => .error .blocked

/-- The next step of thread `k`. The sections of `send_rcv_socket_data` and of
`return_socketdata_to_client` need `mutex_read_write`; a request may also fail
before its section. -/
def threadStep (s : Process) (k : ℕ) (o : Outcome) :
    Except Blocked (Process × Option Event) :=
  match s.thread k with
  | .unborn => .error .blocked
  | .opening clientFd =>
    if o = .fails then .ok (s.go k (.closingClient clientFd), none)
    else .ok ({ s.go k (.requesting clientFd (lowestFree s.table)) with
        table := install s.table (.device k 0) }, some (.opened (.device k 0)))
  | .requesting clientFd fileFd =>
    if o = .fails then .ok (s.go k (.closing clientFd fileFd), none)
    else if s.mutexReadWrite = none then
      .ok ({ s.go k (.replying clientFd fileFd) with ioctlJustPerformed := o = .seeks }, none)
    else .error .blocked
  | .replying clientFd fileFd =>
    if o = .fails then .ok (s.go k (.closing clientFd fileFd), none)
    else if s.mutexReadWrite = none then
      .ok ({ s.go k (.locked clientFd fileFd) with mutexReadWrite := some k }, none)
    else .error .blocked
  | .locked clientFd fileFd =>
    if s.ioctlJustPerformed then
      .ok ({ s.go k (.serving clientFd fileFd fileFd) with ioctlJustPerformed := false }, none)
    else
      .ok ({ s.go k (.reopening clientFd fileFd) with table := close s.table fileFd },
        some (.closed (.thread k) (lookup s.table fileFd)))
  | .reopening clientFd fileFd =>
    if o = .fails then
      .ok ({ s.go k (.closing clientFd fileFd) with mutexReadWrite := none }, none)
    else
      .ok ({ s.go k (.serving clientFd fileFd (lowestFree s.table)) with
          table := install s.table (.device k 1), ioctlJustPerformed := false },
        some (.opened (.device k 1)))
  | .serving clientFd fileFd _ =>
    .ok ({ s.go k (.closing clientFd fileFd) with mutexReadWrite := none }, none)
  | .closing clientFd fileFd =>
    .ok ({ s.go k (.closingClient clientFd) with table := close s.table fileFd },
      some (.closed (.thread k) (lookup s.table fileFd)))
  | .closingClient clientFd =>
    .ok ({ s.go k .freeing with table := close s.table clientFd },
      some (.closed (.thread k) (lookup s.table clientFd)))
  | .freeing => .ok (s.go k .finished, some (.freed (.arg k)))
  | .finished => .error .blocked
  | .joined => .error .blocked

def processStep (s : Process) (a : Action) : Except Blocked (Process × Option Event) :=
  if s.main = .exited then .error .blocked
  else
    match a with
    | .main ok => mainStep s ok
    | .thread k o => threadStep s k o
    | .signal => .ok ({ s with exitFlag := true }, none)

def processRun : Process → List Action → Except Blocked (Process × List (Option Event)) :=
  Runs.run processStep

def MainPhase.client : MainPhase → Option (ℕ × ℕ)
  | .accepted k clientFd => some (k, clientFd)
  | .creating k clientFd => some (k, clientFd)
  | .freeing k clientFd => some (k, clientFd)
  | .refused k clientFd => some (k, clientFd)
  | _ => none

def MainPhase.listed : MainPhase → List ℕ
  | .joining _ current => current
  | .unlinking _ current next => current::next
  | _ => []

def ThreadPhase.clientFd : ThreadPhase → Option ℕ
  | .opening c => some c
  | .requesting c _ => some c
  | .replying c _ => some c
  | .locked c _ => some c
  | .reopening c _ => some c
  | .serving c _ _ => some c
  | .closing c _ => some c
  | .closingClient c => some c
  | _ => none

def ThreadPhase.fileFd : ThreadPhase → Option ℕ
  | .requesting _ f => some f
  | .replying _ f => some f
  | .locked _ f => some f
  | .serving _ _ g => some g
  | .closing _ f => some f
  | _ => none

def ThreadPhase.openings : ThreadPhase → ℕ
  | .unborn => 0
  | .opening _ => 0
  | .requesting _ _ => 1
  | .replying _ _ => 1
  | .locked _ _ => 1
  | .reopening _ _ => 1
  | _ => 2

def ThreadPhase.running : ThreadPhase → Bool
  | .unborn => false
  | .finished => false
  | .joined => false
  | _ => true

inductive MainMove (s : Process) (ok : Bool) : Process → Option Event → Prop where
  | tests (p : MainPhase) (h : s.main = .looping)
      (hp : p = .accepting ∨ p = .joining true s.head) : MainMove s ok { s with main := p } none
  | accepts (h : s.main = .accepting) :
      MainMove s ok
        { s with table := install s.table (.client s.clients), clients := s.clients+1,
                 main := .accepted s.clients (lowestFree s.table) }
        (some (.opened (.client s.clients)))
  | acceptFails (h : s.main = .accepting) : MainMove s ok { s with main := .looping } none
  | allocates {k c : ℕ} (h : s.main = .accepted k c) :
      MainMove s ok { s with main := .creating k c } (some (.made (.arg k)))
  | mallocFails {k c : ℕ} (h : s.main = .accepted k c) :
      MainMove s ok { s with main := .refused k c } none
  | creates {k c : ℕ} (h : s.main = .creating k c) :
      MainMove s ok { s.go k (.opening c) with main := .adding k } (some (.created k))
  | createFails {k c : ℕ} (h : s.main = .creating k c) :
      MainMove s ok { s with main := .freeing k c } none
  | frees {k c : ℕ} (h : s.main = .freeing k c) :
      MainMove s ok { s with main := .refused k c } (some (.freed (.arg k)))
  | closes {k c : ℕ} (h : s.main = .refused k c) :
      MainMove s ok { s with table := close s.table c, main := .looping }
        (some (.closed .main (lookup s.table c)))
  | adds {k : ℕ} (h : s.main = .adding k) :
      MainMove s ok { s with head := k::s.head, main := .joining false (k::s.head) }
        (some (.made (.node k)))
  | addFails {k : ℕ} (h : s.main = .adding k) (hok : ok = false) :
      MainMove s ok { s with main := .joining false s.head } none
  | walked {last : Bool} (p : MainPhase) (h : s.main = .joining last [])
      (hp : p = .looping ∨ p = .cleaning) : MainMove s ok { s with main := p } none
  | joins {last : Bool} {k : ℕ} {next : List ℕ} (h : s.main = .joining last (k::next))
      (hk : s.thread k = .finished) :
      MainMove s ok { s.go k .joined with main := .unlinking last k next } (some (.joined k))
  | joinFails {last : Bool} {k : ℕ} {next : List ℕ} (h : s.main = .joining last (k::next))
      (hk : s.thread k = .joined) : MainMove s ok { s with main := .joining last next } none
  | unlinks {last : Bool} {k : ℕ} {next : List ℕ} (h : s.main = .unlinking last k next) :
      MainMove s ok { s with head := s.head.erase k, main := .joining last next }
        (some (.freed (.node k)))
  | cleans (h : s.main = .cleaning) :
      MainMove s ok { s with table := close s.table s.sockfd, main := .exited }
        (some (.closed .main (lookup s.table s.sockfd)))

theorem mainStep_moves {s s' : Process} {ok : Bool} {e : Option Event}
    (h : mainStep s ok = .ok (s', e)) : MainMove s ok s' e := by
  cases hm : s.main with
  | looping =>
    simp only [mainStep, hm] at h
    obtain ⟨rfl, rfl⟩ := Prod.mk.inj (Except.ok.inj h)
    exact .tests _ hm (by split_ifs <;> simp)
  | accepting =>
    cases ok <;> simp only [mainStep, hm, Bool.false_eq_true, if_true, if_false] at h <;>
      obtain ⟨rfl, rfl⟩ := Prod.mk.inj (Except.ok.inj h)
    · exact .acceptFails hm
    · exact .accepts hm
  | accepted k c =>
    cases ok <;> simp only [mainStep, hm, Bool.false_eq_true, if_true, if_false] at h <;>
      obtain ⟨rfl, rfl⟩ := Prod.mk.inj (Except.ok.inj h)
    · exact .mallocFails hm
    · exact .allocates hm
  | creating k c =>
    cases ok <;> simp only [mainStep, hm, Bool.false_eq_true, if_true, if_false] at h <;>
      obtain ⟨rfl, rfl⟩ := Prod.mk.inj (Except.ok.inj h)
    · exact .createFails hm
    · exact .creates hm
  | freeing k c =>
    simp only [mainStep, hm] at h
    obtain ⟨rfl, rfl⟩ := Prod.mk.inj (Except.ok.inj h)
    exact .frees hm
  | refused k c =>
    simp only [mainStep, hm] at h
    obtain ⟨rfl, rfl⟩ := Prod.mk.inj (Except.ok.inj h)
    exact .closes hm
  | adding k =>
    cases ok <;> simp only [mainStep, hm, Bool.false_eq_true, if_true, if_false] at h <;>
      obtain ⟨rfl, rfl⟩ := Prod.mk.inj (Except.ok.inj h)
    · exact .addFails hm rfl
    · exact .adds hm
  | joining last current =>
    cases current with
    | nil =>
      simp only [mainStep, hm] at h
      obtain ⟨rfl, rfl⟩ := Prod.mk.inj (Except.ok.inj h)
      exact .walked _ hm (by split_ifs <;> simp)
    | cons k next =>
      cases hk : s.thread k with
      | finished =>
        simp only [mainStep, hm, hk] at h
        obtain ⟨rfl, rfl⟩ := Prod.mk.inj (Except.ok.inj h)
        exact .joins hm hk
      | joined =>
        simp only [mainStep, hm, hk] at h
        obtain ⟨rfl, rfl⟩ := Prod.mk.inj (Except.ok.inj h)
        exact .joinFails hm hk
      | _ => simp only [mainStep, hm, hk, reduceCtorEq] at h
  | unlinking last k next =>
    simp only [mainStep, hm] at h
    obtain ⟨rfl, rfl⟩ := Prod.mk.inj (Except.ok.inj h)
    exact .unlinks hm
  | cleaning =>
    simp only [mainStep, hm] at h
    obtain ⟨rfl, rfl⟩ := Prod.mk.inj (Except.ok.inj h)
    exact .cleans hm
  | exited => simp only [mainStep, hm, reduceCtorEq] at h

inductive ThreadMove (table : Table File) (k : ℕ) (o : Outcome) :
    ThreadPhase → ThreadPhase → Table File → Option Event → Prop where
  | goes {q p : ThreadPhase} (hc : p.clientFd = q.clientFd) (hf : p.fileFd = q.fileFd)
      (ho : q.openings ≤ p.openings) (hp : p.running = true) :
      ThreadMove table k o q p table none
  | opens {q p : ThreadPhase} {r : ℕ} (hc : p.clientFd = q.clientFd) (hf : q.fileFd = none)
      (hf' : p.fileFd = some (lowestFree table)) (ho : q.openings = r) (ho' : p.openings = r+1)
      (hp : p.running = true) :
      ThreadMove table k o q p (install table (.device k r)) (some (.opened (.device k r)))
  | reopenFails {c f : ℕ} (ho : o = .fails) :
      ThreadMove table k o (.reopening c f) (.closing c f) table none
  | returns {c f g : ℕ} : ThreadMove table k o (.serving c f g) (.closing c f) table none
  | closesFile {q p : ThreadPhase} {f : ℕ} (hc : p.clientFd = q.clientFd)
      (hf : q.fileFd = some f) (hf' : p.fileFd = none) (ho : q.openings ≤ p.openings)
      (hp : p.running = true) :
      ThreadMove table k o q p (close table f) (some (.closed (.thread k) (lookup table f)))
  | closesClient {c : ℕ} :
      ThreadMove table k o (.closingClient c) .freeing (close table c)
        (some (.closed (.thread k) (lookup table c)))
  | frees : ThreadMove table k o .freeing .finished table (some (.freed (.arg k)))

def Reopens (table : Table File) (q p : ThreadPhase) : Prop :=
  (∀ c f, p = .reopening c f → q.fileFd = some f) ∧
  ∀ c f g, p = .serving c f g → g = f ∨ q = .reopening c f ∧ g = lowestFree table

theorem threadStep_moves {s s' : Process} {k : ℕ} {o : Outcome} {e : Option Event}
    (h : threadStep s k o = .ok (s', e)) :
    (s.thread k).running = true ∧ ∃ p t m b, s' = { s.go k p with
        table := t, mutexReadWrite := m, ioctlJustPerformed := b } ∧
      ThreadMove s.table k o (s.thread k) p t e ∧ Reopens s.table (s.thread k) p := by
  cases hk : s.thread k with
  | unborn => simp only [threadStep, hk, reduceCtorEq] at h
  | opening c =>
    simp only [threadStep, hk] at h
    split_ifs at h with ho <;> obtain ⟨rfl, rfl⟩ := Prod.mk.inj (Except.ok.inj h)
    · exact ⟨rfl, _, _, _, _, rfl, .goes rfl rfl (Nat.zero_le 2) rfl, nofun, nofun⟩
    · exact ⟨rfl, _, _, _, _, rfl, .opens rfl rfl rfl rfl rfl rfl, nofun, nofun⟩
  | requesting c f =>
    simp only [threadStep, hk] at h
    split_ifs at h with ho hm <;> obtain ⟨rfl, rfl⟩ := Prod.mk.inj (Except.ok.inj h)
    · exact ⟨rfl, _, _, _, _, rfl, .goes rfl rfl (Nat.le_succ 1) rfl, nofun, nofun⟩
    · exact ⟨rfl, _, _, _, _, rfl, .goes rfl rfl (Nat.le_refl 1) rfl, nofun, nofun⟩
  | replying c f =>
    simp only [threadStep, hk] at h
    split_ifs at h with ho hm <;> obtain ⟨rfl, rfl⟩ := Prod.mk.inj (Except.ok.inj h)
    · exact ⟨rfl, _, _, _, _, rfl, .goes rfl rfl (Nat.le_succ 1) rfl, nofun, nofun⟩
    · exact ⟨rfl, _, _, _, _, rfl, .goes rfl rfl (Nat.le_refl 1) rfl, nofun, nofun⟩
  | locked c f =>
    simp only [threadStep, hk] at h
    split_ifs at h with hflag <;> obtain ⟨rfl, rfl⟩ := Prod.mk.inj (Except.ok.inj h)
    · refine ⟨rfl, _, _, _, _, rfl, .goes rfl rfl (Nat.le_succ 1) rfl, nofun, ?_⟩
      rintro _ _ _ ⟨⟩
      exact .inl rfl
    · refine ⟨rfl, _, _, _, _, rfl, .closesFile rfl rfl rfl (Nat.le_refl 1) rfl, ?_, nofun⟩
      rintro _ _ ⟨⟩
      rfl
  | reopening c f =>
    simp only [threadStep, hk] at h
    split_ifs at h with ho <;> obtain ⟨rfl, rfl⟩ := Prod.mk.inj (Except.ok.inj h)
    · exact ⟨rfl, _, _, _, _, rfl, .reopenFails ho, nofun, nofun⟩
    · refine ⟨rfl, _, _, _, _, rfl, .opens rfl rfl rfl rfl rfl rfl, nofun, ?_⟩
      rintro _ _ _ ⟨⟩
      exact .inr ⟨rfl, rfl⟩
  | serving c f g =>
    simp only [threadStep, hk] at h
    obtain ⟨rfl, rfl⟩ := Prod.mk.inj (Except.ok.inj h)
    exact ⟨rfl, _, _, _, _, rfl, .returns, nofun, nofun⟩
  | closing c f =>
    simp only [threadStep, hk] at h
    obtain ⟨rfl, rfl⟩ := Prod.mk.inj (Except.ok.inj h)
    exact ⟨rfl, _, _, _, _, rfl, .closesFile rfl rfl rfl (Nat.le_refl 2) rfl, nofun, nofun⟩
  | closingClient c =>
    simp only [threadStep, hk] at h
    obtain ⟨rfl, rfl⟩ := Prod.mk.inj (Except.ok.inj h)
    exact ⟨rfl, _, _, _, _, rfl, .closesClient, nofun, nofun⟩
  | freeing =>
    simp only [threadStep, hk] at h
    obtain ⟨rfl, rfl⟩ := Prod.mk.inj (Except.ok.inj h)
    exact ⟨rfl, _, _, _, _, rfl, .frees, nofun, nofun⟩
  | finished => simp only [threadStep, hk, reduceCtorEq] at h
  | joined => simp only [threadStep, hk, reduceCtorEq] at h

inductive ProcessMove (s : Process) : Action → Process → Option Event → Prop where
  | main {ok : Bool} {s' : Process} {e : Option Event} (h : MainMove s ok s' e) :
      ProcessMove s (.main ok) s' e
  | thread {k : ℕ} {o : Outcome} {p : ThreadPhase} {t : Table File} {e : Option Event}
      (m : Option ℕ) (b : Bool) (hq : (s.thread k).running = true)
      (h : ThreadMove s.table k o (s.thread k) p t e) (hr : Reopens s.table (s.thread k) p) :
      ProcessMove s (.thread k o)
        { s.go k p with table := t, mutexReadWrite := m, ioctlJustPerformed := b } e
  | signal : ProcessMove s .signal { s with exitFlag := true } none

theorem processStep_moves {s s' : Process} {a : Action} {e : Option Event}
    (h : processStep s a = .ok (s', e)) : s.main ≠ .exited ∧ ProcessMove s a s' e := by
  unfold processStep at h
  split_ifs at h with hm
  refine ⟨hm, ?_⟩
  cases a with
  | main ok => exact .main (mainStep_moves h)
  | thread k o =>
    obtain ⟨hq, p, t, m, b, rfl, hmove, hr⟩ := threadStep_moves h
    exact .thread m b hq hmove hr
  | signal =>
    obtain ⟨rfl, rfl⟩ := Prod.mk.inj (Except.ok.inj h)
    exact .signal

end Aesd.ServerProcess
