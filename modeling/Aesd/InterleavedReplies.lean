import Aesd.InterleavedClients
import Aesd.ServerRuns

/-!
# Replies while threads are alive at once

A thread alone does what `thread_operation` does. Between threads the start of
a reply can be wrong, and it is for a seek whose reply comes after a section of
another thread which is not itself a seek.
-/

set_option autoImplicit false

namespace Aesd.InterleavedReplies
open BlockHeap Allocation MachineInt
open Aesd.KernelMemory Aesd.CharDriver Aesd.DriverInvariant Aesd.CommandLog
open Aesd.DriverRead Aesd.SeekParser Aesd.SocketServer Aesd.ReplyLoop Aesd.SocketRequest
open Aesd.SocketReply Aesd.ServerRuns Aesd.InterleavedClients

def ownSteps (i : ℕ) (c : Client) : List ThreadAction :=
  [⟨i, .opens c.openFails⟩, ⟨i, .gathers c.request⟩, ⟨i, .dispatches c.request⟩,
    ⟨i, .replies c.reply⟩]

def bytesSent : Section → List UInt8
  | .replied _ sent => sent
  | _ => []

theorem requestSection_loads {K : Kernel} {srv srv' : Server} {fPos fPos' written : ℤ} {a : Addr}
    {n : ℕ} {env : RequestEnv}
    (h : requestSection K srv fPos a n env = .ok (srv', fPos', written)) :
    (∃ request, load srv.heap a 0 n = .ok request) ∧ srv'.mutexReadWrite = false := by
  unfold requestSection pthreadMutexLock pthreadMutexUnlock at h
  cases hm : srv.mutexReadWrite with
  | true => simp [hm] at h
  | false =>
    cases hl : load srv.heap a 0 n with
    | error e => simp [hm, hl] at h
    | ok request =>
      cases hd : dispatchRequest K srv.driver srv.ioctlJustPerformed fPos request env with
      | error e => simp [hm, hl, hd] at h
      | ok d =>
        cases hf : free srv.heap a with
        | error e => simp [hm, hl, hd, hf] at h
        | ok heap =>
          simp only [hm, hl, hd, hf, ok_bind, Bool.false_eq_true, if_false, if_true, pure_eq_ok,
            Except.ok.injEq, Prod.mk.injEq] at h
          exact ⟨⟨request, rfl⟩, by rw [← h.1]⟩

def clientRun (K : Kernel) (M : Libc) (sys : System) (actions : List ThreadAction) :
    Except Fault (System × List UInt8) :=
  (systemRun K M sys actions).map fun x => (x.1, x.2.reduceOption.flatMap bytesSent)

section
variable {K : Kernel} {M : Libc} {sys : System}

theorem move_server (i : ℕ) (srv : Server) (p : Phase) : (sys.move i srv p).server = srv := rfl

theorem clientRun_cons {sys' : System} {a : ThreadAction} {o : Option Section}
    (h : threadStep K M sys a = .ok (sys', o)) (actions : List ThreadAction) :
    clientRun K M sys (a::actions) =
      (clientRun K M sys' actions).map fun x => (x.1, o.elim [] bytesSent ++ x.2) := by
  simp only [clientRun, systemRun, Runs.run, h]
  cases Runs.run (threadStep K M) sys' actions with
  | error e => rfl
  | ok y => cases o <;> simp [Except.map]

theorem clientRun_fault {a : ThreadAction} {e : Fault} (h : threadStep K M sys a = .error e)
    (actions : List ThreadAction) : clientRun K M sys (a::actions) = .error e := by
  simp only [clientRun, systemRun, Runs.run, h, Except.map]

theorem clientRun_finished {i : ℕ} (hi : sys.thread i = .finished) (actions : List ThreadAction)
    (hown : ∀ a ∈ actions, a.thread = i) : clientRun K M sys actions = .ok (sys, []) := by
  induction actions with
  | nil => rfl
  | cons a actions ih =>
    have hstep : threadStep K M sys a = .ok (sys, none) := by
      simp only [threadStep, hown a List.mem_cons_self, hi]
    rw [clientRun_cons hstep, ih fun b hb => hown b (List.mem_cons_of_mem a hb)]
    rfl

theorem clientRun_replies {i : ℕ} {fPos : ℤ} {request : List UInt8}
    (hi : sys.thread i = .dispatched fPos request) (hm : sys.server.mutexReadWrite = false)
    (env : ReplyEnv) :
    clientRun K M sys [⟨i, .replies env⟩] =
      (returnSocketdataToClient M sys.server fPos env).map fun x =>
        (sys.move i x.1 .finished, x.2.1) := by
  cases hr : returnSocketdataToClient M sys.server fPos env with
  | error e =>
    rw [clientRun_fault (e := e) (by simp only [threadStep, hi, hr, error_bind])]
    rfl
  | ok x =>
    rw [clientRun_cons (by simp only [threadStep, hi, hr, ok_bind, pure_eq_ok]; rfl)]
    cases hs : setupFails M sys.server env with
    | true =>
      rw [return_refused M sys.server hm fPos env hs] at hr
      obtain rfl := Except.ok.inj hr
      rfl
    | false => simp [clientRun, systemRun, Runs.run, Except.map, bytesSent]

theorem clientRun_dispatches {i : ℕ} {fPos : ℤ} {a : Addr} {n : ℕ}
    (hi : sys.thread i = .gathered fPos a n) (env : RequestEnv) (env' : ReplyEnv) :
    clientRun K M sys [⟨i, .dispatches env⟩, ⟨i, .replies env'⟩] = do
      let (srv, fPos, written) ← requestSection K sys.server fPos a n env
      if wrapS32 written > 0 then
        (returnSocketdataToClient M srv fPos env').map fun x =>
          (sys.move i x.1 .finished, x.2.1)
      else
        return (sys.move i srv .finished, []) := by
  cases hd : requestSection K sys.server fPos a n env with
  | error e =>
    rw [clientRun_fault (e := e) (by simp only [threadStep, hi, hd, error_bind])]
    rfl
  | ok x =>
    obtain ⟨srv, fPos', written⟩ := x
    obtain ⟨⟨request, hl⟩, hm⟩ := requestSection_loads hd
    rw [clientRun_cons (by simp only [threadStep, hi, hd, hl, ok_bind, pure_eq_ok]; rfl)]
    have hsent : (if written > 0 then some (if SEEK_COMMAND.isPrefixOf request = true then
        Section.acceptedSeek else .wroteData) else none).elim [] bytesSent = [] := by
      split_ifs <;> rfl
    simp only [ok_bind, hsent, List.nil_append, pure_eq_ok]
    by_cases hw : wrapS32 written > 0
    · rw [phaseAfter, if_pos hw, if_pos hw, clientRun_replies (move_same i srv _) hm, move_server]
      simp only [move_move]
      cases returnSocketdataToClient M srv fPos' env' <;> rfl
    · rw [phaseAfter, if_neg hw, if_neg hw, clientRun_finished (move_same i srv _) _ (by simp)]
      rfl

theorem clientRun_ownSteps {i : ℕ} (hi : sys.thread i = .started) (c : Client) :
    clientRun K M sys (ownSteps i c) =
      (threadOperation K M sys.server c).map fun x => (sys.move i x.1 .finished, x.2) := by
  rw [ownSteps, clientRun_cons (by simp only [threadStep, hi]; rfl)]
  simp only [threadOperation, sendRcvSocketData]
  cases ho : c.openFails with
  | true =>
    rw [if_pos rfl, if_pos rfl, clientRun_finished (move_same i _ _) _ (by simp)]
    rfl
  | false =>
    rw [if_neg (by simp), if_neg (by simp)]
    cases hg : gatherRequest M sys.server.heap c.request with
    | error e =>
      rw [clientRun_fault (e := e)
        (by simp only [threadStep, move_same, move_server, hg, error_bind])]
      rfl
    | ok x =>
      obtain ⟨heap, received⟩ := x
      cases received with
      | none =>
        rw [clientRun_cons
            (by simp only [threadStep, move_same, move_server, hg, ok_bind, pure_eq_ok]; rfl),
          clientRun_finished (move_same i _ _) _ (by simp), move_move]
        rfl
      | some r =>
        obtain ⟨a, n⟩ := r
        rw [clientRun_cons
            (by simp only [threadStep, move_same, move_server, hg, ok_bind, pure_eq_ok]; rfl),
          clientRun_dispatches (move_same i _ _)]
        simp only [ok_bind, pure_eq_ok, move_server, move_move]
        cases requestSection K { sys.server with heap } 0 a n c.request with
        | error e => rfl
        | ok y =>
          simp only [ok_bind]
          split_ifs
          · cases returnSocketdataToClient M y.1 y.2.1 c.reply <;> rfl
          · rfl

end

/-- Where the reply to a request should start when its section left the
descriptor at `fPos`. -/
def requestedStart (fPos : ℤ) (request : List UInt8) : ℕ :=
  if SEEK_COMMAND <+: request then fPos.toNat else 0

structure EntersReply (M : Libc) (sys : System) (i : ℕ) (env : ReplyEnv) (fPos : ℤ)
    (request : List UInt8) : Prop where
  phase : sys.thread i = .dispatched fPos request
  setup : setupFails M sys.server env = false

/-- Every reply of the run starts where the client's own request says, and hands
out the content of the device from there unless it is disturbed. -/
def RepliesAsRequested (K : Kernel) (M : Libc) (sys : System) (actions : List ThreadAction) :
    Prop :=
  ∀ pre i env fPos request, pre ++ [⟨i, .replies env⟩] <+: actions →
    EntersReply M (afterActions K M sys pre) i env fPos request →
    let srv := (afterActions K M sys pre).server
    replyStart srv.ioctlJustPerformed fPos = requestedStart fPos request ∧
    ∃ sys' sent, threadStep K M (afterActions K M sys pre) ⟨i, .replies env⟩ =
        .ok (sys', some (.replied i sent)) ∧
      (WholeReply ((content srv.driver).length-requestedStart fPos request) env.reads env.sends →
        sent = (content srv.driver).drop (requestedStart fPos request))

/-- Before a reply to a seek which has moved the descriptor, the section any
thread has completed last is that of an accepted seek. -/
def SeeksNotCrossed (K : Kernel) (M : Libc) (sys : System) (actions : List ThreadAction) : Prop :=
  ∀ pre i env fPos request, pre ++ [⟨i, .replies env⟩] <+: actions →
    EntersReply M (afterActions K M sys pre) i env fPos request →
    SEEK_COMMAND <+: request → fPos ≠ 0 → lastSection K M sys pre = some .acceptedSeek

/-- No run faults. Its replies are all as requested exactly when the section
before each reply to a seek with an effect was that of a seek, its own or not. -/
theorem replies_as_requested_iff {K : Kernel} (M : Libc) {s : DriverState}
    (hd : WriteReachable K s) (actions : List ThreadAction) :
    (∃ outs, systemRun K M (launched s) actions =
      .ok (afterActions K M (launched s) actions, outs)) ∧
    (RepliesAsRequested K M (launched s) actions ↔ SeeksNotCrossed K M (launched s) actions) := by
  have hspec := afterActions_spec (M := M) (consistent_launched hd.holds) rfl
  refine ⟨(hspec actions).1, fun hr pre i env fPos request hpre he hseek hpos => ?_,
    fun hc pre i env fPos request hpre he => ?_⟩
  · obtain ⟨_, h, hlast⟩ := hspec pre
    obtain ⟨h0, _, _⟩ : PhaseHolds _ (.dispatched fPos request) := he.phase ▸ h.phases i
    obtain ⟨hstart, _⟩ := hr pre i env fPos request hpre he
    rw [requestedStart, if_pos hseek] at hstart
    apply hlast.mp
    by_contra hno
    rw [replyStart, if_neg hno] at hstart
    omega
  · obtain ⟨_, h, hlast⟩ := hspec pre
    obtain ⟨_, _, hdata⟩ : PhaseHolds _ (.dispatched fPos request) := he.phase ▸ h.phases i
    have hstart : replyStart (afterActions K M (launched s) pre).server.ioctlJustPerformed fPos =
        requestedStart fPos request := by
      by_cases hpos : fPos = 0
      · simp [replyStart, requestedStart, hpos]
      · have hseek : SEEK_COMMAND <+: request := by
          by_contra hno
          exact hpos (hdata hno)
        rw [replyStart, if_pos (hlast.mpr (hc pre i env fPos request hpre he hseek hpos)),
          requestedStart, if_pos hseek]
    obtain ⟨sys', sent, hstep, _, _, hsent⟩ := replies_spec (M := M) h he.phase env
    rw [he.setup] at hstep
    refine ⟨hstart, sys', sent, hstep, fun hw => ?_⟩
    rw [← hstart] at hw ⊢
    exact hsent he.setup (by rwa [remaining, List.length_drop])

def secondLine : Client :=
  { lineClient with request := { lineClient.request with kmallocAt := some 2 } }

/-- Thread 1 seeks to byte 1, and before it replies thread 2 writes a line. -/
def crossedSeek : List ThreadAction :=
  ownSteps 0 lineClient ++ (ownSteps 1 seekClient).take 3 ++ (ownSteps 2 secondLine).take 3 ++
    (ownSteps 1 seekClient).drop 3

theorem crossed_seek_from_start :
    (afterActions pageKernel pageLibc (launched aesdInitModule) (crossedSeek.take 10)).thread 1 =
      .dispatched 1 (SEEK_COMMAND ++ [48,44,49,10]) ∧
    (Runs.outputs (threadStep pageKernel pageLibc) (launched aesdInitModule) crossedSeek).getLast? =
      some (some (.replied 1 [97,98,10,97,98,10])) ∧
    ¬ RepliesAsRequested pageKernel pageLibc (launched aesdInitModule) crossedSeek := by
  have hphase : (afterActions pageKernel pageLibc (launched aesdInitModule)
      (crossedSeek.take 10)).thread 1 = .dispatched 1 (SEEK_COMMAND ++ [48,44,49,10]) := by
    decide +kernel
  refine ⟨hphase, by decide +kernel, fun h => ?_⟩
  obtain ⟨hstart, _⟩ := h (crossedSeek.take 10) 1 seekClient.reply 1
    (SEEK_COMMAND ++ [48,44,49,10]) (List.prefix_refl _) ⟨hphase, by decide +kernel⟩
  revert hstart
  decide +kernel

theorem replies_as_requested_alone :
    RepliesAsRequested pageKernel pageLibc (launched (afterWrites pageKernel twoLines))
      (ownSteps 0 seekClient) := by
  refine (replies_as_requested_iff pageLibc (writeReachable_afterWrites pageKernel twoLines)
    _).2.mpr ?_
  intro pre i env fPos request hpre _ _ _
  have htake : pre = (ownSteps 0 seekClient).take 3 := by
    rcases pre with _ | ⟨a, _ | ⟨b, _ | ⟨c, _ | ⟨d, pre⟩⟩⟩⟩ <;> simp [ownSteps] at hpre ⊢
    exact ⟨hpre.1, hpre.2.1, hpre.2.2.1⟩
  rw [htake]
  decide +kernel

end Aesd.InterleavedReplies
