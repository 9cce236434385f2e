import Aesd.ServerProcess
import Aesd.ServerRuns

/-!
# What the process sees of a client

The steps which a thread takes in the process are those of `thread_operation`
on the device: how its request and its reply end decides which steps come next,
and the flag is left as the request and the reply leave it.
-/

set_option autoImplicit false

namespace Aesd.ProcessRequests
open BlockHeap Allocation MachineInt
open Aesd.KernelMemory Aesd.CharDriver Aesd.DriverInvariant Aesd.DriverWrite
open Aesd.CommandLog Aesd.DriverRead Aesd.DriverSeek Aesd.SeekParser
open Aesd.SocketServer Aesd.ReceiveLoop Aesd.SocketRequest Aesd.SocketReply Aesd.ServerRuns
open DescriptorTable Aesd.ServerProcess

structure Ready (s : Process) (k : ℕ) (p : ThreadPhase) (srv : Server) : Prop where
  phase : s.thread k = p
  unlocked : s.mutexReadWrite = none
  flag : s.ioctlJustPerformed = srv.ioctlJustPerformed
  running : s.main ≠ .exited

def Takes (s : Process) (k : ℕ) (outcomes : List Outcome) (s' : Process) : Prop :=
  ∃ os, processRun s (outcomes.map (.thread k)) = .ok (s', os)

def requestOutcome (srv : Server) (written : ℤ) : Outcome :=
  if 0 < written then if srv.ioctlJustPerformed then .seeks else .succeeds else .fails

def replyOutcomes (M : Libc) (srv : Server) (env : ReplyEnv) : List Outcome :=
  if grants M.allocator srv.heap clientBufferLen env.mallocAt then
    .succeeds::.succeeds::(if srv.ioctlJustPerformed then [.succeeds]
      else if env.openFails then [.fails] else [.succeeds, .succeeds])
  else [.fails]

section
variable {s : Process} {k clientFd fileFd : ℕ} {srv : Server}

theorem Takes.step {s' : Process} {o : Outcome} {e : Option Event} (hmain : s.main ≠ .exited)
    (h : threadStep s k o = .ok (s', e)) : Takes s k [o] s' := by
  refine ⟨[e], Runs.run_cons ?_ rfl⟩
  rw [← h, processStep.eq_def, if_neg hmain]

theorem Takes.trans {t u : Process} {outcomes outcomes' : List Outcome}
    (h : Takes s k outcomes t) (h' : Takes t k outcomes' u) :
    Takes s k (outcomes ++ outcomes') u := by
  obtain ⟨os, hr⟩ := h
  obtain ⟨os', hr'⟩ := h'
  exact ⟨os ++ os', by rw [List.map_append]; exact Runs.run_append hr hr'⟩

theorem request_takes (h : Ready s k (.requesting clientFd fileFd) srv) {srv' : Server}
    {written : ℤ} (hflag : written ≤ 0 → srv'.ioctlJustPerformed = srv.ioctlJustPerformed) :
    ∃ s', Takes s k [requestOutcome srv' written] s' ∧
      Ready s' k (if 0 < written then .replying clientFd fileFd else .closing clientFd fileFd)
        srv' := by
  by_cases hw : 0 < written
  · have hstep : threadStep s k (requestOutcome srv' written) =
        .ok ({ s.go k (.replying clientFd fileFd) with
          ioctlJustPerformed := srv'.ioctlJustPerformed }, none) := by
      cases hf : srv'.ioctlJustPerformed <;>
        simp [requestOutcome, hw, hf, threadStep, h.phase, h.unlocked]
    rw [if_pos hw]
    exact ⟨_, .step h.running hstep, go_same s k _, h.unlocked, rfl, h.running⟩
  · have hstep : threadStep s k (requestOutcome srv' written) =
        .ok (s.go k (.closing clientFd fileFd), none) := by
      simp [requestOutcome, hw, threadStep, h.phase]
    rw [if_neg hw]
    exact ⟨_, .step h.running hstep, go_same s k _, h.unlocked,
      h.flag.trans (hflag (by omega)).symm, h.running⟩

theorem serving_takes {replyFd : ℕ} (hk : s.thread k = .serving clientFd fileFd replyFd)
    (hmain : s.main ≠ .exited) (hf : s.ioctlJustPerformed = false) :
    ∃ s', Takes s k [.succeeds] s' ∧ s'.thread k = .closing clientFd fileFd ∧
      s'.mutexReadWrite = none ∧ s'.ioctlJustPerformed = false ∧ s'.main ≠ .exited := by
  have hstep : threadStep s k .succeeds =
      .ok ({ s.go k (.closing clientFd fileFd) with mutexReadWrite := none }, none) := by
    simp [threadStep, hk]
  exact ⟨_, .step hmain hstep, go_same s k _, rfl, hf, hmain⟩

theorem reopening_takes (hk : s.thread k = .reopening clientFd fileFd) (hmain : s.main ≠ .exited)
    (hf : s.ioctlJustPerformed = false) (openFails : Bool) :
    ∃ s', Takes s k (if openFails then [.fails] else [.succeeds, .succeeds]) s' ∧
      s'.thread k = .closing clientFd fileFd ∧ s'.mutexReadWrite = none ∧
      s'.ioctlJustPerformed = false ∧ s'.main ≠ .exited := by
  cases openFails with
  | true =>
    have hstep : threadStep s k .fails =
        .ok ({ s.go k (.closing clientFd fileFd) with mutexReadWrite := none }, none) := by
      simp [threadStep, hk]
    exact ⟨_, .step hmain hstep, go_same s k _, rfl, hf, hmain⟩
  | false =>
    obtain ⟨u, e, hstep, hu, hf', hmain'⟩ : ∃ u e, threadStep s k .succeeds = .ok (u, e) ∧
        u.thread k = .serving clientFd fileFd (lowestFree s.table) ∧
        u.ioctlJustPerformed = false ∧ u.main ≠ .exited :=
      ⟨{ s.go k (.serving clientFd fileFd (lowestFree s.table)) with
          table := install s.table (.device k 1), ioctlJustPerformed := false }, _,
        by rw [threadStep, hk]; rfl, go_same s k _, rfl, hmain⟩
    obtain ⟨s', htakes, hs'⟩ := serving_takes hu hmain' hf'
    exact ⟨s', .trans (.step hmain hstep) htakes, hs'⟩

theorem locked_takes (hk : s.thread k = .locked clientFd fileFd) (hmain : s.main ≠ .exited)
    (openFails : Bool) :
    ∃ s', Takes s k (.succeeds::(if s.ioctlJustPerformed then [.succeeds]
        else if openFails then [.fails] else [.succeeds, .succeeds])) s' ∧
      s'.thread k = .closing clientFd fileFd ∧ s'.mutexReadWrite = none ∧
      s'.ioctlJustPerformed = false ∧ s'.main ≠ .exited := by
  cases hf : s.ioctlJustPerformed with
  | true =>
    obtain ⟨u, hstep, hu, hf', hmain'⟩ : ∃ u, threadStep s k .succeeds = .ok (u, none) ∧
        u.thread k = .serving clientFd fileFd fileFd ∧ u.ioctlJustPerformed = false ∧
        u.main ≠ .exited :=
      ⟨{ s.go k (.serving clientFd fileFd fileFd) with ioctlJustPerformed := false },
        by simp [threadStep, hk, hf], go_same s k _, rfl, hmain⟩
    obtain ⟨s', htakes, hs'⟩ := serving_takes hu hmain' hf'
    exact ⟨s', .trans (.step hmain hstep) htakes, hs'⟩
  | false =>
    obtain ⟨u, e, hstep, hu, hf', hmain'⟩ : ∃ u e, threadStep s k .succeeds = .ok (u, e) ∧
        u.thread k = .reopening clientFd fileFd ∧ u.ioctlJustPerformed = false ∧
        u.main ≠ .exited :=
      ⟨{ s.go k (.reopening clientFd fileFd) with table := close s.table fileFd },
        some (.closed (.thread k) (lookup s.table fileFd)), by simp [threadStep, hk, hf],
        go_same s k _, hf, hmain⟩
    obtain ⟨s', htakes, hs'⟩ := reopening_takes hu hmain' hf' openFails
    exact ⟨s', .trans (.step hmain hstep) htakes, hs'⟩

theorem reply_takes (M : Libc) (h : Ready s k (.replying clientFd fileFd) srv) (env : ReplyEnv) :
    ∃ s', Takes s k (replyOutcomes M srv env) s' ∧
      Ready s' k (.closing clientFd fileFd) (afterReply M srv env) := by
  unfold replyOutcomes
  cases hg : grants M.allocator srv.heap clientBufferLen env.mallocAt with
  | false =>
    have hstep : threadStep s k .fails = .ok (s.go k (.closing clientFd fileFd), none) := by
      simp [threadStep, h.phase]
    rw [if_neg Bool.false_ne_true]
    refine ⟨_, .step h.running hstep, go_same s k _, h.unlocked, ?_, h.running⟩
    rw [afterReply, setupFails, hg]
    exact h.flag
  | true =>
    obtain ⟨u, hstep, hu, hf', hmain'⟩ : ∃ u, threadStep s k .succeeds = .ok (u, none) ∧
        u.thread k = .locked clientFd fileFd ∧
        u.ioctlJustPerformed = srv.ioctlJustPerformed ∧ u.main ≠ .exited :=
      ⟨{ s.go k (.locked clientFd fileFd) with mutexReadWrite := some k },
        by simp [threadStep, h.phase, h.unlocked], go_same s k _, h.flag, h.running⟩
    obtain ⟨s', htakes, hphase, hunlocked, hf, hmain⟩ := locked_takes hu hmain' env.openFails
    rw [hf'] at htakes
    refine ⟨s', ?_, hphase, hunlocked, ?_, hmain⟩
    · rw [if_pos rfl]
      exact .trans (.step h.running hstep) htakes
    · rw [hf, afterReply, setupFails, hg]
      cases srv.ioctlJustPerformed <;> simp

theorem closingClient_takes (h : Ready s k (.closingClient clientFd) srv) :
    ∃ s', Takes s k [.succeeds, .succeeds] s' ∧ Ready s' k .finished srv := by
  obtain ⟨u, e, hstep, hu⟩ : ∃ u e, threadStep s k .succeeds = .ok (u, e) ∧
      Ready u k .freeing srv :=
    ⟨{ s.go k .freeing with table := close s.table clientFd },
      some (.closed (.thread k) (lookup s.table clientFd)), by simp [threadStep, h.phase],
      go_same s k _, h.unlocked, h.flag, h.running⟩
  obtain ⟨v, e', hstep', hv⟩ : ∃ v e, threadStep u k .succeeds = .ok (v, e) ∧
      Ready v k .finished srv :=
    ⟨u.go k .finished, some (.freed (.arg k)), by simp [threadStep, hu.phase],
      go_same u k _, hu.unlocked, hu.flag, hu.running⟩
  exact ⟨v, .trans (.step h.running hstep) (.step hu.running hstep'), hv⟩

theorem closing_takes (h : Ready s k (.closing clientFd fileFd) srv) :
    ∃ s', Takes s k [.succeeds, .succeeds, .succeeds] s' ∧ Ready s' k .finished srv := by
  obtain ⟨u, e, hstep, hu⟩ : ∃ u e, threadStep s k .succeeds = .ok (u, e) ∧
      Ready u k (.closingClient clientFd) srv :=
    ⟨{ s.go k (.closingClient clientFd) with table := close s.table fileFd },
      some (.closed (.thread k) (lookup s.table fileFd)), by simp [threadStep, h.phase],
      go_same s k _, h.unlocked, h.flag, h.running⟩
  obtain ⟨s', htakes, hs'⟩ := closingClient_takes hu
  exact ⟨s', .trans (.step h.running hstep) htakes, hs'⟩

def clientOutcomes (K : Kernel) (M : Libc) (srv : Server) (c : Client) : List Outcome :=
  if c.openFails then [.fails, .succeeds, .succeeds]
  else
    match sendRcvSocketData K M srv 0 c.request with
    | .ok (srv, _, written) =>
      .succeeds::requestOutcome srv written::
        ((if 0 < written then replyOutcomes M srv c.reply else []) ++
          [.succeeds, .succeeds, .succeeds])
    | .error _ => []

/-- A client which is served alone: its thread takes these steps to its end and
leaves the flag as the server has it behind the client. -/
theorem thread_takes {K : Kernel} (hK : K.kmallocMax < 2^31) (M : Libc) (h : Idle K srv)
    (c : Client) (hs : Ready s k (.opening clientFd) srv) :
    ∃ srv' sent s', threadOperation K M srv c = .ok (srv', sent) ∧
      Takes s k (clientOutcomes K M srv c) s' ∧ Ready s' k .finished srv' := by
  unfold clientOutcomes
  by_cases ho : c.openFails = true
  · obtain ⟨u, hstep, hu⟩ : ∃ u, threadStep s k .fails = .ok (u, none) ∧
        Ready u k (.closingClient clientFd) srv :=
      ⟨s.go k (.closingClient clientFd), by simp [threadStep, hs.phase],
        go_same s k _, hs.unlocked, hs.flag, hs.running⟩
    obtain ⟨s', htakes, hs'⟩ := closingClient_takes hu
    rw [if_pos ho]
    exact ⟨srv, [], s', by rw [threadOperation, if_pos ho],
      .trans (.step hs.running hstep) htakes, hs'⟩
  obtain ⟨srv₁, fPos, written, hreq, hidle, _, hpos, hpos', hflag⟩ :=
    sendRcv_idle (M := M) h c.request
  obtain ⟨u, e, hstep, hu⟩ : ∃ u e, threadStep s k .succeeds = .ok (u, e) ∧
      Ready u k (.requesting clientFd (lowestFree s.table)) srv :=
    ⟨{ s.go k (.requesting clientFd (lowestFree s.table)) with
        table := install s.table (.device k 0) }, some (.opened (.device k 0)),
      by simp [threadStep, hs.phase], go_same s k _, hs.unlocked, hs.flag, hs.running⟩
  obtain ⟨v, htakes, hv⟩ := request_takes hu (hflag hK)
  have hopened := Takes.trans (.step hs.running hstep) htakes
  rw [if_neg ho, hreq, threadOperation, if_neg ho, hreq, ok_bind]
  dsimp only
  by_cases hw : 0 < written
  · rw [if_pos hw] at hv
    obtain ⟨_, _, hh⟩ := hidle.holds
    obtain ⟨sent, retval, hret, _⟩ :=
      return_spec M srv₁ hh hidle.unlocked fPos hpos hpos' c.reply
    obtain ⟨w, hreply, hw'⟩ := reply_takes M hv c.reply
    obtain ⟨s', hclose, hs'⟩ := closing_takes hw'
    rw [if_pos hw, if_pos hw, hret]
    exact ⟨afterReply M srv₁ c.reply, sent, s', rfl, hopened.trans (hreply.trans hclose), hs'⟩
  · rw [if_neg hw] at hv
    obtain ⟨s', hclose, hs'⟩ := closing_takes hv
    rw [if_neg hw, if_neg hw]
    exact ⟨srv₁, [], s', rfl, hopened.trans hclose, hs'⟩

end

end Aesd.ProcessRequests
