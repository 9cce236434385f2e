import Aesd.ProcessReplies

/-!
# Interleaved stores and replies

What is stored and what is replied over every run of the process, whoever takes
its steps and whatever fails. A run in which a stale number leads a thread to a
descriptor of another is followed too: it neither tears nor doubles a request,
but may keep one from the device, or the content from a client.
-/

set_option autoImplicit false

namespace Aesd.InterleavedStores
open BlockHeap DescriptorTable
open Aesd.CircularBuffer Aesd.KernelMemory Aesd.CharDriver Aesd.DriverInvariant Aesd.DriverWrite
open Aesd.CommandLog Aesd.DriverRead Aesd.SeekParser Aesd.SocketServer Aesd.SocketReply
open Aesd.ServerProcess Aesd.ProcessTallies Aesd.ProcessShutdown Aesd.DescriptorCustody
open Aesd.OwnDescriptors Aesd.ProcessDevice Aesd.ProcessDeviceInvariant Aesd.ForeignSteps
open Aesd.ProcessStores Aesd.ProcessReplies

section
variable {K : Kernel} {M : Libc} {log : LineLog.Log UInt8} {s : System} {k : ℕ}
variable {stored : List (ℕ × List UInt8)}

theorem ended_whole {e : Effect} (he : Effected K s k e) (hk : ThreadKept s stored k)
    {r : Reply} (hr : s.held k = .reply r) (hseek : ¬ SEEK_COMMAND <+: r.request)
    {sent : List UInt8} (hshown : e.shown = some (.replied k sent true)) :
    sent = content s.driver := by
  cases he with
  | abandons _ _ hnone =>
    rcases hnone with rfl | rfl <;> cases hshown
  | @ends c f g r' fPos whole hphase hr' hread hpos hwhole =>
    obtain rfl := Held.reply.inj (hr.symm.trans hr')
    obtain ⟨rfl, rfl⟩ : sent = r.sent ∧ whole = true := by
      cases hshown
      exact ⟨rfl, rfl⟩
    obtain ⟨hbefore, hbytes⟩ := hwhole rfl
    obtain ⟨m, p, hs, _, hmin, _⟩ := brings_next hk hphase hr hbefore hseek hread hbytes
    rw [hs.sent, List.take_of_length_le]
    simp only [clientBufferLen] at hmin
    omega
  | _ => cases hshown

theorem step_ends_whole (h : Consistent K s) (hk : ThreadKept s stored k) {r : Reply}
    (hr : s.held k = .reply r) (hseek : ¬ SEEK_COMMAND <+: r.request) {calls : Calls}
    {s' : System} {sent : List UInt8}
    (hstep : systemStep K M s (.thread k calls) = .ok (s', some (.replied k sent true))) :
    sent = content s.driver := by
  obtain ⟨t, o, hstep', hstepped⟩ := systemStep_steps M h (.thread k calls)
  obtain ⟨rfl, rfl⟩ := Prod.mk.inj (Except.ok.inj (hstep.symm.trans hstep'))
  generalize ho : some (Shown.replied k sent true) = o at hstepped
  cases hstepped with
  | waits => cases ho
  | stays he _ => exact ended_whole he hk hr hseek ho.symm
  | goes he _ _ _ => exact ended_whole he hk hr hseek ho.symm

theorem serving_steady (h : Accounts K log s stored) (hs : Kept s stored) {c f g : ℕ}
    (hk : s.process.thread k = .serving c f g) {r : Reply} (hr : s.held k = .reply r)
    (hwhole : r.whole = true) :
    ∃ e, threadEffect K M s k {} = .ok e ∧ Effected K s k e ∧ Steady k r e := by
  obtain ⟨n, hdevice⟩ := fileFd_device hs.custody (k := k) (d := g) (by rw [hk]; rfl)
  have hclient : lookup s.process.table c = some (.client k) :=
    clientFd_client h.consistent.numbered hs.custody (by rw [hk]; rfl) (by rw [hk]; rfl)
  by_cases hread : r.bytesRead = 0
  · obtain ⟨e, he, heffect, hsteady⟩ := readEffect_spec h.consistent hk hr hread {}
    refine ⟨e, ?_, heffect, hsteady hwhole (by rw [hdevice]; rfl) rfl⟩
    simp only [threadEffect, hk, hr, if_pos hread, he]
  · obtain ⟨e, he, heffect, hsteady⟩ :=
      sendEffect_spec h.consistent hk hr (Nat.pos_of_ne_zero hread) {}
    refine ⟨e, ?_, heffect, hsteady hwhole hclient rfl⟩
    simp only [threadEffect, hk, hr, if_neg hread, he]

def replyLeft (len : ℕ) (r : Reply) : ℕ :=
  2*(len-r.sent.length)+if r.bytesRead = 0 then 1 else 0

theorem replyLeft_steady {len n : ℕ} {r : Reply} {sent : List UInt8}
    (hin : r.sent.length+r.bytesRead ≤ len)
    (hless : r.bytesRead = 0 ∧ 0 < n ∧ sent = r.sent ∨
      0 < r.bytesRead ∧ n = 0 ∧ sent.length = r.sent.length+r.bytesRead) :
    replyLeft len { r with bytesRead := n, sent := sent } < replyLeft len r := by
  rw [replyLeft, replyLeft]
  rcases hless with ⟨hread, hn, rfl⟩ | ⟨hread, rfl, hlen⟩
  · rw [if_neg hn.ne', if_pos hread]
    exact Nat.lt_succ_self _
  · rw [if_pos rfl, if_neg hread.ne', hlen]
    omega

theorem processStep_serving {p : Process} (hm : p.main ≠ .exited) {c f g : ℕ}
    (hk : p.thread k = .serving c f g) :
    processStep p (.thread k .succeeds) =
      .ok ({ p.go k (.closing c f) with mutexReadWrite := none }, none) := by
  simp only [processStep, if_neg hm, threadStep, hk]

theorem reply_ends (h : Accounts K log s stored) (hs : Kept s stored)
    (hm : s.process.main ≠ .exited) {c f g : ℕ} (hk : s.process.thread k = .serving c f g)
    {r : Reply} (hr : s.held k = .reply r) (hwhole : r.whole = true)
    (hseek : ¬ SEEK_COMMAND <+: r.request) :
    ∃ n t outs, systemRun K M s (List.replicate n (.thread k {})) =
      .ok (t, outs ++ [some (.replied k (content s.driver) true)]) := by
  generalize hleft : replyLeft (content s.driver).length r = left
  induction left using Nat.strongRecOn generalizing s r stored with
  | ind left ih =>
    obtain ⟨e, he, heffect, hsteady⟩ := serving_steady (M := M) h hs hk hr hwhole
    rcases hsteady with ⟨hgo, hshown⟩ | ⟨hgo, n, sent, hheld, hless⟩
    · have hsent := ended_whole heffect (hs.threads k) hr hseek hshown
      have hstep := systemStep_goes hm he hgo
        (processStep_serving (by exact hm) (by exact hk))
      rw [hshown, hsent] at hstep
      exact ⟨1, _, [], Runs.run_cons hstep rfl⟩
    · have hstep := systemStep_stays hm he hgo
      have hstays : Stepped K s (.thread k {}) (s.take k e s.process) e.shown :=
        .stays heffect hgo
      have hnumber : NumberKept s (.thread k {}) := by
        change ∀ f ∈ closedFd (s.process.thread k), _
        rw [hk]
        exact nofun
      have hdriver : e.driver = s.driver := section_driver h.consistent (by rw [hk]; rfl) heffect
      have hcontent : content (s.take k e s.process).driver = content s.driver :=
        congrArg content hdriver
      obtain ⟨m, p, hsending⟩ := (hs.threads k).sending c f g r hk hr hwhole hseek
      have hlt := replyLeft_steady hsending.sent_le hless
      obtain ⟨n', t, outs, hrun⟩ := ih _ (hleft ▸ hlt) (h.step hstays) (hs.step h hstays hnumber) hm
        hk ((held_same s k e s.process).trans hheld) hwhole hseek (by rw [hcontent])
      rw [hcontent] at hrun
      exact ⟨n'+1, t, e.shown::outs, Runs.run_cons hstep hrun⟩

theorem accounts_launched (m : Startup) {driver : DriverState}
    (hd : ∃ blocks part, Holds K driver blocks part) :
    Accounts K (deviceLog driver) (launchedOn m driver) [] :=
  ⟨consistent_launched m hd, rfl, .nil, nofun, fun _ => trivial, nofun⟩

theorem run_accounts (m : Startup) {driver : DriverState}
    (hd : ∃ blocks part, Holds K driver blocks part) (actions : List SystemAction) :
    ∃ t outs, systemRun K M (launchedOn m driver) actions = .ok (t, outs) ∧
      Accounts K (deviceLog driver) t (storedIn outs) := by
  apply Runs.run_history fun t (outs : List (Option Shown)) =>
    Accounts K (deviceLog driver) t (storedIn outs)
  · intro t outs a h
    obtain ⟨t', o, hstep, hs⟩ := systemStep_steps M h.consistent a
    refine ⟨t', o, hstep, ?_⟩
    rw [storedIn_concat]
    exact h.step hs
  · exact accounts_launched m hd

theorem run_kept (m : Startup) {driver : DriverState}
    (hd : ∃ blocks part, Holds K driver blocks part) {actions : List SystemAction} {t : System}
    {outs : List (Option Shown)}
    (hr : systemRun K M (launchedOn m driver) actions = .ok (t, outs))
    (hkept : ∀ pre a, pre ++ [a] <+: actions →
      NumberKept (Runs.final (systemStep K M) (launchedOn m driver) pre) a) :
    Accounts K (deviceLog driver) t (storedIn outs) ∧ Kept t (storedIn outs) := by
  refine Runs.run_guarded (fun t (outs : List (Option Shown)) =>
    Accounts K (deviceLog driver) t (storedIn outs) ∧ Kept t (storedIn outs)) NumberKept ?_
    ⟨accounts_launched m hd, kept_launched m driver⟩ hr hkept
  rintro t outs a t' o ⟨h, hs⟩ hn hstep
  obtain ⟨t'', o', hstep', hstepped⟩ := systemStep_steps M h.consistent a
  obtain ⟨rfl, rfl⟩ := Prod.mk.inj (Except.ok.inj (hstep.symm.trans hstep'))
  rw [storedIn_concat]
  exact ⟨h.step hstepped, hs.step h hstepped hn⟩

end

/-- Whoever takes the steps and whatever fails, no thread stores more than its
one request, every stored request ends a line and is no seek, and the device is
the log of these requests in the order of their sections. A thread which goes on
to its reply has a request, and if the device is always opened again under the
number closed before, it has stored a request for data. -/
theorem interleaved_stores_log {K : Kernel} (M : Libc) (m : Startup) {s : DriverState}
    (hd : WriteReachable K s) (actions : List SystemAction) :
    ∃ sys outs, systemRun K M (launchedOn m s) actions = .ok (sys, outs) ∧
      deviceLog sys.driver = ((storedIn outs).map Prod.snd).foldl logWrite (deviceLog s) ∧
      ((storedIn outs).map Prod.fst).Nodup ∧
      (∀ x ∈ storedIn outs, newline ∈ x.2 ∧ ¬ SEEK_COMMAND <+: x.2) ∧
      (∀ k, Asked (sys.process.thread k) (sys.held k)) ∧
      ((∀ pre a, pre ++ [a] <+: actions →
          NumberKept (Runs.final (systemStep K M) (launchedOn m s) pre) a) →
        ∀ k, ∀ request ∈ (sys.held k).request, ¬ SEEK_COMMAND <+: request →
          (k, request) ∈ storedIn outs) := by
  obtain ⟨sys, outs, hrun, hacc⟩ := run_accounts (M := M) m hd.holds actions
  refine ⟨sys, outs, hrun, hacc.log, hacc.once,
    fun x hx => ⟨(hacc.data x hx).1, (hacc.data x hx).2.1⟩, hacc.asked, fun hkept k => ?_⟩
  exact ((run_kept m hd.holds hrun hkept).2.threads k).stored

def acceptUnlisted : List SystemAction :=
  [.main true, .main true, .main true, .main true, .main false, .main true]

def receives (callocAt : Addr) (request : List UInt8) : Calls :=
  { request := { callocAt := some callocAt, segments := [.data request] } }

def writes (kmallocAt : Addr) : Calls :=
  { request := { callocAt := none, segments := [], kmallocAt := some kmallocAt } }

def crossedLines : List SystemAction :=
  acceptUnlisted ++ acceptUnlisted ++
  [.thread 0 {}, .thread 1 {}, .thread 0 (receives 1 [97,10]), .thread 1 (receives 2 [98,10]),
    .thread 0 (writes 1), .thread 1 (writes 2), .thread 0 { mallocAt := some 1 }, .thread 0 {},
    .thread 0 {}, .thread 0 {}]

theorem crossedLines_kept : ∀ pre a, pre ++ [a] <+: crossedLines →
    NumberKept (Runs.final (systemStep pageKernel pageLibc)
      (launchedOn fourOpen (afterWrites pageKernel [])) pre) a :=
  Runs.forall_step_iff.mpr (by decide +kernel)

theorem interleaved_stores_log_crossed :
    ∃ sys outs, systemRun pageKernel pageLibc
        (launchedOn fourOpen (afterWrites pageKernel [])) crossedLines = .ok (sys, outs) ∧
      deviceLog sys.driver = ((storedIn outs).map Prod.snd).foldl logWrite
        (deviceLog (afterWrites pageKernel [])) ∧
      ((storedIn outs).map Prod.fst).Nodup ∧
      (0, [97,10]) ∈ storedIn outs ∧ (1, [98,10]) ∈ storedIn outs := by
  obtain ⟨sys, outs, hrun, hlog, honce, _, _, hstored⟩ := interleaved_stores_log pageLibc fourOpen
    (writeReachable_afterWrites pageKernel []) crossedLines
  have hkept := hstored crossedLines_kept
  obtain rfl := Runs.final_eq hrun
  exact ⟨_, outs, hrun, hlog, honce, hkept 0 _ (by decide +kernel) (by decide +kernel),
    hkept 1 _ (by decide +kernel) (by decide +kernel)⟩

/-- Thread 1 opens the device between the close and the second opening of
thread 0, which closes it at the end. `main` gets the number for client 2. -/
def divertedLine : List SystemAction :=
  acceptUnlisted ++ acceptUnlisted ++
  [.thread 0 {}, .thread 0 (receives 1 [97,10]), .thread 0 (writes 1),
    .thread 0 { mallocAt := some 1 }, .thread 0 {}, .thread 0 {}, .thread 1 {}, .thread 0 {},
    .thread 0 {}, .thread 0 {}, .thread 0 {}, .thread 0 {}] ++ acceptUnlisted ++
  [.thread 1 (receives 1 [98,10]), .thread 1 { writes 2 with accepted := true }]

/-- The line of thread 1 goes to client 2 instead of the device. -/
example :
    let s := launchedOn fourOpen (afterWrites pageKernel [])
    let step := systemStep pageKernel pageLibc
    lookup (Runs.final step s divertedLine).process.table 6 = some (.client 2) ∧
    (Runs.final step s divertedLine).held 1 = .dispatched [98,10] ∧
    storedIn (Runs.outputs step s divertedLine) = [(0, [97,10])] := by
  decide +kernel

theorem own_line {K : Kernel} {log : LineLog.Log UInt8} {s : System}
    {before after : List (ℕ × List UInt8)} {k : ℕ} {request : List UInt8}
    (h : Accounts K log s (before ++ (k, request)::after))
    (hlen : after.length < maxWriteOperationsSupported) : ∃ earlier later,
      content s.driver = earlier ++
        (((before.map Prod.snd).foldl logWrite log).pending ++ request) ++ later := by
  have hline := (h.data (k, request) (by simp)).1
  have hlog := h.log
  rw [List.map_append, List.foldl_append, List.map_cons, List.foldl_cons] at hlog
  have hafter : ∀ v ∈ after.map Prod.snd, newline ∈ v := by
    intro v hv
    obtain ⟨x, hx, rfl⟩ := List.mem_map.mp hv
    exact (h.data x (by simp [hx])).1
  have hstays := LineLog.line_stays newline maxWriteOperationsSupported
    ((before.map Prod.snd).foldl logWrite log) hline hafter (by rwa [List.length_map])
  change _ ∈ ((after.map Prod.snd).foldl logWrite _).lines at hstays
  rw [← logWrite, ← hlog] at hstays
  obtain ⟨earlier, later, hmem⟩ := List.append_of_mem hstays
  refine ⟨earlier.flatten, later.flatten, ?_⟩
  change (deviceLog s.driver).lines.flatten = _
  rw [hmem]
  simp

/-- If the device is always opened again under the number closed before: what a
thread which has stored its request has sent of an undisturbed reply is a first
part of the content, an undisturbed reply which ends is the whole content, and
it ends after some number of undisturbed steps. The thread's own line stands in
the content, with the bytes which were pending before it, unless ten requests
have been stored since. -/
theorem interleaved_reply_has_request {K : Kernel} (M : Libc) (m : Startup) {s : DriverState}
    (hd : WriteReachable K s) (actions : List SystemAction)
    (hkept : ∀ pre a, pre ++ [a] <+: actions →
      NumberKept (Runs.final (systemStep K M) (launchedOn m s) pre) a) :
    ∃ sys outs, systemRun K M (launchedOn m s) actions = .ok (sys, outs) ∧
      ∀ k c f g, sys.process.thread k = .serving c f g → ∃ r, sys.held k = .reply r ∧
        (r.whole = true → ¬ SEEK_COMMAND <+: r.request →
          r.sent <+: content sys.driver ∧
          (∀ calls sys' sent, systemStep K M sys (.thread k calls) =
            .ok (sys', some (.replied k sent true)) → sent = content sys.driver) ∧
          (sys.process.main ≠ .exited → ∃ n t outs',
            systemRun K M sys (List.replicate n (.thread k {})) =
              .ok (t, outs' ++ [some (.replied k (content sys.driver) true)])) ∧
          ∃ before after, storedIn outs = before ++ (k, r.request)::after ∧
            (after.length < maxWriteOperationsSupported → ∃ earlier later,
              content sys.driver = earlier ++
                (((before.map Prod.snd).foldl logWrite (deviceLog s)).pending ++ r.request) ++
                later)) := by
  obtain ⟨sys, outs, hrun, _⟩ := run_accounts (M := M) m hd.holds actions
  obtain ⟨hacc, hs⟩ := run_kept m hd.holds hrun hkept
  refine ⟨sys, outs, hrun, fun k c f g hk => ?_⟩
  have hasked := hacc.asked k
  rw [hk] at hasked
  obtain ⟨r, hr⟩ := hasked
  refine ⟨r, hr, fun hwhole hseek => ⟨?_, ?_, ?_, ?_⟩⟩
  · obtain ⟨n, p, hsending⟩ := (hs.threads k).sending c f g r hk hr hwhole hseek
    rw [hsending.sent]
    exact List.take_prefix _ _
  · intro calls sys' sent hstep
    exact step_ends_whole hacc.consistent (hs.threads k) hr hseek hstep
  · exact fun hm => reply_ends hacc hs hm hk hr hwhole hseek
  · have hmem := (hs.threads k).stored r.request (by rw [hr]; rfl) hseek
    obtain ⟨before, after, hsplit⟩ := List.append_of_mem hmem
    refine ⟨before, after, hsplit, ?_⟩
    rw [hsplit] at hacc
    exact own_line hacc

def bothStored : System :=
  Runs.final (systemStep pageKernel pageLibc) (launchedOn fourOpen (afterWrites pageKernel []))
    crossedLines

theorem interleaved_reply_has_request_line :
    ∃ n t outs, systemRun pageKernel pageLibc bothStored (List.replicate n (.thread 0 {})) =
      .ok (t, outs ++ [some (.replied 0 [97,10,98,10] true)]) := by
  obtain ⟨sys, outs, hrun, h⟩ := interleaved_reply_has_request pageLibc fourOpen
    (writeReachable_afterWrites pageKernel []) crossedLines crossedLines_kept
  obtain rfl : bothStored = sys := Runs.final_eq hrun
  have hheld : bothStored.held 0 = .reply ⟨[97,10], 1, 0, [], true⟩ := by decide +kernel
  have hcontent : content bothStored.driver = [97,10,98,10] := by decide +kernel
  obtain ⟨r, hr, hreply⟩ := h 0 4 6 6 (by decide +kernel)
  obtain rfl := Held.reply.inj (hheld.symm.trans hr)
  obtain ⟨_, _, hends, _⟩ := hreply rfl (by decide +kernel)
  rw [hcontent] at hends
  exact hends (by decide +kernel)

end Aesd.InterleavedStores
