import Aesd.SocketReply
import Aesd.SocketRequest

/-!
# Runs of the accept loop

When the main loop joins each thread before the next `accept`, clients are
served one after the other. Whatever failed for earlier clients, the flag a
client's reply sees is the one its own request has set.
-/

set_option autoImplicit false

namespace Aesd.ServerRuns
open BlockHeap Allocation MachineInt Segments
open Aesd.CircularBuffer Aesd.KernelMemory Aesd.CharDriver Aesd.DriverInvariant
open Aesd.DriverWrite Aesd.CommandLog Aesd.DriverRead Aesd.DriverSeek Aesd.SeekParser
open Aesd.SocketServer Aesd.ReceiveLoop Aesd.ReplyLoop Aesd.SocketRequest Aesd.SocketReply

def serverRun (K : Kernel) (M : Libc) :
    Server → List Client → Except Fault (Server × List (List UInt8)) :=
  Runs.run (threadOperation K M)

def afterClients (K : Kernel) (M : Libc) : Server → List Client → Server :=
  Runs.final (threadOperation K M)

structure Idle (K : Kernel) (srv : Server) : Prop where
  holds : ∃ blocks part, Holds K srv.driver blocks part
  unlocked : srv.mutexReadWrite = false

/-- What the environment must not do to a client: fail an `open`, the write of
the request or the reply buffer, fail a read or cut a send of the reply. -/
structure Undisturbed (K : Kernel) (M : Libc) (srv : Server) (c : Client) : Prop where
  opens : c.openFails = false ∧ c.reply.openFails = false
  small : ∀ request, gathered M srv.heap c.request = some request → request.length < 2^31
  write : ∀ request, gathered M srv.heap c.request = some request →
    ¬ SEEK_COMMAND <+: request → goesThrough K srv.driver (c.request.writeCall 0 request) = true
  buffer : grants M.allocator srv.heap clientBufferLen c.reply.mallocAt = true
  reply : ∀ srv' fPos written,
    sendRcvSocketData K M srv 0 c.request = .ok (srv', fPos, written) →
      WholeReply (remaining srv' fPos).length c.reply.reads c.reply.sends

section
variable {K : Kernel} {M : Libc} {srv : Server}

theorem sendRcv_idle (h : Idle K srv) (env : RequestEnv) :
    ∃ srv' fPos written, sendRcvSocketData K M srv 0 env = .ok (srv', fPos, written) ∧
      Idle K srv' ∧ srv'.heap = srv.heap ∧ 0 ≤ fPos ∧ fPos < 2^63 ∧
      (K.kmallocMax < 2^31 → written ≤ 0 →
        srv'.ioctlJustPerformed = srv.ioctlJustPerformed) := by
  obtain ⟨blocks, part, hh⟩ := h.holds
  have hlen := length_content_lt hh
  cases hr : gathered M srv.heap env with
  | none =>
    exact ⟨srv, 0, -1, sendRcv_none M srv 0 env hr, h, rfl, le_rfl, by decide, fun _ _ => rfl⟩
  | some request =>
    obtain ⟨hn, _, hsend⟩ := sendRcv_some (K := K) M srv h.unlocked 0 env hr
    rcases dispatch_cases hh srv.ioctlJustPerformed 0 request env with
      ⟨hd, _⟩ | ⟨_, hg, s', hd, h', _⟩ | ⟨seekto, _, ha, hd⟩
    · exact ⟨srv, 0, wrapS32 (-1), by rw [hsend, hd]; rfl, h, rfl, le_rfl, by decide,
        fun _ _ => rfl⟩
    · refine ⟨{ srv with driver := s', ioctlJustPerformed := false }, 0,
        wrapS32 request.length, by rw [hsend, hd]; rfl, ⟨h', h.unlocked⟩, rfl, le_rfl,
        by decide, fun hK hw => ?_⟩
      have hsmall : request.length ≤ K.kmallocMax := goesThrough_small hh _ hg
      have hpos := List.length_pos_of_mem hn
      rw [wrapS32_natCast (by omega)] at hw
      omega
    · have hp := position_lt ha
      exact ⟨{ srv with ioctlJustPerformed := true },
        position srv.driver seekto.writeCmd.toNat seekto.writeCmdOffset.toNat, wrapS32 1,
        by rw [hsend, hd]; rfl, ⟨h.holds, h.unlocked⟩, rfl, by omega, by omega,
        fun _ hw => absurd hw (by decide)⟩

theorem threadOperation_idle (h : Idle K srv) (c : Client) :
    ∃ srv' sent, threadOperation K M srv c = .ok (srv', sent) ∧ Idle K srv' ∧
      srv'.heap = srv.heap := by
  by_cases ho : c.openFails = true
  · exact ⟨srv, [], by rw [threadOperation, if_pos ho], h, rfl⟩
  obtain ⟨srv₁, fPos, written, hreq, hidle, hheap, hpos, hpos', _⟩ :=
    sendRcv_idle (M := M) h c.request
  rw [threadOperation, if_neg ho, hreq, ok_bind]
  dsimp only
  by_cases hw : written > 0
  · obtain ⟨_, _, hh₁⟩ := hidle.holds
    obtain ⟨sent, retval, hret, _⟩ := return_spec M srv₁ hh₁ hidle.unlocked fPos hpos hpos'
      c.reply
    exact ⟨afterReply M srv₁ c.reply, sent, by rw [if_pos hw, hret]; rfl,
      ⟨hidle.holds, hidle.unlocked⟩, hheap⟩
  · exact ⟨srv₁, [], by rw [if_neg hw]; rfl, hidle, hheap⟩

theorem threadOperation_data (h : Idle K srv) (c : Client) (hu : Undisturbed K M srv c)
    {request : List UInt8} (hr : gathered M srv.heap c.request = some request)
    (hs : ¬ SEEK_COMMAND <+: request) :
    ∃ srv' sent, threadOperation K M srv c = .ok (srv', sent) ∧
      deviceLog srv'.driver = logWrite (deviceLog srv.driver) request ∧
      sent = content srv'.driver := by
  obtain ⟨blocks, part, hh⟩ := h.holds
  obtain ⟨hn, _, hsend⟩ := sendRcv_some (K := K) M srv h.unlocked 0 c.request hr
  rcases dispatch_cases hh srv.ioctlJustPerformed 0 request c.request with
    ⟨_, ⟨_, hg⟩ | ⟨hseek, _⟩⟩ | ⟨_, _, s', hd, ⟨_, _, h'⟩, hlog⟩ | ⟨seekto, hseek, _⟩
  · rw [hu.write request hr hs] at hg
    cases hg
  · exact absurd hseek hs
  · rw [hd] at hsend
    simp only [Except.map] at hsend
    have hlen : 0 < request.length := List.length_pos_of_mem hn
    rw [wrapS32_natCast (hu.small request hr)] at hsend
    have hw : (request.length:ℤ) > 0 := Int.natCast_pos.mpr hlen
    obtain ⟨sent, retval, hret, hsent⟩ := return_spec M
      { srv with driver := s', ioctlJustPerformed := false } h' h.unlocked 0 le_rfl
      (by decide) c.reply
    refine ⟨afterReply M { srv with driver := s', ioctlJustPerformed := false } c.reply, sent,
      ?_, hlog, hsent ?_ (hu.reply _ _ _ hsend)⟩
    · rw [threadOperation, if_neg (by simp [hu.opens.1]), hsend]
      simp only [ok_bind, if_pos hw, hret, pure_eq_ok]
    · simp [setupFails, hu.buffer, hu.opens.2]
  · rw [seekOf, if_neg hs] at hseek
    cases hseek

theorem threadOperation_seek (h : Idle K srv) (c : Client) (hu : Undisturbed K M srv c)
    {request : List UInt8} (hr : gathered M srv.heap c.request = some request)
    {seekto : AesdSeekto} (hs : seekOf request = some seekto) :
    ∃ srv' sent, threadOperation K M srv c = .ok (srv', sent) ∧ srv'.driver = srv.driver ∧
      sent = if Addresses srv.driver seekto.writeCmd.toNat seekto.writeCmdOffset.toNat then
        (content srv.driver).drop
          (position srv.driver seekto.writeCmd.toNat seekto.writeCmdOffset.toNat) else [] := by
  obtain ⟨blocks, part, hh⟩ := h.holds
  have hlen := length_content_lt hh
  have hpre : SEEK_COMMAND <+: request := by
    by_contra hno
    rw [seekOf, if_neg hno] at hs
    cases hs
  obtain ⟨_, _, hsend⟩ := sendRcv_some (K := K) M srv h.unlocked 0 c.request hr
  rcases dispatch_cases hh srv.ioctlJustPerformed 0 request c.request with
    ⟨hd, ⟨hno, _⟩ | ⟨_, ha⟩⟩ | ⟨hno, _⟩ | ⟨seekto', hs', ha, hd⟩
  · exact absurd hpre hno
  · rw [hd] at hsend
    refine ⟨srv, [], ?_, rfl, by rw [if_neg (ha seekto hs)]⟩
    rw [threadOperation, if_neg (by simp [hu.opens.1]), hsend]
    rfl
  · exact absurd hpre hno
  · obtain rfl : seekto = seekto' := Option.some.inj (hs.symm.trans hs')
    rw [hd] at hsend
    have hp := position_lt ha
    obtain ⟨sent, retval, hret, hsent⟩ := return_spec M
      { srv with ioctlJustPerformed := true } hh h.unlocked
      (position srv.driver seekto.writeCmd.toNat seekto.writeCmdOffset.toNat) (by omega)
      (by omega) c.reply
    refine ⟨afterReply M { srv with ioctlJustPerformed := true } c.reply, sent, ?_, rfl, ?_⟩
    · rw [threadOperation, if_neg (by simp [hu.opens.1]), hsend]
      simp only [Except.map, ok_bind, if_pos (show wrapS32 1 > 0 by decide), hret, pure_eq_ok]
    · rw [if_pos ha, hsent ?_ (hu.reply _ _ _ hsend)]
      · simp [remaining, replyStart]
      · simp [setupFails, hu.buffer]

theorem serverRun_idle (h : Idle K srv) (clients : List Client) :
    (∃ replies, serverRun K M srv clients = .ok (afterClients K M srv clients, replies)) ∧
      Idle K (afterClients K M srv clients) :=
  Runs.run_final (Idle K)
    (fun srv c h => by
      obtain ⟨srv', sent, hstep, h', _⟩ := threadOperation_idle (M := M) h c
      exact ⟨srv', sent, hstep, h'⟩)
    h clients

theorem afterClients_concat (h : Idle K srv) (clients : List Client) (c : Client) :
    ∃ sent, threadOperation K M (afterClients K M srv clients) c =
      .ok (afterClients K M srv (clients ++ [c]), sent) := by
  obtain ⟨⟨replies, hrun⟩, _⟩ := serverRun_idle (M := M) h (clients ++ [c])
  exact Runs.final_concat hrun

end

/-- Every undisturbed client of a run. A request which is not a seek is appended
to the pending bytes and committed, and the reply is all the commands retained
then. A seek leaves the device as it is, and the reply is the content from the
byte it addresses, or nothing when there is no such byte. -/
theorem clients_served {K : Kernel} (M : Libc) {srv : Server} (hd : WriteReachable K srv.driver)
    (hm : srv.mutexReadWrite = false) (clients : List Client) :
    (∃ replies, serverRun K M srv clients = .ok (afterClients K M srv clients, replies)) ∧
    ∀ pre c, pre ++ [c] <+: clients → Undisturbed K M (afterClients K M srv pre) c →
      ∀ request, gathered M (afterClients K M srv pre).heap c.request = some request →
        let before := (afterClients K M srv pre).driver
        let after := (afterClients K M srv (pre ++ [c])).driver
        ∃ sent, threadOperation K M (afterClients K M srv pre) c =
            .ok (afterClients K M srv (pre ++ [c]), sent) ∧
          newline ∈ request ∧
          (¬ SEEK_COMMAND <+: request →
            commands after = (commands before ++ [pending before ++ request]).rtake
              maxWriteOperationsSupported ∧
            pending after = [] ∧ sent = (commands after).flatten) ∧
          ∀ x y rest, IsNumeral x → IsNumeral y → decimal x < 2^32 → decimal y < 2^32 →
            request = SEEK_COMMAND ++ (x ++ comma::y ++ newline::rest) →
            after = before ∧
            sent = if Addresses before (decimal x) (decimal y) then
              (commands before).flatten.drop (position before (decimal x) (decimal y)) else [] := by
  have hidle : Idle K srv := ⟨hd.holds, hm⟩
  refine ⟨(serverRun_idle hidle clients).1, ?_⟩
  intro pre c _ hu request hr
  obtain ⟨_, hpre⟩ := serverRun_idle (M := M) hidle pre
  obtain ⟨sent, hstep⟩ := afterClients_concat (M := M) hidle pre c
  obtain ⟨hn, _, _⟩ := sendRcv_some (K := K) M _ hpre.unlocked 0 c.request hr
  refine ⟨sent, hstep, hn, ?_, ?_⟩
  · intro hs
    obtain ⟨srv', sent', hstep', hlog, hsent⟩ := threadOperation_data hpre c hu hr hs
    obtain ⟨rfl, rfl⟩ := Prod.mk.inj (Except.ok.inj (hstep.symm.trans hstep'))
    rw [logWrite, LineLog.write, if_pos hn] at hlog
    exact ⟨congrArg LineLog.Log.lines hlog, congrArg LineLog.Log.pending hlog, hsent⟩
  · rintro x y rest hx hy hxv hyv rfl
    have hseek : seekOf (SEEK_COMMAND ++ (x ++ comma::y ++ newline::rest)) =
        some ⟨UInt32.ofNat (decimal x), UInt32.ofNat (decimal y)⟩ := by
      rw [seekOf, if_pos (List.prefix_append _ _), List.drop_left,
        sscanfSeek_numerals hx hy hxv hyv]
    obtain ⟨srv', sent', hstep', hdriver, hsent⟩ := threadOperation_seek hpre c hu hr hseek
    obtain ⟨rfl, rfl⟩ := Prod.mk.inj (Except.ok.inj (hstep.symm.trans hstep'))
    simp only [UInt32.toNat_ofNat_of_lt' hxv, UInt32.toNat_ofNat_of_lt' hyv] at hsent
    exact ⟨hdriver, hsent⟩

def lineClient : Client where
  request := { callocAt := some 1, segments := [.data [97,98], .data [10]], kmallocAt := some 1 }
  reply := { mallocAt := some 1 }

def seekClient : Client where
  request := { callocAt := some 1, segments := [.data (SEEK_COMMAND ++ [48,44,49,10])] }
  reply := { mallocAt := some 1 }

theorem clients_served_line_then_seek :
    ∃ srv', threadOperation pageKernel pageLibc
      (afterClients pageKernel pageLibc (idleServer aesdInitModule false) [lineClient])
      seekClient = .ok (srv', [98,10]) := by
  obtain ⟨_, hserved⟩ := clients_served pageLibc
    (show WriteReachable pageKernel (idleServer aesdInitModule false).driver from ⟨[], [], rfl⟩)
    rfl [lineClient, seekClient]
  have hr : gathered pageLibc (afterClients pageKernel pageLibc (idleServer aesdInitModule false)
      [lineClient]).heap seekClient.request = some (SEEK_COMMAND ++ [48,44,49,10]) := by
    decide +kernel
  obtain ⟨sent, hstep, _, _, hseek⟩ := hserved [lineClient] seekClient (List.prefix_refl _)
    { opens := ⟨rfl, rfl⟩
      small := by
        intro request hr'
        rw [hr] at hr'
        cases hr'
        decide
      write := by
        intro request hr' hno
        rw [hr] at hr'
        cases hr'
        exact absurd (List.prefix_append _ _) hno
      buffer := by decide +kernel
      reply := fun _ _ _ _ => wholeReply_undisturbed _ } _ hr
  obtain ⟨_, hsent⟩ := hseek [48] [49] []
    ⟨List.cons_ne_nil _ _, List.forall_mem_singleton.mpr (by decide)⟩
    ⟨List.cons_ne_nil _ _, List.forall_mem_singleton.mpr (by decide)⟩
    (by decide) (by decide) rfl
  have hbytes : sent = [98,10] := by
    rw [hsent]
    decide +kernel
  exact ⟨_, by rw [hstep, hbytes]⟩

end Aesd.ServerRuns
