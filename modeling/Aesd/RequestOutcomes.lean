import Aesd.SocketReply
import Aesd.SocketRequest

/-!
# A request is served as a whole or not at all

Wherever `send_rcv_socket_data` leaves, its buffer is freed and the mutex is
released. A positive value stands for one change of the device or of the
position of the thread's descriptor, and `-1` for none.
-/

set_option autoImplicit false

namespace Aesd.RequestOutcomes
open BlockHeap MachineInt
open Aesd.KernelMemory Aesd.CharDriver Aesd.DriverInvariant Aesd.DriverWrite
open Aesd.CommandLog Aesd.DriverRead Aesd.DriverSeek Aesd.SeekParser
open Aesd.SocketServer Aesd.ReceiveLoop Aesd.SocketRequest Aesd.SocketReply

inductive Changed (request : List UInt8) (s : DriverState) (fPos : ℤ) (s' : DriverState) :
    ℤ → Prop where
  | written (h : deviceLog s' = logWrite (deviceLog s) request) : Changed request s fPos s' fPos
  | sought (seekto : AesdSeekto) (hs : s' = s) (hr : seekOf request = some seekto)
      (ha : Addresses s seekto.writeCmd.toNat seekto.writeCmdOffset.toNat) :
      Changed request s fPos s' (position s seekto.writeCmd.toNat seekto.writeCmdOffset.toNat)

/-- For every course of the receive loop, of the allocations and of the call
into the driver. The calls stop at a second `free` of the buffer, at an access
behind it and at an unlock of a free mutex, none of which happens. -/
theorem request_all_or_nothing {K : Kernel} (hK : K.kmallocMax < 2^31) (M : Libc) {srv : Server}
    (hd : WriteReachable K srv.driver) (hm : srv.mutexReadWrite = false) (fPos : ℤ)
    (env : RequestEnv) :
    ∃ srv' fPos' retval, sendRcvSocketData K M srv fPos env = .ok (srv', fPos', retval) ∧
      srv'.heap = srv.heap ∧ srv'.mutexReadWrite = false ∧
      (0 < retval ∧ (∃ request, gathered M srv.heap env = some request ∧
          newline ∈ request ∧ request <+: stream env.segments ∧
          Changed request srv.driver fPos srv'.driver fPos') ∨
        retval = -1 ∧ srv'.driver = srv.driver ∧ fPos' = fPos) := by
  obtain ⟨blocks, part, h⟩ := hd.holds
  cases hr : gathered M srv.heap env with
  | none =>
    exact ⟨srv, fPos, -1, sendRcv_none M srv fPos env hr, rfl, hm, .inr ⟨rfl, rfl, rfl⟩⟩
  | some request =>
    obtain ⟨hn, hpre, hsend⟩ := sendRcv_some (K := K) M srv hm fPos env hr
    rcases dispatch_cases h srv.ioctlJustPerformed fPos request env with
      ⟨hc, _⟩ | ⟨_, hg, s', hc, _, hlog⟩ | ⟨seekto, hs, ha, hc⟩
    · rw [hc] at hsend
      exact ⟨_, _, _, hsend, rfl, hm, .inr ⟨(by decide : wrapS32 (-1) = -1), rfl, rfl⟩⟩
    · have hsmall : request.length ≤ K.kmallocMax := goesThrough_small h _ hg
      have hlen := List.length_pos_of_mem hn
      rw [hc] at hsend
      refine ⟨_, _, _, hsend, rfl, hm, .inl ⟨?_, request, rfl, hn, hpre, .written hlog⟩⟩
      rw [wrapS32_natCast (by omega)]
      exact Int.natCast_pos.mpr hlen
    · rw [hc] at hsend
      exact ⟨_, _, _, hsend, rfl, hm,
        .inl ⟨(by decide : 0 < wrapS32 1), request, rfl, hn, hpre, .sought seekto rfl hs ha⟩⟩

def pendingServer : Server :=
  idleServer (afterWrites pageKernel [{ data := [97,98], kmallocAt := some 1 }]) false

def refusedRequest : RequestEnv :=
  { callocAt := some 1, segments := [.data [99,10]], kmallocAt := some 2 }

theorem request_all_or_nothing_refused :
    ∃ srv', sendRcvSocketData pageKernel pageLibc pendingServer 0 refusedRequest =
        .ok (srv', 0, -1) ∧
      srv'.driver = pendingServer.driver ∧ srv'.heap = pendingServer.heap := by
  have hdriver : WriteReachable pageKernel pendingServer.driver :=
    writeReachable_afterWrites pageKernel [{ data := [97,98], kmallocAt := some 1 }]
  obtain ⟨srv', fPos', retval, hsend, hheap, _, h⟩ :=
    request_all_or_nothing (by decide) pageLibc hdriver rfl 0 refusedRequest
  have hret : (sendRcvSocketData pageKernel pageLibc pendingServer 0 refusedRequest).toOption.map
      (fun x => x.2.2) = some (-1) := by decide +kernel
  rw [hsend] at hret
  obtain rfl : retval = -1 := by simpa [Except.toOption] using hret
  rcases h with ⟨hpos, _⟩ | ⟨_, hsame, rfl⟩
  · exact absurd hpos (by decide)
  · exact ⟨srv', hsend, hsame, hheap⟩

end Aesd.RequestOutcomes
