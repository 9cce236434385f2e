import Aesd.DriverSeek
import Aesd.ReceiveLoop

/-!
# What a request does

Once a request is gathered the thread makes one call into the driver under the
mutex. Either that call is refused and nothing has changed, or the request is
written to the device as a whole, or the position of the thread's own
descriptor is set. The receive buffer is gone and the mutex free in each case.
-/

set_option autoImplicit false

namespace Aesd.SocketRequest
open BlockHeap Allocation MachineInt
open Aesd.KernelMemory Aesd.CharDriver Aesd.DriverInvariant Aesd.DriverWrite
open Aesd.CommandLog Aesd.DriverRead Aesd.DriverSeek Aesd.SeekParser
open Aesd.SocketServer Aesd.ReceiveLoop

def seekOf (request : List UInt8) : Option AesdSeekto :=
  if SEEK_COMMAND <+: request then sscanfSeek (request.drop SEEK_COMMAND.length) else none

theorem gatherRequest_spec (M : Libc) (heap : Heap UInt8) (env : RequestEnv) :
    Received heap [] env.segments (gatherRequest M heap env) := by
  rcases calloc_spec M heap clientBufferLen env.callocAt with hcalloc | ⟨a, ha, hle, hcalloc⟩
  · refine .inl ?_
    rw [gatherRequest, hcalloc]
  · have hloop := receiveLoop_spec M heap (receiveFuel env.segments) a
      (List.replicate clientBufferLen 0) 0 env.segments env.reallocAt ha
      (by rw [List.length_replicate]; decide) (by rw [List.length_replicate]; exact hle)
      (Nat.lt_succ_self _)
    rw [List.length_replicate, List.take_zero] at hloop
    simpa only [gatherRequest, hcalloc] using hloop

section
variable {K : Kernel} {s : DriverState} {blocks : List Block} {part : Option Block}

theorem request_fits {b request : List UInt8} (hb : b.take request.length = request) :
    request.length ≤ b.length :=
  (List.prefix_iff_eq_take.mpr hb.symm).length_le

theorem requestSection_spec (srv : Server) (hm : srv.mutexReadWrite = false) (fPos : ℤ)
    (env : RequestEnv) {a : Addr} {b request : List UInt8} (ha : srv.heap a = some b)
    (hb : b.take request.length = request) :
    requestSection K srv fPos a request.length env =
      (dispatchRequest K srv.driver srv.ioctlJustPerformed fPos request env).map fun d =>
        ({ srv with driver := d.driver, ioctlJustPerformed := d.ioctlJustPerformed,
                    heap := erase srv.heap a }, d.fPos, d.written) := by
  have hle := request_fits hb
  have hload : load srv.heap a 0 request.length = .ok request := by
    rw [load_live _ ha _ _ (by omega), List.drop_zero, hb]
  simp only [requestSection, pthreadMutexLock, hm, Bool.false_eq_true, if_false, ok_bind, hload]
  cases dispatchRequest K srv.driver srv.ioctlJustPerformed fPos request env with
  | error e => rfl
  | ok d => simp only [ok_bind, free_live _ ha, pthreadMutexUnlock, if_true, Except.map,
      pure_eq_ok, ← hm]

theorem sendRcv_none (M : Libc) (srv : Server) (fPos : ℤ) (env : RequestEnv)
    (hr : gathered M srv.heap env = none) :
    sendRcvSocketData K M srv fPos env = .ok (srv, fPos, -1) := by
  unfold gathered at hr
  unfold sendRcvSocketData
  rcases gatherRequest_spec M srv.heap env with hg | ⟨a, b, rest, ha, hg, htake, _, _⟩
  · simp only [hg, ok_bind, pure_eq_ok]
  · rw [List.nil_append] at hg htake
    have hle := request_fits htake
    simp [hg, load, hle, Except.toOption] at hr

theorem sendRcv_some (M : Libc) (srv : Server) (hm : srv.mutexReadWrite = false) (fPos : ℤ)
    (env : RequestEnv) {request : List UInt8} (hr : gathered M srv.heap env = some request) :
    newline ∈ request ∧ request <+: stream env.segments ∧
    sendRcvSocketData K M srv fPos env =
      (dispatchRequest K srv.driver srv.ioctlJustPerformed fPos request env).map fun d =>
        ({ srv with driver := d.driver, ioctlJustPerformed := d.ioctlJustPerformed },
          d.fPos, wrapS32 d.written) := by
  unfold gathered at hr
  unfold sendRcvSocketData
  rcases gatherRequest_spec M srv.heap env with hg | ⟨a, b, rest, ha, hg, htake, hpre, hn⟩
  · simp only [hg, reduceCtorEq] at hr
  · rw [List.nil_append] at hg htake hn
    have hlive := alloc_same srv.heap a b
    have hle := request_fits htake
    have hload : load (alloc srv.heap a b) a 0 rest.length = .ok rest := by
      rw [load_live _ hlive _ _ (by omega), List.drop_zero, htake]
    simp only [hg, hload, Except.toOption, Option.some.injEq] at hr
    subst hr
    refine ⟨hn, hpre, ?_⟩
    have hsection := requestSection_spec (K := K) { srv with heap := alloc srv.heap a b } hm fPos
      env hlive htake
    simp only [hg, ok_bind, hsection]
    cases dispatchRequest K srv.driver srv.ioctlJustPerformed fPos rest env with
    | error e => rfl
    | ok d => simp only [Except.map, ok_bind, erase_alloc _ _ ha, pure_eq_ok]

/-- The three ways the section under the mutex ends. -/
theorem dispatch_cases (h : Holds K s blocks part) (flag : Bool) (fPos : ℤ)
    (request : List UInt8) (env : RequestEnv) :
    (dispatchRequest K s flag fPos request env = .ok ⟨s, flag, fPos, -1⟩ ∧
      (¬ SEEK_COMMAND <+: request ∧ goesThrough K s (env.writeCall fPos request) = false ∨
        SEEK_COMMAND <+: request ∧ ∀ seekto, seekOf request = some seekto →
          ¬ Addresses s seekto.writeCmd.toNat seekto.writeCmdOffset.toNat)) ∨
    (¬ SEEK_COMMAND <+: request ∧ goesThrough K s (env.writeCall fPos request) = true ∧
      ∃ s', dispatchRequest K s flag fPos request env = .ok ⟨s', false, fPos, request.length⟩ ∧
        (∃ blocks part, Holds K s' blocks part) ∧
        deviceLog s' = logWrite (deviceLog s) request) ∨
    ∃ seekto, seekOf request = some seekto ∧
      Addresses s seekto.writeCmd.toNat seekto.writeCmdOffset.toNat ∧
      dispatchRequest K s flag fPos request env =
        .ok ⟨s, true, position s seekto.writeCmd.toNat seekto.writeCmdOffset.toNat, 1⟩ := by
  by_cases hseek : SEEK_COMMAND <+: request
  · have hpre : SEEK_COMMAND.isPrefixOf request = true := List.isPrefixOf_iff_prefix.mpr hseek
    have hof : seekOf request = sscanfSeek (request.drop SEEK_COMMAND.length) := if_pos hseek
    cases hscan : sscanfSeek (request.drop SEEK_COMMAND.length) with
    | none =>
      refine .inl ⟨?_, .inr ⟨hseek, by simp [hof, hscan]⟩⟩
      simp only [dispatchRequest, if_pos hpre, hscan]
    | some seekto =>
      by_cases ha : Addresses s seekto.writeCmd.toNat seekto.writeCmdOffset.toNat
      · refine .inr (.inr ⟨seekto, hof.trans hscan, ha, ?_⟩)
        have hioctl := ioctl_accepts h fPos seekto ha
        simp only [dispatchRequest, if_pos hpre, hscan, hioctl, ok_bind, lt_irrefl, if_false,
          pure_eq_ok]
      · obtain ⟨r, hr, hioctl⟩ := ioctl_refuses h fPos AESDCHAR_IOCSEEKTO (some seekto)
          (by rintro _ _ ⟨⟩; exact ha)
        refine .inl ⟨?_, .inr ⟨hseek, ?_⟩⟩
        · simp only [dispatchRequest, if_pos hpre, hscan, hioctl, ok_bind, if_pos hr, pure_eq_ok]
        · rw [hof, hscan]
          rintro _ ⟨⟩
          exact ha
  · have hpre : ¬ SEEK_COMMAND.isPrefixOf request = true :=
      mt List.isPrefixOf_iff_prefix.mp hseek
    obtain ⟨s', r, hw, h', ⟨hg, hr, hlog⟩ | ⟨hg, hr, rfl⟩⟩ :=
      aesdWrite_logs h (env.writeCall fPos request)
    · refine .inr (.inl ⟨hseek, hg, s', ?_, h', hlog⟩)
      have hok : ¬ (r < 0 ∨ r ≠ request.length) := by
        rw [hr]
        rintro (hneg | hne)
        · exact absurd hneg (by omega)
        · exact hne rfl
      simp only [dispatchRequest, if_neg hpre, hw, ok_bind, if_neg hok, pure_eq_ok]
      rw [hr]
      rfl
    · refine .inl ⟨?_, .inl ⟨hseek, hg⟩⟩
      simp only [dispatchRequest, if_neg hpre, hw, ok_bind, if_pos (Or.inl hr), pure_eq_ok]

end

end Aesd.SocketRequest
