import Aesd.DriverSeek
import Aesd.ReplyLoop

/-!
# The reply as a whole

`return_socketdata_to_client` starts at the beginning of the content unless
the last request of the process was a seek. When the reply is complete is
decided by the outcomes of its reads and sends alone.
-/

set_option autoImplicit false

namespace Aesd.SocketReply
open BlockHeap Allocation
open Aesd.KernelMemory Aesd.CharDriver Aesd.DriverInvariant
open Aesd.CommandLog Aesd.DriverRead Aesd.DriverSeek Aesd.SocketServer Aesd.ReplyLoop

def replyStart (ioctlJustPerformed : Bool) (fPos : ℤ) : ℕ :=
  if ioctlJustPerformed then fPos.toNat else 0

def remaining (srv : Server) (fPos : ℤ) : List UInt8 :=
  (content srv.driver).drop (replyStart srv.ioctlJustPerformed fPos)

/-- The function returns before it reads: no buffer, or the device cannot be
opened again. -/
def setupFails (M : Libc) (srv : Server) (env : ReplyEnv) : Bool :=
  !grants M.allocator srv.heap clientBufferLen env.mallocAt ||
  (!srv.ioctlJustPerformed && env.openFails)

def afterReply (M : Libc) (srv : Server) (env : ReplyEnv) : Server :=
  { srv with ioctlJustPerformed := setupFails M srv env && srv.ioctlJustPerformed }

structure SendsProgress (env : ReplyEnv) : Prop where
  reads : ∀ o ∈ env.reads, o = .undisturbed
  sends : ∀ o ∈ env.sends, o = .interrupted ∨ ∃ count, 0 < count ∧ o = .accepts count

section
variable {K : Kernel} {s : DriverState} {blocks : List Block} {part : Option Block}

theorem replyFuel_eq (h : Holds K s blocks part) : replyFuel s = (content s).length+1 := by
  rw [replyFuel, totalSize_eq h, Int.toNat_natCast]

theorem replySection_refused (flag : Bool) (fPos : ℤ) (buf : List UInt8) (env : ReplyEnv)
    (hs : (!flag && env.openFails) = true) :
    replySection s flag fPos buf env = .ok (flag, ⟨s, fPos, [], -1⟩) := by
  have hc : (!flag) = true ∧ env.openFails = true := by simpa using hs
  rw [replySection, if_pos hc]

theorem replySection_loop (h : Holds K s blocks part) (flag : Bool) (fPos : ℤ) (hpos : 0 ≤ fPos)
    (hpos' : fPos < 2^63) (buf : List UInt8) (hbuf : buf.length = clientBufferLen)
    (env : ReplyEnv) (hs : (!flag && env.openFails) = false) :
    ∃ fPos' sent retval,
      replySection s flag fPos buf env = .ok (false, ⟨s, fPos', sent, retval⟩) ∧
      (retval = -1 ∧
          FailedSend ((content s).length-replyStart flag fPos) env.reads env.sends ∨
        retval = 0 ∧
          ¬ FailedSend ((content s).length-replyStart flag fPos) env.reads env.sends ∧
        (sent = (content s).drop (replyStart flag fPos) ↔
          WholeReply ((content s).length-replyStart flag fPos) env.reads env.sends)) := by
  have hstart : replyStart flag fPos < 2^63 := by
    unfold replyStart
    split_ifs <;> omega
  obtain ⟨fPos', sent, retval, hloop, _, hres⟩ := replyLoop_spec h ((content s).length+1)
    (replyStart flag fPos) buf env.reads env.sends (by omega) hstart hbuf
  refine ⟨fPos', sent, retval, ?_, hres⟩
  have hc : ¬ ((!flag) = true ∧ env.openFails = true) := by
    intro hc
    simp [hc.1, hc.2] at hs
  have hp : (if flag = true then fPos else 0) = (replyStart flag fPos : ℕ) := by
    cases flag with
    | true => simpa [replyStart] using (Int.toNat_of_nonneg hpos).symm
    | false => rfl
  simp only [replySection, if_neg hc, hp, replyFuel_eq h, hloop, ok_bind, pure_eq_ok]

theorem return_section (M : Libc) (srv : Server) (hm : srv.mutexReadWrite = false) (fPos : ℤ)
    (env : ReplyEnv) (hg : grants M.allocator srv.heap clientBufferLen env.mallocAt = true) :
    returnSocketdataToClient M srv fPos env =
      (replySection srv.driver srv.ioctlJustPerformed fPos
        (fresh M.allocator clientBufferLen) env).map
        fun x => ({ srv with driver := x.2.driver, ioctlJustPerformed := x.1 },
          x.2.sent, x.2.retval) := by
  obtain ⟨a, _, ha, _, hplace⟩ := place_granted M.allocator srv.heap
    (fresh M.allocator clientBufferLen) env.mallocAt (by simpa using hg)
  have hload := load_whole _ (alloc_same srv.heap a (fresh M.allocator clientBufferLen))
  rw [length_fresh] at hload
  simp only [returnSocketdataToClient, malloc, hplace, pthreadMutexLock, hm, Bool.false_eq_true,
    if_false, ok_bind, hload]
  cases replySection srv.driver srv.ioctlJustPerformed fPos
    (fresh M.allocator clientBufferLen) env with
  | error e => rfl
  | ok x =>
    simp only [ok_bind, free_alloc _ _ ha, pthreadMutexUnlock, if_true, Except.map, pure_eq_ok,
      ← hm]

theorem return_refused (M : Libc) (srv : Server) (hm : srv.mutexReadWrite = false) (fPos : ℤ)
    (env : ReplyEnv) (hf : setupFails M srv env = true) :
    returnSocketdataToClient M srv fPos env = .ok (srv, [], -1) := by
  cases hg : grants M.allocator srv.heap clientBufferLen env.mallocAt with
  | false => rw [returnSocketdataToClient, malloc, place_refused _ _ _ _ (by simpa using hg)]
  | true =>
    have hs : (!srv.ioctlJustPerformed && env.openFails) = true := by
      simpa [setupFails, hg] using hf
    rw [return_section M srv hm fPos env hg, replySection_refused _ _ _ _ hs]
    rfl

theorem return_entered (M : Libc) (srv : Server) (h : Holds K srv.driver blocks part)
    (hm : srv.mutexReadWrite = false) (fPos : ℤ) (hpos : 0 ≤ fPos) (hpos' : fPos < 2^63)
    (env : ReplyEnv) (hf : setupFails M srv env = false) :
    ∃ sent retval, returnSocketdataToClient M srv fPos env =
        .ok ({ srv with ioctlJustPerformed := false }, sent, retval) ∧
      (retval = -1 ∧ FailedSend (remaining srv fPos).length env.reads env.sends ∨
        retval = 0 ∧ ¬ FailedSend (remaining srv fPos).length env.reads env.sends ∧
        (sent = remaining srv fPos ↔
          WholeReply (remaining srv fPos).length env.reads env.sends)) := by
  obtain ⟨hg, hs⟩ : grants M.allocator srv.heap clientBufferLen env.mallocAt = true ∧
      (!srv.ioctlJustPerformed && env.openFails) = false := by
    rwa [setupFails, Bool.or_eq_false_iff, Bool.not_eq_false'] at hf
  obtain ⟨fPos', sent, retval, hreply, hres⟩ := replySection_loop h srv.ioctlJustPerformed fPos
    hpos hpos' (fresh M.allocator clientBufferLen) (length_fresh _ _) env hs
  have hsection := return_section M srv hm fPos env hg
  rw [hreply] at hsection
  exact ⟨sent, retval, hsection, by rwa [remaining, List.length_drop]⟩

theorem return_spec (M : Libc) (srv : Server) (h : Holds K srv.driver blocks part)
    (hm : srv.mutexReadWrite = false) (fPos : ℤ) (hpos : 0 ≤ fPos) (hpos' : fPos < 2^63)
    (env : ReplyEnv) :
    ∃ sent retval, returnSocketdataToClient M srv fPos env =
        .ok (afterReply M srv env, sent, retval) ∧
      (setupFails M srv env = false →
        WholeReply (remaining srv fPos).length env.reads env.sends →
          sent = remaining srv fPos) := by
  cases hf : setupFails M srv env with
  | true =>
    exact ⟨[], -1, by rw [return_refused M srv hm fPos env hf, afterReply, hf, Bool.true_and],
      nofun⟩
  | false =>
    obtain ⟨sent, retval, hret, hres⟩ := return_entered M srv h hm fPos hpos hpos' env hf
    refine ⟨sent, retval, by rw [hret, afterReply, hf, Bool.false_and], fun _ hw => ?_⟩
    rcases hres with ⟨_, j, hj, hr, hfail⟩ | ⟨_, _, hiff⟩
    · have htake := (hw j hj).2
      simp only [takesWhole, hfail] at htake
    · exact hiff.mpr hw

end

/-- A reply hands out the content to its end whenever its sends make progress,
and returns 0 only then, exactly when it is not set up, or a send fails before
any read does, or every piece is read and taken by its send as a whole. -/
theorem reply_complete_iff {K : Kernel} (M : Libc) {srv : Server}
    (hd : WriteReachable K srv.driver) (hm : srv.mutexReadWrite = false) (fPos : ℤ)
    (hpos : 0 ≤ fPos) (hpos' : fPos < 2^63) (env : ReplyEnv) :
    ∃ srv' sent retval, returnSocketdataToClient M srv fPos env = .ok (srv', sent, retval) ∧
      ((setupFails M srv env = false → SendsProgress env →
          sent = remaining srv fPos ∧ retval = 0) ∧
        (retval = 0 → sent = remaining srv fPos) ↔
      setupFails M srv env = true ∨
        FailedSend (remaining srv fPos).length env.reads env.sends ∨
        WholeReply (remaining srv fPos).length env.reads env.sends) := by
  obtain ⟨blocks, part, h⟩ := hd.holds
  cases hset : setupFails M srv env with
  | true => exact ⟨srv, [], -1, return_refused M srv hm fPos env hset, by simp⟩
  | false =>
    obtain ⟨sent, retval, hret, hres⟩ := return_entered M srv h hm fPos hpos hpos' env hset
    refine ⟨_, sent, retval, hret, ?_⟩
    rcases hres with ⟨rfl, hf⟩ | ⟨rfl, hf, hiff⟩
    · refine ⟨fun _ => .inr (.inl hf), fun _ => ⟨fun _ hp => ?_, by simp⟩⟩
      obtain ⟨j, _, _, hj⟩ := hf
      rcases hp.sends _ (List.mem_of_getElem? hj) with hbad | ⟨count, _, hbad⟩ <;> cases hbad
    · rw [← hiff]
      constructor
      · rintro ⟨_, hall⟩
        exact .inr (.inr (hall rfl))
      · rintro (hbad | hbad | hsent)
        · cases hbad
        · exact absurd hbad hf
        · exact ⟨fun _ _ => ⟨hsent, rfl⟩, fun _ => hsent⟩

def idleServer (s : DriverState) (ioctlJustPerformed : Bool) : Server :=
  ⟨s, empty, false, ioctlJustPerformed⟩

def pageLibc : Libc := ⟨4096, 0, by decide⟩

theorem short_send_truncates :
    remaining (idleServer (afterWrites pageKernel twoLines) false) 0 = [97,98,10,99,100,10] ∧
    (returnSocketdataToClient pageLibc (idleServer (afterWrites pageKernel twoLines) false) 0
      { mallocAt := some 7, sends := [.accepts 1] }).map (·.2) = .ok ([97], 0) ∧
    (returnSocketdataToClient pageLibc (idleServer (afterWrites pageKernel twoLines) false) 0
      { mallocAt := some 7, sends := [.interrupted] }).map (·.2) = .ok ([], 0) := by
  refine ⟨by decide +kernel, by decide +kernel, by decide +kernel⟩

theorem reply_complete_two_lines :
    ∃ srv' retval,
      returnSocketdataToClient pageLibc (idleServer (afterWrites pageKernel twoLines) false) 0
        { mallocAt := some 7, sends := [.accepts 6] } =
          .ok (srv', [97,98,10,99,100,10], retval) ∧ retval = 0 := by
  have hrem : remaining (idleServer (afterWrites pageKernel twoLines) false) 0 =
      [97,98,10,99,100,10] := by decide +kernel
  obtain ⟨srv', sent, retval, hret, hiff⟩ := reply_complete_iff pageLibc
    (show WriteReachable pageKernel (idleServer (afterWrites pageKernel twoLines) false).driver from
      writeReachable_afterWrites pageKernel twoLines) rfl 0 (by decide) (by decide)
    { mallocAt := some 7, sends := [.accepts 6] }
  rw [hrem] at hiff
  have hwhole : WholeReply 6 [] [.accepts 6] := by
    intro i hi
    have hi' : 1024*i < 6 := hi
    obtain rfl : i = 0 := by omega
    exact ⟨rfl, show min 1024 (6-1024*0) ≤ 6 by decide⟩
  obtain ⟨hsent, rfl⟩ := (hiff.mpr (.inr (.inr hwhole))).1 rfl
    ⟨by simp, by simp⟩
  exact ⟨srv', 0, by rw [hret, hsent], rfl⟩

end Aesd.SocketReply
