import Aesd.SocketReply
import Aesd.SocketRequest
import Mathlib.Data.List.ReduceOption

/-!
# Threads which are alive at once

The steps of any number of threads interleave, each section under
`mutex_read_write` being one step. A thread leaves its section with the
position its request has set on its own descriptor, but whether the reply
starts there is read from a flag which the sections of all threads write. The
steps are the opening, the gathering of the request and the two sections. The
numbers of the descriptors and the closes behind the second section are not
among them: a descriptor is the position of its own file.
-/

set_option autoImplicit false

namespace Aesd.InterleavedClients
open BlockHeap Allocation MachineInt
open Aesd.KernelMemory Aesd.CharDriver Aesd.DriverInvariant Aesd.DriverWrite
open Aesd.CommandLog Aesd.DriverRead Aesd.DriverSeek Aesd.SeekParser
open Aesd.SocketServer Aesd.ReceiveLoop Aesd.ReplyLoop Aesd.SocketRequest Aesd.SocketReply

/-- How far a thread is. A request which was dispatched is kept for the
statements; the thread has freed its buffer. -/
inductive Phase where
  | started
  | opened (fPos : ℤ)
  | gathered (fPos : ℤ) (clientBuffer : Addr) (totalReceived : ℕ)
  | dispatched (fPos : ℤ) (request : List UInt8)
  | finished
  deriving DecidableEq

structure System where
  server : Server
  thread : ℕ → Phase

def launched (s : DriverState) : System := ⟨idleServer s false, fun _ => .started⟩

inductive Action where
  | opens (fails : Bool)
  | gathers (env : RequestEnv)
  | dispatches (env : RequestEnv)
  | replies (env : ReplyEnv)

structure ThreadAction where
  thread : ℕ
  action : Action

/-- A section which has done its work: those which fail before leave the flag. -/
inductive Section where
  | acceptedSeek
  | wroteData
  | replied (thread : ℕ) (sent : List UInt8)
  deriving DecidableEq

def System.move (sys : System) (i : ℕ) (srv : Server) (p : Phase) : System :=
  ⟨srv, Function.update sys.thread i p⟩

@[irreducible]
def phaseAfter (fPos written : ℤ) (request : List UInt8) : Phase :=
  if wrapS32 written > 0 then .dispatched fPos request else .finished

def threadStep (K : Kernel) (M : Libc) (sys : System) (a : ThreadAction) :
    Except Fault (System × Option Section) :=
  match sys.thread a.thread, a.action with
  | .started, .opens fails =>
    .ok (sys.move a.thread sys.server (if fails then .finished else .opened 0), none)
  | .opened fPos, .gathers env => do
    let (heap, received) ← gatherRequest M sys.server.heap env
    match received with
    | none => return (sys.move a.thread { sys.server with heap } .finished, none)
    | some (clientBuffer, totalReceived) =>
      return (sys.move a.thread { sys.server with heap }
        (.gathered fPos clientBuffer totalReceived), none)
  | .gathered fPos clientBuffer totalReceived, .dispatches env => do
    let (srv, fPos, written) ←
      requestSection K sys.server fPos clientBuffer totalReceived env
    let request ← load sys.server.heap clientBuffer 0 totalReceived
    return (sys.move a.thread srv (phaseAfter fPos written request),
      if written > 0 then
        some (if SEEK_COMMAND.isPrefixOf request then .acceptedSeek else .wroteData)
      else none)
  | .dispatched fPos _, .replies env => do
    let (srv, sent, _) ← returnSocketdataToClient M sys.server fPos env
    return (sys.move a.thread srv .finished,
      if setupFails M sys.server env then none else some (.replied a.thread sent))
  | _, _ => .ok (sys, none)

def systemRun (K : Kernel) (M : Libc) :
    System → List ThreadAction → Except Fault (System × List (Option Section)) :=
  Runs.run (threadStep K M)

def afterActions (K : Kernel) (M : Libc) : System → List ThreadAction → System :=
  Runs.final (threadStep K M)

def lastSection (K : Kernel) (M : Libc) (sys : System) (actions : List ThreadAction) :
    Option Section :=
  (Runs.outputs (threadStep K M) sys actions).reduceOption.getLast?

def Phase.buffer : Phase → Option Addr
  | .gathered _ clientBuffer _ => some clientBuffer
  | _ => none

def PhaseHolds (heap : Heap UInt8) : Phase → Prop
  | .opened fPos => fPos = 0
  | .gathered fPos clientBuffer totalReceived =>
    fPos = 0 ∧ 0 < totalReceived ∧ ∃ b, heap clientBuffer = some b ∧ totalReceived ≤ b.length
  | .dispatched fPos request => 0 ≤ fPos ∧ fPos < 2^63 ∧ (¬ SEEK_COMMAND <+: request → fPos = 0)
  | _ => True

def flagAfter (ioctlJustPerformed : Bool) : Option Section → Bool
  | none => ioctlJustPerformed
  | some .acceptedSeek => true
  | some _ => false

structure Consistent (K : Kernel) (sys : System) : Prop where
  holds : ∃ blocks part, Holds K sys.server.driver blocks part
  unlocked : sys.server.mutexReadWrite = false
  phases : ∀ i, PhaseHolds sys.server.heap (sys.thread i)
  buffers : ∀ i j a, (sys.thread i).buffer = some a → (sys.thread j).buffer = some a → i = j

def StepKeeps (K : Kernel) (M : Libc) (sys : System) (a : ThreadAction) : Prop :=
  ∃ sys' o, threadStep K M sys a = .ok (sys', o) ∧ Consistent K sys' ∧
    sys'.server.ioctlJustPerformed = flagAfter sys.server.ioctlJustPerformed o

theorem phaseHolds_frame {heap heap' : Heap UInt8} {p : Phase}
    (hframe : ∀ a, p.buffer = some a → heap' a = heap a) (h : PhaseHolds heap p) :
    PhaseHolds heap' p := by
  cases p with
  | gathered fPos a n =>
    obtain ⟨hpos, hn, b, hb, hle⟩ := h
    exact ⟨hpos, hn, b, (hframe a rfl).trans hb, hle⟩
  | started => trivial
  | opened fPos => exact h
  | dispatched fPos request => exact h
  | finished => trivial

theorem buffer_live {heap : Heap UInt8} {p : Phase} (h : PhaseHolds heap p) {a : Addr}
    (ha : p.buffer = some a) : heap a ≠ none := by
  cases p with
  | gathered fPos a' n =>
    obtain ⟨_, _, b, hb, _⟩ := h
    obtain rfl : a' = a := Option.some.inj ha
    simp [hb]
  | started => cases ha
  | opened fPos => cases ha
  | dispatched fPos request => cases ha
  | finished => cases ha

section
variable {K : Kernel} {M : Libc} {sys : System}

theorem consistent_move (h : Consistent K sys) (i : ℕ) (srv : Server) (p : Phase)
    (hd : ∃ blocks part, Holds K srv.driver blocks part) (hm : srv.mutexReadWrite = false)
    (hp : PhaseHolds srv.heap p)
    (hothers : ∀ j, j ≠ i → ∀ a, (sys.thread j).buffer = some a →
      srv.heap a = sys.server.heap a ∧ p.buffer ≠ some a) :
    Consistent K (sys.move i srv p) := by
  refine ⟨hd, hm, fun j => ?_, fun j k a hj hk => ?_⟩
  · by_cases hji : j = i
    · subst hji
      simpa only [System.move, Function.update_self] using hp
    · simp only [System.move, Function.update_of_ne hji]
      exact phaseHolds_frame (fun a ha => (hothers j hji a ha).1) (h.phases j)
  · by_cases hji : j = i <;> by_cases hki : k = i
    · rw [hji, hki]
    · simp only [System.move, hji, Function.update_self, Function.update_of_ne hki] at hj hk
      exact absurd hj (hothers k hki a hk).2
    · simp only [System.move, hki, Function.update_self, Function.update_of_ne hji] at hj hk
      exact absurd hk (hothers j hji a hj).2
    · simp only [System.move, Function.update_of_ne hji, Function.update_of_ne hki] at hj hk
      exact h.buffers j k a hj hk

theorem move_same (i : ℕ) (srv : Server) (p : Phase) : (sys.move i srv p).thread i = p := by
  simp only [System.move, Function.update_self]

theorem move_move (i : ℕ) (srv srv' : Server) (p p' : Phase) :
    (sys.move i srv p).move i srv' p' = sys.move i srv' p' := by
  simp only [System.move, Function.update_idem]

theorem consistent_launched {s : DriverState} (hs : ∃ blocks part, Holds K s blocks part) :
    Consistent K (launched s) :=
  ⟨hs, rfl, fun _ => trivial, fun _ _ _ h => by cases h⟩

theorem opens_spec (h : Consistent K sys) {i : ℕ} (hi : sys.thread i = .started) (fails : Bool) :
    StepKeeps K M sys ⟨i, .opens fails⟩ := by
  refine ⟨sys.move i sys.server (if fails then .finished else .opened 0), none,
    by simp only [threadStep, hi], ?_, rfl⟩
  cases fails with
  | true =>
    exact consistent_move h i sys.server .finished h.holds h.unlocked trivial
      fun _ _ _ _ => ⟨rfl, nofun⟩
  | false =>
    exact consistent_move h i sys.server (.opened 0) h.holds h.unlocked rfl
      fun _ _ _ _ => ⟨rfl, nofun⟩

theorem gathers_spec (h : Consistent K sys) {i : ℕ} {fPos : ℤ} (hi : sys.thread i = .opened fPos)
    (env : RequestEnv) :
    StepKeeps K M sys ⟨i, .gathers env⟩ := by
  have hpos : fPos = 0 := by simpa only [hi, PhaseHolds] using h.phases i
  rcases gatherRequest_spec M sys.server.heap env with hg | ⟨a, b, request, ha, hg, htake, _, hn⟩
  · refine ⟨sys.move i sys.server .finished, none, ?_, ?_, rfl⟩
    · simp only [threadStep, hi, hg, ok_bind, pure_eq_ok]
    · exact consistent_move h i _ .finished h.holds h.unlocked trivial
        fun _ _ _ _ => ⟨rfl, nofun⟩
  · rw [List.nil_append] at hg htake hn
    refine ⟨sys.move i { sys.server with heap := alloc sys.server.heap a b }
      (.gathered fPos a request.length), none, ?_, ?_, rfl⟩
    · simp only [threadStep, hi, hg, ok_bind, pure_eq_ok]
    · refine consistent_move h i _ (.gathered fPos a request.length) h.holds h.unlocked
        ⟨hpos, List.length_pos_of_mem hn, b, alloc_same _ _ _, request_fits htake⟩
        fun j _ c hc => ?_
      have hne : c ≠ a := by
        rintro rfl
        exact buffer_live (h.phases j) hc ha
      exact ⟨alloc_other _ _ hne, fun heq => hne (Option.some.inj heq).symm⟩

theorem phaseAfter_holds (heap : Heap UInt8) {fPos : ℤ} (written : ℤ) {request : List UInt8}
    (hpos : 0 ≤ fPos) (hpos' : fPos < 2^63) (hs : ¬ SEEK_COMMAND <+: request → fPos = 0) :
    PhaseHolds heap (phaseAfter fPos written request) := by
  unfold phaseAfter
  split_ifs
  · exact ⟨hpos, hpos', hs⟩
  · trivial

theorem phaseAfter_buffer (fPos written : ℤ) (request : List UInt8) :
    (phaseAfter fPos written request).buffer = none := by
  unfold phaseAfter
  split_ifs <;> rfl

theorem dispatches_spec (h : Consistent K sys) {i : ℕ} {fPos : ℤ} {a : Addr} {n : ℕ}
    (hi : sys.thread i = .gathered fPos a n) (env : RequestEnv) :
    StepKeeps K M sys ⟨i, .dispatches env⟩ := by
  obtain ⟨rfl, hn, b, hb, hle⟩ : PhaseHolds sys.server.heap (.gathered fPos a n) := hi ▸ h.phases i
  obtain ⟨blocks, part, hh⟩ := h.holds
  have hlen : (b.take n).length = n := List.length_take_of_le hle
  have hload : load sys.server.heap a 0 n = .ok (b.take n) := by
    rw [load_live _ hb _ _ (by omega), List.drop_zero]
  have hsection := requestSection_spec (K := K) sys.server h.unlocked 0 env hb
    (show b.take (b.take n).length = b.take n by rw [hlen])
  rw [hlen] at hsection
  have hfree : ∀ fPos written, ∀ j, j ≠ i → ∀ c, (sys.thread j).buffer = some c →
      erase sys.server.heap a c = sys.server.heap c ∧
        (phaseAfter fPos written (b.take n)).buffer ≠ some c := by
    intro fPos written j hji c hc
    have hne : c ≠ a := by
      rintro rfl
      exact hji (h.buffers j i c hc (by rw [hi]; rfl))
    exact ⟨erase_other _ hne, by rw [phaseAfter_buffer]; nofun⟩
  rcases dispatch_cases hh sys.server.ioctlJustPerformed 0 (b.take n) env with
    ⟨hd, _⟩ | ⟨hs, _, s', hd, h', _⟩ | ⟨seekto, hs, ha, hd⟩
  · rw [hd] at hsection
    refine ⟨sys.move i { sys.server with heap := erase sys.server.heap a }
      (phaseAfter 0 (-1) (b.take n)), none, ?_, ?_, rfl⟩
    · simp only [threadStep, hi, hsection, Except.map, ok_bind, hload, pure_eq_ok,
        if_neg (show ¬ (-1:ℤ) > 0 by decide)]
    · exact consistent_move h i _ _ h.holds h.unlocked
        (phaseAfter_holds _ _ le_rfl (by decide) fun _ => rfl) (hfree _ _)
  · rw [hd] at hsection
    have hw : ((b.take n).length:ℤ) > 0 := by omega
    refine ⟨sys.move i ⟨s', erase sys.server.heap a, sys.server.mutexReadWrite, false⟩
      (phaseAfter 0 (b.take n).length (b.take n)), some .wroteData, ?_, ?_, rfl⟩
    · simp only [threadStep, hi, hsection, Except.map, ok_bind, hload, pure_eq_ok, if_pos hw,
        if_neg (mt List.isPrefixOf_iff_prefix.mp hs)]
    · exact consistent_move h i _ _ h' h.unlocked
        (phaseAfter_holds _ _ le_rfl (by decide) fun _ => rfl) (hfree _ _)
  · rw [hd] at hsection
    have hlt := position_lt ha
    have hclt := length_content_lt hh
    have hpre : SEEK_COMMAND <+: b.take n := by
      by_contra hno
      rw [seekOf, if_neg hno] at hs
      cases hs
    refine ⟨sys.move i
      ⟨sys.server.driver, erase sys.server.heap a, sys.server.mutexReadWrite, true⟩
      (phaseAfter (position sys.server.driver seekto.writeCmd.toNat seekto.writeCmdOffset.toNat)
        1 (b.take n)), some .acceptedSeek, ?_, ?_, rfl⟩
    · simp only [threadStep, hi, hsection, Except.map, ok_bind, hload, pure_eq_ok,
        if_pos (show (1:ℤ) > 0 by decide), if_pos (List.isPrefixOf_iff_prefix.mpr hpre)]
    · exact consistent_move h i _ _ h.holds h.unlocked
        (phaseAfter_holds _ _ (by omega) (by omega) fun hno => absurd hpre hno)
        (hfree _ _)

theorem replies_spec (h : Consistent K sys) {i : ℕ} {fPos : ℤ} {request : List UInt8}
    (hi : sys.thread i = .dispatched fPos request) (env : ReplyEnv) :
    ∃ sys' sent, threadStep K M sys ⟨i, .replies env⟩ = .ok (sys',
        if setupFails M sys.server env then none else some (.replied i sent)) ∧
      Consistent K sys' ∧
      sys'.server.ioctlJustPerformed =
        (setupFails M sys.server env && sys.server.ioctlJustPerformed) ∧
      (setupFails M sys.server env = false →
        WholeReply (remaining sys.server fPos).length env.reads env.sends →
          sent = remaining sys.server fPos) := by
  obtain ⟨hpos, hpos', _⟩ : PhaseHolds sys.server.heap (.dispatched fPos request) :=
    hi ▸ h.phases i
  obtain ⟨blocks, part, hh⟩ := h.holds
  obtain ⟨sent, retval, hret, hsent⟩ := return_spec M sys.server hh h.unlocked fPos hpos hpos' env
  refine ⟨sys.move i (afterReply M sys.server env) .finished, sent, ?_, ?_, rfl, hsent⟩
  · simp only [threadStep, hi, hret, ok_bind, pure_eq_ok]
  · exact consistent_move h i _ .finished h.holds h.unlocked trivial
      fun _ _ _ _ => ⟨rfl, nofun⟩

theorem threadStep_spec (h : Consistent K sys) (a : ThreadAction) :
    StepKeeps K M sys a := by
  obtain ⟨i, action⟩ := a
  have hstay (hs : threadStep K M sys ⟨i, action⟩ = .ok (sys, none)) :
      StepKeeps K M sys ⟨i, action⟩ := ⟨sys, none, hs, h, rfl⟩
  cases hi : sys.thread i with
  | started =>
    cases action with
    | opens fails => exact opens_spec h hi fails
    | _ => exact hstay (by simp only [threadStep, hi])
  | opened fPos =>
    cases action with
    | gathers env => exact gathers_spec h hi env
    | _ => exact hstay (by simp only [threadStep, hi])
  | gathered fPos a n =>
    cases action with
    | dispatches env => exact dispatches_spec h hi env
    | _ => exact hstay (by simp only [threadStep, hi])
  | dispatched fPos request =>
    cases action with
    | replies env =>
      obtain ⟨sys', sent, hstep, h', hflag, _⟩ := replies_spec (M := M) h hi env
      refine ⟨sys', _, hstep, h', ?_⟩
      rw [hflag]
      cases setupFails M sys.server env <;> simp [flagAfter]
    | _ => exact hstay (by simp only [threadStep, hi])
  | finished => exact hstay (by simp only [threadStep, hi])

/-- A run does not fault, and the flag is up exactly when the section completed
last is that of an accepted seek. -/
theorem afterActions_spec (h : Consistent K sys) (hflag : sys.server.ioctlJustPerformed = false)
    (actions : List ThreadAction) :
    (∃ outs, systemRun K M sys actions = .ok (afterActions K M sys actions, outs)) ∧
      Consistent K (afterActions K M sys actions) ∧
      ((afterActions K M sys actions).server.ioctlJustPerformed = true ↔
        lastSection K M sys actions = some .acceptedSeek) := by
  obtain ⟨sys', outs, hrun, h', hlast⟩ := Runs.run_history
    (fun sys (outs : List (Option Section)) => Consistent K sys ∧
      (sys.server.ioctlJustPerformed = true ↔ outs.reduceOption.getLast? = some .acceptedSeek))
    (fun sys outs a ⟨h, hlast⟩ => by
      obtain ⟨sys', o, hstep, h', hflag⟩ := threadStep_spec (M := M) h a
      refine ⟨sys', o, hstep, h', ?_⟩
      rw [hflag, List.reduceOption_append]
      cases o with
      | none => simpa [flagAfter] using hlast
      | some x => cases x <;> simp [flagAfter])
    ⟨h, by simp [hflag]⟩ actions
  rw [lastSection, Runs.outputs_eq hrun, afterActions, Runs.final_eq hrun]
  exact ⟨⟨outs, hrun⟩, h', hlast⟩

end

end Aesd.InterleavedClients
