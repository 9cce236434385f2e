import Aesd.DriverWrite
import Aesd.Lib.LineLog
import Aesd.Lib.Runs

/-!
# The device as a bounded log of lines

The commands are read out of the ring and the pending bytes out of
`partial_write`, as they stand in the heap. A run of `aesd_write` calls is
compared with the bounded log, which only sees the calls that were accepted.
-/

set_option autoImplicit false

namespace Aesd.CommandLog
open BlockHeap Aesd.CircularBuffer Aesd.KernelMemory Aesd.CharDriver
open Aesd.DriverInvariant Aesd.DriverWrite

def entryBytes (h : Heap UInt8) (e : AesdBufferEntry) : List UInt8 :=
  match e.buffptr with
  | none => []
  | some p => ((h p).getD []).take e.size

def commands (s : DriverState) : List (List UInt8) := s.dev.buffer.content.map (entryBytes s.heap)

def pending (s : DriverState) : List UInt8 :=
  entryBytes s.heap ⟨s.dev.partialWrite, s.dev.partialSize⟩

def deviceLog (s : DriverState) : LineLog.Log UInt8 := ⟨commands s, pending s⟩

def logWrite : LineLog.Log UInt8 → List UInt8 → LineLog.Log UInt8 :=
  LineLog.write newline maxWriteOperationsSupported

def writeRun (K : Kernel) : DriverState → List WriteCall → Except Fault (DriverState × List ℤ) :=
  Runs.run (aesdWrite K)

/-- The data of the calls which returned their `count`. -/
def acceptedData (calls : List WriteCall) (rets : List ℤ) : List (List UInt8) :=
  (calls.zip rets).filterMap fun x => if x.2 = x.1.data.length then some x.1.data else none

def WriteReachable (K : Kernel) (s : DriverState) : Prop :=
  ∃ calls rets, writeRun K aesdInitModule calls = .ok (s, rets)

def afterWrites (K : Kernel) : List WriteCall → DriverState :=
  Runs.final (aesdWrite K) aesdInitModule

def pageKernel : Kernel := ⟨4096, 0, by decide⟩

def twoLines : List WriteCall :=
  [{ data := [97,98,10], kmallocAt := some 1 }, { data := [99,100,10], kmallocAt := some 2 }]

section
variable {K : Kernel} {s : DriverState} {blocks : List Block} {part : Option Block}

theorem entryBytes_live {h : Heap UInt8} {p : Addr} {bytes : List UInt8} (hp : h p = some bytes) :
    entryBytes h ⟨some p, bytes.length⟩ = bytes := by
  simp [entryBytes, hp]

theorem commands_eq (h : Holds K s blocks part) : commands s = blocks.map Prod.snd := by
  rw [commands, h.content, List.map_map]
  apply List.map_congr_left
  intro x hx
  exact entryBytes_live (h.heap x (List.mem_append_right _ hx))

theorem pending_eq (h : Holds K s blocks part) : pending s = pendingOf part := by
  have hw := h.partialWrite
  have hz := h.partialSize
  cases part with
  | none => simp [pending, entryBytes, hw, pendingOf]
  | some x =>
    rw [pending, hw, hz]
    exact entryBytes_live (h.heap x (by simp))

theorem deviceLog_eq (h : Holds K s blocks part) :
    deviceLog s = ⟨blocks.map Prod.snd, pendingOf part⟩ := by
  rw [deviceLog, commands_eq h, pending_eq h]

theorem deviceLog_init : deviceLog aesdInitModule = LineLog.empty :=
  deviceLog_eq (holds_init ⟨0, 0, by decide⟩)

theorem aesdWrite_logs (h : Holds K s blocks part) (c : WriteCall) :
    ∃ s' r, aesdWrite K s c = .ok (s', r) ∧ (∃ blocks part, Holds K s' blocks part) ∧
      (goesThrough K s c = true ∧ r = c.data.length ∧
          deviceLog s' = logWrite (deviceLog s) c.data ∨
        goesThrough K s c = false ∧ r < 0 ∧ s' = s) := by
  rcases aesdWrite_cases h c with ⟨hg, r, hr, hw⟩ | ⟨hg, hn, p, _, hw, h'⟩ | ⟨hg, hn, p, _, hw, h'⟩
  · exact ⟨s, r, hw, ⟨blocks, part, h⟩, .inr ⟨hg, hr, rfl⟩⟩
  · refine ⟨_, _, hw, ⟨_, _, h'⟩, .inl ⟨hg, rfl, ?_⟩⟩
    rw [deviceLog_eq h, deviceLog_eq h', logWrite, LineLog.write, if_pos hn, Ring.map_rtake,
      List.map_append]
    rfl
  · refine ⟨_, _, hw, ⟨_, _, h'⟩, .inl ⟨hg, rfl, ?_⟩⟩
    rw [deviceLog_eq h, deviceLog_eq h', logWrite, LineLog.write, if_neg hn]
    rfl

theorem writeRun_logs (h : Holds K s blocks part) (calls : List WriteCall) :
    ∃ t rets, writeRun K s calls = .ok (t, rets) ∧ rets.length = calls.length ∧
      (∃ blocks part, Holds K t blocks part) ∧
      deviceLog t = (acceptedData calls rets).foldl logWrite (deviceLog s) := by
  obtain ⟨t, rets, hrun, hlen, ⟨blocks', part', h'⟩, hlog⟩ :=
    @Runs.run_simulates _ _ _ _ _ (aesdWrite K)
      (fun s a => (∃ blocks part, Holds K s blocks part) ∧ deviceLog s = a)
      (fun a c r => if r = c.data.length then logWrite a c.data else a)
      (fun s a c ⟨⟨blocks, part, h⟩, ha⟩ => by
        obtain ⟨s', r, hw, hh, hr⟩ := aesdWrite_logs h c
        refine ⟨s', r, hw, hh, ?_⟩
        subst ha
        rcases hr with ⟨_, rfl, hlog⟩ | ⟨_, hr, rfl⟩
        · rw [if_pos rfl, hlog]
        · rw [if_neg (by omega)])
      s _ ⟨⟨blocks, part, h⟩, rfl⟩ calls
  refine ⟨t, rets, hrun, hlen, ⟨blocks', part', h'⟩, ?_⟩
  rw [hlog, acceptedData, List.foldl_filterMap]
  congr 1
  funext a x
  by_cases hx : x.2 = x.1.data.length <;> simp [hx]

theorem WriteReachable.holds (h : WriteReachable K s) : ∃ blocks part, Holds K s blocks part := by
  obtain ⟨calls, rets, hrun⟩ := h
  obtain ⟨t, rets', hrun', _, hh, _⟩ := writeRun_logs (holds_init K) calls
  rw [hrun] at hrun'
  obtain ⟨rfl, rfl⟩ := Prod.mk.inj (Except.ok.inj hrun')
  exact hh

theorem writeRun_afterWrites (K : Kernel) (calls : List WriteCall) :
    (∃ rets, writeRun K aesdInitModule calls = .ok (afterWrites K calls, rets)) ∧
      ∃ blocks part, Holds K (afterWrites K calls) blocks part := by
  obtain ⟨t, rets, hrun, _, hh, _⟩ := writeRun_logs (holds_init K) calls
  have ht : afterWrites K calls = t := Runs.final_eq hrun
  rw [ht]
  exact ⟨⟨rets, hrun⟩, hh⟩

theorem afterWrites_concat (K : Kernel) (calls : List WriteCall) (c : WriteCall) :
    ∃ r, aesdWrite K (afterWrites K calls) c = .ok (afterWrites K (calls ++ [c]), r) := by
  obtain ⟨rets, hrun⟩ := (writeRun_afterWrites K (calls ++ [c])).1
  exact Runs.final_concat hrun

theorem writeReachable_afterWrites (K : Kernel) (calls : List WriteCall) :
    WriteReachable K (afterWrites K calls) := by
  obtain ⟨rets, hrun⟩ := (writeRun_afterWrites K calls).1
  exact ⟨calls, rets, hrun⟩

end

/-- The device is the bounded log folded over the accepted calls: a call which
goes through is accepted whole and any other one changes nothing, a line end
closes every command and none is pending, and the commands with the pending
bytes are the end of all that was accepted. -/
theorem write_run_refines_log (K : Kernel) (calls : List WriteCall) :
    ∃ s rets, writeRun K aesdInitModule calls = .ok (s, rets) ∧ rets.length = calls.length ∧
      deviceLog s = (acceptedData calls rets).foldl
        (LineLog.write newline maxWriteOperationsSupported) LineLog.empty ∧
      newline ∉ pending s ∧ (∀ x ∈ commands s, newline ∈ x) ∧
      (∃ evicted : List (List UInt8),
        (evicted ++ commands s).flatten ++ pending s = (acceptedData calls rets).flatten) ∧
      ∀ c : WriteCall, ∃ s' r, aesdWrite K s c = .ok (s', r) ∧
        (goesThrough K s c = true ∧ r = c.data.length ∧
            deviceLog s' = logWrite (deviceLog s) c.data ∨
          goesThrough K s c = false ∧ r < 0 ∧ s' = s) := by
  obtain ⟨s, rets, hrun, hlen, ⟨blocks, part, h⟩, hlog⟩ := writeRun_logs (holds_init K) calls
  rw [deviceLog_init] at hlog
  obtain ⟨⟨hp, hl⟩, hall⟩ := LineLog.foldl_write newline maxWriteOperationsSupported
    (acceptedData calls rets)
  change deviceLog s = (acceptedData calls rets).foldl
    (LineLog.write newline maxWriteOperationsSupported) LineLog.empty at hlog
  rw [← hlog] at hp hl hall
  refine ⟨s, rets, hrun, hlen, hlog, hp, hl, hall, ?_⟩
  intro c
  obtain ⟨s', r, hw, _, hr⟩ := aesdWrite_logs h c
  exact ⟨s', r, hw, hr⟩

end Aesd.CommandLog
