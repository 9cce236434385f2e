import Aesd.DriverOwnership
import Aesd.DriverSeek

/-!
# Runs of all file operations

Calls of the four operations come in any order, with any position and any
failures. The operations stop at an access outside a live block, at a second
`kfree` and at a lock which is not free, so a run which does not stop is safe.
-/

set_option autoImplicit false

namespace Aesd.DriverRuns
open BlockHeap
open Aesd.CircularBuffer Aesd.KernelMemory Aesd.CharDriver Aesd.DriverInvariant
open Aesd.DriverWrite Aesd.DriverOwnership Aesd.DriverRead Aesd.DriverSeek

inductive DriverCall where
  | write (c : WriteCall)
  | read (c : ReadCall)
  | llseek (fPos offset whence : ℤ)
  | ioctl (fPos : ℤ) (cmd : ℕ) (arg : Option AesdSeekto)

def DriverCall.Typed : DriverCall → Prop
  | .read c => c.fPos < 2^63 ∧ c.count < 2^64
  | _ => True

abbrev TypedCall := {c : DriverCall // c.Typed}

structure Reply where
  retval : ℤ
  fPos : ℤ
  deriving DecidableEq, Repr

def driverStep (K : Kernel) (s : DriverState) : DriverCall → Except Fault (DriverState × Reply)
  | .write c => do
    let (s, retval) ← aesdWrite K s c
    return (s, ⟨retval, c.fPos⟩)
  | .read c => do
    let (s, r) ← aesdRead s c
    return (s, ⟨r.retval, r.fPos⟩)
  | .llseek fPos offset whence => do
    let (s, fPos, retval) ← aesdLlseek s fPos offset whence
    return (s, ⟨retval, fPos⟩)
  | .ioctl fPos cmd arg => do
    let (s, fPos, retval) ← aesdUnlockedIoctl s fPos cmd arg
    return (s, ⟨retval, fPos⟩)

def driverRun (K : Kernel) :
    DriverState → List TypedCall → Except Fault (DriverState × List Reply) :=
  Runs.run fun s c => driverStep K s c.1

section
variable {K : Kernel} {s : DriverState} {blocks : List Block} {part : Option Block}

theorem aesdRead_cases (h : Holds K s blocks part) (c : ReadCall) (hpos : c.fPos < 2^63)
    (hcount : c.count < 2^64) :
    ∃ r : ReadResult, aesdRead s c = .ok (s, r) ∧
      (r.fPos = c.fPos ∨ 0 ≤ c.fPos ∧ ∃ n : ℕ, n ≤ (content s).length-c.fPos.toNat ∧
        r.fPos = c.fPos+n) := by
  cases hg : readEnters c with
  | false =>
    obtain ⟨r, _, hr⟩ := aesdRead_not_entered s c hg
    exact ⟨_, hr, .inl rfl⟩
  | true =>
    obtain ⟨n, buf, done, hr, hdel, _⟩ := aesdRead_entered h c hg hpos hcount
    have hnn : 0 ≤ c.fPos := by
      simp only [readEnters, Bool.and_eq_true, decide_eq_true_eq] at hg
      exact hg.1.1.2
    exact ⟨_, hr, .inr ⟨hnn, n, hdel.le.trans (min_le_right _ _), rfl⟩⟩

theorem ioctl_cases (h : Holds K s blocks part) (fPos : ℤ) (cmd : ℕ) (arg : Option AesdSeekto) :
    ∃ r, aesdUnlockedIoctl s fPos cmd arg = .ok (s, fPos, r) ∨
      ∃ p : ℕ, p < (content s).length ∧ aesdUnlockedIoctl s fPos cmd arg = .ok (s, p, r) := by
  by_cases ha : ∃ seekto, cmd = AESDCHAR_IOCSEEKTO ∧ arg = some seekto ∧
      Addresses s seekto.writeCmd.toNat seekto.writeCmdOffset.toNat
  · obtain ⟨seekto, rfl, rfl, ha⟩ := ha
    exact ⟨0, .inr ⟨_, position_lt ha, ioctl_accepts h fPos seekto ha⟩⟩
  · obtain ⟨r, _, hr⟩ := ioctl_refuses h fPos cmd arg
      (fun hcmd seekto harg hadd => ha ⟨seekto, hcmd, harg, hadd⟩)
    exact ⟨r, .inl hr⟩

theorem driverStep_holds (h : Holds K s blocks part) (c : DriverCall) (hc : c.Typed) :
    ∃ s' r, driverStep K s c = .ok (s', r) ∧ ∃ blocks part, Holds K s' blocks part := by
  cases c with
  | write c =>
    obtain ⟨s', r, hw, h', _⟩ := CommandLog.aesdWrite_logs h c
    exact ⟨s', ⟨r, c.fPos⟩, by simp [driverStep, hw], h'⟩
  | read c =>
    obtain ⟨r, hr, _⟩ := aesdRead_cases h c hc.1 hc.2
    exact ⟨s, ⟨r.retval, r.fPos⟩, by simp [driverStep, hr], blocks, part, h⟩
  | llseek fPos offset whence =>
    have hl := llseek_spec h fPos offset whence
    exact ⟨s, _, by rw [driverStep, hl]; rfl, blocks, part, h⟩
  | ioctl fPos cmd arg =>
    obtain ⟨r, hr | ⟨p, _, hr⟩⟩ := ioctl_cases h fPos cmd arg
    · exact ⟨s, ⟨r, fPos⟩, by simp [driverStep, hr], blocks, part, h⟩
    · exact ⟨s, ⟨r, p⟩, by simp [driverStep, hr], blocks, part, h⟩

theorem driverRun_holds (h : Holds K s blocks part) (calls : List TypedCall) :
    ∃ t replies, driverRun K s calls = .ok (t, replies) ∧ replies.length = calls.length ∧
      ∃ blocks part, Holds K t blocks part :=
  Runs.run_total (fun s => ∃ blocks part, Holds K s blocks part)
    (fun _ c ⟨_, _, h⟩ => driverStep_holds h c.1 c.2) ⟨blocks, part, h⟩ calls

end

/-- No run frees a block twice, reads or writes outside a live block or takes
the lock twice, unloading included. In every state reached the pointers are
distinct live blocks with their lengths recorded, and unused slots are zero. -/
theorem driver_run_safe (K : Kernel) (calls : List TypedCall) :
    ∃ s replies, driverRun K aesdInitModule calls = .ok (s, replies) ∧
      replies.length = calls.length ∧
      (pointers s).Nodup ∧
      (∀ e ∈ owned s, ∀ p, e.buffptr = some p →
        ∃ bytes, s.heap p = some bytes ∧ bytes.length = e.size) ∧
      (s.dev.partialSize = 0 ↔ s.dev.partialWrite = none) ∧
      (∀ i < maxWriteOperationsSupported,
        (∀ k < s.dev.buffer.count, s.dev.buffer.physical k ≠ i) →
          s.dev.buffer.slot i = zeroEntry) ∧
      ∃ t, aesdCleanupModule s = .ok t ∧ pointers t = [] := by
  obtain ⟨s, replies, hrun, hlen, blocks, part, h⟩ := driverRun_holds (holds_init K) calls
  obtain ⟨t, ht, hnull, _⟩ := cleanup_spec h
  exact ⟨s, replies, hrun, hlen, pointers_nodup h, fun e he p hp => owned_sizes h he hp,
    partialSize_zero h, fun i hi hu => slot_unused h.ring hi hu, t, ht, hnull⟩

end Aesd.DriverRuns
