import Aesd.DriverInterleaving

/-!
# Every call in flight can return

Each step leaves a call with less to do, and a caller waits only for a lock
which another caller has. The holder of the lock never waits, so the calls
cannot block each other for good, whatever the schedule was before.
-/

set_option autoImplicit false

namespace Aesd.DriverProgress
open BlockHeap MachineInt Linearization Interleaving
open Aesd.CircularBuffer Aesd.KernelMemory Aesd.CharDriver Aesd.DriverInvariant Aesd.DriverWrite
open Aesd.DriverRuns Aesd.DriverAnswers Aesd.DriverStages Aesd.DriverInterleaving

def stepsLeft : Stage → ℕ
  | .outside => 0
  | .returning _ => 1
  | .freeing .. => 2
  | .unlocking .. => 3
  | .keeping .. | .adding .. => 4
  | .discarding .. => 5
  | .merging .. => 6
  | .combining .. => 7
  | .scanning .. => 8
  | .acquiring .. => 9
  | .copying .. => 10
  | .called (.write _) => 11
  | .reading _ _ r => 4+r.remainingCount
  | .called (.read c) => 5+c.count
  | .summing _ _ _ index _ => 4+(maxWriteOperationsSupported-index)
  | .called (.llseek ..) => 5+maxWriteOperationsSupported
  | .counting _ seekto i _ => 4+(seekto.writeCmd.toNat-i)
  | .checking _ seekto => 5+seekto.writeCmd.toNat
  | .called (.ioctl _ _ arg) => 6+(arg.map fun seekto => seekto.writeCmd.toNat).getD 0

def Ends (waits : Prop) (n : ℕ) (x : StageStep) : Prop :=
  ∀ y, x = .ok y → match y with
    | none => waits
    | some (_, l, _) => stepsLeft l < n

section
variable {waits : Prop} {n : ℕ} {s : DriverState} {l : Stage}

theorem ends_silently (h : stepsLeft l < n) : Ends waits n (silently s l) := by
  rintro _ ⟨⟩
  exact h

theorem ends_effect {c : DriverCall} {r : ReadResult} (h : stepsLeft l < n) :
    Ends waits n (takesEffect s c r l) := by
  rintro _ ⟨⟩
  exact h

theorem ends_bind {α : Type} {x : Except Fault α} {f : α → StageStep}
    (h : ∀ a, x = .ok a → Ends waits n (f a)) : Ends waits n (x >>= f) := by
  intro y hy
  cases hx : x with
  | error e =>
    rw [hx] at hy
    cases hy
  | ok a =>
    rw [hx] at hy
    exact h a hx y hy

theorem ends_lock (hw : s.dev.bufferLock = true → waits) (h : stepsLeft l < n) :
    Ends waits n (lockThen s l) := by
  rw [lockThen]
  split_ifs with hb
  · rintro _ ⟨⟩
    exact hw hb
  · exact ends_silently h

end

/-- Only a caller without the lock waits, and only for the lock. -/
def Waits (s : DriverState) (l : Stage) : Prop :=
  l = .outside ∨ s.dev.bufferLock = true ∧ l.locked = false

section
variable {ι : Type*} [DecidableEq ι] {K : Kernel} {g : Ghost ι} {s : DriverState} {i : ι}
variable {l : Stage}

theorem called_ends (c : DriverCall) :
    Ends (Waits s (.called c)) (stepsLeft (.called c)) (Stage.next K s (.called c)) := by
  have hlock : s.dev.bufferLock = true → Waits s (.called c) := fun h => .inr ⟨h, rfl⟩
  cases c with
  | write c =>
    rw [Stage.next]
    split_ifs
    · exact ends_effect (by simp [stepsLeft])
    · exact ends_effect (by simp [stepsLeft])
    · split
      · exact ends_effect (by simp [stepsLeft])
      · exact ends_silently (by simp [stepsLeft])
  | read c =>
    rw [Stage.next]
    split_ifs
    · exact ends_effect (by simp only [stepsLeft]; omega)
    · exact ends_effect (by simp only [stepsLeft]; omega)
    · exact ends_lock hlock (by simp only [stepsLeft, readStart]; omega)
  | llseek fPos offset whence =>
    exact ends_lock hlock (by simp only [stepsLeft]; omega)
  | ioctl fPos cmd arg =>
    rw [Stage.next.eq_def]
    dsimp only
    split_ifs
    · exact ends_effect (by simp only [stepsLeft]; omega)
    · cases arg with
      | none => exact ends_effect (by simp [stepsLeft])
      | some seekto => exact ends_lock hlock (by simp [stepsLeft])

theorem next_ends (hs : Shared K g s) (hl : Local K g i l) :
    Ends (Waits s l) (stepsLeft l) (Stage.next K s l) := by
  cases l with
  | outside =>
    rintro _ ⟨⟩
    exact .inl rfl
  | called c => exact called_ends c
  | copying c a =>
    rw [Stage.next]
    split_ifs
    · exact ends_effect (by simp [stepsLeft])
    · exact ends_bind fun _ _ => ends_silently (by simp [stepsLeft])
  | acquiring c a =>
    rw [Stage.next]
    split_ifs
    · exact ends_effect (by simp [stepsLeft])
    · exact ends_lock (fun h => .inr ⟨h, rfl⟩) (by simp [stepsLeft])
  | scanning c a =>
    rw [Stage.next]
    apply ends_bind
    intro bytes _
    dsimp only
    split_ifs <;> exact ends_silently (by simp [stepsLeft])
  | adding c a => exact ends_effect (by simp [stepsLeft])
  | combining c a b =>
    rw [Stage.next]
    split
    · apply ends_bind
      intro x _
      cases x with
      | none => exact ends_effect (by simp [stepsLeft])
      | some x => exact ends_silently (by simp [stepsLeft])
    · exact ends_silently (by simp [stepsLeft])
  | merging c a p n b =>
    exact ends_bind fun _ _ => ends_bind fun _ _ => ends_silently (by simp [stepsLeft])
  | discarding c a p n b => exact ends_bind fun _ _ => ends_silently (by simp [stepsLeft])
  | keeping c p n b => exact ends_effect (by simp [stepsLeft])
  | reading c faults r =>
    obtain ⟨hown, hcommon, htyped, harg, hint, hrem, fuel, hloop⟩ := hl.stands
    obtain ⟨turn, _, hhere, hless⟩ := reading_turn hs hcommon faults hrem
    rw [Stage.next, hhere, ok_bind]
    cases turn with
    | leaves r done => exact ends_effect (by simp only [stepsLeft]; omega)
    | goesOn r =>
      have hnext := hless r rfl
      exact ends_silently (by simp only [stepsLeft]; omega)
  | summing fPos offset whence index total =>
    rw [Stage.next]
    split_ifs
    · exact ends_silently (by simp only [stepsLeft]; omega)
    · exact ends_effect (by simp only [stepsLeft]; omega)
  | checking fPos seekto =>
    rw [Stage.next]
    split_ifs
    all_goals first
      | exact ends_effect (by simp only [stepsLeft]; omega)
      | exact ends_silently (by simp only [stepsLeft]; omega)
  | counting fPos seekto k newFpos =>
    rw [Stage.next]
    split_ifs
    · exact ends_silently (by simp only [stepsLeft]; omega)
    · exact ends_effect (by simp only [stepsLeft]; omega)
  | unlocking answer tmpBuf =>
    apply ends_bind
    intro dev _
    cases tmpBuf <;> exact ends_silently (by simp [stepsLeft])
  | freeing answer a => exact ends_bind fun _ _ => ends_silently (by simp [stepsLeft])
  | returning answer =>
    rintro _ ⟨⟩
    simp [stepsLeft]

theorem program_goOn (s : DriverState) (l : Stage) :
    driverProgram K s l .goOn = Stage.next K s l := by
  cases l <;> rfl

theorem driver_shortens (K : Kernel) :
    Shortens (driverProgram K) (Shared (ι := ι) K) (Local K) .goOn stepsLeft := by
  intro g s i l s' l' e hs hl hstep
  rw [program_goOn] at hstep
  exact next_ends hs hl _ hstep

theorem stepsLeft_zero : stepsLeft l = 0 ↔ l = .outside := by
  constructor
  · intro h
    rcases l with _ | c | _ | _ | _ | _ | _ | _ | _ | _ | _ | _ | _ | _ | _ | _ | _
    case called => cases c <;> simp [stepsLeft] at h
    all_goals simp [stepsLeft] at h ⊢
  · rintro rfl
    rfl

/-- The holder of the lock can go on, and without a holder everybody can. -/
theorem driver_unblocked (K : Kernel) :
    Unblocked (driverProgram K) (Shared (ι := ι) K) (Local K) .goOn stepsLeft := by
  rintro g c ⟨hs, hl⟩ ⟨i, hi⟩
  suffices hgo : ∃ j, c.locals j ≠ .outside ∧ ¬ Waits c.shared (c.locals j) by
    obtain ⟨j, hj, hwait⟩ := hgo
    rcases next_proceeds hs (hl j) with hnone | ⟨s, l, e, _, hstep, _⟩
    · exact absurd (next_ends hs (hl j) _ hnone) hwait
    · exact ⟨j, _, mt stepsLeft_zero.mp hj, by rw [program_goOn, hstep]⟩
  rw [ne_eq, stepsLeft_zero] at hi
  cases hholder : g.holder with
  | none =>
    have hfree : c.shared.dev.bufferLock = false := by rw [hs.dev, hholder]; rfl
    exact ⟨i, hi, by simp [Waits, hi, hfree]⟩
  | some j =>
    have hlocked := (hl j).holder.mpr hholder
    have hj : c.locals j ≠ .outside := by
      intro hout
      rw [hout] at hlocked
      cases hlocked
    exact ⟨j, hj, by simp [Waits, hj, hlocked]⟩

end

end Aesd.DriverProgress
