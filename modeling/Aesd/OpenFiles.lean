import Aesd.DriverRuns

/-!
# Open files and their positions

Any number of files are open on the device, each with its own `f_pos`, and
their calls interleave in any order. A call only moves the position of its own
file, but the end of the content which bounds it belongs to all of them.
-/

set_option autoImplicit false

namespace Aesd.OpenFiles
open BlockHeap MachineInt
open Aesd.CircularBuffer Aesd.KernelMemory Aesd.CharDriver Aesd.DriverInvariant
open Aesd.DriverWrite Aesd.CommandLog Aesd.DriverRead Aesd.DriverSeek Aesd.DriverRuns

/-- The device with the position of every file; a file not used so far stands
where `open` leaves it. -/
structure Files where
  driver : DriverState
  fPos : ℕ → ℤ

def opened : Files := ⟨aesdInitModule, fun _ => 0⟩

inductive FileOp where
  | write (c : WriteCall)
  | read (c : ReadCall)
  | llseek (offset whence : ℤ)
  | ioctl (cmd : ℕ) (arg : Option AesdSeekto)

def FileOp.call (fPos : ℤ) : FileOp → DriverCall
  | .write c => .write { c with fPos }
  | .read c => .read { c with fPos }
  | .llseek offset whence => .llseek fPos offset whence
  | .ioctl cmd arg => .ioctl fPos cmd arg

def FileOp.Typed : FileOp → Prop
  | .read c => c.count < 2^64
  | _ => True

structure FileCall where
  file : ℕ
  op : FileOp
  typed : op.Typed

def fileStep (K : Kernel) (S : Files) (c : FileCall) : Except Fault (Files × Reply) := do
  let (driver, reply) ← driverStep K S.driver (c.op.call (S.fPos c.file))
  return (⟨driver, Function.update S.fPos c.file reply.fPos⟩, reply)

def fileRun (K : Kernel) : Files → List FileCall → Except Fault (Files × List Reply) :=
  Runs.run (fileStep K)

def afterCalls (K : Kernel) : List FileCall → Files := Runs.final (fileStep K) opened

/-- The call commits, into a full ring, a command which is shorter than the
oldest one. -/
def shrinks (K : Kernel) (S : Files) (c : FileCall) : Bool :=
  match c.op with
  | .write w =>
    goesThrough K S.driver { w with fPos := S.fPos c.file } && S.driver.dev.buffer.full &&
    w.data.contains newline &&
    (pending S.driver ++ w.data).length < ((commands S.driver).headD []).length
  | _ => false

structure Positioned (K : Kernel) (S : Files) : Prop where
  holds : ∃ blocks part, Holds K S.driver blocks part
  range : ∀ f, 0 ≤ S.fPos f ∧ S.fPos f < 2^63

def Bounded (S : Files) : Prop := ∀ f, S.fPos f ≤ (content S.driver).length

section
variable {K : Kernel} {s : DriverState} {blocks : List Block} {part : Option Block}

theorem content_write (h : Holds K s blocks part) (c : WriteCall) :
    ∃ s' r, aesdWrite K s c = .ok (s', r) ∧ (∃ blocks part, Holds K s' blocks part) ∧
      ((goesThrough K s c && s.dev.buffer.full && c.data.contains newline &&
          (pending s ++ c.data).length < ((commands s).headD []).length) = false →
        (content s).length ≤ (content s').length) := by
  rcases aesdWrite_cases h c with ⟨_, r, _, hw⟩ | ⟨hg, hn, p, _, hw, h'⟩ | ⟨_, hn, p, _, hw, h'⟩
  · exact ⟨s, r, hw, ⟨_, _, h⟩, fun _ => le_rfl⟩
  · refine ⟨_, _, hw, ⟨_, _, h'⟩, fun hkeep => ?_⟩
    have hcount := length_commands h
    have hle := count_le h.ring
    rw [content, content, commands_eq h', Ring.map_rtake, List.map_append, ← commands_eq h,
      ← pending_eq h]
    change _ ≤
      ((commands s ++ [pending s ++ c.data]).rtake maxWriteOperationsSupported).flatten.length
    cases hf : s.dev.buffer.full with
    | false =>
      rw [Ring.rtake_of_length_le _ (by
        have := h.ring.inOffs_lt
        rw [count_open hf] at hcount
        rw [List.length_append, List.length_singleton]
        omega)]
      simp only [List.flatten_append, List.length_append]
      omega
    | true =>
      rw [count_full hf] at hcount
      rw [Ring.rtake_concat_full _ _ (by decide) hcount]
      simp only [hg, hf, List.contains_iff_mem.mpr hn, Bool.and_true, Bool.true_and,
        decide_eq_false_iff_not, Nat.not_lt] at hkeep
      cases hc : commands s with
      | nil => simp [hc] at hcount
      | cons x rest =>
        rw [hc, List.headD_cons] at hkeep
        simp only [List.tail_cons, List.flatten_cons, List.flatten_append, List.flatten_nil,
          List.append_nil, List.length_append] at hkeep ⊢
        omega
  · refine ⟨_, _, hw, ⟨_, _, h'⟩, fun _ => ?_⟩
    rw [content, content, commands_eq h', ← commands_eq h]

theorem moved_file {S : Files} (h : Positioned K S) (f : ℕ) (p : ℤ)
    (hp : p = S.fPos f ∨ 0 ≤ p ∧ p ≤ (content S.driver).length) :
    Positioned K ⟨S.driver, Function.update S.fPos f p⟩ ∧
      (Bounded S → Bounded ⟨S.driver, Function.update S.fPos f p⟩) := by
  obtain ⟨blocks, part, hh⟩ := h.holds
  have hlt := length_content_lt hh
  rcases hp with rfl | ⟨h0, hle⟩
  · rw [Function.update_eq_self]
    exact ⟨h, id⟩
  · refine ⟨⟨h.holds, fun g => ?_⟩, fun hb g => ?_⟩
    · by_cases hg : g = f
      · subst hg
        simp only [Function.update_self]
        omega
      · simpa only [Function.update_of_ne hg] using h.range g
    · by_cases hg : g = f
      · subst hg
        simpa only [Function.update_self] using hle
      · simpa only [Function.update_of_ne hg] using hb g

theorem read_position (h : Holds K s blocks part) (c : ReadCall) (hpos : c.fPos < 2^63)
    (hcount : c.count < 2^64) :
    ∃ r : ReadResult, aesdRead s c = .ok (s, r) ∧
      (r.fPos = c.fPos ∨ 0 ≤ r.fPos ∧ r.fPos ≤ (content s).length) := by
  obtain ⟨r, hr, hp | ⟨h0, n, hn, hp⟩⟩ := aesdRead_cases h c hpos hcount
  · exact ⟨r, hr, .inl hp⟩
  · refine ⟨r, hr, ?_⟩
    by_cases hz : n = 0
    · exact .inl (by simpa [hz] using hp)
    · exact .inr (by omega)

theorem llseek_position (h : Holds K s blocks part) (fPos offset whence : ℤ) :
    ∃ p r, aesdLlseek s fPos offset whence = .ok (s, p, r) ∧
      (p = fPos ∨ 0 ≤ p ∧ p ≤ (content s).length) := by
  rw [llseek_spec h]
  cases seekTarget (content s).length fPos offset whence with
  | none => exact ⟨fPos, -EINVAL, rfl, .inl rfl⟩
  | some p =>
    by_cases hp : p < 0 ∨ p > (content s).length
    · exact ⟨fPos, -EINVAL, by simp only [if_pos hp], .inl rfl⟩
    · exact ⟨p, p, by simp only [if_neg hp], .inr (by omega)⟩

theorem fileStep_spec {S : Files} (h : Positioned K S) (c : FileCall) :
    ∃ S' r, fileStep K S c = .ok (S', r) ∧ Positioned K S' ∧
      (Bounded S → shrinks K S c = false → Bounded S') := by
  obtain ⟨blocks, part, hh⟩ := h.holds
  obtain ⟨file, op, htyped⟩ := c
  have hrange := h.range file
  cases op with
  | write w =>
    obtain ⟨s', r, hw, h', hkeep⟩ := content_write hh { w with fPos := S.fPos file }
    refine ⟨⟨s', S.fPos⟩, ⟨r, S.fPos file⟩, ?_, ⟨h', h.range⟩, ?_⟩
    · simp [fileStep, FileOp.call, driverStep, hw]
    · intro hb hs f
      exact (hb f).trans (by exact_mod_cast hkeep hs)
  | read c =>
    obtain ⟨r, hr, hp⟩ := read_position hh { c with fPos := S.fPos file } hrange.2 htyped
    obtain ⟨h', hb'⟩ := moved_file h file r.fPos hp
    exact ⟨_, ⟨r.retval, r.fPos⟩, by simp [fileStep, FileOp.call, driverStep, hr], h',
      fun hb _ => hb' hb⟩
  | llseek offset whence =>
    obtain ⟨p, r, hl, hp⟩ := llseek_position hh (S.fPos file) offset whence
    obtain ⟨h', hb'⟩ := moved_file h file p hp
    exact ⟨_, ⟨r, p⟩, by simp [fileStep, FileOp.call, driverStep, hl], h', fun hb _ => hb' hb⟩
  | ioctl cmd arg =>
    obtain ⟨r, hr | ⟨p, hlt, hr⟩⟩ := ioctl_cases hh (S.fPos file) cmd arg
    · obtain ⟨h', hb'⟩ := moved_file h file (S.fPos file) (.inl rfl)
      exact ⟨_, ⟨r, S.fPos file⟩, by simp [fileStep, FileOp.call, driverStep, hr], h',
        fun hb _ => hb' hb⟩
    · obtain ⟨h', hb'⟩ := moved_file h file p (.inr (by omega))
      exact ⟨_, ⟨r, p⟩, by simp [fileStep, FileOp.call, driverStep, hr], h', fun hb _ => hb' hb⟩

theorem llseek_current {S : Files} (h : Positioned K S) (f : ℕ) :
    aesdLlseek S.driver (S.fPos f) 0 SEEK_CUR = .ok (S.driver, S.fPos f,
      if S.fPos f ≤ (content S.driver).length then S.fPos f else -EINVAL) := by
  obtain ⟨blocks, part, hh⟩ := h.holds
  obtain ⟨h0, hlt⟩ := h.range f
  have htarget : seekTarget (content S.driver).length (S.fPos f) 0 SEEK_CUR = some (S.fPos f) := by
    rw [seekTarget, if_neg (by decide), if_pos rfl, Int.add_zero, wrapS64_of_mem (by omega) hlt]
  rw [llseek_spec hh, htarget]
  by_cases hle : S.fPos f ≤ (content S.driver).length
  · rw [if_pos hle]
    simp only [if_neg (show ¬ (S.fPos f < 0 ∨ S.fPos f > (content S.driver).length) by omega)]
  · rw [if_neg hle]
    simp only [if_pos (show S.fPos f < 0 ∨ S.fPos f > (content S.driver).length by omega)]

theorem positioned_opened (K : Kernel) : Positioned K opened :=
  ⟨⟨[], none, holds_init K⟩, fun _ => ⟨le_rfl, show (0:ℤ) < 2^63 by decide⟩⟩

theorem bounded_opened : Bounded opened := fun _ => Int.natCast_nonneg _

theorem fileRun_positioned (K : Kernel) (calls : List FileCall) :
    (∃ replies, fileRun K opened calls = .ok (afterCalls K calls, replies)) ∧
      Positioned K (afterCalls K calls) :=
  Runs.run_final (Positioned K)
    (fun S c h => by
      obtain ⟨S', r, hstep, h', _⟩ := fileStep_spec h c
      exact ⟨S', r, hstep, h'⟩)
    (positioned_opened K) calls

end

/-- In every state reached each position is at least 0, and asking for it with
`SEEK_CUR` succeeds exactly when it is not behind the end of the content. It is
never behind in a run which never replaces the oldest command by a shorter one. -/
theorem file_positions (K : Kernel) (calls : List FileCall) :
    (∃ replies, fileRun K opened calls = .ok (afterCalls K calls, replies)) ∧
    (∀ f, 0 ≤ (afterCalls K calls).fPos f ∧
      aesdLlseek (afterCalls K calls).driver ((afterCalls K calls).fPos f) 0 SEEK_CUR =
        .ok ((afterCalls K calls).driver, (afterCalls K calls).fPos f,
          if (afterCalls K calls).fPos f ≤ (content (afterCalls K calls).driver).length then
            (afterCalls K calls).fPos f else -EINVAL)) ∧
    ((∀ pre c, pre ++ [c] <+: calls → shrinks K (afterCalls K pre) c = false) →
      ∀ f, (afterCalls K calls).fPos f ≤ (content (afterCalls K calls).driver).length) := by
  obtain ⟨hrun, h⟩ := fileRun_positioned K calls
  refine ⟨hrun, fun f => ⟨(h.range f).1, llseek_current h f⟩, ?_⟩
  intro hno
  exact Runs.final_guarded (Positioned K) Bounded (fun S c => shrinks K S c = false)
    (fun S c h => fileStep_spec h c) (positioned_opened K) bounded_opened calls hno

def shorterCommand : List FileCall :=
  ((List.range 10).map fun i =>
    ⟨1, .write { data := [97,98,10], kmallocAt := some (i+1) }, trivial⟩) ++
  [⟨0, .llseek 0 SEEK_END, trivial⟩, ⟨1, .write { data := [10], kmallocAt := some 11 }, trivial⟩]

theorem position_behind_end :
    (afterCalls pageKernel shorterCommand).fPos 0 = 30 ∧
      (content (afterCalls pageKernel shorterCommand).driver).length = 28 ∧
      aesdLlseek (afterCalls pageKernel shorterCommand).driver 30 0 SEEK_CUR =
        .ok ((afterCalls pageKernel shorterCommand).driver, 30, -EINVAL) := by
  have hpos : (afterCalls pageKernel shorterCommand).fPos 0 = 30 := by decide +kernel
  have hlen : (content (afterCalls pageKernel shorterCommand).driver).length = 28 := by
    decide +kernel
  have hseek := llseek_current (fileRun_positioned pageKernel shorterCommand).2 0
  rw [hpos, hlen] at hseek
  exact ⟨hpos, hlen, hseek⟩

end Aesd.OpenFiles
