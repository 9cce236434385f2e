import Aesd.OpenFiles
import Aesd.ReadFailures

/-!
# Reading while commands are committed and evicted

Every byte ever committed has a number, its place in the stream of all
commands. The position of an open file counts from the oldest command which is
retained, so each eviction shifts what it points at. The state carries the
unbounded log as a ghost; its evicted bytes turn a position into a number.
-/

set_option autoImplicit false

namespace Aesd.ReadNumbers
open BlockHeap
open Aesd.CircularBuffer Aesd.KernelMemory Aesd.CharDriver Aesd.DriverInvariant
open Aesd.DriverWrite Aesd.CommandLog Aesd.DriverRead Aesd.OpenFiles Aesd.ReadFailures

/-- The device, `f_pos` of one open file and, as a ghost, every command ever
committed with the pending bytes. -/
structure Reader where
  driver : DriverState
  fPos : ℤ
  log : LineLog.Log UInt8

def readerOpened : Reader := ⟨aesdInitModule, 0, LineLog.empty⟩

inductive ReaderCall where
  | write (c : WriteCall)
  | read (c : ReadCall) (typed : c.count < 2^64)

inductive Answer where
  | wrote (retval : ℤ)
  | read (r : ReadResult)

def readerStep (K : Kernel) (S : Reader) : ReaderCall → Except Fault (Reader × Answer)
  | .write c => do
    let (driver, retval) ← aesdWrite K S.driver c
    let log := if retval = c.data.length then LineLog.record newline S.log c.data else S.log
    return (⟨driver, S.fPos, log⟩, .wrote retval)
  | .read c _ => do
    let (driver, r) ← aesdRead S.driver { c with fPos := S.fPos }
    return (⟨driver, r.fPos, S.log⟩, .read r)

def readerRun (K : Kernel) : Reader → List ReaderCall → Except Fault (Reader × List Answer) :=
  Runs.run (readerStep K)

def afterReader (K : Kernel) : List ReaderCall → Reader := Runs.final (readerStep K) readerOpened

def Reader.stream (S : Reader) : List UInt8 := S.log.lines.flatten

/-- The total size of the commands evicted so far. -/
def Reader.evicted (S : Reader) : ℕ := S.log.evicted maxWriteOperationsSupported

def Reader.number (S : Reader) : ℕ := S.evicted+S.fPos.toNat

def returned (K : Kernel) (S : Reader) (c : ReaderCall) : List UInt8 :=
  match readerStep K S c with
  | .ok (_, .read r) => r.buf.take r.retval.toNat
  | _ => []

def SkipsAt (S : Reader) : ReaderCall → Prop
  | .write _ => False
  | .read c _ => Skips S.driver { c with fPos := S.fPos }

def writable : ReaderCall → Bool
  | .write _ => true
  | .read c _ => c.copyFaults.all Option.isNone && c.count ≤ c.buf.length

theorem not_skipsAt (S : Reader) {c : ReaderCall} (h : writable c = true) : ¬ SkipsAt S c := by
  cases c with
  | write c => exact id
  | read c hc =>
    simp only [writable, Bool.and_eq_true, List.all_eq_true, Option.isNone_iff_eq_none,
      decide_eq_true_eq] at h
    exact not_skips h.1 h.2

theorem returned_write (K : Kernel) (S : Reader) (c : WriteCall) :
    returned K S (.write c) = [] := by
  rw [returned, readerStep]
  cases aesdWrite K S.driver c <;> rfl

structure Numbered (K : Kernel) (S : Reader) : Prop where
  holds : ∃ blocks part, Holds K S.driver blocks part
  log : deviceLog S.driver = S.log.retain maxWriteOperationsSupported
  range : 0 ≤ S.fPos ∧ S.fPos < 2^63

theorem take_drop_prefix {x y w : List UInt8} {k : ℕ} (h : x <+: y)
    (hw : w = (x.drop k).take w.length) : w = (y.drop k).take w.length := by
  obtain ⟨u, hu⟩ := h.drop k
  have hlen := congrArg List.length hw
  rw [List.length_take] at hlen
  rw [← hu, List.take_append_of_le_length (by omega)]
  exact hw

section
variable {K : Kernel} {S : Reader}

theorem commands_retained (h : Numbered K S) :
    commands S.driver = S.log.lines.rtake maxWriteOperationsSupported :=
  congrArg LineLog.Log.lines h.log

theorem content_stream (h : Numbered K S) : content S.driver = S.stream.drop S.evicted := by
  rw [content, commands_retained h]
  exact LineLog.retain_flatten _ _

theorem write_numbered (h : Numbered K S) (c : WriteCall) :
    ∃ S' retval, readerStep K S (.write c) = .ok (S', .wrote retval) ∧ Numbered K S' ∧
      S.log.lines <+: S'.log.lines ∧ S'.fPos = S.fPos := by
  obtain ⟨blocks, part, hh⟩ := h.holds
  obtain ⟨s', r, hw, h', ⟨_, rfl, hlog⟩ | ⟨_, hr, rfl⟩⟩ := aesdWrite_logs hh c
  · refine ⟨⟨s', S.fPos, LineLog.record newline S.log c.data⟩, c.data.length,
      by simp [readerStep, hw], ⟨h', ?_, h.range⟩, LineLog.lines_record _ _ _, rfl⟩
    rw [hlog, h.log, logWrite, LineLog.write_retain]
  · have hne : r ≠ c.data.length := by omega
    exact ⟨S, r, by simp [readerStep, hw, hne], h, List.prefix_refl _, rfl⟩

theorem read_numbered (h : Numbered K S) (c : ReadCall) (hc : c.count < 2^64) :
    ∃ r, readerStep K S (.read c hc) = .ok (⟨S.driver, r.fPos, S.log⟩, .read r) ∧
      Numbered K ⟨S.driver, r.fPos, S.log⟩ ∧
      (¬ Skips S.driver { c with fPos := S.fPos } →
        Kept S.driver { c with fPos := S.fPos } S.driver r) := by
  obtain ⟨blocks, part, hh⟩ := h.holds
  have hread := aesdRead_eq hh { c with fPos := S.fPos } h.range.2 hc
  obtain ⟨r, hr, hpos⟩ := read_position hh { c with fPos := S.fPos } h.range.2 hc
  have hreply := hr
  rw [hread] at hreply
  obtain ⟨_, rfl⟩ := Prod.mk.inj (Except.ok.inj hreply)
  have hlt := length_content_lt hh
  refine ⟨_, by simp [readerStep, hr], ⟨h.holds, h.log, ?_⟩, (kept_iff _ _).mpr⟩
  rcases hpos with hpos | hpos
  · rw [hpos]
    exact h.range
  · dsimp only
    omega

theorem readerStep_spec (h : Numbered K S) (c : ReaderCall) :
    ∃ S' a, readerStep K S c = .ok (S', a) ∧ Numbered K S' ∧ S.log.lines <+: S'.log.lines ∧
      (¬ SkipsAt S c → S'.fPos = S.fPos+(returned K S c).length ∧
        returned K S c = (S.stream.drop S.number).take (returned K S c).length) := by
  cases c with
  | write c =>
    obtain ⟨S', retval, hstep, h', hlines, hpos⟩ := write_numbered h c
    exact ⟨S', .wrote retval, hstep, h', hlines, fun _ => by simp [returned, hstep, hpos]⟩
  | read c hc =>
    obtain ⟨r, hstep, h', hkept⟩ := read_numbered h c hc
    refine ⟨_, _, hstep, h', List.prefix_refl _, fun hno => ?_⟩
    have hret : returned K S (.read c hc) = r.buf.take r.retval.toNat := by
      simp only [returned, hstep]
    rw [hret]
    by_cases hneg : r.retval < 0
    · have hpos := ((hkept hno).failed hneg).2
      simp [show r.retval.toNat = 0 by omega, hpos]
    · obtain ⟨hpos, _, hlen, hbuf⟩ := (hkept hno).delivered r.retval.toNat (by omega)
      rw [hbuf, List.take_left' hlen, hlen]
      refine ⟨hpos, ?_⟩
      rw [content_stream h, List.drop_drop]
      rfl

theorem numbered_opened (K : Kernel) : Numbered K readerOpened where
  holds := ⟨[], none, holds_init K⟩
  log := by
    rw [readerOpened, deviceLog_init]
    simp [LineLog.empty, LineLog.Log.retain]
  range := ⟨le_rfl, show (0:ℤ) < 2^63 by decide⟩

theorem readerRun_numbered (K : Kernel) (calls : List ReaderCall) :
    (∃ answers, readerRun K readerOpened calls = .ok (afterReader K calls, answers)) ∧
      Numbered K (afterReader K calls) :=
  Runs.run_final (Numbered K)
    (fun S c h => by
      obtain ⟨S', a, hstep, h', _⟩ := readerStep_spec h c
      exact ⟨S', a, hstep, h'⟩)
    (numbered_opened K) calls

theorem afterReader_concat (K : Kernel) (calls : List ReaderCall) (c : ReaderCall) :
    (afterReader K calls).log.lines <+: (afterReader K (calls ++ [c])).log.lines ∧
      (¬ SkipsAt (afterReader K calls) c →
        (afterReader K (calls ++ [c])).fPos =
          (afterReader K calls).fPos+(returned K (afterReader K calls) c).length) := by
  obtain ⟨S', a, hstep, _, hlines, hpos⟩ := readerStep_spec (readerRun_numbered K calls).2 c
  obtain ⟨answers, hrun⟩ := (readerRun_numbered K (calls ++ [c])).1
  obtain ⟨a', hlast⟩ := Runs.final_concat hrun
  obtain ⟨rfl, _⟩ := Prod.mk.inj (Except.ok.inj (hstep.symm.trans hlast))
  exact ⟨hlines, fun hno => (hpos hno).1⟩

theorem lines_grow (K : Kernel) (pre post : List ReaderCall) :
    (afterReader K pre).log.lines <+: (afterReader K (pre ++ post)).log.lines := by
  induction post using List.reverseRecOn with
  | nil => rw [List.append_nil]
  | append_singleton post c ih =>
    rw [← List.append_assoc]
    exact ih.trans (afterReader_concat K _ c).1

theorem position_after (K : Kernel) (pre mid : List ReaderCall)
    (hno : ∀ ms d, ms ++ [d] <+: mid → ¬ SkipsAt (afterReader K (pre ++ ms)) d) :
    (afterReader K pre).fPos ≤ (afterReader K (pre ++ mid)).fPos ∧
      ((∀ ms d, ms ++ [d] <+: mid → returned K (afterReader K (pre ++ ms)) d = []) →
        (afterReader K (pre ++ mid)).fPos = (afterReader K pre).fPos) := by
  induction mid using List.reverseRecOn with
  | nil => rw [List.append_nil]; exact ⟨le_rfl, fun _ => rfl⟩
  | append_singleton mid d ih =>
    obtain ⟨hle, heq⟩ := ih fun ms d hd => hno ms d (hd.trans (List.prefix_append _ _))
    have hlast := (afterReader_concat K (pre ++ mid) d).2 (hno mid d (List.prefix_refl _))
    rw [List.append_assoc] at hlast
    refine ⟨by omega, fun hempty => ?_⟩
    rw [hlast, hempty mid d (List.prefix_refl _),
      heq fun ms d hd => hempty ms d (hd.trans (List.prefix_append _ _))]
    simp

end

/-- In a run whose reads do not fail behind their first copy, the bytes a call
returns are those which the stream has under consecutive numbers, from the
number at the position of the file on. A later call starts behind them; if
nothing is returned in between, exactly the evicted bytes behind them. -/
theorem reads_follow_stream (K : Kernel) (calls : List ReaderCall)
    (hno : ∀ pre c, pre ++ [c] <+: calls → ¬ SkipsAt (afterReader K pre) c) :
    (∃ answers, readerRun K readerOpened calls = .ok (afterReader K calls, answers)) ∧
    (∀ pre, pre <+: calls →
      commands (afterReader K pre).driver =
        (afterReader K pre).log.lines.rtake maxWriteOperationsSupported ∧
      (afterReader K pre).log.lines <+: (afterReader K calls).log.lines) ∧
    (∀ pre c, pre ++ [c] <+: calls →
      let S := afterReader K pre
      returned K S c =
        ((afterReader K calls).stream.drop S.number).take (returned K S c).length) ∧
    ∀ pre c mid, pre ++ [c] ++ mid <+: calls →
      let S := afterReader K pre
      let T := afterReader K (pre ++ [c] ++ mid)
      S.number+(returned K S c).length ≤ T.number ∧ S.evicted ≤ T.evicted ∧
      ((∀ ms d, ms ++ [d] <+: mid → returned K (afterReader K (pre ++ [c] ++ ms)) d = []) →
        T.number = S.number+(returned K S c).length+(T.evicted-S.evicted)) := by
  refine ⟨(readerRun_numbered K calls).1, ?_, ?_, ?_⟩
  · rintro pre ⟨post, rfl⟩
    exact ⟨commands_retained (readerRun_numbered K pre).2, lines_grow K pre post⟩
  · intro pre c hpre
    obtain ⟨post, rfl⟩ := (List.prefix_append pre [c]).trans hpre
    obtain ⟨_, _, _, _, _, hbytes⟩ := readerStep_spec (readerRun_numbered K pre).2 c
    exact take_drop_prefix (lines_grow K pre post).flatten (hbytes (hno pre c hpre)).2
  · intro pre c mid hpre
    have hS := (readerRun_numbered K pre).2.range
    have hlast := (afterReader_concat K pre c).2
      (hno pre c ((List.prefix_append _ _).trans hpre))
    have hT := (readerRun_numbered K (pre ++ [c] ++ mid)).2.range
    obtain ⟨hle, heq⟩ := position_after K (pre ++ [c]) mid fun ms d hd =>
      hno (pre ++ [c] ++ ms) d (by
        rw [List.append_assoc]
        exact ((List.prefix_append_right_inj _).mpr hd).trans hpre)
    have hevicted : (afterReader K pre).evicted ≤ (afterReader K (pre ++ [c] ++ mid)).evicted := by
      have hlines := lines_grow K pre ([c] ++ mid)
      rw [← List.append_assoc] at hlines
      exact LineLog.evicted_mono hlines _
    dsimp only [Reader.number]
    refine ⟨by omega, hevicted, fun hempty => ?_⟩
    have hpos := heq hempty
    omega

def tenLinesRead : List ReaderCall :=
  ((List.range 10).map fun i => .write { data := [97,10], kmallocAt := some i }) ++
  [.read { fPos := 0, buf := [0,0,0], count := 3 } (by decide)]

def eleventhLine : ReaderCall := .write { data := [98,99,10], kmallocAt := some 10 }

theorem reads_follow_stream_eleven_lines :
    (afterReader pageKernel (tenLinesRead ++ [eleventhLine])).number =
      (afterReader pageKernel (tenLinesRead.take 10)).number+3+2 := by
  have hwritable : ∀ c ∈ tenLinesRead ++ [eleventhLine], writable c = true :=
    List.all_eq_true.mp (by decide)
  obtain ⟨_, _, _, hjump⟩ := reads_follow_stream pageKernel (tenLinesRead ++ [eleventhLine])
    fun pre c hpre => not_skipsAt _ (hwritable c (hpre.subset (by simp)))
  obtain ⟨_, _, hnumber⟩ := hjump (tenLinesRead.take 10)
    (.read { fPos := 0, buf := [0,0,0], count := 3 } (by decide)) [eleventhLine]
    (List.prefix_refl _)
  have hafter := hnumber fun ms d hd => by
    obtain rfl : d = eleventhLine := List.mem_singleton.mp (hd.subset (by simp))
    exact returned_write _ _ _
  have hreturned : (returned pageKernel (afterReader pageKernel (tenLinesRead.take 10))
      (.read { fPos := 0, buf := [0,0,0], count := 3 } (by decide))).length = 3 := by
    decide +kernel
  have hevicted : (afterReader pageKernel (tenLinesRead ++ [eleventhLine])).evicted-
      (afterReader pageKernel (tenLinesRead.take 10)).evicted = 2 := by decide +kernel
  rw [hreturned] at hafter
  exact hafter.trans (congrArg _ hevicted)

/-- Three lines, a read of the first one, then one of six bytes into a memory
of three, and another one. -/
def faultingReader : List ReaderCall :=
  twoLines.map .write ++
  [.write { data := [101,102,10], kmallocAt := some 3 },
    .read { fPos := 0, buf := [0,0,0], count := 3 } (by decide),
    .read { fPos := 0, buf := [0,0,0], count := 6 } (by decide)]

def lastLine : ReaderCall := .read { fPos := 0, buf := [0,0,0], count := 3 } (by decide)

theorem failed_read_skips_line :
    (afterReader pageKernel (faultingReader.take 4)).number = 3 ∧
      returned pageKernel (afterReader pageKernel (faultingReader.take 4))
        (.read { fPos := 0, buf := [0,0,0], count := 6 } (by decide)) = [] ∧
      (afterReader pageKernel faultingReader).evicted = 0 ∧
      (afterReader pageKernel faultingReader).number = 6 ∧
      returned pageKernel (afterReader pageKernel faultingReader) lastLine = [101,102,10] := by
  decide +kernel

end Aesd.ReadNumbers
