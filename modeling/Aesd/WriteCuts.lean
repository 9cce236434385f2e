import Aesd.DriverSeek

/-!
# The cuts of a written string do not matter

A line may arrive whole, through the commit of a fresh block, or in pieces
which are accumulated first. As long as a line end is only ever the last byte
of a call, both are the same sequence of bytes to the log.
-/

set_option autoImplicit false

namespace Aesd.WriteCuts
open Aesd.CircularBuffer Aesd.KernelMemory Aesd.CharDriver Aesd.DriverInvariant
open Aesd.CommandLog Aesd.DriverRead Aesd.DriverSeek

def counts (calls : List WriteCall) : List ℤ := calls.map fun c => c.data.length

def written (calls : List WriteCall) : List UInt8 := (calls.map WriteCall.data).flatten

/-- Calls which have a line end only as the last byte of their data. -/
def CutAtLines (calls : List WriteCall) : Prop := ∀ c ∈ calls, newline ∉ c.data.dropLast

instance (calls : List WriteCall) : Decidable (CutAtLines calls) := by
  unfold CutAtLines
  infer_instance

theorem acceptedData_counts (calls : List WriteCall) :
    acceptedData calls (counts calls) = calls.map WriteCall.data := by
  induction calls with
  | nil => rfl
  | cons c calls ih =>
    simp only [acceptedData, counts, List.map_cons, List.zip_cons_cons] at ih ⊢
    rw [List.filterMap_cons, if_pos rfl, ih]

section
variable {K : Kernel} {s t t' : DriverState} {blocks blocks' : List Block}
  {part part' : Option Block}

theorem writeRun_bytes (h : Holds K s blocks part) {calls : List WriteCall}
    (hcut : CutAtLines calls) (hrun : writeRun K s calls = .ok (t, counts calls)) :
    (∃ blocks part, Holds K t blocks part) ∧
      deviceLog t = (written calls).foldl (fun l b => logWrite l [b]) (deviceLog s) := by
  obtain ⟨u, rets, hu, _, hh, hlog⟩ := writeRun_logs h calls
  rw [hrun] at hu
  obtain ⟨rfl, rfl⟩ := Prod.mk.inj (Except.ok.inj hu)
  refine ⟨hh, ?_⟩
  rw [hlog, acceptedData_counts]
  apply LineLog.foldl_write_elements
  intro w hw
  obtain ⟨c, hc, rfl⟩ := List.mem_map.mp hw
  exact hcut c hc

theorem queries_agree (h : Holds K t blocks part) (h' : Holds K t' blocks' part')
    (hc : commands t = commands t') :
    (∀ c : ReadCall, c.fPos < 2^63 → c.count < 2^64 →
      ∃ r, aesdRead t c = .ok (t, r) ∧ aesdRead t' c = .ok (t', r)) ∧
    (∀ fPos offset whence, ∃ r, aesdLlseek t fPos offset whence = .ok (t, r) ∧
      aesdLlseek t' fPos offset whence = .ok (t', r)) ∧
    ∀ fPos cmd arg, ∃ r, aesdUnlockedIoctl t fPos cmd arg = .ok (t, r) ∧
      aesdUnlockedIoctl t' fPos cmd arg = .ok (t', r) := by
  have hcontent : content t = content t' := by rw [content, content, hc]
  refine ⟨fun c hpos hcount => ?_, fun fPos offset whence => ?_, fun fPos cmd arg => ?_⟩
  · exact ⟨_, aesdRead_eq h c hpos hcount, by rw [aesdRead_eq h' c hpos hcount, hc]⟩
  · exact ⟨_, llseek_spec h fPos offset whence, by rw [llseek_spec h', hcontent]⟩
  · exact ⟨_, ioctl_eq h fPos cmd arg, by rw [ioctl_eq h', hc]⟩

end

/-- Two ways of cutting the same bytes into calls which all succeed leave the
same commands and the same pending bytes, so every later read, `llseek` and
ioctl gets the same reply; these leave the device as it is. -/
theorem cuts_agree {K : Kernel} {s : DriverState} (hs : WriteReachable K s)
    {calls calls' : List WriteCall} (hcut : CutAtLines calls) (hcut' : CutAtLines calls')
    (hbytes : written calls = written calls') {t t' : DriverState}
    (hrun : writeRun K s calls = .ok (t, counts calls))
    (hrun' : writeRun K s calls' = .ok (t', counts calls')) :
    commands t = commands t' ∧ pending t = pending t' ∧
    (∀ c : ReadCall, c.fPos < 2^63 → c.count < 2^64 →
      ∃ r, aesdRead t c = .ok (t, r) ∧ aesdRead t' c = .ok (t', r)) ∧
    (∀ fPos offset whence, ∃ r, aesdLlseek t fPos offset whence = .ok (t, r) ∧
      aesdLlseek t' fPos offset whence = .ok (t', r)) ∧
    ∀ fPos cmd arg, ∃ r, aesdUnlockedIoctl t fPos cmd arg = .ok (t, r) ∧
      aesdUnlockedIoctl t' fPos cmd arg = .ok (t', r) := by
  obtain ⟨blocks, part, h⟩ := hs.holds
  obtain ⟨⟨_, _, ht⟩, hlog⟩ := writeRun_bytes h hcut hrun
  obtain ⟨⟨_, _, ht'⟩, hlog'⟩ := writeRun_bytes h hcut' hrun'
  rw [hbytes, ← hlog'] at hlog
  obtain ⟨hc, hp⟩ := LineLog.Log.mk.inj hlog
  exact ⟨hc, hp, queries_agree ht ht' hc⟩

def threePieces : List WriteCall :=
  [{ data := [97], kmallocAt := some 1 },
    { data := [98,10], kmallocAt := some 2, kreallocAt := some 3 },
    { data := [99,100,10], kmallocAt := some 1 }]

theorem cuts_agree_two_lines :
    commands (afterWrites pageKernel twoLines) = commands (afterWrites pageKernel threePieces) ∧
      pending (afterWrites pageKernel twoLines) =
        pending (afterWrites pageKernel threePieces) := by
  have hrun (calls : List WriteCall)
      (hok : Runs.outputs (aesdWrite pageKernel) aesdInitModule calls = counts calls) :
      writeRun pageKernel aesdInitModule calls =
        .ok (afterWrites pageKernel calls, counts calls) := by
    obtain ⟨rets, hrets⟩ := (writeRun_afterWrites pageKernel calls).1
    rw [← hok, Runs.outputs_eq hrets]
    exact hrets
  have hagree := cuts_agree ⟨[], [], rfl⟩ (by decide) (by decide) (by decide)
    (hrun twoLines (by decide)) (hrun threePieces (by decide))
  exact ⟨hagree.1, hagree.2.1⟩

end Aesd.WriteCuts
