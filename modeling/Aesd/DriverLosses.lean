import Aesd.DriverLeak
import Aesd.DriverLinearization

/-!
# How many blocks are lost

A block which is live and has no owner was that of a command which a later one
has overwritten. The account is exact: in every run as many blocks are lost as
commands were committed beyond the ten which the ring retains, and no failure
adds to them or hides one.
-/

set_option autoImplicit false

namespace Aesd.DriverLosses
open BlockHeap Ring
open Aesd.CircularBuffer Aesd.KernelMemory Aesd.CharDriver Aesd.DriverInvariant
open Aesd.DriverWrite Aesd.DriverOwnership Aesd.CommandLog Aesd.DriverLeak
open Aesd.DriverRead Aesd.DriverSeek Aesd.DriverRuns Aesd.DriverAnswers Aesd.DriverLinearization

/-- Every live block has an owner or is one of those lost. -/
structure Accounted (s : DriverState) (lost : List Addr) : Prop where
  nodup : lost.Nodup
  unowned : ∀ a ∈ lost, a ∉ pointers s
  live : ∀ a, Live s.heap a ↔ a ∈ pointers s ∨ a ∈ lost

section
variable {K : Kernel} {s : DriverState} {blocks : List Block} {part : Option Block}
variable {lost : List Addr}

theorem live_released (h : Holds K s blocks part) (ha : Accounted s lost) (a : Addr) :
    Live (released s) a ↔ a ∈ blocks.map Prod.fst ∨ a ∈ lost := by
  constructor
  · intro hlive
    have hold : Live s.heap a := by
      cases hp : s.dev.partialWrite with
      | none => simpa [released, hp] using hlive
      | some p =>
        by_cases hap : a = p
        · simp [released, hp, hap, Live] at hlive
        · simpa [released, hp, Live, erase_other _ hap] using hlive
    rcases (ha.live a).mp hold with hown | hlost
    · obtain ⟨x, hx, rfl⟩ := (mem_pointers h).mp hown
      rcases List.mem_append.mp hx with hx | hx
      · have hpart : part = some x := by simpa using hx
        have hpw : s.dev.partialWrite = some x.1 := by rw [h.partialWrite, hpart]; rfl
        simp [released, hpw, Live] at hlive
      · exact .inl (List.mem_map_of_mem hx)
    · exact .inr hlost
  · rintro (hmem | hlost)
    · obtain ⟨x, hx, rfl⟩ := List.mem_map.mp hmem
      simp [Live, released_block h hx]
    · have hlive : Live s.heap a := (ha.live a).mpr (.inr hlost)
      have hnot := ha.unowned a hlost
      cases hp : s.dev.partialWrite with
      | none => simpa [released, hp] using hlive
      | some p =>
        have hap : a ≠ p := by
          rintro rfl
          exact hnot (by rw [pointers_eq, hp]; simp)
        simpa [released, hp, Live, erase_other _ hap] using hlive

theorem stored_accounted (h : Holds K s blocks part) (ha : Accounted s lost) {p : Addr}
    (hp : released s p = none) {bytes : List UInt8} {b : Bool} {blocks' : List Block}
    {part' : Option Block} (h' : Holds K (stored s p bytes b) blocks' part') (gone : List Block)
    (hperm : (gone ++ (part'.toList ++ blocks')).Perm (blocks ++ [(p, bytes)])) :
    Accounted (stored s p bytes b) (gone.map Prod.fst ++ lost) := by
  have hfst := hperm.map Prod.fst
  rw [List.map_append] at hfst
  have hnodup := hfst.nodup_iff.mpr (stored_blocks h hp bytes b).2
  obtain ⟨hgone, _, hapart⟩ := List.nodup_append.mp hnodup
  have hnew (a : Addr) (hmem : a ∈ lost) : a ∉ (blocks ++ [(p, bytes)]).map Prod.fst := by
    rw [List.map_append, List.mem_append, not_or]
    have hlive : Live (released s) a := (live_released h ha a).mpr (.inr hmem)
    constructor
    · intro hblocks
      obtain ⟨x, hx, rfl⟩ := List.mem_map.mp hblocks
      exact ha.unowned _ hmem ((mem_pointers h).mpr ⟨x, List.mem_append_right _ hx, rfl⟩)
    · simp only [List.map_cons, List.map_nil, List.mem_singleton]
      rintro rfl
      exact hlive hp
  have hpointers (a : Addr) : a ∈ pointers (stored s p bytes b) ↔
      a ∈ (part'.toList ++ blocks').map Prod.fst := by
    rw [mem_pointers h', List.mem_map]
  refine ⟨?_, ?_, ?_⟩
  · rw [List.nodup_append]
    refine ⟨hgone, ha.nodup, ?_⟩
    rintro a hg _ hl rfl
    exact hnew a hl (hfst.subset (List.mem_append_left _ hg))
  · intro a hmem
    rw [hpointers]
    intro hown
    rcases List.mem_append.mp hmem with hg | hl
    · exact hapart a hg a hown rfl
    · exact hnew a hl (hfst.subset (List.mem_append_right _ hown))
  · intro a
    have hsplit : Live (stored s p bytes b).heap a ↔ a = p ∨ Live (released s) a := by
      by_cases hap : a = p
      · simp [stored, Live, hap]
      · simp [stored, Live, hap]
    have hmem : a ∈ gone.map Prod.fst ∨ a ∈ (part'.toList ++ blocks').map Prod.fst ↔
        a ∈ blocks.map Prod.fst ∨ a = p := by
      rw [← List.mem_append, hfst.mem_iff]
      simp
    rw [hsplit, live_released h ha, hpointers, List.mem_append, or_left_comm, ← or_assoc, ← hmem,
      or_assoc, or_left_comm]

/-- A write which evicts a command loses its block, and no other write loses any. -/
theorem write_accounted (h : Holds K s blocks part) (ha : Accounted s lost) (c : WriteCall) :
    ∃ s' r, aesdWrite K s c = .ok (s', r) ∧ ∃ gone : List Addr,
      gone.length = (evicts K s c).toNat ∧ Accounted s' (gone ++ lost) := by
  rcases aesdWrite_cases h c with ⟨hg, r, _, hw⟩ | ⟨hg, hn, p, hp, hw, h'⟩ |
    ⟨hg, hn, p, hp, hw, h'⟩
  · exact ⟨s, r, hw, [], by simp [evicts, hg], ha⟩
  · refine ⟨_, _, hw, ?_⟩
    have hevicts : evicts K s c = s.dev.buffer.full := by
      rw [evicts, hg, List.contains_iff_mem.mpr hn, Bool.true_and, Bool.and_true]
    have hle : blocks.length ≤ maxWriteOperationsSupported := by
      have hcount := count_le h.ring
      rwa [← length_content, h.content, List.length_map] at hcount
    rw [hevicts]
    by_cases hfull : s.dev.buffer.full = true
    · rw [hfull]
      have hlen := (full_iff_ten h).mp hfull
      rw [rtake_concat_full _ _ (by decide) hlen] at h'
      cases blocks with
      | nil => simp at hlen
      | cons x rest =>
        exact ⟨[x.1], rfl, stored_accounted h ha hp h' [x] (by simp)⟩
    · have hlen := mt (full_iff_ten h).mpr hfull
      rw [rtake_of_length_le _ (by rw [List.length_append, List.length_singleton]; omega)] at h'
      rw [Bool.not_eq_true] at hfull
      rw [hfull]
      exact ⟨[], rfl, stored_accounted h ha hp h' [] (by simp)⟩
  · refine ⟨_, _, hw, [], ?_, ?_⟩
    · simp [evicts, hn]
    · have hperm : ([(p, pendingOf part ++ c.data)] ++ blocks).Perm
          (blocks ++ [(p, pendingOf part ++ c.data)]) := List.perm_append_comm
      exact stored_accounted h ha hp h' [] hperm

def committed (xs : List (DriverCall × ReadResult)) : ℕ :=
  (xs.filterMap acceptedWrite).countP fun d => decide (newline ∈ d)

theorem length_logOf (xs : List (DriverCall × ReadResult)) :
    (logOf xs).lines.length = min maxWriteOperationsSupported (committed xs) := by
  have hlen := LineLog.length_foldl_write newline maxWriteOperationsSupported LineLog.empty
    (xs.filterMap acceptedWrite) (Nat.zero_le _)
  rwa [LineLog.empty, List.length_nil, Nat.zero_add] at hlen

theorem full_iff_committed (h : Holds K s blocks part) {xs : List (DriverCall × ReadResult)}
    (hlog : deviceLog s = logOf xs) :
    s.dev.buffer.full = true ↔ maxWriteOperationsSupported ≤ committed xs := by
  have hlen := length_logOf xs
  rw [← hlog, deviceLog_eq h, List.length_map] at hlen
  rw [full_iff_ten h, hlen]
  omega

theorem committed_concat (xs : List (DriverCall × ReadResult)) (x : DriverCall × ReadResult) :
    committed (xs ++ [x]) = committed xs+committed [x] := by
  rw [committed, List.filterMap_append, List.countP_append]
  rfl

theorem committed_write (c : WriteCall) (r : ℤ) :
    committed [(.write c, writeAnswer c r)] =
      (decide (r = c.data.length) && c.data.contains newline).toNat := by
  by_cases hr : r = c.data.length <;> by_cases hn : newline ∈ c.data <;>
    simp [committed, acceptedWrite, writeAnswer, hr, hn]

theorem answer_accounted (h : Holds K s blocks part) (ha : Accounted s lost)
    {xs : List (DriverCall × ReadResult)} (hlog : deviceLog s = logOf xs) {c : DriverCall}
    (hc : c.Typed) {t : DriverState} {r : ReadResult} (hr : driverAnswer K s c = .ok (t, r)) :
    ∃ gone : List Addr, Accounted t (gone ++ lost) ∧
      gone.length+(committed xs-maxWriteOperationsSupported) =
        committed (xs ++ [(c, r)])-maxWriteOperationsSupported := by
  have hnone (hread : committed [(c, r)] = 0) (hst : t = s) : ∃ gone : List Addr,
      Accounted t (gone ++ lost) ∧ gone.length+(committed xs-maxWriteOperationsSupported) =
        committed (xs ++ [(c, r)])-maxWriteOperationsSupported :=
    ⟨[], hst ▸ ha, by simp [committed_concat, hread]⟩
  cases c with
  | write c =>
    obtain ⟨t', r', hw, gone, hgone, ha'⟩ := write_accounted h ha c
    obtain ⟨t'', r'', hw', _, hcase⟩ := aesdWrite_logs h c
    obtain ⟨rfl, rfl⟩ := Prod.mk.inj (Except.ok.inj (hw.symm.trans hw'))
    rw [driverAnswer, hw] at hr
    obtain ⟨rfl, rfl⟩ := Prod.mk.inj (Except.ok.inj hr)
    refine ⟨gone, ha', ?_⟩
    have hfull := full_iff_committed h hlog
    rw [committed_concat, committed_write, hgone, evicts]
    rcases hcase with ⟨hg, hlen, _⟩ | ⟨hg, hneg, _⟩
    · rw [hg, decide_eq_true hlen, Bool.true_and, Bool.true_and]
      cases hf : s.dev.buffer.full <;> cases c.data.contains newline <;>
        simp only [Bool.and_self, Bool.and_false, Bool.and_true, Bool.toNat_false,
          Bool.toNat_true] <;> simp [hf] at hfull <;> omega
    · have hne : r' ≠ c.data.length := by omega
      rw [hg, decide_eq_false hne]
      simp
  | read c =>
    have hread := aesdRead_eq h c hc.1 hc.2
    obtain ⟨rfl, rfl⟩ := Prod.mk.inj (Except.ok.inj (hr.symm.trans hread))
    exact hnone rfl rfl
  | llseek fPos offset whence =>
    obtain ⟨rfl, rfl⟩ := Prod.mk.inj (Except.ok.inj (hr.symm.trans (llseek_answer h _ _ _)))
    exact hnone rfl rfl
  | ioctl fPos cmd arg =>
    rw [driverAnswer, ioctl_eq h] at hr
    obtain ⟨rfl, rfl⟩ := Prod.mk.inj (Except.ok.inj hr)
    exact hnone rfl rfl

end

end Aesd.DriverLosses
