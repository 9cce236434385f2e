import Aesd.CommandLog
import Aesd.DriverOwnership

/-!
# The block of an evicted command

Committing to a full ring overwrites the slot of the oldest command. Its
pointer is not returned by `aesd_circular_buffer_add_entry`, so from then on
the block is live without an owner. No other call leaves a block behind.
-/

set_option autoImplicit false

namespace Aesd.DriverLeak
open BlockHeap Ring
open Aesd.CircularBuffer Aesd.KernelMemory Aesd.CharDriver Aesd.DriverInvariant
open Aesd.DriverWrite Aesd.DriverOwnership Aesd.CommandLog

/-- The call commits a line while the ring is full. -/
def evicts (K : Kernel) (s : DriverState) (c : WriteCall) : Bool :=
  goesThrough K s c && s.dev.buffer.full && c.data.contains newline

section
variable {K : Kernel} {s : DriverState} {blocks : List Block} {part : Option Block}

theorem full_iff_ten (h : Holds K s blocks part) :
    s.dev.buffer.full = true ↔ blocks.length = maxWriteOperationsSupported := by
  rw [full_iff_count h.ring, ← length_content, h.content, List.length_map]

theorem released_owned (h : Holds K s blocks part) (hl : LeakFree s) {a : Addr}
    (ha : Live (released s) a) : ∃ x ∈ blocks, x.1 = a := by
  have hpw := h.partialWrite
  have hlive : Live s.heap a ∧ s.dev.partialWrite ≠ some a := by
    unfold released at ha
    cases hp : s.dev.partialWrite with
    | none =>
      rw [hp] at ha
      exact ⟨ha, by simp⟩
    | some p =>
      rw [hp] at ha
      have hap : a ≠ p := by
        rintro rfl
        exact ha (erase_same _ _)
      exact ⟨by rwa [Live, ← erase_other s.heap hap], by simpa using hap.symm⟩
  obtain ⟨x, hx, rfl⟩ := (mem_pointers h).mp (hl a hlive.1)
  rcases List.mem_append.mp hx with hx | hx
  · obtain rfl : part = some x := by simpa using hx
    exact absurd hpw hlive.2
  · exact ⟨x, hx, rfl⟩

theorem live_stored {p a : Addr} {bytes : List UInt8} {b : Bool}
    (ha : Live (stored s p bytes b).heap a) : a = p ∨ Live (released s) a := by
  by_cases hap : a = p
  · exact .inl hap
  · right
    simpa [stored, Live, alloc_other _ _ hap] using ha

theorem leakFree_kept (h : Holds K s blocks part) (hl : LeakFree s) {p : Addr}
    {bytes : List UInt8} {b : Bool} {blocks' : List Block} {part' : Option Block}
    (h' : Holds K (stored s p bytes b) blocks' part')
    (hkept : ∀ x ∈ (p,bytes)::blocks, x ∈ part'.toList ++ blocks') :
    LeakFree (stored s p bytes b) := by
  intro a ha
  rw [mem_pointers h']
  rcases live_stored ha with rfl | ha
  · exact ⟨_, hkept _ List.mem_cons_self, rfl⟩
  · obtain ⟨x, hx, rfl⟩ := released_owned h hl ha
    exact ⟨x, hkept x (List.mem_cons_of_mem _ hx), rfl⟩

theorem leakFree_step (h : Holds K s blocks part) (c : WriteCall) :
    ∃ s' r, aesdWrite K s c = .ok (s', r) ∧ (∃ blocks part, Holds K s' blocks part) ∧
      (LeakFree s → evicts K s c = false → LeakFree s') := by
  rcases aesdWrite_cases h c with ⟨_, r, _, hw⟩ | ⟨hg, hn, p, _, hw, h'⟩ | ⟨_, hn, p, _, hw, h'⟩
  · exact ⟨s, r, hw, ⟨blocks, part, h⟩, fun hl _ => hl⟩
  · refine ⟨_, _, hw, ⟨_, _, h'⟩, fun hl he => ?_⟩
    have hopen : blocks.length ≠ maxWriteOperationsSupported := by
      rw [Ne, ← full_iff_ten h]
      simpa [evicts, hg, hn] using he
    have hle : blocks.length ≤ maxWriteOperationsSupported := by
      have hcount := count_le h.ring
      rwa [← length_content, h.content, List.length_map] at hcount
    rw [rtake_of_length_le _ (by rw [List.length_append, List.length_singleton]; omega)] at h'
    exact leakFree_kept h hl h' fun x hx => by simpa [or_comm] using hx
  · exact ⟨_, _, hw, ⟨_, _, h'⟩, fun hl _ => leakFree_kept h hl h' (by simp)⟩

theorem evicts_leaks (h : Holds K s blocks part) (c : WriteCall) (he : evicts K s c = true)
    {s' : DriverState} {r : ℤ} (hw : aesdWrite K s c = .ok (s', r)) : ¬ LeakFree s' := by
  simp only [evicts, Bool.and_eq_true] at he
  obtain ⟨⟨hg, hfull⟩, hn⟩ := he
  have hlen := (full_iff_ten h).mp hfull
  obtain ⟨p, hp, _, hsmall, hw'⟩ := aesdWrite_stored h c hg
  rw [hn] at hw'
  obtain ⟨rfl, _⟩ := Prod.mk.inj (Except.ok.inj (hw.symm.trans hw'))
  obtain ⟨hheap, hnd⟩ := stored_blocks h hp (pendingOf part ++ c.data) true
  have h' := stored_commit h hp (List.contains_iff_mem.mp hn) hsmall
  rw [rtake_concat_full _ _ (by decide) hlen] at h'
  cases blocks with
  | nil => simp at hlen
  | cons x rest =>
    intro hl
    obtain ⟨y, hy, hyx⟩ := (mem_pointers h').mp (hl x.1 (by simp [Live, hheap x (by simp)]))
    rw [List.cons_append, List.map_cons, List.nodup_cons] at hnd
    exact hnd.1 (hyx ▸ List.mem_map_of_mem (by simpa using hy))

end

theorem leakFree_init : LeakFree aesdInitModule := by
  intro a ha
  exact absurd rfl ha

theorem leakFree_of_no_eviction (K : Kernel) (calls : List WriteCall)
    (hno : ∀ pre c, pre ++ [c] <+: calls → evicts K (afterWrites K pre) c = false) :
    LeakFree (afterWrites K calls) :=
  Runs.final_guarded (fun s => ∃ blocks part, Holds K s blocks part) LeakFree
    (fun s c => evicts K s c = false) (fun _ c ⟨_, _, h⟩ => leakFree_step h c)
    ⟨[], none, holds_init K⟩ leakFree_init calls hno

/-- Every live block has an owner after every call, and none is live after
the module is unloaded, exactly when no call of the run commits a line while
the ring is full. -/
theorem leak_free_iff_no_eviction (K : Kernel) (calls : List WriteCall) :
    ((∀ pre, pre <+: calls → LeakFree (afterWrites K pre)) ∧
      ∃ t, aesdCleanupModule (afterWrites K calls) = .ok t ∧ ∀ a, ¬ Live t.heap a) ↔
    ∀ pre c, pre ++ [c] <+: calls → evicts K (afterWrites K pre) c = false := by
  constructor
  · rintro ⟨hl, _⟩ pre c hpre
    obtain ⟨blocks, part, h⟩ := (writeRun_afterWrites K pre).2
    obtain ⟨r, hw⟩ := afterWrites_concat K pre c
    by_contra he
    exact evicts_leaks h c (by simpa using he) hw (hl _ hpre)
  · intro hno
    have hl (pre : List WriteCall) (hpre : pre <+: calls) : LeakFree (afterWrites K pre) :=
      leakFree_of_no_eviction K pre fun pre' c hpre' => hno pre' c (hpre'.trans hpre)
    obtain ⟨blocks, part, h⟩ := (writeRun_afterWrites K calls).2
    obtain ⟨t, ht, _, hheap⟩ := cleanup_spec h
    refine ⟨hl, t, ht, ?_⟩
    intro a ha
    rw [Live, hheap] at ha
    split_ifs at ha with hp
    · exact ha rfl
    · exact hp (hl calls (List.prefix_refl _) a ha)

def elevenLines : List WriteCall :=
  (List.range 11).map fun i => { data := [newline], kmallocAt := some (i+1) }

theorem eleventh_line_leaks :
    ¬ LeakFree (afterWrites pageKernel elevenLines) ∧
      ∃ t, aesdCleanupModule (afterWrites pageKernel elevenLines) = .ok t ∧ Live t.heap 1 := by
  have hlive : Live (afterWrites pageKernel elevenLines).heap 1 := by
    unfold Live
    decide
  have hlost : 1 ∉ pointers (afterWrites pageKernel elevenLines) := by decide
  obtain ⟨blocks, part, h⟩ := (writeRun_afterWrites pageKernel elevenLines).2
  obtain ⟨t, ht, _, hheap⟩ := cleanup_spec h
  refine ⟨fun hl => hlost (hl 1 hlive), t, ht, ?_⟩
  rw [Live, hheap, if_neg hlost]
  exact hlive

end Aesd.DriverLeak
