import Aesd.CircularBufferInvariant

/-!
# What the search of the circular buffer finds

The scan stops on three conditions which together visit every retained entry
once, in logical order. As long as the retained sizes do not add up to `2^64`,
it computes the position arithmetic of the concatenation of these entries.
-/

set_option autoImplicit false

namespace Aesd.CircularBuffer
open BlockHeap MachineInt Ring Segments

def AesdCircularBuffer.sizes (buffer : AesdCircularBuffer) : List ℕ :=
  buffer.content.map AesdBufferEntry.size

def AesdCircularBuffer.physical (buffer : AesdCircularBuffer) (k : ℕ) : ℕ :=
  (buffer.outOffs+k) % maxWriteOperationsSupported

def searchResult (buffer : AesdCircularBuffer) (entryOffsetByteRtn first : ℕ) :
    Option (ℕ × ℕ) → Option ℕ × ℕ
  | none => (none, entryOffsetByteRtn)
  | some q => (some (buffer.physical (first+q.1)), q.2)

@[simp] theorem length_sizes (buffer : AesdCircularBuffer) :
    buffer.sizes.length = buffer.count := by
  simp [AesdCircularBuffer.sizes, length_content]

theorem getElem_sizes (buffer : AesdCircularBuffer) (k : ℕ) (hk : k < buffer.sizes.length) :
    buffer.sizes[k] = (buffer.slot (buffer.physical k)).size := by
  simp [AesdCircularBuffer.sizes, getElem_content, AesdCircularBuffer.physical]

theorem next_physical (buffer : AesdCircularBuffer) (k : ℕ) :
    next (buffer.physical k) = buffer.physical (k+1) := by
  simp [next, AesdCircularBuffer.physical, Nat.add_assoc]

theorem physical_open {buffer : AesdCircularBuffer} (hv : Valid buffer)
    (h : buffer.full = false) {k : ℕ} (hk : k < buffer.count) :
    buffer.physical (k+1) = buffer.inOffs ↔ k+1 = buffer.count := by
  have hi := hv.inOffs_lt
  rw [count_open h] at *
  rw [AesdCircularBuffer.physical, hv.open_outOffs h, Nat.zero_add, Nat.mod_eq_of_lt (by omega)]

theorem scan_ends_iff {buffer : AesdCircularBuffer} (hv : Valid buffer) {remaining k : ℕ}
    (hk : k < buffer.count) (hr : remaining+1+k = maxWriteOperationsSupported) :
    (buffer.full = true ∧ remaining = 0) ∨
      ((!buffer.full) = true ∧ next (buffer.physical k) = buffer.inOffs) ↔
        k+1 = buffer.count := by
  rw [next_physical]
  cases hf : buffer.full with
  | false => simpa using physical_open hv hf hk
  | true =>
    rw [count_full hf] at hk ⊢
    simp only [Bool.not_true, Bool.false_eq_true, false_and, or_false, true_and]
    omega

/-- The loop invariant: `k` entries lie behind, with the sizes accumulated.
The induction is on the entries which the loop may still check. -/
theorem findEntryLoop_spec {buffer : AesdCircularBuffer} (hv : Valid buffer)
    (hs : buffer.sizes.sum < 2^64) (charOffset entryOffsetByteRtn : ℕ)
    (hc : charOffset < 2^64) (remaining k : ℕ)
    (hk : k < buffer.count) (hr : remaining+k = maxWriteOperationsSupported)
    (hacc : start buffer.sizes k ≤ charOffset) :
    findEntryLoop buffer charOffset entryOffsetByteRtn remaining (start buffer.sizes k)
        (buffer.physical k) =
      searchResult buffer entryOffsetByteRtn k
        (locate (buffer.sizes.drop k) (charOffset-start buffer.sizes k)) := by
  induction remaining generalizing k with
  | zero =>
    have := count_le hv
    omega
  | succ remaining ih =>
    have hks : k < buffer.sizes.length := by rwa [length_sizes]
    have hnext := start_succ hks
    have hsum := start_le_sum buffer.sizes (k+1)
    have hacc' : wrapU64 (start buffer.sizes k+buffer.sizes[k]) = start buffer.sizes (k+1) := by
      rw [hnext, wrapU64_of_lt (by omega)]
    rw [findEntryLoop, ← getElem_sizes buffer k hks, hacc', List.drop_eq_getElem_cons hks, locate]
    by_cases hin : charOffset < start buffer.sizes (k+1)
    · rw [if_pos hin, if_pos (by omega), subU64_of_le hacc hc]
      rfl
    rw [if_neg hin, if_neg (show ¬ charOffset-start buffer.sizes k < buffer.sizes[k] by omega)]
    have hstop := scan_ends_iff hv hk (show remaining+1+k = maxWriteOperationsSupported by omega)
    by_cases hend : k+1 = buffer.count
    · rw [List.drop_eq_nil_of_le (by simp; omega)]
      change _ = (none, entryOffsetByteRtn)
      rcases hstop.mpr hend with hfull | hopen
      · rw [if_pos hfull]
      · rw [if_pos hopen, ite_self]
    obtain ⟨hfull, hopen⟩ := not_or.mp (mt hstop.mp hend)
    rw [if_neg hfull, if_neg hopen, next_physical, ih (k+1) (by omega) (by omega) (by omega),
      show charOffset-start buffer.sizes k-buffer.sizes[k] =
        charOffset-start buffer.sizes (k+1) by omega]
    cases locate (buffer.sizes.drop (k+1)) (charOffset-start buffer.sizes (k+1)) with
    | none => rfl
    | some q => simp [searchResult, Nat.add_comm 1, Nat.add_assoc]

theorem count_pos {buffer : AesdCircularBuffer} (hv : Valid buffer)
    (h : ¬ ((!buffer.full) = true ∧ buffer.inOffs = buffer.outOffs)) : 0 < buffer.count := by
  cases hf : buffer.full
  · have hne : buffer.inOffs ≠ buffer.outOffs := fun he => h ⟨by simp [hf], he⟩
    rw [hv.open_outOffs hf] at hne
    rw [count_open hf]
    omega
  · rw [count_full hf]
    decide

theorem find_entry_spec {buffer : AesdCircularBuffer} (hv : Valid buffer)
    (hs : buffer.sizes.sum < 2^64) (charOffset entryOffsetByteRtn : ℕ)
    (hc : charOffset < 2^64) :
    aesdCircularBufferFindEntryOffsetForFpos buffer charOffset entryOffsetByteRtn =
      searchResult buffer entryOffsetByteRtn 0 (locate buffer.sizes charOffset) := by
  unfold aesdCircularBufferFindEntryOffsetForFpos
  by_cases hempty : (!buffer.full) = true ∧ buffer.inOffs = buffer.outOffs
  · have hf : buffer.full = false := by simpa using hempty.1
    have hz : buffer.sizes = [] := by
      rw [← List.length_eq_zero_iff, length_sizes, count_open hf, hempty.2, hv.open_outOffs hf]
    rw [if_pos hempty, hz]
    rfl
  · have hout : buffer.physical 0 = buffer.outOffs := Nat.mod_eq_of_lt hv.outOffs_lt
    have hloop := findEntryLoop_spec hv hs charOffset entryOffsetByteRtn hc
      maxWriteOperationsSupported 0 (count_pos hv hempty) rfl (Nat.zero_le _)
    rw [if_neg hempty]
    simpa [hout] using hloop

theorem foreach_perm {buffer : AesdCircularBuffer} (hv : Valid buffer) :
    buffer.foreach.Perm (buffer.content ++
      List.replicate (maxWriteOperationsSupported-buffer.count) zeroEntry) := by
  cases hf : buffer.full
  · have hle : buffer.inOffs ≤ maxWriteOperationsSupported := le_of_lt hv.inOffs_lt
    have hsplit : buffer.foreach = (List.range buffer.inOffs).map buffer.slot ++
        (List.range (maxWriteOperationsSupported-buffer.inOffs)).map
          (fun k => buffer.slot (buffer.inOffs+k)) := by
      rw [AesdCircularBuffer.foreach,
        show maxWriteOperationsSupported =
          buffer.inOffs+(maxWriteOperationsSupported-buffer.inOffs) by omega, List.range_add]
      simp
    have hunused : (List.range (maxWriteOperationsSupported-buffer.inOffs)).map
          (fun k => buffer.slot (buffer.inOffs+k)) =
        List.replicate (maxWriteOperationsSupported-buffer.inOffs) zeroEntry := by
      apply List.eq_replicate_iff.mpr
      refine ⟨by simp, ?_⟩
      intro e he
      obtain ⟨k, _, rfl⟩ := List.mem_map.mp he
      exact hv.open_unused hf _ (Nat.le_add_right _ _)
    rw [hsplit, hunused, content_open hv hf, count_open hf, window_zero _ _ _ hle]
  · rw [content_full hf, count_full hf]
    simpa [AesdCircularBuffer.foreach] using
      (window_perm buffer.slot maxWriteOperationsSupported buffer.outOffs).symm

/-- The search of a buffer after any additions, for entries of any size. It
returns `NULL` and leaves `*entry_offset_byte_rtn` alone at positions behind
the retained entries; elsewhere the slot of the only retained entry whose span
contains the position, and the offset in it. The search writes nothing else. -/
theorem find_entry_after_adds (es : List AesdBufferEntry) (charOffset entryOffsetByteRtn : ℕ)
    (hs : ((es.rtake maxWriteOperationsSupported).map AesdBufferEntry.size).sum < 2^64)
    (hc : charOffset < 2^64) :
    let buffer := addEntries aesdCircularBufferInit es
    let retained := es.rtake maxWriteOperationsSupported
    let sizes := retained.map AesdBufferEntry.size
    let found := aesdCircularBufferFindEntryOffsetForFpos buffer charOffset entryOffsetByteRtn
    (found.1 = none ↔ sizes.sum ≤ charOffset) ∧
    (found.1 = none → found.2 = entryOffsetByteRtn) ∧
    ∀ index, found.1 = some index → ∃ k, ∃ hk : k < retained.length,
      index = buffer.physical k ∧ buffer.slot index = retained[k] ∧
      start sizes k ≤ charOffset ∧ charOffset < start sizes (k+1) ∧
      found.2 = charOffset-start sizes k ∧ found.2 < (retained[k]).size ∧
      ∀ j < retained.length, start sizes j ≤ charOffset → charOffset < start sizes (j+1) →
        j = k := by
  intro buffer retained sizes found
  have hv : Valid buffer := valid_addEntries es valid_init
  have hcontent : buffer.content = retained := content_addEntries es
  have hsizes : buffer.sizes = sizes := by rw [AesdCircularBuffer.sizes, hcontent]
  have hfound : found = searchResult buffer entryOffsetByteRtn 0 (locate sizes charOffset) := by
    rw [← hsizes]
    exact find_entry_spec hv (by rwa [hsizes]) charOffset entryOffsetByteRtn hc
  cases hloc : locate sizes charOffset with
  | none =>
    rw [hfound, hloc]
    exact ⟨iff_of_true rfl ((locate_none_iff _ _).mp hloc), fun _ => rfl, by simp [searchResult]⟩
  | some q =>
    obtain ⟨k, o⟩ := q
    obtain ⟨hk, ho, hpos⟩ := (locate_some_iff _ _ _ _).mp hloc
    have hin : ¬ sizes.sum ≤ charOffset := by
      rw [← locate_none_iff, hloc]
      simp
    have hsucc := start_succ hk
    have hkr : k < retained.length := by simpa [sizes] using hk
    have hslot : buffer.slot (buffer.physical k) = retained[k] := by
      have hget := getElem_content buffer k (by rwa [hcontent])
      simp only [hcontent] at hget
      exact hget.symm
    rw [hfound, hloc]
    refine ⟨by simp [searchResult, hin], by simp [searchResult], ?_⟩
    rintro index ⟨⟩
    rw [List.getElem_map] at ho hsucc
    refine ⟨k, hkr, by rw [Nat.zero_add], by rw [Nat.zero_add, hslot], by omega, by omega, ?_, ho,
      ?_⟩
    · change o = _
      omega
    · intro j hj hl hu
      have hspan := locate_of_span (by simpa [sizes] using hj) hl hu
      rw [hloc] at hspan
      exact (Prod.mk.inj (Option.some.inj hspan)).1.symm

def twelveEntries : List AesdBufferEntry := [5,6,0,2,0,7,8,9,10,11,12,1].map fun n => ⟨some n, n⟩

theorem find_entry_after_twelve_adds :
    (∃ index, (aesdCircularBufferFindEntryOffsetForFpos
        (addEntries aesdCircularBufferInit twelveEntries) 3 99).1 = some index ∧
      ∃ k < 10, index = (addEntries aesdCircularBufferInit twelveEntries).physical k) ∧
    (aesdCircularBufferFindEntryOffsetForFpos
      (addEntries aesdCircularBufferInit twelveEntries) 60 99).2 = 99 := by
  obtain ⟨hnone, _, hsome⟩ := find_entry_after_adds twelveEntries 3 99 (by decide) (by decide)
  obtain ⟨hnone', hkeep, _⟩ := find_entry_after_adds twelveEntries 60 99 (by decide) (by decide)
  refine ⟨?_, hkeep (hnone'.mpr (by decide))⟩
  obtain ⟨index, hindex⟩ := Option.ne_none_iff_exists'.mp (mt hnone.mp (by decide))
  obtain ⟨k, hk, hphysical, _⟩ := hsome index hindex
  exact ⟨index, hindex, k, hk, hphysical⟩

end Aesd.CircularBuffer
