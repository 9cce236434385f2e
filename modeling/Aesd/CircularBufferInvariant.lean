import Aesd.CircularBuffer
import Aesd.Lib.Segments

/-!
# What adding entries does to a buffer which started empty

The offsets, the flag and the unused slots are tied together by one invariant.
An addition extends the retained entries or moves the window by one; no bound
on the number of additions is assumed.
-/

set_option autoImplicit false

namespace Aesd.CircularBuffer
open BlockHeap MachineInt Ring Segments

structure Valid (buffer : AesdCircularBuffer) : Prop where
  inOffs_lt : buffer.inOffs < maxWriteOperationsSupported
  outOffs_lt : buffer.outOffs < maxWriteOperationsSupported
  full_offs : buffer.full = true → buffer.inOffs = buffer.outOffs
  open_outOffs : buffer.full = false → buffer.outOffs = 0
  open_unused : buffer.full = false → ∀ i, buffer.inOffs ≤ i → buffer.slot i = zeroEntry

theorem valid_init : Valid aesdCircularBufferInit where
  inOffs_lt := by decide
  outOffs_lt := by decide
  full_offs := by simp [aesdCircularBufferInit]
  open_outOffs := fun _ => rfl
  open_unused := fun _ i _ => slot_init i

theorem content_init : aesdCircularBufferInit.content = [] := rfl

theorem length_content (buffer : AesdCircularBuffer) : buffer.content.length = buffer.count := by
  simp [AesdCircularBuffer.content]

theorem getElem_content (buffer : AesdCircularBuffer) (k : ℕ) (hk : k < buffer.content.length) :
    buffer.content[k] = buffer.slot ((buffer.outOffs+k) % maxWriteOperationsSupported) :=
  getElem_window _ _ _ _ _ hk

theorem count_le {buffer : AesdCircularBuffer} (hv : Valid buffer) :
    buffer.count ≤ maxWriteOperationsSupported := by
  have := hv.inOffs_lt
  unfold AesdCircularBuffer.count
  split_ifs <;> omega

theorem count_open {buffer : AesdCircularBuffer} (h : buffer.full = false) :
    buffer.count = buffer.inOffs := by
  simp [AesdCircularBuffer.count, h]

theorem count_full {buffer : AesdCircularBuffer} (h : buffer.full = true) :
    buffer.count = maxWriteOperationsSupported := by
  simp [AesdCircularBuffer.count, h]

theorem full_iff_count {buffer : AesdCircularBuffer} (hv : Valid buffer) :
    buffer.full = true ↔ buffer.count = maxWriteOperationsSupported := by
  constructor
  · exact count_full
  · intro h
    by_contra hf
    rw [count_open (by simpa using hf)] at h
    have := hv.inOffs_lt
    omega

theorem content_open {buffer : AesdCircularBuffer} (hv : Valid buffer) (h : buffer.full = false) :
    buffer.content = window buffer.slot maxWriteOperationsSupported 0 buffer.inOffs := by
  rw [AesdCircularBuffer.content, count_open h, hv.open_outOffs h]

theorem content_full {buffer : AesdCircularBuffer} (h : buffer.full = true) :
    buffer.content = window buffer.slot maxWriteOperationsSupported buffer.outOffs
      maxWriteOperationsSupported := by
  rw [AesdCircularBuffer.content, count_full h]

theorem addEntry_open (buffer : AesdCircularBuffer) (e : AesdBufferEntry)
    (h : buffer.full = false) :
    (aesdCircularBufferAddEntry buffer e).1 =
      { buffer.setSlot buffer.inOffs e with
        inOffs := next buffer.inOffs
        full := decide (next buffer.inOffs = buffer.outOffs) } := by
  by_cases hn : next buffer.inOffs = buffer.outOffs <;>
    simp [aesdCircularBufferAddEntry, h, hn]

theorem addEntry_full (buffer : AesdCircularBuffer) (e : AesdBufferEntry)
    (h : buffer.full = true) :
    (aesdCircularBufferAddEntry buffer e).1 =
      { buffer.setSlot buffer.inOffs e with
        inOffs := next buffer.inOffs
        outOffs := next buffer.outOffs } := by
  simp [aesdCircularBufferAddEntry, h]

theorem addEntry_returns_null (buffer : AesdCircularBuffer) (e : AesdBufferEntry) :
    (aesdCircularBufferAddEntry buffer e).2 = none := by
  simp only [aesdCircularBufferAddEntry]
  split_ifs <;> rfl

theorem slot_addEntry {buffer : AesdCircularBuffer} (hv : Valid buffer) (e : AesdBufferEntry) :
    (aesdCircularBufferAddEntry buffer e).1.slot = Function.update buffer.slot buffer.inOffs e := by
  rw [← slot_setSlot buffer e hv.inOffs_lt]
  cases h : buffer.full
  · rw [addEntry_open buffer e h]
    rfl
  · rw [addEntry_full buffer e h]
    rfl

theorem valid_addEntry {buffer : AesdCircularBuffer} (hv : Valid buffer) (e : AesdBufferEntry) :
    Valid (aesdCircularBufferAddEntry buffer e).1 := by
  have hs := slot_addEntry hv e
  cases h : buffer.full
  · have ho := hv.open_outOffs h
    have hi := hv.inOffs_lt
    rw [addEntry_open buffer e h] at hs ⊢
    refine ⟨next_lt _, hv.outOffs_lt, fun hf => by simpa using hf, fun _ => ho, ?_⟩
    intro hf i hle
    have hn : next buffer.inOffs ≠ 0 := by simpa [ho] using hf
    change next buffer.inOffs ≤ i at hle
    rw [next_eq hi] at hn hle
    have hlt : buffer.inOffs < i := by
      split_ifs at hn hle
      · exact absurd rfl hn
      · omega
    rw [hs, Function.update_of_ne (by omega)]
    exact hv.open_unused h i (by omega)
  · rw [addEntry_full buffer e h]
    refine ⟨next_lt _, next_lt _, fun _ => by simp [hv.full_offs h], ?_, ?_⟩ <;>
      simp [h]

theorem content_addEntry {buffer : AesdCircularBuffer} (hv : Valid buffer) (e : AesdBufferEntry) :
    (aesdCircularBufferAddEntry buffer e).1.content =
      (buffer.content ++ [e]).rtake maxWriteOperationsSupported := by
  have hs := slot_addEntry hv e
  cases h : buffer.full
  · have ho := hv.open_outOffs h
    have hi := hv.inOffs_lt
    have hpush := window_push buffer.slot maxWriteOperationsSupported 0 buffer.inOffs e hi
    rw [Nat.zero_add, Nat.mod_eq_of_lt hi] at hpush
    rw [rtake_of_length_le _ (by simp [length_content, count_open h]; omega), content_open hv h,
      ← hpush, ← hs]
    have hc : (aesdCircularBufferAddEntry buffer e).1.count = buffer.inOffs+1 := by
      rw [addEntry_open buffer e h]
      by_cases hn : buffer.inOffs+1 = maxWriteOperationsSupported <;>
        simp [AesdCircularBuffer.count, next_eq hi, ho, hn]
    rw [AesdCircularBuffer.content, hc]
    congr 1
    rw [addEntry_open buffer e h]
    exact ho
  · have hout := hv.outOffs_lt
    rw [rtake_concat_full _ _ (by decide) (by rw [length_content, count_full h]), content_full h,
      ← window_replace _ _ _ _ hout, ← hv.full_offs h, ← hs]
    have hf : (aesdCircularBufferAddEntry buffer e).1.full = true := by
      rw [addEntry_full buffer e h]
      exact h
    rw [content_full hf]
    congr 1
    rw [addEntry_full buffer e h, hv.full_offs h]
    rfl

def addEntries (buffer : AesdCircularBuffer) (es : List AesdBufferEntry) : AesdCircularBuffer :=
  es.foldl (fun b e => (aesdCircularBufferAddEntry b e).1) buffer

theorem valid_addEntries (es : List AesdBufferEntry) {buffer : AesdCircularBuffer}
    (hv : Valid buffer) : Valid (addEntries buffer es) := by
  induction es generalizing buffer with
  | nil => exact hv
  | cons e es ih => exact ih (valid_addEntry hv e)

theorem content_addEntries (es : List AesdBufferEntry) :
    (addEntries aesdCircularBufferInit es).content = es.rtake maxWriteOperationsSupported := by
  induction es using List.reverseRecOn with
  | nil => rfl
  | append_singleton es e ih =>
    have hv := valid_addEntries es valid_init
    rw [addEntries, List.foldl_append]
    exact (content_addEntry hv e).trans (by rw [ih, rtake_rtake_concat])

theorem count_addEntries (es : List AesdBufferEntry) :
    (addEntries aesdCircularBufferInit es).count = min maxWriteOperationsSupported es.length := by
  rw [← length_content, content_addEntries, length_rtake]

/-- The buffer after any sequence of additions to the empty one. -/
theorem added_entries_ring (es : List AesdBufferEntry) :
    let buffer := addEntries aesdCircularBufferInit es
    buffer.inOffs < maxWriteOperationsSupported ∧
    buffer.outOffs < maxWriteOperationsSupported ∧
    (buffer.full = true ↔ maxWriteOperationsSupported ≤ es.length) ∧
    (buffer.full = true → buffer.inOffs = buffer.outOffs) ∧
    (buffer.full = false → buffer.outOffs = 0 ∧ buffer.inOffs = es.length ∧
      ∀ i, buffer.inOffs ≤ i → i < maxWriteOperationsSupported → buffer.slot i = zeroEntry) ∧
    buffer.content = es.rtake (min es.length maxWriteOperationsSupported) := by
  have hv := valid_addEntries es valid_init
  have hc := count_addEntries es
  have hfull : (addEntries aesdCircularBufferInit es).full = true ↔
      maxWriteOperationsSupported ≤ es.length := by
    rw [full_iff_count hv, hc]
    omega
  refine ⟨hv.inOffs_lt, hv.outOffs_lt, hfull, hv.full_offs, ?_, ?_⟩
  · intro h
    have hlt : es.length < maxWriteOperationsSupported := by
      by_contra hge
      rw [hfull.mpr (by omega)] at h
      contradiction
    rw [count_open h] at hc
    exact ⟨hv.open_outOffs h, by omega, fun i hi _ => hv.open_unused h i hi⟩
  · rw [content_addEntries]
    rcases Nat.le_total es.length maxWriteOperationsSupported with h | h
    · rw [Nat.min_eq_left h, rtake_of_length_le es h, rtake_of_length_le es (le_refl _)]
    · rw [Nat.min_eq_right h]

example : (addEntries aesdCircularBufferInit
    ((List.range 12).map fun i => ⟨some i, i⟩)).content.map AesdBufferEntry.size =
      [2, 3, 4, 5, 6, 7, 8, 9, 10, 11] := by decide

end Aesd.CircularBuffer
