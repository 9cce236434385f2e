import Aesd.Lib.BlockHeap
import Aesd.Lib.MachineInt
import Aesd.Lib.Ring

/-!
# The circular buffer of `aesd-circular-buffer.c`

The three operations are embedded as the source computes them. An entry holds
a pointer, not bytes; the empty and the full buffer have equal offsets and only
the flag tells them apart. The two offsets are `uint8_t` in the source, but are
advanced in `int` and reduced modulo ten before they are stored.
-/

set_option autoImplicit false

namespace Aesd.CircularBuffer
open BlockHeap MachineInt

abbrev maxWriteOperationsSupported : ℕ := 10

structure AesdBufferEntry where
  buffptr : Option Addr
  size : ℕ
  deriving DecidableEq, Repr

def zeroEntry : AesdBufferEntry := ⟨none, 0⟩

structure AesdCircularBuffer where
  entry : Vector AesdBufferEntry maxWriteOperationsSupported
  inOffs : ℕ
  outOffs : ℕ
  full : Bool
  deriving DecidableEq, Repr

/-- `buffer->entry[i]` for `i` inside the array. -/
def AesdCircularBuffer.slot (buffer : AesdCircularBuffer) (i : ℕ) : AesdBufferEntry :=
  (buffer.entry[i]?).getD zeroEntry

def AesdCircularBuffer.setSlot (buffer : AesdCircularBuffer) (i : ℕ) (e : AesdBufferEntry) :
    AesdCircularBuffer :=
  { buffer with entry := buffer.entry.setIfInBounds i e }

def next (offs : ℕ) : ℕ := (offs+1) % maxWriteOperationsSupported

def aesdCircularBufferInit : AesdCircularBuffer where
  entry := Vector.replicate maxWriteOperationsSupported zeroEntry
  inOffs := 0
  outOffs := 0
  full := false

/-- The return value is `ret_val`, which the source never assigns: the pointer
displaced from a full buffer is not reported. -/
def aesdCircularBufferAddEntry (buffer : AesdCircularBuffer) (addEntry : AesdBufferEntry) :
    AesdCircularBuffer × Option Addr :=
  let retVal : Option Addr := none
  let stored : AesdCircularBuffer :=
    if !buffer.full then
      { buffer.setSlot buffer.inOffs addEntry with inOffs := next buffer.inOffs }
    else
      { buffer.setSlot buffer.inOffs addEntry with
        inOffs := next buffer.inOffs
        outOffs := next buffer.outOffs }
  if stored.inOffs = stored.outOffs ∧ !stored.full then
    ({ stored with full := true }, retVal)
  else
    (stored, retVal)

/-- The scan of `aesd_circular_buffer_find_entry_offset_for_fpos`. The first
argument is how often the loop may still be entered, that is
`AESDCHAR_MAX_WRITE_OPERATIONS_SUPPORTED - entries_checked`. The result is the
index of the entry returned, `none` for `NULL`, with the value of
`*entry_offset_byte_rtn` on return. -/
def findEntryLoop (buffer : AesdCircularBuffer) (charOffset entryOffsetByteRtn : ℕ) :
    ℕ → ℕ → ℕ → Option ℕ × ℕ
  | 0, _, _ => (none, entryOffsetByteRtn)
  | remaining+1, accumulatedBytes, index =>
    if charOffset < wrapU64 (accumulatedBytes+(buffer.slot index).size) then
      (some index, subU64 charOffset accumulatedBytes)
    else if buffer.full ∧ remaining = 0 then
      (none, entryOffsetByteRtn)
    else if !buffer.full ∧ next index = buffer.inOffs then
      (none, entryOffsetByteRtn)
    else
      findEntryLoop buffer charOffset entryOffsetByteRtn remaining
        (wrapU64 (accumulatedBytes+(buffer.slot index).size)) (next index)

def aesdCircularBufferFindEntryOffsetForFpos (buffer : AesdCircularBuffer)
    (charOffset entryOffsetByteRtn : ℕ) : Option ℕ × ℕ :=
  if !buffer.full ∧ buffer.inOffs = buffer.outOffs then
    (none, entryOffsetByteRtn)
  else
    findEntryLoop buffer charOffset entryOffsetByteRtn maxWriteOperationsSupported 0
      buffer.outOffs

def AesdCircularBuffer.count (buffer : AesdCircularBuffer) : ℕ :=
  if buffer.full then maxWriteOperationsSupported else buffer.inOffs

def AesdCircularBuffer.content (buffer : AesdCircularBuffer) : List AesdBufferEntry :=
  Ring.window buffer.slot maxWriteOperationsSupported buffer.outOffs buffer.count

/-- `AESD_CIRCULAR_BUFFER_FOREACH`: every slot in physical order. -/
def AesdCircularBuffer.foreach (buffer : AesdCircularBuffer) : List AesdBufferEntry :=
  (List.range maxWriteOperationsSupported).map buffer.slot

@[simp] theorem setSlot_outOffs (buffer : AesdCircularBuffer) (i : ℕ) (e : AesdBufferEntry) :
    (buffer.setSlot i e).outOffs = buffer.outOffs := rfl

@[simp] theorem setSlot_full (buffer : AesdCircularBuffer) (i : ℕ) (e : AesdBufferEntry) :
    (buffer.setSlot i e).full = buffer.full := rfl

theorem slot_setSlot (buffer : AesdCircularBuffer) {i : ℕ} (e : AesdBufferEntry)
    (hi : i < maxWriteOperationsSupported) :
    (buffer.setSlot i e).slot = Function.update buffer.slot i e := by
  funext j
  by_cases hj : j = i
  · subst j
    simp [AesdCircularBuffer.slot, AesdCircularBuffer.setSlot, hi]
  · simp [AesdCircularBuffer.slot, AesdCircularBuffer.setSlot, hj, Ne.symm hj]

theorem slot_init (i : ℕ) : aesdCircularBufferInit.slot i = zeroEntry := by
  simp only [AesdCircularBuffer.slot, aesdCircularBufferInit, Vector.getElem?_replicate]
  split_ifs <;> rfl

theorem next_eq {offs : ℕ} (h : offs < maxWriteOperationsSupported) :
    next offs = if offs+1 = maxWriteOperationsSupported then 0 else offs+1 := by
  unfold next
  split_ifs with hn
  · rw [hn, Nat.mod_self]
  · exact Nat.mod_eq_of_lt (by omega)

theorem next_lt (offs : ℕ) : next offs < maxWriteOperationsSupported :=
  Nat.mod_lt _ (by decide)

end Aesd.CircularBuffer
