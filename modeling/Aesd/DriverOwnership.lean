import Aesd.DriverWrite
import Aesd.CircularBufferSearch

/-!
# Which pointer owns which block

The pointers of the driver are `partial_write` and those of the ten slots. As
long as the device holds its blocks they are distinct and live, and unloading
the module frees each of them once and nothing else.
-/

set_option autoImplicit false

namespace Aesd.DriverOwnership
open BlockHeap
open Aesd.CircularBuffer Aesd.KernelMemory Aesd.CharDriver Aesd.DriverInvariant

def owned (s : DriverState) : List AesdBufferEntry :=
  ⟨s.dev.partialWrite, s.dev.partialSize⟩::s.dev.buffer.foreach

def pointers (s : DriverState) : List Addr := (owned s).filterMap AesdBufferEntry.buffptr

/-- Every live block has an owner. -/
def LeakFree (s : DriverState) : Prop := ∀ a, Live s.heap a → a ∈ pointers s

section
variable {K : Kernel} {s : DriverState} {blocks : List Block} {part : Option Block}

theorem mem_foreach (h : Holds K s blocks part) {e : AesdBufferEntry}
    (he : e ∈ s.dev.buffer.foreach) : e = zeroEntry ∨ ∃ x ∈ blocks, e = entryOf x := by
  rcases List.mem_append.mp ((foreach_perm h.ring).subset he) with he | he
  · rw [h.content] at he
    obtain ⟨x, hx, rfl⟩ := List.mem_map.mp he
    exact .inr ⟨x, hx, rfl⟩
  · exact .inl (List.eq_of_mem_replicate he)

theorem pointers_perm (h : Holds K s blocks part) :
    (pointers s).Perm ((part.toList ++ blocks).map Prod.fst) := by
  have hblocks : (blocks.map entryOf).filterMap AesdBufferEntry.buffptr = blocks.map Prod.fst := by
    rw [List.filterMap_map, ← List.filterMap_eq_map]
    rfl
  have hslots := (foreach_perm h.ring).filterMap AesdBufferEntry.buffptr
  rw [List.filterMap_append, h.content, hblocks] at hslots
  have hzero (n : ℕ) : (List.replicate n zeroEntry).filterMap AesdBufferEntry.buffptr = [] := by
    simp [zeroEntry]
  rw [hzero, List.append_nil] at hslots
  have hpw := h.partialWrite
  cases part with
  | none => simpa [pointers, owned, hpw] using hslots
  | some x => simpa [pointers, owned, hpw] using hslots

theorem pointers_nodup (h : Holds K s blocks part) : (pointers s).Nodup :=
  (pointers_perm h).nodup_iff.mpr h.distinct

theorem mem_pointers (h : Holds K s blocks part) {a : Addr} :
    a ∈ pointers s ↔ ∃ x ∈ part.toList ++ blocks, x.1 = a := by
  rw [(pointers_perm h).mem_iff, List.mem_map]

theorem pointers_live (h : Holds K s blocks part) {a : Addr} (ha : a ∈ pointers s) :
    Live s.heap a := by
  obtain ⟨x, hx, rfl⟩ := (mem_pointers h).mp ha
  simp [Live, h.heap x hx]

theorem owned_sizes (h : Holds K s blocks part) {e : AesdBufferEntry} (he : e ∈ owned s)
    {p : Addr} (hp : e.buffptr = some p) :
    ∃ bytes, s.heap p = some bytes ∧ bytes.length = e.size := by
  rcases List.mem_cons.mp he with rfl | he
  · have hpw := h.partialWrite
    have hps := h.partialSize
    cases part with
    | none =>
      rw [show s.dev.partialWrite = some p from hp] at hpw
      cases hpw
    | some x =>
      rw [show s.dev.partialWrite = some p from hp] at hpw
      obtain rfl : p = x.1 := by simpa using hpw
      exact ⟨x.2, h.heap x (by simp), hps.symm⟩
  · rcases mem_foreach h he with rfl | ⟨x, hx, rfl⟩
    · cases hp
    · obtain rfl : x.1 = p := by simpa [entryOf] using hp
      exact ⟨x.2, h.heap x (List.mem_append_right _ hx), rfl⟩

theorem partialSize_zero (h : Holds K s blocks part) :
    s.dev.partialSize = 0 ↔ s.dev.partialWrite = none := by
  have hl := h.pendingLine
  rw [h.partialSize, h.partialWrite]
  cases part with
  | none => simp [pendingOf]
  | some x => simpa [pendingOf] using (hl x rfl).1

end

theorem slot_unused {buffer : AesdCircularBuffer} (hv : Valid buffer) {i : ℕ}
    (hi : i < maxWriteOperationsSupported) (hu : ∀ k < buffer.count, buffer.physical k ≠ i) :
    buffer.slot i = zeroEntry := by
  have hout := hv.outOffs_lt
  change buffer.outOffs < 10 at hout
  change i < 10 at hi
  cases hf : buffer.full with
  | true =>
    rw [count_full hf] at hu
    have hk := hu ((i+10-buffer.outOffs) % 10) (Nat.mod_lt _ (by decide))
    rw [AesdCircularBuffer.physical] at hk
    change (buffer.outOffs+(i+10-buffer.outOffs) % 10) % 10 ≠ i at hk
    omega
  | false =>
    rw [count_open hf] at hu
    apply hv.open_unused hf
    by_contra hlt
    apply hu i (by omega)
    rw [AesdCircularBuffer.physical, hv.open_outOffs hf, Nat.zero_add]
    exact Nat.mod_eq_of_lt hi

def slotPointers (s : DriverState) (is : List ℕ) : List Addr :=
  is.filterMap fun i => (s.dev.buffer.slot i).buffptr

theorem freeSlot_spec (s : DriverState) {i : ℕ} (hi : i < maxWriteOperationsSupported)
    (hlive : ∀ p, (s.dev.buffer.slot i).buffptr = some p → Live s.heap p) :
    ∃ u, freeSlot s i = .ok u ∧
      (∀ a, u.heap a = if (s.dev.buffer.slot i).buffptr = some a then none else s.heap a) ∧
      (u.dev.buffer.slot i).buffptr = none ∧
      (∀ j ≠ i, u.dev.buffer.slot j = s.dev.buffer.slot j) ∧
      u.dev.partialWrite = s.dev.partialWrite := by
  cases hp : (s.dev.buffer.slot i).buffptr with
  | none =>
    have hfree : freeSlot s i = .ok s := by simp only [freeSlot, hp]
    exact ⟨s, hfree, fun a => (if_neg nofun).symm, hp, fun j _ => rfl, rfl⟩
  | some p =>
    obtain ⟨b, hb⟩ := Option.ne_none_iff_exists'.mp (hlive p hp)
    have hslot : (s.dev.buffer.setSlot i ⟨none, (s.dev.buffer.slot i).size⟩).slot =
        Function.update s.dev.buffer.slot i ⟨none, (s.dev.buffer.slot i).size⟩ :=
      slot_setSlot _ _ hi
    refine ⟨⟨{ s.dev with
      buffer := s.dev.buffer.setSlot i ⟨none, (s.dev.buffer.slot i).size⟩ }, erase s.heap p⟩,
      ?_, fun a => ?_, ?_, fun j hj => ?_, rfl⟩
    · simp only [freeSlot, hp, free_live _ hb, ok_bind, pure_eq_ok]
    · by_cases hap : p = a
      · rw [if_pos (congrArg some hap), ← hap]
        exact erase_same _ _
      · rw [if_neg fun heq => hap (Option.some.inj heq)]
        exact erase_other _ fun heq => hap heq.symm
    · change ((s.dev.buffer.setSlot i _).slot i).buffptr = none
      rw [hslot, Function.update_self]
    · change (s.dev.buffer.setSlot i _).slot j = _
      rw [hslot, Function.update_of_ne hj]

theorem slotPointers_cons (s : DriverState) (i : ℕ) (is : List ℕ) :
    slotPointers s (i::is) =
      (s.dev.buffer.slot i).buffptr.toList ++ slotPointers s is := by
  cases hp : (s.dev.buffer.slot i).buffptr <;> simp [slotPointers, hp]

theorem mem_slotPointers_cons {s : DriverState} {i : ℕ} {is : List ℕ} {a : Addr} :
    a ∈ slotPointers s (i::is) ↔
      (s.dev.buffer.slot i).buffptr = some a ∨ a ∈ slotPointers s is := by
  rw [slotPointers_cons, List.mem_append, Option.mem_toList]

theorem freeSlots_spec (is : List ℕ) (s : DriverState) (hnd : is.Nodup)
    (hlt : ∀ i ∈ is, i < maxWriteOperationsSupported) (hptr : (slotPointers s is).Nodup)
    (hlive : ∀ p ∈ slotPointers s is, Live s.heap p) :
    ∃ t, is.foldlM freeSlot s = .ok t ∧
      (∀ a, t.heap a = if a ∈ slotPointers s is then none else s.heap a) ∧
      (∀ i ∈ is, (t.dev.buffer.slot i).buffptr = none) ∧
      (∀ i, i ∉ is → t.dev.buffer.slot i = s.dev.buffer.slot i) ∧
      t.dev.partialWrite = s.dev.partialWrite := by
  induction is generalizing s with
  | nil => exact ⟨s, rfl, by simp [slotPointers], by simp, by simp, rfl⟩
  | cons i is ih =>
    obtain ⟨hi, hnd⟩ := List.nodup_cons.mp hnd
    have hlt' := List.forall_mem_cons.mp hlt
    obtain ⟨u, hu, hheapu, hnullu, hotheru, hpartu⟩ := freeSlot_spec s hlt'.1
      fun p hp => hlive p (mem_slotPointers_cons.mpr (.inl hp))
    have hrest : slotPointers u is = slotPointers s is := by
      apply List.filterMap_congr
      intro j hj
      rw [hotheru j (by rintro rfl; exact hi hj)]
    rw [slotPointers_cons, List.nodup_append] at hptr
    -- the block just freed is not among those of the remaining slots
    have hliveu (p : Addr) (hp : p ∈ slotPointers u is) : Live u.heap p := by
      rw [hrest] at hp
      have hne : (s.dev.buffer.slot i).buffptr ≠ some p := fun heq =>
        hptr.2.2 p (Option.mem_toList.mpr heq) p hp rfl
      rw [Live, hheapu, if_neg hne]
      exact hlive p (mem_slotPointers_cons.mpr (.inr hp))
    obtain ⟨t, ht, hheap, hnull, hother, hpart⟩ :=
      ih u hnd hlt'.2 (by rw [hrest]; exact hptr.2.1) hliveu
    refine ⟨t, ?_, fun a => ?_, fun j hj => ?_, fun j hj => ?_, hpart.trans hpartu⟩
    · rw [List.foldlM_cons, hu]
      exact ht
    · rw [hheap, hrest, hheapu]
      by_cases ha : (s.dev.buffer.slot i).buffptr = some a <;>
        simp [mem_slotPointers_cons, ha]
    · rcases List.mem_cons.mp hj with rfl | hj
      · rw [hother j hi]
        exact hnullu
      · exact hnull j hj
    · rw [List.mem_cons, not_or] at hj
      rw [hother j hj.2, hotheru j hj.1]

theorem pointers_eq (s : DriverState) :
    pointers s = s.dev.partialWrite.toList ++
      slotPointers s (List.range maxWriteOperationsSupported) := by
  rw [pointers, owned, slotPointers, AesdCircularBuffer.foreach]
  cases hp : s.dev.partialWrite <;> simp [List.filterMap_map]

/-- Unloading frees exactly the owned blocks, each once, and leaves no pointer. -/
theorem cleanup_spec {K : Kernel} {s : DriverState} {blocks : List Block} {part : Option Block}
    (h : Holds K s blocks part) :
    ∃ t, aesdCleanupModule s = .ok t ∧ pointers t = [] ∧
      ∀ a, t.heap a = if a ∈ pointers s then none else s.heap a := by
  have hnd := pointers_nodup h
  have hlive (a : Addr) (ha : a ∈ pointers s) := pointers_live h ha
  have hnull (t : DriverState) (hp : t.dev.partialWrite = none)
      (hs : ∀ i ∈ List.range maxWriteOperationsSupported, (t.dev.buffer.slot i).buffptr = none) :
      pointers t = [] := by
    rw [pointers_eq, hp, slotPointers, List.filterMap_eq_nil_iff.mpr hs]
    rfl
  rw [pointers_eq] at hnd hlive ⊢
  cases hp : s.dev.partialWrite with
  | none =>
    rw [hp] at hnd hlive
    obtain ⟨t, ht, hheap, hslots, _, hpart⟩ := freeSlots_spec
      (List.range maxWriteOperationsSupported) s List.nodup_range
      (fun i hi => List.mem_range.mp hi) hnd hlive
    refine ⟨t, ?_, hnull t (hpart.trans hp) hslots, hheap⟩
    simpa only [aesdCleanupModule, hp, pure_eq_ok, ok_bind] using ht
  | some p =>
    rw [hp] at hnd hlive
    obtain ⟨hpn, hnd⟩ := List.nodup_cons.mp hnd
    obtain ⟨b, hb⟩ := Option.ne_none_iff_exists'.mp (hlive p (by simp))
    obtain ⟨t, ht, hheap, hslots, _, hpart⟩ := freeSlots_spec
      (List.range maxWriteOperationsSupported)
      ⟨{ s.dev with partialWrite := none }, erase s.heap p⟩ List.nodup_range
      (fun i hi => List.mem_range.mp hi) hnd (by
        intro q hq
        have hqp : q ≠ p := by
          rintro rfl
          exact hpn hq
        change erase s.heap p q ≠ none
        rw [erase_other _ hqp]
        exact hlive q (List.mem_cons_of_mem _ hq))
    refine ⟨t, ?_, hnull t hpart hslots, ?_⟩
    · simpa only [aesdCleanupModule, hp, free_live _ hb, pure_eq_ok, ok_bind] using ht
    · intro a
      rw [hheap]
      change (if a ∈ slotPointers s _ then none else erase s.heap p a) = _
      by_cases hap : a = p
      · simp [hap]
      · simp [hap]

end Aesd.DriverOwnership
