import Aesd.CharDriver
import Aesd.CircularBufferInvariant

/-!
# What the device owns

`Holds` says which blocks of the heap belong to the retained commands and
which to the pending bytes. Placing new bytes in a block apart from these and
keeping it, as a command or as pending bytes, restores the invariant.
-/

set_option autoImplicit false

namespace Aesd.DriverInvariant
open BlockHeap Ring
open Aesd.CircularBuffer Aesd.KernelMemory Aesd.CharDriver

abbrev Block := Addr × List UInt8

def entryOf (x : Block) : AesdBufferEntry := ⟨some x.1, x.2.length⟩

def pendingOf (part : Option Block) : List UInt8 := (part.map Prod.snd).getD []

structure Holds (K : Kernel) (s : DriverState) (blocks : List Block) (part : Option Block) :
    Prop where
  unlocked : s.dev.bufferLock = false
  ring : Valid s.dev.buffer
  content : s.dev.buffer.content = blocks.map entryOf
  partialWrite : s.dev.partialWrite = part.map Prod.fst
  partialSize : s.dev.partialSize = (pendingOf part).length
  heap : ∀ x ∈ part.toList ++ blocks, s.heap x.1 = some x.2
  distinct : ((part.toList ++ blocks).map Prod.fst).Nodup
  lines : ∀ x ∈ blocks, newline ∈ x.2
  pendingLine : ∀ x ∈ part, x.2 ≠ [] ∧ newline ∉ x.2
  small : ∀ x ∈ part.toList ++ blocks, x.2.length ≤ K.kmallocMax

def released (s : DriverState) : Heap UInt8 :=
  match s.dev.partialWrite with
  | none => s.heap
  | some p => erase s.heap p

/-- The state once the bytes stand in a block at `p`, as a retained command
when they end in a line, as pending bytes when they do not. -/
def stored (s : DriverState) (p : Addr) (bytes : List UInt8) (hasNewline : Bool) : DriverState :=
  keepCombined { s with heap := alloc (released s) p bytes } p bytes.length hasNewline

section
variable {K : Kernel} {s : DriverState} {blocks : List Block} {part : Option Block}

theorem holds_init (K : Kernel) : Holds K aesdInitModule [] none where
  unlocked := rfl
  ring := valid_init
  content := content_init
  partialWrite := rfl
  partialSize := rfl
  heap := by simp
  distinct := by simp
  lines := by simp
  pendingLine := by simp
  small := by simp

@[simp] theorem keepCombined_heap (s : DriverState) (p : Addr) (n : ℕ) (b : Bool) :
    (keepCombined s p n b).heap = s.heap := by
  cases b <;> rfl

theorem released_block (h : Holds K s blocks part) {x : Block} (hx : x ∈ blocks) :
    released s x.1 = some x.2 := by
  have hh := h.heap x (List.mem_append_right _ hx)
  cases part with
  | none =>
    have hpw : s.dev.partialWrite = none := h.partialWrite
    simpa only [released, hpw] using hh
  | some y =>
    have hpw : s.dev.partialWrite = some y.1 := h.partialWrite
    have hd := h.distinct
    simp only [Option.toList_some, List.singleton_append, List.map_cons, List.nodup_cons] at hd
    have hxy : x.1 ≠ y.1 := fun he => hd.1 (he ▸ List.mem_map_of_mem hx)
    simpa only [released, hpw, erase_other _ hxy] using hh

theorem block_ne_fresh (h : Holds K s blocks part) {p : Addr} (hp : released s p = none)
    {x : Block} (hx : x ∈ blocks) : x.1 ≠ p := by
  intro he
  have hh := released_block h hx
  rw [he, hp] at hh
  cases hh

theorem newline_pending (h : Holds K s blocks part) : newline ∉ pendingOf part := by
  cases part with
  | none => simp [pendingOf]
  | some x => exact (h.pendingLine x rfl).2

theorem blocks_nodup (h : Holds K s blocks part) : (blocks.map Prod.fst).Nodup := by
  have hd := h.distinct
  rw [List.map_append] at hd
  exact (List.nodup_append.mp hd).2.1

theorem stored_blocks (h : Holds K s blocks part) {p : Addr} (hp : released s p = none)
    (bytes : List UInt8) (b : Bool) :
    (∀ x ∈ blocks ++ [(p,bytes)], (stored s p bytes b).heap x.1 = some x.2) ∧
      ((blocks ++ [(p,bytes)]).map Prod.fst).Nodup := by
  constructor
  · intro x hx
    rcases List.mem_append.mp hx with hx | hx
    · simp [stored, alloc_other _ _ (block_ne_fresh h hp hx), released_block h hx]
    · rw [List.mem_singleton] at hx
      subst hx
      simp [stored]
  · rw [List.map_append, List.nodup_append]
    refine ⟨blocks_nodup h, by simp, ?_⟩
    rintro a ha c hc rfl
    obtain ⟨x, hx, hxa⟩ := List.mem_map.mp ha
    have hpa : a = p := by simpa using hc
    exact block_ne_fresh h hp hx (hxa.trans hpa)

theorem stored_commit (h : Holds K s blocks part) {p : Addr} {d : List UInt8}
    (hp : released s p = none) (hn : newline ∈ d)
    (hsmall : (pendingOf part ++ d).length ≤ K.kmallocMax) :
    Holds K (stored s p (pendingOf part ++ d) true)
      ((blocks ++ [(p,pendingOf part ++ d)]).rtake maxWriteOperationsSupported) none := by
  obtain ⟨hheap, hnodup⟩ := stored_blocks h hp (pendingOf part ++ d) true
  have hsuf := rtake_suffix (blocks ++ [(p,pendingOf part ++ d)]) maxWriteOperationsSupported
  refine ⟨h.unlocked, valid_addEntry h.ring _, ?_, rfl, rfl, ?_, ?_, ?_, by simp, ?_⟩
  · change (aesdCircularBufferAddEntry s.dev.buffer _).1.content = _
    rw [content_addEntry h.ring, h.content, map_rtake, List.map_append]
    rfl
  · exact fun x hx => hheap x (hsuf.subset hx)
  · exact hnodup.sublist (hsuf.sublist.map Prod.fst)
  · intro x hx
    rcases List.mem_append.mp (hsuf.subset hx) with hx | hx
    · exact h.lines x hx
    · rw [List.mem_singleton] at hx
      subst hx
      exact List.mem_append_right _ hn
  · intro x hx
    rcases List.mem_append.mp (hsuf.subset hx) with hx | hx
    · exact h.small x (List.mem_append_right _ hx)
    · rw [List.mem_singleton] at hx
      subst hx
      exact hsmall

theorem stored_pending (h : Holds K s blocks part) {p : Addr} {d : List UInt8}
    (hp : released s p = none) (hd : d ≠ []) (hn : newline ∉ d)
    (hsmall : (pendingOf part ++ d).length ≤ K.kmallocMax) :
    Holds K (stored s p (pendingOf part ++ d) false) blocks (some (p,pendingOf part ++ d)) := by
  obtain ⟨hheap, hnodup⟩ := stored_blocks h hp (pendingOf part ++ d) false
  have hperm : ((some (p,pendingOf part ++ d)).toList ++ blocks).Perm
      (blocks ++ [(p,pendingOf part ++ d)]) := List.perm_append_comm
  refine ⟨h.unlocked, h.ring, h.content, rfl, rfl, ?_, ?_, h.lines, ?_, ?_⟩
  · exact fun x hx => hheap x (hperm.subset hx)
  · exact (hperm.map Prod.fst).nodup_iff.mpr hnodup
  · intro x hx
    obtain rfl : (p,pendingOf part ++ d) = x := by simpa using hx
    simp [hd, hn, newline_pending h]
  · intro x hx
    rcases List.mem_append.mp (hperm.subset hx) with hx | hx
    · exact h.small x (List.mem_append_right _ hx)
    · rw [List.mem_singleton] at hx
      subst hx
      exact hsmall

end

end Aesd.DriverInvariant
