import Aesd.DriverInvariant

/-!
# What a call of `aesd_write` does

`goesThrough` says that none of the failure exits is taken. From a state which
holds its blocks, such a call leaves the pending bytes and the new ones in one
block, and every other call leaves the state as it was.
-/

set_option autoImplicit false

namespace Aesd.DriverWrite
open BlockHeap Allocation MachineInt Ring
open Aesd.CircularBuffer Aesd.KernelMemory Aesd.CharDriver Aesd.DriverInvariant

/-- The call takes the lock: its arguments are valid, `kmalloc` grants
`tmp_buf`, the copy from user space and the lock succeed. -/
def writeEnters (K : Kernel) (s : DriverState) (c : WriteCall) : Bool :=
  !c.nullArg && 0 ≤ c.fPos && c.data.length != 0 && !c.nullDev &&
  kmallocGrants K s.heap c.data.length c.kmallocAt && !c.copyFaults && !c.interrupted

/-- None of the failure exits of `aesd_write` is taken: besides, `krealloc`
grants the combined buffer when there are pending bytes. -/
def goesThrough (K : Kernel) (s : DriverState) (c : WriteCall) : Bool :=
  writeEnters K s c &&
  match s.dev.partialWrite, c.kmallocAt with
  | some p, some tmpBuf => kreallocGrants K (alloc s.heap tmpBuf c.data) p
      (wrapU64 (s.dev.partialSize+c.data.length)) c.kreallocAt
  | _, _ => true

section
variable {K : Kernel} {s : DriverState} {blocks : List Block} {part : Option Block}

theorem lock_unlock (h : s.dev.bufferLock = false) :
    { s.dev with bufferLock := false } = s.dev := by
  rw [← h]

theorem mutexLock_free {dev : AesdDev} (h : dev.bufferLock = false) :
    mutexLock dev = .ok { dev with bufferLock := true } := by
  simp [mutexLock, h]

theorem mutexUnlock_held {dev : AesdDev} (h : dev.bufferLock = true) :
    mutexUnlock dev = .ok { dev with bufferLock := false } := by
  simp [mutexUnlock, h]

theorem keepCombined_unlock (s : DriverState) (h : Heap UInt8) (p : Addr) (n : ℕ) (b : Bool)
    (retval : ℤ) (hl : s.dev.bufferLock = false) :
    writeUnlock (keepCombined ⟨{ s.dev with bufferLock := true }, h⟩ p n b) retval none =
      .ok (keepCombined { s with heap := h } p n b, retval) := by
  obtain ⟨⟨buffer, lock, pw, ps⟩, heap⟩ := s
  simp only at hl
  subst hl
  cases b <;> rfl

theorem aesdWrite_not_entered (c : WriteCall) (hg : writeEnters K s c = false) :
    ∃ r, r < 0 ∧ aesdWrite K s c = .ok (s, r) := by
  by_cases harg : c.nullArg = true ∨ c.fPos < 0 ∨ c.data.length = 0
  · exact ⟨-EINVAL, by decide, by simp only [aesdWrite, if_pos harg]⟩
  by_cases hdev : c.nullDev = true
  · exact ⟨-EINVAL, by decide, by simp only [aesdWrite, if_neg harg, if_pos hdev]⟩
  cases hk : kmallocGrants K s.heap c.data.length c.kmallocAt with
  | false =>
    refine ⟨-ENOMEM, by decide, ?_⟩
    simp only [aesdWrite, if_neg harg, if_neg hdev, kmalloc_refused K _ _ _ hk]
  | true =>
    obtain ⟨a, _, ha, _, hm⟩ := kmalloc_granted K _ _ _ hk
    by_cases hcopy : c.copyFaults = true
    · refine ⟨-EFAULT, by decide, ?_⟩
      simp only [aesdWrite, if_neg harg, if_neg hdev, hm, if_pos hcopy, free_alloc _ _ ha,
        ok_bind, pure_eq_ok]
    by_cases hint : c.interrupted = true
    · refine ⟨-ERESTARTSYS, by decide, ?_⟩
      have hst := store_live _ (alloc_same s.heap a (fresh K.allocator c.data.length)) 0 c.data
        (by simp)
      simp only [aesdWrite, if_neg harg, if_neg hdev, hm, if_neg hcopy, hst, alloc_alloc,
        if_pos hint, free_alloc _ _ ha, ok_bind, pure_eq_ok]
    · simp_all [writeEnters]

theorem aesdWrite_entered (h : Holds K s blocks part) (c : WriteCall)
    (hg : writeEnters K s c = true) :
    ∃ a, c.kmallocAt = some a ∧ s.heap a = none ∧ c.data ≠ [] ∧
      c.data.length ≤ K.kmallocMax ∧
      aesdWrite K s c =
        (writeLocked K ⟨{ s.dev with bufferLock := true }, alloc s.heap a c.data⟩ a
          c.data.length c.kreallocAt >>= fun x => writeUnlock x.1 x.2.1 x.2.2) := by
  simp only [writeEnters, Bool.and_eq_true, Bool.not_eq_true', decide_eq_true_eq, bne_iff_ne,
    ne_eq] at hg
  obtain ⟨⟨⟨⟨⟨⟨harg, hpos⟩, hlen⟩, hdev⟩, hk⟩, hcopy⟩, hint⟩ := hg
  obtain ⟨a, hat, ha, hsmall, hm⟩ := kmalloc_granted K _ _ _ hk
  have hst := store_live _ (alloc_same s.heap a (fresh K.allocator c.data.length)) 0 c.data
    (by simp)
  rw [alloc_alloc, overwrite_whole _ _ (by simp)] at hst
  have hvalid : ¬ (c.nullArg = true ∨ c.fPos < 0 ∨ c.data.length = 0) := by
    simp [harg, hpos, hlen]
  refine ⟨a, hat, ha, fun hnil => hlen (by simp [hnil]), hsmall, ?_⟩
  simp only [aesdWrite, if_neg hvalid, hdev, hm, hcopy, hst, hint, mutexLock_free h.unlocked,
    Bool.false_eq_true, if_false, ok_bind]

theorem writeLocked_first (hw : s.dev.partialWrite = none) (hz : s.dev.partialSize = 0)
    {a : Addr} {d : List UInt8} (ha : s.heap a = some d) (hd : d.length < 2^63)
    (place : Option Addr) :
    writeLocked K s a d.length place =
      .ok (keepCombined s a d.length (d.contains newline), d.length, none) := by
  rw [writeLocked, load_whole _ ha, ok_bind, wrapS64_natCast hd]
  by_cases hn : newline ∈ d
  · obtain ⟨⟨buffer, lock, pw, ps⟩, heap⟩ := s
    simp only at hw hz
    subst hw hz
    simp [hn, keepCombined, addEntry]
  · simp [hn, hw]

theorem writeLocked_append {q a : Addr} {b d : List UInt8} (hw : s.dev.partialWrite = some q)
    (hz : s.dev.partialSize = b.length) (hq : s.heap q = some b) (ha : s.heap a = some d)
    (hqa : q ≠ a) (hd : d.length < 2^63) (hsum : b.length+d.length < 2^64)
    (place : Option Addr)
    (hg : kreallocGrants K s.heap q (wrapU64 (s.dev.partialSize+d.length)) place = true) :
    ∃ p, place = some p ∧ (p = q ∨ s.heap p = none) ∧ b.length+d.length ≤ K.kmallocMax ∧
      writeLocked K s a d.length place =
        .ok (keepCombined { s with heap := erase (alloc (erase s.heap q) p (b ++ d)) a } p
          (b.length+d.length) (d.contains newline), d.length, none) := by
  rw [hz, wrapU64_of_lt hsum] at hg
  obtain ⟨p, hat, hp, hsmall, hk⟩ := krealloc_granted K _ hq _ _ hg
  have hpa : a ≠ p := by
    rintro rfl
    rcases hp with h | h
    · exact hqa h.symm
    · rw [ha] at h
      cases h
  have hgrown : b.take (b.length+d.length) = b := List.take_of_length_le (by omega)
  rw [hgrown, Nat.add_sub_cancel_left] at hk
  have hst := store_live (alloc (erase s.heap q) p (b ++ fresh K.allocator d.length))
    (alloc_same _ _ _) b.length d (by simp)
  rw [alloc_alloc, overwrite_append _ _ _ (length_fresh _ _)] at hst
  have htmp (x : List UInt8) : alloc (erase s.heap q) p x a = some d := by
    rw [alloc_other _ _ hpa, erase_other _ hqa.symm, ha]
  refine ⟨p, hat, hp, hsmall, ?_⟩
  simp [writeLocked, load_whole _ ha, hw, hz, wrapU64_of_lt hsum, hk, load_whole _ (htmp _), hst,
    free_live _ (htmp _), wrapS64_natCast hd]

theorem writeLocked_refused {q a : Addr} {b d : List UInt8} (hw : s.dev.partialWrite = some q)
    (hq : s.heap q = some b) (ha : s.heap a = some d) (place : Option Addr)
    (hg : kreallocGrants K s.heap q (wrapU64 (s.dev.partialSize+d.length)) place = false) :
    writeLocked K s a d.length place = .ok (s, -ENOMEM, some a) := by
  simp [writeLocked, load_whole _ ha, hw, krealloc_refused K _ hq _ _ hg]

def placedAt (part : Option Block) (c : WriteCall) : Option Addr :=
  match part with
  | none => c.kmallocAt
  | some _ => c.kreallocAt

/-- Everything a successful call does: the pending bytes and the new ones end
up in one block, placed where nothing else is. -/
theorem aesdWrite_placed (h : Holds K s blocks part) (c : WriteCall)
    (hg : goesThrough K s c = true) :
    ∃ p, placedAt part c = some p ∧ released s p = none ∧ c.data ≠ [] ∧
      (pendingOf part ++ c.data).length ≤ K.kmallocMax ∧
      aesdWrite K s c =
        .ok (stored s p (pendingOf part ++ c.data) (c.data.contains newline), c.data.length) := by
  obtain ⟨hin, hg⟩ := Bool.and_eq_true_iff.mp hg
  obtain ⟨a, hat, ha, hne, hsmall, hw⟩ := aesdWrite_entered h c hin
  have hmax := K.kmallocMax_small
  cases part with
  | none =>
    have hpw : s.dev.partialWrite = none := h.partialWrite
    refine ⟨a, hat, by simpa [released, hpw] using ha, hne, hsmall, ?_⟩
    rw [hw, writeLocked_first (by exact hpw) (by exact h.partialSize) (alloc_same _ _ _) (by omega),
      ok_bind]
    have hu := keepCombined_unlock s (alloc s.heap a c.data) a c.data.length
      (c.data.contains newline) c.data.length h.unlocked
    simpa [stored, released, hpw, pendingOf] using hu
  | some x =>
    obtain ⟨q, b⟩ := x
    have hpw : s.dev.partialWrite = some q := h.partialWrite
    have hps : s.dev.partialSize = b.length := h.partialSize
    have hq : s.heap q = some b := h.heap (q, b) (by simp)
    have hb : b.length ≤ K.kmallocMax := h.small (q, b) (by simp)
    have hqa : q ≠ a := by
      rintro rfl
      rw [ha] at hq
      cases hq
    rw [hpw, hat] at hg
    obtain ⟨p, hpat, hp, hsum, hl⟩ := writeLocked_append (K := K)
      (s := ⟨{ s.dev with bufferLock := true }, alloc s.heap a c.data⟩) hpw hps
      ((alloc_other _ _ hqa).trans hq) (alloc_same _ _ _) hqa (by omega) (by omega) _ hg
    change p = q ∨ alloc s.heap a c.data p = none at hp
    have hap : a ≠ p := by
      rintro rfl
      rcases hp with hp | hp
      · exact hqa hp.symm
      · simp at hp
    have hfree : erase s.heap q p = none := by
      rcases hp with rfl | hp
      · exact erase_same _ _
      · by_cases hpq : p = q
        · rw [hpq, erase_same]
        · rw [alloc_other _ _ hap.symm] at hp
          rw [erase_other _ hpq, hp]
    have hheap : erase (alloc (erase (alloc s.heap a c.data) q) p (b ++ c.data)) a =
        alloc (erase s.heap q) p (b ++ c.data) := by
      rw [erase_alloc_comm _ _ hqa.symm, alloc_comm _ _ _ hap]
      apply erase_alloc
      rw [alloc_other _ _ hap, erase_other _ hqa.symm, ha]
    refine ⟨p, hpat, by simpa [released, hpw] using hfree, hne, by simpa [pendingOf] using hsum, ?_⟩
    have hu := keepCombined_unlock s (alloc (erase s.heap q) p (b ++ c.data)) p
      (b.length+c.data.length) (c.data.contains newline) c.data.length h.unlocked
    rw [hw, hl, ok_bind, hheap]
    simpa [stored, released, hpw, pendingOf] using hu

theorem aesdWrite_stored (h : Holds K s blocks part) (c : WriteCall)
    (hg : goesThrough K s c = true) :
    ∃ p, released s p = none ∧ c.data ≠ [] ∧
      (pendingOf part ++ c.data).length ≤ K.kmallocMax ∧
      aesdWrite K s c =
        .ok (stored s p (pendingOf part ++ c.data) (c.data.contains newline), c.data.length) := by
  obtain ⟨p, _, hstored⟩ := aesdWrite_placed h c hg
  exact ⟨p, hstored⟩

theorem goesThrough_small (h : Holds K s blocks part) (c : WriteCall)
    (hg : goesThrough K s c = true) : c.data.length ≤ K.kmallocMax := by
  obtain ⟨_, _, _, hsum, _⟩ := aesdWrite_stored h c hg
  rw [List.length_append] at hsum
  omega

theorem aesdWrite_refused (h : Holds K s blocks part) (c : WriteCall)
    (hg : goesThrough K s c = false) : ∃ r, r < 0 ∧ aesdWrite K s c = .ok (s, r) := by
  cases hin : writeEnters K s c with
  | false => exact aesdWrite_not_entered c hin
  | true =>
    obtain ⟨a, hat, ha, _, _, hw⟩ := aesdWrite_entered h c hin
    cases part with
    | none =>
      have hpw : s.dev.partialWrite = none := h.partialWrite
      simp [goesThrough, hin, hpw] at hg
    | some x =>
      obtain ⟨q, b⟩ := x
      have hpw : s.dev.partialWrite = some q := h.partialWrite
      have hq : s.heap q = some b := h.heap (q, b) (by simp)
      have hqa : q ≠ a := by
        rintro rfl
        rw [ha] at hq
        cases hq
      have hl := writeLocked_refused (K := K)
        (s := ⟨{ s.dev with bufferLock := true }, alloc s.heap a c.data⟩) hpw
        ((alloc_other _ _ hqa).trans hq) (alloc_same _ _ _) c.kreallocAt
        (by simpa [goesThrough, hin, hpw, hat] using hg)
      refine ⟨-ENOMEM, by decide, ?_⟩
      rw [hw, hl, ok_bind, writeUnlock, mutexUnlock_held rfl, ok_bind]
      simp only [free_alloc _ _ ha, lock_unlock h.unlocked, ok_bind, pure_eq_ok]

theorem aesdWrite_cases (h : Holds K s blocks part) (c : WriteCall) :
    (goesThrough K s c = false ∧ ∃ r, r < 0 ∧ aesdWrite K s c = .ok (s, r)) ∨
    (goesThrough K s c = true ∧ newline ∈ c.data ∧ ∃ p, released s p = none ∧
      aesdWrite K s c = .ok (stored s p (pendingOf part ++ c.data) true, c.data.length) ∧
      Holds K (stored s p (pendingOf part ++ c.data) true)
        ((blocks ++ [(p,pendingOf part ++ c.data)]).rtake maxWriteOperationsSupported) none) ∨
    (goesThrough K s c = true ∧ newline ∉ c.data ∧ ∃ p, released s p = none ∧
      aesdWrite K s c = .ok (stored s p (pendingOf part ++ c.data) false, c.data.length) ∧
      Holds K (stored s p (pendingOf part ++ c.data) false) blocks
        (some (p,pendingOf part ++ c.data))) := by
  cases hg : goesThrough K s c with
  | false => exact .inl ⟨rfl, aesdWrite_refused h c hg⟩
  | true =>
    obtain ⟨p, hp, hne, hsmall, hw⟩ := aesdWrite_stored h c hg
    by_cases hn : newline ∈ c.data
    · rw [List.contains_iff_mem.mpr hn] at hw
      exact .inr (.inl ⟨rfl, hn, p, hp, hw, stored_commit h hp hn hsmall⟩)
    · rw [Bool.eq_false_iff.mpr (mt List.contains_iff_mem.mp hn)] at hw
      exact .inr (.inr ⟨rfl, hn, p, hp, hw, stored_pending h hp hne hn hsmall⟩)

end

end Aesd.DriverWrite
