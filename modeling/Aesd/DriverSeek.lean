import Aesd.DriverRead

/-!
# Positions set by `aesd_llseek` and by the seek ioctl

Both sum sizes of ring entries, one over the whole array and one over the
commands before the one addressed. While the device holds its blocks these are
the length of the content and the start of a command in it.
-/

set_option autoImplicit false

namespace Aesd.DriverSeek
open BlockHeap MachineInt Segments
open Aesd.CircularBuffer Aesd.KernelMemory Aesd.CharDriver
open Aesd.DriverInvariant Aesd.DriverWrite Aesd.CommandLog Aesd.DriverRead

def Addresses (s : DriverState) (w o : ℕ) : Prop :=
  ∃ h : w < (commands s).length, o < ((commands s)[w]).length

def position (s : DriverState) (w o : ℕ) : ℕ := start ((commands s).map List.length) w+o

instance (s : DriverState) (w o : ℕ) : Decidable (Addresses s w o) := by
  unfold Addresses
  infer_instance

def ioctlReply (cmds : List (List UInt8)) (fPos : ℤ) (cmd : ℕ) (arg : Option AesdSeekto) : ℤ × ℤ :=
  if cmd ≠ AESDCHAR_IOCSEEKTO then (fPos, -ENOTTY)
  else
    match arg with
    | none => (fPos, -EFAULT)
    | some seekto =>
      if ∃ h : seekto.writeCmd.toNat < cmds.length,
          seekto.writeCmdOffset.toNat < (cmds[seekto.writeCmd.toNat]).length then
        ((start (cmds.map List.length) seekto.writeCmd.toNat+seekto.writeCmdOffset.toNat : ℕ), 0)
      else (fPos, -EINVAL)

def whenceBase (total fPos whence : ℤ) : Option ℤ :=
  if whence = SEEK_SET then some 0
  else if whence = SEEK_CUR then some fPos
  else if whence = SEEK_END then some total
  else none

theorem seekTarget_eq (total fPos : ℤ) {offset : ℤ} (whence : ℤ) (hl : -2^63 ≤ offset)
    (hu : offset < 2^63) :
    seekTarget total fPos offset whence =
      (whenceBase total fPos whence).map fun base => wrapS64 (base+offset) := by
  rw [seekTarget, whenceBase]
  split_ifs <;> simp [wrapS64_of_mem hl hu]

theorem whenceBase_range {total fPos whence base : ℤ} (ht : 0 ≤ total) (ht' : total < 2^63)
    (h0 : 0 ≤ fPos) (hlt : fPos < 2^63) (h : whenceBase total fPos whence = some base) :
    0 ≤ base ∧ base < 2^63 := by
  rw [whenceBase] at h
  split_ifs at h <;> cases h <;> omega

theorem wrapped_in_range {α : Type} (fails : α) (moves : ℤ → α) {base offset total : ℤ}
    (hb : 0 ≤ base) (hb' : base < 2^63) (hl : -2^63 ≤ offset) (hu : offset < 2^63)
    (ht : total < 2^63) :
    (if wrapS64 (base+offset) < 0 ∨ wrapS64 (base+offset) > total then fails
      else moves (wrapS64 (base+offset))) =
      if 0 ≤ base+offset ∧ base+offset ≤ total then moves (base+offset) else fails := by
  by_cases hfit : base+offset < 2^63
  · rw [wrapS64_of_mem (by omega) hfit]
    split_ifs <;> first | rfl | omega
  · have hneg := wrapS64_overflow (show 2^63 ≤ base+offset by omega) (by omega)
    rw [if_pos (.inl hneg), if_neg (by omega)]

section
variable {K : Kernel} {s : DriverState} {blocks : List Block} {part : Option Block}

theorem sum_foreach (h : Holds K s blocks part) :
    (s.dev.buffer.foreach.map AesdBufferEntry.size).sum = (content s).length := by
  rw [((foreach_perm h.ring).map _).sum_eq, List.map_append, List.sum_append,
    ← sum_sizes h, AesdCircularBuffer.sizes]
  simp [zeroEntry]

theorem totalSize_eq (h : Holds K s blocks part) :
    totalSize s.dev.buffer = (content s).length := by
  have hlt := length_content_lt h
  have hsum := sum_foreach h
  have hfold := foldl_wrapS64 (s.dev.buffer.foreach.map AesdBufferEntry.size) 0 (by omega)
  rw [List.foldl_map, hsum, Nat.zero_add] at hfold
  exact hfold

theorem position_lt {w o : ℕ} (ha : Addresses s w o) :
    position s w o < (content s).length := by
  obtain ⟨hw, ho⟩ := ha
  have hsucc := start_succ (show w < ((commands s).map List.length).length by simpa using hw)
  have hle := start_le_sum ((commands s).map List.length) (w+1)
  rw [List.getElem_map] at hsucc
  rw [content, List.length_flatten, position]
  omega

theorem sizes_before (h : Holds K s blocks part) {w : ℕ} (hw : w ≤ (commands s).length) :
    (List.range w).map (fun i => (s.dev.buffer.slot (s.dev.buffer.physical i)).size) =
      ((commands s).map List.length).take w := by
  apply List.ext_getElem
  · simpa using hw
  · intro i hi _
    rw [List.length_map, List.length_range] at hi
    rw [List.getElem_map, List.getElem_range, List.getElem_take, List.getElem_map]
    obtain ⟨q, hslot, _⟩ := slot_command h (k := i) (by omega)
    rw [hslot]

theorem start_lt (h : Holds K s blocks part) (w : ℕ) :
    start ((commands s).map List.length) w < 2^63 := by
  have hlt := length_content_lt h
  rw [content, List.length_flatten] at hlt
  exact Nat.lt_of_le_of_lt (start_le_sum _ w) hlt

theorem seekBase_eq (h : Holds K s blocks part) {w : ℕ} (hw : w ≤ (commands s).length) :
    seekBase s.dev.buffer w = start ((commands s).map List.length) w := by
  have hfold := foldl_wrapS64 (((commands s).map List.length).take w) 0 (by
    rw [Nat.zero_add]
    exact start_lt h w)
  rw [← sizes_before h hw, List.foldl_map, sizes_before h hw, Nat.zero_add] at hfold
  exact hfold

theorem ioctl_accepts (h : Holds K s blocks part) (fPos : ℤ) (seekto : AesdSeekto)
    (ha : Addresses s seekto.writeCmd.toNat seekto.writeCmdOffset.toNat) :
    aesdUnlockedIoctl s fPos AESDCHAR_IOCSEEKTO (some seekto) =
      .ok (s, position s seekto.writeCmd.toNat seekto.writeCmdOffset.toNat, 0) := by
  have hpos := position_lt ha
  have hlt := length_content_lt h
  obtain ⟨hw, ho⟩ := ha
  obtain ⟨q, hslot, _⟩ := slot_command h hw
  have hcount : ¬ seekto.writeCmd.toNat ≥ s.dev.buffer.count := by
    rw [← length_commands h]
    omega
  have hbase : wrapS64 (seekBase s.dev.buffer seekto.writeCmd.toNat+
      seekto.writeCmdOffset.toNat) =
      position s seekto.writeCmd.toNat seekto.writeCmdOffset.toNat := by
    rw [seekBase_eq h hw.le, ← Int.natCast_add]
    exact wrapS64_natCast (by rw [position] at hpos; omega)
  unfold AesdCircularBuffer.count at hcount
  unfold AesdCircularBuffer.physical at hslot
  simp only [aesdUnlockedIoctl, ne_eq, not_true, if_false, mutexLock_free h.unlocked, ok_bind,
    if_neg hcount, hslot, reduceCtorEq, false_or, if_neg (Nat.not_le.mpr ho), hbase,
    mutexUnlock_held, lock_unlock h.unlocked, pure_eq_ok]

theorem ioctl_unaddressed (h : Holds K s blocks part) (fPos : ℤ) (seekto : AesdSeekto)
    (ha : ¬ Addresses s seekto.writeCmd.toNat seekto.writeCmdOffset.toNat) :
    aesdUnlockedIoctl s fPos AESDCHAR_IOCSEEKTO (some seekto) = .ok (s, fPos, -EINVAL) := by
  by_cases hw : seekto.writeCmd.toNat < (commands s).length
  · obtain ⟨q, hslot, _⟩ := slot_command h hw
    have ho : seekto.writeCmdOffset.toNat ≥ ((commands s)[seekto.writeCmd.toNat]).length :=
      Nat.not_lt.mp fun ho => ha ⟨hw, ho⟩
    have hcount : ¬ seekto.writeCmd.toNat ≥ s.dev.buffer.count := by
      rw [← length_commands h]
      omega
    unfold AesdCircularBuffer.count at hcount
    unfold AesdCircularBuffer.physical at hslot
    simp only [aesdUnlockedIoctl, ne_eq, not_true, if_false, mutexLock_free h.unlocked, ok_bind,
      if_neg hcount, hslot, ho, or_true, if_true, mutexUnlock_held, lock_unlock h.unlocked,
      pure_eq_ok]
  · have hcount : seekto.writeCmd.toNat ≥ s.dev.buffer.count := by
      rw [← length_commands h]
      omega
    unfold AesdCircularBuffer.count at hcount
    simp only [aesdUnlockedIoctl, ne_eq, not_true, if_false, mutexLock_free h.unlocked, ok_bind,
      if_pos hcount, mutexUnlock_held, lock_unlock h.unlocked, pure_eq_ok]

theorem ioctl_eq (h : Holds K s blocks part) (fPos : ℤ) (cmd : ℕ) (arg : Option AesdSeekto) :
    aesdUnlockedIoctl s fPos cmd arg = .ok (s, ioctlReply (commands s) fPos cmd arg) := by
  by_cases hcmd : cmd ≠ AESDCHAR_IOCSEEKTO
  · simp only [aesdUnlockedIoctl, ioctlReply, if_pos hcmd]
  obtain rfl := not_not.mp hcmd
  cases arg with
  | none => rfl
  | some seekto =>
    by_cases ha : Addresses s seekto.writeCmd.toNat seekto.writeCmdOffset.toNat
    · rw [ioctl_accepts h fPos seekto ha]
      exact congrArg (fun reply => Except.ok (s, reply)) (if_pos ha).symm
    · rw [ioctl_unaddressed h fPos seekto ha]
      exact congrArg (fun reply => Except.ok (s, reply)) (if_neg ha).symm

theorem ioctl_refuses (h : Holds K s blocks part) (fPos : ℤ) (cmd : ℕ) (arg : Option AesdSeekto)
    (ha : cmd = AESDCHAR_IOCSEEKTO → ∀ seekto ∈ arg,
      ¬ Addresses s seekto.writeCmd.toNat seekto.writeCmdOffset.toNat) :
    ∃ r, r < 0 ∧ aesdUnlockedIoctl s fPos cmd arg = .ok (s, fPos, r) := by
  by_cases hcmd : cmd ≠ AESDCHAR_IOCSEEKTO
  · exact ⟨-ENOTTY, by decide, by simp only [aesdUnlockedIoctl, if_pos hcmd]⟩
  obtain rfl := not_not.mp hcmd
  cases arg with
  | none => exact ⟨-EFAULT, by decide, rfl⟩
  | some seekto => exact ⟨-EINVAL, by decide, ioctl_unaddressed h fPos seekto (ha rfl seekto rfl)⟩

theorem llseek_spec (h : Holds K s blocks part) (fPos offset whence : ℤ) :
    aesdLlseek s fPos offset whence = .ok (s,
      match seekTarget (content s).length fPos offset whence with
      | none => (fPos, -EINVAL)
      | some p => if p < 0 ∨ p > (content s).length then (fPos, -EINVAL) else (p, p)) := by
  rw [aesdLlseek, mutexLock_free h.unlocked, ok_bind]
  simp only [totalSize_eq h, mutexUnlock_held, lock_unlock h.unlocked, ok_bind]
  cases seekTarget (content s).length fPos offset whence with
  | none => rfl
  | some p =>
    dsimp only
    split_ifs <;> rfl

theorem llseek_exact (h : Holds K s blocks part) {fPos offset : ℤ} (whence : ℤ) (h0 : 0 ≤ fPos)
    (hlt : fPos < 2^63) (hl : -2^63 ≤ offset) (hu : offset < 2^63) :
    aesdLlseek s fPos offset whence = .ok (s,
      match whenceBase (content s).length fPos whence with
      | none => (fPos, -EINVAL)
      | some base =>
        if 0 ≤ base+offset ∧ base+offset ≤ (content s).length then (base+offset, base+offset)
        else (fPos, -EINVAL)) := by
  have hlen := length_content_lt h
  rw [llseek_spec h, seekTarget_eq _ _ whence hl hu]
  cases hbase : whenceBase (content s).length fPos whence with
  | none => rfl
  | some base =>
    obtain ⟨hb, hb'⟩ := whenceBase_range (by omega) (by omega) h0 hlt hbase
    exact congrArg (fun reply => Except.ok (s, reply))
      (wrapped_in_range (fPos, -EINVAL) (fun p => (p, p)) hb hb' hl hu (by omega))

theorem readReply_zero_iff (s : DriverState) (c : ReadCall) :
    (readReply (commands s) c).retval = 0 ↔
      readEnters c = true ∧ ((content s).length:ℤ) ≤ c.fPos := by
  cases hg : readEnters c with
  | false =>
    obtain ⟨r, hr, hreply⟩ := readReply_not_entered (commands s) c hg
    rw [hreply]
    simp only [Bool.false_eq_true, false_and, iff_false]
    omega
  | true =>
    have hsum := pieces_le s c.fPos.toNat c.count
    obtain ⟨hdel, hdone⟩ := copyPieces_spec (content s)
      (pieces ((commands s).map List.length) c.fPos.toNat c.count) c.copyFaults c.fPos.toNat
      c.buf 0 (by omega)
    rw [readReply_entered _ c hg]
    simp only [readEnters, Bool.and_eq_true, decide_eq_true_eq, bne_iff_ne] at hg
    obtain ⟨⟨⟨_, h0⟩, hcount⟩, _⟩ := hg
    simp only [true_and]
    by_cases hend : ((content s).length:ℤ) ≤ c.fPos
    · have hnil : pieces ((commands s).map List.length) c.fPos.toNat c.count = [] :=
        pieces_behind _ (by rw [← List.length_flatten, ← content]; omega)
      rw [hnil]
      exact iff_of_true rfl hend
    · refine iff_of_false ?_ hend
      rw [content] at hdel hsum hend
      split_ifs with hd
      · have hall := (hdel.all hd).1
        omega
      · decide

end

/-- Although the sum goes over all ten slots and is taken modulo `2^64`,
`aesd_llseek` decides as exact arithmetic does, and the size it finds is where
`aesd_read` starts to return 0. -/
theorem llseek_agrees_with_read {K : Kernel} {s : DriverState} (hs : WriteReachable K s)
    (fPos : ℤ) (h0 : 0 ≤ fPos) (hlt : fPos < 2^63) :
    let total := s.dev.buffer.sizes.sum
    totalSize s.dev.buffer = total ∧ total = (content s).length ∧
    (∀ offset whence : ℤ, -2^63 ≤ offset → offset < 2^63 →
      aesdLlseek s fPos offset whence = .ok (s,
        match whenceBase total fPos whence with
        | none => (fPos, -EINVAL)
        | some base =>
          if 0 ≤ base+offset ∧ base+offset ≤ total then (base+offset, base+offset)
          else (fPos, -EINVAL))) ∧
    (∀ c : ReadCall, c.fPos < 2^63 → c.count < 2^64 → ∃ r, aesdRead s c = .ok (s, r) ∧
      (r.retval = 0 ↔ readEnters c = true ∧ (total:ℤ) ≤ c.fPos)) ∧
    ∀ (k : ℕ) (s' : DriverState) (p r : ℤ), k ≤ 2^63 →
      aesdLlseek s fPos (-k) SEEK_END = .ok (s', p, r) → 0 ≤ r →
      ∀ c : ReadCall, c.fPos = p → readEnters c = true → k ≤ c.count → c.count < 2^64 →
        (∀ f ∈ c.copyFaults, f = none) → k ≤ c.buf.length →
        aesdRead s' c = .ok (s', ⟨k, total, (content s).drop (total-k) ++ c.buf.drop k⟩) := by
  obtain ⟨blocks, part, h⟩ := hs.holds
  have hlen := length_content_lt h
  rw [sum_sizes h]
  refine ⟨totalSize_eq h, rfl, ?_, ?_, ?_⟩
  · exact fun offset whence hl hu => llseek_exact h whence h0 hlt hl hu
  · intro c hpos hcount
    exact ⟨_, aesdRead_eq h c hpos hcount, readReply_zero_iff s c⟩
  · intro k s' p r hk hseek hr c hp hg hcount hcount' hcopy hroom
    have hend : whenceBase (content s).length fPos SEEK_END = some ((content s).length:ℤ) := rfl
    rw [llseek_exact h SEEK_END h0 hlt (by omega) (by omega), hend] at hseek
    obtain ⟨rfl, hpr⟩ := Prod.mk.inj (Except.ok.inj hseek)
    simp only at hpr
    split_ifs at hpr with hin
    · obtain ⟨rfl, rfl⟩ := Prod.mk.inj hpr
      have hmin : min c.count ((content s).length-c.fPos.toNat) = k := by omega
      have hread := aesdRead_delivers h c hg (by omega) hcount' hcopy (by rwa [hmin])
      rw [hmin, show c.fPos.toNat = (content s).length-k by omega,
        show c.fPos+k = (content s).length by omega,
        List.take_of_length_le (by rw [List.length_drop]; omega)] at hread
      exact hread
    · obtain ⟨_, rfl⟩ := Prod.mk.inj hpr
      exact absurd hr (by decide)

theorem llseek_agrees_with_read_two_lines :
    aesdRead (afterWrites pageKernel twoLines) { fPos := 4, buf := [0,0,0], count := 3 } =
        .ok (afterWrites pageKernel twoLines, ⟨2, 6, [100,10,0]⟩) ∧
      aesdLlseek (afterWrites pageKernel twoLines) 6 (2^63-1) SEEK_CUR =
        .ok (afterWrites pageKernel twoLines, 6, -EINVAL) := by
  obtain ⟨_, _, hseek, _, hlast⟩ := llseek_agrees_with_read
    (writeReachable_afterWrites pageKernel twoLines) 6 (by decide) (by decide)
  have hcontent : content (afterWrites pageKernel twoLines) = [97,98,10,99,100,10] := by decide
  have hsizes : (afterWrites pageKernel twoLines).dev.buffer.sizes.sum = 6 := by decide
  rw [hsizes] at hseek hlast
  refine ⟨?_, hseek (2^63-1) SEEK_CUR (by decide) (by decide)⟩
  have hread := hlast 2 _ 4 4 (by decide) (hseek (-2) SEEK_END (by decide) (by decide)) (by decide)
    { fPos := 4, buf := [0,0,0], count := 3 } rfl (by decide) (by decide) (by decide) (by decide)
    (by decide)
  rwa [hcontent] at hread

/-- The ioctl addresses exactly the bytes of the retained commands. It is
inverse to the position search: the search at the position set finds the slot
of the command and the offset, and what the search finds at a position inside
the content, renumbered from `out_offs`, sets that position. -/
theorem seek_ioctl_inverse {K : Kernel} (hK : K.kmallocMax < 2^32) {s : DriverState}
    (hs : WriteReachable K s) (fPos : ℤ) :
    (∀ w o : UInt32,
      (Addresses s w.toNat o.toNat → ∃ p : ℕ,
        aesdUnlockedIoctl s fPos AESDCHAR_IOCSEEKTO (some ⟨w, o⟩) = .ok (s, p, 0) ∧
        ∀ e, aesdCircularBufferFindEntryOffsetForFpos s.dev.buffer p e =
          (some ((s.dev.buffer.outOffs+w.toNat) % maxWriteOperationsSupported), o.toNat)) ∧
      (¬ Addresses s w.toNat o.toNat → ∃ r, r < 0 ∧
        aesdUnlockedIoctl s fPos AESDCHAR_IOCSEEKTO (some ⟨w, o⟩) = .ok (s, fPos, r))) ∧
    ∀ p < (content s).length, ∀ e, ∃ index, ∃ w o : UInt32,
      aesdCircularBufferFindEntryOffsetForFpos s.dev.buffer p e = (some index, o.toNat) ∧
      w.toNat = (index+maxWriteOperationsSupported-s.dev.buffer.outOffs) %
        maxWriteOperationsSupported ∧
      aesdUnlockedIoctl s fPos AESDCHAR_IOCSEEKTO (some ⟨w, o⟩) = .ok (s, p, 0) := by
  obtain ⟨blocks, part, h⟩ := hs.holds
  have hlt := length_content_lt h
  refine ⟨fun w o => ⟨fun ha => ?_, fun ha => ?_⟩, fun p hp e => ?_⟩
  · have hpos := position_lt ha
    refine ⟨position s w.toNat o.toNat, ioctl_accepts h fPos ⟨w, o⟩ ha, fun e => ?_⟩
    obtain ⟨hw, ho⟩ := ha
    rw [find_eq h _ e (by omega), position, locate_start (by simpa using hw) (by simpa using ho),
      searchResult, Nat.zero_add]
    rfl
  · exact ioctl_refuses h fPos _ _ (by rintro _ _ ⟨⟩; exact ha)
  · obtain ⟨k, o, hk, hloc, ho, hpo⟩ := locate_lt
      (show p < ((commands s).map List.length).sum by rwa [← List.length_flatten])
    rw [List.length_map] at hk
    rw [List.getElem_map] at ho
    have hcount := length_commands h
    have hle := count_le h.ring
    have hout := h.ring.outOffs_lt
    have hsmall := length_command_le h (List.getElem_mem hk)
    change s.dev.buffer.count ≤ 10 at hle
    change s.dev.buffer.outOffs < 10 at hout
    have hkn : (UInt32.ofNat k).toNat = k := UInt32.toNat_ofNat_of_lt' (by
      change k < 2^32
      omega)
    have hon : (UInt32.ofNat o).toNat = o := UInt32.toNat_ofNat_of_lt' (by
      change o < 2^32
      omega)
    refine ⟨s.dev.buffer.physical k, UInt32.ofNat k, UInt32.ofNat o, ?_, ?_, ?_⟩
    · rw [find_eq h p e (by omega), hloc, searchResult, Nat.zero_add, hon]
    · rw [hkn, AesdCircularBuffer.physical]
      change k = ((s.dev.buffer.outOffs+k) % 10+10-s.dev.buffer.outOffs) % 10
      omega
    · have ha := ioctl_accepts h fPos ⟨UInt32.ofNat k, UInt32.ofNat o⟩
        (by simp only [hkn, hon]; exact ⟨hk, ho⟩)
      rw [ha, hkn, hon, hpo]
      rfl

theorem seek_ioctl_inverse_two_lines :
    (∃ p : ℕ, aesdUnlockedIoctl (afterWrites pageKernel twoLines) 0 AESDCHAR_IOCSEEKTO
        (some ⟨1, 2⟩) = .ok (afterWrites pageKernel twoLines, p, 0) ∧
      aesdCircularBufferFindEntryOffsetForFpos (afterWrites pageKernel twoLines).dev.buffer p 0 =
        (some 1, 2)) ∧
    ∃ r < 0, aesdUnlockedIoctl (afterWrites pageKernel twoLines) 0 AESDCHAR_IOCSEEKTO
      (some ⟨1, 3⟩) = .ok (afterWrites pageKernel twoLines, 0, r) := by
  have hinv := (seek_ioctl_inverse (K := pageKernel) (by decide)
    (writeReachable_afterWrites pageKernel twoLines) 0).1
  obtain ⟨p, hseek, hfind⟩ := (hinv 1 2).1 (by decide)
  exact ⟨⟨p, hseek, hfind 0⟩, (hinv 1 3).2 (by decide)⟩

end Aesd.DriverSeek
