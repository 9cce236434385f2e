import Aesd.DriverSums

/-!
# No sum of the driver leaves its type

A block is never larger than what the allocator grants, so eleven of them, the
ten retained and the pending one, bound everything the driver adds up. Only
`aesd_llseek` adds a number which nothing bounds, the offset it is given.
-/

set_option autoImplicit false

namespace Aesd.SumBounds
open BlockHeap MachineInt Segments
open Aesd.CircularBuffer Aesd.KernelMemory Aesd.CharDriver Aesd.DriverInvariant
open Aesd.DriverWrite Aesd.CommandLog Aesd.DriverRead Aesd.DriverSeek Aesd.DriverRuns
open Aesd.DriverSums

theorem fits_of_lt (site : Site) {z : ℤ} (h0 : 0 ≤ z) (h : z < site.high) :
    Computed.Fits ⟨site, z⟩ := by
  have hlow : site.low ≤ 0 := by cases site <;> decide
  exact ⟨hlow.trans h0, h⟩

theorem fits_of_small (site : Site) {z : ℤ} (h0 : 0 ≤ z) (h : z < 2^63) :
    Computed.Fits ⟨site, z⟩ := by
  have hhigh : 2^63 ≤ site.high := by cases site <;> decide
  exact fits_of_lt site h0 (h.trans_le hhigh)

theorem sumU64_fits (site : Site) {a b : ℕ} (h : a+b < 2^63) :
    (sumU64 site a b).All Computed.Fits :=
  Traced.all_bind_record (fits_of_small site (by omega) (by exact_mod_cast h)) (Traced.all_pure _)

theorem differenceU64_fits (site : Site) {a b : ℕ} (hb : b ≤ a) (h : (a:ℤ) < site.high) :
    (differenceU64 site a b).All Computed.Fits :=
  Traced.all_bind_record (fits_of_lt site (by omega) (by omega)) (Traced.all_pure _)

theorem sumS64_fits (site : Site) {a b : ℕ} (h : a+b < 2^63) :
    (sumS64 site a b).All Computed.Fits :=
  Traced.all_bind_record (fits_of_small site (by omega) (by exact_mod_cast h)) (Traced.all_pure _)

theorem sums_fit {α : Type} (site : Site) (f : α → ℕ) (as : List α) (a : ℕ)
    (h : a+(as.map f).sum < 2^63) :
    (as.foldlM (fun total x => sumS64 site total (f x)) (a:ℤ)).All Computed.Fits := by
  refine Traced.all_foldlM (fun as (b : ℤ) => ∃ n : ℕ, b = n ∧ n+(as.map f).sum < 2^63) ?_ _ _
    ⟨a, rfl, h⟩
  rintro x as _ ⟨n, rfl, hn⟩
  rw [List.map_cons, List.sum_cons, ← Nat.add_assoc] at hn
  refine ⟨sumS64_fits site (by omega), fun b hb => ⟨n+f x, ?_, hn⟩⟩
  rw [value_sumS64, ← Int.natCast_add, wrapS64_natCast (by omega)] at hb
  exact (Except.ok.inj hb).symm

theorem findEntryLoop_fits {buffer : AesdCircularBuffer} (hv : Valid buffer)
    (hs : buffer.sizes.sum < 2^63) {charOffset : ℕ} (entryOffsetByteRtn : ℕ)
    (hc : charOffset < 2^64) (remaining k : ℕ) (hk : k < buffer.count)
    (hr : remaining+k = maxWriteOperationsSupported) (hacc : start buffer.sizes k ≤ charOffset) :
    (findEntryLoopSummed buffer charOffset entryOffsetByteRtn remaining (start buffer.sizes k)
      (buffer.physical k)).All Computed.Fits := by
  induction remaining generalizing k with
  | zero => exact Traced.all_pure _
  | succ remaining ih =>
    have hks : k < buffer.sizes.length := by rwa [length_sizes]
    have hnext := start_succ hks
    have hsum := start_le_sum buffer.sizes (k+1)
    rw [findEntryLoopSummed, ← getElem_sizes buffer k hks]
    refine Traced.all_bind_value (value_sumU64 _ _ _) (sumU64_fits _ (by omega)) ?_
    rw [wrapU64_of_lt (show start buffer.sizes k+buffer.sizes[k] < 2^64 by omega), ← hnext]
    split_ifs with hin hfull hopen
    · exact Traced.all_bind_value (value_differenceU64 _ _ _)
        (differenceU64_fits _ hacc (show (charOffset:ℤ) < 2^64 by omega)) (Traced.all_pure _)
    · exact Traced.all_pure _
    · exact Traced.all_pure _
    · have hend : k+1 ≠ buffer.count := fun he =>
        ((scan_ends_iff hv hk (by omega)).mpr he).elim hfull hopen
      rw [next_physical]
      exact ih (k+1) (by omega) (by omega) (by omega)

section
variable {K : Kernel} {s : DriverState} {blocks : List Block} {part : Option Block}

theorem findEntry_fits (h : Holds K s blocks part) {p : ℕ} (hp : p < 2^64) (e : ℕ) :
    (findEntrySummed s.dev.buffer p e).All Computed.Fits := by
  have hlt := length_content_lt h
  rw [findEntrySummed]
  split_ifs with hempty
  · exact Traced.all_pure _
  · have hloop := findEntryLoop_fits h.ring (by rwa [sum_sizes h]) e hp
      maxWriteOperationsSupported 0 (count_pos h.ring hempty) rfl (Nat.zero_le _)
    rwa [show s.dev.buffer.physical 0 = s.dev.buffer.outOffs from
      Nat.mod_eq_of_lt h.ring.outOffs_lt] at hloop

theorem readLoop_fits (h : Holds K s blocks part) (b : Bool) (fuel : ℕ)
    (faults : List (Option ℕ)) (p count off : ℕ) (buf : List UInt8) (e : ℕ) (hp : p < 2^63)
    (hoff : off+((content s).length-p) < 2^63) (hcount : count < 2^64) :
    (readLoopSummed { s with dev := { s.dev with bufferLock := b } } fuel faults
      ⟨p, buf, off, count, e⟩).All Computed.Fits := by
  have hlen := length_content_lt h
  induction fuel generalizing faults p count off buf e with
  | zero => exact Traced.all_lift _
  | succ fuel ih =>
    rw [readLoopSummed]
    by_cases hz : count = 0
    · rw [if_pos hz]
      exact Traced.all_pure _
    simp only [if_neg hz, toU64_natCast (show p < 2^64 by omega)]
    refine Traced.all_bind_value (value_findEntry _ _ _) (findEntry_fits h (by omega) e) ?_
    by_cases hend : (content s).length ≤ p
    · simp only [find_behind h hend (by omega)]
      exact Traced.all_pure _
    obtain ⟨index, o, q, bytes, hfind, hslot, _, ho, hop, hpre, _⟩ :=
      find_inside h (p := p) (by omega) e
    have hbytes : bytes.length-o ≤ (content s).length-p := by simpa using hpre.length_le
    have hread : subU64 bytes.length o = bytes.length-o := subU64_of_le ho.le (by omega)
    simp only [hfind, hslot]
    refine Traced.all_bind_value (value_differenceU64 _ _ _)
      (differenceU64_fits _ ho.le (show (bytes.length:ℤ) < 2^64 by omega)) ?_
    rw [hread]
    obtain ⟨m, hm⟩ : ∃ m, m = min (bytes.length-o) count := ⟨_, rfl⟩
    rw [← hm]
    apply Traced.all_bind_lift
    intro copied _
    split_ifs
    · exact Traced.all_pure _
    · refine Traced.all_bind_value (value_sumS64 _ _ _) (sumS64_fits _ (by omega)) ?_
      refine Traced.all_bind_value (value_sumU64 _ _ _) (sumU64_fits _ (by omega)) ?_
      refine Traced.all_bind_value (value_differenceU64 _ _ _)
        (differenceU64_fits _ (show m ≤ count by omega) (show (count:ℤ) < 2^64 by omega)) ?_
      rw [← Int.natCast_add, wrapS64_natCast (by omega), wrapU64_of_lt (by omega),
        subU64_of_le (by omega) hcount]
      exact ih _ _ _ _ _ _ (by omega) (by omega) (by omega)

theorem aesdRead_fits (h : Holds K s blocks part) (c : ReadCall) (hpos : c.fPos < 2^63)
    (hcount : c.count < 2^64) : (aesdReadSummed s c).All Computed.Fits := by
  have hlen := length_content_lt h
  rw [aesdReadSummed]
  split_ifs with harg hint
  · exact Traced.all_pure _
  · exact Traced.all_pure _
  · obtain ⟨p, hp⟩ := Int.eq_ofNat_of_zero_le (show 0 ≤ c.fPos by omega)
    rw [hp] at hpos ⊢
    refine Traced.all_bind_value (mutexLock_free h.unlocked) (Traced.all_lift _) ?_
    apply Traced.all_bind (readLoop_fits h true _ _ p _ 0 _ 0 (by omega) (by omega) hcount)
    intro x _
    exact Traced.all_bind_pure (Traced.all_lift _) _

theorem writeLocked_fits (hp : s.dev.partialSize ≤ K.kmallocMax) (tmpBuf : Addr) {count : ℕ}
    (hc : count ≤ K.kmallocMax) (kreallocAt : Option Addr) :
    (writeLockedSummed K s tmpBuf count kreallocAt).All Computed.Fits := by
  have hmax := K.kmallocMax_small
  apply Traced.all_bind_lift
  intro bytes _
  dsimp only
  split_ifs
  · exact Traced.all_pure _
  · cases s.dev.partialWrite with
    | none => exact Traced.all_pure _
    | some p =>
      apply Traced.all_bind (sumU64_fits _ (by omega))
      intro combinedSize _
      apply Traced.all_bind_lift
      intro grown _
      rcases grown with _ | ⟨combinedBuf, heap⟩
      · exact Traced.all_pure _
      · apply Traced.all_bind_lift
        intro bytes _
        apply Traced.all_bind_lift
        intro heap _
        exact Traced.all_bind_pure (Traced.all_lift _) _

theorem kmalloc_some {h : Heap UInt8} {size : ℕ} {at' : Option Addr} {x : Addr × Heap UInt8}
    (hk : kmalloc K h size at' = some x) : size ≤ K.kmallocMax := by
  cases hg : kmallocGrants K h size at' with
  | false =>
    rw [kmalloc_refused K h size at' hg] at hk
    cases hk
  | true =>
    obtain ⟨_, _, _, hsmall, _⟩ := kmalloc_granted K h size at' hg
    exact hsmall

theorem partialSize_le (h : Holds K s blocks part) : s.dev.partialSize ≤ K.kmallocMax := by
  rw [h.partialSize]
  cases part with
  | none => exact Nat.zero_le _
  | some x => exact h.small x (List.mem_append_left _ (List.mem_singleton_self x))

theorem entry_le (h : Holds K s blocks part) {e : AesdBufferEntry}
    (he : e ∈ s.dev.buffer.content) : e.size ≤ K.kmallocMax := by
  rw [h.content] at he
  obtain ⟨x, hx, rfl⟩ := List.mem_map.mp he
  exact h.small x (List.mem_append_right _ hx)

theorem aesdWrite_fits (h : Holds K s blocks part) (c : WriteCall) :
    (aesdWriteSummed K s c).All Computed.Fits := by
  rw [aesdWriteSummed]
  cases hk : kmalloc K s.heap c.data.length c.kmallocAt with
  | none => split_ifs <;> exact Traced.all_pure _
  | some x =>
    split_ifs
    · exact Traced.all_pure _
    · exact Traced.all_pure _
    · exact Traced.all_bind_pure (Traced.all_lift _) _
    · apply Traced.all_bind_lift
      intro heap _
      exact Traced.all_bind_pure (Traced.all_lift _) _
    · apply Traced.all_bind_lift
      intro heap _
      refine Traced.all_bind_value (mutexLock_free h.unlocked) (Traced.all_lift _) ?_
      have hp := partialSize_le h
      apply Traced.all_bind (writeLocked_fits (by exact hp) x.1 (kmalloc_some hk) _)
      intro y _
      exact Traced.all_lift _

theorem totalSize_fits (h : Holds K s blocks part) :
    (totalSizeSummed s.dev.buffer).All Computed.Fits := by
  have hlt := length_content_lt h
  refine sums_fit .totalSize AesdBufferEntry.size s.dev.buffer.foreach 0 ?_
  rwa [Nat.zero_add, sum_foreach h]

theorem seekTarget_all {P : Computed → Prop} (total fPos offset whence : ℤ)
    (hP : ∀ base, whenceBase total fPos whence = some base → P ⟨.seekTarget, base+offset⟩) :
    (seekTargetSummed total fPos offset whence).All P := by
  have hsum (base : ℤ) (hbase : whenceBase total fPos whence = some base) :
      (sumS64 .seekTarget base offset).All P :=
    Traced.all_bind_record (hP base hbase) (Traced.all_pure _)
  rw [seekTargetSummed]
  split_ifs with hset hcur hend
  · exact Traced.all_pure _
  · exact Traced.all_bind_pure (hsum fPos (by rw [whenceBase, if_neg hset, if_pos hcur])) _
  · exact Traced.all_bind_pure
      (hsum total (by rw [whenceBase, if_neg hset, if_neg hcur, if_pos hend])) _
  · exact Traced.all_pure _

theorem aesdLlseek_all (h : Holds K s blocks part) {P : Computed → Prop} (fPos offset whence : ℤ)
    (hfits : ∀ x : Computed, x.Fits → P x)
    (hP : ∀ base, whenceBase (content s).length fPos whence = some base →
      P ⟨.seekTarget, base+offset⟩) :
    (aesdLlseekSummed s fPos offset whence).All P := by
  have htotal : totalSize { s.dev with bufferLock := true }.buffer = (content s).length :=
    totalSize_eq h
  refine Traced.all_bind_value (mutexLock_free h.unlocked) (Traced.all_lift _) ?_
  refine Traced.all_bind_value (value_totalSize _) (fun x hx => hfits x (totalSize_fits h x hx)) ?_
  rw [htotal]
  apply Traced.all_bind (seekTarget_all _ _ _ _ hP)
  intro target _
  apply Traced.all_bind_lift
  intro dev _
  cases target with
  | none => exact Traced.all_pure _
  | some newFpos =>
    dsimp only
    split_ifs <;> exact Traced.all_pure _

theorem aesdLlseek_refuses (h : Holds K s blocks part) {fPos offset : ℤ} (whence : ℤ)
    (h0 : 0 ≤ fPos) (hlt : fPos < 2^63) (hl : -2^63 ≤ offset) (hu : offset < 2^63)
    (hno : ¬ (aesdLlseekSummed s fPos offset whence).All Computed.Fits) :
    aesdLlseek s fPos offset whence = .ok (s, fPos, -EINVAL) := by
  have hlen := length_content_lt h
  rw [llseek_exact h whence h0 hlt hl hu]
  cases hbase : whenceBase (content s).length fPos whence with
  | none => rfl
  | some base =>
    have hrange : ¬ (0 ≤ base+offset ∧ base+offset ≤ (content s).length) := by
      rintro ⟨hge, hle⟩
      apply hno
      apply aesdLlseek_all h fPos offset whence fun _ hx => hx
      intro base' hb
      obtain rfl : base = base' := Option.some.inj (hbase.symm.trans hb)
      exact fits_of_small _ hge (by omega)
    exact congrArg (fun reply => Except.ok (s, reply)) (if_neg hrange)

theorem aesdUnlockedIoctl_fits (h : Holds K s blocks part) (fPos : ℤ) (cmd : ℕ)
    (arg : Option AesdSeekto) : (aesdUnlockedIoctlSummed s fPos cmd arg).All Computed.Fits := by
  unfold aesdUnlockedIoctlSummed
  by_cases hcmd : cmd ≠ AESDCHAR_IOCSEEKTO
  · rw [if_pos hcmd]
    exact Traced.all_pure _
  rw [if_neg hcmd]
  cases arg with
  | none => exact Traced.all_pure _
  | some seekto =>
    refine Traced.all_bind_value (mutexLock_free h.unlocked) (Traced.all_lift _) ?_
    dsimp only
    by_cases hcount : seekto.writeCmd.toNat ≥ s.dev.buffer.count
    · unfold AesdCircularBuffer.count at hcount
      rw [if_pos hcount]
      exact Traced.all_bind_pure (Traced.all_lift _) _
    have hw : seekto.writeCmd.toNat < (commands s).length := by
      rw [length_commands h]
      exact Nat.not_le.mp hcount
    obtain ⟨q, hslot, _⟩ := slot_command h hw
    unfold AesdCircularBuffer.count at hcount
    unfold AesdCircularBuffer.physical at hslot
    rw [if_neg hcount, hslot]
    simp only [reduceCtorEq, false_or]
    by_cases ho : seekto.writeCmdOffset.toNat ≥ ((commands s)[seekto.writeCmd.toNat]).length
    · rw [if_pos ho]
      exact Traced.all_bind_pure (Traced.all_lift _) _
    rw [if_neg ho]
    have ha : Addresses s seekto.writeCmd.toNat seekto.writeCmdOffset.toNat :=
      ⟨hw, Nat.not_le.mp ho⟩
    have hpos := position_lt ha
    have hlt := length_content_lt h
    refine Traced.all_bind_value (value_seekBase _ _) ?_ ?_
    · apply sums_fit .newFpos _ (List.range _) 0
      rw [Nat.zero_add]
      change ((List.range _).map fun i =>
        (s.dev.buffer.slot (s.dev.buffer.physical i)).size).sum < 2^63
      rw [sizes_before h hw.le]
      exact start_lt h _
    · rw [seekBase_eq h hw.le]
      rw [position] at hpos
      apply Traced.all_bind (sumS64_fits _ (by omega))
      intro newFpos _
      exact Traced.all_bind_pure (Traced.all_lift _) _

theorem driverStep_fits (h : Holds K s blocks part) (c : TypedCall) :
    (driverStepSummed K s c.1).All fun x => x.site ≠ .seekTarget → x.Fits := by
  obtain ⟨c, hc⟩ := c
  cases c with
  | write c =>
    apply Traced.all_bind_pure
    exact fun x hx _ => aesdWrite_fits h c x hx
  | read c =>
    apply Traced.all_bind_pure
    exact fun x hx _ => aesdRead_fits h c hc.1 hc.2 x hx
  | llseek fPos offset whence =>
    apply Traced.all_bind_pure
    exact aesdLlseek_all h fPos offset whence (fun _ hx _ => hx) fun _ _ hne => absurd rfl hne
  | ioctl fPos cmd arg =>
    apply Traced.all_bind_pure
    exact fun x hx _ => aesdUnlockedIoctl_fits h fPos cmd arg x hx

end

/-- In every state which a run of the operations reaches, the pending bytes and
each retained command are within what the allocator grants, and no sum of any
further call leaves its type, `partial_size + count` included. Only where
`aesd_llseek` adds its offset can the sum overflow, and then it is refused. -/
theorem driver_sums_fit (K : Kernel) (calls : List TypedCall) :
    ∃ s replies, driverRun K aesdInitModule calls = .ok (s, replies) ∧
      s.dev.partialSize ≤ K.kmallocMax ∧
      (∀ e ∈ s.dev.buffer.content, e.size ≤ K.kmallocMax) ∧
      (∀ c : TypedCall, (driverStepSummed K s c.1).value = driverStep K s c.1 ∧
        (driverStepSummed K s c.1).All fun x => x.site ≠ .seekTarget → x.Fits) ∧
      ∀ fPos offset whence : ℤ, 0 ≤ fPos → fPos < 2^63 → -2^63 ≤ offset → offset < 2^63 →
        ¬ (aesdLlseekSummed s fPos offset whence).All Computed.Fits →
        aesdLlseek s fPos offset whence = .ok (s, fPos, -EINVAL) := by
  obtain ⟨s, replies, hrun, _, blocks, part, h⟩ := driverRun_holds (holds_init K) calls
  refine ⟨s, replies, hrun, partialSize_le h, fun e he => entry_le h he, fun c => ?_, ?_⟩
  · exact ⟨value_driverStep K s c.1, driverStep_fits h c⟩
  · exact fun fPos offset whence h0 hlt hl hu => aesdLlseek_refuses h whence h0 hlt hl hu

/-- After one line of three bytes the largest offset goes beyond a `loff_t`
when it is counted from the end. -/
theorem seek_target_overflows :
    ∃ calls s replies, driverRun pageKernel aesdInitModule calls = .ok (s, replies) ∧
      ¬ (aesdLlseekSummed s 0 (2^63-1) SEEK_END).All Computed.Fits :=
  ⟨[⟨.write { data := [97,98,10], kmallocAt := some 1 }, trivial⟩], _, _, rfl, by decide⟩

end Aesd.SumBounds
