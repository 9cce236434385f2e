import Aesd.DriverRuns

/-!
# The answers of the file operations

An answer holds all that a caller learns: the value returned, the position
afterwards and, for a read, its memory. What an operation answers is said here
case by case, with the loop of `aesd_read` cut into its iterations.
-/

set_option autoImplicit false

namespace Aesd.DriverAnswers
open BlockHeap Allocation MachineInt
open Aesd.CircularBuffer Aesd.KernelMemory Aesd.CharDriver Aesd.DriverInvariant
open Aesd.DriverWrite Aesd.CommandLog Aesd.DriverRead Aesd.DriverSeek Aesd.DriverRuns

/-- How one iteration of the loop of `aesd_read` ends. -/
inductive ReadTurn where
  | leaves (r : ReadCursor) (done : Bool)
  | goesOn (r : ReadCursor)

def readTurn (s : DriverState) (faults : List (Option ℕ)) (r : ReadCursor) :
    Except Fault ReadTurn :=
  if r.remainingCount = 0 then .ok (.leaves r true)
  else
    let found := aesdCircularBufferFindEntryOffsetForFpos s.dev.buffer (toU64 r.fPos) r.entryOffset
    match found.1 with
    | none => .ok (.leaves { r with entryOffset := found.2 } true)
    | some index =>
      let entry := s.dev.buffer.slot index
      match entry.buffptr with
      | none => .ok (.leaves { r with entryOffset := found.2 } true)
      | some p => do
        let bytesToRead := min (subU64 entry.size found.2) r.remainingCount
        let bytes ← load s.heap p found.2 bytesToRead
        let copied := copyToUser r.buf r.bytesCopied bytes (faults.headD none)
        if !copied.2 then
          return .leaves { r with buf := copied.1, entryOffset := found.2 } false
        else
          return .goesOn
            { fPos := wrapS64 (r.fPos+bytesToRead)
              buf := copied.1
              bytesCopied := wrapU64 (r.bytesCopied+bytesToRead)
              remainingCount := subU64 r.remainingCount bytesToRead
              entryOffset := found.2 }

def readAnswer (r : ReadCursor) (done : Bool) : ReadResult :=
  ⟨if done then (if r.bytesCopied > 0 then wrapS64 r.bytesCopied else 0) else -EFAULT, r.fPos,
    r.buf⟩

def readStart (c : ReadCall) : ReadCursor where
  fPos := c.fPos
  buf := c.buf
  bytesCopied := 0
  remainingCount := c.count
  entryOffset := 0

def writeAnswer (c : WriteCall) (retval : ℤ) : ReadResult := ⟨retval, c.fPos, c.data⟩

def seekAnswer (total fPos offset whence : ℤ) : ReadResult :=
  match seekTarget total fPos offset whence with
  | none => ⟨-EINVAL, fPos, []⟩
  | some newFpos =>
    if newFpos < 0 ∨ newFpos > total then ⟨-EINVAL, fPos, []⟩ else ⟨newFpos, newFpos, []⟩

def driverAnswer (K : Kernel) (s : DriverState) :
    DriverCall → Except Fault (DriverState × ReadResult)
  | .write c => do
    let (s, retval) ← aesdWrite K s c
    return (s, writeAnswer c retval)
  | .read c => aesdRead s c
  | .llseek fPos offset whence => do
    let (s, fPos, retval) ← aesdLlseek s fPos offset whence
    return (s, ⟨retval, fPos, []⟩)
  | .ioctl fPos cmd arg => do
    let (s, fPos, retval) ← aesdUnlockedIoctl s fPos cmd arg
    return (s, ⟨retval, fPos, []⟩)

/-- What `kmalloc` has granted to a write with valid arguments. -/
structure Entered (K : Kernel) (c : WriteCall) (tmpBuf : Addr) : Prop where
  nullArg : c.nullArg = false
  fPos : 0 ≤ c.fPos
  data : c.data ≠ []
  nullDev : c.nullDev = false
  kmallocAt : c.kmallocAt = some tmpBuf
  small : c.data.length ≤ K.kmallocMax

theorem driverStep_answer (K : Kernel) (s : DriverState) (c : DriverCall) :
    driverStep K s c = (driverAnswer K s c).map fun x => (x.1, ⟨x.2.retval, x.2.fPos⟩) := by
  cases c with
  | write c =>
    rw [driverStep, driverAnswer]
    cases aesdWrite K s c <;> rfl
  | read c =>
    rw [driverStep, driverAnswer]
    cases aesdRead s c <;> rfl
  | llseek fPos offset whence =>
    rw [driverStep, driverAnswer]
    cases aesdLlseek s fPos offset whence <;> rfl
  | ioctl fPos cmd arg =>
    rw [driverStep, driverAnswer]
    cases aesdUnlockedIoctl s fPos cmd arg <;> rfl

/-! The exits of `aesd_write`. -/

section
variable {K : Kernel} {s : DriverState} {blocks : List Block} {part : Option Block}
variable {c : WriteCall} {a : Addr}

theorem write_invalid (h : c.nullArg ∨ c.fPos < 0 ∨ c.data.length = 0) :
    aesdWrite K s c = .ok (s, -EINVAL) := by
  simp only [aesdWrite, if_pos h]

theorem write_null_dev (h : ¬ (c.nullArg ∨ c.fPos < 0 ∨ c.data.length = 0)) (hd : c.nullDev) :
    aesdWrite K s c = .ok (s, -EINVAL) := by
  simp only [aesdWrite, if_neg h, if_pos hd]

theorem write_unplaced (h : ¬ (c.nullArg ∨ c.fPos < 0 ∨ c.data.length = 0)) (hd : ¬ c.nullDev)
    (hk : c.kmallocAt = none) : aesdWrite K s c = .ok (s, -ENOMEM) := by
  simp only [aesdWrite, if_neg h, if_neg hd, hk, kmalloc_refused K s.heap c.data.length none rfl]

theorem Entered.valid (he : Entered K c a) :
    ¬ (c.nullArg ∨ c.fPos < 0 ∨ c.data.length = 0) := by
  have hdata := he.data
  have hpos := he.fPos
  simp [he.nullArg, hdata, hpos]

theorem Entered.granted (he : Entered K c a) {h : Heap UInt8} (ha : h a = none) :
    kmallocGrants K h c.data.length c.kmallocAt = true := by
  have hsmall : c.data.length ≤ K.allocator.largest := he.small
  simp [kmallocGrants, he.kmallocAt, grants, ha, hsmall]

theorem Entered.enters (he : Entered K c a) (ha : s.heap a = none) (hf : c.copyFaults = false)
    (hi : c.interrupted = false) : writeEnters K s c = true := by
  have hpos := he.fPos
  have hdata := he.data
  simp [writeEnters, he.nullArg, hpos, hdata, he.nullDev, he.granted ha, hf, hi]

theorem write_faults (he : Entered K c a) (ha : s.heap a = none) (hf : c.copyFaults = true) :
    aesdWrite K s c = .ok (s, -EFAULT) := by
  obtain ⟨b, hb, hfree, _, hm⟩ := kmalloc_granted K _ _ _ (he.granted ha)
  simp only [aesdWrite, if_neg he.valid, he.nullDev, Bool.false_eq_true, if_false, hm, if_pos hf,
    free_alloc _ _ hfree, ok_bind, pure_eq_ok]

theorem write_interrupted (he : Entered K c a) (ha : s.heap a = none)
    (hf : c.copyFaults = false) (hi : c.interrupted = true) :
    aesdWrite K s c = .ok (s, -ERESTARTSYS) := by
  obtain ⟨b, hb, hfree, _, hm⟩ := kmalloc_granted K _ _ _ (he.granted ha)
  have hst := store_live _ (alloc_same s.heap b (fresh K.allocator c.data.length)) 0 c.data
    (by simp)
  simp only [aesdWrite, if_neg he.valid, he.nullDev, hf, Bool.false_eq_true, if_false, hm, hst,
    alloc_alloc, if_pos hi, free_alloc _ _ hfree, ok_bind, pure_eq_ok]

theorem goesThrough_first (h : Holds K s blocks none) (he : Entered K c a) (ha : s.heap a = none)
    (hf : c.copyFaults = false) (hi : c.interrupted = false) : goesThrough K s c = true := by
  have hpw : s.dev.partialWrite = none := h.partialWrite
  simp [goesThrough, he.enters ha hf hi, hpw]

section
variable {q : Addr} {b : List UInt8}

theorem grown_size (h : Holds K s blocks (some (q, b))) (he : Entered K c a) :
    wrapU64 (s.dev.partialSize+c.data.length) = b.length+c.data.length := by
  have hsize : s.dev.partialSize = b.length := h.partialSize
  have hb : b.length ≤ K.kmallocMax := h.small (q, b) (by simp)
  have hsmall := he.small
  have hmax := K.kmallocMax_small
  rw [hsize, wrapU64_of_lt (by omega)]

theorem goesThrough_append (h : Holds K s blocks (some (q, b))) (he : Entered K c a)
    (ha : s.heap a = none) (hf : c.copyFaults = false) (hi : c.interrupted = false) {p : Addr}
    (hk : c.kreallocAt = some p) (hp : p = q ∨ alloc s.heap a c.data p = none)
    (hsum : b.length+c.data.length ≤ K.kmallocMax) : goesThrough K s c = true := by
  have hpw : s.dev.partialWrite = some q := h.partialWrite
  simp only [goesThrough, he.enters ha hf hi, hpw, he.kmallocAt, grown_size h he, Bool.true_and]
  simpa [kreallocGrants, regrants, hk, hsum, Kernel.allocator] using hp

theorem write_unresized (h : Holds K s blocks (some (q, b))) (he : Entered K c a)
    (ha : s.heap a = none) (hf : c.copyFaults = false) (hi : c.interrupted = false)
    (hk : c.kreallocAt = none) : aesdWrite K s c = .ok (s, -ENOMEM) := by
  obtain ⟨a', hat, ha', _, _, hw⟩ := aesdWrite_entered h c (he.enters ha hf hi)
  have hpw : s.dev.partialWrite = some q := h.partialWrite
  have hq : s.heap q = some b := h.heap (q, b) (by simp)
  have hqa : q ≠ a' := by
    rintro rfl
    rw [ha'] at hq
    cases hq
  have hl := writeLocked_refused (K := K)
    (s := ⟨{ s.dev with bufferLock := true }, alloc s.heap a' c.data⟩) hpw
    ((alloc_other _ _ hqa).trans hq) (alloc_same _ _ _) c.kreallocAt (by rw [hk]; rfl)
  rw [hw, hl, ok_bind, writeUnlock, mutexUnlock_held rfl, ok_bind]
  simp only [free_alloc _ _ ha', lock_unlock h.unlocked, ok_bind, pure_eq_ok]

end

theorem write_kept (h : Holds K s blocks part) (hg : goesThrough K s c = true) {p : Addr}
    (hp : placedAt part c = some p) :
    aesdWrite K s c =
        .ok (stored s p (pendingOf part ++ c.data) (c.data.contains newline), c.data.length) ∧
      ∃ blocks part', Holds K (stored s p (pendingOf part ++ c.data) (c.data.contains newline))
        blocks part' := by
  obtain ⟨p', hp', hfree, hne, hsmall, hw⟩ := aesdWrite_placed h c hg
  obtain rfl := Option.some.inj (hp'.symm.trans hp)
  refine ⟨hw, ?_⟩
  by_cases hn : newline ∈ c.data
  · rw [List.contains_iff_mem.mpr hn]
    exact ⟨_, _, stored_commit h hfree hn hsmall⟩
  · rw [Bool.eq_false_iff.mpr (mt List.contains_iff_mem.mp hn)]
    exact ⟨_, _, stored_pending h hfree hne hn hsmall⟩

end

/-! The loop of `aesd_read`, one iteration at a time. -/

theorem readLoop_turn (s : DriverState) (fuel : ℕ) (faults : List (Option ℕ)) (r : ReadCursor) :
    readLoop s (fuel+1) faults r = readTurn s faults r >>= fun
      | .leaves r done => .ok (r, done)
      | .goesOn r => readLoop s fuel faults.tail r := by
  rw [readLoop, readTurn]
  split_ifs with hrem
  · rfl
  dsimp only
  cases (aesdCircularBufferFindEntryOffsetForFpos s.dev.buffer (toU64 r.fPos) r.entryOffset).1 with
  | none => rfl
  | some index =>
    dsimp only
    cases (s.dev.buffer.slot index).buffptr with
    | none => rfl
    | some p =>
      dsimp only
      cases load s.heap p _ _ with
      | error e => rfl
      | ok bytes =>
        simp only [ok_bind]
        split_ifs <;> rfl

theorem readTurn_mono {s t : DriverState} {faults : List (Option ℕ)} {r : ReadCursor}
    {turn : ReadTurn} (hb : t.dev.buffer = s.dev.buffer)
    (hh : ∀ a b, s.heap a = some b → t.heap a = some b)
    (h : readTurn s faults r = .ok turn) : readTurn t faults r = .ok turn := by
  rw [readTurn] at h ⊢
  rw [hb]
  split_ifs at h ⊢ with hrem
  · exact h
  dsimp only at h ⊢
  cases hf : (aesdCircularBufferFindEntryOffsetForFpos s.dev.buffer (toU64 r.fPos)
      r.entryOffset).1 with
  | none => simpa only [hf] using h
  | some index =>
    simp only [hf] at h ⊢
    cases hp : (s.dev.buffer.slot index).buffptr with
    | none => simpa only [hp] using h
    | some p =>
      simp only [hp] at h ⊢
      cases hs : s.heap p with
      | none =>
        simp only [load, hs, error_bind] at h
        cases h
      | some b =>
        have hload : ∀ off n, load t.heap p off n = load s.heap p off n := by
          intro off n
          rw [load, load, hs, hh p b hs]
        rw [hload]
        exact h

def held (s : DriverState) : DriverState := { s with dev := { s.dev with bufferLock := true } }

section
variable {K : Kernel} {s : DriverState} {blocks : List Block} {part : Option Block}

theorem readTurn_spec (h : Holds K s blocks part) (faults : List (Option ℕ)) {r : ReadCursor}
    (hr : r.remainingCount < 2^64) :
    ∃ turn, readTurn (held s) faults r = .ok turn ∧
      ∀ r', turn = .goesOn r' → r'.remainingCount < r.remainingCount := by
  rw [readTurn]
  by_cases hz : r.remainingCount = 0
  · exact ⟨_, if_pos hz, by rintro _ ⟨⟩⟩
  rw [if_neg hz]
  have hpos : toU64 r.fPos < 2^64 := by
    rw [toU64]
    omega
  dsimp only [held]
  by_cases hend : (content s).length ≤ toU64 r.fPos
  · rw [find_behind h hend hpos]
    exact ⟨_, rfl, by rintro _ ⟨⟩⟩
  obtain ⟨index, o, q, bytes, hfind, hslot, hheap, ho, hop, hpre, _⟩ :=
    find_inside h (p := toU64 r.fPos) (by omega) r.entryOffset
  have hlen := length_content_lt h
  have hbytes : bytes.length-o ≤ (content s).length-toU64 r.fPos := by simpa using hpre.length_le
  have hread : subU64 bytes.length o = bytes.length-o := subU64_of_le ho.le (by omega)
  obtain ⟨m, hm⟩ : ∃ m, m = min (bytes.length-o) r.remainingCount := ⟨_, rfl⟩
  have hload := load_live s.heap hheap o m (by omega)
  simp only [hfind, hslot, hread, ← hm, hload, ok_bind]
  split_ifs
  · exact ⟨_, rfl, by rintro _ ⟨⟩⟩
  · refine ⟨_, rfl, ?_⟩
    rintro _ ⟨⟩
    dsimp only
    rw [subU64_of_le (by omega) hr]
    omega

theorem read_looped (h : Holds K s blocks part) {c : ReadCall}
    (harg : ¬ (c.nullArg ∨ c.fPos < 0 ∨ c.count = 0)) (hint : ¬ c.interrupted) {r : ReadCursor}
    {done : Bool} (hl : readLoop (held s) (c.count+1) c.copyFaults (readStart c) = .ok (r, done)) :
    aesdRead s c = .ok (s, readAnswer r done) := by
  rw [aesdRead, if_neg harg, if_neg hint, mutexLock_free h.unlocked, ok_bind]
  change (readLoop (held s) (c.count+1) c.copyFaults (readStart c) >>= _) = _
  rw [hl, ok_bind]
  simp only [mutexUnlock_held, lock_unlock h.unlocked, ok_bind, pure_eq_ok, readAnswer]

theorem read_ends (h : Holds K s blocks part) {c : ReadCall} (hpos : c.fPos < 2^63)
    (hcount : c.count < 2^64) (harg : ¬ (c.nullArg ∨ c.fPos < 0 ∨ c.count = 0)) :
    ∃ r done, readLoop (held s) (c.count+1) c.copyFaults (readStart c) = .ok (r, done) := by
  obtain ⟨p, hp⟩ := Int.eq_ofNat_of_zero_le (show 0 ≤ c.fPos by omega)
  obtain ⟨rest, e', hloop⟩ := readLoop_pieces h true (c.count+1) c.copyFaults p c.count 0 c.buf 0
    (by omega) (by omega) (by omega)
  rw [← hp] at hloop
  exact ⟨_, _, hloop⟩

theorem llseek_answer (h : Holds K s blocks part) (fPos offset whence : ℤ) :
    driverAnswer K s (.llseek fPos offset whence) =
      .ok (s, seekAnswer (totalSize s.dev.buffer) fPos offset whence) := by
  rw [driverAnswer, llseek_spec h, totalSize_eq h, seekAnswer, ok_bind]
  cases seekTarget (content s).length fPos offset whence with
  | none => rfl
  | some p =>
    dsimp only
    split_ifs <;> rfl

theorem ioctl_answer (h : Holds K s blocks part) (fPos : ℤ) (seekto : AesdSeekto) :
    driverAnswer K s (.ioctl fPos AESDCHAR_IOCSEEKTO (some seekto)) = .ok (s,
      let entry := s.dev.buffer.slot
        ((s.dev.buffer.outOffs+seekto.writeCmd.toNat) % maxWriteOperationsSupported)
      if seekto.writeCmd.toNat ≥
          (if s.dev.buffer.full then maxWriteOperationsSupported else s.dev.buffer.inOffs) then
        ⟨-EINVAL, fPos, []⟩
      else if entry.buffptr = none ∨ seekto.writeCmdOffset.toNat ≥ entry.size then
        ⟨-EINVAL, fPos, []⟩
      else
        ⟨0, wrapS64 (seekBase s.dev.buffer seekto.writeCmd.toNat+seekto.writeCmdOffset.toNat),
          []⟩) := by
  simp only [driverAnswer, aesdUnlockedIoctl, ne_eq, not_true, if_false,
    mutexLock_free h.unlocked, ok_bind, mutexUnlock_held, lock_unlock h.unlocked, pure_eq_ok]
  split_ifs <;> rfl

end

theorem totalSize_range (buffer : AesdCircularBuffer) :
    totalSize buffer = (List.range maxWriteOperationsSupported).foldl
      (fun total index => wrapS64 (total+(buffer.slot index).size)) 0 := by
  rw [totalSize, AesdCircularBuffer.foreach, List.foldl_map]

end Aesd.DriverAnswers
