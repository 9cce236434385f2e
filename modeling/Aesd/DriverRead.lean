import Aesd.CommandLog
import Aesd.CircularBufferSearch
import Mathlib.Algebra.Order.BigOperators.Group.List
import Mathlib.Algebra.Order.Group.Nat

/-!
# What a call of `aesd_read` delivers

The loop searches the ring again at every position it reaches. One lemma says
what lies at a position inside the content. From it the whole call is a
function of the commands: the pieces it copies, one after another, until a copy
to user space fails.
-/

set_option autoImplicit false

namespace Aesd.DriverRead
open BlockHeap MachineInt Segments
open Aesd.CircularBuffer Aesd.KernelMemory Aesd.CharDriver
open Aesd.DriverInvariant Aesd.DriverWrite Aesd.CommandLog

def content (s : DriverState) : List UInt8 := (commands s).flatten

def readEnters (c : ReadCall) : Bool :=
  !c.nullArg && 0 ≤ c.fPos && c.count != 0 && !c.interrupted

structure Delivered (bytes : List UInt8) (p count : ℕ) (buf : List UInt8) (off n : ℕ)
    (buf' : List UInt8) (done : Bool) : Prop where
  le : n ≤ min count (bytes.length-p)
  length : buf'.length = buf.length
  all : done = true → n = min count (bytes.length-p) ∧
    buf' = overwrite buf off ((bytes.drop p).take n)

structure Copied where
  copied : ℕ
  buf : List UInt8
  done : Bool
  deriving DecidableEq, Repr

def copyPieces (bytes : List UInt8) :
    List ℕ → List (Option ℕ) → ℕ → List UInt8 → ℕ → Copied
  | [], _, _, buf, _ => ⟨0, buf, true⟩
  | m::ms, faults, p, buf, off =>
    let copy := copyToUser buf off ((bytes.drop p).take m) (faults.headD none)
    if copy.2 then
      let rest := copyPieces bytes ms faults.tail (p+m) copy.1 (off+m)
      { rest with copied := m+rest.copied }
    else ⟨0, copy.1, false⟩

/-- The copy of piece `i` faults or does not fit into the user's memory. -/
def pieceFails (room : ℕ) (faults : List (Option ℕ)) (off : ℕ) (ms : List ℕ) (i : ℕ) : Prop :=
  (faults.getD i none).isSome ∨ room < off+start ms (i+1)

instance (room : ℕ) (faults : List (Option ℕ)) (off : ℕ) (ms : List ℕ) (i : ℕ) :
    Decidable (pieceFails room faults off ms i) := by
  unfold pieceFails
  infer_instance

def readReply (cmds : List (List UInt8)) (c : ReadCall) : ReadResult :=
  if c.nullArg ∨ c.fPos < 0 ∨ c.count = 0 then
    ⟨-EINVAL, c.fPos, c.buf⟩
  else if c.interrupted then
    ⟨-ERESTARTSYS, c.fPos, c.buf⟩
  else
    let x := copyPieces cmds.flatten (pieces (cmds.map List.length) c.fPos.toNat c.count)
      c.copyFaults c.fPos.toNat c.buf 0
    ⟨if x.done then x.copied else -EFAULT, c.fPos+x.copied, x.buf⟩

theorem delivered_nothing (bytes : List UInt8) {p count : ℕ} (buf : List UInt8) (off : ℕ)
    (h : min count (bytes.length-p) = 0) : Delivered bytes p count buf off 0 buf true where
  le := Nat.zero_le _
  length := rfl
  all := by simp [h]

theorem delivered_min {bytes : List UInt8} {p count : ℕ} {buf : List UInt8} {off n : ℕ}
    {buf' : List UInt8} {done : Bool}
    (h : Delivered bytes p (min count (bytes.length-p)) buf off n buf' done) :
    Delivered bytes p count buf off n buf' done := by
  have hmin : min (min count (bytes.length-p)) (bytes.length-p) = min count (bytes.length-p) := by
    omega
  exact ⟨hmin ▸ h.le, h.length, fun hd => hmin ▸ h.all hd⟩

theorem delivered_piece {bytes : List UInt8} {p count : ℕ} {buf : List UInt8} {off m n : ℕ}
    {buf' : List UInt8} {done : Bool} (hm : m ≤ min count (bytes.length-p))
    (hroom : off+m ≤ buf.length)
    (h : Delivered bytes (p+m) (count-m) (overwrite buf off ((bytes.drop p).take m)) (off+m) n
      buf' done) : Delivered bytes p count buf off (m+n) buf' done := by
  have hlen : ((bytes.drop p).take m).length = m := by
    rw [List.length_take, List.length_drop]
    omega
  refine ⟨?_, ?_, ?_⟩
  · have := h.le
    omega
  · rw [h.length, length_overwrite _ _ _ (by omega)]
  · intro hd
    obtain ⟨hn, hbuf⟩ := h.all hd
    refine ⟨by omega, ?_⟩
    have hfit : off+((bytes.drop p).take m).length ≤ buf.length := by omega
    have happ := overwrite_overwrite buf ((bytes.drop p).take m) ((bytes.drop (p+m)).take n) hfit
    rw [hlen] at happ
    rw [hbuf, happ, List.take_add, List.drop_drop]

section
variable {K : Kernel} {s : DriverState} {blocks : List Block} {part : Option Block}

theorem sizes_eq (h : Holds K s blocks part) :
    s.dev.buffer.sizes = (commands s).map List.length := by
  rw [commands_eq h, AesdCircularBuffer.sizes, h.content, List.map_map, List.map_map]
  rfl

theorem sum_sizes (h : Holds K s blocks part) : s.dev.buffer.sizes.sum = (content s).length := by
  rw [sizes_eq h, content, List.length_flatten]

theorem count_eq (h : Holds K s blocks part) : s.dev.buffer.count = blocks.length := by
  rw [← length_content, h.content, List.length_map]

theorem length_commands (h : Holds K s blocks part) :
    (commands s).length = s.dev.buffer.count := by
  rw [commands_eq h, List.length_map, count_eq h]

theorem length_command_le (h : Holds K s blocks part) {bytes : List UInt8}
    (hb : bytes ∈ commands s) : bytes.length ≤ K.kmallocMax := by
  rw [commands_eq h] at hb
  obtain ⟨x, hx, rfl⟩ := List.mem_map.mp hb
  exact h.small x (List.mem_append_right _ hx)

theorem length_content_le (h : Holds K s blocks part) :
    (content s).length ≤ maxWriteOperationsSupported*K.kmallocMax := by
  have hle := List.sum_le_card_nsmul ((commands s).map List.length) K.kmallocMax (by
    intro n hn
    obtain ⟨bytes, hb, rfl⟩ := List.mem_map.mp hn
    exact length_command_le h hb)
  rw [← List.length_flatten, List.length_map, length_commands h] at hle
  exact hle.trans (Nat.mul_le_mul_right _ (count_le h.ring))

theorem length_content_lt (h : Holds K s blocks part) : (content s).length < 2^63 := by
  have hle := length_content_le h
  have hmax := K.kmallocMax_small
  change (content s).length ≤ 10*K.kmallocMax at hle
  omega

theorem find_eq (h : Holds K s blocks part) (charOffset entryOffsetByteRtn : ℕ)
    (hc : charOffset < 2^64) :
    aesdCircularBufferFindEntryOffsetForFpos s.dev.buffer charOffset entryOffsetByteRtn =
      searchResult s.dev.buffer entryOffsetByteRtn 0
        (locate ((commands s).map List.length) charOffset) := by
  have hlt := length_content_lt h
  rw [find_entry_spec h.ring (by rw [sum_sizes h]; omega) _ _ hc, sizes_eq h]

theorem slot_command (h : Holds K s blocks part) {k : ℕ} (hk : k < (commands s).length) :
    ∃ q, s.dev.buffer.slot (s.dev.buffer.physical k) = ⟨some q, ((commands s)[k]).length⟩ ∧
      s.heap q = some (commands s)[k] := by
  have hkb : k < blocks.length := by rwa [length_commands h, count_eq h] at hk
  have hb := getElem_content s.dev.buffer k (by rwa [length_content, ← length_commands h])
  have hcmd : (commands s)[k] = (blocks[k]).2 := by simp [commands_eq h]
  refine ⟨(blocks[k]).1, ?_, ?_⟩
  · rw [AesdCircularBuffer.physical, ← hb, hcmd]
    simp [h.content, entryOf]
  · rw [hcmd]
    exact h.heap _ (List.mem_append_right _ (List.getElem_mem hkb))

theorem find_inside (h : Holds K s blocks part) {p : ℕ} (hp : p < (content s).length) (e : ℕ) :
    ∃ index o q bytes,
      aesdCircularBufferFindEntryOffsetForFpos s.dev.buffer p e = (some index, o) ∧
      s.dev.buffer.slot index = ⟨some q, bytes.length⟩ ∧ s.heap q = some bytes ∧
      o < bytes.length ∧ o ≤ p ∧ bytes.drop o <+: (content s).drop p ∧
      ∀ count, 0 < count → pieces ((commands s).map List.length) p count =
        min (bytes.length-o) count::pieces ((commands s).map List.length)
          (p+min (bytes.length-o) count) (count-min (bytes.length-o) count) := by
  have hlt := length_content_lt h
  obtain ⟨k, o, hk, hloc, ho, hpo⟩ := locate_lt
    (show p < ((commands s).map List.length).sum by rwa [← List.length_flatten])
  rw [List.length_map] at hk
  rw [List.getElem_map] at ho
  obtain ⟨q, hslot, hheap⟩ := slot_command h hk
  refine ⟨s.dev.buffer.physical k, o, q, (commands s)[k], ?_, hslot, hheap, ho, by omega, ?_, ?_⟩
  · rw [find_eq h p e (by omega), hloc, searchResult, Nat.zero_add]
  · rw [content, hpo, drop_flatten _ hk ho.le]
    exact List.prefix_append _ _
  · intro count hcount
    have hpieces := pieces_located hloc (by rwa [List.length_map]) hcount
    rwa [List.getElem_map] at hpieces

theorem find_behind (h : Holds K s blocks part) {p : ℕ} (hp : (content s).length ≤ p)
    (hp' : p < 2^64) (e : ℕ) :
    aesdCircularBufferFindEntryOffsetForFpos s.dev.buffer p e = (none, e) := by
  rw [find_eq h p e hp', (locate_none_iff _ _).mpr (by rwa [← List.length_flatten])]
  rfl

theorem copyToUser_done {buf bytes : List UInt8} {off : ℕ} {fault : Option ℕ}
    (h : (copyToUser buf off bytes fault).2 = true) :
    fault = none ∧ off+bytes.length ≤ buf.length ∧
      (copyToUser buf off bytes fault).1 = overwrite buf off bytes := by
  cases fault with
  | some k => simp [copyToUser] at h
  | none =>
    by_cases hroom : off+bytes.length ≤ buf.length
    · simp [copyToUser, hroom]
    · simp [copyToUser, hroom] at h

theorem copyToUser_room {buf bytes : List UInt8} {off : ℕ} (h : off+bytes.length ≤ buf.length) :
    (copyToUser buf off bytes none).2 = true := by
  simp [copyToUser, h]

theorem length_copyToUser (buf bytes : List UInt8) (off : ℕ) (fault : Option ℕ) :
    (copyToUser buf off bytes fault).1.length = buf.length := by
  cases fault with
  | some k => exact length_overwrite _ _ _ (by simp only [List.length_take]; omega)
  | none =>
    by_cases hroom : off+bytes.length ≤ buf.length
    · rw [(copyToUser_done (copyToUser_room hroom)).2.2]
      exact length_overwrite _ _ _ (by omega)
    · simp only [copyToUser, if_neg hroom]
      exact length_overwrite _ _ _ (by simp only [List.length_take]; omega)

theorem copyToUser_done_iff (buf bytes : List UInt8) (off : ℕ) (fault : Option ℕ) :
    (copyToUser buf off bytes fault).2 = true ↔ fault = none ∧ off+bytes.length ≤ buf.length := by
  constructor
  · intro h
    obtain ⟨hfault, hroom, _⟩ := copyToUser_done h
    exact ⟨hfault, hroom⟩
  · rintro ⟨rfl, hroom⟩
    exact copyToUser_room hroom

theorem pieceFails_succ (room : ℕ) (faults : List (Option ℕ)) (off m : ℕ) (ms : List ℕ) (i : ℕ) :
    pieceFails room faults off (m::ms) (i+1) ↔ pieceFails room faults.tail (off+m) ms i := by
  rw [pieceFails, pieceFails, start_cons_succ, Nat.add_assoc]
  cases faults <;> simp

theorem first_copy_done {bytes : List UInt8} {p m : ℕ} (ms : List ℕ) (faults : List (Option ℕ))
    (buf : List UInt8) (off : ℕ) (hm : m ≤ bytes.length-p) :
    (copyToUser buf off ((bytes.drop p).take m) (faults.headD none)).2 = true ↔
      ¬ pieceFails buf.length faults off (m::ms) 0 := by
  have hlen : ((bytes.drop p).take m).length = m := by
    rw [List.length_take, List.length_drop]
    omega
  rw [copyToUser_done_iff, hlen, pieceFails]
  cases faults <;> simp [start]

/-- What the copies deliver, and that they stop at the first one which fails. -/
theorem copyPieces_spec (bytes : List UInt8) (ms : List ℕ) (faults : List (Option ℕ)) (p : ℕ)
    (buf : List UInt8) (off : ℕ) (h : ms.sum ≤ bytes.length-p) :
    let x := copyPieces bytes ms faults p buf off
    Delivered bytes p ms.sum buf off x.copied x.buf x.done ∧
      (x.done = true ↔ ∀ i < ms.length, ¬ pieceFails buf.length faults off ms i) := by
  induction ms generalizing faults p buf off with
  | nil => exact ⟨delivered_nothing _ _ _ (by simp), by simp [copyPieces]⟩
  | cons m ms ih =>
    rw [List.sum_cons] at h
    have hfirst := first_copy_done ms faults buf off (show m ≤ bytes.length-p by omega)
    have hlen : ((bytes.drop p).take m).length = m := by
      rw [List.length_take, List.length_drop]
      omega
    rw [copyPieces]
    cases hc : (copyToUser buf off ((bytes.drop p).take m) (faults.headD none)).2 with
    | false =>
      have hfails : pieceFails buf.length faults off (m::ms) 0 := by
        by_contra hno
        rw [hfirst.mpr hno] at hc
        cases hc
      refine ⟨⟨Nat.zero_le _, length_copyToUser _ _ _ _, by simp⟩, ?_⟩
      simp only [Bool.false_eq_true, if_false, false_iff]
      exact fun hno => hno 0 (by simp) hfails
    | true =>
      obtain ⟨_, hfit, hbuf⟩ := copyToUser_done hc
      rw [hlen] at hfit
      obtain ⟨hdel, hdone⟩ := ih faults.tail (p+m) (overwrite buf off ((bytes.drop p).take m))
        (off+m) (by omega)
      rw [length_overwrite _ _ _ (by omega)] at hdone
      simp only [if_true, hbuf]
      refine ⟨delivered_piece (by rw [List.sum_cons]; omega) hfit ?_, ?_⟩
      · rwa [List.sum_cons, Nat.add_sub_cancel_left]
      · rw [hdone]
        constructor
        · intro hno i hi
          cases i with
          | zero => exact hfirst.mp hc
          | succ i =>
            rw [pieceFails_succ]
            exact hno i (by simpa using hi)
        · intro hno i hi
          rw [← pieceFails_succ]
          exact hno (i+1) (by simpa using hi)

theorem copied_zero_iff {bytes : List UInt8} {ms : List ℕ} {faults : List (Option ℕ)} {p : ℕ}
    {buf : List UInt8} {off : ℕ} (h : ms.sum ≤ bytes.length-p) (hpos : ∀ m ∈ ms, 0 < m)
    (hd : (copyPieces bytes ms faults p buf off).done = false) :
    (copyPieces bytes ms faults p buf off).copied = 0 ↔
      pieceFails buf.length faults off ms 0 := by
  cases ms with
  | nil => simp [copyPieces] at hd
  | cons m ms =>
    rw [List.sum_cons] at h
    have hfirst := first_copy_done ms faults buf off (show m ≤ bytes.length-p by omega)
    have hm := hpos m (List.mem_cons_self)
    rw [copyPieces]
    cases hc : (copyToUser buf off ((bytes.drop p).take m) (faults.headD none)).2 with
    | false =>
      rw [hc] at hfirst
      simpa using hfirst
    | true =>
      have hno := hfirst.mp hc
      simp only [if_true]
      exact iff_of_false (by omega) hno

/-- The loop copies the pieces of the content from any cursor, whatever the
copies do. The induction is on the fuel, which exceeds the bytes remaining. -/
theorem readLoop_pieces (h : Holds K s blocks part) (b : Bool) (fuel : ℕ)
    (faults : List (Option ℕ)) (p count off : ℕ) (buf : List UInt8) (e : ℕ) (hp : p < 2^63)
    (hfuel : count < fuel) (hcount : off+count < 2^64) :
    ∃ rest e',
      readLoop { s with dev := { s.dev with bufferLock := b } } fuel faults
          ⟨p, buf, off, count, e⟩ =
        let x := copyPieces (content s) (pieces ((commands s).map List.length) p count) faults p
          buf off
        .ok (⟨(p+x.copied : ℕ), x.buf, off+x.copied, rest, e'⟩, x.done) := by
  have hlen := length_content_lt h
  induction fuel generalizing faults p count off buf e with
  | zero => omega
  | succ fuel ih =>
    rw [readLoop]
    by_cases hz : count = 0
    · subst hz
      rw [pieces_zero]
      exact ⟨0, e, rfl⟩
    simp only [if_neg hz, toU64_natCast (show p < 2^64 by omega)]
    by_cases hend : (content s).length ≤ p
    · rw [pieces_behind _ (by rwa [← List.length_flatten])]
      simp only [find_behind h hend (by omega)]
      exact ⟨count, e, rfl⟩
    obtain ⟨index, o, q, bytes, hfind, hslot, hheap, ho, hop, hpre, hpieces⟩ :=
      find_inside h (p := p) (by omega) e
    have hbytes : bytes.length-o ≤ (content s).length-p := by simpa using hpre.length_le
    have hread : subU64 bytes.length o = bytes.length-o := subU64_of_le ho.le (by omega)
    specialize hpieces count (by omega)
    obtain ⟨m, hm⟩ : ∃ m, m = min (bytes.length-o) count := ⟨_, rfl⟩
    have hload := load_live s.heap hheap o m (by omega)
    have hpiece : (bytes.drop o).take m = ((content s).drop p).take m := by
      obtain ⟨rest, hrest⟩ := hpre
      rw [← hrest, List.take_append_of_le_length (by rw [List.length_drop]; omega)]
    rw [hpiece] at hload
    rw [← hm] at hpieces
    simp only [hfind, hslot, hread, ← hm, hload, ok_bind, hpieces, copyPieces]
    cases hc : (copyToUser buf off (((content s).drop p).take m) (faults.headD none)).2 with
    | false => exact ⟨count, o, rfl⟩
    | true =>
      obtain ⟨rest, e', hloop⟩ := ih faults.tail (p+m) (count-m) (off+m)
        (copyToUser buf off (((content s).drop p).take m) (faults.headD none)).1 o (by omega)
        (by omega) (by omega)
      have hnext : wrapS64 ((p:ℤ)+(m:ℤ)) = (p+m : ℕ) := by
        exact_mod_cast wrapS64_natCast (show p+m < 2^63 by omega)
      refine ⟨rest, e', ?_⟩
      simp only [Bool.not_true, Bool.false_eq_true, if_false, if_true, hnext,
        wrapU64_of_lt (show off+m < 2^64 by omega),
        subU64_of_le (show m ≤ count by omega) (show count < 2^64 by omega), hloop,
        Nat.add_assoc]

theorem aesdRead_not_entered (s : DriverState) (c : ReadCall) (hg : readEnters c = false) :
    ∃ r, r < 0 ∧ aesdRead s c = .ok (s, ⟨r, c.fPos, c.buf⟩) := by
  by_cases harg : c.nullArg = true ∨ c.fPos < 0 ∨ c.count = 0
  · exact ⟨-EINVAL, by decide, by simp only [aesdRead, if_pos harg]⟩
  by_cases hint : c.interrupted = true
  · exact ⟨-ERESTARTSYS, by decide, by simp only [aesdRead, if_neg harg, if_pos hint]⟩
  · simp_all [readEnters]

theorem pieces_le (s : DriverState) (p count : ℕ) :
    (pieces ((commands s).map List.length) p count).sum = min count ((content s).length-p) := by
  rw [sum_pieces, content, List.length_flatten]

theorem aesdRead_eq (h : Holds K s blocks part) (c : ReadCall) (hpos : c.fPos < 2^63)
    (hcount : c.count < 2^64) : aesdRead s c = .ok (s, readReply (commands s) c) := by
  rw [aesdRead, readReply]
  by_cases harg : c.nullArg = true ∨ c.fPos < 0 ∨ c.count = 0
  · rw [if_pos harg, if_pos harg]
  rw [if_neg harg, if_neg harg]
  by_cases hint : c.interrupted = true
  · rw [if_pos hint, if_pos hint]
  rw [if_neg hint, if_neg hint]
  obtain ⟨p, hp⟩ := Int.eq_ofNat_of_zero_le (show 0 ≤ c.fPos by omega)
  rw [hp] at hpos ⊢
  obtain ⟨rest, e', hloop⟩ := readLoop_pieces h true (c.count+1) c.copyFaults p c.count 0 c.buf 0
    (by omega) (by omega) (by omega)
  have hsum := pieces_le s p c.count
  have hlen := length_content_lt h
  obtain ⟨hdel, _⟩ := copyPieces_spec (content s)
    (pieces ((commands s).map List.length) p c.count) c.copyFaults p c.buf 0 (by omega)
  simp only [mutexLock_free h.unlocked, ok_bind, hloop, mutexUnlock_held, lock_unlock h.unlocked,
    pure_eq_ok, Int.toNat_natCast, content] at hdel ⊢
  generalize copyPieces (commands s).flatten (pieces ((commands s).map List.length) p c.count)
    c.copyFaults p c.buf 0 = x at hdel ⊢
  have hret : (if 0+x.copied > 0 then wrapS64 ((0+x.copied : ℕ):ℤ) else 0) = x.copied := by
    have hle := hdel.le
    rw [content] at hlen
    rw [Nat.zero_add, wrapS64_natCast (by omega)]
    split_ifs <;> omega
  rw [hret, Int.natCast_add]

theorem readReply_entered (cmds : List (List UInt8)) (c : ReadCall) (hg : readEnters c = true) :
    readReply cmds c =
      let x := copyPieces cmds.flatten (pieces (cmds.map List.length) c.fPos.toNat c.count)
        c.copyFaults c.fPos.toNat c.buf 0
      ⟨if x.done then x.copied else -EFAULT, c.fPos+x.copied, x.buf⟩ := by
  simp only [readEnters, Bool.and_eq_true, Bool.not_eq_true', decide_eq_true_eq, bne_iff_ne,
    ne_eq] at hg
  obtain ⟨⟨⟨harg, hnn⟩, hc0⟩, hint⟩ := hg
  have hvalid : ¬ (c.nullArg = true ∨ c.fPos < 0 ∨ c.count = 0) := by simp [harg, hnn, hc0]
  rw [readReply, if_neg hvalid, if_neg (by simp [hint])]

theorem readReply_not_entered (cmds : List (List UInt8)) (c : ReadCall)
    (hg : readEnters c = false) : ∃ r, r < 0 ∧ readReply cmds c = ⟨r, c.fPos, c.buf⟩ := by
  by_cases harg : c.nullArg = true ∨ c.fPos < 0 ∨ c.count = 0
  · exact ⟨-EINVAL, by decide, by rw [readReply, if_pos harg]⟩
  by_cases hint : c.interrupted = true
  · exact ⟨-ERESTARTSYS, by decide, by rw [readReply, if_neg harg, if_pos hint]⟩
  · simp_all [readEnters]

theorem pieceFails_first {room : ℕ} {faults : List (Option ℕ)} {off : ℕ} {ms : List ℕ}
    (h : faults.headD none ≠ none) : pieceFails room faults off ms 0 := by
  left
  cases faults with
  | nil => simp at h
  | cons f fs => simpa [Option.isSome_iff_ne_none] using h

theorem not_pieceFails {room : ℕ} {faults : List (Option ℕ)} {off : ℕ} {ms : List ℕ}
    (hfaults : ∀ f ∈ faults, f = none) (hroom : off+ms.sum ≤ room) (i : ℕ) :
    ¬ pieceFails room faults off ms i := by
  rintro (hf | hr)
  · cases hget : faults[i]? with
    | none => simp [List.getD, hget] at hf
    | some f =>
      obtain rfl := hfaults f (List.mem_of_getElem? hget)
      simp [List.getD, hget] at hf
  · have := start_le_sum ms (i+1)
    omega

theorem aesdRead_entered (h : Holds K s blocks part) (c : ReadCall) (hg : readEnters c = true)
    (hpos : c.fPos < 2^63) (hcount : c.count < 2^64) :
    ∃ (n : ℕ) (buf' : List UInt8) (done : Bool),
      aesdRead s c = .ok (s, ⟨if done then n else -EFAULT, c.fPos+n, buf'⟩) ∧
      Delivered (content s) c.fPos.toNat c.count c.buf 0 n buf' done ∧
      (done = true → c.copyFaults.headD none = none ∨
        min c.count ((content s).length-c.fPos.toNat) = 0) ∧
      ((∀ f ∈ c.copyFaults, f = none) →
        min c.count ((content s).length-c.fPos.toNat) ≤ c.buf.length → done = true) := by
  have hsum := pieces_le s c.fPos.toNat c.count
  obtain ⟨hdel, hdone⟩ := copyPieces_spec (content s)
    (pieces ((commands s).map List.length) c.fPos.toNat c.count) c.copyFaults c.fPos.toNat c.buf 0
    (by omega)
  have hread := aesdRead_eq h c hpos hcount
  rw [readReply_entered _ c hg] at hread
  refine ⟨_, _, _, hread, ?_, ?_, ?_⟩
  · rw [hsum] at hdel
    exact delivered_min hdel
  · intro hd
    by_contra hno
    rw [not_or] at hno
    have hpos : 0 < (pieces ((commands s).map List.length) c.fPos.toNat c.count).length := by
      apply List.length_pos_of_ne_nil
      intro hnil
      rw [hnil] at hsum
      exact hno.2 hsum.symm
    exact hdone.mp hd 0 hpos (pieceFails_first hno.1)
  · intro hfaults hroom
    exact hdone.mpr fun i _ => not_pieceFails hfaults (by omega) i

theorem aesdRead_delivers (h : Holds K s blocks part) (c : ReadCall) (hg : readEnters c = true)
    (hpos : c.fPos < 2^63) (hcount : c.count < 2^64) (hcopy : ∀ f ∈ c.copyFaults, f = none)
    (hroom : min c.count ((content s).length-c.fPos.toNat) ≤ c.buf.length) :
    aesdRead s c = .ok (s,
      ⟨(min c.count ((content s).length-c.fPos.toNat) : ℕ),
        c.fPos+(min c.count ((content s).length-c.fPos.toNat) : ℕ),
        ((content s).drop c.fPos.toNat).take c.count ++
          c.buf.drop (min c.count ((content s).length-c.fPos.toNat))⟩) := by
  obtain ⟨n, buf', done, hread, hdel, _, hdone⟩ := aesdRead_entered h c hg hpos hcount
  obtain rfl := hdone hcopy hroom
  obtain ⟨rfl, rfl⟩ := hdel.all rfl
  have hpiece : ((content s).drop c.fPos.toNat).take
      (min c.count ((content s).length-c.fPos.toNat)) =
      ((content s).drop c.fPos.toNat).take c.count := by
    rw [← List.length_drop, ← List.take_eq_take_min]
  rw [hread, overwrite, hpiece]
  simp

end

end Aesd.DriverRead
