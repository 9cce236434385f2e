import Aesd.DriverStages
import Aesd.Lib.DividedHeap

/-!
# What holds while calls are in flight

The ghost state is the device as it would be had the calls which took effect
been made one at a time. The device itself agrees with it except for its lock,
and the heap except for blocks which one caller alone knows. A writer which
combines its bytes takes the pending block out of the common part until it has
put the result back.
-/

set_option autoImplicit false

namespace Aesd.DriverInterleaving
open BlockHeap Allocation MachineInt Linearization Interleaving
open Aesd.CircularBuffer Aesd.KernelMemory Aesd.CharDriver Aesd.DriverInvariant Aesd.DriverWrite
open Aesd.DriverRuns Aesd.DriverAnswers Aesd.DriverStages

def Serves (c c' : DriverCall) : Prop :=
  c.Typed ∧ match c with
    | .write c => ∃ x y, c' = .write { c with kmallocAt := x, kreallocAt := y }
    | c => c' = c

theorem serves_self {c : DriverCall} (h : c.Typed) : Serves c c := by
  cases c with
  | write c => exact ⟨h, c.kmallocAt, c.kreallocAt, rfl⟩
  | read c => exact ⟨h, rfl⟩
  | llseek fPos offset whence => exact ⟨h, rfl⟩
  | ioctl fPos cmd arg => exact ⟨h, rfl⟩

structure Ghost (ι : Type*) where
  seq : DriverState
  blocks : List Block
  part : Option Block
  common : Heap UInt8
  own : ι → Heap UInt8
  holder : Option ι
  trace : Trace ι DriverCall ReadResult

structure Copied (K : Kernel) (c : WriteCall) (tmpBuf : Addr) : Prop where
  entered : Entered K c tmpBuf
  copyFaults : c.copyFaults = false
  interrupted : c.interrupted = false

/-- What a caller owns at each stage and, if it has the lock, what it has found
out about the device. -/
def Stands (K : Kernel) (seq : DriverState) (part : Option Block) (common : Heap UInt8) :
    Stage → Heap UInt8 → Prop
  | .outside, own | .returning _, own => own = empty
  | .called c, own => own = empty ∧ c.Typed
  | .copying c a, own => own = alloc empty a (fresh K.allocator c.data.length) ∧ Entered K c a
  | .acquiring c a, own => own = alloc empty a c.data ∧ Entered K c a ∧ c.copyFaults = false
  | .scanning c a, own => own = alloc empty a c.data ∧ Copied K c a ∧ common = seq.heap
  | .adding c a, own =>
    own = alloc empty a c.data ∧ Copied K c a ∧ common = seq.heap ∧ part = none ∧ newline ∈ c.data
  | .combining c a hasNewline, own =>
    own = alloc empty a c.data ∧ Copied K c a ∧ common = seq.heap ∧
      hasNewline = c.data.contains newline
  | .merging c a p n hasNewline, own => ∃ q b, part = some (q, b) ∧ a ≠ p ∧
    own = alloc (alloc empty a c.data) p (b ++ fresh K.allocator c.data.length) ∧
      common = released seq ∧ n = b.length+c.data.length ∧ hasNewline = c.data.contains newline ∧
      goesThrough K seq c = true ∧ placedAt part c = some p
  | .discarding c a p n hasNewline, own => a ≠ p ∧
    own = alloc (alloc empty a c.data) p (pendingOf part ++ c.data) ∧
      common = released seq ∧ n = (pendingOf part ++ c.data).length ∧
      hasNewline = c.data.contains newline ∧ goesThrough K seq c = true ∧
      placedAt part c = some p
  | .keeping c p n hasNewline, own =>
    own = alloc empty p (pendingOf part ++ c.data) ∧
      common = released seq ∧ n = (pendingOf part ++ c.data).length ∧
      hasNewline = c.data.contains newline ∧ goesThrough K seq c = true ∧
      placedAt part c = some p
  | .reading c faults r, own => own = empty ∧ common = seq.heap ∧ (DriverCall.read c).Typed ∧
    ¬ (c.nullArg ∨ c.fPos < 0 ∨ c.count = 0) ∧ ¬ c.interrupted ∧ r.remainingCount < 2^64 ∧
      ∃ fuel, readLoop (held seq) fuel faults r =
        readLoop (held seq) (c.count+1) c.copyFaults (readStart c)
  | .summing _ _ _ index total, own => own = empty ∧ common = seq.heap ∧
    index ≤ maxWriteOperationsSupported ∧ total = (List.range index).foldl
      (fun total index => wrapS64 (total+(seq.dev.buffer.slot index).size)) 0
  | .checking _ _, own => own = empty ∧ common = seq.heap
  | .counting _ seekto i newFpos, own => own = empty ∧ common = seq.heap ∧
    i ≤ seekto.writeCmd.toNat ∧ newFpos = seekBase seq.dev.buffer i ∧
      ¬ seekto.writeCmd.toNat ≥
        (if seq.dev.buffer.full then maxWriteOperationsSupported else seq.dev.buffer.inOffs) ∧
      let entry := seq.dev.buffer.slot
        ((seq.dev.buffer.outOffs+seekto.writeCmd.toNat) % maxWriteOperationsSupported)
      ¬ (entry.buffptr = none ∨ seekto.writeCmdOffset.toNat ≥ entry.size)
  | .unlocking _ tmpBuf, own => common = seq.heap ∧
    match tmpBuf with
    | none => own = empty
    | some a => ∃ b, own = alloc empty a b
  | .freeing _ a, own => ∃ b, own = alloc empty a b

theorem stands_unlocked {K : Kernel} {l : Stage} (hl : l.locked = false) (seq seq' : DriverState)
    (part part' : Option Block) (common common' own : Heap UInt8)
    (h : Stands K seq part common l own) : Stands K seq' part' common' l own := by
  cases l <;> first | exact h | cases hl

structure Shared {ι : Type*} (K : Kernel) (g : Ghost ι) (s : DriverState) : Prop where
  holds : Holds K g.seq g.blocks g.part
  dev : s.dev = { g.seq.dev with bufferLock := g.holder.isSome }
  divided : Divided s.heap g.common g.own
  common : g.holder = none → g.common = g.seq.heap
  room : ∃ n : ℕ, ∀ a : ℕ, n ≤ a → g.seq.heap a = none
  legal : Legal (driverAnswer K) Serves aesdInitModule g.trace g.seq

section
variable {ι : Type*} {K : Kernel} {g : Ghost ι} {s : DriverState}

theorem Shared.partialWrite (hs : Shared K g s) : s.dev.partialWrite = g.part.map Prod.fst := by
  rw [hs.dev]
  exact hs.holds.partialWrite

theorem Shared.partialSize (hs : Shared K g s) : s.dev.partialSize = (pendingOf g.part).length := by
  rw [hs.dev]
  exact hs.holds.partialSize

theorem Shared.buffer (hs : Shared K g s) : s.dev.buffer = g.seq.dev.buffer := by
  rw [hs.dev]

theorem released_first {blocks : List Block} (h : Holds K s blocks none) : released s = s.heap := by
  have hpw : s.dev.partialWrite = none := h.partialWrite
  simp only [released, hpw]

theorem reading_turn (hs : Shared K g s) (hcommon : g.common = g.seq.heap)
    (faults : List (Option ℕ)) {r : ReadCursor} (hr : r.remainingCount < 2^64) :
    ∃ turn, readTurn (held g.seq) faults r = .ok turn ∧ readTurn s faults r = .ok turn ∧
      ∀ r', turn = .goesOn r' → r'.remainingCount < r.remainingCount := by
  obtain ⟨turn, hturn, hless⟩ := readTurn_spec hs.holds faults hr
  refine ⟨turn, hturn, readTurn_mono hs.buffer (fun x b hx => ?_) hturn, hless⟩
  apply (hs.divided.common_load _).1
  rw [hcommon]
  exact hx

theorem keepCombined_lock (dev : AesdDev) (h h' : Heap UInt8) (p : Addr) (n : ℕ) (b lock : Bool) :
    (keepCombined ⟨{ dev with bufferLock := lock }, h⟩ p n b).dev =
      { (keepCombined ⟨dev, h'⟩ p n b).dev with bufferLock := lock } := by
  cases b <;> rfl

theorem stored_room (hr : ∃ n : ℕ, ∀ a : ℕ, n ≤ a → s.heap a = none) (p : Addr)
    (bytes : List UInt8) (b : Bool) :
    ∃ n : ℕ, ∀ a : ℕ, n ≤ a → (stored s p bytes b).heap a = none := by
  obtain ⟨n, hn⟩ := hr
  refine ⟨max n (p+1), fun a ha => ?_⟩
  have hne : a ≠ p := by omega
  have hnone := hn a (by omega)
  rw [stored, keepCombined_heap]
  dsimp only
  rw [alloc_other _ _ hne, released]
  cases s.dev.partialWrite with
  | none => exact hnone
  | some q =>
    by_cases haq : a = q
    · subst haq
      simp
    · simp [haq, hnone]

end

section
variable {ι : Type*} [DecidableEq ι] {K : Kernel}

structure Local (K : Kernel) (g : Ghost ι) (i : ι) (l : Stage) : Prop where
  holder : l.locked = true ↔ g.holder = some i
  stands : Stands K g.seq g.part g.common l (g.own i)
  history : History (eventsOf i g.trace) l.phase

/-- The step of a caller succeeds, or the caller has to wait. -/
def Proceeds (K : Kernel) (g : Ghost ι) (i : ι) (x : StageStep) : Prop :=
  x = .ok none ∨ ∃ s l e g', x = .ok (some (s, l, e)) ∧
    Advances (Shared K) (Local K) Ghost.trace g i s l e g'

variable {g g' : Ghost ι} {i : ι} {s : DriverState} {l l' : Stage} {e : Shown}

theorem advances (hs : Shared K g' s) (htrace : g'.trace = g.trace ++ [(i, e)])
    (hown : ∀ j, j ≠ i → g'.own j = g.own j)
    (hholder : ∀ j, j ≠ i → (g'.holder = some j ↔ g.holder = some j))
    (hrest : g.holder = some i ∨ g'.seq = g.seq ∧ g'.part = g.part ∧ g'.common = g.common)
    (hlock : l'.locked = true ↔ g'.holder = some i)
    (hstands : Stands K g'.seq g'.part g'.common l' (g'.own i))
    (hhist : History (eventsOf i g.trace ++ e.toList) l'.phase) :
    Advances (Shared K) (Local K) Ghost.trace g i s l' e g' where
  shared := hs
  own := ⟨hlock, hstands, by rwa [htrace, eventsOf_same]⟩
  others := by
    intro j m hj hm
    have hhist : History (eventsOf j g'.trace) m.phase := by
      rw [htrace, eventsOf_other hj]
      exact hm.history
    refine ⟨by rw [hm.holder, hholder j hj], ?_, hhist⟩
    rw [hown j hj]
    rcases hrest with hi | ⟨hseq, hpart, hcommon⟩
    · apply stands_unlocked _ _ _ _ _ _ _ _ hm.stands
      rw [Bool.eq_false_iff, ne_eq, hm.holder, hi]
      exact fun hij => hj (Option.some.inj hij).symm
    · rw [hseq, hpart, hcommon]
      exact hm.stands
  trace := htrace

theorem advances_own (hs : Shared K g s) (hl : Local K g i l) {heap : Heap UInt8}
    (own : Heap UInt8) (hd : Divided heap g.common (Function.update g.own i own))
    (hlock : l'.locked = l.locked) (hstands : Stands K g.seq g.part g.common l' own)
    (hhist : History (eventsOf i g.trace ++ e.toList) l'.phase)
    (hlegal : Legal (driverAnswer K) Serves aesdInitModule (g.trace ++ [(i, e)]) g.seq) :
    Advances (Shared K) (Local K) Ghost.trace g i { s with heap } l' e
      { g with own := Function.update g.own i own, trace := g.trace ++ [(i, e)] } := by
  apply advances
  · exact ⟨hs.holds, hs.dev, hd, hs.common, hs.room, hlegal⟩
  · rfl
  · exact fun j hj => Function.update_of_ne hj _ _
  · exact fun _ _ => Iff.rfl
  · exact .inr ⟨rfl, rfl, rfl⟩
  · rw [hlock]
    exact hl.holder
  · simpa using hstands
  · exact hhist

theorem proceeds_own (hs : Shared K g s) (hl : Local K g i l) {heap own : Heap UInt8}
    (hd : Divided heap g.common (Function.update g.own i own)) (hlock : l'.locked = l.locked)
    (hphase : l'.phase = l.phase) (hstands : Stands K g.seq g.part g.common l' own) :
    Proceeds K g i (silently { s with heap } l') := by
  refine .inr ⟨_, _, _, _, rfl, advances_own hs hl _ hd hlock hstands ?_ (hs.legal.silent rfl)⟩
  rw [hphase]
  simpa using hl.history

theorem proceeds_silently (hs : Shared K g s) (hl : Local K g i l)
    (hlock : l'.locked = l.locked) (hphase : l'.phase = l.phase)
    (hstands : Stands K g.seq g.part g.common l' (g.own i)) :
    Proceeds K g i (silently s l') :=
  proceeds_own hs hl (by rw [Function.update_eq_self]; exact hs.divided) hlock hphase hstands

theorem proceeds_effect (hs : Shared K g s) (hl : Local K g i l) {c c' : DriverCall}
    {r : ReadResult} (hphase : l.phase = .pending c) (hc : Serves c c')
    (hr : driverAnswer K g.seq c' = .ok (g.seq, r)) (hlock : l'.locked = l.locked)
    (hphase' : l'.phase = .answered r)
    (hstands : Stands K g.seq g.part g.common l' (g.own i)) :
    Proceeds K g i (takesEffect s c r l') := by
  have hhist := hl.history
  rw [hphase] at hhist
  refine .inr ⟨_, _, _, _, rfl, advances_own hs hl (g.own i) ?_ hlock hstands ?_
    (hs.legal.effect i hc hr)⟩
  · rw [Function.update_eq_self]
    exact hs.divided
  · rw [hphase']
    exact hhist.effect r

theorem proceeds_lock (hs : Shared K g s) (hl : Local K g i l) (hlock : l'.locked = true)
    (hphase : l'.phase = l.phase)
    (hstands : g.common = g.seq.heap → Stands K g.seq g.part g.common l' (g.own i)) :
    Proceeds K g i (lockThen s l') := by
  cases hh : g.holder with
  | some j =>
    have hbusy : s.dev.bufferLock = true := by rw [hs.dev, hh]; rfl
    exact .inl (by rw [lockThen, if_pos hbusy])
  | none =>
    have hfree : ¬ s.dev.bufferLock := by rw [hs.dev, hh]; exact Bool.false_ne_true
    have hcommon := hs.common hh
    have hadv : Advances (Shared K) (Local K) Ghost.trace g i
        { s with dev := { s.dev with bufferLock := true } } l' none
        { g with holder := some i, trace := g.trace ++ [(i, none)] } := by
      apply advances
      · exact ⟨hs.holds, by rw [hs.dev]; rfl, hs.divided, by rintro ⟨⟩, hs.room,
        hs.legal.silent rfl⟩
      · rfl
      · exact fun _ _ => rfl
      · intro j hj
        simp [hh, hj.symm]
      · exact .inr ⟨rfl, rfl, rfl⟩
      · exact iff_of_true hlock rfl
      · exact hstands hcommon
      · rw [hphase]
        simpa using hl.history
    exact .inr ⟨_, _, _, _, by rw [lockThen, if_neg hfree]; rfl, hadv⟩

theorem called_write_proceeds (hs : Shared K g s) {c : WriteCall}
    (hl : Local K g i (.called (.write c))) :
    Proceeds K g i (Stage.next K s (.called (.write c))) := by
  have hown : g.own i = empty := hl.stands.1
  rw [Stage.next]
  by_cases harg : c.nullArg ∨ c.fPos < 0 ∨ c.data.length = 0
  · rw [if_pos harg]
    refine proceeds_effect hs hl rfl (serves_self trivial) ?_ rfl rfl hown
    rw [driverAnswer, write_invalid harg]
    rfl
  rw [if_neg harg]
  by_cases hdev : c.nullDev
  · rw [if_pos hdev]
    refine proceeds_effect hs hl rfl (serves_self trivial) ?_ rfl rfl hown
    rw [driverAnswer, write_null_dev harg hdev]
    rfl
  rw [if_neg hdev]
  cases hk : kmallocGrants K s.heap c.data.length c.kmallocAt with
  | false =>
    rw [kmalloc_refused K _ _ _ hk]
    refine proceeds_effect hs hl rfl ⟨trivial, none, c.kreallocAt, rfl⟩ ?_ rfl rfl hown
    rw [driverAnswer, write_unplaced (c := { c with kmallocAt := none }) harg hdev rfl]
    rfl
  | true =>
    obtain ⟨a, hat, ha, hsmall, hm⟩ := kmalloc_granted K _ _ _ hk
    rw [hm]
    have hplace := hs.divided.place (i := i) (.inl ha) (fresh K.allocator c.data.length)
    rw [hown] at hplace
    have hpos : 0 ≤ c.fPos := by
      by_contra hneg
      exact harg (.inr (.inl (by omega)))
    have hdata : c.data ≠ [] := by
      rintro hnil
      exact harg (.inr (.inr (by simp [hnil])))
    exact proceeds_own hs hl hplace rfl rfl
      ⟨rfl, by simpa using fun h => harg (.inl h), hpos, hdata, by simpa using hdev, hat, hsmall⟩

theorem unlocked_failure_proceeds (hs : Shared K g s) (hl : Local K g i l) {c : WriteCall}
    {a : Addr} (hc : l.phase = .pending (.write c)) (hlock : l.locked = false) {b : List UInt8}
    (hown : g.own i = alloc empty a b) {r : ℤ}
    (hr : ∀ a', g.seq.heap a' = none →
      aesdWrite K g.seq { c with kmallocAt := some a' } = .ok (g.seq, r)) :
    Proceeds K g i (takesEffect s (.write c) (writeAnswer c r) (.freeing (writeAnswer c r) a)) := by
  obtain ⟨n, hn⟩ := hs.room
  refine proceeds_effect hs hl hc ⟨trivial, some n, c.kreallocAt, rfl⟩ ?_ hlock.symm rfl ⟨b, hown⟩
  rw [driverAnswer, hr n (hn n le_rfl)]
  rfl

theorem copying_proceeds (hs : Shared K g s) {c : WriteCall} {a : Addr}
    (hl : Local K g i (.copying c a)) : Proceeds K g i (Stage.next K s (.copying c a)) := by
  obtain ⟨hown, he⟩ := hl.stands
  have hmine : g.own i a = some (fresh K.allocator c.data.length) := by rw [hown, alloc_same]
  rw [Stage.next]
  by_cases hf : c.copyFaults
  · rw [if_pos hf]
    apply unlocked_failure_proceeds hs hl rfl rfl hown
    intro a' ha'
    exact write_faults ⟨he.nullArg, he.fPos, he.data, he.nullDev, rfl, he.small⟩ ha' hf
  · rw [if_neg hf, store_live _ (hs.divided.own_load hmine).1 0 c.data (by simp), ok_bind,
      overwrite_whole _ _ (by simp)]
    have hplace := hs.divided.place (i := i) (.inr (by rw [hmine]; simp)) c.data
    rw [hown, alloc_alloc] at hplace
    exact proceeds_own hs hl hplace rfl rfl ⟨rfl, he, by simpa using hf⟩

theorem acquiring_proceeds (hs : Shared K g s) {c : WriteCall} {a : Addr}
    (hl : Local K g i (.acquiring c a)) : Proceeds K g i (Stage.next K s (.acquiring c a)) := by
  obtain ⟨hown, he, hf⟩ := hl.stands
  rw [Stage.next]
  by_cases hi : c.interrupted
  · rw [if_pos hi]
    apply unlocked_failure_proceeds hs hl rfl rfl hown
    intro a' ha'
    exact write_interrupted ⟨he.nullArg, he.fPos, he.data, he.nullDev, rfl, he.small⟩ ha' hf hi
  · rw [if_neg hi]
    refine proceeds_lock hs hl rfl rfl ?_
    exact fun hcommon => ⟨hown, ⟨he, hf, by simpa using hi⟩, hcommon⟩

theorem scanning_proceeds (hs : Shared K g s) {c : WriteCall} {a : Addr}
    (hl : Local K g i (.scanning c a)) : Proceeds K g i (Stage.next K s (.scanning c a)) := by
  obtain ⟨hown, hc, hcommon⟩ := hl.stands
  have hmine : g.own i a = some c.data := by rw [hown, alloc_same]
  rw [Stage.next, load_whole _ (hs.divided.own_load hmine).1, ok_bind]
  dsimp only
  by_cases hfirst : s.dev.partialWrite = none ∧ c.data.contains newline
  · rw [if_pos hfirst]
    refine proceeds_silently hs hl rfl rfl ⟨hown, hc, hcommon, ?_, ?_⟩
    · simpa [hs.partialWrite] using hfirst.1
    · exact List.contains_iff_mem.mp hfirst.2
  · rw [if_neg hfirst]
    exact proceeds_silently hs hl rfl rfl ⟨hown, hc, hcommon, rfl⟩

theorem proceeds_commit (hs : Shared K g s) (hl : Local K g i l) (hlock : l.locked = true)
    {c : WriteCall} (hphase : l.phase = .pending (.write c)) {p : Addr}
    (hown : g.own i = alloc empty p (pendingOf g.part ++ c.data))
    (hcommon : g.common = released g.seq) (hg : goesThrough K g.seq c = true)
    (hp : placedAt g.part c = some p) :
    let answer := writeAnswer c (wrapS64 c.data.length)
    Proceeds K g i (takesEffect
      (keepCombined s p (pendingOf g.part ++ c.data).length (c.data.contains newline))
      (.write c) answer (.unlocking answer none)) := by
  intro answer
  obtain ⟨hw, blocks, part, hholds⟩ := write_kept hs.holds hg hp
  have hhist := hl.history
  rw [hphase] at hhist
  have hsmall := goesThrough_small hs.holds c hg
  have hmax := K.kmallocMax_small
  have hmine : g.own i p = some (pendingOf g.part ++ c.data) := by rw [hown, alloc_same]
  have hgive := hs.divided.give hmine
  rw [hown, erase_alloc _ _ rfl, hcommon] at hgive
  obtain ⟨bytes, hbytes⟩ : ∃ bytes, bytes = pendingOf g.part ++ c.data := ⟨_, rfl⟩
  obtain ⟨b, hb⟩ : ∃ b, b = c.data.contains newline := ⟨_, rfl⟩
  rw [← hbytes, ← hb] at hw hholds ⊢
  rw [← hbytes] at hgive
  have hadv : Advances (Shared K) (Local K) Ghost.trace g i
      (keepCombined s p bytes.length b) (.unlocking answer none) (some (.effect (.write c) answer))
      { g with
        seq := stored g.seq p bytes b
        blocks := blocks
        part := part
        common := (stored g.seq p bytes b).heap
        own := Function.update g.own i empty
        trace := g.trace ++ [(i, some (.effect (.write c) answer))] } := by
    apply advances
    · refine ⟨hholds, ?_, ?_, fun _ => rfl, stored_room hs.room _ _ _, ?_⟩
      · obtain ⟨dev, heap⟩ := s
        obtain rfl : dev = _ := hs.dev
        exact keepCombined_lock g.seq.dev _ _ _ _ _ _
      · simpa [stored] using hgive
      · apply hs.legal.effect i (serves_self (c := .write c) trivial)
        have hret : wrapS64 (c.data.length:ℤ) = c.data.length := wrapS64_natCast (by omega)
        rw [driverAnswer, hw, ok_bind]
        dsimp only [answer]
        rw [hret]
        rfl
    · rfl
    · exact fun j hj => Function.update_of_ne hj _ _
    · exact fun _ _ => Iff.rfl
    · exact .inl (hl.holder.mp hlock)
    · exact iff_of_true rfl (hl.holder.mp hlock)
    · exact ⟨rfl, by simp⟩
    · exact hhist.effect answer
  exact .inr ⟨_, _, _, _, rfl, hadv⟩

theorem adding_proceeds (hs : Shared K g s) {c : WriteCall} {a : Addr}
    (hl : Local K g i (.adding c a)) : Proceeds K g i (Stage.next K s (.adding c a)) := by
  obtain ⟨hown, hc, hcommon, hpart, hn⟩ := hl.stands
  have hmine : g.own i a = some c.data := by rw [hown, alloc_same]
  have hfree := (hs.divided.own_load hmine).2.1
  rw [hcommon] at hfree
  have hholds := hs.holds
  have hw := hs.partialWrite
  have hz := hs.partialSize
  rw [hpart] at hholds hw hz
  have hkeep : addEntry s ⟨some a, c.data.length⟩ =
      keepCombined s a c.data.length (c.data.contains newline) := by
    obtain ⟨⟨buffer, lock, pw, ps⟩, heap⟩ := s
    simp only at hw hz
    subst hw hz
    simp [hn, keepCombined, addEntry, pendingOf]
  have hcommit := proceeds_commit hs hl rfl rfl (p := a) (by rw [hpart]; exact hown)
    (by rw [released_first hholds, hcommon])
    (goesThrough_first hholds hc.entered hfree hc.copyFaults hc.interrupted)
    (by rw [hpart]; exact hc.entered.kmallocAt)
  rw [hpart] at hcommit
  rw [Stage.next, hkeep]
  exact hcommit

theorem keeping_proceeds (hs : Shared K g s) {c : WriteCall} {p : Addr} {n : ℕ} {b : Bool}
    (hl : Local K g i (.keeping c p n b)) :
    Proceeds K g i (Stage.next K s (.keeping c p n b)) := by
  obtain ⟨hown, hcommon, rfl, rfl, hg, hp⟩ := hl.stands
  exact proceeds_commit hs hl rfl rfl hown hcommon hg hp

theorem regrown_proceeds (hs : Shared K g s) {c : WriteCall} {a : Addr}
    (hl : Local K g i (.combining c a (c.data.contains newline))) {q p : Addr} {b : List UInt8}
    (hpart : g.part = some (q, b)) (hat : c.kreallocAt = some p) (hp : p = q ∨ s.heap p = none)
    (hsum : b.length+c.data.length ≤ K.kmallocMax) :
    Proceeds K g i (silently
      { s with heap := alloc (erase s.heap q) p (b ++ fresh K.allocator c.data.length) }
      (.merging c a p (b.length+c.data.length) (c.data.contains newline))) := by
  obtain ⟨hown, hc, hcommon, _⟩ := hl.stands
  have hholds := hs.holds
  rw [hpart] at hholds
  have hpw : g.seq.dev.partialWrite = some q := hholds.partialWrite
  have hq : g.common q = some b := by
    rw [hcommon]
    exact hholds.heap (q, b) (by simp)
  obtain ⟨hmine, hfree, _⟩ := hs.divided.own_load (i := i) (a := a) (b := c.data)
    (by rw [hown, alloc_same])
  have hmove := hs.divided.move (i := i) hq hp (b ++ fresh K.allocator c.data.length)
  rw [hown] at hmove
  have hap : a ≠ p := by
    rintro rfl
    rcases hp with rfl | hp
    · rw [hq] at hfree
      cases hfree
    · rw [hmine] at hp
      cases hp
  have hplace : p = q ∨ alloc g.seq.heap a c.data p = none := by
    refine hp.imp_right fun hnone => ?_
    rw [alloc_other _ _ hap.symm, ← hcommon]
    exact (hs.divided.none_load hnone).1
  rw [hcommon] at hfree
  have hgoes := goesThrough_append hholds hc.entered hfree hc.copyFaults hc.interrupted hat hplace
    hsum
  have hreleased : erase g.common q = released g.seq := by
    rw [released, hpw, hcommon]
  have hadv : Advances (Shared K) (Local K) Ghost.trace g i
      { s with heap := alloc (erase s.heap q) p (b ++ fresh K.allocator c.data.length) }
      (.merging c a p (b.length+c.data.length) (c.data.contains newline)) none
      { g with
        common := erase g.common q
        own := Function.update g.own i
          (alloc (alloc empty a c.data) p (b ++ fresh K.allocator c.data.length))
        trace := g.trace ++ [(i, none)] } := by
    have hholder := hl.holder.mp rfl
    apply advances
    · refine ⟨hs.holds, hs.dev, hmove, fun hnone => ?_, hs.room, hs.legal.silent rfl⟩
      rw [hholder] at hnone
      cases hnone
    · rfl
    · exact fun j hj => Function.update_of_ne hj _ _
    · exact fun _ _ => Iff.rfl
    · exact .inl hholder
    · exact iff_of_true rfl hholder
    · exact ⟨q, b, hpart, hap, by simp, hreleased, rfl, rfl, hgoes, by rw [hpart]; exact hat⟩
    · rw [Option.toList_none, List.append_nil]
      exact hl.history
  exact .inr ⟨_, _, _, _, rfl, hadv⟩

theorem combining_proceeds (hs : Shared K g s) {c : WriteCall} {a : Addr} {b : Bool}
    (hl : Local K g i (.combining c a b)) :
    Proceeds K g i (Stage.next K s (.combining c a b)) := by
  obtain ⟨hown, hc, hcommon, rfl⟩ := hl.stands
  have hholds := hs.holds
  have hpw := hs.partialWrite
  have hps := hs.partialSize
  have hfree := (hs.divided.own_load (i := i) (a := a) (b := c.data)
    (by rw [hown, alloc_same])).2.1
  rw [hcommon] at hfree
  rw [Stage.next]
  cases hpart : g.part with
  | none =>
    rw [hpart] at hholds hpw
    rw [hpw]
    refine proceeds_silently hs hl rfl rfl ⟨by rw [hpart]; exact hown, ?_, by rw [hpart]; rfl, rfl,
      goesThrough_first hholds hc.entered hfree hc.copyFaults hc.interrupted,
      by rw [hpart]; exact hc.entered.kmallocAt⟩
    rw [released_first hholds, hcommon]
  | some x =>
    obtain ⟨q, b⟩ := x
    rw [hpart] at hholds hpw hps
    have hq : g.common q = some b := by
      rw [hcommon]
      exact hholds.heap (q, b) (by simp)
    have hload := (hs.divided.common_load hq).1
    have hsize : wrapU64 (s.dev.partialSize+c.data.length) = b.length+c.data.length := by
      rw [hs.dev]
      exact grown_size hholds hc.entered
    rw [hpw]
    dsimp only [Option.map_some]
    rw [hsize]
    cases hk : kreallocGrants K s.heap q (b.length+c.data.length) c.kreallocAt with
    | false =>
      rw [krealloc_refused K _ hload _ _ hk, ok_bind]
      refine proceeds_effect hs hl rfl ⟨trivial, c.kmallocAt, none, rfl⟩ ?_ rfl rfl
        ⟨hcommon, c.data, hown⟩
      have he := hc.entered
      rw [driverAnswer, write_unresized (c := { c with kreallocAt := none }) hholds
        ⟨he.nullArg, he.fPos, he.data, he.nullDev, he.kmallocAt, he.small⟩ hfree hc.copyFaults
        hc.interrupted rfl]
      rfl
    | true =>
      obtain ⟨p, hat, hp, hsum, hkr⟩ := krealloc_granted K _ hload _ _ hk
      rw [hkr, ok_bind, List.take_of_length_le (by omega), Nat.add_sub_cancel_left]
      exact regrown_proceeds hs hl hpart hat hp hsum

theorem merging_proceeds (hs : Shared K g s) {c : WriteCall} {a p : Addr} {n : ℕ} {b : Bool}
    (hl : Local K g i (.merging c a p n b)) :
    Proceeds K g i (Stage.next K s (.merging c a p n b)) := by
  obtain ⟨q, old, hpart, hap, hown, hcommon, rfl, rfl, hg, hp⟩ := hl.stands
  have htmp : g.own i a = some c.data := by rw [hown, alloc_other _ _ hap, alloc_same]
  have hgrown : g.own i p = some (old ++ fresh K.allocator c.data.length) := by
    rw [hown, alloc_same]
  have hps : s.dev.partialSize = old.length := by rw [hs.partialSize, hpart]; rfl
  have hplace := hs.divided.place (i := i) (.inr (by rw [hgrown]; simp)) (old ++ c.data)
  rw [hown, alloc_alloc] at hplace
  rw [Stage.next, load_whole _ (hs.divided.own_load htmp).1, ok_bind, hps,
    store_live _ (hs.divided.own_load hgrown).1 _ _ (by simp), ok_bind,
    overwrite_append _ _ _ (length_fresh _ _)]
  refine proceeds_own hs hl hplace rfl rfl ⟨hap, by rw [hpart]; rfl, hcommon, ?_, rfl, hg, hp⟩
  rw [hpart, List.length_append]
  rfl

theorem discarding_proceeds (hs : Shared K g s) {c : WriteCall} {a p : Addr} {n : ℕ} {b : Bool}
    (hl : Local K g i (.discarding c a p n b)) :
    Proceeds K g i (Stage.next K s (.discarding c a p n b)) := by
  obtain ⟨hap, hown, hrest⟩ := hl.stands
  have htmp : g.own i a = some c.data := by rw [hown, alloc_other _ _ hap, alloc_same]
  have hdrop := hs.divided.drop htmp
  rw [hown, erase_alloc_comm _ _ hap.symm, erase_alloc _ _ rfl] at hdrop
  rw [Stage.next, free_live _ (hs.divided.own_load htmp).1, ok_bind]
  exact proceeds_own hs hl hdrop rfl rfl ⟨rfl, hrest⟩

theorem called_read_proceeds (hs : Shared K g s) {c : ReadCall}
    (hl : Local K g i (.called (.read c))) :
    Proceeds K g i (Stage.next K s (.called (.read c))) := by
  obtain ⟨hown, htyped⟩ := hl.stands
  rw [Stage.next]
  by_cases harg : c.nullArg ∨ c.fPos < 0 ∨ c.count = 0
  · rw [if_pos harg]
    refine proceeds_effect hs hl rfl (serves_self htyped) ?_ rfl rfl hown
    rw [driverAnswer, aesdRead, if_pos harg]
  rw [if_neg harg]
  by_cases hint : c.interrupted
  · rw [if_pos hint]
    refine proceeds_effect hs hl rfl (serves_self htyped) ?_ rfl rfl hown
    rw [driverAnswer, aesdRead, if_neg harg, if_pos hint]
  · rw [if_neg hint]
    refine proceeds_lock hs hl rfl rfl fun hcommon => ?_
    exact ⟨hown, hcommon, htyped, harg, hint, htyped.2, c.count+1, rfl⟩

theorem reading_proceeds (hs : Shared K g s) {c : ReadCall} {faults : List (Option ℕ)}
    {r : ReadCursor} (hl : Local K g i (.reading c faults r)) :
    Proceeds K g i (Stage.next K s (.reading c faults r)) := by
  obtain ⟨hown, hcommon, htyped, harg, hint, hrem, fuel, hloop⟩ := hl.stands
  obtain ⟨turn, hturn, hhere, hless⟩ := reading_turn hs hcommon faults hrem
  obtain ⟨last, done, hends⟩ := read_ends hs.holds htyped.1 htyped.2 harg
  rw [hends] at hloop
  cases fuel with
  | zero => cases hloop
  | succ fuel =>
    rw [readLoop_turn, hturn, ok_bind] at hloop
    rw [Stage.next, hhere, ok_bind]
    cases turn with
    | leaves r done =>
      obtain ⟨rfl, rfl⟩ := Prod.mk.inj (Except.ok.inj hloop)
      refine proceeds_effect hs hl rfl (serves_self htyped) ?_ rfl rfl ⟨hcommon, hown⟩
      exact read_looped hs.holds harg hint hends
    | goesOn r =>
      have hnext := hless r rfl
      refine proceeds_silently hs hl rfl rfl
        ⟨hown, hcommon, htyped, harg, hint, by omega, fuel, ?_⟩
      rw [hends]
      exact hloop

theorem called_llseek_proceeds (hs : Shared K g s) {fPos offset whence : ℤ}
    (hl : Local K g i (.called (.llseek fPos offset whence))) :
    Proceeds K g i (Stage.next K s (.called (.llseek fPos offset whence))) :=
  proceeds_lock hs hl rfl rfl fun hcommon => ⟨hl.stands.1, hcommon, Nat.zero_le _, rfl⟩

theorem summing_proceeds (hs : Shared K g s) {fPos offset whence total : ℤ} {index : ℕ}
    (hl : Local K g i (.summing fPos offset whence index total)) :
    Proceeds K g i (Stage.next K s (.summing fPos offset whence index total)) := by
  obtain ⟨hown, hcommon, hle, htotal⟩ := hl.stands
  rw [Stage.next]
  by_cases hi : index < maxWriteOperationsSupported
  · rw [if_pos hi]
    refine proceeds_silently hs hl rfl rfl ⟨hown, hcommon, hi, ?_⟩
    rw [List.range_succ, List.foldl_append, ← htotal, hs.buffer]
    rfl
  · rw [if_neg hi]
    obtain rfl : index = maxWriteOperationsSupported := by omega
    rw [← totalSize_range] at htotal
    refine proceeds_effect hs hl rfl (serves_self trivial) ?_ rfl rfl ⟨hcommon, hown⟩
    rw [llseek_answer hs.holds, htotal]

theorem called_ioctl_proceeds (hs : Shared K g s) {fPos : ℤ} {cmd : ℕ}
    {arg : Option AesdSeekto} (hl : Local K g i (.called (.ioctl fPos cmd arg))) :
    Proceeds K g i (Stage.next K s (.called (.ioctl fPos cmd arg))) := by
  have hown : g.own i = empty := hl.stands.1
  rw [Stage.next.eq_def]
  dsimp only
  by_cases hcmd : cmd ≠ AESDCHAR_IOCSEEKTO
  · rw [if_pos hcmd]
    refine proceeds_effect hs hl rfl (serves_self trivial) ?_ rfl rfl hown
    simp only [driverAnswer, aesdUnlockedIoctl, if_pos hcmd, ok_bind, pure_eq_ok]
  rw [if_neg hcmd]
  obtain rfl := not_not.mp hcmd
  cases arg with
  | none => exact proceeds_effect hs hl rfl (serves_self trivial) rfl rfl rfl hown
  | some seekto => exact proceeds_lock hs hl rfl rfl fun hcommon => ⟨hown, hcommon⟩

theorem checking_proceeds (hs : Shared K g s) {fPos : ℤ} {seekto : AesdSeekto}
    (hl : Local K g i (.checking fPos seekto)) :
    Proceeds K g i (Stage.next K s (.checking fPos seekto)) := by
  obtain ⟨hown, hcommon⟩ := hl.stands
  have hanswer := ioctl_answer hs.holds fPos seekto
  rw [Stage.next, hs.buffer]
  dsimp only at hanswer ⊢
  generalize hn : (if g.seq.dev.buffer.full then maxWriteOperationsSupported
    else g.seq.dev.buffer.inOffs) = n at hanswer ⊢
  split_ifs at hanswer ⊢ with hcount hentry
  · exact proceeds_effect hs hl rfl (serves_self trivial) hanswer rfl rfl ⟨hcommon, hown⟩
  · exact proceeds_effect hs hl rfl (serves_self trivial) hanswer rfl rfl ⟨hcommon, hown⟩
  · exact proceeds_silently hs hl rfl rfl
      ⟨hown, hcommon, Nat.zero_le _, rfl, by rwa [hn], hentry⟩

theorem counting_proceeds (hs : Shared K g s) {fPos newFpos : ℤ} {seekto : AesdSeekto} {k : ℕ}
    (hl : Local K g i (.counting fPos seekto k newFpos)) :
    Proceeds K g i (Stage.next K s (.counting fPos seekto k newFpos)) := by
  obtain ⟨hown, hcommon, hle, hpos, hcount, hentry⟩ := hl.stands
  rw [Stage.next, hs.buffer]
  by_cases hk : k < seekto.writeCmd.toNat
  · rw [if_pos hk]
    refine proceeds_silently hs hl rfl rfl ⟨hown, hcommon, hk, ?_, hcount, hentry⟩
    rw [seekBase, List.range_succ, List.foldl_append, hpos]
    rfl
  · rw [if_neg hk]
    obtain rfl : k = seekto.writeCmd.toNat := by omega
    refine proceeds_effect hs hl rfl (serves_self trivial) ?_ rfl rfl ⟨hcommon, hown⟩
    rw [ioctl_answer hs.holds, if_neg hcount, if_neg hentry, hpos]

theorem proceeds_unlock (hs : Shared K g s) (hl : Local K g i l) (l' : Stage)
    (hlock : l.locked = true) (hcommon : g.common = g.seq.heap) (hlock' : l'.locked = false)
    (hphase : l'.phase = l.phase)
    (hstands : Stands K g.seq g.part g.common l' (g.own i)) :
    mutexUnlock s.dev = .ok { s.dev with bufferLock := false } ∧
      Proceeds K g i (silently { s with dev := { s.dev with bufferLock := false } } l') := by
  have hholder := hl.holder.mp hlock
  refine ⟨mutexUnlock_held (by rw [hs.dev, hholder]; rfl), .inr ⟨_, _, _,
    { g with holder := none, trace := g.trace ++ [(i, none)] }, rfl, ?_⟩⟩
  apply advances
  · exact ⟨hs.holds, by rw [hs.dev]; rfl, hs.divided, fun _ => hcommon, hs.room,
      hs.legal.silent rfl⟩
  · rfl
  · exact fun _ _ => rfl
  · intro j hj
    simp [hholder, hj.symm]
  · exact .inl hholder
  · simp [hlock']
  · exact hstands
  · rw [hphase, Option.toList_none, List.append_nil]
    exact hl.history

theorem unlocking_proceeds (hs : Shared K g s) {answer : ReadResult} {tmpBuf : Option Addr}
    (hl : Local K g i (.unlocking answer tmpBuf)) :
    Proceeds K g i (Stage.next K s (.unlocking answer tmpBuf)) := by
  obtain ⟨hcommon, hown⟩ := hl.stands
  rw [Stage.next]
  cases tmpBuf with
  | none =>
    obtain ⟨hunlock, hp⟩ := proceeds_unlock hs hl (.returning answer) rfl hcommon rfl rfl hown
    rw [hunlock, ok_bind]
    exact hp
  | some a =>
    obtain ⟨hunlock, hp⟩ := proceeds_unlock hs hl (.freeing answer a) rfl hcommon rfl rfl hown
    rw [hunlock, ok_bind]
    exact hp

theorem freeing_proceeds (hs : Shared K g s) {answer : ReadResult} {a : Addr}
    (hl : Local K g i (.freeing answer a)) :
    Proceeds K g i (Stage.next K s (.freeing answer a)) := by
  obtain ⟨b, hown⟩ := hl.stands
  have htmp : g.own i a = some b := by rw [hown, alloc_same]
  have hdrop := hs.divided.drop htmp
  rw [hown, erase_alloc _ _ rfl] at hdrop
  rw [Stage.next, free_live _ (hs.divided.own_load htmp).1, ok_bind]
  exact proceeds_own hs hl hdrop rfl rfl rfl

theorem returning_proceeds (hs : Shared K g s) {answer : ReadResult}
    (hl : Local K g i (.returning answer)) :
    Proceeds K g i (Stage.next K s (.returning answer)) := by
  have hown : g.own i = empty := hl.stands
  refine .inr ⟨_, _, _, _, rfl, advances_own hs hl empty ?_ rfl rfl
    (History.returned hl.history) (hs.legal.silent rfl)⟩
  rw [← hown, Function.update_eq_self]
  exact hs.divided

theorem call_proceeds (hs : Shared K g s) (hl : Local K g i .outside) (c : TypedCall) :
    Proceeds K g i (.ok (some (s, .called c.1, some (.called c.1)))) := by
  have hown : g.own i = empty := hl.stands
  refine .inr ⟨_, _, _, _, rfl, advances_own hs hl empty ?_ rfl ⟨rfl, c.2⟩
    (History.called hl.history c.1) (hs.legal.silent rfl)⟩
  rw [← hown, Function.update_eq_self]
  exact hs.divided

theorem next_proceeds (hs : Shared K g s) (hl : Local K g i l) :
    Proceeds K g i (Stage.next K s l) := by
  cases l with
  | outside => exact .inl rfl
  | called c =>
    cases c with
    | write c => exact called_write_proceeds hs hl
    | read c => exact called_read_proceeds hs hl
    | llseek fPos offset whence => exact called_llseek_proceeds hs hl
    | ioctl fPos cmd arg => exact called_ioctl_proceeds hs hl
  | copying c a => exact copying_proceeds hs hl
  | acquiring c a => exact acquiring_proceeds hs hl
  | scanning c a => exact scanning_proceeds hs hl
  | adding c a => exact adding_proceeds hs hl
  | combining c a b => exact combining_proceeds hs hl
  | merging c a p n b => exact merging_proceeds hs hl
  | discarding c a p n b => exact discarding_proceeds hs hl
  | keeping c p n b => exact keeping_proceeds hs hl
  | reading c faults r => exact reading_proceeds hs hl
  | summing fPos offset whence index total => exact summing_proceeds hs hl
  | checking fPos seekto => exact checking_proceeds hs hl
  | counting fPos seekto k newFpos => exact counting_proceeds hs hl
  | unlocking answer tmpBuf => exact unlocking_proceeds hs hl
  | freeing answer a => exact freeing_proceeds hs hl
  | returning answer => exact returning_proceeds hs hl

theorem driver_keeps (K : Kernel) :
    Keeps (driverProgram K) (Shared (ι := ι) K) (Local K) Ghost.trace := by
  intro g s i l a hs hl
  cases a with
  | call c =>
    cases l with
    | outside => exact call_proceeds hs hl c
    | _ => exact .inl rfl
  | goOn =>
    have hp := next_proceeds hs hl
    cases l <;> exact hp

def ghostInit : Ghost ι where
  seq := aesdInitModule
  blocks := []
  part := none
  common := empty
  own := fun _ => empty
  holder := none
  trace := []

def loaded : Config ι DriverState Stage := ⟨aesdInitModule, fun _ => .outside⟩

theorem held_loaded (K : Kernel) :
    Interleaving.Held (Shared (ι := ι) K) (Local K) ghostInit loaded := by
  constructor
  · exact ⟨holds_init K, rfl, divided_self _, fun _ => rfl, ⟨0, fun _ _ => rfl⟩, legal_nil _⟩
  · exact fun i => ⟨by simp [loaded, ghostInit, Stage.locked], rfl, .nil⟩

end

end Aesd.DriverInterleaving
