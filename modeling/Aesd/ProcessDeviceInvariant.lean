import Aesd.Lib.DividedHeap
import Aesd.ProcessDevice
import Aesd.ProcessShutdown

/-!
# What a thread can do to the device

Whatever its numbers refer to, a thread uses no memory but its own, no position
leaves the range of `loff_t`, and the device changes only under the mutex by a
request which is written as a whole.
-/

set_option autoImplicit false

namespace Aesd.ProcessDeviceInvariant
open BlockHeap Allocation DescriptorTable MachineInt
open Aesd.KernelMemory Aesd.CharDriver Aesd.DriverInvariant Aesd.DriverWrite
open Aesd.CommandLog Aesd.DriverRead Aesd.DriverSeek Aesd.SeekParser
open Aesd.SocketServer Aesd.ReceiveLoop Aesd.ReplyLoop Aesd.SocketRequest
open Aesd.ServerProcess Aesd.ProcessTallies Aesd.ProcessShutdown Aesd.ProcessDevice

def Owns (own : Heap UInt8) : Held → Prop
  | .buffer a n => ∃ b, own = alloc empty a b ∧ 0 < n ∧ n ≤ b.length ∧ newline ∈ b.take n
  | .reply r => ∃ b, own = alloc empty r.sendBuffer b ∧ b.length = clientBufferLen ∧
      r.bytesRead ≤ clientBufferLen
  | _ => own = empty

def InRange (fPos : File → ℤ) : Prop := ∀ g, 0 ≤ fPos g ∧ fPos g < 2^63

/-- No position has moved but that of the file behind the number. -/
structure Moves (s : System) (d : ℕ) (fPos : File → ℤ) : Prop where
  range : InRange fPos
  others : ∀ g, lookup s.process.table d ≠ some g → fPos g = s.fPos g

structure Consistent (K : Kernel) (s : System) : Prop where
  holds : ∃ blocks part, Holds K s.driver blocks part
  numbered : Numbered s.process
  blocks : ∃ own : ℕ → Heap UInt8, Divided s.heap empty own ∧ ∀ k, Owns (own k) (s.held k)
  range : InRange s.fPos
  exclusive : ∀ k, inSection (s.process.thread k) = true → s.process.mutexReadWrite = some k

def Brings (s : System) (d n : ℕ) (fPos : File → ℤ) (bytes : List UInt8) : Prop :=
  ∃ (j m p : ℕ), lookup s.process.table d = some (.device j m) ∧
    s.fPos (.device j m) = p ∧ fPos (.device j m) = (p+n : ℕ) ∧
    n = min clientBufferLen ((content s.driver).length-p) ∧
    bytes = ((content s.driver).drop p).take n

/-- A thread which goes on without doing anything has not skipped its request or
the buffer for its reply. -/
structure Idles (q : ThreadPhase) (held : Held) (o : Outcome) : Prop where
  asks : ∀ c f, q = .requesting c f → o = .fails ∨ held.request ≠ none
  replies : ∀ c f request, q = .replying c f → held ≠ .dispatched request

/-- What a thread does, once and for all. -/
inductive Effected (K : Kernel) (s : System) (k : ℕ) : Effect → Prop where
  | waits : Effected K s k (s.idle k)
  | goes (o : Outcome) (ho : Idles (s.process.thread k) (s.held k) o) :
      Effected K s k { s.idle k with goesOn := some o }
  | opens (n : ℕ) (hk : (s.process.thread k).fileFd = none) :
      Effected K s k { s.idle k with
        goesOn := some .succeeds
        fPos := Function.update s.fPos (.device k n) 0 }
  | gathers {a : Addr} {b : List UInt8} {n : ℕ} (hk : s.held k = .nothing) (ha : s.heap a = none)
      (hn : 0 < n) (hle : n ≤ b.length) (hline : newline ∈ b.take n) :
      Effected K s k { s.idle k with heap := alloc s.heap a b, held := .buffer a n }
  | dispatches {c f n : ℕ} {a : Addr} {o : Outcome} {fPos : File → ℤ} {flag : Bool} {held : Held}
      (hk : s.process.thread k = .requesting c f)
      (hb : s.held k = .buffer a n) (hpos : Moves s f fPos)
      (hheld : held = .nothing ∧ o = .fails ∧ fPos = s.fPos ∨
        ∃ request, held = .dispatched request ∧
        (isDevice (lookup s.process.table f) = true → SEEK_COMMAND <+: request)) :
      Effected K s k ⟨some o, s.driver, erase s.heap a, fPos, flag, held, none⟩
  | stores {c f n : ℕ} {a : Addr} {request : List UInt8} {o : Outcome} {driver : DriverState}
      {flag : Bool} {held : Held} (hk : s.process.thread k = .requesting c f)
      (hb : s.held k = .buffer a n) (hfree : s.process.mutexReadWrite = none)
      (hdriver : ∃ blocks part, Holds K driver blocks part)
      (hlog : deviceLog driver = logWrite (deviceLog s.driver) request)
      (hline : newline ∈ request) (hseek : ¬ SEEK_COMMAND <+: request)
      (hheld : held = .nothing ∧ o = .fails ∨ held = .dispatched request) :
      Effected K s k ⟨some o, driver, erase s.heap a, s.fPos, flag, held, some (.stored k request)⟩
  | givesUp {c f : ℕ} {request : List UInt8} (hk : s.process.thread k = .replying c f)
      (hr : s.held k = .dispatched request) :
      Effected K s k { s.idle k with goesOn := some .fails, held := .nothing }
  | allocates {a : Addr} {b request : List UInt8} {c f : ℕ}
      (hk : s.process.thread k = .replying c f) (hr : s.held k = .dispatched request)
      (ha : s.heap a = none) (hb : b.length = clientBufferLen) :
      Effected K s k { s.idle k with
        heap := alloc s.heap a b
        held := .reply ⟨request, a, 0, [], true⟩ }
  | reads {c f g n : ℕ} {r : Reply} {b : List UInt8} {fPos : File → ℤ} {whole : Bool}
      (hk : s.process.thread k = .serving c f g) (hr : s.held k = .reply r)
      (hread : r.bytesRead = 0) (hb : b.length = clientBufferLen) (hn : n ≤ clientBufferLen)
      (hpos : Moves s g fPos)
      (hwhole : whole = true → r.whole = true ∧ Brings s g n fPos (b.take n)) :
      Effected K s k { s.idle k with
        heap := alloc s.heap r.sendBuffer b
        fPos := fPos
        held := .reply { r with bytesRead := n, whole := whole } }
  | sends {c f g : ℕ} {r : Reply} {sent : List UInt8} {whole : Bool}
      (hk : s.process.thread k = .serving c f g) (hr : s.held k = .reply r)
      (hwhole : whole = true → r.whole = true ∧
        ∃ b, s.heap r.sendBuffer = some b ∧ sent = r.sent ++ b.take r.bytesRead) :
      Effected K s k { s.idle k with
        held := .reply { r with bytesRead := 0, sent := sent, whole := whole } }
  | abandons {r : Reply} {o : Outcome} {shown : Option Shown}
      (hk : (∃ c f, s.process.thread k = .reopening c f ∧ o = .fails) ∨
        ∃ c f g, s.process.thread k = .serving c f g)
      (hr : s.held k = .reply r)
      (hshown : shown = none ∨ shown = some (.replied k r.sent false)) :
      Effected K s k { s.idle k with
        goesOn := some o
        heap := erase s.heap r.sendBuffer
        held := .nothing
        shown := shown }
  | ends {c f g : ℕ} {r : Reply} {fPos : File → ℤ} {whole : Bool}
      (hk : s.process.thread k = .serving c f g) (hr : s.held k = .reply r)
      (hread : r.bytesRead = 0) (hpos : Moves s g fPos)
      (hwhole : whole = true → r.whole = true ∧ Brings s g 0 fPos []) :
      Effected K s k { s.idle k with
        goesOn := some .succeeds
        heap := erase s.heap r.sendBuffer
        fPos := fPos
        held := .nothing
        shown := some (.replied k r.sent whole) }

section
variable {K : Kernel} {M : Libc} {s : System} {k : ℕ}

theorem Moves.refl (h : InRange s.fPos) (d : ℕ) : Moves s d s.fPos := ⟨h, fun _ _ => rfl⟩

theorem Moves.update (h : InRange s.fPos) {d j m : ℕ} {p : ℤ}
    (hd : lookup s.process.table d = some (.device j m)) (hp : 0 ≤ p ∧ p < 2^63) :
    Moves s d (Function.update s.fPos (.device j m) p) where
  range g := by
    rw [Function.update_apply]
    split_ifs
    · exact hp
    · exact h g
  others g hg := by
    apply Function.update_of_ne
    rintro rfl
    exact hg hd

theorem Consistent.reply_block (h : Consistent K s) {r : Reply} (hr : s.held k = .reply r) :
    ∃ b, s.heap r.sendBuffer = some b ∧ b.length = clientBufferLen ∧
      r.bytesRead ≤ clientBufferLen := by
  obtain ⟨own, hd, howns⟩ := h.blocks
  have hk := howns k
  rw [hr] at hk
  obtain ⟨b, hown, hlen, hn⟩ := hk
  exact ⟨b, (hd.own_load (i := k) (by rw [hown, alloc_same])).1, hlen, hn⟩

theorem Consistent.request_block (h : Consistent K s) {a : Addr} {n : ℕ}
    (hb : s.held k = .buffer a n) :
    ∃ b, s.heap a = some b ∧ 0 < n ∧ n ≤ b.length ∧ newline ∈ b.take n := by
  obtain ⟨own, hd, howns⟩ := h.blocks
  have hk := howns k
  rw [hb] at hk
  obtain ⟨b, hown, hn, hle, hline⟩ := hk
  exact ⟨b, (hd.own_load (i := k) (by rw [hown, alloc_same])).1, hn, hle, hline⟩

theorem device_read {driver : DriverState} {blocks : List DriverInvariant.Block}
    {part : Option DriverInvariant.Block} (h : Holds K driver blocks part) (o : ReadOutcome)
    {p : ℤ} (hp : 0 ≤ p) (hp' : p < 2^63)
    {buf : List UInt8} (hbuf : buf.length = clientBufferLen) :
    ∃ r, aesdRead driver (o.call p buf) = .ok (driver, r) ∧ 0 ≤ r.fPos ∧ r.fPos < 2^63 ∧
      r.buf.length = clientBufferLen ∧ r.retval ≤ clientBufferLen ∧
      (o = .undisturbed → ∃ n, n = min clientBufferLen ((content driver).length-p.toNat) ∧
        r.retval = (n:ℕ) ∧ r.fPos = (p.toNat+n : ℕ) ∧
        r.buf.take n = ((content driver).drop p.toNat).take n) := by
  by_cases ho : o = .undisturbed
  · subst ho
    obtain ⟨q, rfl⟩ := Int.eq_ofNat_of_zero_le hp
    obtain ⟨n, bytes, buf', hn, hblen, htake, hbuf', happ, hread⟩ :=
      read_piece h q buf (by omega) hbuf
    have hlt := length_content_lt h
    have hmin := min_le_left 1024 ((content driver).length-q)
    refine ⟨_, hread, Int.natCast_nonneg _, ?_, hbuf', ?_, fun _ => ⟨n, hn, rfl, rfl, ?_⟩⟩
    · change ((q+n : ℕ):ℤ) < 2^63
      omega
    · change ((n:ℕ):ℤ) ≤ 1024
      omega
    · rw [htake, Int.toNat_natCast, ← happ, List.take_left' hblen]
  · cases hg : readEnters (o.call p buf) with
    | false =>
      obtain ⟨r, hr, hread⟩ := aesdRead_not_entered driver _ hg
      refine ⟨_, hread, hp, hp', hbuf, ?_, fun heq => absurd heq ho⟩
      change r ≤ 1024
      omega
    | true =>
      obtain ⟨n, buf', done, hread, hdel, _, _⟩ := aesdRead_entered h _ hg hp'
        (show 1024 < 2^64 by decide)
      have hlt := length_content_lt h
      have hle : n ≤ min 1024 ((content driver).length-p.toNat) := hdel.le
      refine ⟨_, hread, ?_, ?_, hdel.length.trans hbuf, ?_, fun heq => absurd heq ho⟩
      · change 0 ≤ p+n
        omega
      · change p+n < 2^63
        omega
      · cases done with
        | true =>
          change (n:ℤ) ≤ 1024
          omega
        | false =>
          change -EFAULT ≤ 1024
          decide

theorem erase_alloc_same (h : Heap UInt8) (a : Addr) (b : List UInt8) :
    erase (alloc h a b) a = erase h a := Function.update_idem _ _ _

theorem readFrom_spec (h : Consistent K s) {b : List UInt8} (hb : b.length = clientBufferLen)
    (d : ℕ) (c : Calls) :
    ∃ fPos bytesRead b', readFrom s b c (lookup s.process.table d) =
        .ok (s.driver, fPos, bytesRead, b') ∧
      b'.length = clientBufferLen ∧ bytesRead ≤ clientBufferLen ∧ Moves s d fPos ∧
      (isDevice (lookup s.process.table d) = true → c.read = .undisturbed →
        ∃ n : ℕ, bytesRead = n ∧ Brings s d n fPos (b'.take n)) := by
  cases hd : lookup s.process.table d with
  | none =>
    exact ⟨s.fPos, -1, b, rfl, hb, by decide, .refl h.range d, nofun⟩
  | some g =>
    cases g with
    | device j m =>
      obtain ⟨blocks, part, hh⟩ := h.holds
      obtain ⟨hp, hp'⟩ := h.range (.device j m)
      obtain ⟨r, hread, hpos, hpos', hlen, hle, hundisturbed⟩ := device_read hh c.read hp hp' hb
      refine ⟨_, r.retval, r.buf, ?_, hlen, hle, .update h.range hd ⟨hpos, hpos'⟩, fun _ ho => ?_⟩
      · simp only [readFrom, hread, ok_bind, pure_eq_ok]
      · obtain ⟨n, hn, hretval, hfPos, htake⟩ := hundisturbed ho
        exact ⟨n, hretval, j, m, (s.fPos (.device j m)).toNat, hd, (Int.toNat_of_nonneg hp).symm,
          by rw [Function.update_self, hfPos], hn, htake⟩
    | own n | client j =>
      have hlen : (c.brought.take clientBufferLen).length ≤ clientBufferLen :=
        List.length_take_le _ _
      refine ⟨s.fPos, _, _, rfl, ?_, by exact_mod_cast hlen, .refl h.range d, nofun⟩
      rw [length_overwrite _ _ _ (by omega), hb]

/-- The reply goes on undisturbed: it is at its end, or a piece of it is read or sent. -/
def Steady (k : ℕ) (r : Reply) (e : Effect) : Prop :=
  e.goesOn = some .succeeds ∧ e.shown = some (.replied k r.sent true) ∨
  e.goesOn = none ∧ ∃ n sent, e.held = .reply { r with bytesRead := n, sent := sent } ∧
    (r.bytesRead = 0 ∧ 0 < n ∧ sent = r.sent ∨
      0 < r.bytesRead ∧ n = 0 ∧ sent.length = r.sent.length+r.bytesRead)

theorem readEffect_spec (h : Consistent K s) {c f g : ℕ} {r : Reply}
    (hk : s.process.thread k = .serving c f g) (hr : s.held k = .reply r)
    (hread : r.bytesRead = 0) (calls : Calls) :
    ∃ e, readEffect s k g r calls = .ok e ∧ Effected K s k e ∧
      (r.whole = true → isDevice (lookup s.process.table g) = true →
        calls.read = .undisturbed → Steady k r e) := by
  obtain ⟨b, hb, hlen, _⟩ := h.reply_block hr
  have hload : load s.heap r.sendBuffer 0 clientBufferLen = .ok b := by
    rw [← hlen, load_whole _ hb]
  obtain ⟨fPos, bytesRead, b', hfrom, hlen', hle, hmoves, hbrings⟩ := readFrom_spec h hlen g calls
  have hstore : store s.heap r.sendBuffer 0 b' = .ok (alloc s.heap r.sendBuffer b') := by
    rw [store_live _ hb _ _ (by omega), overwrite_whole _ _ (by omega)]
  have hwhole : (r.whole && isDevice (lookup s.process.table g) &&
      decide (calls.read = .undisturbed)) = true →
      r.whole = true ∧ ∃ n : ℕ, bytesRead = n ∧ Brings s g n fPos (b'.take n) := by
    intro hw
    simp only [Bool.and_eq_true, decide_eq_true_eq] at hw
    exact ⟨hw.1.1, hbrings hw.1.2 hw.2⟩
  simp only [readEffect, hload, hfrom, hstore, ok_bind, pure_eq_ok]
  by_cases hpos : bytesRead > 0
  · rw [if_pos hpos]
    have hn : bytesRead.toNat ≤ clientBufferLen := by omega
    refine ⟨_, rfl, .reads hk hr hread hlen' hn hmoves ?_, fun hw hdev ho => ?_⟩
    · intro hw
      obtain ⟨hbefore, n, rfl, hn⟩ := hwhole hw
      exact ⟨hbefore, by rwa [Int.toNat_natCast]⟩
    · refine .inr ⟨rfl, bytesRead.toNat, r.sent, ?_, .inl ⟨hread, by omega, rfl⟩⟩
      simp [hw, hdev, ho]
  · rw [if_neg hpos, free_live _ (alloc_same _ _ _), ok_bind, erase_alloc_same]
    refine ⟨_, rfl, Effected.ends hk hr hread hmoves ?_, fun hw hdev ho => ?_⟩
    · intro hw
      obtain ⟨hbefore, n, rfl, hn⟩ := hwhole hw
      obtain rfl : n = 0 := by omega
      exact ⟨hbefore, hn⟩
    · exact .inl ⟨rfl, by simp [hw, hdev, ho]⟩

theorem sendOutcome_client {calls : Calls} {c : ℕ} (len : ℕ)
    (hclient : lookup s.process.table c = some (.client k)) (hsend : calls.send = none) :
    sendOutcome calls len (lookup s.process.table c) = .accepts len := by
  rw [hclient]
  change calls.send.getD _ = _
  rw [hsend, Option.getD_none]

theorem sendEffect_spec (h : Consistent K s) {c f g : ℕ} {r : Reply}
    (hk : s.process.thread k = .serving c f g) (hr : s.held k = .reply r)
    (hread : 0 < r.bytesRead) (calls : Calls) :
    ∃ e, sendEffect s k c r calls = .ok e ∧ Effected K s k e ∧
      (r.whole = true → lookup s.process.table c = some (.client k) →
        calls.send = none → Steady k r e) := by
  obtain ⟨b, hb, hlen, hn⟩ := h.reply_block hr
  have hload : load s.heap r.sendBuffer 0 r.bytesRead = .ok (b.take r.bytesRead) := by
    rw [load_live _ hb _ _ (by omega), List.drop_zero]
  have htake : (b.take r.bytesRead).length = r.bytesRead := by
    rw [List.length_take, hlen]
    exact Nat.min_eq_left hn
  simp only [sendEffect, hload, ok_bind]
  cases ho : sendOutcome calls (b.take r.bytesRead).length (lookup s.process.table c) with
  | accepts count =>
    refine ⟨_, rfl, .sends hk hr fun hw => ?_, fun hw hclient hsend => ?_⟩
    · simp only [Bool.and_eq_true, decide_eq_true_eq] at hw
      refine ⟨hw.1.1, b, hb, ?_⟩
      rw [if_pos (by simpa using hw.1.2), List.take_of_length_le hw.2]
    · rw [sendOutcome_client _ hclient hsend] at ho
      obtain rfl := SendOutcome.accepts.inj ho
      refine .inr ⟨rfl, 0, r.sent ++ b.take r.bytesRead, ?_, .inr ⟨hread, rfl, ?_⟩⟩
      · simp [hclient, hw]
      · rw [List.length_append, htake]
  | interrupted =>
    refine ⟨_, rfl, .sends hk hr nofun, fun _ hclient hsend => ?_⟩
    rw [sendOutcome_client _ hclient hsend] at ho
    cases ho
  | fails =>
    simp only [free_live _ hb, ok_bind]
    refine ⟨_, rfl, .abandons (.inr ⟨c, f, g, hk⟩) hr (.inr rfl), ?_⟩
    intro _ hclient hsend
    rw [sendOutcome_client _ hclient hsend] at ho
    cases ho

theorem dispatchElsewhere_driver (s : System) (request : List UInt8) (accepted : Bool) :
    (dispatchElsewhere s request accepted).driver = s.driver := by
  unfold dispatchElsewhere
  split_ifs
  · rfl
  · split <;> rfl
  · rfl

section
variable {f n : ℕ} {a : Addr} {b : List UInt8} {calls : Calls} {d : Dispatched}
  {fPos : File → ℤ} {request : List UInt8}

def outcomeOf (d : Dispatched) : Outcome :=
  if wrapS32 d.written > 0 then (if d.ioctlJustPerformed then .seeks else .succeeds) else .fails

def heldAfter (d : Dispatched) (request : List UInt8) : Held :=
  if wrapS32 d.written > 0 then .dispatched request else .nothing

theorem heldAfter_cases (d : Dispatched) (request : List UInt8) :
    heldAfter d request = .nothing ∧ outcomeOf d = .fails ∨
      heldAfter d request = .dispatched request := by
  unfold heldAfter outcomeOf
  split_ifs
  · exact .inr rfl
  · exact .inr rfl
  · exact .inl ⟨rfl, rfl⟩

theorem dispatchEffect_eq (hfree : s.process.mutexReadWrite = none) (ha : s.heap a = some b)
    (hload : load s.heap a 0 n = .ok request)
    (hto : dispatchTo K s request calls (lookup s.process.table f) = .ok (d, fPos)) :
    dispatchEffect K s k f a n calls = .ok ⟨some (outcomeOf d), d.driver, erase s.heap a, fPos,
      d.ioctlJustPerformed, heldAfter d request,
      if isDevice (lookup s.process.table f) = true ∧ d.written > 0 ∧
        ¬ SEEK_COMMAND.isPrefixOf request then some (.stored k request) else none⟩ := by
  have hnot : ¬ (s.process.mutexReadWrite ≠ none) := not_not.mpr hfree
  simp only [dispatchEffect, if_neg hnot, hload, hto, free_live _ ha, ok_bind, pure_eq_ok,
    outcomeOf, heldAfter]
  cases lookup s.process.table f with
  | none => split_ifs <;> simp_all [isDevice]
  | some g => cases g <;> split_ifs <;> simp_all [isDevice]

theorem dispatchEffect_elsewhere (h : Consistent K s) {c : ℕ}
    (hk : s.process.thread k = .requesting c f) (hb : s.held k = .buffer a n)
    (hfree : s.process.mutexReadWrite = none) (ha : s.heap a = some b)
    (hload : load s.heap a 0 n = .ok request) (accepted : Bool)
    (hf : isDevice (lookup s.process.table f) = false)
    (hto : dispatchTo K s request calls (lookup s.process.table f) =
      .ok (dispatchElsewhere s request accepted, s.fPos)) :
    ∃ e, dispatchEffect K s k f a n calls = .ok e ∧ Effected K s k e := by
  refine ⟨_, dispatchEffect_eq hfree ha hload hto, ?_⟩
  rw [if_neg (by simp [hf]), dispatchElsewhere_driver]
  refine .dispatches hk hb (.refl h.range f) ?_
  rcases heldAfter_cases (dispatchElsewhere s request accepted) request with ⟨hnone, hfails⟩ | hsome
  · exact .inl ⟨hnone, hfails, rfl⟩
  · exact .inr ⟨request, hsome, by rw [hf]; exact nofun⟩

theorem dispatchEffect_device (h : Consistent K s) {c j m : ℕ}
    (hk : s.process.thread k = .requesting c f) (hb : s.held k = .buffer a n)
    (hfree : s.process.mutexReadWrite = none) (ha : s.heap a = some b)
    (hload : load s.heap a 0 n = .ok request) (hline : newline ∈ request)
    (hf : lookup s.process.table f = some (.device j m)) (calls : Calls) :
    ∃ e, dispatchEffect K s k f a n calls = .ok e ∧ Effected K s k e := by
  obtain ⟨blocks, part, hh⟩ := h.holds
  have hlen := List.length_pos_of_mem hline
  have hto (d : Dispatched) (hd : dispatchRequest K s.driver s.process.ioctlJustPerformed
      (s.fPos (.device j m)) request calls.request = .ok d) :
      dispatchTo K s request calls (lookup s.process.table f) =
        .ok (d, Function.update s.fPos (.device j m) d.fPos) := by
    simp only [hf, dispatchTo, hd, ok_bind, pure_eq_ok]
  rcases dispatch_cases hh s.process.ioctlJustPerformed (s.fPos (.device j m)) request
    calls.request with ⟨hd, _⟩ | ⟨hs, _, s', hd, hdriver, hlog⟩ | ⟨seekto, hs, haddr, hd⟩
  · refine ⟨_, dispatchEffect_eq hfree ha hload (hto _ hd), ?_⟩
    rw [if_neg (by simp), Function.update_eq_self]
    have hfailed : ¬ wrapS32 (-1) > 0 := by decide
    exact .dispatches hk hb (.refl h.range f) (.inl ⟨if_neg hfailed, if_neg hfailed, rfl⟩)
  · refine ⟨_, dispatchEffect_eq hfree ha hload (hto _ hd), ?_⟩
    rw [if_pos ⟨by rw [hf]; rfl, by dsimp only; omega, mt List.isPrefixOf_iff_prefix.mp hs⟩,
      Function.update_eq_self]
    exact .stores hk hb hfree hdriver hlog hline hs (heldAfter_cases _ request)
  · have hpre : SEEK_COMMAND <+: request := by
      by_contra hno
      rw [seekOf, if_neg hno] at hs
      cases hs
    have hlt := position_lt haddr
    have hclt := length_content_lt hh
    refine ⟨_, dispatchEffect_eq hfree ha hload (hto _ hd), ?_⟩
    rw [if_neg (by simp [List.isPrefixOf_iff_prefix.mpr hpre])]
    have haccepted : wrapS32 1 > 0 := by decide
    exact .dispatches hk hb (.update h.range hf ⟨Int.natCast_nonneg _, by dsimp only; omega⟩)
      (.inr ⟨request, if_pos haccepted, fun _ => hpre⟩)

end

theorem dispatchEffect_spec (h : Consistent K s) {c f n : ℕ} {a : Addr}
    (hk : s.process.thread k = .requesting c f) (hb : s.held k = .buffer a n) (calls : Calls) :
    ∃ e, dispatchEffect K s k f a n calls = .ok e ∧ Effected K s k e := by
  obtain ⟨b, ha, _, hle, hline⟩ := h.request_block hb
  have hload : load s.heap a 0 n = .ok (b.take n) := by
    rw [load_live _ ha _ _ (by omega), List.drop_zero]
  by_cases hfree : s.process.mutexReadWrite = none
  · cases hf : lookup s.process.table f with
    | none =>
      exact dispatchEffect_elsewhere h hk hb hfree ha hload false (by rw [hf]; rfl)
        (by rw [hf]; rfl)
    | some g =>
      cases g with
      | device j m => exact dispatchEffect_device h hk hb hfree ha hload hline hf calls
      | own i | client i =>
        exact dispatchEffect_elsewhere h hk hb hfree ha hload calls.accepted (by rw [hf]; rfl)
          (by rw [hf]; rfl)
  · exact ⟨_, if_pos hfree, .waits⟩

def Behaves (K : Kernel) (M : Libc) (s : System) (k : ℕ) (calls : Calls) : Prop :=
  ∃ e, threadEffect K M s k calls = .ok e ∧ Effected K s k e ∧
    ((∃ c f, s.process.thread k = .reopening c f) → calls.openFails = false →
      e.goesOn = some .succeeds)

theorem behaves {calls : Calls} {e : Effect} (he : threadEffect K M s k calls = .ok e)
    (heffect : Effected K s k e) (hk : inSection (s.process.thread k) = false) :
    Behaves K M s k calls := by
  refine ⟨e, he, heffect, ?_⟩
  rintro ⟨c, f, heq⟩
  rw [heq] at hk
  cases hk

theorem opening_behaves {c : ℕ} (hk : s.process.thread k = .opening c) (calls : Calls) :
    Behaves K M s k calls := by
  have hout : inSection (s.process.thread k) = false := by
    rw [hk]
    rfl
  cases ho : calls.openFails with
  | true =>
    have hidle : Idles (s.process.thread k) (s.held k) .fails :=
      ⟨fun _ _ _ => .inl rfl, by simp [hk]⟩
    refine behaves (e := { s.idle k with goesOn := some .fails }) ?_ (.goes .fails hidle) hout
    simp only [threadEffect, hk, ho, if_true]
  | false =>
    refine behaves ?_ (.opens 0 (by rw [hk]; rfl)) hout
    simp only [threadEffect, hk, ho, Bool.false_eq_true, if_false]

theorem gathers_behaves {c f : ℕ} (hk : s.process.thread k = .requesting c f)
    (hb : s.held k = .nothing) (calls : Calls) : Behaves K M s k calls := by
  have hout : inSection (s.process.thread k) = false := by
    rw [hk]
    rfl
  rcases gatherRequest_spec M s.heap calls.request with hg | ⟨a, b, request, ha, hg, htake, _, hn⟩
  · have hidle : Idles (s.process.thread k) (s.held k) .fails :=
      ⟨fun _ _ _ => .inl rfl, by simp [hk]⟩
    refine behaves (e := { s.idle k with goesOn := some .fails }) ?_ (.goes .fails hidle) hout
    simp only [threadEffect, hk, hb, hg, ok_bind, pure_eq_ok]
    rfl
  · rw [List.nil_append] at hg htake hn
    refine behaves ?_ (.gathers hb ha (List.length_pos_of_mem hn) (request_fits htake)
      (by rwa [htake])) hout
    simp only [threadEffect, hk, hb, hg, ok_bind, pure_eq_ok]

theorem malloc_behaves {c f : ℕ} {request : List UInt8}
    (hk : s.process.thread k = .replying c f) (hr : s.held k = .dispatched request)
    (calls : Calls) : Behaves K M s k calls := by
  have hout : inSection (s.process.thread k) = false := by
    rw [hk]
    rfl
  cases hg : grants M.allocator s.heap clientBufferLen calls.mallocAt with
  | false =>
    have hnone : malloc M s.heap clientBufferLen calls.mallocAt = none :=
      place_refused _ _ _ _ (by simpa using hg)
    refine behaves ?_ (.givesUp hk hr) hout
    simp only [threadEffect, hk, hr, hnone]
  | true =>
    obtain ⟨a, _, ha, _, hplace⟩ := place_granted M.allocator s.heap
      (fresh M.allocator clientBufferLen) calls.mallocAt (by simpa using hg)
    have hsome : malloc M s.heap clientBufferLen calls.mallocAt =
      some (a, alloc s.heap a (fresh M.allocator clientBufferLen)) := hplace
    refine behaves ?_ (.allocates hk hr ha (length_fresh M.allocator clientBufferLen)) hout
    simp only [threadEffect, hk, hr, hsome]

theorem reopening_behaves (h : Consistent K s) {c f : ℕ} {r : Reply}
    (hk : s.process.thread k = .reopening c f) (hr : s.held k = .reply r) (calls : Calls) :
    Behaves K M s k calls := by
  cases ho : calls.openFails with
  | true =>
    obtain ⟨b, hb, _⟩ := h.reply_block hr
    refine ⟨_, ?_, .abandons (.inl ⟨c, f, hk, rfl⟩) hr (.inl rfl), ?_⟩
    · simp only [threadEffect, hk, hr, ho, if_true, free_live _ hb, ok_bind, pure_eq_ok]
      rfl
    · rintro _ hfails
      rw [ho] at hfails
      cases hfails
  | false =>
    refine ⟨_, ?_, .opens 1 (by rw [hk]; rfl), fun _ _ => rfl⟩
    simp only [threadEffect, hk, hr, ho, Bool.false_eq_true, if_false]

theorem serving_behaves (h : Consistent K s) {c f g : ℕ} {r : Reply}
    (hk : s.process.thread k = .serving c f g) (hr : s.held k = .reply r) (calls : Calls) :
    Behaves K M s k calls := by
  have hnot : ¬ ∃ c f, s.process.thread k = .reopening c f := by
    rw [hk]
    rintro ⟨_, _, ⟨⟩⟩
  by_cases hread : r.bytesRead = 0
  · obtain ⟨e, he, heffect, _⟩ := readEffect_spec h hk hr hread calls
    refine ⟨e, ?_, heffect, fun hre => absurd hre hnot⟩
    simp only [threadEffect, hk, hr, if_pos hread, he]
  · obtain ⟨e, he, heffect, _⟩ := sendEffect_spec h hk hr (Nat.pos_of_ne_zero hread) calls
    refine ⟨e, ?_, heffect, fun hre => absurd hre hnot⟩
    simp only [threadEffect, hk, hr, if_neg hread, he]

theorem threadEffect_behaves (M : Libc) (h : Consistent K s) (k : ℕ) (calls : Calls) :
    Behaves K M s k calls := by
  have hother (he : threadEffect K M s k calls = .ok { s.idle k with goesOn := some .succeeds })
      (ho : Idles (s.process.thread k) (s.held k) .succeeds) : Behaves K M s k calls :=
    ⟨_, he, .goes .succeeds ho, fun _ _ => rfl⟩
  cases hk : s.process.thread k with
  | opening c => exact opening_behaves hk calls
  | requesting c f =>
    cases hb : s.held k with
    | nothing => exact gathers_behaves hk hb calls
    | buffer a n =>
      obtain ⟨e, he, heffect⟩ := dispatchEffect_spec h hk hb calls
      exact behaves (by simp only [threadEffect, hk, hb, he]) heffect (by rw [hk]; rfl)
    | _ =>
      exact hother (by simp only [threadEffect, hk, hb])
        ⟨by simp [hb, Held.request], by simp [hk]⟩
  | replying c f =>
    cases hr : s.held k with
    | dispatched request => exact malloc_behaves hk hr calls
    | _ => exact hother (by simp only [threadEffect, hk, hr]) ⟨by simp [hk], by simp [hr]⟩
  | reopening c f =>
    cases hr : s.held k with
    | reply r => exact reopening_behaves h hk hr calls
    | _ => exact hother (by simp only [threadEffect, hk, hr]) ⟨by simp [hk], by simp [hk]⟩
  | serving c f g =>
    cases hr : s.held k with
    | reply r => exact serving_behaves h hk hr calls
    | _ => exact hother (by simp only [threadEffect, hk, hr]) ⟨by simp [hk], by simp [hk]⟩
  | _ => exact hother (by simp only [threadEffect, hk]) ⟨by simp [hk], by simp [hk]⟩

theorem Effected.blocks (h : Consistent K s) {e : Effect} (he : Effected K s k e) :
    ∃ own : ℕ → Heap UInt8, Divided e.heap empty own ∧
      ∀ j, Owns (own j) (Function.update s.held k e.held j) := by
  obtain ⟨own, hd, howns⟩ := h.blocks
  have hown := howns k
  have hkeep {held : Held} (hk : Owns (own k) held) (j : ℕ) :
      Owns (own j) (Function.update s.held k held j) := by
    by_cases hj : j = k
    · subst hj
      rwa [Function.update_self]
    · rw [Function.update_of_ne hj]
      exact howns j
  have hmove {held : Held} {x : Heap UInt8} (hk : Owns x held) (j : ℕ) :
      Owns (Function.update own k x j) (Function.update s.held k held j) := by
    by_cases hj : j = k
    · subst hj
      rwa [Function.update_self, Function.update_self]
    · rw [Function.update_of_ne hj, Function.update_of_ne hj]
      exact howns j
  have hgone {a : Addr} {b : List UInt8} (hk : own k = alloc empty a b) :
      own k a = some b ∧ erase (own k) a = empty :=
    ⟨by rw [hk, alloc_same], by rw [hk, erase_alloc empty b rfl]⟩
  cases he with
  | waits | goes o _ | opens n _ => exact ⟨own, hd, hkeep hown⟩
  | @gathers a b n hk ha hn hle hline =>
    rw [hk] at hown
    refine ⟨_, hd.place (.inl ha) b (i := k), hmove ⟨b, ?_, hn, hle, hline⟩⟩
    rw [show own k = empty from hown]
  | @dispatches c f n a o fPos flag held hk hb hpos hheld =>
    rw [hb] at hown
    obtain ⟨b, hblock, _⟩ := hown
    obtain ⟨hlive, hempty⟩ := hgone hblock
    refine ⟨_, hd.drop hlive, hmove ?_⟩
    rcases hheld with ⟨rfl, _⟩ | ⟨_, rfl, _⟩ <;> exact hempty
  | @stores c f n a request o driver flag held hk hb hfree hdriver hlog hline hseek hheld =>
    rw [hb] at hown
    obtain ⟨b, hblock, _⟩ := hown
    obtain ⟨hlive, hempty⟩ := hgone hblock
    refine ⟨_, hd.drop hlive, hmove ?_⟩
    rcases hheld with ⟨rfl, _⟩ | rfl <;> exact hempty
  | givesUp hk hr =>
    rw [hr] at hown
    exact ⟨own, hd, hkeep hown⟩
  | @allocates a b request c f hk hr ha hb =>
    rw [hr] at hown
    refine ⟨_, hd.place (.inl ha) b (i := k), hmove ⟨b, ?_, hb, Nat.zero_le _⟩⟩
    rw [show own k = empty from hown]
  | @reads c f g n r b fPos whole hk hr hread hb hn hpos hwhole =>
    rw [hr] at hown
    obtain ⟨b', hblock, _⟩ := hown
    have hlive : own k r.sendBuffer ≠ none := by
      rw [hblock, alloc_same]
      exact nofun
    refine ⟨_, hd.place (.inr hlive) b (i := k), hmove ⟨b, ?_, hb, hn⟩⟩
    rw [hblock, alloc_alloc]
  | sends hk hr hwhole =>
    rw [hr] at hown
    obtain ⟨b, hblock, hlen, _⟩ := hown
    exact ⟨own, hd, hkeep ⟨b, hblock, hlen, Nat.zero_le _⟩⟩
  | abandons hk hr hshown =>
    rw [hr] at hown
    obtain ⟨b, hblock, _⟩ := hown
    obtain ⟨hlive, hempty⟩ := hgone hblock
    exact ⟨_, hd.drop hlive, hmove hempty⟩
  | ends hk hr hread hpos hwhole =>
    rw [hr] at hown
    obtain ⟨b, hblock, _⟩ := hown
    obtain ⟨hlive, hempty⟩ := hgone hblock
    exact ⟨_, hd.drop hlive, hmove hempty⟩

theorem Effected.range (h : Consistent K s) {e : Effect} (he : Effected K s k e) :
    InRange e.fPos := by
  cases he with
  | opens n _ =>
    intro g
    change 0 ≤ Function.update s.fPos _ 0 g ∧ Function.update s.fPos _ 0 g < 2^63
    rw [Function.update_apply]
    split_ifs
    · decide
    · exact h.range g
  | dispatches _ _ hpos _ => exact hpos.range
  | reads _ _ _ _ _ hpos _ => exact hpos.range
  | ends _ _ _ hpos _ => exact hpos.range
  | _ => exact h.range

theorem Effected.holds (h : Consistent K s) {e : Effect} (he : Effected K s k e) :
    ∃ blocks part, Holds K e.driver blocks part := by
  cases he with
  | stores _ _ _ hdriver _ _ _ _ => exact hdriver
  | _ => exact h.holds

/-- The phases up to the reply. A thread which leaves does not come back to them. -/
inductive Next (o : Outcome) : ThreadPhase → ThreadPhase → Prop where
  | opens {c f : ℕ} (ho : o ≠ .fails) : Next o (.opening c) (.requesting c f)
  | asks {c f : ℕ} (ho : o ≠ .fails) : Next o (.requesting c f) (.replying c f)
  | locks {c f : ℕ} (ho : o ≠ .fails) : Next o (.replying c f) (.locked c f)
  | goesOn {c f : ℕ} {p : ThreadPhase} (hp : p = .reopening c f ∨ p = .serving c f f) :
      Next o (.locked c f) p
  | reopens {c f g : ℕ} (ho : o ≠ .fails) : Next o (.reopening c f) (.serving c f g)
  | leaves {q p : ThreadPhase} (hp : threadLeft p ≤ 3) : Next o q p

theorem threadStep_next {s s' : Process} {o : Outcome} {e : Option Event}
    (h : threadStep s k o = .ok (s', e)) : Next o (s.thread k) (s'.thread k) := by
  cases hk : s.thread k with
  | unborn | finished | joined => simp only [threadStep, hk, reduceCtorEq] at h
  | opening c =>
    simp only [threadStep, hk] at h
    split_ifs at h with ho <;> obtain ⟨rfl, _⟩ := Prod.mk.inj (Except.ok.inj h) <;>
      simp only [go_same]
    · exact .leaves (by simp [threadLeft])
    · exact .opens ho
  | requesting c f =>
    simp only [threadStep, hk] at h
    split_ifs at h with ho hm <;> obtain ⟨rfl, _⟩ := Prod.mk.inj (Except.ok.inj h) <;>
      simp only [go_same]
    · exact .leaves (by simp [threadLeft])
    · exact .asks ho
  | replying c f =>
    simp only [threadStep, hk] at h
    split_ifs at h with ho hm <;> obtain ⟨rfl, _⟩ := Prod.mk.inj (Except.ok.inj h) <;>
      simp only [go_same]
    · exact .leaves (by simp [threadLeft])
    · exact .locks ho
  | locked c f =>
    simp only [threadStep, hk] at h
    split_ifs at h <;> obtain ⟨rfl, _⟩ := Prod.mk.inj (Except.ok.inj h) <;> simp only [go_same]
    · exact .goesOn (.inr rfl)
    · exact .goesOn (.inl rfl)
  | reopening c f =>
    simp only [threadStep, hk] at h
    split_ifs at h with ho <;> obtain ⟨rfl, _⟩ := Prod.mk.inj (Except.ok.inj h) <;>
      simp only [go_same]
    · exact .leaves (by simp [threadLeft])
    · exact .reopens ho
  | serving c f g | closing c f | closingClient c | freeing =>
    simp only [threadStep, hk] at h
    obtain ⟨rfl, _⟩ := Prod.mk.inj (Except.ok.inj h)
    exact .leaves (by simp [threadLeft])

structure GoesOn (s : Process) (k : ℕ) (o : Outcome) (p : Process) : Prop where
  move : ∃ e, ProcessMove s (.thread k o) p e
  running : s.main ≠ .exited
  born : p.thread k ≠ .unborn
  next : Next o (s.thread k) (p.thread k)
  others : ∀ j, j ≠ k → p.thread j = s.thread j
  less : threadLeft (p.thread k) < threadLeft (s.thread k)
  mutex : MutexEffect k (s.thread k) (p.thread k) s.mutexReadWrite p.mutexReadWrite

theorem processStep_goesOn {s p : Process} {flag : Bool} {o : Outcome} {e : Option Event}
    (h : processStep { s with ioctlJustPerformed := flag } (.thread k o) = .ok (p, e)) :
    GoesOn s k o p := by
  obtain ⟨hm, _⟩ := processStep_moves h
  have hs := h
  rw [processStep, if_neg hm] at hs
  obtain ⟨hothers, hmutex⟩ := threadStep_mutex hs
  have hless := threadStep_less hs
  have hnext := threadStep_next hs
  obtain ⟨hq, q, t, m, b, rfl, hmove, hre⟩ := threadStep_moves hs
  refine ⟨⟨e, .thread m b hq hmove hre⟩, hm, ?_, hnext, hothers, hless, hmutex⟩
  change (s.go k q).thread k ≠ .unborn
  rw [go_same]
  exact (move_born hmove).1

inductive Stepped (K : Kernel) (s : System) : SystemAction → System → Option Shown → Prop where
  | waits (a : SystemAction) : Stepped K s a s none
  | main {ok : Bool} {p : Process} {e : Option Event}
      (h : processStep s.process (.main ok) = .ok (p, e)) :
      Stepped K s (.main ok) { s with process := p } none
  | signal {p : Process} {e : Option Event} (h : processStep s.process .signal = .ok (p, e)) :
      Stepped K s .signal { s with process := p } none
  | stays {k : ℕ} {calls : Calls} {e : Effect} (he : Effected K s k e) (hgo : e.goesOn = none) :
      Stepped K s (.thread k calls) (s.take k e s.process) e.shown
  | goes {k : ℕ} {calls : Calls} {e : Effect} {o : Outcome} {p : Process}
      (he : Effected K s k e) (hgo : e.goesOn = some o) (hp : GoesOn s.process k o p)
      (hre : (∃ c f, s.process.thread k = .reopening c f) → calls.openFails = false →
        o = .succeeds) : Stepped K s (.thread k calls) (s.take k e p) e.shown

section
variable {calls : Calls} {e : Effect}

theorem systemStep_stays (hm : s.process.main ≠ .exited)
    (he : threadEffect K M s k calls = .ok e) (hgo : e.goesOn = none) :
    systemStep K M s (.thread k calls) = .ok (s.take k e s.process, e.shown) := by
  simp only [systemStep, threadCall, if_neg hm, he, ok_bind, hgo, pure_eq_ok]

theorem systemStep_goes (hm : s.process.main ≠ .exited)
    (he : threadEffect K M s k calls = .ok e) {o : Outcome} (hgo : e.goesOn = some o)
    {p : Process} {ev : Option Event}
    (hp : processStep { s.process with ioctlJustPerformed := e.ioctlJustPerformed }
      (.thread k o) = .ok (p, ev)) :
    systemStep K M s (.thread k calls) = .ok (s.take k e p, e.shown) := by
  simp only [systemStep, threadCall, if_neg hm, he, ok_bind, hgo, hp, pure_eq_ok]

end

theorem systemStep_steps (M : Libc) (h : Consistent K s) (a : SystemAction) :
    ∃ s' o, systemStep K M s a = .ok (s', o) ∧ Stepped K s a s' o := by
  cases a with
  | main ok =>
    cases hs : processStep s.process (.main ok) with
    | ok x => exact ⟨_, _, by simp only [systemStep, hs], .main hs⟩
    | error b => exact ⟨_, _, by simp only [systemStep, hs], .waits _⟩
  | signal =>
    cases hs : processStep s.process .signal with
    | ok x => exact ⟨_, _, by simp only [systemStep, hs], .signal hs⟩
    | error b => exact ⟨_, _, by simp only [systemStep, hs], .waits _⟩
  | thread k calls =>
    by_cases hm : s.process.main = .exited
    · exact ⟨_, _, by simp only [systemStep, threadCall, if_pos hm], .waits _⟩
    obtain ⟨e, he, heffect, hre⟩ := threadEffect_behaves M h k calls
    cases hgo : e.goesOn with
    | none => exact ⟨_, _, systemStep_stays hm he hgo, .stays heffect hgo⟩
    | some o =>
      cases hs : processStep { s.process with ioctlJustPerformed := e.ioctlJustPerformed }
        (.thread k o) with
      | ok x =>
        refine ⟨_, _, systemStep_goes hm he hgo hs, .goes heffect hgo (processStep_goesOn hs) ?_⟩
        exact fun hk ho => Option.some.inj (hgo.symm.trans (hre hk ho))
      | error b =>
        refine ⟨_, _, ?_, .waits _⟩
        simp only [systemStep, threadCall, if_neg hm, he, ok_bind, hgo, hs, pure_eq_ok]

theorem exclusive_thread {s p : Process} {o : Outcome}
    (h : ∀ j, inSection (s.thread j) = true → s.mutexReadWrite = some j) (hp : GoesOn s k o p)
    (j : ℕ) (hj : inSection (p.thread j) = true) : p.mutexReadWrite = some j := by
  have hmutex := hp.mutex
  by_cases hjk : j = k
  · subst hjk
    have hq := h j
    generalize s.thread j = q, p.thread j = q', s.mutexReadWrite = m, p.mutexReadWrite = m'
      at hmutex hj hq
    cases hmutex with
    | outside _ hout | unlocks _ hout =>
      rw [hj] at hout
      cases hout
    | locks _ => rfl
    | stays hin _ => exact hq hin
  · rw [hp.others j hjk] at hj
    have hheld := h j hj
    have hq := h k
    rw [hheld] at hmutex hq
    generalize s.thread k = q, p.thread k = q', p.mutexReadWrite = m' at hmutex hq
    cases hmutex with
    | outside _ _ | stays _ _ => rfl
    | unlocks hin _ => exact absurd (Option.some.inj (hq hin)) hjk

theorem exclusive_main {s p : Process} {ok : Bool} {e : Option Event}
    (h : ∀ j, inSection (s.thread j) = true → s.mutexReadWrite = some j)
    (hs : MainMove s ok p e) (j : ℕ) (hj : inSection (p.thread j) = true) :
    p.mutexReadWrite = some j := by
  have hother {q : ThreadPhase} {k : ℕ} (hq : inSection q = false)
      (hj : inSection ((s.go k q).thread j) = true) : s.mutexReadWrite = some j := by
    by_cases hjk : j = k
    · subst hjk
      rw [go_same, hq] at hj
      cases hj
    · rw [go_other s q hjk] at hj
      exact h j hj
  cases hs with
  | creates _ => exact hother rfl hj
  | joins _ _ => exact hother rfl hj
  | _ => exact h j hj

theorem Consistent.goesOn (h : Consistent K s) {e : Effect} {p : Process}
    (he : Effected K s k e) (hn : Numbered p)
    (hx : ∀ j, inSection (p.thread j) = true → p.mutexReadWrite = some j) :
    Consistent K (s.take k e p) :=
  ⟨he.holds h, hn, he.blocks h, he.range h, hx⟩

theorem Consistent.step (h : Consistent K s) {a : SystemAction} {s' : System} {o : Option Shown}
    (hs : Stepped K s a s' o) : Consistent K s' := by
  cases hs with
  | waits => exact h
  | main hs =>
    obtain ⟨_, hm⟩ := processStep_moves hs
    have hn := h.numbered.step hm
    cases hm with
    | main hm => exact ⟨h.holds, hn, h.blocks, h.range, exclusive_main h.exclusive hm⟩
  | signal hs =>
    obtain ⟨_, hm⟩ := processStep_moves hs
    have hn := h.numbered.step hm
    cases hm with
    | signal => exact ⟨h.holds, hn, h.blocks, h.range, h.exclusive⟩
  | stays he hgo => exact h.goesOn he h.numbered h.exclusive
  | goes he hgo hp hre =>
    obtain ⟨ev, hm⟩ := hp.move
    exact h.goesOn he (h.numbered.step hm) (exclusive_thread h.exclusive hp)

theorem consistent_launched (m : Startup) {driver : DriverState}
    (hd : ∃ blocks part, Holds K driver blocks part) : Consistent K (launchedOn m driver) where
  holds := hd
  numbered := numbered_launched m
  blocks := ⟨fun _ => empty, divided_self empty, fun _ => rfl⟩
  range _ := ⟨le_refl 0, show (0:ℤ) < 2^63 by decide⟩
  exclusive _ := nofun

end

end Aesd.ProcessDeviceInvariant
