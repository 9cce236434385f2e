import Aesd.DriverProgress

/-!
# The driver under concurrent calls

For every schedule of any number of callers: no step faults, each answer is
that of the calls made one at a time in the order in which they take effect,
and it is the answer of a bounded log of lines. What is in flight is held by
one caller alone, and once nobody is inside nothing of it is left.
-/

set_option autoImplicit false

namespace Aesd.DriverLinearization
open BlockHeap Linearization Interleaving
open Aesd.CircularBuffer Aesd.KernelMemory Aesd.CharDriver Aesd.DriverInvariant Aesd.DriverWrite
open Aesd.CommandLog Aesd.DriverRead Aesd.DriverSeek Aesd.DriverOwnership Aesd.DriverRuns
open Aesd.DriverAnswers Aesd.DriverStages Aesd.DriverInterleaving Aesd.DriverProgress

def callerBlocks : Stage → List Addr
  | .copying _ a | .acquiring _ a | .scanning _ a | .adding _ a | .combining _ a _ => [a]
  | .merging _ a p _ _ | .discarding _ a p _ _ => [a, p]
  | .keeping _ p _ _ => [p]
  | .unlocking _ tmpBuf => tmpBuf.toList
  | .freeing _ a => [a]
  | _ => []

def acceptedWrite (x : DriverCall × ReadResult) : Option (List UInt8) :=
  match x.1 with
  | .write c => if x.2.retval = c.data.length then some c.data else none
  | _ => none

def logOf (xs : List (DriverCall × ReadResult)) : LineLog.Log UInt8 :=
  (xs.filterMap acceptedWrite).foldl logWrite LineLog.empty

def LogAnswers (log : LineLog.Log UInt8) : DriverCall → ReadResult → Prop
  | .write c, r => r.fPos = c.fPos ∧ r.buf = c.data ∧ (r.retval = c.data.length ∨ r.retval < 0)
  | .read c, r => r = readReply log.lines c
  | .llseek fPos offset whence, r => r = seekAnswer log.lines.flatten.length fPos offset whence
  | .ioctl fPos cmd arg, r =>
    r = ⟨(ioctlReply log.lines fPos cmd arg).2, (ioctlReply log.lines fPos cmd arg).1, []⟩

section
variable {K : Kernel} {s t : DriverState}

theorem logOf_concat (xs : List (DriverCall × ReadResult)) (c : DriverCall) (r : ReadResult) :
    logOf (xs ++ [(c, r)]) =
      match acceptedWrite (c, r) with
      | some d => logWrite (logOf xs) d
      | none => logOf xs := by
  rw [logOf, List.filterMap_append, List.foldl_append]
  cases h : acceptedWrite (c, r) <;> simp [h, logOf]

theorem driverAnswer_logs (hh : ∃ blocks part, Holds K s blocks part) {c : DriverCall}
    (hc : c.Typed) : ∃ t r, driverAnswer K s c = .ok (t, r) ∧
      (∃ blocks part, Holds K t blocks part) ∧ LogAnswers (deviceLog s) c r ∧
      deviceLog t = (match acceptedWrite (c, r) with
        | some d => logWrite (deviceLog s) d
        | none => deviceLog s) := by
  obtain ⟨blocks, part, h⟩ := hh
  cases c with
  | write c =>
    obtain ⟨t, r, hw, hholds, hr⟩ := aesdWrite_logs h c
    refine ⟨t, writeAnswer c r, by rw [driverAnswer, hw]; rfl, hholds, ⟨rfl, rfl, ?_⟩, ?_⟩
    · exact hr.imp (fun h => h.2.1) fun h => h.2.1
    · rcases hr with ⟨_, hr, hlog⟩ | ⟨_, hr, rfl⟩
      · simp [acceptedWrite, writeAnswer, hr, hlog]
      · have hne : r ≠ c.data.length := by omega
        simp [acceptedWrite, writeAnswer, hne]
  | read c =>
    exact ⟨s, _, aesdRead_eq h c hc.1 hc.2, ⟨blocks, part, h⟩, rfl, rfl⟩
  | llseek fPos offset whence =>
    refine ⟨s, _, llseek_answer h fPos offset whence, ⟨blocks, part, h⟩, ?_, rfl⟩
    rw [totalSize_eq h]
    rfl
  | ioctl fPos cmd arg =>
    refine ⟨s, _, ?_, ⟨blocks, part, h⟩, rfl, rfl⟩
    rw [driverAnswer, ioctl_eq h]
    rfl

theorem serves_same {c c' : DriverCall} (h : Serves c c') (r : ReadResult) :
    c'.Typed ∧ acceptedWrite (c', r) = acceptedWrite (c, r) ∧
      ∀ log, LogAnswers log c' r ↔ LogAnswers log c r := by
  obtain ⟨ht, hc⟩ := h
  cases c with
  | write c =>
    obtain ⟨x, y, rfl⟩ := hc
    exact ⟨trivial, rfl, fun _ => Iff.rfl⟩
  | read c =>
    obtain rfl := hc
    exact ⟨ht, rfl, fun _ => Iff.rfl⟩
  | llseek fPos offset whence =>
    obtain rfl := hc
    exact ⟨ht, rfl, fun _ => Iff.rfl⟩
  | ioctl fPos cmd arg =>
    obtain rfl := hc
    exact ⟨ht, rfl, fun _ => Iff.rfl⟩

theorem answers_log (ys xs : List (DriverCall × ReadResult)) {cs : List DriverCall}
    (hh : ∃ blocks part, Holds K s blocks part)
    (hlog : deviceLog s = logOf ys) (hserves : List.Forall₂ Serves (xs.map Prod.fst) cs)
    (hrun : Runs.run (driverAnswer K) s cs = .ok (t, xs.map Prod.snd)) :
    deviceLog t = logOf (ys ++ xs) ∧
      ∀ pre c r post, xs = pre ++ (c, r)::post → LogAnswers (logOf (ys ++ pre)) c r := by
  induction xs generalizing ys s cs with
  | nil =>
    cases hserves
    obtain ⟨rfl, _⟩ := Prod.mk.inj (Except.ok.inj hrun)
    refine ⟨by rwa [List.append_nil], ?_⟩
    intro pre c r post h
    simp at h
  | cons x xs ih =>
    obtain ⟨c, r⟩ := x
    cases hserves with
    | @cons _ c' _ cs hc hrest =>
      obtain ⟨s', r', rs, hstep, hrun', hrs⟩ := Runs.run_cons_inv hrun
      obtain ⟨rfl, rfl⟩ := List.cons.inj hrs
      obtain ⟨htyped, haccepted, hanswers⟩ := serves_same hc r
      obtain ⟨s'', r'', hstep', hh', hanswer, hnext⟩ := driverAnswer_logs hh htyped
      obtain ⟨rfl, rfl⟩ := Prod.mk.inj (Except.ok.inj (hstep.symm.trans hstep'))
      rw [haccepted, hlog, ← logOf_concat] at hnext
      obtain ⟨hend, hall⟩ := ih (ys ++ [(c, r)]) hh' hnext hrest hrun'
      rw [List.append_assoc] at hend
      refine ⟨hend, ?_⟩
      intro pre d q post hsplit
      cases pre with
      | nil =>
        obtain ⟨⟨rfl, rfl⟩, _⟩ := by simpa using hsplit
        rw [List.append_nil, ← hlog]
        exact (hanswers _).mp hanswer
      | cons y pre =>
        obtain ⟨rfl, htail⟩ := List.cons.inj hsplit
        simpa using hall pre d q post htail

end

section
variable {ι : Type*} [DecidableEq ι] {K : Kernel}

theorem schedule_held (K : Kernel) (moves : List (ι × Move)) :
    ∃ d outs g, run (driverProgram K) loaded moves = .ok (d, outs) ∧
      Interleaving.Held (Shared K) (Local K) g d ∧ g.trace = outs.reduceOption := by
  obtain ⟨d, outs, g, hrun, hheld, htrace⟩ := run_keeps (driver_keeps K) (held_loaded K) moves
  exact ⟨d, outs, g, hrun, hheld, htrace⟩

variable {g : Ghost ι} {d : Config ι DriverState Stage}

theorem outside_quiet (h : Interleaving.Held (Shared K) (Local K) g d)
    (hout : ∀ i, d.locals i = .outside) : d.shared = g.seq := by
  obtain ⟨hs, hl⟩ := h
  have hholder : g.holder = none := by
    cases hg : g.holder with
    | none => rfl
    | some i =>
      have hlocked := (hl i).holder.mpr hg
      rw [hout i] at hlocked
      cases hlocked
  have hheap : d.shared.heap = g.common := by
    refine hs.divided.eq_common fun i => ?_
    have hstands := (hl i).stands
    rw [hout i] at hstands
    exact hstands
  have hdev := hs.dev
  have hunlocked := hs.holds.unlocked
  rw [hs.common hholder] at hheap
  rw [hholder] at hdev
  generalize d.shared = s at hdev hheap
  obtain ⟨dev, heap⟩ := s
  dsimp only at hdev hheap
  rw [hdev, hheap, Option.isSome_none, ← hunlocked]

theorem held_common (h : Interleaving.Held (Shared K) (Local K) g d) :
    g.common = g.seq.heap ∨ g.common = released g.seq := by
  cases hg : g.holder with
  | none => exact .inl (h.1.common hg)
  | some i =>
    have hlocked := (h.2 i).holder.mpr hg
    have hstands := (h.2 i).stands
    generalize d.locals i = l at hlocked hstands
    cases l with
    | scanning c a => exact .inl hstands.2.2
    | adding c a => exact .inl hstands.2.2.1
    | combining c a b => exact .inl hstands.2.2.1
    | merging c a p n b =>
      obtain ⟨_, _, _, _, _, hcommon, _⟩ := hstands
      exact .inr hcommon
    | discarding c a p n b => exact .inr hstands.2.2.1
    | keeping c p n b => exact .inr hstands.2.1
    | reading c faults r => exact .inl hstands.2.1
    | summing fPos offset whence index total => exact .inl hstands.2.1
    | checking fPos seekto => exact .inl hstands.2
    | counting fPos seekto k newFpos => exact .inl hstands.2.1
    | unlocking answer tmpBuf => exact .inl hstands.1
    | _ => cases hlocked

theorem mem_callerBlocks {seq : DriverState} {part : Option Block} {common own : Heap UInt8}
    {l : Stage} (h : Stands K seq part common l own) (a : Addr) :
    a ∈ callerBlocks l ↔ own a ≠ none := by
  have hnone : own = empty → (a ∈ ([] : List Addr) ↔ own a ≠ none) := by
    rintro rfl
    simp [empty]
  have hone (p : Addr) (b : List UInt8) : own = alloc empty p b → (a ∈ [p] ↔ own a ≠ none) := by
    rintro rfl
    by_cases ha : a = p
    · subst ha
      simp
    · simp [ha, empty]
  have htwo (p q : Addr) (b b' : List UInt8) : own = alloc (alloc empty p b) q b' →
      (a ∈ [p, q] ↔ own a ≠ none) := by
    rintro rfl
    by_cases hq : a = q
    · subst hq
      simp
    · by_cases hp : a = p
      · subst hp
        simp [hq]
      · simp [hp, hq, empty]
  cases l with
  | outside => exact hnone h
  | called c => exact hnone h.1
  | copying c p => exact hone _ _ h.1
  | acquiring c p => exact hone _ _ h.1
  | scanning c p => exact hone _ _ h.1
  | adding c p => exact hone _ _ h.1
  | combining c p b => exact hone _ _ h.1
  | merging c p q n b =>
    obtain ⟨_, _, _, _, hown, _⟩ := h
    exact htwo _ _ _ _ hown
  | discarding c p q n b => exact htwo _ _ _ _ h.2.1
  | keeping c p n b => exact hone _ _ h.1
  | reading c faults r => exact hnone h.1
  | summing fPos offset whence index total => exact hnone h.1
  | checking fPos seekto => exact hnone h.1
  | counting fPos seekto k newFpos => exact hnone h.1
  | unlocking answer tmpBuf =>
    cases tmpBuf with
    | none => exact hnone h.2
    | some p =>
      obtain ⟨b, hown⟩ := h.2
      exact hone _ _ hown
  | freeing answer p =>
    obtain ⟨b, hown⟩ := h
    exact hone _ _ hown
  | returning answer => exact hnone h

theorem held_blocks (h : Interleaving.Held (Shared K) (Local K) g d) {x : Block}
    (hx : x ∈ g.blocks) : g.common x.1 = some x.2 := by
  rcases held_common h with hcommon | hcommon
  · rw [hcommon]
    exact h.1.holds.heap x (List.mem_append_right _ hx)
  · rw [hcommon]
    exact released_block h.1.holds hx

end

/-- Linearizability. Whatever the schedule, no step faults, every caller calls
and returns in turn with the effect in between, and the calls made one at a
time in the order of their effects give the same answers and, apart from the
lock, the same device. Once all are outside the heap is the same too. -/
theorem concurrent_calls_linearize {ι : Type*} [DecidableEq ι] (K : Kernel)
    (moves : List (ι × Move)) :
    ∃ d outs seq, run (driverProgram K) loaded moves = .ok (d, outs) ∧
      Legal (driverAnswer K) Serves aesdInitModule outs.reduceOption seq ∧
      (∀ i, History (eventsOf i outs.reduceOption) (d.locals i).phase) ∧
      d.shared.dev = { seq.dev with bufferLock := d.shared.dev.bufferLock } ∧
      ((∀ i, d.locals i = .outside) → d.shared = seq) := by
  obtain ⟨d, outs, g, hrun, hheld, htrace⟩ := schedule_held K moves
  have hs := hheld.1
  refine ⟨d, outs, g.seq, hrun, ?_⟩
  rw [← htrace]
  refine ⟨hs.legal, fun i => (hheld.2 i).history, ?_, outside_quiet hheld⟩
  rw [hs.dev]

/-- The log as the specification. The calls are answered in the order of their
effects by a bounded log of lines to which each accepted write is added once,
so a read sees the lines of one instant. For each caller the calls and answers
are those of its effects, and once all are outside the device is that log. -/
theorem concurrent_calls_answer_log {ι : Type*} [DecidableEq ι] (K : Kernel)
    (moves : List (ι × Move)) :
    ∃ d outs, run (driverProgram K) loaded moves = .ok (d, outs) ∧
      let done := effects outs.reduceOption
      (∀ pre i c r post, done = pre ++ (i, c, r)::post →
        LogAnswers (logOf (pre.map Prod.snd)) c r) ∧
      (∀ i, let mine := (done.filter (·.1 = i)).map Prod.snd
        calledIn (eventsOf i outs.reduceOption) =
            mine.map Prod.fst ++ (d.locals i).phase.call ∧
          mine.map Prod.snd =
            returnedIn (eventsOf i outs.reduceOption) ++ (d.locals i).phase.answer) ∧
      ((∀ i, d.locals i = .outside) → deviceLog d.shared = logOf (done.map Prod.snd)) := by
  obtain ⟨d, outs, g, hrun, hheld, htrace⟩ := schedule_held K moves
  obtain ⟨cs, hserves, hlegal⟩ := hheld.1.legal
  rw [htrace] at hserves hlegal
  obtain ⟨hlog, hanswers⟩ := answers_log [] ((effects outs.reduceOption).map Prod.snd)
    ⟨[], none, holds_init K⟩ deviceLog_init
    (by simpa [effectCalls, Function.comp_def] using hserves)
    (by simpa [effectAnswers, Function.comp_def] using hlegal)
  refine ⟨d, outs, hrun, ?_, ?_, ?_⟩
  · intro pre i c r post hsplit
    exact hanswers (pre.map Prod.snd) c r (post.map Prod.snd) (by rw [hsplit]; simp)
  · intro i
    have hhist := (hheld.2 i).history
    rw [htrace] at hhist
    rw [← servedIn_eventsOf]
    exact hhist.matches
  · intro hout
    rw [outside_quiet hheld hout]
    exact hlog

/-- Mutual exclusion and ownership. At every moment of every schedule at most
one caller is between lock and unlock and the lock says whether one is, a block
which a caller has in its locals is live and no other caller has it, and every
retained command is a live block of its size which no caller has. -/
theorem concurrent_calls_exclusive {ι : Type*} [DecidableEq ι] (K : Kernel)
    (moves : List (ι × Move)) :
    ∃ d outs, run (driverProgram K) loaded moves = .ok (d, outs) ∧
      (∀ i j, (d.locals i).locked → (d.locals j).locked → i = j) ∧
      (d.shared.dev.bufferLock ↔ ∃ i, (d.locals i).locked) ∧
      (∀ i, ∀ a ∈ callerBlocks (d.locals i), Live d.shared.heap a ∧
        ∀ j, j ≠ i → a ∉ callerBlocks (d.locals j)) ∧
      ∀ e ∈ d.shared.dev.buffer.content, ∃ p bytes, e = ⟨some p, bytes.length⟩ ∧
        d.shared.heap p = some bytes ∧ newline ∈ bytes ∧ ∀ i, p ∉ callerBlocks (d.locals i) := by
  obtain ⟨d, outs, g, hrun, hheld, _⟩ := schedule_held K moves
  have hs := hheld.1
  have hl := hheld.2
  refine ⟨d, outs, hrun, ?_, ?_, ?_, ?_⟩
  · intro i j hi hj
    exact Option.some.inj (((hl i).holder.mp hi).symm.trans ((hl j).holder.mp hj))
  · rw [hs.dev]
    dsimp only
    rw [Option.isSome_iff_exists]
    exact exists_congr fun i => (hl i).holder.symm
  · intro i a ha
    obtain ⟨b, hb⟩ := Option.ne_none_iff_exists'.mp ((mem_callerBlocks (hl i).stands a).mp ha)
    obtain ⟨hload, _, hothers⟩ := hs.divided.own_load hb
    refine ⟨by simp [Live, hload], fun j hj hmem => ?_⟩
    exact (mem_callerBlocks (hl j).stands a).mp hmem (hothers j hj)
  · intro e he
    rw [hs.buffer, hs.holds.content] at he
    obtain ⟨x, hx, rfl⟩ := List.mem_map.mp he
    obtain ⟨hload, hnone⟩ := hs.divided.common_load (held_blocks hheld hx)
    refine ⟨x.1, x.2, rfl, hload, hs.holds.lines x hx, fun i hmem => ?_⟩
    exact (mem_callerBlocks (hl i).stands x.1).mp hmem (hnone i)

/-- No deadlock and no livelock. From whatever a schedule has led to, some
caller inside can go on, every way of letting the callers go on takes no more
steps than are left to them, and one way lets all of them return. -/
theorem concurrent_calls_return {ι : Type*} [DecidableEq ι] (K : Kernel)
    (moves : List (ι × Move)) :
    ∃ d outs, run (driverProgram K) loaded moves = .ok (d, outs) ∧
      let left := ∑ i ∈ (moves.map Prod.fst).toFinset, stepsLeft (d.locals i)
      ((∃ i, d.locals i ≠ .outside) → ∃ i x, d.locals i ≠ .outside ∧
        driverProgram K d.shared (d.locals i) .goOn = .ok (some x)) ∧
      (∀ (sched : List ι) (d' : Config ι DriverState Stage) (outs' : List (Option (ι × Shown))),
        run (driverProgram K) d (sched.map fun i => (i, .goOn)) = .ok (d', outs') →
          outs'.reduceOption.length ≤ left) ∧
      ∃ (sched : List ι) (d' : Config ι DriverState Stage) (outs' : List (Option (ι × Shown))),
        run (driverProgram K) d (sched.map fun i => (i, .goOn)) = .ok (d', outs') ∧
          sched.length ≤ left ∧ ∀ i, d'.locals i = .outside := by
  obtain ⟨d, outs, g, hrun, hheld, _⟩ := schedule_held K moves
  have hbusy : ∀ i, stepsLeft (d.locals i) ≠ 0 → i ∈ (moves.map Prod.fst).toFinset := by
    intro i hi
    by_contra hmem
    rw [List.mem_toFinset] at hmem
    rw [run_locals hrun hmem] at hi
    exact hi rfl
  refine ⟨d, outs, hrun, ?_, ?_, ?_⟩
  · rintro ⟨i, hi⟩
    obtain ⟨j, x, hj, hx⟩ := driver_unblocked K g d hheld ⟨i, mt stepsLeft_zero.mp hi⟩
    exact ⟨j, x, mt stepsLeft_zero.mpr hj, hx⟩
  · intro sched d' outs' hrun'
    exact run_within .goOn stepsLeft (driver_keeps K) (driver_shortens K) hheld hrun' _ hbusy
  · obtain ⟨sched, d', outs', hrun', hlen, hdone⟩ := run_drains .goOn stepsLeft (driver_keeps K)
      (driver_shortens K) (driver_unblocked K) hheld _ hbusy
    exact ⟨sched, d', outs', hrun', hlen, fun i => stepsLeft_zero.mp (hdone i)⟩

end Aesd.DriverLinearization
