import Aesd.ProcessDeviceInvariant

/-!
# What the threads of the process store

Each thread hands its request to the device once at most, and the device is the
bounded log of these requests in the order of their sections.
-/

set_option autoImplicit false

namespace Aesd.ProcessStores
open Aesd.KernelMemory Aesd.CharDriver Aesd.DriverWrite Aesd.CommandLog Aesd.SeekParser
open Aesd.SocketServer Aesd.ServerProcess Aesd.ProcessTallies Aesd.ProcessShutdown
open Aesd.ProcessDevice Aesd.ProcessDeviceInvariant

def past (p : ThreadPhase) : Prop := p ≠ .unborn ∧ threadLeft p ≤ 7

/-- The thread does not send its reply yet. -/
def ahead (p : ThreadPhase) : Prop := p = .unborn ∨ 5 ≤ threadLeft p

/-- Who replies has a request, and behind the lock the buffer for its reply. -/
def Asked : ThreadPhase → Held → Prop
  | .replying _ _, held => held.request ≠ none
  | .locked _ _, held => ∃ r, held = .reply r
  | .reopening _ _, held => ∃ r, held = .reply r
  | .serving _ _ _, held => ∃ r, held = .reply r
  | _, _ => True

def storedBy : Option Shown → Option (ℕ × List UInt8)
  | some (.stored k request) => some (k, request)
  | _ => none

def storedIn (outs : List (Option Shown)) : List (ℕ × List UInt8) := outs.filterMap storedBy

theorem storedIn_concat (outs : List (Option Shown)) (o : Option Shown) :
    storedIn (outs ++ [o]) = storedIn outs ++ (storedBy o).toList := by
  rw [storedIn, List.filterMap_append, List.filterMap_cons, List.filterMap_nil]
  cases storedBy o <;> rfl

/-- What `stored` says of the system it has led to from the log given. -/
structure Accounts (K : Kernel) (log : LineLog.Log UInt8) (s : System)
    (stored : List (ℕ × List UInt8)) : Prop where
  consistent : Consistent K s
  log : deviceLog s.driver = (stored.map Prod.snd).foldl logWrite log
  once : (stored.map Prod.fst).Nodup
  data : ∀ x ∈ stored, newline ∈ x.2 ∧ ¬ SEEK_COMMAND <+: x.2 ∧ past (s.process.thread x.1)
  asked : ∀ k, Asked (s.process.thread k) (s.held k)
  unsent : ∀ k r, s.held k = .reply r → ahead (s.process.thread k) → r.sent = [] ∧ r.bytesRead = 0

section
variable {K : Kernel} {M : Libc} {log : LineLog.Log UInt8} {s s' : System}
variable {stored : List (ℕ × List UInt8)} {a : SystemAction} {o : Option Shown} {k : ℕ}

theorem main_phase {p q : Process} {ok : Bool} {e : Option Event} (hn : Numbered p)
    (hm : MainMove p ok q e) (k : ℕ) : q.thread k = p.thread k ∨
      p.thread k = .unborn ∧ (∃ c, q.thread k = .opening c) ∨
      p.thread k = .finished ∧ q.thread k = .joined := by
  cases hm with
  | @creates j c hm =>
    by_cases hk : k = j
    · subst hk
      exact .inr (.inl ⟨(hn.handed k c (by rw [hm]; rfl)).2, c, go_same p k _⟩)
    · exact .inl (go_other p _ hk)
  | @joins last j next hm hj =>
    by_cases hk : k = j
    · subst hk
      exact .inr (.inr ⟨hj, go_same p k _⟩)
    · exact .inl (go_other p _ hk)
  | _ => exact .inl rfl

theorem asked_leaves {p : ThreadPhase} (hp : threadLeft p ≤ 3) (held : Held) : Asked p held := by
  cases p <;> trivial

theorem asked_nothing {p : ThreadPhase} (h : Asked p .nothing) (held : Held) : Asked p held := by
  cases p with
  | replying c f => exact absurd rfl h
  | locked c f | reopening c f | serving c f g =>
    obtain ⟨r, hr⟩ := h
    cases hr
  | _ => trivial

theorem asked_main {p q : Process} {ok : Bool} {e : Option Event} (hn : Numbered p)
    (hm : MainMove p ok q e) {held : Held} (h : Asked (p.thread k) held) :
    Asked (q.thread k) held := by
  rcases main_phase hn hm k with heq | ⟨_, c, hopening⟩ | ⟨_, hjoined⟩
  · rwa [heq]
  · rw [hopening]
    trivial
  · rw [hjoined]
    trivial

theorem asked_stays {e : Effect} (he : Effected K s k e) (hgo : e.goesOn = none)
    (h : Asked (s.process.thread k) (s.held k)) : Asked (s.process.thread k) e.held := by
  cases he with
  | waits => exact h
  | gathers hk _ _ _ _ =>
    rw [hk] at h
    exact asked_nothing h _
  | allocates hk _ _ _ =>
    rw [hk]
    exact nofun
  | reads hk _ _ _ _ _ _ | sends hk _ _ =>
    rw [hk]
    exact ⟨_, rfl⟩
  | _ => cases hgo

/-- What a thread has when it goes on from its phase. -/
inductive Carries (o : Outcome) (held held' : Held) : ThreadPhase → Prop where
  | idles {q : ThreadPhase} (heq : held' = held) (ho : Idles q held o) : Carries o held held' q
  | opens {q : ThreadPhase} (heq : held' = held) (hf : q.fileFd = none) : Carries o held held' q
  | asks {c f : ℕ} (h : o = .fails ∨ ∃ request, held' = .dispatched request) :
      Carries o held held' (.requesting c f)
  | refuses {q : ThreadPhase} (ho : o = .fails) (hq : ∀ c f, q ≠ .locked c f) :
      Carries o held held' q
  | replies {c f g : ℕ} : Carries o held held' (.serving c f g)

theorem effected_carries {e : Effect} {o : Outcome} (he : Effected K s k e)
    (hgo : e.goesOn = some o) : Carries o (s.held k) e.held (s.process.thread k) := by
  cases he with
  | waits => cases hgo
  | goes o' ho =>
    obtain rfl := Option.some.inj hgo
    exact .idles rfl ho
  | opens n hk => exact .opens rfl hk
  | gathers _ _ _ _ _ => cases hgo
  | dispatches hk _ _ hheld =>
    obtain rfl := Option.some.inj hgo
    rw [hk]
    rcases hheld with ⟨_, ho, _⟩ | ⟨request, hsome, _⟩
    · exact .asks (.inl ho)
    · exact .asks (.inr ⟨request, hsome⟩)
  | stores hk _ _ _ _ _ _ hheld =>
    obtain rfl := Option.some.inj hgo
    rw [hk]
    rcases hheld with ⟨_, ho⟩ | hsome
    · exact .asks (.inl ho)
    · exact .asks (.inr ⟨_, hsome⟩)
  | givesUp hk _ =>
    obtain rfl := Option.some.inj hgo
    rw [hk]
    exact .refuses rfl nofun
  | allocates _ _ _ _ => cases hgo
  | reads _ _ _ _ _ _ _ => cases hgo
  | sends _ _ _ => cases hgo
  | abandons hk _ _ =>
    obtain rfl := Option.some.inj hgo
    rcases hk with ⟨c, f, hk, ho⟩ | ⟨c, f, g, hk⟩
    · rw [hk]
      exact .refuses ho nofun
    · rw [hk]
      exact .replies
  | ends hk _ _ _ _ =>
    rw [hk]
    exact .replies

theorem asked_next {o : Outcome} {held held' : Held} {p q : ThreadPhase} (hn : Next o q p)
    (hc : Carries o held held' q) (h : Asked q held) : Asked p held' := by
  cases hn with
  | opens _ => trivial
  | leaves hp => exact asked_leaves hp _
  | @asks c f ho =>
    cases hc with
    | idles heq hi =>
      rw [heq]
      exact (hi.asks c f rfl).resolve_left ho
    | opens _ hf => cases hf
    | asks hreq =>
      obtain ⟨request, rfl⟩ := hreq.resolve_left ho
      exact nofun
    | refuses hfails _ => exact absurd hfails ho
  | @locks c f ho =>
    cases hc with
    | idles heq hi =>
      rw [heq]
      cases held with
      | nothing | buffer a n => exact absurd rfl h
      | dispatched request => exact absurd rfl (hi.replies c f request rfl)
      | reply r => exact ⟨r, rfl⟩
    | opens _ hf => cases hf
    | refuses hfails _ => exact absurd hfails ho
  | @goesOn c f _ hp =>
    have hsame : held' = held := by
      cases hc with
      | idles heq _ => exact heq
      | opens _ hf => cases hf
      | refuses _ hq => exact absurd rfl (hq c f)
    rw [hsame]
    rcases hp with rfl | rfl <;> exact h
  | reopens ho =>
    cases hc with
    | idles heq _ | opens heq _ =>
      rw [heq]
      exact h
    | refuses hfails _ => exact absurd hfails ho

structure Onward (p q : Process) : Prop where
  past : ∀ k, past (p.thread k) → past (q.thread k)
  ahead : ∀ k, ahead (q.thread k) → ahead (p.thread k)

theorem onward_main {p q : Process} {ok : Bool} {e : Option Event} (hn : Numbered p)
    (hm : MainMove p ok q e) : Onward p q where
  past k hk := by
    rcases main_phase hn hm k with heq | ⟨hborn, _⟩ | ⟨_, hjoined⟩
    · rwa [heq]
    · exact absurd hborn hk.1
    · rw [hjoined]
      exact ⟨nofun, by decide⟩
  ahead k hk := by
    rcases main_phase hn hm k with heq | ⟨hborn, _⟩ | ⟨_, hjoined⟩
    · rwa [← heq]
    · exact .inl hborn
    · rw [hjoined] at hk
      rcases hk with hk | hk
      · cases hk
      · exact absurd hk (by decide)

theorem onward_thread {p q : Process} {o : Outcome} (hq : GoesOn p k o q) : Onward p q where
  past j hj := by
    by_cases hjk : j = k
    · subst hjk
      exact ⟨hq.born, hq.less.le.trans hj.2⟩
    · rwa [hq.others j hjk]
  ahead j hj := by
    by_cases hjk : j = k
    · subst hjk
      exact .inr ((hj.resolve_left hq.born).trans hq.less.le)
    · rwa [← hq.others j hjk]

theorem Accounts.fresh (h : Accounts K log s stored) {c f : ℕ}
    (hk : s.process.thread k = .requesting c f) : k ∉ stored.map Prod.fst := by
  intro hmem
  obtain ⟨x, hx, rfl⟩ := List.mem_map.mp hmem
  have hpast := (h.data x hx).2.2
  rw [hk] at hpast
  exact absurd hpast.2 (by simp [threadLeft])

theorem serving_not_ahead {c f g : ℕ} (hk : s.process.thread k = .serving c f g) :
    ¬ ahead (s.process.thread k) := by
  rw [hk]
  rintro (⟨⟨⟩⟩ | hle)
  exact absurd hle (by simp [threadLeft])

theorem effected_unsent {e : Effect} (he : Effected K s k e) {r : Reply} (hr : e.held = .reply r) :
    s.held k = .reply r ∨ r.sent = [] ∧ r.bytesRead = 0 ∨ ¬ ahead (s.process.thread k) := by
  cases he with
  | waits | goes o _ | opens n _ => exact .inl hr
  | gathers _ _ _ _ _ => cases hr
  | dispatches _ _ _ hheld =>
    rcases hheld with ⟨rfl, _⟩ | ⟨_, rfl, _⟩ <;> cases hr
  | stores _ _ _ _ _ _ _ hheld =>
    rcases hheld with ⟨rfl, _⟩ | rfl <;> cases hr
  | givesUp _ _ => cases hr
  | allocates _ _ _ _ =>
    obtain rfl := Held.reply.inj hr
    exact .inr (.inl ⟨rfl, rfl⟩)
  | reads hk _ _ _ _ _ _ | sends hk _ _ => exact .inr (.inr (serving_not_ahead hk))
  | abandons _ _ _ => cases hr
  | ends _ _ _ _ _ => cases hr

theorem effected_stored {e : Effect} (he : Effected K s k e) :
    storedBy e.shown = none ∧ deviceLog e.driver = deviceLog s.driver ∨
      ∃ request, storedBy e.shown = some (k, request) ∧ newline ∈ request ∧
        ¬ SEEK_COMMAND <+: request ∧ (∃ c f, s.process.thread k = .requesting c f) ∧
        e.goesOn ≠ none ∧ deviceLog e.driver = logWrite (deviceLog s.driver) request := by
  cases he with
  | @stores c f n a request o driver flag held hk hb hfree hdriver hlog hline hseek hheld =>
    exact .inr ⟨request, rfl, hline, hseek, ⟨c, f, hk⟩, nofun, hlog⟩
  | abandons _ _ hshown => exact .inl ⟨by rcases hshown with rfl | rfl <;> rfl, rfl⟩
  | _ => exact .inl ⟨rfl, rfl⟩

/-- A thread which has gone on to `p`, or is where it was. -/
def Continues (s : System) (k : ℕ) (e : Effect) (p : Process) : Prop :=
  e.goesOn = none ∧ p = s.process ∨ ∃ o, e.goesOn = some o ∧ GoesOn s.process k o p

theorem Continues.onward {e : Effect} {p : Process} (hp : Continues s k e p) :
    Onward s.process p := by
  rcases hp with ⟨_, rfl⟩ | ⟨o, _, hp⟩
  · exact ⟨fun _ => id, fun _ => id⟩
  · exact onward_thread hp

theorem Continues.past {e : Effect} {p : Process} (hp : Continues s k e p)
    (hne : e.goesOn ≠ none) {c f : ℕ} (hk : s.process.thread k = .requesting c f) :
    past (p.thread k) := by
  rcases hp with ⟨hgo, _⟩ | ⟨o, _, hp⟩
  · exact absurd hgo hne
  · have hless := hp.less
    rw [hk] at hless
    exact ⟨hp.born, Nat.le_of_lt_succ hless⟩

theorem Continues.asked {e : Effect} {p : Process} (hp : Continues s k e p)
    (he : Effected K s k e) (h : ∀ j, Asked (s.process.thread j) (s.held j)) (j : ℕ) :
    Asked (p.thread j) (Function.update s.held k e.held j) := by
  by_cases hj : j = k
  · subst hj
    rw [Function.update_self]
    rcases hp with ⟨hgo, rfl⟩ | ⟨o, hgo, hp⟩
    · exact asked_stays he hgo (h j)
    · exact asked_next hp.next (effected_carries he hgo) (h j)
  · rw [Function.update_of_ne hj]
    rcases hp with ⟨_, rfl⟩ | ⟨o, _, hp⟩
    · exact h j
    · rw [hp.others j hj]
      exact h j

theorem Accounts.process (h : Accounts K log s stored) {p : Process}
    (hc : Consistent K { s with process := p }) (hp : Onward s.process p)
    (ha : ∀ k, Asked (p.thread k) (s.held k)) :
    Accounts K log { s with process := p } stored where
  consistent := hc
  log := h.log
  once := h.once
  data x hx := ⟨(h.data x hx).1, (h.data x hx).2.1, hp.past _ (h.data x hx).2.2⟩
  asked := ha
  unsent j r hj hahead := h.unsent j r hj (hp.ahead j hahead)

theorem Accounts.thread (h : Accounts K log s stored) {e : Effect} {p : Process}
    (he : Effected K s k e) (hc : Consistent K (s.take k e p)) (hp : Continues s k e p) :
    Accounts K log (s.take k e p) (stored ++ (storedBy e.shown).toList) := by
  have hunsent : ∀ j r, Function.update s.held k e.held j = .reply r → ahead (p.thread j) →
      r.sent = [] ∧ r.bytesRead = 0 := by
    intro j r hj hahead
    by_cases hjk : j = k
    · subst hjk
      rw [Function.update_self] at hj
      rcases effected_unsent he hj with hbefore | hnew | hnot
      · exact h.unsent j r hbefore (hp.onward.ahead j hahead)
      · exact hnew
      · exact absurd (hp.onward.ahead j hahead) hnot
    · rw [Function.update_of_ne hjk] at hj
      exact h.unsent j r hj (hp.onward.ahead j hahead)
  have hdata : ∀ x ∈ stored, newline ∈ x.2 ∧ ¬ SEEK_COMMAND <+: x.2 ∧ past (p.thread x.1) :=
    fun x hx => ⟨(h.data x hx).1, (h.data x hx).2.1, hp.onward.past _ (h.data x hx).2.2⟩
  have hasked := hp.asked he h.asked
  rcases effected_stored he with
    ⟨hnone, hlog⟩ | ⟨request, hsome, hline, hseek, ⟨c, f, hk⟩, hne, hlog⟩
  · rw [hnone, Option.toList_none, List.append_nil]
    exact ⟨hc, hlog.trans h.log, h.once, hdata, hasked, hunsent⟩
  · rw [hsome, Option.toList_some]
    refine ⟨hc, ?_, ?_, ?_, hasked, hunsent⟩
    · rw [List.map_append, List.foldl_append, ← h.log]
      exact hlog
    · rw [List.map_append, List.nodup_append]
      refine ⟨h.once, by simp, ?_⟩
      rintro j hj i hi rfl
      obtain rfl : j = k := by simpa using hi
      exact h.fresh hk hj
    · intro x hx
      rcases List.mem_append.mp hx with hx | hx
      · exact hdata x hx
      · obtain rfl := List.mem_singleton.mp hx
        exact ⟨hline, hseek, hp.past hne hk⟩

theorem Accounts.step (h : Accounts K log s stored) (hs : Stepped K s a s' o) :
    Accounts K log s' (stored ++ (storedBy o).toList) := by
  have hc := h.consistent.step hs
  have hnone (s' : System) (h' : Accounts K log s' stored) :
      Accounts K log s' (stored ++ (storedBy none).toList) := by
    rw [show storedBy none = none from rfl, Option.toList_none, List.append_nil]
    exact h'
  cases hs with
  | waits => exact hnone _ h
  | main hs =>
    obtain ⟨_, hm⟩ := processStep_moves hs
    cases hm with
    | main hm =>
      have hn := h.consistent.numbered
      exact hnone _ (h.process hc (onward_main hn hm) fun k => asked_main hn hm (h.asked k))
  | signal hs =>
    obtain ⟨_, hm⟩ := processStep_moves hs
    cases hm with
    | signal => exact hnone _ (h.process hc ⟨fun _ => id, fun _ => id⟩ h.asked)
  | stays he hgo => exact h.thread he hc (.inl ⟨hgo, rfl⟩)
  | goes he hgo hp hre => exact h.thread he hc (.inr ⟨_, hgo, hp⟩)

end

end Aesd.ProcessStores
