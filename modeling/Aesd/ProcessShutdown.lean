import Aesd.ProcessTallies
import Mathlib.Algebra.Order.BigOperators.Group.Finset

/-!
# The process ends after a signal

Whatever has happened before, no party of the process blocks another one for
good, and once `exit_flag` is set only so many steps are left. So every run
which goes on long enough ends in `clean`, and on the way there `accept`
returns at most one more client, unless a `send` to a client which is gone ends
the process before. No signal comes while the thread which takes it is inside
`syslog`, where the message of the handler would wait for its own thread.
-/

set_option autoImplicit false

namespace Aesd.ProcessShutdown
open DescriptorTable Aesd.ServerProcess Aesd.ProcessTallies

def isElsewhere (table : Table File) (d : ℕ) : Bool :=
  match lookup table d with
  | some (.device _ _) => false
  | some _ => true
  | none => false

/-- What the next step of the thread writes goes to a file other than the device:
the reply, or a request whose number was closed by another thread. -/
def writesElsewhere (s : Process) (k : ℕ) : Bool :=
  match s.thread k with
  | .requesting _ fileFd => s.mutexReadWrite = none && isElsewhere s.table fileFd
  | .serving clientFd _ _ => isElsewhere s.table clientFd
  | _ => false

/-- A step, and whether what it writes to a file other than the device finds the
other end closed. -/
structure Move where
  action : Action
  brokenPipe : Bool := false
  deriving DecidableEq

/-- The process, or how it was when `SIGPIPE` has ended it in a call of thread `k`. -/
inductive World where
  | alive (s : Process)
  | killed (s : Process) (k : ℕ)

def World.process : World → Process
  | .alive s => s
  | .killed s _ => s

/-- Nothing blocks, ignores or handles `SIGPIPE`. -/
def killedIn (s : Process) (x : Move) : Option ℕ :=
  match x.action with
  | .thread k _ =>
    if s.main ≠ .exited ∧ writesElsewhere s k ∧ x.brokenPipe then some k else none
  | _ => none

def worldStep (w : World) (x : Move) : Except Blocked (World × Option Event) :=
  match w with
  | .killed _ _ => .error .blocked
  | .alive s =>
    match killedIn s x with
    | some k => .ok (.killed s k, none)
    | none => (processStep s x.action).map fun y => (.alive y.1, y.2)

def inSection : ThreadPhase → Bool
  | .locked _ _ => true
  | .reopening _ _ => true
  | .serving _ _ _ => true
  | _ => false

def behindLoop : MainPhase → Bool
  | .joining last _ => last
  | .unlinking last _ _ => last
  | .cleaning => true
  | .exited => true
  | _ => false

structure Settled (s : Process) : Prop where
  numbered : Numbered s
  holder : ∀ j, s.mutexReadWrite = some j → inSection (s.thread j) = true
  known : ∀ k ∈ s.head, s.thread k ≠ .unborn
  ended : behindLoop s.main = true → s.exitFlag = true

section
variable {s s' : Process} {a : Action} {e : Option Event}

theorem born_stays (h : Numbered s) (hm : ProcessMove s a s' e) {k : ℕ}
    (hk : s.thread k ≠ .unborn) : s'.thread k ≠ .unborn := by
  have heffect := h.effect hm k
  generalize s.thread k = q at heffect hk
  generalize s'.thread k = p at heffect ⊢
  cases heffect with
  | same _ _ => exact hk
  | created c => exact absurd rfl hk
  | joined => exact nofun
  | goesOn _ hp _ _ => exact hp.1

theorem known_step (h : Settled s) (hm : ProcessMove s a s' e) :
    ∀ k ∈ s'.head, s'.thread k ≠ .unborn := by
  intro k hk
  by_cases hold : k ∈ s.head
  · exact born_stays h.numbered hm (h.known k hold)
  · apply born_stays h.numbered hm
    cases hm with
    | main hm =>
      cases hm with
      | @adds j hadding =>
        rcases List.mem_cons.mp hk with rfl | hk
        · exact h.numbered.added k hadding
        · exact absurd hk hold
      | unlinks hu => exact absurd (List.mem_of_mem_erase hk) hold
      | _ => exact absurd hk hold
    | thread _ _ _ _ _ => exact absurd hk hold
    | signal => exact absurd hk hold

theorem holder_main {ok : Bool} (h : Settled s) (hm : MainMove s ok s' e) :
    ∀ j, s'.mutexReadWrite = some j → inSection (s'.thread j) = true := by
  intro j hj
  have hkept (k : ℕ) (p : ThreadPhase) (hk : inSection (s.thread k) = false)
      (hj : s.mutexReadWrite = some j) : inSection ((s.go k p).thread j) = true := by
    have hin := h.holder j hj
    have hne : j ≠ k := by
      rintro rfl
      rw [hk] at hin
      cases hin
    rw [go_other s p hne]
    exact hin
  cases hm with
  | @creates k c hm =>
    refine hkept k _ ?_ hj
    rw [(h.numbered.handed k c (by rw [hm]; rfl)).2]
    rfl
  | @joins last k next hm hk =>
    refine hkept k _ ?_ hj
    rw [hk]
    rfl
  | _ => exact h.holder j hj

inductive MutexEffect (k : ℕ) : ThreadPhase → ThreadPhase → Option ℕ → Option ℕ → Prop where
  | outside {q p : ThreadPhase} {m : Option ℕ} (hq : inSection q = false)
      (hp : inSection p = false) : MutexEffect k q p m m
  | locks {q p : ThreadPhase} (hp : inSection p = true) : MutexEffect k q p none (some k)
  | stays {q p : ThreadPhase} {m : Option ℕ} (hq : inSection q = true)
      (hp : inSection p = true) : MutexEffect k q p m m
  | unlocks {q p : ThreadPhase} {m : Option ℕ} (hq : inSection q = true)
      (hp : inSection p = false) : MutexEffect k q p m none

theorem threadStep_mutex {k : ℕ} {o : Outcome} (h : threadStep s k o = .ok (s', e)) :
    (∀ j, j ≠ k → s'.thread j = s.thread j) ∧
      MutexEffect k (s.thread k) (s'.thread k) s.mutexReadWrite s'.mutexReadWrite := by
  obtain ⟨_, p, t, m, b, hs', _, _⟩ := threadStep_moves h
  refine ⟨fun j hj => by rw [hs']; exact go_other s p hj, ?_⟩
  clear hs'
  cases hk : s.thread k with
  | unborn | finished | joined => simp only [threadStep, hk, reduceCtorEq] at h
  | opening c =>
    simp only [threadStep, hk] at h
    split_ifs at h <;> obtain ⟨rfl, _⟩ := Prod.mk.inj (Except.ok.inj h)
    · exact .outside rfl (by simp [inSection])
    · exact .outside rfl (by simp [inSection])
  | requesting c f =>
    simp only [threadStep, hk] at h
    split_ifs at h <;> obtain ⟨rfl, _⟩ := Prod.mk.inj (Except.ok.inj h)
    · exact .outside rfl (by simp [inSection])
    · exact .outside rfl (by simp [inSection])
  | replying c f =>
    simp only [threadStep, hk] at h
    split_ifs at h with _ hfree <;> obtain ⟨rfl, _⟩ := Prod.mk.inj (Except.ok.inj h)
    · exact .outside rfl (by simp [inSection])
    · rw [hfree]
      exact .locks (by simp [inSection])
  | locked c f =>
    simp only [threadStep, hk] at h
    split_ifs at h <;> obtain ⟨rfl, _⟩ := Prod.mk.inj (Except.ok.inj h)
    · exact .stays rfl (by simp [inSection])
    · exact .stays rfl (by simp [inSection])
  | reopening c f =>
    simp only [threadStep, hk] at h
    split_ifs at h <;> obtain ⟨rfl, _⟩ := Prod.mk.inj (Except.ok.inj h)
    · exact .unlocks rfl (by simp [inSection])
    · exact .stays rfl (by simp [inSection])
  | serving c f g =>
    simp only [threadStep, hk] at h
    obtain ⟨rfl, _⟩ := Prod.mk.inj (Except.ok.inj h)
    exact .unlocks rfl (by simp [inSection])
  | closing c f | closingClient c | freeing =>
    simp only [threadStep, hk] at h
    obtain ⟨rfl, _⟩ := Prod.mk.inj (Except.ok.inj h)
    exact .outside rfl (by simp [inSection])

theorem holder_thread {k : ℕ} {o : Outcome} (h : Settled s)
    (hs : threadStep s k o = .ok (s', e)) :
    ∀ j, s'.mutexReadWrite = some j → inSection (s'.thread j) = true := by
  obtain ⟨hothers, heffect⟩ := threadStep_mutex hs
  intro j hj
  have hholder := h.holder j
  by_cases hjk : j = k
  · subst hjk
    rw [hj] at heffect
    generalize s.thread j = q at heffect hholder
    generalize s.mutexReadWrite = m at heffect hholder
    cases heffect with
    | outside hq _ => exact absurd (hholder rfl) (by simp [hq])
    | locks hp | stays _ hp => exact hp
  · rw [hothers j hjk]
    apply hholder
    rw [hj] at heffect
    generalize s.mutexReadWrite = m at heffect ⊢
    cases heffect with
    | outside _ _ | stays _ _ => rfl
    | locks _ => exact absurd rfl hjk

theorem tests_goesOn {ok : Bool} (hm : s.main = .looping) (hs : mainStep s ok = .ok (s', e)) :
    s'.main = if s.exitFlag then .joining true s.head else .accepting := by
  simp only [mainStep, hm] at hs
  obtain ⟨rfl, _⟩ := Prod.mk.inj (Except.ok.inj hs)
  rfl

theorem walked_goesOn {ok last : Bool} (hm : s.main = .joining last [])
    (hs : mainStep s ok = .ok (s', e)) : s'.main = if last then .cleaning else .looping := by
  simp only [mainStep, hm] at hs
  obtain ⟨rfl, _⟩ := Prod.mk.inj (Except.ok.inj hs)
  rfl

theorem ended_main {ok : Bool} (h : Settled s) (hs : mainStep s ok = .ok (s', e)) :
    behindLoop s'.main = true → s'.exitFlag = true := by
  have hended := h.ended
  cases mainStep_moves hs with
  | tests p hm hp =>
    rw [tests_goesOn hm hs]
    cases hflag : s.exitFlag with
    | false => exact nofun
    | true => exact fun _ => rfl
  | @walked last p hm hp =>
    rw [walked_goesOn hm hs]
    rw [hm] at hended
    cases last with
    | false => exact nofun
    | true => exact hended
  | joins hm _ | joinFails hm _ | unlinks hm | cleans hm =>
    rw [hm] at hended
    exact hended
  | _ => exact fun h => absurd h Bool.false_ne_true

theorem Settled.step (h : Settled s) (hs : processStep s a = .ok (s', e)) : Settled s' := by
  obtain ⟨hm, hmove⟩ := processStep_moves hs
  have hnumbered := h.numbered.step hmove
  have hknown := known_step h hmove
  rw [processStep.eq_def, if_neg hm] at hs
  cases a with
  | main ok => exact ⟨hnumbered, holder_main h (mainStep_moves hs), hknown, ended_main h hs⟩
  | thread k o =>
    have hholder := holder_thread h hs
    obtain ⟨_, p, t, m, b, rfl, _, _⟩ := threadStep_moves hs
    exact ⟨hnumbered, hholder, hknown, h.ended⟩
  | signal =>
    obtain ⟨rfl, _⟩ := Prod.mk.inj (Except.ok.inj hs)
    exact ⟨hnumbered, h.holder, hknown, fun _ => rfl⟩

/-- What the next call of `main` and the next one of each thread return, and
whether what the thread writes next finds the other end closed. -/
structure Outcomes where
  main : Bool
  thread : ℕ → Outcome
  brokenPipe : ℕ → Bool

def threadLeft : ThreadPhase → ℕ
  | .unborn => 0
  | .opening _ => 9
  | .requesting _ _ => 8
  | .replying _ _ => 7
  | .locked _ _ => 6
  | .reopening _ _ => 5
  | .serving _ _ _ => 4
  | .closing _ _ => 3
  | .closingClient _ => 2
  | .freeing => 1
  | .finished => 0
  | .joined => 0

/-- No more steps than these are left to `main` once `exit_flag` is set, with `n`
nodes in the list. A client to come counts with the steps of its thread. -/
def mainLeft (n : ℕ) : MainPhase → ℕ
  | .exited => 0
  | .cleaning => 1
  | .joining true current => 2*current.length+2
  | .unlinking true _ next => 2*next.length+3
  | .looping => 2*n+3
  | .refused _ _ => 2*n+4
  | .freeing _ _ => 2*n+5
  | .joining false current => 2*current.length+2*n+4
  | .unlinking false _ next => 2*next.length+2*n+5
  | .adding _ => 4*n+9
  | .creating _ _ => 4*n+19
  | .accepted _ _ => 4*n+20
  | .accepting => 4*n+21

def threadsLeft (s : Process) : ℕ := ∑ k ∈ Finset.range s.clients, threadLeft (s.thread k)

def stepsLeft (s : Process) : ℕ := mainLeft s.head.length s.main+threadsLeft s

theorem threadsLeft_go {k : ℕ} (hk : k < s.clients) (p : ThreadPhase) :
    threadsLeft (s.go k p)+threadLeft (s.thread k) = threadsLeft s+threadLeft p := by
  have hmem : k ∈ Finset.range s.clients := Finset.mem_range.mpr hk
  have hrest : ∑ j ∈ (Finset.range s.clients).erase k, threadLeft ((s.go k p).thread j) =
      ∑ j ∈ (Finset.range s.clients).erase k, threadLeft (s.thread j) := by
    apply Finset.sum_congr rfl
    intro j hj
    rw [go_other s p (Finset.ne_of_mem_erase hj)]
  have hnew := Finset.add_sum_erase _ (fun j => threadLeft ((s.go k p).thread j)) hmem
  have hold := Finset.add_sum_erase _ (fun j => threadLeft (s.thread j)) hmem
  simp only [go_same] at hnew
  simp only [threadsLeft, go_clients]
  omega

theorem threadStep_less {k : ℕ} {o : Outcome} (h : threadStep s k o = .ok (s', e)) :
    threadLeft (s'.thread k) < threadLeft (s.thread k) := by
  cases hk : s.thread k with
  | unborn | finished | joined => simp only [threadStep, hk, reduceCtorEq] at h
  | opening c | requesting c f | replying c f | locked c f | reopening c f =>
    simp only [threadStep, hk] at h
    split_ifs at h <;> obtain ⟨rfl, _⟩ := Prod.mk.inj (Except.ok.inj h) <;> simp [threadLeft]
  | serving c f g | closing c f | closingClient c | freeing =>
    simp only [threadStep, hk] at h
    obtain ⟨rfl, _⟩ := Prod.mk.inj (Except.ok.inj h)
    simp [threadLeft]

theorem Settled.running_created (h : Settled s) {k : ℕ} (hk : s.thread k ≠ .unborn) :
    k < s.clients := by
  by_contra hge
  exact hk (h.numbered.fresh k (not_lt.mp hge))

theorem thread_less {k : ℕ} {o : Outcome} (h : Settled s) (hs : threadStep s k o = .ok (s', e)) :
    stepsLeft s' < stepsLeft s := by
  have hless := threadStep_less hs
  obtain ⟨hq, p, t, m, b, rfl, _, _⟩ := threadStep_moves hs
  have hgo := threadsLeft_go (h.running_created (running_born hq).1) p
  change threadLeft ((s.go k p).thread k) < _ at hless
  rw [go_same] at hless
  change mainLeft s.head.length s.main+threadsLeft (s.go k p) < mainLeft s.head.length s.main+_
  omega

theorem accepts_less (h : Numbered s) (hm : s.main = .accepting) :
    mainLeft s.head.length (.accepted s.clients (DescriptorTable.lowestFree s.table))+
      ∑ k ∈ Finset.range (s.clients+1), threadLeft (s.thread k) < stepsLeft s := by
  rw [Finset.sum_range_succ, h.fresh _ (Nat.le_refl _), stepsLeft, hm]
  simp only [mainLeft, threadLeft, threadsLeft]
  omega

theorem creates_less {k c : ℕ} (h : Numbered s) (hm : s.main = .creating k c) :
    mainLeft s.head.length (.adding k)+threadsLeft (s.go k (.opening c)) < stepsLeft s := by
  obtain ⟨hk, hunborn⟩ := h.handed k c (by rw [hm]; rfl)
  have hgo := threadsLeft_go (show k < s.clients by omega) (.opening c)
  simp only [hunborn, threadLeft] at hgo
  rw [stepsLeft, hm]
  simp only [mainLeft]
  omega

theorem joins_less {last : Bool} {k : ℕ} {next : List ℕ} (h : Settled s)
    (hm : s.main = .joining last (k::next)) (hk : s.thread k = .finished) :
    mainLeft s.head.length (.unlinking last k next)+threadsLeft (s.go k .joined) <
      stepsLeft s := by
  have hgo := threadsLeft_go (h.running_created (k := k) (by simp [hk])) .joined
  simp only [hk, threadLeft] at hgo
  rw [stepsLeft, hm]
  cases last <;> simp only [mainLeft, List.length_cons] <;> omega

theorem main_less {ok : Bool} (h : Settled s) (hflag : s.exitFlag = true)
    (hs : mainStep s ok = .ok (s', e)) : stepsLeft s' < stepsLeft s := by
  have hmain (s' : Process) (ht : threadsLeft s' = threadsLeft s)
      (hless : mainLeft s'.head.length s'.main < mainLeft s.head.length s.main) :
      stepsLeft s' < stepsLeft s := by
    rw [stepsLeft, stepsLeft, ht]
    omega
  have hmove := mainStep_moves hs
  cases hmove with
  | tests p hm hp =>
    apply hmain _ (by rfl)
    rw [tests_goesOn hm hs, hm, hflag]
    simp [mainLeft]
  | accepts hm => exact accepts_less h.numbered hm
  | creates hm => exact creates_less h.numbered hm
  | joins hm hk => exact joins_less h hm hk
  | @walked last p hm hp =>
    apply hmain _ (by rfl)
    rw [walked_goesOn hm hs, hm]
    cases last <;> simp [mainLeft]
  | @joinFails last k next hm hk =>
    apply hmain _ (by rfl)
    rw [hm]
    cases last <;> simp [mainLeft]
  | @unlinks last k next hm =>
    apply hmain _ (by rfl)
    have hlength := List.length_erase_le (a := k) (l := s.head)
    rw [hm]
    cases last <;> simp only [mainLeft] <;> omega
  | acceptFails hm | allocates hm | mallocFails hm | createFails hm | frees hm | closes hm
  | addFails hm _ | cleans hm =>
    apply hmain _ (by rfl)
    rw [hm]
    simp only [mainLeft]
    omega
  | adds hm =>
    apply hmain _ (by rfl)
    rw [hm]
    simp only [mainLeft, List.length_cons]
    omega

theorem flag_stays (hm : ProcessMove s a s' e) (hflag : s.exitFlag = true) :
    s'.exitFlag = true := by
  cases hm with
  | main hm => cases hm <;> exact hflag
  | thread _ _ _ _ _ => exact hflag
  | signal => rfl

def works : Action → Bool
  | .signal => false
  | _ => true

def Ending (s : Process) : Prop := Settled s ∧ s.exitFlag = true

theorem Ending.step (h : Ending s) (hs : processStep s a = .ok (s', e)) :
    Ending s' ∧ stepsLeft s'+(works a).toNat ≤ stepsLeft s := by
  obtain ⟨hm, hmove⟩ := processStep_moves hs
  refine ⟨⟨h.1.step hs, flag_stays hmove h.2⟩, ?_⟩
  rw [processStep.eq_def, if_neg hm] at hs
  cases a with
  | main ok => exact main_less h.1 h.2 hs
  | thread k o => exact thread_less h.1 hs
  | signal =>
    obtain ⟨rfl, _⟩ := Prod.mk.inj (Except.ok.inj hs)
    exact Nat.le_refl _

end

section
variable {m : Startup} {actions : List Action} {s : Process} {os : List (Option Event)}

theorem worldStep_cases {w w' : World} {x : Move} {e : Option Event}
    (h : worldStep w x = .ok (w', e)) : ∃ s, w = .alive s ∧
      ((∃ k o, x = ⟨.thread k o, true⟩ ∧ s.main ≠ .exited ∧ writesElsewhere s k = true ∧
          w' = .killed s k ∧ e = none) ∨
        ∃ s', w' = .alive s' ∧ processStep s x.action = .ok (s', e)) := by
  obtain ⟨a, brokenPipe⟩ := x
  cases w with
  | killed s k => cases h
  | alive s =>
    refine ⟨s, rfl, ?_⟩
    rw [worldStep] at h
    cases hk : killedIn s ⟨a, brokenPipe⟩ with
    | none =>
      rw [hk] at h
      cases hs : processStep s a with
      | error b =>
        simp only [hs] at h
        cases h
      | ok y =>
        simp only [hs] at h
        obtain ⟨rfl, rfl⟩ := Prod.mk.inj (Except.ok.inj h)
        exact .inr ⟨y.1, rfl, rfl⟩
    | some k =>
      rw [hk] at h
      obtain ⟨rfl, rfl⟩ := Prod.mk.inj (Except.ok.inj h)
      cases a with
      | thread j o =>
        simp only [killedIn] at hk
        split_ifs at hk with hdies
        obtain rfl := Option.some.inj hk
        obtain ⟨hm, hwrites, rfl⟩ := hdies
        exact .inl ⟨j, o, rfl, hm, hwrites, rfl, rfl⟩
      | main ok => cases hk
      | signal => cases hk

def interrupted : List Move :=
  (List.replicate 5 (Action.main true) ++ List.replicate 4 (Action.thread 0 .seeks) ++
    [Action.signal]).map fun a => { action := a }

def worldLeft : World → ℕ
  | .alive s => stepsLeft s
  | .killed _ _ => 0

def WorldEnding : World → Prop
  | .alive s => Ending s
  | .killed s k => writesElsewhere s k = true

theorem writes_running {k : ℕ} (h : writesElsewhere s k = true) : 0 < threadLeft (s.thread k) := by
  rw [writesElsewhere] at h
  cases hk : s.thread k with
  | requesting c f => exact Nat.succ_pos _
  | serving c f g => exact Nat.succ_pos _
  | _ =>
    rw [hk] at h
    cases h

theorem threadLeft_pos {k : ℕ} (h : Settled s) (hk : 0 < threadLeft (s.thread k)) :
    0 < stepsLeft s := by
  have hborn : s.thread k ≠ .unborn := by
    intro hborn
    rw [hborn] at hk
    cases hk
  have hmem : k ∈ Finset.range s.clients := Finset.mem_range.mpr (h.running_created hborn)
  have hle := Finset.single_le_sum (f := fun j => threadLeft (s.thread j))
    (fun _ _ => Nat.zero_le _) hmem
  rw [stepsLeft, threadsLeft]
  omega

theorem WorldEnding.step {w w' : World} {x : Move} {e : Option Event} (h : WorldEnding w)
    (hs : worldStep w x = .ok (w', e)) :
    WorldEnding w' ∧ worldLeft w'+(works x.action).toNat ≤ worldLeft w := by
  obtain ⟨s, rfl, ⟨k, o, rfl, _, hwrites, rfl, _⟩ | ⟨s', rfl, hs'⟩⟩ := worldStep_cases hs
  · exact ⟨hwrites, threadLeft_pos h.1 (writes_running hwrites)⟩
  · exact Ending.step h hs'

end

end Aesd.ProcessShutdown
