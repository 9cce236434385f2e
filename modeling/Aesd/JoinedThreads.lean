import Aesd.OwnDescriptors

/-!
# Threads which `main` waits for

As long as every thread gets its node, `main` does not go on before the thread
it has created is joined. So at most one thread runs at a time, and nobody
takes the number which it has closed and opens again.
-/

set_option autoImplicit false

namespace Aesd.JoinedThreads
open DescriptorTable Aesd.ServerProcess Aesd.ProcessTallies Aesd.DescriptorCustody
open Aesd.OwnDescriptors

def awaited : MainPhase → Option ℕ
  | .adding k => some k
  | .joining _ (k::_) => some k
  | _ => none

def Settled (p : ThreadPhase) : Prop := p = .unborn ∨ p = .joined

theorem running_unsettled {p : ThreadPhase} (h : p.running = true) : ¬ Settled p := by
  rintro (rfl | rfl) <;> cases h

/-- The list holds the awaited thread at most, and all others are settled. -/
structure Sequential (s : Process) : Prop where
  head : s.head = s.main.listed
  short : s.head.length ≤ 1
  alone : ∀ j, Settled (s.thread j) ∨ awaited s.main = some j
  live : ∀ j, awaited s.main = some j → ¬ Settled (s.thread j)

def NodeAdded (s : Process) : Action → Prop
  | .main ok => nodeAwaited s.main ≠ none → ok = true
  | _ => True

instance (s : Process) : (a : Action) → Decidable (NodeAdded s a)
  | .main ok => inferInstanceAs (Decidable (nodeAwaited s.main ≠ none → ok = true))
  | .thread _ _ => .isTrue trivial
  | .signal => .isTrue trivial

section
variable {s s' : Process} {a : Action} {e : Option Event}

theorem Sequential.settled (h : Sequential s) (hm : awaited s.main = none) (j : ℕ) :
    Settled (s.thread j) :=
  (h.alone j).resolve_right (by rw [hm]; exact nofun)

theorem Sequential.idle (h : Sequential s) (hm : awaited s.main = none)
    (hm' : awaited s'.main = none) (ht : s'.thread = s.thread) (hhead : s'.head = s'.main.listed)
    (hshort : s'.head.length ≤ 1) : Sequential s' where
  head := hhead
  short := hshort
  alone j := .inl (by rw [ht]; exact h.settled hm j)
  live j hj := by
    rw [hm'] at hj
    cases hj

theorem Sequential.main {ok : Bool} (h : Sequential s) (hadded : NodeAdded s (.main ok))
    (hm : MainMove s ok s' e) : Sequential s' := by
  have hhead := h.head
  have hshort := h.short
  cases hm with
  | tests p hm hp =>
    rw [hm] at hhead
    rcases hp with rfl | rfl
    · exact h.idle (by rw [hm]; rfl) rfl rfl hhead hshort
    · exact h.idle (by rw [hm]; rfl) (by rw [hhead]; rfl) rfl rfl hshort
  | walked p hm hp =>
    rw [hm] at hhead
    rcases hp with rfl | rfl <;> exact h.idle (by rw [hm]; rfl) rfl rfl hhead hshort
  | @creates k c hm =>
    rw [hm] at hhead
    refine ⟨hhead, hshort, fun j => ?_, fun j hj => ?_⟩
    · by_cases hjk : j = k
      · exact .inr (by rw [hjk]; rfl)
      · refine .inl ?_
        change Settled ((s.go k (.opening c)).thread j)
        rw [go_other s _ hjk]
        exact h.settled (by rw [hm]; rfl) j
    · obtain rfl : k = j := Option.some.inj hj
      change ¬ Settled ((s.go k (.opening c)).thread k)
      rw [go_same]
      exact running_unsettled rfl
  | @adds k hm =>
    rw [hm] at hhead
    have hnil : s.head = [] := hhead
    refine ⟨rfl, by simp [hnil], fun j => ?_, fun j hj => ?_⟩
    · have halone := h.alone j
      rwa [hm] at halone
    · exact h.live j (by rw [hm]; exact hj)
  | addFails hm hok =>
    have hadded := hadded (by rw [hm]; exact nofun)
    rw [hok] at hadded
    cases hadded
  | @joins last k next hm hk =>
    rw [hm] at hhead
    refine ⟨hhead, hshort, fun j => .inl ?_, nofun⟩
    change Settled ((s.go k .joined).thread j)
    by_cases hjk : j = k
    · rw [hjk, go_same]
      exact .inr rfl
    · rw [go_other s _ hjk]
      refine (h.alone j).resolve_right fun hj => ?_
      rw [hm] at hj
      exact hjk (Option.some.inj hj).symm
  | @joinFails last k next hm hk => exact absurd (.inr hk) (h.live k (by rw [hm]; rfl))
  | @unlinks last k next hm =>
    rw [hm] at hhead
    have hcons : s.head = k::next := hhead
    obtain rfl : next = [] := by
      rw [hcons] at hshort
      exact List.eq_nil_of_length_eq_zero (Nat.le_zero.mp (Nat.le_of_succ_le_succ hshort))
    have hnil : s.head.erase k = [] := by rw [hcons, List.erase_cons_head]
    exact h.idle (by rw [hm]; rfl) rfl rfl hnil (by rw [hnil]; exact Nat.zero_le 1)
  | accepts hm | acceptFails hm | allocates hm | mallocFails hm | createFails hm | frees hm
  | closes hm | cleans hm =>
    rw [hm] at hhead
    exact h.idle (by rw [hm]; rfl) rfl rfl hhead hshort

theorem Sequential.others (h : Sequential s) {k : ℕ} (hq : (s.thread k).running = true) {j : ℕ}
    (hj : j ≠ k) : Settled (s.thread j) := by
  have hk := (h.alone k).resolve_left (running_unsettled hq)
  refine (h.alone j).resolve_right fun hj' => hj ?_
  exact Option.some.inj (hj'.symm.trans hk)

theorem Sequential.step (h : Sequential s) (hadded : NodeAdded s a)
    (hm : ProcessMove s a s' e) : Sequential s' := by
  cases hm with
  | main hm => exact h.main hadded hm
  | @thread k o p t e m b hq hmove hr =>
    have hk : awaited s.main = some k :=
      (h.alone k).resolve_left (running_unsettled hq)
    have hp : ¬ Settled p := by
      rintro (hp | hp)
      · exact (move_born hmove).1 hp
      · exact (move_born hmove).2 hp
    refine ⟨h.head, h.short, fun j => ?_, fun j hj => ?_⟩
    · by_cases hjk : j = k
      · exact .inr (by rw [hjk]; exact hk)
      · refine .inl ?_
        change Settled ((s.go k p).thread j)
        rw [go_other s p hjk]
        exact h.others hq hjk
    · obtain rfl : k = j := Option.some.inj (hk.symm.trans hj)
      change ¬ Settled ((s.go k p).thread k)
      rwa [go_same]
  | signal => exact ⟨h.head, h.short, h.alone, h.live⟩

structure Lowest (s : Process) : Prop where
  below : ∀ k f, (s.thread k).fileFd = some f → ∀ d < f, lookup s.table d ≠ none
  again : ∀ k c f, s.thread k = .reopening c f → lowestFree s.table = f

theorem settled_fds {p : ThreadPhase} (h : Settled p) :
    p.fileFd = none ∧ ∀ c f, p ≠ .reopening c f := by
  rcases h with rfl | rfl <;> exact ⟨rfl, fun _ _ => nofun⟩

theorem Lowest.move {k : ℕ} {o : Outcome} {p : ThreadPhase} {t : Table File}
    (h : Lowest s) (hreplies : ∀ c f g, s.thread k = .serving c f g → g = f)
    (hmove : ThreadMove s.table k o (s.thread k) p t e)
    (hr : Reopens s.table (s.thread k) p) :
    (∀ f, p.fileFd = some f → ∀ d < f, lookup t d ≠ none) ∧
      ∀ c f, p = .reopening c f → lowestFree t = f := by
  have hbelow := h.below k
  generalize hphase : s.thread k = q at hmove hr hbelow
  cases hmove with
  | goes hc hf _ _ =>
    refine ⟨fun f hp => hbelow f (by rw [← hf, hp]), ?_⟩
    rintro c f rfl
    have hfd := hr.1 c f rfl
    rw [← hf] at hfd
    cases hfd
  | opens _ _ hf' _ _ _ =>
    refine ⟨fun f hp d hd => ?_, ?_⟩
    · obtain rfl := Option.some.inj (hf'.symm.trans hp)
      rw [lookup_install, if_neg (Nat.ne_of_lt hd)]
      exact lookup_below hd
    · rintro c f rfl
      cases hf'
  | @reopenFails c f _ =>
    refine ⟨fun f' hp d hd => ?_, fun _ _ => nofun⟩
    obtain rfl : f = f' := Option.some.inj hp
    rw [← h.again k c f hphase] at hd
    exact lookup_below hd
  | @returns c f g =>
    obtain rfl := hreplies c f g hphase
    exact ⟨hbelow, fun _ _ => nofun⟩
  | @closesFile _ _ f _ hf hf' _ _ =>
    refine ⟨fun f' hp => ?_, ?_⟩
    · rw [hf'] at hp
      cases hp
    · rintro c f' rfl
      obtain rfl := Option.some.inj ((hr.1 c f' rfl).symm.trans hf)
      refine lowestFree_eq (by rw [lookup_close, if_pos rfl]) fun d hd => ?_
      rw [lookup_close, if_neg (Nat.ne_of_lt hd)]
      exact hbelow f' hf d hd
  | closesClient | frees => exact ⟨nofun, fun _ _ => nofun⟩

theorem main_keeps {ok : Bool} (h : Sequential s) (hm : MainMove s ok s' e) (j : ℕ) :
    (s'.thread j).fileFd = none ∧ (∀ c f, s'.thread j ≠ .reopening c f) ∨
      s'.thread j = s.thread j ∧ s'.table = s.table := by
  cases hm with
  | accepts hm | closes hm | cleans hm =>
    exact .inl (settled_fds (h.settled (by rw [hm]; rfl) j))
  | @creates k c hm =>
    by_cases hj : j = k
    · subst hj
      left
      change ((s.go j (.opening c)).thread j).fileFd = none ∧ _
      simp [ThreadPhase.fileFd]
    · exact .inr ⟨go_other s _ hj, rfl⟩
  | @joins last k next hm hk =>
    by_cases hj : j = k
    · subst hj
      left
      change ((s.go j .joined).thread j).fileFd = none ∧ _
      simp [ThreadPhase.fileFd]
    · exact .inr ⟨go_other s _ hj, rfl⟩
  | _ => exact .inr ⟨rfl, rfl⟩

theorem Lowest.step (hs : Sequential s) (h : Lowest s)
    (hreplies : ∀ k c f g, s.thread k = .serving c f g → g = f) (hm : ProcessMove s a s' e) :
    Lowest s' := by
  cases hm with
  | main hm =>
    constructor
    · intro k f hf
      rcases main_keeps hs hm k with ⟨hnone, _⟩ | ⟨hk, ht⟩
      · rw [hnone] at hf
        cases hf
      · rw [hk] at hf
        rw [ht]
        exact h.below k f hf
    · intro k c f hf
      rcases main_keeps hs hm k with ⟨_, hne⟩ | ⟨hk, ht⟩
      · exact absurd hf (hne c f)
      · rw [hk] at hf
        rw [ht]
        exact h.again k c f hf
  | @thread k o p t e m b hq hmove hr =>
    obtain ⟨hbelow, hagain⟩ := h.move (hreplies k) hmove hr
    constructor
    · intro j f hf
      have hf : ((s.go k p).thread j).fileFd = some f := hf
      by_cases hj : j = k
      · rw [hj, go_same] at hf
        exact hbelow f hf
      · rw [go_other s p hj, (settled_fds (hs.others hq hj)).1] at hf
        cases hf
    · intro j c f hf
      have hf : (s.go k p).thread j = .reopening c f := hf
      by_cases hj : j = k
      · rw [hj, go_same] at hf
        exact hagain c f hf
      · rw [go_other s p hj] at hf
        exact absurd hf ((settled_fds (hs.others hq hj)).2 c f)
  | signal => exact ⟨h.below, h.again⟩

/-- The number of a device may be stale when it could not be opened again. -/
def deviceStale (i : Slot) : Prop := ∃ k, i = .device k

theorem unremembered (h : ∀ j, (s.thread j).fileFd = none) : Unremembered deviceStale s := by
  rintro _ ⟨j, rfl⟩ heq
  rw [fdOf, h j] at heq
  cases heq

theorem respects (hs : Sequential s) (hl : Lowest s) (hm : ProcessMove s a s' e) :
    Respects deviceStale s a where
  reopened k _ _ := ⟨hl.again k, fun _ _ _ _ => ⟨k, rfl⟩⟩
  accepting _ _ hmain :=
    unremembered fun j => (settled_fds (hs.settled (by rw [hmain]; rfl) j)).1
  opening k o ha hf := by
    subst ha
    cases hm with
    | thread m b hq hmove hr =>
      refine unremembered fun j => ?_
      by_cases hj : j = k
      · rw [hj, hf]
      · exact (settled_fds (hs.others hq hj)).1

end

structure Waited (s : Process) : Prop where
  numbered : Numbered s
  sequential : Sequential s
  custody : Custody deviceStale s
  lowest : Lowest s

theorem waited_launched (m : Startup) : Waited (launched m) where
  numbered := numbered_launched m
  sequential := ⟨rfl, Nat.zero_le 1, fun _ => .inl (.inl rfl), nofun⟩
  custody := custody_launched _ m
  lowest := ⟨nofun, nofun⟩

section
variable {m : Startup} {actions : List Action} {t : Process} {os : List (Option Event)}

theorem run_waited (hr : processRun (launched m) actions = .ok (t, os))
    (hadded : ∀ pre a, pre ++ [a] <+: actions →
      NodeAdded (Runs.final processStep (launched m) pre) a) : Waited t := by
  refine Runs.run_guarded (fun s _ => Waited s) NodeAdded ?_ (waited_launched m) hr hadded
  intro s os a s' e h hadded hstep
  obtain ⟨hmain, hm⟩ := processStep_moves hstep
  exact ⟨h.numbered.step hm, h.sequential.step hadded hm,
    h.custody.step h.numbered hmain hm (respects h.sequential h.lowest hm),
    h.lowest.step h.sequential h.custody.replies hm⟩

theorem Waited.settled (h : Waited t) (hmain : t.main = .cleaning ∨ t.main = .exited) (k : ℕ) :
    Settled (t.thread k) :=
  h.sequential.settled (by rcases hmain with hm | hm <;> rw [hm] <;> rfl) k

theorem no_fds (h : Waited t) (hmain : t.main = .cleaning ∨ t.main = .exited) (i : Slot) :
    fdOf t i = none := by
  cases i with
  | client k =>
    have hnone : mainFd t.main k = none :=
      mainFd_none (by rcases hmain with hm | hm <;> rw [hm] <;> rfl) k
    rw [fdOf, hnone]
    rcases h.settled hmain k with hk | hk <;> rw [hk] <;> rfl
  | device k => exact (settled_fds (h.settled hmain k)).1

/-- In every run in which no thread is left without its node: once `clean` is
called the list is empty, and for each client the thread was joined, the blocks
were freed and the socket was closed as often as they were made, which is once
at most. -/
theorem all_accounted (hr : processRun (launched m) actions = .ok (t, os))
    (hadded : ∀ pre a, pre ++ [a] <+: actions →
      NodeAdded (Runs.final processStep (launched m) pre) a)
    (hmain : t.main = .cleaning ∨ t.main = .exited) :
    t.head = [] ∧ ∀ k,
      (os.count (some (.created k)) ≤ 1 ∧
        os.count (some (.joined k)) = os.count (some (.created k))) ∧
      (∀ b, b = .arg k ∨ b = .node k → os.count (some (.made b)) ≤ 1 ∧
        os.count (some (.freed b)) = os.count (some (.made b))) ∧
      (os.count (some (.opened (.client k))) ≤ 1 ∧
        os.countP (closes (.client k)) = os.count (some (.opened (.client k)))) := by
  have h := run_waited hr hadded
  have hbooks := run_booked hr
  have hnil : t.head = [] := by
    rw [h.sequential.head]
    rcases hmain with hm | hm <;> rw [hm] <;> rfl
  refine ⟨hnil, fun k => ⟨?_, ?_, ?_⟩⟩
  · rw [hbooks.created, hbooks.joined, born, wasJoined]
    rcases h.settled hmain k with hk | hk <;> rw [hk] <;> decide
  · have hargs := hbooks.args k
    have hnodes := hbooks.nodes k
    have hheld : argHeld t k = 0 := by
      rw [argHeld]
      rcases h.settled hmain k with hk | hk <;> rcases hmain with hm | hm <;> rw [hk, hm] <;>
        simp [ThreadPhase.running, mainArg]
    rw [hheld, Nat.zero_add] at hargs
    rw [hnil, List.count_nil, Nat.zero_add] at hnodes
    rintro b (rfl | rfl)
    · exact ⟨hbooks.argOnce k, hargs⟩
    · exact ⟨hbooks.nodeOnce k, hnodes⟩
  · have hfiles := hbooks.files (.client k) (given_foreign (.inl rfl))
    have hlookup (d : ℕ) : lookup t.table d ≠ some (.client k) := by
      intro hd
      have hfd := h.custody.held.found d _ _ hd rfl
      rw [no_fds h hmain] at hfd
      cases hfd
    rw [count_eq_zero hlookup, Nat.zero_add] at hfiles
    refine ⟨?_, hfiles⟩
    rw [hbooks.clients, acceptedClient]
    split_ifs <;> decide

/-- Threads which are waited for get the number back when they open the device
again, so only a failing `open` makes them close what is not their own. -/
theorem reopen_kept (hr : processRun (launched m) actions = .ok (t, os))
    (hadded : ∀ pre a, pre ++ [a] <+: actions →
      NodeAdded (Runs.final processStep (launched m) pre) a)
    (hopens : ∀ pre k o, pre ++ [.thread k o] <+: actions →
      closedFd ((Runs.final processStep (launched m) pre).thread k) ≠ none → o ≠ .fails)
    (pre : List Action) (a : Action) (hpre : pre ++ [a] <+: actions) :
    ReopenKept (Runs.final processStep (launched m) pre) a := by
  obtain ⟨post, rfl⟩ := (List.prefix_append pre [a]).trans hpre
  obtain ⟨u, os', _, hu, _, _⟩ := Runs.run_append_inv hr
  have h := run_waited hu fun pre' a' hpre' => hadded pre' a' (hpre'.trans (List.prefix_append _ _))
  rw [Runs.final_eq hu]
  cases a with
  | thread k o =>
    intro f hf
    have hk := hopens pre k o hpre
    rw [Runs.final_eq hu] at hk
    refine ⟨hk (by rw [Option.mem_def.mp hf]; exact nofun), ?_⟩
    cases hphase : u.thread k with
    | reopening c f' =>
      rw [hphase] at hf
      obtain rfl : f' = f := Option.some.inj hf
      exact h.lowest.again k c f' hphase
    | _ =>
      rw [hphase] at hf
      cases hf
  | main ok => trivial
  | signal => trivial

end

def terminate : List Action := [.main true, .signal, .main true, .main true]

def oneClient : List Action :=
  acceptClient true ++ serveData 0 ++ [.main true, .main true] ++ terminate

theorem all_accounted_one_client :
    ∃ t os, processRun (launched fourOpen) oneClient = .ok (t, os) ∧ t.main = .cleaning ∧
      t.head = [] ∧ os.count (some (.joined 0)) = os.count (some (.created 0)) := by
  have hadded : ∀ pre a, pre ++ [a] <+: oneClient →
      NodeAdded (Runs.final processStep (launched fourOpen) pre) a :=
    Runs.forall_step_iff.mpr (by decide +kernel)
  have hlast : (Runs.final processStep (launched fourOpen) oneClient).main = .cleaning := by
    decide +kernel
  obtain ⟨os, hr⟩ := Runs.run_isOk (show (Runs.run processStep (launched fourOpen)
    oneClient).isOk = true by decide +kernel)
  obtain ⟨hnil, hall⟩ := all_accounted hr hadded (.inl hlast)
  exact ⟨_, os, hr, hlast, hnil, (hall 0).1.2⟩

theorem orphaned_thread :
    (processRun (launched fourOpen) (acceptClient false ++ terminate)).toOption.map
        (fun x => (x.1.main, x.1.thread 0, x.2.count (some (.created 0)),
          x.2.count (some (.joined 0)))) =
      some (.cleaning, .opening 4, 1, 0) := by
  decide +kernel

end Aesd.JoinedThreads
