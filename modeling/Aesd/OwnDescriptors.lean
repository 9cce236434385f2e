import Aesd.DescriptorCustody

/-!
# Threads which close their own descriptors

When the device is opened again under the number closed just before, a thread
closes what it has opened or was given, and nothing else.
-/

set_option autoImplicit false

namespace Aesd.OwnDescriptors
open DescriptorTable Aesd.ServerProcess Aesd.ProcessTallies Aesd.DescriptorCustody

def closedFd : ThreadPhase → Option ℕ
  | .reopening _ f => some f
  | _ => none

/-- The second opening of the device succeeds with the number closed before. -/
def ReopenKept (s : Process) : Action → Prop
  | .thread k o => ∀ f ∈ closedFd (s.thread k), o ≠ .fails ∧ lowestFree s.table = f
  | _ => True

instance (s : Process) : (a : Action) → Decidable (ReopenKept s a)
  | .thread k o => inferInstanceAs
    (Decidable (∀ f ∈ closedFd (s.thread k), o ≠ .fails ∧ lowestFree s.table = f))
  | .main _ => .isTrue trivial
  | .signal => .isTrue trivial

abbrev noneStale : Slot → Prop := fun _ => False

theorem ReopenKept.respects {s : Process} {a : Action} (h : ReopenKept s a) :
    Respects noneStale s a where
  reopened k o ha := by
    subst ha
    have hkept (c f : ℕ) (hk : s.thread k = .reopening c f) :
        o ≠ .fails ∧ lowestFree s.table = f := h f (by rw [hk]; rfl)
    exact ⟨fun c f hk => (hkept c f hk).2, fun c f hk ho => (hkept c f hk).1 ho⟩
  accepting _ _ _ := nofun
  opening _ _ _ _ := nofun

def GivenUp (s : Process) (k : ℕ) : Prop :=
  s.thread k = .unborn ∧ k < s.clients ∧ ∀ c, s.main.client ≠ some (k, c)

section
variable {s s' : Process} {a : Action} {e : Option Event}

theorem GivenUp.step {k : ℕ} (h : GivenUp s k) (hm : ProcessMove s a s' e) : GivenUp s' k := by
  obtain ⟨hborn, hlt, hclient⟩ := h
  cases hm with
  | main hm =>
    cases hm with
    | tests p hm hp | walked p hm hp =>
      exact ⟨hborn, hlt, by rcases hp with rfl | rfl <;> exact fun _ => nofun⟩
    | accepts hm =>
      refine ⟨hborn, Nat.lt_succ_of_lt hlt, fun c heq => ?_⟩
      cases heq
      exact Nat.lt_irrefl _ hlt
    | @creates j c hm =>
      have hne : k ≠ j := by
        rintro rfl
        exact hclient c (by rw [hm]; rfl)
      exact ⟨(go_other s _ hne).trans hborn, hlt, fun _ => nofun⟩
    | @joins last j next hm hj =>
      have hne : k ≠ j := by
        rintro rfl
        rw [hj] at hborn
        cases hborn
      exact ⟨(go_other s _ hne).trans hborn, hlt, fun _ => nofun⟩
    | allocates hm | mallocFails hm | createFails hm | frees hm =>
      exact ⟨hborn, hlt, fun c heq => hclient c (by rw [hm, ← heq]; rfl)⟩
    | _ => exact ⟨hborn, hlt, fun _ => nofun⟩
  | @thread j o p t e m b hq hmove hr =>
    have hne : k ≠ j := by
      rintro rfl
      rw [hborn] at hq
      cases hq
    exact ⟨(go_other s p hne).trans hborn, hlt, hclient⟩
  | signal => exact ⟨hborn, hlt, hclient⟩

structure Closes (s : Process) (os : List (Option Event)) : Prop where
  threads : ∀ k hit, some (.closed (.thread k) hit) ∈ os → ∃ g, hit = some g ∧ Given k g
  main : ∀ g k, some (.closed .main (some g)) ∈ os → Given k g → GivenUp s k

theorem held_hit (h : Custody noneStale s) {i : Slot} {d : ℕ} (hi : fdOf s i = some d) :
    ∃ g, lookup s.table d = some g ∧ slot g = some i := by
  rcases h.held.held i d hi with hit | ⟨hstale, _⟩
  · exact hit
  · cases hstale

theorem thread_hits (hn : Numbered s) (h : Custody noneStale s) (hm : ProcessMove s a s' e)
    {k : ℕ} {hit : Option File} (he : e = some (.closed (.thread k) hit)) :
    ∃ g, hit = some g ∧ Given k g := by
  cases hm with
  | main hm => cases hm <;> cases he
  | @thread j o p t e m b hq hmove hr =>
    have hcl : fdOf s (.client j) = (s.thread j).clientFd := by
      rw [fdOf, mainFd_running hn hq, Option.or_none]
    generalize hphase : s.thread j = q at hmove hcl
    cases hmove with
    | closesFile _ hf _ _ _ =>
      cases he
      have hfd : fdOf s (.device k) = _ := (congrArg ThreadPhase.fileFd hphase).trans hf
      obtain ⟨g, hg, hslot⟩ := held_hit h hfd
      exact ⟨g, hg, given_iff.mpr (.inr hslot)⟩
    | closesClient =>
      cases he
      obtain ⟨g, hg, hslot⟩ := held_hit h hcl
      exact ⟨g, hg, given_iff.mpr (.inl hslot)⟩
    | _ => cases he
  | signal => cases he

theorem main_hits (hn : Numbered s) (h : Custody noneStale s) (hm : ProcessMove s a s' e)
    (hmain : s.main ≠ .exited) {k : ℕ} {g : File} (he : e = some (.closed .main (some g)))
    (hg : Given k g) : GivenUp s' k := by
  cases hm with
  | main hm =>
    cases hm with
    | @closes j c hm =>
      have hclient : s.main.client = some (j, c) := by
        rw [hm]
        rfl
      have hfd : fdOf s (.client j) = some c := by
        rw [fdOf, idle_clientFd hn hclient, mainFd_client hclient, if_pos rfl]
        rfl
      obtain ⟨g', hg', hslot⟩ := held_hit h hfd
      rw [hg'] at he
      obtain rfl : g' = g := by cases he; rfl
      have hk : k = j := by
        rcases given_iff.mp hg with hs | hs <;> rw [hs] at hslot <;> cases hslot
        rfl
      obtain ⟨hlt, hborn⟩ := hn.handed j c hclient
      subst hk
      exact ⟨hborn, by change k < s.clients; omega, by rintro _ ⟨⟩⟩
    | cleans hm =>
      obtain ⟨n, hsock⟩ := h.listening hmain
      rw [hsock] at he
      cases he
      rcases given_iff.mp hg with hs | hs <;> cases hs
    | _ => cases he
  | @thread j o p t e m b hq hmove hr =>
    generalize s.thread j = q at hmove
    cases hmove <;> cases he
  | signal => cases he

theorem Closes.step {os : List (Option Event)} (hn : Numbered s) (h : Custody noneStale s)
    (hc : Closes s os) (hmain : s.main ≠ .exited) (hm : ProcessMove s a s' e) :
    Closes s' (os ++ [e]) where
  threads k hit hmem := by
    rcases List.mem_append.mp hmem with hmem | hmem
    · exact hc.threads k hit hmem
    · exact thread_hits hn h hm (List.mem_singleton.mp hmem).symm
  main g k hmem hg := by
    rcases List.mem_append.mp hmem with hmem | hmem
    · exact (hc.main g k hmem hg).step hm
    · exact main_hits hn h hm hmain (List.mem_singleton.mp hmem).symm hg

end

section
variable {m : Startup} {actions : List Action} {t : Process} {os : List (Option Event)}

theorem run_custody (hr : processRun (launched m) actions = .ok (t, os))
    (hkept : ∀ pre a, pre ++ [a] <+: actions →
      ReopenKept (Runs.final processStep (launched m) pre) a) :
    Custody noneStale t ∧ Closes t os := by
  have hrun := Runs.run_guarded
    (fun s os => Numbered s ∧ Custody noneStale s ∧ Closes s os) ReopenKept ?_
    ⟨numbered_launched m, custody_launched _ m, ⟨nofun, nofun⟩⟩ hr hkept
  · exact hrun.2
  · rintro s os a s' e ⟨hn, h, hc⟩ hkeep hstep
    obtain ⟨hmain, hm⟩ := processStep_moves hstep
    exact ⟨hn.step hm, h.step hn hmain hm hkeep.respects, hc.step hn h hmain hm⟩

theorem given_unique {j k : ℕ} {g : File} (hk : Given k g) (hj : Given j g) : k = j := by
  rcases hk with rfl | ⟨r, rfl⟩ <;> rcases hj with heq | ⟨r', heq⟩ <;> cases heq <;> rfl

def Ended (p : ThreadPhase) : Prop := p = .finished ∨ p = .joined

theorem Ended.born {p : ThreadPhase} (h : Ended p) : p ≠ .unborn := by
  rintro rfl
  rcases h with heq | heq <;> cases heq

theorem Ended.fds {s : Process} (hn : Numbered s) {k : ℕ} (h : Ended (s.thread k)) :
    fdOf s (.client k) = none ∧ fdOf s (.device k) = none := by
  have hmain : mainFd s.main k = none := by
    rw [mainFd, Option.bind_eq_none_iff]
    rintro ⟨j, c⟩ hj
    have hne : j ≠ k := by
      rintro rfl
      exact h.born (hn.handed j c hj).2
    exact if_neg hne
  rw [fdOf, fdOf, hmain]
  rcases h with hk | hk <;> rw [hk] <;> exact ⟨rfl, rfl⟩

theorem own_closes (hc : Closes t os) {k : ℕ} (hborn : t.thread k ≠ .unborn) {g : File}
    (hg : Given k g) :
    os.count (some (.closed (.thread k) (some g))) = os.countP (closes g) := by
  rw [List.count]
  refine List.countP_congr fun e he => ?_
  rw [beq_iff_eq]
  constructor
  · rintro rfl
    simp [closes]
  · intro hcl
    rcases e with _ | ev
    · cases hcl
    cases ev with
    | closed owner hit =>
      obtain rfl : hit = some g := of_decide_eq_true hcl
      cases owner with
      | main => exact absurd (hc.main g k he hg).1 hborn
      | thread j =>
        obtain ⟨g', hg', hj⟩ := hc.threads j _ he
        obtain rfl := Option.some.inj hg'
        rw [given_unique hg hj]
    | _ => cases hcl

theorem ended_closed (hr : processRun (launched m) actions = .ok (t, os))
    (h : Custody noneStale t) (hc : Closes t os) {k : ℕ} (hk : Ended (t.thread k)) {g : File}
    (hg : Given k g) :
    (∀ d, lookup t.table d ≠ some g) ∧
      os.count (some (.closed (.thread k) (some g))) = os.count (some (.opened g)) := by
  have hbooks := run_booked hr
  have hlookup (d : ℕ) : lookup t.table d ≠ some g := by
    intro hd
    obtain ⟨hclient, hdevice⟩ := hk.fds hbooks.numbered
    rcases given_iff.mp hg with hslot | hslot <;> have hfd := h.held.found d g _ hd hslot
    · rw [hclient] at hfd
      cases hfd
    · rw [hdevice] at hfd
      cases hfd
  have hfiles := hbooks.files g (given_foreign hg)
  rw [count_eq_zero hlookup, Nat.zero_add] at hfiles
  exact ⟨hlookup, (own_closes hc hk.born hg).trans hfiles⟩

/-- In every run of any number of threads whose second openings get the number
closed before: what a thread closes is its own, nothing is closed more often
than it was opened, and a thread which has returned has closed all it had. -/
theorem own_descriptors (hr : processRun (launched m) actions = .ok (t, os))
    (hkept : ∀ pre a, pre ++ [a] <+: actions →
      ReopenKept (Runs.final processStep (launched m) pre) a) :
    (∀ k hit, some (.closed (.thread k) hit) ∈ os → ∃ g, hit = some g ∧ Given k g) ∧
    (∀ k g, Given k g → os.count (some (.opened g)) ≤ 1 ∧
      os.count (some (.closed (.thread k) (some g))) ≤ os.count (some (.opened g))) ∧
    ∀ k, Ended (t.thread k) →
      os.count (some (.closed (.thread k) (some (.client k)))) = 1 ∧
      ∀ g, Given k g → (∀ d, lookup t.table d ≠ some g) ∧
        os.count (some (.closed (.thread k) (some g))) = os.count (some (.opened g)) := by
  obtain ⟨h, hc⟩ := run_custody hr hkept
  have hbooks := run_booked hr
  refine ⟨hc.threads, fun k g hg => ⟨?_, ?_⟩, fun k hk => ⟨?_, fun g hg => ?_⟩⟩
  · rcases hg with rfl | ⟨r, rfl⟩
    · rw [hbooks.clients, acceptedClient]
      split_ifs <;> decide
    · exact hbooks.devices k r
  · have hfiles := hbooks.files g (given_foreign hg)
    have hle : os.count (some (.closed (.thread k) (some g))) ≤ os.countP (closes g) := by
      refine List.countP_mono_left fun e _ he => ?_
      rw [eq_of_beq he]
      simp [closes]
    omega
  · have hlt : k < t.clients := by
      by_contra hle
      have hborn := hbooks.numbered.fresh k (Nat.not_lt.mp hle)
      rcases hk with hk | hk <;> rw [hk] at hborn <;> cases hborn
    rw [(ended_closed hr h hc hk (.inl rfl)).2, hbooks.clients, acceptedClient, if_pos hlt]
  · exact ended_closed hr h hc hk hg

end

def fourOpen : Startup := ⟨[some 0, some 1, some 2, some 3], 3, by decide⟩

def acceptClient (nodeAdded : Bool) : List Action :=
  [.main true, .main true, .main true, .main true, .main nodeAdded]

def serveData (k : ℕ) : List Action := List.replicate 9 (.thread k .succeeds)

theorem own_descriptors_one_client :
    ∃ t os, processRun (launched fourOpen) (acceptClient true ++ serveData 0) = .ok (t, os) ∧
      os.count (some (.closed (.thread 0) (some (.client 0)))) = 1 ∧
      (∀ d, lookup t.table d ≠ some (.device 0 1)) ∧
      os.count (some (.closed (.thread 0) (some (.device 0 1)))) =
        os.count (some (.opened (.device 0 1))) := by
  have hkept : ∀ pre a, pre ++ [a] <+: acceptClient true ++ serveData 0 →
      ReopenKept (Runs.final processStep (launched fourOpen) pre) a :=
    Runs.forall_step_iff.mpr (by decide +kernel)
  have hlast : (Runs.final processStep (launched fourOpen)
      (acceptClient true ++ serveData 0)).thread 0 = .finished := by decide +kernel
  obtain ⟨os, hr⟩ := Runs.run_isOk (show (Runs.run processStep (launched fourOpen)
    (acceptClient true ++ serveData 0)).isOk = true by decide +kernel)
  obtain ⟨_, _, hended⟩ := own_descriptors hr hkept
  obtain ⟨hclient, hall⟩ := hended 0 (.inl hlast)
  exact ⟨_, os, hr, hclient, hall _ (.inr ⟨1, rfl⟩)⟩

/-- Thread 0 is not waited for, so `main` accepts another client between the
close of the device and its second opening. -/
def slippedAccept : List Action :=
  acceptClient false ++ [.main true] ++ List.replicate 4 (.thread 0 .succeeds) ++
  [.main true, .main true] ++ List.replicate 3 (.thread 0 .succeeds)

/-- The last step of thread 0 closes the client which `main` has just accepted. -/
theorem foreign_descriptor_closed :
    (processRun (launched fourOpen) slippedAccept).toOption.map
        (fun x => (x.2.getLast?, x.1.main.client)) =
      some (some (some (.closed (.thread 0) (some (.client 1)))), some (1, 5)) := by
  decide +kernel

end Aesd.OwnDescriptors
