import Aesd.ProcessTallies

/-!
# Who closes which descriptor

A thread remembers the numbers of two descriptors. Between the two openings of
the device it has closed one of them and still closes it at the end, so what it
closes is its own only when the second opening gets the same number.
-/

set_option autoImplicit false

namespace Aesd.DescriptorCustody
open DescriptorTable Aesd.ServerProcess Aesd.ProcessTallies

inductive Slot where
  | client (k : ℕ)
  | device (k : ℕ)
  deriving DecidableEq

def slot : File → Option Slot
  | .own _ => none
  | .client k => some (.client k)
  | .device k _ => some (.device k)

def mainFd (p : MainPhase) (k : ℕ) : Option ℕ :=
  p.client.bind fun x => if x.1 = k then some x.2 else none

def fdOf (s : Process) : Slot → Option ℕ
  | .client k => (s.thread k).clientFd.or (mainFd s.main k)
  | .device k => (s.thread k).fileFd

def Given (k : ℕ) (g : File) : Prop := g = .client k ∨ ∃ r, g = .device k r

theorem given_iff {k : ℕ} {g : File} :
    Given k g ↔ slot g = some (.client k) ∨ slot g = some (.device k) := by
  cases g <;> simp [Given, slot]

theorem given_foreign {k : ℕ} {g : File} (h : Given k g) (n : ℕ) : g ≠ .own n := by
  rintro rfl
  rcases h with heq | ⟨r, heq⟩ <;> cases heq

/-- What is remembered is open, but for a stale number, and the other way round. -/
structure Custody (stale : Slot → Prop) (s : Process) : Prop where
  held : Held slot stale s.table (fdOf s)
  replies : ∀ k c f g, s.thread k = .serving c f g → g = f
  listening : s.main ≠ .exited → ∃ n, lookup s.table s.sockfd = some (.own n)

section
variable {s : Process} {k : ℕ} {p : ThreadPhase} {t : Table File} {m : Option ℕ} {b : Bool}

abbrev moved (s : Process) (k : ℕ) (p : ThreadPhase) (t : Table File) (m : Option ℕ) (b : Bool) :
    Process :=
  { s.go k p with table := t, mutexReadWrite := m, ioctlJustPerformed := b }

theorem moved_thread (j : ℕ) : (moved s k p t m b).thread j = if j = k then p else s.thread j :=
  go_thread s k j p

theorem fdOf_moved_file (hc : p.clientFd = (s.thread k).clientFd) :
    fdOf (moved s k p t m b) = Function.update (fdOf s) (.device k) p.fileFd := by
  funext i
  cases i with
  | client j =>
    rw [Function.update_of_ne (show Slot.client j ≠ .device k from nofun), fdOf, fdOf,
      moved_thread]
    split_ifs with hj
    · rw [hc, hj]
      rfl
    · rfl
  | device j =>
    rw [fdOf, moved_thread, Function.update_apply]
    by_cases hj : j = k
    · rw [if_pos hj, if_pos (by rw [hj])]
    · rw [if_neg hj, if_neg (fun h => hj (by cases h; rfl))]
      rfl

theorem fdOf_moved (hc : p.clientFd = (s.thread k).clientFd)
    (hf : p.fileFd = (s.thread k).fileFd) : fdOf (moved s k p t m b) = fdOf s := by
  rw [fdOf_moved_file hc, hf]
  exact Function.update_eq_self (Slot.device k) (fdOf s)

theorem fdOf_moved_client (hm : mainFd s.main k = none) (hf : p.fileFd = (s.thread k).fileFd) :
    fdOf (moved s k p t m b) = Function.update (fdOf s) (.client k) p.clientFd := by
  funext i
  cases i with
  | client j =>
    rw [fdOf, moved_thread, Function.update_apply]
    by_cases hj : j = k
    · rw [if_pos hj, if_pos (by rw [hj]), hj]
      exact (congrArg _ hm).trans (Option.or_none)
    · rw [if_neg hj, if_neg (fun h => hj (by cases h; rfl))]
      rfl
  | device j =>
    rw [Function.update_of_ne (show Slot.device j ≠ .client k from nofun), fdOf, fdOf,
      moved_thread]
    split_ifs with hj
    · rw [hf, hj]
    · rfl

theorem mainFd_running (hn : Numbered s) (hq : (s.thread k).running = true) :
    mainFd s.main k = none := by
  rw [mainFd, Option.bind_eq_none_iff]
  rintro ⟨j, c⟩ hj
  have hne : j ≠ k := by
    rintro rfl
    rw [hn.handed_idle hj] at hq
    cases hq
  exact if_neg hne

theorem Custody.close_listening {stale : Slot → Prop} (h : Custody stale s)
    (hm : s.main ≠ .exited) {i : Slot} {d : ℕ} (hi : fdOf s i = some d) :
    ∃ n, lookup (close s.table d) s.sockfd = some (.own n) := by
  obtain ⟨n, hn⟩ := h.listening hm
  refine ⟨n, ?_⟩
  have hne : s.sockfd ≠ d := by
    rintro rfl
    rcases h.held.held i _ hi with ⟨g, hg, hslot⟩ | ⟨_, hnone⟩
    · rw [hn] at hg
      obtain rfl := Option.some.inj hg
      cases hslot
    · rw [hn] at hnone
      cases hnone
  rw [lookup_close, if_neg hne, hn]

theorem Custody.install_listening {stale : Slot → Prop} (h : Custody stale s)
    (hm : s.main ≠ .exited) (g : File) :
    ∃ n, lookup (install s.table g) s.sockfd = some (.own n) := by
  obtain ⟨n, hn⟩ := h.listening hm
  refine ⟨n, ?_⟩
  have hne : s.sockfd ≠ lowestFree s.table := by
    intro heq
    rw [heq, lookup_lowestFree] at hn
    cases hn
  rw [lookup_install, if_neg hne, hn]

structure Reopened (stale : Slot → Prop) (s : Process) (k : ℕ) (o : Outcome) : Prop where
  number : ∀ c f, s.thread k = .reopening c f → lowestFree s.table = f
  succeeds : ∀ c f, s.thread k = .reopening c f → o = .fails → stale (.device k)

def Unremembered (stale : Slot → Prop) (s : Process) : Prop :=
  ∀ i, stale i → fdOf s i ≠ some (lowestFree s.table)

theorem Custody.thread {stale : Slot → Prop} {o : Outcome} {e : Option Event} (hn : Numbered s)
    (h : Custody stale s) (hmain : s.main ≠ .exited) (hq : (s.thread k).running = true)
    (hmove : ThreadMove s.table k o (s.thread k) p t e) (hr : Reopens s.table (s.thread k) p)
    (ho : Reopened stale s k o)
    (hfree : (s.thread k).fileFd = none → Unremembered stale s) :
    Custody stale (moved s k p t m b) := by
  have hreplies : ∀ j c f g, (moved s k p t m b).thread j = .serving c f g → g = f := by
    intro j c f g hj
    rw [moved_thread] at hj
    split_ifs at hj with hjk
    · rcases hr.2 c f g hj with rfl | ⟨hre, rfl⟩
      · rfl
      · exact ho.number c f hre
    · exact h.replies j c f g hj
  have hclient := mainFd_running hn hq
  have hfd : fdOf s (.device k) = (s.thread k).fileFd := rfl
  have hcl : fdOf s (.client k) = (s.thread k).clientFd := by rw [fdOf, hclient, Option.or_none]
  generalize hphase : s.thread k = q at hmove hfd hcl
  cases hmove with
  | goes hc hf _ _ =>
    refine ⟨?_, hreplies, h.listening⟩
    rw [fdOf_moved (by rw [hc, hphase]) (by rw [hf, hphase])]
    exact h.held
  | opens hc hf hf' _ _ _ =>
    refine ⟨?_, hreplies, fun _ => h.install_listening hmain _⟩
    rw [fdOf_moved_file (by rw [hc, hphase]), hf']
    exact h.held.installed (hfd.trans hf) rfl (hfree (by rw [hphase, hf]))
  | @reopenFails c f hfails =>
    refine ⟨?_, hreplies, h.listening⟩
    rw [fdOf_moved_file (by rw [hphase]; rfl)]
    refine h.held.remember hfd (ho.succeeds c f hphase hfails) ?_
    rw [← ho.number c f hphase, lookup_lowestFree]
  | @returns c f g =>
    obtain rfl := h.replies k c f g hphase
    refine ⟨?_, hreplies, h.listening⟩
    rw [fdOf_moved (by rw [hphase]; rfl) (by rw [hphase]; rfl)]
    exact h.held
  | closesFile hc hf hf' _ _ =>
    refine ⟨?_, hreplies, fun _ => h.close_listening hmain (hfd.trans hf)⟩
    rw [fdOf_moved_file (by rw [hc, hphase]), hf']
    exact h.held.closed (hfd.trans hf)
  | closesClient =>
    refine ⟨?_, hreplies, fun _ => h.close_listening hmain hcl⟩
    rw [fdOf_moved_client hclient (by rw [hphase]; rfl)]
    exact h.held.closed hcl
  | frees =>
    refine ⟨?_, hreplies, h.listening⟩
    rw [fdOf_moved (by rw [hphase]; rfl) (by rw [hphase]; rfl)]
    exact h.held

def Unmoved (s s' : Process) : Prop :=
  ∀ k, s'.thread k = s.thread k ∨ s.thread k = .finished ∧ s'.thread k = .joined

theorem fdOf_same {s' : Process} (ht : Unmoved s s') (hc : s'.main.client = s.main.client) :
    fdOf s' = fdOf s := by
  funext i
  cases i with
  | client j =>
    rcases ht j with heq | ⟨hf, hj⟩
    · rw [fdOf, fdOf, heq, mainFd, mainFd, hc]
    · rw [fdOf, fdOf, hf, hj, mainFd, mainFd, hc]
      rfl
  | device j =>
    rcases ht j with heq | ⟨hf, hj⟩
    · rw [fdOf, fdOf, heq]
    · rw [fdOf, fdOf, hf, hj]
      rfl

theorem Custody.same {stale : Slot → Prop} {s' : Process} (h : Custody stale s)
    (hmain : s.main ≠ .exited) (ht : Unmoved s s') (hc : s'.main.client = s.main.client)
    (htable : s'.table = s.table) (hsock : s'.sockfd = s.sockfd) : Custody stale s' where
  held := by
    rw [htable, fdOf_same ht hc]
    exact h.held
  replies k c f g hk := by
    rcases ht k with heq | ⟨_, hj⟩
    · exact h.replies k c f g (by rw [← heq, hk])
    · rw [hj] at hk
      cases hk
  listening _ := by
    rw [htable, hsock]
    exact h.listening hmain

theorem mainFd_client {p : MainPhase} {c : ℕ} (hp : p.client = some (k, c)) (j : ℕ) :
    mainFd p j = if j = k then some c else none := by
  rw [mainFd, hp, Option.bind_some]
  exact if_congr eq_comm rfl rfl

theorem mainFd_none {p : MainPhase} (hp : p.client = none) (j : ℕ) : mainFd p j = none := by
  rw [mainFd, hp, Option.bind_none]

theorem fdOf_changed {s' : Process} {x : Option ℕ} (ht : s'.thread = s.thread)
    (hk : (s.thread k).clientFd = none)
    (hx : ∀ j, mainFd s'.main j = if j = k then x else mainFd s.main j) :
    fdOf s' = Function.update (fdOf s) (.client k) x := by
  funext i
  cases i with
  | client j =>
    rw [fdOf, ht, hx, Function.update_apply]
    by_cases hj : j = k
    · rw [if_pos hj, if_pos (by rw [hj]), hj, hk, Option.none_or]
    · rw [if_neg hj, if_neg (fun h => hj (by cases h; rfl))]
      rfl
  | device j =>
    rw [Function.update_of_ne (show Slot.device j ≠ .client k from nofun), fdOf, fdOf, ht]

theorem idle_clientFd (hn : Numbered s) {c : ℕ} (hm : s.main.client = some (k, c)) :
    (s.thread k).clientFd = none := by
  rw [(hn.handed k c hm).2]
  rfl

theorem Custody.changed {stale : Slot → Prop} {s' : Process} (h : Custody stale s) {x : Option ℕ}
    (ht : s'.thread = s.thread) (hk : (s.thread k).clientFd = none)
    (hx : ∀ j, mainFd s'.main j = if j = k then x else mainFd s.main j)
    (hheld : Held slot stale s'.table (Function.update (fdOf s) (.client k) x))
    (hsock : ∃ n, lookup s'.table s'.sockfd = some (.own n)) : Custody stale s' where
  held := by rwa [fdOf_changed ht hk hx]
  replies j c f g hj := h.replies j c f g (by rw [← ht, hj])
  listening _ := hsock

theorem Custody.accepts {stale : Slot → Prop} (hn : Numbered s) (h : Custody stale s)
    (hm : s.main = .accepting) (hfree : Unremembered stale s) :
    Custody stale { s with table := install s.table (.client s.clients), clients := s.clients+1,
                           main := .accepted s.clients (lowestFree s.table) } := by
  have hidle : (s.thread s.clients).clientFd = none := by
    rw [hn.fresh _ (Nat.le_refl _)]
    rfl
  have hnone (j : ℕ) : mainFd s.main j = none := mainFd_none (by rw [hm]; rfl) j
  have hfd : fdOf s (.client s.clients) = none := by
    rw [fdOf, hidle, hnone]
    rfl
  refine h.changed rfl hidle (fun j => ?_) (h.held.installed hfd (b := .client s.clients) rfl hfree)
    (h.install_listening (by rw [hm]; exact nofun) _)
  rw [hnone]
  exact mainFd_client rfl j

theorem Custody.closes {stale : Slot → Prop} (hn : Numbered s) (h : Custody stale s) {c : ℕ}
    (hm : s.main = .refused k c) :
    Custody stale { s with table := close s.table c, main := .looping } := by
  have hclient : s.main.client = some (k, c) := by
    rw [hm]
    rfl
  have hidle := idle_clientFd hn hclient
  have hfd : fdOf s (.client k) = some c := by
    rw [fdOf, hidle, mainFd_client hclient, if_pos rfl]
    rfl
  refine h.changed rfl hidle (fun j => ?_) (h.held.closed hfd)
    (h.close_listening (by rw [hm]; exact nofun) hfd)
  rw [mainFd_client hclient, mainFd_none rfl]
  split_ifs <;> rfl

theorem Custody.creates {stale : Slot → Prop} (hn : Numbered s) (h : Custody stale s) {c : ℕ}
    (hm : s.main = .creating k c) :
    Custody stale { s.go k (.opening c) with main := .adding k } := by
  have hclient : s.main.client = some (k, c) := by
    rw [hm]
    rfl
  have hk : s.thread k = .unborn := (hn.handed k c hclient).2
  have hadding (j : ℕ) : mainFd (.adding k) j = none := rfl
  have hfds : fdOf { s.go k (.opening c) with main := .adding k } = fdOf s := by
    funext i
    cases i with
    | client j =>
      by_cases hj : j = k
      · subst hj
        simp [fdOf, hk, mainFd_client hclient, ThreadPhase.clientFd]
      · simp [fdOf, go_other s _ hj, mainFd_client hclient, hadding, hj]
    | device j =>
      by_cases hj : j = k
      · subst hj
        simp [fdOf, hk, ThreadPhase.fileFd]
      · simp [fdOf, go_other s _ hj]
  refine ⟨?_, fun j c' f g hj => ?_, fun _ => h.listening (by rw [hm]; exact nofun)⟩
  · rw [hfds]
    exact h.held
  · have hj : (s.go k (.opening c)).thread j = .serving c' f g := hj
    rw [go_thread] at hj
    split_ifs at hj
    exact h.replies j c' f g hj

theorem Custody.cleans {stale : Slot → Prop} (h : Custody stale s) (hm : s.main = .cleaning) :
    Custody stale { s with table := close s.table s.sockfd, main := .exited } := by
  obtain ⟨n, hn⟩ := h.listening (by rw [hm]; exact nofun)
  have hfds : fdOf { s with table := close s.table s.sockfd, main := .exited } = fdOf s :=
    fdOf_same (fun _ => .inl rfl) (by rw [hm]; rfl)
  refine ⟨?_, h.replies, fun hne => absurd rfl hne⟩
  rw [hfds]
  exact h.held.closed_unowned hn rfl

theorem unmoved_joins (hk : s.thread k = .finished) (p : MainPhase) :
    Unmoved s { s.go k .joined with main := p } := by
  intro j
  by_cases hj : j = k
  · subst hj
    exact .inr ⟨hk, go_same s j .joined⟩
  · exact .inl (go_other s .joined hj)

theorem Custody.main {stale : Slot → Prop} {s' : Process} {ok : Bool} {e : Option Event}
    (hn : Numbered s) (h : Custody stale s) (hmain : s.main ≠ .exited) (hm : MainMove s ok s' e)
    (hfree : s.main = .accepting → Unremembered stale s) : Custody stale s' := by
  cases hm with
  | tests p hm hp | walked p hm hp =>
    exact h.same hmain (fun _ => .inl rfl) (by rcases hp with rfl | rfl <;> rw [hm] <;> rfl)
      rfl rfl
  | accepts hm => exact h.accepts hn hm (hfree hm)
  | creates hm => exact h.creates hn hm
  | closes hm => exact h.closes hn hm
  | joins hm hk => exact h.same hmain (unmoved_joins hk _) (by rw [hm]; rfl) rfl rfl
  | cleans hm => exact h.cleans hm
  | acceptFails hm | allocates hm | mallocFails hm | createFails hm | frees hm | adds hm
  | addFails hm hok | joinFails hm hk | unlinks hm =>
    exact h.same hmain (fun _ => .inl rfl) (by rw [hm]; rfl) rfl rfl

/-- What a step must respect: how the device is opened again, and that a stale
number is not given away. -/
structure Respects (stale : Slot → Prop) (s : Process) (a : Action) : Prop where
  reopened : ∀ k o, a = .thread k o → Reopened stale s k o
  accepting : ∀ ok, a = .main ok → s.main = .accepting → Unremembered stale s
  opening : ∀ k o, a = .thread k o → (s.thread k).fileFd = none → Unremembered stale s

theorem Custody.step {stale : Slot → Prop} {s' : Process} {a : Action} {e : Option Event}
    (hn : Numbered s) (h : Custody stale s) (hmain : s.main ≠ .exited)
    (hm : ProcessMove s a s' e) (hres : Respects stale s a) : Custody stale s' := by
  cases hm with
  | main hm => exact h.main hn hmain hm (hres.accepting _ rfl)
  | thread m b hq hmove hr =>
    exact h.thread hn hmain hq hmove hr (hres.reopened _ _ rfl) (hres.opening _ _ rfl)
  | signal => exact ⟨h.held, h.replies, h.listening⟩

end

theorem custody_launched (stale : Slot → Prop) (m : Startup) : Custody stale (launched m) where
  held := by
    constructor
    · intro d g i hd hi
      rw [launched, lookup_map, Option.map_eq_some_iff] at hd
      obtain ⟨n, _, rfl⟩ := hd
      cases hi
    · intro i d hi
      cases i <;> cases hi
  replies := nofun
  listening _ := by
    obtain ⟨n, hn⟩ := Option.ne_none_iff_exists'.mp m.listening
    exact ⟨n, by rw [launched, lookup_map, hn]; rfl⟩

end Aesd.DescriptorCustody
