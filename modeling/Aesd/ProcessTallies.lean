import Aesd.ServerProcess

/-!
# The books of the process

In every run, whatever fails in it, the state tells how often a thread was
created and joined, which blocks are still to be freed and which files are
still open.
-/

set_option autoImplicit false

namespace Aesd.ProcessTallies
open DescriptorTable Aesd.ServerProcess

structure Numbered (s : Process) : Prop where
  fresh : ∀ j, s.clients ≤ j → s.thread j = .unborn
  handed : ∀ k c, s.main.client = some (k, c) → k+1 = s.clients ∧ s.thread k = .unborn
  added : ∀ k, s.main = .adding k → s.thread k ≠ .unborn
  listed : s.main.listed.Sublist s.head

theorem numbered_launched (m : Startup) : Numbered (launched m) :=
  ⟨fun _ _ => rfl, nofun, nofun, List.nil_sublist _⟩

theorem Numbered.goesOn {s s' : Process} (h : Numbered s) (ht : s'.thread = s.thread)
    (hc : s'.clients = s.clients) (hclient : ∀ x, s'.main.client = some x → s.main.client = some x)
    (hadded : ∀ k, s'.main ≠ .adding k) (hlisted : s'.main.listed.Sublist s'.head) :
    Numbered s' where
  fresh j hj := by
    rw [ht]
    exact h.fresh j (by rwa [← hc])
  handed k c hk := by
    rw [ht, hc]
    exact h.handed k c (hclient _ hk)
  added k hk := absurd hk (hadded k)
  listed := hlisted

theorem Numbered.main {s s' : Process} {ok : Bool} {e : Option Event} (h : Numbered s)
    (hm : MainMove s ok s' e) : Numbered s' := by
  cases hm with
  | tests p hm hp =>
    rcases hp with rfl | rfl
    · exact h.goesOn rfl rfl nofun nofun (List.nil_sublist _)
    · exact h.goesOn rfl rfl nofun nofun (List.Sublist.refl _)
  | accepts hm =>
    refine ⟨fun j hj => h.fresh j (Nat.le_of_succ_le hj), ?_, nofun, List.nil_sublist _⟩
    rintro _ _ ⟨⟩
    exact ⟨rfl, h.fresh _ (Nat.le_refl _)⟩
  | @creates k c hm =>
    have hk := h.handed k c (by rw [hm]; rfl)
    refine ⟨fun j hj => ?_, nofun, ?_, List.nil_sublist _⟩
    · have hj : s.clients ≤ j := hj
      exact (go_other s _ (by omega)).trans (h.fresh j hj)
    · rintro _ ⟨⟩
      simp
  | allocates hm | mallocFails hm | createFails hm | frees hm =>
    refine h.goesOn rfl rfl (fun x hx => ?_) nofun (List.nil_sublist _)
    rw [hm]
    exact hx
  | acceptFails hm | closes hm | cleans hm =>
    exact h.goesOn rfl rfl nofun nofun (List.nil_sublist _)
  | adds hm | addFails hm hok => exact h.goesOn rfl rfl nofun nofun (List.Sublist.refl _)
  | walked p hm hp =>
    rcases hp with rfl | rfl <;> exact h.goesOn rfl rfl nofun nofun (List.nil_sublist _)
  | @joins last k next hm hk =>
    have hlisted := h.listed
    rw [hm] at hlisted
    refine ⟨fun j hj => ?_, nofun, nofun, hlisted⟩
    have hunborn : s.thread j = .unborn := h.fresh j hj
    have hne : j ≠ k := by
      rintro rfl
      rw [hk] at hunborn
      cases hunborn
    exact (go_other s _ hne).trans hunborn
  | joinFails hm hk =>
    have hlisted := h.listed
    rw [hm] at hlisted
    exact h.goesOn rfl rfl nofun nofun ((List.sublist_cons_self _ _).trans hlisted)
  | @unlinks last k next hm =>
    have hlisted := h.listed.erase k
    rw [hm, MainPhase.listed, List.erase_cons_head] at hlisted
    exact h.goesOn rfl rfl nofun nofun hlisted

theorem running_born {p : ThreadPhase} (h : p.running = true) : p ≠ .unborn ∧ p ≠ .joined := by
  constructor <;> rintro rfl <;> exact Bool.false_ne_true h

theorem move_born {table t : Table File} {k : ℕ} {o : Outcome} {q p : ThreadPhase}
    {e : Option Event} (h : ThreadMove table k o q p t e) : p ≠ .unborn ∧ p ≠ .joined := by
  cases h with
  | goes _ _ _ hp | opens _ _ _ _ _ hp | closesFile _ _ _ _ hp => exact running_born hp
  | reopenFails _ | returns | closesClient => exact running_born rfl
  | frees => exact ⟨nofun, nofun⟩

theorem Numbered.step {s s' : Process} {a : Action} {e : Option Event} (h : Numbered s)
    (hm : ProcessMove s a s' e) : Numbered s' := by
  cases hm with
  | main hm => exact h.main hm
  | @thread k o p t e m b hq hmove hr =>
    have hother (j : ℕ) (hj : s.thread j = .unborn) : (s.go k p).thread j = .unborn := by
      have hne : j ≠ k := by
        rintro rfl
        rw [hj] at hq
        cases hq
      exact (go_other s p hne).trans hj
    refine ⟨fun j hj => hother j (h.fresh j hj), fun j c hj => ?_, fun j hj => ?_, h.listed⟩
    · obtain ⟨hc, hunborn⟩ := h.handed j c hj
      exact ⟨hc, hother j hunborn⟩
    · change (s.go k p).thread j ≠ .unborn
      rw [go_thread]
      split_ifs
      · exact (move_born hmove).1
      · exact h.added j hj
  | signal => exact ⟨h.fresh, h.handed, h.added, h.listed⟩

inductive ThreadEffect (k : ℕ) : ThreadPhase → ThreadPhase → Option Event → Prop where
  | same {p : ThreadPhase} {e : Option Event} (hc : e ≠ some (.created k))
      (hj : e ≠ some (.joined k)) : ThreadEffect k p p e
  | created (c : ℕ) : ThreadEffect k .unborn (.opening c) (some (.created k))
  | joined : ThreadEffect k .finished .joined (some (.joined k))
  | goesOn {q p : ThreadPhase} {e : Option Event} (hq : q.running = true)
      (hp : p ≠ .unborn ∧ p ≠ .joined) (hc : e ≠ some (.created k))
      (hj : e ≠ some (.joined k)) : ThreadEffect k q p e

theorem move_event {table t : Table File} {k : ℕ} {o : Outcome} {q p : ThreadPhase}
    {e : Option Event} (h : ThreadMove table k o q p t e) (j : ℕ) :
    e ≠ some (.created j) ∧ e ≠ some (.joined j) := by
  cases h <;> exact ⟨nofun, nofun⟩

def does (x : Event) (e : Option Event) : Bool := decide (e = some x)

theorem does_ne {x : Event} {e : Option Event} (h : e ≠ some x) : (does x e).toNat = 0 := by
  rw [does, decide_eq_false h]
  rfl

theorem does_self (x : Event) : (does x (some x)).toNat = 1 := by
  rw [does, decide_eq_true rfl]
  rfl

theorem countP_does (x : Event) (os : List (Option Event)) :
    os.countP (does x) = os.count (some x) := by
  rw [List.count]
  exact List.countP_congr fun e _ => by simp [does]

section
variable {s s' : Process} {a : Action} {e : Option Event}

theorem Numbered.effect (h : Numbered s) (hm : ProcessMove s a s' e) (k : ℕ) :
    ThreadEffect k (s.thread k) (s'.thread k) e := by
  cases hm with
  | main hm =>
    cases hm with
    | @creates j c hm =>
      have hj := (h.handed j c (by rw [hm]; rfl)).2
      by_cases hkj : k = j
      · subst hkj
        change ThreadEffect k _ ((s.go k (.opening c)).thread k) _
        rw [hj, go_same]
        exact .created c
      · change ThreadEffect k _ ((s.go j (.opening c)).thread k) _
        rw [go_other s _ hkj]
        exact .same (fun heq => hkj (by cases heq; rfl)) nofun
    | @joins last j next hm hj =>
      by_cases hkj : k = j
      · subst hkj
        change ThreadEffect k _ ((s.go k .joined).thread k) _
        rw [hj, go_same]
        exact .joined
      · change ThreadEffect k _ ((s.go j .joined).thread k) _
        rw [go_other s _ hkj]
        exact .same nofun (fun heq => hkj (by cases heq; rfl))
    | _ => exact .same nofun nofun
  | @thread j o p t e m b hq hmove hr =>
    obtain ⟨hc, hj⟩ := move_event hmove k
    change ThreadEffect k _ ((s.go j p).thread k) _
    by_cases hkj : k = j
    · subst hkj
      rw [go_same]
      exact .goesOn hq (move_born hmove) hc hj
    · rw [go_other s _ hkj]
      exact .same hc hj
  | signal => exact .same nofun nofun

def born (s : Process) (k : ℕ) : ℕ := if s.thread k = .unborn then 0 else 1

def wasJoined (s : Process) (k : ℕ) : ℕ := if s.thread k = .joined then 1 else 0

theorem created_step (h : Numbered s) (hm : ProcessMove s a s' e) (k : ℕ) :
    born s' k = born s k+(does (.created k) e).toNat := by
  have heffect := h.effect hm k
  unfold born
  generalize s.thread k = q at heffect ⊢
  generalize s'.thread k = p at heffect ⊢
  cases heffect with
  | same hc _ => rw [does_ne hc, Nat.add_zero]
  | created c => rw [does_self]; rfl
  | joined => rw [does_ne (by simp)]; rfl
  | goesOn hq hp hc _ => rw [does_ne hc, if_neg hp.1, if_neg (running_born hq).1]

theorem joined_step (h : Numbered s) (hm : ProcessMove s a s' e) (k : ℕ) :
    wasJoined s' k = wasJoined s k+(does (.joined k) e).toNat := by
  have heffect := h.effect hm k
  unfold wasJoined
  generalize s.thread k = q at heffect ⊢
  generalize s'.thread k = p at heffect ⊢
  cases heffect with
  | same _ hj => rw [does_ne hj, Nat.add_zero]
  | created c => rw [does_ne (by simp)]; rfl
  | joined => rw [does_self]; rfl
  | goesOn hq hp _ hj => rw [does_ne hj, if_neg hp.2, if_neg (running_born hq).2]

def mainArg : MainPhase → Option ℕ
  | .creating k _ => some k
  | .freeing k _ => some k
  | _ => none

def argHeld (s : Process) (k : ℕ) : ℕ :=
  if (s.thread k).running = true ∨ mainArg s.main = some k then 1 else 0

theorem Numbered.handed_idle (h : Numbered s) {k c : ℕ} (hm : s.main.client = some (k, c)) :
    (s.thread k).running = false := by
  rw [(h.handed k c hm).2]
  rfl

theorem arg_main {ok : Bool} (h : Numbered s) (hm : MainMove s ok s' e) (k : ℕ) :
    argHeld s' k+(does (.freed (.arg k)) e).toNat =
      argHeld s k+(does (.made (.arg k)) e).toNat := by
  unfold argHeld
  cases hm with
  | @allocates j c hm =>
    have hj := h.handed_idle (k := j) (c := c) (by rw [hm]; rfl)
    by_cases hkj : j = k
    · subst hkj
      simp [hm, hj, mainArg, does]
    · simp [hm, mainArg, does, hkj]
  | @creates j c hm =>
    have hj := h.handed_idle (k := j) (c := c) (by rw [hm]; rfl)
    by_cases hkj : k = j
    · subst hkj
      simp [hm, mainArg, does, ThreadPhase.running]
    · simp [hm, mainArg, does, go_other s _ hkj, Ne.symm hkj]
  | @frees j c hm =>
    have hj := h.handed_idle (k := j) (c := c) (by rw [hm]; rfl)
    by_cases hkj : j = k
    · subst hkj
      simp [hm, hj, mainArg, does]
    · simp [hm, mainArg, does, hkj]
  | @joins last j next hm hj =>
    by_cases hkj : k = j
    · subst hkj
      simp [hm, hj, mainArg, does, ThreadPhase.running]
    · simp [hm, mainArg, does, go_other s _ hkj]
  | tests p hm hp => rcases hp with rfl | rfl <;> simp [hm, mainArg, does]
  | walked p hm hp => rcases hp with rfl | rfl <;> simp [hm, mainArg, does]
  | _ => simp [*, mainArg, does]

theorem move_arg {table t : Table File} {k : ℕ} {o : Outcome} {q p : ThreadPhase}
    (h : ThreadMove table k o q p t e) :
    p.running = true ∧ (∀ b, e ≠ some (.made b) ∧ e ≠ some (.freed b)) ∨
      p.running = false ∧ e = some (.freed (.arg k)) := by
  cases h with
  | goes _ _ _ hp | opens _ _ _ _ _ hp | closesFile _ _ _ _ hp =>
    exact .inl ⟨hp, fun _ => ⟨nofun, nofun⟩⟩
  | reopenFails _ | returns | closesClient => exact .inl ⟨rfl, fun _ => ⟨nofun, nofun⟩⟩
  | frees => exact .inr ⟨rfl, rfl⟩

theorem move_makes_none {table t : Table File} {k : ℕ} {o : Outcome} {q p : ThreadPhase}
    (h : ThreadMove table k o q p t e) (b : Block) : e ≠ some (.made b) := by
  rcases move_arg h with ⟨_, hblocks⟩ | ⟨_, rfl⟩
  · exact (hblocks b).1
  · exact nofun

theorem mainArg_client {p : MainPhase} {k : ℕ} (h : mainArg p = some k) :
    ∃ c, p.client = some (k, c) := by
  cases p with
  | creating j c =>
    obtain rfl := Option.some.inj h
    exact ⟨c, rfl⟩
  | freeing j c =>
    obtain rfl := Option.some.inj h
    exact ⟨c, rfl⟩
  | _ => cases h

theorem arg_step (h : Numbered s) (hm : ProcessMove s a s' e) (k : ℕ) :
    argHeld s' k+(does (.freed (.arg k)) e).toNat = argHeld s k+(does (.made (.arg k)) e).toNat := by
  cases hm with
  | main hm => exact arg_main h hm k
  | @thread j o p t e m b hq hmove hr =>
    change (if ((s.go j p).thread k).running = true ∨ mainArg s.main = some k then 1 else 0)+_ =
      (if (s.thread k).running = true ∨ mainArg s.main = some k then 1 else 0)+_
    by_cases hkj : k = j
    · subst hkj
      have hmain : mainArg s.main ≠ some k := by
        intro hmain
        obtain ⟨c, hc⟩ := mainArg_client hmain
        rw [h.handed_idle hc] at hq
        cases hq
      rw [go_same]
      rcases move_arg hmove with ⟨hp, hblocks⟩ | ⟨hp, rfl⟩
      · simp [hp, hq, does_ne (hblocks _).1, does_ne (hblocks _).2]
      · simp [hp, hq, hmain, does]
    · have hblocks : e ≠ some (.made (.arg k)) ∧ e ≠ some (.freed (.arg k)) := by
        rcases move_arg hmove with ⟨_, hblocks⟩ | ⟨_, rfl⟩
        · exact hblocks _
        · exact ⟨nofun, fun heq => hkj (by cases heq; rfl)⟩
      rw [go_other s p hkj, does_ne hblocks.1, does_ne hblocks.2]
  | signal => rfl

theorem node_step (h : Numbered s) (hm : ProcessMove s a s' e) (k : ℕ) :
    s'.head.count k+(does (.freed (.node k)) e).toNat =
      s.head.count k+(does (.made (.node k)) e).toNat := by
  cases hm with
  | main hm =>
    cases hm with
    | @adds j hm =>
      by_cases hkj : j = k <;> simp [does, hkj]
    | @unlinks last j next hm =>
      by_cases hkj : j = k
      · subst hkj
        have hlisted := h.listed
        rw [hm] at hlisted
        have hmem : j ∈ s.head := hlisted.subset List.mem_cons_self
        have hpos : 0 < s.head.count j := List.count_pos_iff.mpr hmem
        simp only [List.count_erase_self, does]
        simp
        omega
      · simp [List.count_erase_of_ne (Ne.symm hkj), does, hkj]
    | _ => simp [does]
  | @thread j o p t e m b hq hmove hr =>
    have hblocks : e ≠ some (.made (.node k)) ∧ e ≠ some (.freed (.node k)) := by
      rcases move_arg hmove with ⟨_, hblocks⟩ | ⟨_, rfl⟩
      · exact hblocks _
      · exact ⟨nofun, nofun⟩
    rw [does_ne hblocks.1, does_ne hblocks.2]
    rfl
  | signal => rfl

def closes (g : File) : Option Event → Bool
  | some (.closed _ hit) => decide (hit = some g)
  | _ => false

theorem closed_once (table : Table File) (d : ℕ) (owner : Owner) (g : File) :
    (close table d).count (some g)+(closes g (some (.closed owner (lookup table d)))).toNat =
      table.count (some g) := by
  rw [← count_close table d g, closes]
  by_cases hd : lookup table d = some g <;> simp [hd]

theorem opened_once (table : Table File) (f g : File) :
    (install table f).count (some g) =
      table.count (some g)+(does (.opened g) (some (.opened f))).toNat := by
  rw [count_install]
  by_cases hf : f = g <;> simp [hf, does]

theorem file_step (hm : ProcessMove s a s' e) (g : File) :
    s'.table.count (some g)+(closes g e).toNat =
      s.table.count (some g)+(does (.opened g) e).toNat := by
  cases hm with
  | main hm =>
    cases hm with
    | accepts _ => exact opened_once s.table _ g
    | closes _ => exact closed_once s.table _ _ g
    | cleans _ => exact closed_once s.table _ _ g
    | _ => rfl
  | @thread k o p t e m b hq hmove hr =>
    change t.count (some g)+_ = _
    generalize s.thread k = q at hq hmove hr
    cases hmove with
    | opens _ _ _ _ _ _ => exact opened_once s.table _ g
    | closesFile _ _ _ _ _ => exact closed_once s.table _ _ g
    | closesClient => exact closed_once s.table _ _ g
    | _ => rfl
  | signal => rfl

def acceptedClient (s : Process) (k : ℕ) : ℕ := if k < s.clients then 1 else 0

theorem client_step (hm : ProcessMove s a s' e) (k : ℕ) :
    acceptedClient s' k = acceptedClient s k+(does (.opened (.client k)) e).toNat := by
  cases hm with
  | main hm =>
    cases hm with
    | accepts _ =>
      change (if k < s.clients+1 then 1 else 0) = (if k < s.clients then 1 else 0)+_
      by_cases hk : k = s.clients
      · subst hk
        rw [does_self, if_pos (Nat.lt_succ_self _), if_neg (Nat.lt_irrefl _)]
      · rw [does_ne fun heq => hk (by cases heq; rfl)]
        split_ifs <;> omega
    | _ => rfl
  | @thread j o p t e m b hq hmove hr =>
    change acceptedClient s k = _
    generalize s.thread j = q at hq hmove hr
    cases hmove <;> simp [does]
  | signal => rfl

def argAwaited : MainPhase → Option ℕ
  | .accepted k _ => some k
  | _ => none

def argTried (s : Process) (k : ℕ) : ℕ :=
  if k < s.clients ∧ argAwaited s.main ≠ some k then 1 else 0

theorem arg_bounded (h : Numbered s) (hm : ProcessMove s a s' e) (k : ℕ) :
    argTried s k+(does (.made (.arg k)) e).toNat ≤ argTried s' k := by
  unfold argTried
  cases hm with
  | main hm =>
    cases hm with
    | accepts hm =>
      have hnew (hk : k < s.clients) : k < s.clients+1 ∧
          argAwaited (.accepted s.clients (lowestFree s.table)) ≠ some k :=
        ⟨Nat.lt_succ_of_lt hk, fun heq => Nat.ne_of_gt hk (Option.some.inj heq)⟩
      rw [does_ne (show some (Event.opened _) ≠ some (.made _) from nofun)]
      split_ifs with hold hnow
      · exact Nat.le_refl 1
      · exact absurd (hnew hold.1) hnow
      · exact Nat.zero_le 1
      · exact Nat.le_refl 0
    | @allocates j c hm =>
      have hj : j+1 = s.clients := (h.handed j c (by rw [hm]; rfl)).1
      by_cases hkj : j = k
      · subst hkj
        simp [does, hm, argAwaited, ← hj]
      · simp [does, hm, argAwaited, hkj]
    | @mallocFails j c hm =>
      by_cases hkj : j = k <;> simp [does, hm, argAwaited, hkj]
    | tests p hm hp => rcases hp with rfl | rfl <;> simp [does, hm, argAwaited]
    | walked p hm hp => rcases hp with rfl | rfl <;> simp [does, hm, argAwaited]
    | _ => simp [does, argAwaited, *]
  | @thread j o p t e m b hq hmove hr =>
    rw [does_ne (move_makes_none hmove (.arg k))]
    exact Nat.le_refl _
  | signal => exact Nat.le_refl _

def nodeAwaited : MainPhase → Option ℕ
  | .adding k => some k
  | _ => none

def nodeTried (s : Process) (k : ℕ) : ℕ :=
  if s.thread k = .unborn ∨ nodeAwaited s.main = some k then 0 else 1

theorem node_main {ok : Bool} (h : Numbered s) (hm : MainMove s ok s' e) (k : ℕ) :
    nodeTried s k+(does (.made (.node k)) e).toNat ≤ nodeTried s' k := by
  unfold nodeTried
  cases hm with
  | @creates j c hm =>
    have hj : s.thread j = .unborn := (h.handed j c (by rw [hm]; rfl)).2
    by_cases hkj : k = j
    · subst hkj
      simp [does, hj]
    · simp [does, hm, nodeAwaited, go_other s _ hkj, Ne.symm hkj]
  | @joins last j next hm hj =>
    by_cases hkj : k = j
    · subst hkj
      simp [does, hm, hj, nodeAwaited]
    · simp [does, hm, nodeAwaited, go_other s _ hkj]
  | @adds j hm =>
    have hj := h.added j hm
    by_cases hkj : j = k
    · subst hkj
      simp [does, hm, hj, nodeAwaited]
    · simp [does, hm, nodeAwaited, hkj]
  | @addFails j hm _ =>
    have hj := h.added j hm
    by_cases hkj : j = k
    · subst hkj
      simp [does, hm, hj, nodeAwaited]
    · simp [does, hm, nodeAwaited, hkj]
  | tests p hm hp => rcases hp with rfl | rfl <;> simp [does, hm, nodeAwaited]
  | walked p hm hp => rcases hp with rfl | rfl <;> simp [does, hm, nodeAwaited]
  | _ => simp [does, nodeAwaited, *]

theorem node_bounded (h : Numbered s) (hm : ProcessMove s a s' e) (k : ℕ) :
    nodeTried s k+(does (.made (.node k)) e).toNat ≤ nodeTried s' k := by
  cases hm with
  | main hm => exact node_main h hm k
  | @thread j o p t e m b hq hmove hr =>
    rw [does_ne (move_makes_none hmove (.node k))]
    change (if s.thread k = .unborn ∨ nodeAwaited s.main = some k then 0 else 1) ≤
      if (s.go j p).thread k = .unborn ∨ nodeAwaited s.main = some k then 0 else 1
    by_cases hkj : k = j
    · subst hkj
      rw [go_same]
      simp [(move_born hmove).1, (running_born hq).1]
    · exact Nat.le_of_eq (by rw [go_other s p hkj])
  | signal => exact Nat.le_refl _

def deviceOpened (s : Process) (k r : ℕ) : ℕ := if r < (s.thread k).openings then 1 else 0

theorem device_move {table t : Table File} {k : ℕ} {o : Outcome} {q p : ThreadPhase}
    (h : ThreadMove table k o q p t e) (r : ℕ) :
    (if r < q.openings then 1 else 0)+(does (.opened (.device k r)) e).toNat ≤
      if r < p.openings then 1 else 0 := by
  have hmono (hle : q.openings ≤ p.openings) :
      (if r < q.openings then 1 else 0) ≤ if r < p.openings then 1 else 0 := by
    split_ifs <;> omega
  cases h with
  | goes _ _ ho _ | closesFile _ _ _ ho _ => exact hmono ho
  | @opens _ _ r' _ _ _ ho ho' _ =>
    rw [ho, ho']
    rcases Nat.lt_trichotomy r r' with hr | rfl | hr
    · simp [does, hr, Nat.lt_succ_of_lt hr, Nat.ne_of_gt hr]
    · simp [does]
    · simp [does, Nat.not_lt_of_gt hr, Nat.ne_of_lt hr]
  | reopenFails _ => exact hmono (Nat.le_succ 1)
  | returns | closesClient | frees => exact hmono (Nat.le_refl 2)

theorem device_bounded (h : Numbered s) (hm : ProcessMove s a s' e) (k r : ℕ) :
    deviceOpened s k r+(does (.opened (.device k r)) e).toNat ≤ deviceOpened s' k r := by
  unfold deviceOpened
  cases hm with
  | main hm =>
    cases hm with
    | @creates j c hm =>
      have hj : s.thread j = .unborn := (h.handed j c (by rw [hm]; rfl)).2
      by_cases hkj : k = j
      · subst hkj
        simp [does, hj, ThreadPhase.openings]
      · simp [does, go_other s _ hkj]
    | @joins last j next hm hj =>
      by_cases hkj : k = j
      · subst hkj
        simp [does, hj, ThreadPhase.openings]
      · simp [does, go_other s _ hkj]
    | _ => simp [does]
  | @thread j o p t e m b hq hmove hr =>
    change _ ≤ if r < ((s.go j p).thread k).openings then 1 else 0
    by_cases hkj : k = j
    · subst hkj
      rw [go_same]
      exact device_move hmove r
    · have hopened : e ≠ some (.opened (.device k r)) := by
        generalize s.thread j = q at hmove
        cases hmove with
        | opens _ _ _ _ _ _ => exact fun heq => hkj (by cases heq; rfl)
        | _ => exact nofun
      rw [go_other s p hkj, does_ne hopened]
      exact Nat.le_refl _
  | signal => exact Nat.le_refl _

end

/-- The books of a run from the start of the loop. -/
structure Booked (t : Process) (os : List (Option Event)) : Prop where
  numbered : Numbered t
  created : ∀ k, os.count (some (.created k)) = born t k
  joined : ∀ k, os.count (some (.joined k)) = wasJoined t k
  args : ∀ k, argHeld t k+os.count (some (.freed (.arg k))) = os.count (some (.made (.arg k)))
  argOnce : ∀ k, os.count (some (.made (.arg k))) ≤ 1
  nodes : ∀ k, t.head.count k+os.count (some (.freed (.node k))) =
    os.count (some (.made (.node k)))
  nodeOnce : ∀ k, os.count (some (.made (.node k))) ≤ 1
  clients : ∀ k, os.count (some (.opened (.client k))) = acceptedClient t k
  devices : ∀ k r, os.count (some (.opened (.device k r))) ≤ 1
  files : ∀ g, (∀ n, g ≠ .own n) →
    t.table.count (some g)+os.countP (closes g) = os.count (some (.opened g))

section
variable {m : Startup} {actions : List Action} {t : Process} {os : List (Option Event)}

theorem run_balance (hr : processRun (launched m) actions = .ok (t, os)) {value : Process → ℕ}
    {credit debit : Option Event → Bool} (hstart : value (launched m) = 0)
    (hstep : ∀ {s s' a e}, Numbered s → ProcessMove s a s' e →
      value s'+(debit e).toNat = value s+(credit e).toNat) :
    value t+os.countP debit = os.countP credit := by
  obtain ⟨_, hval⟩ := Runs.run_account Numbered value credit debit
    (fun s a s' e h hs => ⟨h.step (processStep_moves hs).2, hstep h (processStep_moves hs).2⟩)
    (numbered_launched m) hr
  rwa [hstart, Nat.zero_add] at hval

theorem run_total (hr : processRun (launched m) actions = .ok (t, os)) {value : Process → ℕ}
    {credit : Option Event → Bool} (hstart : value (launched m) = 0)
    (hstep : ∀ {s s' a e}, Numbered s → ProcessMove s a s' e →
      value s' = value s+(credit e).toNat) : os.countP credit = value t := by
  have hval : value t+os.countP (fun _ => false) = os.countP credit :=
    run_balance hr hstart fun h hm => by rw [hstep h hm]; rfl
  rw [← hval]
  simp

theorem run_once (hr : processRun (launched m) actions = .ok (t, os)) {value : Process → ℕ}
    {credit : Option Event → Bool} (hone : value t ≤ 1)
    (hstep : ∀ {s s' a e}, Numbered s → ProcessMove s a s' e →
      value s+(credit e).toNat ≤ value s') : os.countP credit ≤ 1 := by
  have hval := Runs.run_bounded Numbered value credit
    (fun s a s' e h hs => ⟨h.step (processStep_moves hs).2, hstep h (processStep_moves hs).2⟩)
    (numbered_launched m) hr
  omega

theorem run_numbered (hr : processRun (launched m) actions = .ok (t, os)) : Numbered t :=
  (Runs.run_account Numbered (fun _ => 0) (fun _ => false) (fun _ => false)
    (fun _ _ _ _ h hs => ⟨h.step (processStep_moves hs).2, rfl⟩) (numbered_launched m) hr).1

theorem launched_foreign {g : File} (hg : ∀ n, g ≠ .own n) :
    (launched m).table.count (some g) = 0 := by
  rw [List.count_eq_zero]
  intro hmem
  obtain ⟨x, _, hx⟩ := List.mem_map.mp hmem
  cases x with
  | none => cases hx
  | some n => exact hg n (Option.some.inj hx).symm

/-- The books are kept whatever the calls of `main` and of the threads return. -/
theorem run_booked (hr : processRun (launched m) actions = .ok (t, os)) : Booked t os where
  numbered := run_numbered hr
  created k := by
    rw [← countP_does]
    exact run_total hr rfl fun h hm => created_step h hm k
  joined k := by
    rw [← countP_does]
    exact run_total hr rfl fun h hm => joined_step h hm k
  args k := by
    rw [← countP_does, ← countP_does]
    exact run_balance hr rfl fun h hm => arg_step h hm k
  argOnce k := by
    rw [← countP_does]
    exact run_once hr (by unfold argTried; split_ifs <;> decide) fun h hm => arg_bounded h hm k
  nodes k := by
    rw [← countP_does, ← countP_does]
    exact run_balance hr rfl fun h hm => node_step h hm k
  nodeOnce k := by
    rw [← countP_does]
    exact run_once hr (by unfold nodeTried; split_ifs <;> decide) fun h hm => node_bounded h hm k
  clients k := by
    rw [← countP_does]
    exact run_total hr rfl fun _ hm => client_step hm k
  devices k r := by
    rw [← countP_does]
    exact run_once hr (by unfold deviceOpened; split_ifs <;> decide)
      fun h hm => device_bounded h hm k r
  files g hg := by
    rw [← countP_does]
    exact run_balance hr (launched_foreign hg) fun _ hm => file_step hm g

end

end Aesd.ProcessTallies
