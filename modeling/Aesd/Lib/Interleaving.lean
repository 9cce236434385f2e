import Aesd.Lib.Runs
import Mathlib.Algebra.BigOperators.Group.Finset.Basic
import Mathlib.Algebra.Order.BigOperators.Group.Finset
import Mathlib.Data.List.ReduceOption

/-!
# Interleavings of processes which share a state

Every process runs the same program on a state of its own and on the shared
one. A scheduler picks who takes the next step; a process which has to wait
leaves everything as it is. The rule for safety is that of rely and guarantee:
a step keeps what is said of the shared state and of the process which takes
it, and does not disturb what is said of the others. The rule for progress
bounds the steps which can be taken at all.
-/

set_option autoImplicit false

namespace Interleaving

variable {ι σ τ α ε ο γ : Type*}

structure Config (ι σ τ : Type*) where
  shared : σ
  locals : ι → τ

/-- One step on the shared state and the own one, `none` while it has to wait. -/
abbrev Program (ε σ τ α ο : Type*) := σ → τ → α → Except ε (Option (σ × τ × ο))

def restrict (P : α → Prop) (prog : Program ε σ τ α ο) : Program ε σ τ {a // P a} ο :=
  fun s l a => prog s l a.1

section
variable [DecidableEq ι]

def step (prog : Program ε σ τ α ο) (c : Config ι σ τ) (x : ι × α) :
    Except ε (Config ι σ τ × Option (ι × ο)) :=
  match prog c.shared (c.locals x.1) x.2 with
  | .error e => .error e
  | .ok none => .ok (c, none)
  | .ok (some (s, l, o)) => .ok (⟨s, Function.update c.locals x.1 l⟩, some (x.1, o))

def run (prog : Program ε σ τ α ο) :
    Config ι σ τ → List (ι × α) → Except ε (Config ι σ τ × List (Option (ι × ο))) :=
  Runs.run (step prog)

variable {prog : Program ε σ τ α ο}

theorem step_moves {c : Config ι σ τ} {i : ι} {a : α} {s : σ} {l : τ} {o : ο}
    (h : prog c.shared (c.locals i) a = .ok (some (s, l, o))) :
    step prog c (i, a) = .ok (⟨s, Function.update c.locals i l⟩, some (i, o)) := by
  simp only [step, h]

theorem step_waits {c : Config ι σ τ} {i : ι} {a : α}
    (h : prog c.shared (c.locals i) a = .ok none) : step prog c (i, a) = .ok (c, none) := by
  simp only [step, h]

/-- What one step does to the ghost value and to the assertions about it. -/
structure Advances (G : γ → σ → Prop) (L : γ → ι → τ → Prop) (trace : γ → List (ι × ο))
    (g : γ) (i : ι) (s : σ) (l : τ) (o : ο) (g' : γ) : Prop where
  shared : G g' s
  own : L g' i l
  others : ∀ j m, j ≠ i → L g j m → L g' j m
  trace : trace g' = trace g ++ [(i, o)]

def Keeps (prog : Program ε σ τ α ο) (G : γ → σ → Prop) (L : γ → ι → τ → Prop)
    (trace : γ → List (ι × ο)) : Prop :=
  ∀ g s i l a, G g s → L g i l → prog s l a = .ok none ∨
    ∃ s' l' o g', prog s l a = .ok (some (s', l', o)) ∧ Advances G L trace g i s' l' o g'

def Held (G : γ → σ → Prop) (L : γ → ι → τ → Prop) (g : γ) (c : Config ι σ τ) : Prop :=
  G g c.shared ∧ ∀ i, L g i (c.locals i)

section
variable {G : γ → σ → Prop} {L : γ → ι → τ → Prop} {trace : γ → List (ι × ο)}

theorem step_keeps (hk : Keeps prog G L trace) {g : γ} {c : Config ι σ τ} (h : Held G L g c)
    (x : ι × α) : ∃ d o g', step prog c x = .ok (d, o) ∧ Held G L g' d ∧
      trace g' = trace g ++ o.toList := by
  obtain ⟨i, a⟩ := x
  obtain ⟨hG, hL⟩ := h
  rcases hk g c.shared i (c.locals i) a hG (hL i) with hw | ⟨s, l, o, g', hm, hadv⟩
  · exact ⟨c, none, g, step_waits hw, ⟨hG, hL⟩, by simp⟩
  · refine ⟨_, _, g', step_moves hm, ⟨hadv.shared, ?_⟩, hadv.trace⟩
    intro j
    by_cases hj : j = i
    · subst hj
      simpa using hadv.own
    · simpa [hj] using hadv.others j _ hj (hL j)

/-- The rule of rely and guarantee, for all schedules. -/
theorem run_keeps (hk : Keeps prog G L trace) {g : γ} {c : Config ι σ τ} (h : Held G L g c)
    (moves : List (ι × α)) :
    ∃ d outs g', run prog c moves = .ok (d, outs) ∧ Held G L g' d ∧
      trace g' = trace g ++ outs.reduceOption := by
  have hrule : ∃ d outs, Runs.run (step prog) c moves = .ok (d, outs) ∧
      ∃ g', Held G L g' d ∧ trace g' = trace g ++ outs.reduceOption := by
    apply Runs.run_history fun d outs => ∃ g', Held G L g' d ∧
      trace g' = trace g ++ outs.reduceOption
    · rintro d outs x ⟨g₁, h₁, ht⟩
      obtain ⟨d', o, g₂, hs, h₂, ht'⟩ := step_keeps hk h₁ x
      refine ⟨d', o, hs, g₂, h₂, ?_⟩
      rw [ht', ht, List.append_assoc, List.reduceOption_append]
      cases o <;> rfl
    · exact ⟨g, h, by simp⟩
  obtain ⟨d, outs, hr, g', h', ht⟩ := hrule
  exact ⟨d, outs, g', hr, h', ht⟩

end

theorem run_locals {c d : Config ι σ τ} {moves : List (ι × α)} {outs : List (Option (ι × ο))}
    (hr : run prog c moves = .ok (d, outs)) {i : ι} (hi : i ∉ moves.map Prod.fst) :
    d.locals i = c.locals i := by
  induction moves generalizing c outs with
  | nil =>
    obtain ⟨rfl, _⟩ := Prod.mk.inj (Except.ok.inj hr)
    rfl
  | cons x moves ih =>
    obtain ⟨c', o, outs', hs, hr', _⟩ := Runs.run_cons_inv hr
    simp only [List.map_cons, List.mem_cons, not_or] at hi
    rw [ih hr' hi.2]
    simp only [step] at hs
    split at hs
    · cases hs
    · obtain ⟨rfl, _⟩ := Prod.mk.inj (Except.ok.inj hs)
      rfl
    · obtain ⟨rfl, _⟩ := Prod.mk.inj (Except.ok.inj hs)
      simp [hi.1]

/-! The rest of the module is about the steps of action `a`, each of which
brings its process closer to having nothing left to do. -/

section
variable {G : γ → σ → Prop} {L : γ → ι → τ → Prop} {trace : γ → List (ι × ο)}
variable (a : α) (left : τ → ℕ)

def Shortens (prog : Program ε σ τ α ο) (G : γ → σ → Prop) (L : γ → ι → τ → Prop)
    (a : α) (left : τ → ℕ) : Prop :=
  ∀ g s i l s' l' o, G g s → L g i l → prog s l a = .ok (some (s', l', o)) → left l' < left l

theorem sum_update (procs : Finset ι) (locals : ι → τ) {i : ι} (hi : i ∈ procs) {l : τ}
    (hl : left l < left (locals i)) :
    ∑ j ∈ procs, left (Function.update locals i l j) < ∑ j ∈ procs, left (locals j) := by
  apply Finset.sum_lt_sum
  · intro j _
    by_cases hj : j = i
    · subst hj
      simpa using hl.le
    · simp [hj]
  · exact ⟨i, hi, by simpa using hl⟩

theorem run_bounded (hk : Keeps prog G L trace) (hs : Shortens prog G L a left) {g : γ}
    {c d : Config ι σ τ} (h : Held G L g c) {sched : List ι} {outs : List (Option (ι × ο))}
    (hr : run prog c (sched.map fun i => (i, a)) = .ok (d, outs)) (procs : Finset ι)
    (hp : ∀ i ∈ sched, i ∈ procs) :
    outs.reduceOption.length+∑ i ∈ procs, left (d.locals i) ≤ ∑ i ∈ procs, left (c.locals i) := by
  induction sched generalizing c outs g with
  | nil =>
    obtain ⟨rfl, rfl⟩ := Prod.mk.inj (Except.ok.inj hr)
    simp
  | cons i sched ih =>
    obtain ⟨c', o, outs', hstep, hr', rfl⟩ := Runs.run_cons_inv hr
    obtain ⟨c₁, o₁, g', hstep', h', _⟩ := step_keeps hk h (i, a)
    obtain ⟨rfl, rfl⟩ := Prod.mk.inj (Except.ok.inj (hstep.symm.trans hstep'))
    have hrest := ih h' hr' fun j hj => hp j (List.mem_cons_of_mem _ hj)
    rcases hk g c.shared i (c.locals i) a h.1 (h.2 i) with hw | ⟨s, l, x, g₂, hm, _⟩
    · obtain ⟨rfl, rfl⟩ := Prod.mk.inj (Except.ok.inj ((step_waits hw).symm.trans hstep))
      exact hrest
    · obtain ⟨rfl, rfl⟩ := Prod.mk.inj (Except.ok.inj ((step_moves hm).symm.trans hstep))
      have hless := sum_update left procs c.locals (hp i (List.mem_cons_self))
        (hs g c.shared i _ s l x h.1 (h.2 i) hm)
      rw [List.reduceOption_cons_of_some, List.length_cons]
      dsimp only at hrest
      omega

theorem run_within (hk : Keeps prog G L trace) (hs : Shortens prog G L a left) {g : γ}
    {c d : Config ι σ τ} (h : Held G L g c) {sched : List ι} {outs : List (Option (ι × ο))}
    (hr : run prog c (sched.map fun i => (i, a)) = .ok (d, outs)) (procs : Finset ι)
    (hbusy : ∀ i, left (c.locals i) ≠ 0 → i ∈ procs) :
    outs.reduceOption.length ≤ ∑ i ∈ procs, left (c.locals i) := by
  have hbound := run_bounded a left hk hs h hr (procs ∪ sched.toFinset) fun i hi => by simp [hi]
  have hsub : procs ⊆ procs ∪ sched.toFinset := Finset.subset_union_left
  rw [← Finset.sum_subset hsub fun i _ hi => by_contra fun hne => hi (hbusy i hne)] at hbound
  omega

def Unblocked (prog : Program ε σ τ α ο) (G : γ → σ → Prop) (L : γ → ι → τ → Prop)
    (a : α) (left : τ → ℕ) : Prop :=
  ∀ g c, Held G L g c → (∃ i, left (c.locals i) ≠ 0) →
    ∃ i x, left (c.locals i) ≠ 0 ∧ prog c.shared (c.locals i) a = .ok (some x)

/-- From every state which the assertions allow, some schedule of the processes
which are not done lets all of them finish. -/
theorem run_drains (hk : Keeps prog G L trace) (hs : Shortens prog G L a left)
    (hu : Unblocked prog G L a left) {g : γ} {c : Config ι σ τ} (h : Held G L g c)
    (procs : Finset ι) (hp : ∀ i, left (c.locals i) ≠ 0 → i ∈ procs) :
    ∃ (sched : List ι) (d : Config ι σ τ) (outs : List (Option (ι × ο))),
      run prog c (sched.map fun i => (i, a)) = .ok (d, outs) ∧
      sched.length ≤ ∑ i ∈ procs, left (c.locals i) ∧ ∀ i, left (d.locals i) = 0 := by
  generalize hn : ∑ i ∈ procs, left (c.locals i) = n
  induction n using Nat.strongRecOn generalizing c g with
  | ind n ih =>
    by_cases hbusy : ∃ i, left (c.locals i) ≠ 0
    · obtain ⟨i, ⟨s, l, o⟩, hi, hm⟩ := hu g c h hbusy
      have hless := hs g c.shared i _ s l o h.1 (h.2 i) hm
      obtain ⟨c', o', g', hstep, h', _⟩ := step_keeps hk h (i, a)
      obtain ⟨rfl, rfl⟩ := Prod.mk.inj (Except.ok.inj (hstep.symm.trans (step_moves hm)))
      have hsum := sum_update left procs c.locals (hp i hi) hless
      rw [hn] at hsum
      have hp' : ∀ j, left (Function.update c.locals i l j) ≠ 0 → j ∈ procs := by
        intro j hj
        by_cases hji : j = i
        · exact hji ▸ hp i hi
        · exact hp j (by simpa [hji] using hj)
      obtain ⟨sched, d, outs, hr, hlen, hdone⟩ := ih _ hsum h' hp' rfl
      refine ⟨i::sched, d, _, Runs.run_cons (step_moves hm) hr, ?_, hdone⟩
      rw [List.length_cons]
      omega
    · simp only [not_exists, not_not] at hbusy
      exact ⟨[], c, [], rfl, by simp, hbusy⟩

end

end

end Interleaving
