import Mathlib.Data.List.Induction
import Mathlib.Logic.Basic
import Mathlib.Tactic.TypeStar

/-!
# Runs of a fallible step function

A run feeds a list of inputs to a step which either fails or gives the next
state and an output. The rules below carry an invariant, and a simulation by a
total specification, from one step to a run of any length. Both also say that
the run does not fail.
-/

set_option autoImplicit false

namespace Runs

variable {ε σ ι ο τ : Type*}

def run (step : σ → ι → Except ε (σ × ο)) : σ → List ι → Except ε (σ × List ο)
  | s, [] => .ok (s, [])
  | s, i::is =>
    match step s i with
    | .error e => .error e
    | .ok (s, o) =>
      match run step s is with
      | .error e => .error e
      | .ok (s, os) => .ok (s, o::os)

/-- The state a run ends in, the first one if the run fails. -/
def final (step : σ → ι → Except ε (σ × ο)) (s : σ) (is : List ι) : σ :=
  match run step s is with
  | .ok x => x.1
  | .error _ => s

def outputs (step : σ → ι → Except ε (σ × ο)) (s : σ) (is : List ι) : List ο :=
  match run step s is with
  | .ok x => x.2
  | .error _ => []

variable {step : σ → ι → Except ε (σ × ο)}

theorem final_eq {s t : σ} {is : List ι} {os : List ο} (h : run step s is = .ok (t, os)) :
    final step s is = t := by
  rw [final, h]

theorem outputs_eq {s t : σ} {is : List ι} {os : List ο} (h : run step s is = .ok (t, os)) :
    outputs step s is = os := by
  rw [outputs, h]

theorem run_isOk {s : σ} {is : List ι} (h : (run step s is).isOk = true) :
    ∃ os, run step s is = .ok (final step s is, os) := by
  rw [final]
  cases hr : run step s is with
  | error e =>
    rw [hr] at h
    cases h
  | ok x => exact ⟨x.2, rfl⟩

theorem run_cons {s s' : σ} {i : ι} {o : ο} (h : step s i = .ok (s', o)) {is : List ι}
    {t : σ} {os : List ο} (ht : run step s' is = .ok (t, os)) :
    run step s (i::is) = .ok (t, o::os) := by
  simp [run, h, ht]

theorem run_cons_inv {s t : σ} {i : ι} {is : List ι} {os : List ο}
    (h : run step s (i::is) = .ok (t, os)) :
    ∃ s' o os', step s i = .ok (s', o) ∧ run step s' is = .ok (t, os') ∧ os = o::os' := by
  simp only [run] at h
  cases hs : step s i with
  | error e => simp [hs] at h
  | ok x =>
    obtain ⟨s', o⟩ := x
    cases hr : run step s' is with
    | error e => simp [hs, hr] at h
    | ok y =>
      obtain ⟨t', os'⟩ := y
      simp only [hs, hr, Except.ok.injEq, Prod.mk.injEq] at h
      exact ⟨s', o, os', rfl, by rw [hr, h.1], h.2.symm⟩

theorem run_append {s t u : σ} {is js : List ι} {os ps : List ο}
    (h : run step s is = .ok (t, os)) (hj : run step t js = .ok (u, ps)) :
    run step s (is ++ js) = .ok (u, os ++ ps) := by
  induction is generalizing s os with
  | nil =>
    obtain ⟨rfl, rfl⟩ := Prod.mk.inj (Except.ok.inj h)
    exact hj
  | cons i is ih =>
    obtain ⟨s', o, os', hs, hr, rfl⟩ := run_cons_inv h
    exact run_cons hs (ih hr)

theorem run_append_inv {s u : σ} {is js : List ι} {qs : List ο}
    (h : run step s (is ++ js) = .ok (u, qs)) :
    ∃ t os ps, run step s is = .ok (t, os) ∧ run step t js = .ok (u, ps) ∧ qs = os ++ ps := by
  induction is generalizing s qs with
  | nil => exact ⟨s, [], qs, rfl, h, rfl⟩
  | cons i is ih =>
    obtain ⟨s', o, qs', hs, hr, rfl⟩ := run_cons_inv h
    obtain ⟨t, os, ps, hi, hj, rfl⟩ := ih hr
    exact ⟨t, o::os, ps, run_cons hs hi, hj, rfl⟩

theorem final_concat {s t : σ} {is : List ι} {i : ι} {os : List ο}
    (h : run step s (is ++ [i]) = .ok (t, os)) :
    ∃ o, step (final step s is) i = .ok (final step s (is ++ [i]), o) := by
  obtain ⟨u, os', ps, hpre, hlast, _⟩ := run_append_inv h
  obtain ⟨s', o, os'', hstep, hnil, _⟩ := run_cons_inv hlast
  obtain ⟨rfl, _⟩ := Prod.mk.inj (Except.ok.inj hnil)
  exact ⟨o, by rw [final_eq hpre, final_eq h, hstep]⟩

/-- The simulation rule. The specification sees each input with its output. -/
theorem run_simulates (R : σ → τ → Prop) (spec : τ → ι → ο → τ)
    (hstep : ∀ s a i, R s a → ∃ s' o, step s i = .ok (s', o) ∧ R s' (spec a i o))
    {s : σ} {a : τ} (h : R s a) (is : List ι) :
    ∃ t os, run step s is = .ok (t, os) ∧ os.length = is.length ∧
      R t ((is.zip os).foldl (fun a x => spec a x.1 x.2) a) := by
  induction is generalizing s a with
  | nil => exact ⟨s, [], rfl, rfl, h⟩
  | cons i is ih =>
    obtain ⟨s', o, hs, hR⟩ := hstep s a i h
    obtain ⟨t, os, hr, hlen, ht⟩ := ih hR
    exact ⟨t, o::os, run_cons hs hr, by simp [hlen], ht⟩

theorem run_total (I : σ → Prop)
    (hstep : ∀ s i, I s → ∃ s' o, step s i = .ok (s', o) ∧ I s')
    {s : σ} (h : I s) (is : List ι) :
    ∃ t os, run step s is = .ok (t, os) ∧ os.length = is.length ∧ I t :=
  run_simulates (a := ()) (fun s _ => I s) (fun a _ _ => a) (fun s _ i hs => hstep s i hs) h is

theorem run_final (I : σ → Prop)
    (hstep : ∀ s i, I s → ∃ s' o, step s i = .ok (s', o) ∧ I s')
    {s : σ} (h : I s) (is : List ι) :
    (∃ os, run step s is = .ok (final step s is, os)) ∧ I (final step s is) := by
  obtain ⟨t, os, hr, _, ht⟩ := run_total I hstep h is
  rw [final_eq hr]
  exact ⟨⟨os, hr⟩, ht⟩

/-- What is kept only by the steps which meet a condition, in the state they
are taken from, holds at the end of a run of such steps. -/
theorem final_guarded (I J : σ → Prop) (C : σ → ι → Prop)
    (hstep : ∀ s i, I s → ∃ s' o, step s i = .ok (s', o) ∧ I s' ∧ (J s → C s i → J s'))
    {s : σ} (h : I s) (hJ : J s) (is : List ι)
    (hC : ∀ pre i, pre ++ [i] <+: is → C (final step s pre) i) : J (final step s is) := by
  have hfinal (is : List ι) :
      (∃ os, run step s is = .ok (final step s is, os)) ∧ I (final step s is) :=
    run_final I (fun s i hs => let ⟨s', o, hi, h', _⟩ := hstep s i hs; ⟨s', o, hi, h'⟩) h is
  induction is using List.reverseRecOn with
  | nil => exact hJ
  | append_singleton is i ih =>
    obtain ⟨⟨os, hr⟩, _⟩ := hfinal (is ++ [i])
    obtain ⟨o, hlast⟩ := final_concat hr
    obtain ⟨s', o', hs, _, hkeep⟩ := hstep _ i (hfinal is).2
    obtain ⟨rfl, _⟩ := Prod.mk.inj (Except.ok.inj (hlast.symm.trans hs))
    have hbefore := ih fun pre j hpre => hC pre j (hpre.trans (List.prefix_append _ _))
    exact hkeep hbefore (hC is i (List.prefix_refl _))

/-- The rule for an invariant which also speaks of the outputs so far. -/
theorem run_history (I : σ → List ο → Prop)
    (hstep : ∀ s os i, I s os → ∃ s' o, step s i = .ok (s', o) ∧ I s' (os ++ [o]))
    {s : σ} (h : I s []) (is : List ι) :
    ∃ t os, run step s is = .ok (t, os) ∧ I t os := by
  suffices hrest : ∀ s os, I s os → ∃ t ps, run step s is = .ok (t, ps) ∧ I t (os ++ ps) from
    hrest s [] h
  clear h
  induction is with
  | nil =>
    intro s os h
    exact ⟨s, [], rfl, by rwa [List.append_nil]⟩
  | cons i is ih =>
    intro s os h
    obtain ⟨s', o, hs, h'⟩ := hstep s os i h
    obtain ⟨t, ps, hr, ht⟩ := ih s' _ h'
    exact ⟨t, o::ps, run_cons hs hr, by rwa [List.append_assoc] at ht⟩

/-- The rule for runs which may be refused. It carries what holds of the state
and the outputs so far through every step which meets a condition. -/
theorem run_guarded (I : σ → List ο → Prop) (C : σ → ι → Prop)
    (hstep : ∀ s os i s' o, I s os → C s i → step s i = .ok (s', o) → I s' (os ++ [o]))
    {s t : σ} (h : I s []) {is : List ι} {os : List ο} (hr : run step s is = .ok (t, os))
    (hC : ∀ pre i, pre ++ [i] <+: is → C (final step s pre) i) : I t os := by
  induction is using List.reverseRecOn generalizing t os with
  | nil =>
    obtain ⟨rfl, rfl⟩ := Prod.mk.inj (Except.ok.inj hr)
    exact h
  | append_singleton is i ih =>
    obtain ⟨u, os', ps, hpre, hlast, rfl⟩ := run_append_inv hr
    obtain ⟨s', o, os'', hstep', hnil, rfl⟩ := run_cons_inv hlast
    obtain ⟨rfl, rfl⟩ := Prod.mk.inj (Except.ok.inj hnil)
    have hu := ih hpre fun pre j hj => hC pre j (hj.trans (List.prefix_append _ _))
    have hi := hC is i (List.prefix_refl _)
    rw [final_eq hpre] at hi
    exact hstep u os' i s' o hu hi hstep'

theorem run_account (I : σ → Prop) (value : σ → ℕ) (credit debit : ο → Bool)
    (hstep : ∀ s i s' o, I s → step s i = .ok (s', o) →
      I s' ∧ value s'+(debit o).toNat = value s+(credit o).toNat)
    {s t : σ} (h : I s) {is : List ι} {os : List ο} (hr : run step s is = .ok (t, os)) :
    I t ∧ value t+os.countP debit = value s+os.countP credit := by
  refine run_guarded (fun t os => I t ∧ value t+os.countP debit = value s+os.countP credit)
    (fun _ _ => True) ?_ ⟨h, rfl⟩ hr fun _ _ _ => trivial
  rintro u os i s' o ⟨hu, hval⟩ _ ho
  obtain ⟨hs', hstep'⟩ := hstep u i s' o hu ho
  refine ⟨hs', ?_⟩
  rw [List.countP_append, List.countP_append, List.countP_singleton, List.countP_singleton]
  cases hd : debit o <;> cases hc : credit o <;> simp [hd, hc] at hstep' ⊢ <;> omega

theorem run_bounded (I : σ → Prop) (value : σ → ℕ) (credit : ο → Bool)
    (hstep : ∀ s i s' o, I s → step s i = .ok (s', o) →
      I s' ∧ value s+(credit o).toNat ≤ value s')
    {s t : σ} (h : I s) {is : List ι} {os : List ο} (hr : run step s is = .ok (t, os)) :
    value s+os.countP credit ≤ value t := by
  suffices hboth : I t ∧ value s+os.countP credit ≤ value t from hboth.2
  refine run_guarded (fun t os => I t ∧ value s+os.countP credit ≤ value t)
    (fun _ _ => True) ?_ ⟨h, Nat.le_refl _⟩ hr fun _ _ _ => trivial
  rintro u os i s' o ⟨hu, hval⟩ _ ho
  obtain ⟨hs', hstep'⟩ := hstep u i s' o hu ho
  refine ⟨hs', ?_⟩
  rw [List.countP_append, List.countP_singleton]
  cases hc : credit o <;> simp [hc] at hstep' ⊢ <;> omega

theorem forall_step_iff {P : List ι → ι → Prop} {is : List ι} :
    (∀ pre i, pre ++ [i] <+: is → P pre i) ↔ ∀ n, ∀ h : n < is.length, P (is.take n) is[n] := by
  constructor
  · intro h n hn
    apply h
    rw [List.take_append_getElem hn]
    exact List.take_prefix _ _
  · rintro h pre i ⟨post, rfl⟩
    have hn := h pre.length (by simp)
    simpa using hn

end Runs
