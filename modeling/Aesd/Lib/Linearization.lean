import Aesd.Lib.Runs
import Mathlib.Data.List.Forall2

/-!
# Calls in flight and the order in which they take effect

Each caller calls an operation, some time later the call takes effect, and
some time after that it returns the answer. A trace of such events is legal
when the calls, one at a time in the order of their effects, give the same
answers. The effect lies between call and return, so a call which returns
before another one is made also comes first in that order.
-/

set_option autoImplicit false

namespace Linearization

variable {ι κ ρ σ ε : Type*}

inductive Event (κ ρ : Type*) where
  | called (c : κ)
  | effect (c : κ) (r : ρ)
  | returned (r : ρ)

inductive Phase (κ ρ : Type*) where
  | outside
  | pending (c : κ)
  | answered (r : ρ)

inductive History : List (Event κ ρ) → Phase κ ρ → Prop
  | nil : History [] .outside
  | called {es : List (Event κ ρ)} (h : History es .outside) (c : κ) :
      History (es ++ [.called c]) (.pending c)
  | effect {es : List (Event κ ρ)} {c : κ} (h : History es (.pending c)) (r : ρ) :
      History (es ++ [.effect c r]) (.answered r)
  | returned {es : List (Event κ ρ)} {r : ρ} (h : History es (.answered r)) :
      History (es ++ [.returned r]) .outside

abbrev Trace (ι κ ρ : Type*) := List (ι × Option (Event κ ρ))

def effectOf (x : ι × Option (Event κ ρ)) : Option (ι × κ × ρ) :=
  match x.2 with
  | some (.effect c r) => some (x.1, c, r)
  | _ => none

def effects (trace : Trace ι κ ρ) : List (ι × κ × ρ) := trace.filterMap effectOf

def effectCalls (trace : Trace ι κ ρ) : List κ := (effects trace).map fun x => x.2.1

def effectAnswers (trace : Trace ι κ ρ) : List ρ := (effects trace).map fun x => x.2.2

def eventsOf [DecidableEq ι] (i : ι) (trace : Trace ι κ ρ) : List (Event κ ρ) :=
  trace.filterMap fun x => if x.1 = i then x.2 else none

/-- The calls run one at a time, in the order of their effects. What the
environment decides within a call may differ as far as `serves` says. -/
def Legal (step : σ → κ → Except ε (σ × ρ)) (serves : κ → κ → Prop) (s : σ)
    (trace : Trace ι κ ρ) (t : σ) : Prop :=
  ∃ cs, List.Forall₂ serves (effectCalls trace) cs ∧
    Runs.run step s cs = .ok (t, effectAnswers trace)

section
variable {step : σ → κ → Except ε (σ × ρ)} {serves : κ → κ → Prop} {s t t' : σ}
variable {trace : Trace ι κ ρ}

theorem legal_nil (s : σ) : Legal step serves s ([] : Trace ι κ ρ) s := ⟨[], .nil, rfl⟩

theorem Legal.silent (h : Legal step serves s trace t) {x : ι × Option (Event κ ρ)}
    (hx : effectOf x = none) : Legal step serves s (trace ++ [x]) t := by
  have heff : effects (trace ++ [x]) = effects trace := by simp [effects, hx]
  rwa [Legal, effectCalls, effectAnswers, heff]

theorem Legal.effect (h : Legal step serves s trace t) (i : ι) {c c' : κ} {r : ρ}
    (hc : serves c c') (hs : step t c' = .ok (t', r)) :
    Legal step serves s (trace ++ [(i, some (.effect c r))]) t' := by
  obtain ⟨cs, hall, hrun⟩ := h
  have heff : effects (trace ++ [(i, some (.effect c r))]) = effects trace ++ [(i, c, r)] := by
    simp [effects, effectOf]
  refine ⟨cs ++ [c'], ?_, ?_⟩
  · rw [effectCalls, heff, List.map_append]
    exact List.rel_append hall (.cons hc .nil)
  · rw [effectAnswers, heff, List.map_append]
    exact Runs.run_append hrun (Runs.run_cons hs rfl)

end

section
variable [DecidableEq ι]

@[simp] theorem eventsOf_nil (i : ι) : eventsOf i ([] : Trace ι κ ρ) = [] := rfl

@[simp] theorem eventsOf_same (i : ι) (trace : Trace ι κ ρ) (e : Option (Event κ ρ)) :
    eventsOf i (trace ++ [(i, e)]) = eventsOf i trace ++ e.toList := by
  cases e <;> simp [eventsOf]

theorem eventsOf_other {i j : ι} (h : j ≠ i) (trace : Trace ι κ ρ) (e : Option (Event κ ρ)) :
    eventsOf j (trace ++ [(i, e)]) = eventsOf j trace := by
  simp [eventsOf, h.symm]

end

/-! What the history of a caller says about its calls and answers. -/

def calledIn (es : List (Event κ ρ)) : List κ :=
  es.filterMap fun | .called c => some c | _ => none

def servedIn (es : List (Event κ ρ)) : List (κ × ρ) :=
  es.filterMap fun | .effect c r => some (c, r) | _ => none

def returnedIn (es : List (Event κ ρ)) : List ρ :=
  es.filterMap fun | .returned r => some r | _ => none

theorem servedIn_eventsOf [DecidableEq ι] (i : ι) (trace : Trace ι κ ρ) :
    servedIn (eventsOf i trace) = ((effects trace).filter (·.1 = i)).map Prod.snd := by
  induction trace with
  | nil => rfl
  | cons x trace ih =>
    obtain ⟨j, e⟩ := x
    simp only [servedIn, eventsOf, effects] at ih ⊢
    by_cases hj : j = i
    · subst hj
      rcases e with _ | _ | _ | _ <;> simp [List.filterMap_cons, effectOf, ih]
    · rcases e with _ | _ | _ | _ <;> simp [List.filterMap_cons, effectOf, hj, ih]

def Phase.call : Phase κ ρ → List κ
  | .pending c => [c]
  | _ => []

def Phase.answer : Phase κ ρ → List ρ
  | .answered r => [r]
  | _ => []

/-- Every call takes effect once, in the order in which the caller makes them,
and what is returned are the answers of these effects. -/
theorem History.matches {es : List (Event κ ρ)} {p : Phase κ ρ} (h : History es p) :
    calledIn es = (servedIn es).map Prod.fst ++ p.call ∧
      (servedIn es).map Prod.snd = returnedIn es ++ p.answer := by
  induction h with
  | nil => exact ⟨rfl, rfl⟩
  | called _ c ih =>
    simp only [calledIn, servedIn, returnedIn, List.filterMap_append, Phase.call, Phase.answer,
      List.append_nil] at ih ⊢
    simp [ih.1, ih.2]
  | effect _ r ih =>
    simp only [calledIn, servedIn, returnedIn, List.filterMap_append, Phase.call, Phase.answer,
      List.append_nil] at ih ⊢
    simp [ih.1, ih.2]
  | returned _ ih =>
    simp only [calledIn, servedIn, returnedIn, List.filterMap_append, Phase.call, Phase.answer,
      List.append_nil] at ih ⊢
    simp [ih.1, ih.2]

end Linearization
