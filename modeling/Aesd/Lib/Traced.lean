import Mathlib.Logic.Basic
import Mathlib.Tactic.TypeStar

/-!
# Computations which record what they do

A traced computation gives what a fallible one gives and a list of records,
also of what it has done before it failed. Its value is that of the plain
computation; a property of all its records follows the way it is put together.
-/

set_option autoImplicit false

universe u v

structure Traced (ω : Type v) (ε : Type u) (α : Type u) where
  value : Except ε α
  trace : List ω

namespace Traced

variable {ω : Type v} {ε α β : Type u}

protected def pure (a : α) : Traced ω ε α := ⟨.ok a, []⟩

protected def bind (x : Traced ω ε α) (f : α → Traced ω ε β) : Traced ω ε β :=
  match x.value with
  | .error e => ⟨.error e, x.trace⟩
  | .ok a => ⟨(f a).value, x.trace ++ (f a).trace⟩

instance : Monad (Traced ω ε) where
  pure := Traced.pure
  bind := Traced.bind

instance : MonadLift (Except ε) (Traced ω ε) where
  monadLift x := ⟨x, []⟩

def record (w : ω) : Traced ω ε PUnit := ⟨.ok ⟨⟩, [w]⟩

def All (P : ω → Prop) (x : Traced ω ε α) : Prop := ∀ w ∈ x.trace, P w

@[simp] theorem value_pure (a : α) : (pure a : Traced ω ε α).value = .ok a := rfl

@[simp] theorem value_lift (x : Except ε α) : (liftM x : Traced ω ε α).value = x := rfl

@[simp] theorem value_bind (x : Traced ω ε α) (f : α → Traced ω ε β) :
    (x >>= f).value = x.value >>= fun a => (f a).value := by
  change (x.bind f).value = _
  rw [Traced.bind]
  cases x.value <;> rfl

variable {P : ω → Prop}

theorem all_pure (a : α) : (pure a : Traced ω ε α).All P := nofun

theorem all_lift (x : Except ε α) : (liftM x : Traced ω ε α).All P := nofun

theorem all_record {w : ω} (h : P w) : (record w : Traced ω ε PUnit).All P := by
  intro v hv
  rwa [List.mem_singleton.mp hv]

theorem all_bind {x : Traced ω ε α} {f : α → Traced ω ε β} (hx : x.All P)
    (hf : ∀ a, x.value = .ok a → (f a).All P) : (x >>= f).All P := by
  change (x.bind f).All P
  rw [Traced.bind]
  cases hv : x.value with
  | error e => exact hx
  | ok a =>
    intro w hw
    rcases List.mem_append.mp hw with hw | hw
    · exact hx w hw
    · exact hf a hv w hw

theorem all_bind_value {x : Traced ω ε α} {a : α} {f : α → Traced ω ε β} (hv : x.value = .ok a)
    (hx : x.All P) (hf : (f a).All P) : (x >>= f).All P := by
  refine all_bind hx fun a' ha' => ?_
  obtain rfl : a = a' := Except.ok.inj (hv.symm.trans ha')
  exact hf

theorem all_bind_pure {x : Traced ω ε α} (hx : x.All P) (f : α → β) :
    (x >>= fun a => pure (f a)).All P :=
  all_bind hx fun a _ => all_pure (f a)

theorem all_bind_lift {x : Except ε α} {f : α → Traced ω ε β}
    (hf : ∀ a, x = .ok a → (f a).All P) : (liftM x >>= f : Traced ω ε β).All P :=
  all_bind (all_lift x) hf

theorem all_bind_record {w : ω} {f : PUnit → Traced ω ε β} (h : P w) (hf : (f ⟨⟩).All P) :
    (record w >>= f).All P :=
  all_bind (all_record h) fun _ _ => hf

theorem value_foldlM (step : β → α → Traced ω ε β) (f : β → α → β)
    (h : ∀ b a, (step b a).value = .ok (f b a)) (as : List α) (b : β) :
    (as.foldlM step b).value = .ok (as.foldl f b) := by
  induction as generalizing b with
  | nil => rfl
  | cons a as ih =>
    rw [List.foldlM_cons, value_bind, h]
    exact ih _

/-- The invariant says of what is left of the list and the value reached that
the next step records only what has the property, and goes on to the next value. -/
theorem all_foldlM {step : β → α → Traced ω ε β} (I : List α → β → Prop)
    (hstep : ∀ a as b, I (a::as) b → (step b a).All P ∧ ∀ b', (step b a).value = .ok b' → I as b')
    (as : List α) (b : β) (h : I as b) : (as.foldlM step b).All P := by
  induction as generalizing b with
  | nil => exact all_pure b
  | cons a as ih =>
    rw [List.foldlM_cons]
    obtain ⟨hall, hnext⟩ := hstep a as b h
    exact all_bind hall fun b' hb' => ih b' (hnext b' hb')

instance [DecidablePred P] (x : Traced ω ε α) : Decidable (x.All P) := by
  unfold All
  infer_instance

end Traced
