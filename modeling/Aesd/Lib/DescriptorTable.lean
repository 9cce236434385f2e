import Mathlib.Data.Nat.Notation
import Mathlib.Logic.Function.Basic
import Mathlib.Tactic.SplitIfs
import Mathlib.Tactic.TypeStar

/-!
# A table of descriptors

What is opened gets the lowest number that is free, and closing a number frees
it whatever it refers to. Parties which remember numbers hold the descriptors
they have opened as long as nobody closes a number which he does not hold.
-/

set_option autoImplicit false

namespace DescriptorTable

variable {β ι : Type*}

/-- Every number from the length on is free. -/
abbrev Table (β : Type*) := List (Option β)

def lookup (t : Table β) (d : ℕ) : Option β := t.getD d none

def lowestFree : Table β → ℕ
  | [] => 0
  | none::_ => 0
  | some _::t => lowestFree t+1

def install : Table β → β → Table β
  | [], b => [some b]
  | none::t, b => some b::t
  | some c::t, b => some c::install t b

def close (t : Table β) (d : ℕ) : Table β := t.set d none

def duplicate (t : Table β) (d e : ℕ) : Table β :=
  (t ++ List.replicate (e+1-t.length) none).set e (lookup t d)

@[simp] theorem lookup_nil (d : ℕ) : lookup ([] : Table β) d = none := rfl

@[simp] theorem lookup_zero (x : Option β) (t : Table β) : lookup (x::t) 0 = x := rfl

@[simp] theorem lookup_succ (x : Option β) (t : Table β) (d : ℕ) :
    lookup (x::t) (d+1) = lookup t d := rfl

theorem lookup_map {γ : Type*} (f : β → γ) (t : Table β) (d : ℕ) :
    lookup (t.map (Option.map f)) d = (lookup t d).map f := by
  induction t generalizing d with
  | nil => rfl
  | cons x t ih => cases d <;> simp [ih]

theorem lookup_lowestFree (t : Table β) : lookup t (lowestFree t) = none := by
  induction t with
  | nil => rfl
  | cons x t ih => cases x <;> simp [lowestFree, ih]

theorem lookup_below {t : Table β} {d : ℕ} (h : d < lowestFree t) : lookup t d ≠ none := by
  induction t generalizing d with
  | nil => simp [lowestFree] at h
  | cons x t ih =>
    cases x with
    | none => simp [lowestFree] at h
    | some c =>
      cases d with
      | zero => simp
      | succ d => exact ih (Nat.lt_of_succ_lt_succ h)

theorem lowestFree_eq {t : Table β} {d : ℕ} (hd : lookup t d = none)
    (hbelow : ∀ e < d, lookup t e ≠ none) : lowestFree t = d := by
  rcases Nat.lt_trichotomy (lowestFree t) d with h | h | h
  · exact absurd (lookup_lowestFree t) (hbelow _ h)
  · exact h
  · exact absurd hd (lookup_below h)

theorem lookup_install (t : Table β) (b : β) (d : ℕ) :
    lookup (install t b) d = if d = lowestFree t then some b else lookup t d := by
  induction t generalizing d with
  | nil => cases d <;> simp [install, lowestFree]
  | cons x t ih => cases x <;> cases d <;> simp [install, lowestFree, ih]

theorem lookup_close (t : Table β) (d e : ℕ) :
    lookup (close t d) e = if e = d then none else lookup t e := by
  induction t generalizing d e with
  | nil => simp [close]
  | cons x t ih =>
    cases d <;> cases e <;> simp [close]
    exact ih _ _

theorem lookup_append_free (t : Table β) (n d : ℕ) :
    lookup (t ++ List.replicate n none) d = lookup t d := by
  induction t generalizing d with
  | nil =>
    rw [List.nil_append, lookup, List.getD_eq_getElem?_getD, List.getElem?_replicate]
    split_ifs <;> rfl
  | cons x t ih => cases d <;> simp [ih]

theorem lookup_duplicate (t : Table β) (d e c : ℕ) :
    lookup (duplicate t d e) c = if c = e then lookup t d else lookup t c := by
  have hlen : e < (t ++ List.replicate (e+1-t.length) none).length := by
    rw [List.length_append, List.length_replicate]
    omega
  rw [duplicate, lookup, List.getD_eq_getElem?_getD, List.getElem?_set]
  split_ifs with hec hce hce
  · rfl
  · exact absurd hec.symm hce
  · exact absurd hce.symm hec
  · rw [← lookup_append_free t (e+1-t.length) c, lookup, List.getD_eq_getElem?_getD]

theorem lookup_mem {t : Table β} {b : β} (h : some b ∈ t) : ∃ d, lookup t d = some b := by
  obtain ⟨d, hd, heq⟩ := List.mem_iff_getElem.mp h
  exact ⟨d, by simp [lookup, List.getD_eq_getElem?_getD, List.getElem?_eq_getElem hd, heq]⟩

section
variable [DecidableEq β]

theorem count_eq_zero {t : Table β} {b : β} (h : ∀ d, lookup t d ≠ some b) :
    t.count (some b) = 0 := by
  rw [List.count_eq_zero]
  intro hmem
  obtain ⟨d, hd⟩ := lookup_mem hmem
  exact h d hd

theorem count_install (t : Table β) (b c : β) :
    (install t b).count (some c) = t.count (some c)+if b = c then 1 else 0 := by
  induction t with
  | nil => simp [install, List.count_cons]
  | cons x t ih =>
    cases x with
    | none => simp [install, List.count_cons]
    | some e => simp [install, List.count_cons, ih, Nat.add_right_comm]

theorem count_close (t : Table β) (d : ℕ) (c : β) :
    (close t d).count (some c)+(if lookup t d = some c then 1 else 0) = t.count (some c) := by
  induction t generalizing d with
  | nil => simp [close]
  | cons x t ih =>
    cases d with
    | zero =>
      by_cases hx : x = some c <;> simp [close, hx]
    | succ d =>
      rw [close, List.set_cons_succ, List.count_cons, List.count_cons, lookup_succ, ← ih d, close,
        Nat.add_right_comm]

end

def replace (t : Table β) (d : ℕ) (b : β) : Table β := t.set d (some b)

def openCount (t : Table β) : ℕ := t.countP Option.isSome

theorem openCount_install (t : Table β) (b : β) : openCount (install t b) = openCount t+1 := by
  induction t with
  | nil => rfl
  | cons x t ih =>
    unfold openCount at ih ⊢
    cases x with
    | none => simp [install]
    | some c => simp [install, ih]

theorem openCount_close {t : Table β} {d : ℕ} {b : β} (h : lookup t d = some b) :
    openCount (close t d)+1 = openCount t := by
  induction t generalizing d with
  | nil => cases h
  | cons x t ih =>
    cases d with
    | zero =>
      rw [lookup_zero] at h
      simp [openCount, close, h]
    | succ d =>
      have hrest := ih (d := d) h
      unfold openCount close at hrest ⊢
      rw [List.set_cons_succ, List.countP_cons, List.countP_cons, ← hrest]
      omega

theorem close_free {t : Table β} {d : ℕ} (h : lookup t d = none) : close t d = t := by
  induction t generalizing d with
  | nil => rfl
  | cons x t ih =>
    cases d with
    | zero =>
      rw [lookup_zero] at h
      rw [h]
      rfl
    | succ d => exact congrArg (List.cons x) (ih h)

theorem lookup_replace {t : Table β} {d : ℕ} {b : β} (h : lookup t d = some b) (c : β) (e : ℕ) :
    lookup (replace t d c) e = if e = d then some c else lookup t e := by
  induction t generalizing d e with
  | nil => cases h
  | cons x t ih =>
    cases d <;> cases e <;> simp [replace]
    exact ih h _

theorem openCount_replace {t : Table β} {d : ℕ} {b : β} (h : lookup t d = some b) (c : β) :
    openCount (replace t d c) = openCount t := by
  induction t generalizing d with
  | nil => cases h
  | cons x t ih =>
    cases d with
    | zero =>
      rw [lookup_zero] at h
      simp [openCount, replace, h]
    | succ d =>
      have hrest := ih (d := d) h
      unfold openCount replace at hrest ⊢
      rw [List.set_cons_succ, List.countP_cons, List.countP_cons, hrest]

theorem duplicate_open {t : Table β} {d e : ℕ} {b c : β} (hd : lookup t d = some c)
    (he : lookup t e = some b) : duplicate t d e = replace t e c := by
  have hlen : e < t.length := by
    by_contra hle
    rw [lookup, List.getD_eq_getElem?_getD, List.getElem?_eq_none (Nat.le_of_not_lt hle)] at he
    cases he
  rw [duplicate, replace, hd, Nat.sub_eq_zero_of_le hlen, List.replicate_zero, List.append_nil]

theorem openCount_zero {t : Table β} (h : openCount t = 0) (d : ℕ) : lookup t d = none := by
  rw [openCount, List.countP_eq_zero] at h
  rw [lookup, List.getD_eq_getElem?_getD]
  cases hd : t[d]? with
  | none => rfl
  | some x => simpa using h x (List.mem_of_getElem? hd)

/-- Where `at'` says which number a party remembers, nothing in the table is
remembered by no one, and what is remembered is in the table, save for what is
stale. -/
structure Held (owner : β → Option ι) (stale : ι → Prop) (t : Table β) (at' : ι → Option ℕ) :
    Prop where
  found : ∀ d b i, lookup t d = some b → owner b = some i → at' i = some d
  held : ∀ i d, at' i = some d →
    (∃ b, lookup t d = some b ∧ owner b = some i) ∨ stale i ∧ lookup t d = none

section
variable {owner : β → Option ι} {stale : ι → Prop} {t : Table β} {at' : ι → Option ℕ} {i : ι}
  {b : β} {d : ℕ}

theorem Held.closed_unowned (h : Held owner stale t at') (hd : lookup t d = some b)
    (hb : owner b = none) : Held owner stale (close t d) at' where
  found e c j he hc := by
    rw [lookup_close] at he
    split_ifs at he
    exact h.found e c j he hc
  held j e he := by
    rw [lookup_close]
    rcases h.held j e he with ⟨c, hc, hown⟩ | ⟨hs, hnone⟩
    · have hne : e ≠ d := by
        rintro rfl
        obtain rfl := Option.some.inj (hc.symm.trans hd)
        rw [hb] at hown
        cases hown
      exact .inl ⟨c, by rw [if_neg hne, hc], hown⟩
    · refine .inr ⟨hs, ?_⟩
      split_ifs
      · rfl
      · exact hnone

variable [DecidableEq ι]

theorem Held.installed (h : Held owner stale t at') (hi : at' i = none) (hb : owner b = some i)
    (hfree : ∀ j, stale j → at' j ≠ some (lowestFree t)) :
    Held owner stale (install t b) (Function.update at' i (some (lowestFree t))) where
  found e c j he hc := by
    rw [lookup_install] at he
    split_ifs at he with heq
    · obtain rfl := Option.some.inj he
      obtain rfl := Option.some.inj (hb.symm.trans hc)
      rw [Function.update_self, heq]
    · have hat := h.found e c j he hc
      have hne : j ≠ i := by
        rintro rfl
        rw [hi] at hat
        cases hat
      rwa [Function.update_of_ne hne]
  held j e he := by
    by_cases hji : j = i
    · subst hji
      rw [Function.update_self] at he
      obtain rfl := Option.some.inj he
      exact .inl ⟨b, by rw [lookup_install, if_pos rfl], hb⟩
    · rw [Function.update_of_ne hji] at he
      have hne : e ≠ lowestFree t := by
        rintro rfl
        rcases h.held j _ he with ⟨c, hc, _⟩ | ⟨hs, _⟩
        · rw [lookup_lowestFree] at hc
          cases hc
        · exact hfree j hs he
      rw [lookup_install, if_neg hne]
      exact h.held j e he

theorem Held.closed (h : Held owner stale t at') (hi : at' i = some d) :
    Held owner stale (close t d) (Function.update at' i none) where
  found e c j he hc := by
    rw [lookup_close] at he
    split_ifs at he with heq
    have hat := h.found e c j he hc
    have hne : j ≠ i := by
      rintro rfl
      exact heq (Option.some.inj (hat.symm.trans hi))
    rwa [Function.update_of_ne hne]
  held j e he := by
    by_cases hji : j = i
    · subst hji
      rw [Function.update_self] at he
      cases he
    · rw [Function.update_of_ne hji] at he
      rw [lookup_close]
      by_cases hed : e = d
      · subst hed
        rw [if_pos rfl]
        rcases h.held j e he with ⟨c, hc, hown⟩ | ⟨hs, _⟩
        · rcases h.held i e hi with ⟨c', hc', hown'⟩ | ⟨_, hnone⟩
          · obtain rfl := Option.some.inj (hc.symm.trans hc')
            exact absurd (Option.some.inj (hown.symm.trans hown')) hji
          · rw [hc] at hnone
            cases hnone
        · exact .inr ⟨hs, rfl⟩
      · rw [if_neg hed]
        exact h.held j e he

theorem Held.remember (h : Held owner stale t at') (hi : at' i = none) (hs : stale i)
    (hd : lookup t d = none) : Held owner stale t (Function.update at' i (some d)) where
  found e c j he hc := by
    have hat := h.found e c j he hc
    have hne : j ≠ i := by
      rintro rfl
      rw [hi] at hat
      cases hat
    rwa [Function.update_of_ne hne]
  held j e he := by
    by_cases hji : j = i
    · subst hji
      rw [Function.update_self] at he
      obtain rfl := Option.some.inj he
      exact .inr ⟨hs, hd⟩
    · rw [Function.update_of_ne hji] at he
      exact h.held j e he

end

end DescriptorTable
