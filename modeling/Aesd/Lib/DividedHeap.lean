import Aesd.Lib.BlockHeap

/-!
# Heaps divided among owners

Part of the blocks of a heap is common, each of the others belongs to one of
the owners alone. What an owner does to its own blocks changes neither the
common part nor the parts of the others, and an owner can hand a block over to
the common part or take one out of it. Every such step changes one address.
-/

set_option autoImplicit false

namespace BlockHeap

variable {ι β : Type*}

/-- One address: what is there is common, or belongs to a single owner. -/
inductive Splits : Option (List β) → Option (List β) → (ι → Option (List β)) → Prop
  | common {x : Option (List β)} {own : ι → Option (List β)} (h : ∀ i, own i = none) :
      Splits x x own
  | owned {own : ι → Option (List β)} {i : ι} {b : List β} (hi : own i = some b)
      (h : ∀ j, j ≠ i → own j = none) : Splits (some b) none own

def Divided (h common : Heap β) (own : ι → Heap β) : Prop :=
  ∀ a, Splits (h a) (common a) fun i => own i a

theorem divided_self (h : Heap β) : Divided h h fun _ : ι => empty :=
  fun _ => .common fun _ => rfl

section
variable {h common : Heap β} {own : ι → Heap β}

theorem Divided.eq_common (hd : Divided h common own) (ho : ∀ i, own i = empty) : h = common := by
  ext1 a
  have hs := hd a
  generalize h a = x, common a = c at hs ⊢
  cases hs with
  | common => rfl
  | @owned _ i b hi =>
    dsimp only at hi
    rw [ho i] at hi
    cases hi

theorem Divided.own_load (hd : Divided h common own) {i : ι} {a : Addr} {b : List β}
    (ha : own i a = some b) :
    h a = some b ∧ common a = none ∧ ∀ j, j ≠ i → own j a = none := by
  have hs := hd a
  generalize h a = x, common a = c at hs ⊢
  cases hs with
  | common hno => exact absurd (ha.symm.trans (hno i)) (by simp)
  | @owned _ j b' hj hno =>
    obtain rfl : i = j := by
      by_contra hij
      exact absurd (ha.symm.trans (hno i hij)) (by simp)
    exact ⟨hj.symm.trans ha, rfl, hno⟩

theorem Divided.common_load (hd : Divided h common own) {a : Addr} {b : List β}
    (ha : common a = some b) : h a = some b ∧ ∀ i, own i a = none := by
  have hs := hd a
  rw [ha] at hs
  generalize h a = x at hs ⊢
  cases hs with
  | common hno => exact ⟨rfl, hno⟩

theorem Divided.none_load (hd : Divided h common own) {a : Addr} (ha : h a = none) :
    common a = none ∧ ∀ i, own i a = none := by
  have hs := hd a
  rw [ha] at hs
  generalize common a = c at hs ⊢
  cases hs with
  | common hno => exact ⟨rfl, hno⟩

theorem Divided.change (hd : Divided h common own) {a : Addr} {h' common' : Heap β}
    {own' : ι → Heap β} (hh : ∀ x, x ≠ a → h' x = h x) (hc : ∀ x, x ≠ a → common' x = common x)
    (ho : ∀ i x, x ≠ a → own' i x = own i x)
    (hs : Splits (h' a) (common' a) fun i => own' i a) : Divided h' common' own' := by
  intro x
  by_cases hx : x = a
  · rw [hx]
    exact hs
  · rw [hh x hx, hc x hx, funext fun i => ho i x hx]
    exact hd x

variable [DecidableEq ι]

theorem update_alloc_other (own : ι → Heap β) (i j : ι) {a x : Addr} (b : List β) (hx : x ≠ a) :
    Function.update own i (alloc (own i) a b) j x = own j x := by
  by_cases hj : j = i
  · subst hj
    simp [hx]
  · simp [hj]

theorem update_erase_other (own : ι → Heap β) (i j : ι) {a x : Addr} (hx : x ≠ a) :
    Function.update own i (erase (own i) a) j x = own j x := by
  by_cases hj : j = i
  · subst hj
    simp [hx]
  · simp [hj]

theorem Divided.place (hd : Divided h common own) {i : ι} {a : Addr}
    (ha : h a = none ∨ own i a ≠ none) (b : List β) :
    Divided (alloc h a b) common (Function.update own i (alloc (own i) a b)) := by
  have hfree : common a = none ∧ ∀ j, j ≠ i → own j a = none := by
    rcases ha with ha | ha
    · exact ⟨(hd.none_load ha).1, fun j _ => (hd.none_load ha).2 j⟩
    · obtain ⟨c, hc⟩ := Option.ne_none_iff_exists'.mp ha
      exact (hd.own_load hc).2
  apply hd.change (a := a) (fun x hx => alloc_other _ _ hx) (fun _ _ => rfl)
  · exact fun j x hx => update_alloc_other own i j b hx
  · rw [alloc_same, hfree.1]
    exact .owned (i := i) (by simp) fun j hj => by simp [hj, hfree.2 j hj]

theorem Divided.drop (hd : Divided h common own) {i : ι} {a : Addr} {b : List β}
    (ha : own i a = some b) :
    Divided (erase h a) common (Function.update own i (erase (own i) a)) := by
  obtain ⟨_, hcommon, hno⟩ := hd.own_load ha
  apply hd.change (a := a) (fun x hx => erase_other _ hx) (fun _ _ => rfl)
  · exact fun j x hx => update_erase_other own i j hx
  · rw [erase_same, hcommon]
    refine .common fun j => ?_
    by_cases hj : j = i
    · subst hj
      simp
    · simp [hj, hno j hj]

theorem Divided.give (hd : Divided h common own) {i : ι} {a : Addr} {b : List β}
    (ha : own i a = some b) :
    Divided h (alloc common a b) (Function.update own i (erase (own i) a)) := by
  obtain ⟨hload, _, hno⟩ := hd.own_load ha
  apply hd.change (a := a) (fun _ _ => rfl) (fun x hx => alloc_other _ _ hx)
  · exact fun j x hx => update_erase_other own i j hx
  · rw [alloc_same, hload]
    refine .common fun j => ?_
    by_cases hj : j = i
    · subst hj
      simp
    · simp [hj, hno j hj]

theorem Divided.take (hd : Divided h common own) {i : ι} {a : Addr} {b : List β}
    (ha : common a = some b) :
    Divided h (erase common a) (Function.update own i (alloc (own i) a b)) := by
  obtain ⟨hload, hno⟩ := hd.common_load ha
  apply hd.change (a := a) (fun _ _ => rfl) (fun x hx => erase_other _ hx)
  · exact fun j x hx => update_alloc_other own i j b hx
  · rw [erase_same, hload]
    exact .owned (i := i) (by simp) fun j hj => by simp [hj, hno j]

theorem Divided.move (hd : Divided h common own) {i : ι} {a c : Addr} {b : List β}
    (ha : common a = some b) (hc : c = a ∨ h c = none) (bytes : List β) :
    Divided (alloc (erase h a) c bytes) (erase common a)
      (Function.update own i (alloc (own i) c bytes)) := by
  have hnone := (hd.common_load ha).2 i
  have hdrop := (hd.take (i := i) ha).drop (i := i) (a := a) (b := b) (by simp)
  have hfree : erase h a c = none := by
    by_cases hca : c = a
    · rw [hca, erase_same]
    · rw [erase_other _ hca]
      exact hc.resolve_left hca
  have hplace := hdrop.place (i := i) (.inl hfree) bytes
  simpa [erase_alloc _ _ hnone] using hplace

end

end BlockHeap
