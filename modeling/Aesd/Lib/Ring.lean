import Mathlib.Data.List.DropRight
import Mathlib.Data.List.Rotate
import Mathlib.Data.Nat.ModEq
import Mathlib.Logic.Function.Basic

/-!
# Reading a circular array

`window f cap out n` lists the `n` cells which follow position `out` around a
circular array of `cap` cells. The two ways in which a bounded buffer grows,
writing behind the window and overwriting its oldest cell, both append one
element to the window and keep the last `cap` of all that was appended.
-/

set_option autoImplicit false

namespace Ring

variable {α : Type*}

def window (f : ℕ → α) (cap out n : ℕ) : List α :=
  (List.range n).map fun k => f ((out+k) % cap)

@[simp] theorem length_window (f : ℕ → α) (cap out n : ℕ) : (window f cap out n).length = n := by
  simp [window]

theorem getElem_window (f : ℕ → α) (cap out n k : ℕ) (hk : k < (window f cap out n).length) :
    (window f cap out n)[k] = f ((out+k) % cap) := by
  simp [window]

theorem window_succ (f : ℕ → α) (cap out n : ℕ) :
    window f cap out (n+1) = window f cap out n ++ [f ((out+n) % cap)] := by
  simp [window, List.range_succ]

theorem index_ne {cap out j k : ℕ} (hjk : j < k) (hk : k < cap) :
    (out+j) % cap ≠ (out+k) % cap := by
  intro h
  have hd : j % cap = k % cap := Nat.ModEq.add_left_cancel' out h
  rw [Nat.mod_eq_of_lt (hjk.trans hk), Nat.mod_eq_of_lt hk] at hd
  omega

theorem window_update_behind (f : ℕ → α) (cap out n : ℕ) (e : α) (hn : n < cap) :
    window (Function.update f ((out+n) % cap) e) cap out n = window f cap out n := by
  apply List.map_congr_left
  intro k hk
  have hkn := List.mem_range.mp hk
  exact Function.update_of_ne (index_ne hkn hn) _ _

theorem window_push (f : ℕ → α) (cap out n : ℕ) (e : α) (hn : n < cap) :
    window (Function.update f ((out+n) % cap) e) cap out (n+1) = window f cap out n ++ [e] := by
  rw [window_succ, window_update_behind f cap out n e hn, Function.update_self]

theorem window_shift (f : ℕ → α) (cap out n : ℕ) :
    window f cap ((out+1) % cap) n = (window f cap out (n+1)).tail := by
  simp only [window, List.range_succ_eq_map, List.map_cons, List.tail_cons, List.map_map]
  apply List.map_congr_left
  intro k _
  simp only [Function.comp_apply, Nat.mod_add_mod]
  congr 2
  omega

/-- Overwriting the oldest cell of a full window and starting behind it
drops that cell and appends the new one. -/
theorem window_replace (f : ℕ → α) (cap out : ℕ) (e : α) (hout : out < cap) :
    window (Function.update f out e) cap ((out+1) % cap) cap =
      (window f cap out cap).tail ++ [e] := by
  obtain ⟨n, rfl⟩ : ∃ n, cap = n+1 := ⟨cap-1, by omega⟩
  have hlast : ((out+1) % (n+1) + n) % (n+1) = out := by
    rw [Nat.mod_add_mod, show out+1+n = out+(n+1) by omega, Nat.add_mod_right,
      Nat.mod_eq_of_lt hout]
  have hpush := window_push f (n+1) ((out+1) % (n+1)) n e (by omega)
  rw [hlast] at hpush
  rw [hpush, window_shift]

theorem window_perm (f : ℕ → α) (cap out : ℕ) :
    (window f cap out cap).Perm ((List.range cap).map f) := by
  have h : window f cap out cap = ((List.range cap).map f).rotate out := by
    apply List.ext_getElem
    · simp
    · intro k hk _
      simp [window, List.getElem_rotate, Nat.add_comm]
  rw [h]
  exact List.rotate_perm _ _

theorem window_zero (f : ℕ → α) (cap n : ℕ) (hn : n ≤ cap) :
    window f cap 0 n = (List.range n).map f := by
  apply List.map_congr_left
  intro k hk
  rw [Nat.zero_add, Nat.mod_eq_of_lt (lt_of_lt_of_le (List.mem_range.mp hk) hn)]

theorem length_rtake (l : List α) (n : ℕ) : (l.rtake n).length = min n l.length := by
  simp [List.rtake]
  omega

theorem rtake_of_length_le (l : List α) {n : ℕ} (h : l.length ≤ n) : l.rtake n = l := by
  simp [List.rtake, Nat.sub_eq_zero_of_le h]

theorem rtake_suffix (l : List α) (n : ℕ) : l.rtake n <:+ l := List.drop_suffix _ _

theorem map_rtake {β : Type*} (f : α → β) (l : List α) (n : ℕ) :
    (l.rtake n).map f = (l.map f).rtake n := by
  simp [List.rtake]

theorem rtake_concat_full (l : List α) (e : α) {n : ℕ} (hn : 0 < n) (h : l.length = n) :
    (l ++ [e]).rtake n = l.tail ++ [e] := by
  cases l with
  | nil => simp at h; omega
  | cons x xs =>
    have hd : xs.length+1+1-n = 1 := by simp only [List.length_cons] at h; omega
    simp [List.rtake, hd]

theorem rtake_rtake_concat (l : List α) (e : α) (n : ℕ) :
    (l.rtake n ++ [e]).rtake n = (l ++ [e]).rtake n := by
  cases n with
  | zero => simp
  | succ n =>
    rw [List.rtake_concat_succ, List.rtake_concat_succ]
    congr 1
    simp only [List.rtake, List.drop_drop, List.length_drop]
    congr 1
    omega

end Ring
