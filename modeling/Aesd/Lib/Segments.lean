import Mathlib.Algebra.BigOperators.Group.List.Basic
import Mathlib.Algebra.GroupWithZero.Nat
import Mathlib.Data.Nat.Notation

/-!
# Positions in a concatenation

A position in a list of segments laid end to end falls into one segment, at
one offset which is strictly inside it, or behind them all. Finding that
segment and computing the position from it are inverse to each other.
Empty segments are allowed and contain no position.
-/

set_option autoImplicit false

namespace Segments

def start (ns : List ℕ) (k : ℕ) : ℕ := (ns.take k).sum

/-- The segment which contains position `p` and the offset of `p` inside it. -/
def locate : List ℕ → ℕ → Option (ℕ × ℕ)
  | [], _ => none
  | n::ns, p => if p < n then some (0,p) else (locate ns (p-n)).map fun q => (q.1+1,q.2)

@[simp] theorem start_zero (ns : List ℕ) : start ns 0 = 0 := rfl

theorem start_cons_succ (n : ℕ) (ns : List ℕ) (k : ℕ) :
    start (n::ns) (k+1) = n+start ns k := by
  simp [start]

theorem start_succ {ns : List ℕ} {k : ℕ} (hk : k < ns.length) :
    start ns (k+1) = start ns k+ns[k] := by
  simp [start, List.sum_take_succ ns k hk]

theorem start_le_sum (ns : List ℕ) (k : ℕ) : start ns k ≤ ns.sum := by
  have h := congrArg List.sum (List.take_append_drop k ns)
  rw [List.sum_append] at h
  unfold start
  omega

theorem locate_none_iff (ns : List ℕ) (p : ℕ) : locate ns p = none ↔ ns.sum ≤ p := by
  induction ns generalizing p with
  | nil => simp [locate]
  | cons n ns ih =>
    rw [locate, List.sum_cons]
    split_ifs with hp
    · simp only [false_iff]
      omega
    · rw [Option.map_eq_none_iff, ih]
      omega

theorem locate_some_iff (ns : List ℕ) (p k o : ℕ) :
    locate ns p = some (k,o) ↔ ∃ hk : k < ns.length, o < ns[k] ∧ p = start ns k+o := by
  induction ns generalizing p k with
  | nil => simp [locate]
  | cons n ns ih =>
    rw [locate]
    split_ifs with hp
    · cases k with
      | zero => simp [start]; omega
      | succ k =>
        simp only [Option.some.injEq, Prod.mk.injEq, start_cons_succ]
        constructor
        · rintro ⟨h, _⟩
          omega
        · rintro ⟨_, _, h⟩
          omega
    · rw [Option.map_eq_some_iff]
      cases k with
      | zero => simp; omega
      | succ k =>
        simp only [Prod.mk.injEq, Nat.add_right_cancel_iff, start_cons_succ,
          List.getElem_cons_succ, List.length_cons, Nat.add_lt_add_iff_right]
        constructor
        · rintro ⟨⟨j, q⟩, hq, rfl, rfl⟩
          obtain ⟨hj, ho, hpo⟩ := (ih _ _).mp hq
          exact ⟨hj, ho, by dsimp only; omega⟩
        · rintro ⟨hk, ho, hpo⟩
          exact ⟨(k,o), (ih _ _).mpr ⟨hk, ho, by omega⟩, rfl, rfl⟩

theorem locate_start {ns : List ℕ} {k o : ℕ} (hk : k < ns.length) (ho : o < ns[k]) :
    locate ns (start ns k+o) = some (k,o) :=
  (locate_some_iff _ _ _ _).mpr ⟨hk, ho, rfl⟩

theorem locate_of_span {ns : List ℕ} {k p : ℕ} (hk : k < ns.length) (hl : start ns k ≤ p)
    (hu : p < start ns (k+1)) : locate ns p = some (k,p-start ns k) := by
  rw [start_succ hk] at hu
  exact (locate_some_iff _ _ _ _).mpr ⟨hk, by omega, by omega⟩

theorem locate_lt {ns : List ℕ} {p : ℕ} (hp : p < ns.sum) :
    ∃ k o, ∃ hk : k < ns.length, locate ns p = some (k,o) ∧ o < ns[k] ∧ p = start ns k+o := by
  cases h : locate ns p with
  | none => exact absurd ((locate_none_iff ns p).mp h) (by omega)
  | some q =>
    obtain ⟨k, o⟩ := q
    obtain ⟨hk, ho, hpo⟩ := (locate_some_iff _ _ _ _).mp h
    exact ⟨k, o, hk, rfl, ho, hpo⟩

/-- How many elements of each segment a copy of `count` elements from position
`p` on takes, without the segments of which it takes none. -/
def pieces : List ℕ → ℕ → ℕ → List ℕ
  | [], _, _ => []
  | n::ns, p, count =>
    if count = 0 then []
    else if p < n then min (n-p) count::pieces ns 0 (count-(n-p))
    else pieces ns (p-n) count

@[simp] theorem pieces_zero (ns : List ℕ) (p : ℕ) : pieces ns p 0 = [] := by
  cases ns <;> simp [pieces]

theorem pieces_behind {ns : List ℕ} {p : ℕ} (count : ℕ) (h : ns.sum ≤ p) :
    pieces ns p count = [] := by
  induction ns generalizing p with
  | nil => rfl
  | cons n ns ih =>
    rw [List.sum_cons] at h
    by_cases hc : count = 0
    · rw [pieces, if_pos hc]
    · rw [pieces, if_neg hc, if_neg (by omega), ih (by omega)]

theorem pieces_located {ns : List ℕ} {p k o count : ℕ} (h : locate ns p = some (k,o))
    (hk : k < ns.length) (hc : 0 < count) :
    pieces ns p count = min (ns[k]-o) count::
      pieces ns (p+min (ns[k]-o) count) (count-min (ns[k]-o) count) := by
  induction ns generalizing p k with
  | nil => simp at hk
  | cons n ns ih =>
    rw [locate] at h
    rw [pieces, if_neg (by omega)]
    split_ifs at h with hp
    · obtain ⟨rfl, rfl⟩ := Prod.mk.inj (Option.some.inj h)
      rw [if_pos hp, List.getElem_cons_zero]
      congr 1
      by_cases hle : count ≤ n-p
      · rw [Nat.min_eq_right hle, Nat.sub_self, pieces_zero, Nat.sub_eq_zero_of_le hle, pieces_zero]
      · rw [Nat.min_eq_left (by omega), pieces, if_neg (by omega), if_neg (by omega)]
        congr 1
        omega
    · obtain ⟨q, hq, hqk⟩ := Option.map_eq_some_iff.mp h
      obtain ⟨rfl, rfl⟩ := Prod.mk.inj hqk
      have hkn : q.1 < ns.length := by simpa using hk
      rw [if_neg hp, List.getElem_cons_succ, ih hq hkn]
      congr 1
      by_cases hz : count-min (ns[q.1]-q.2) count = 0
      · rw [hz, pieces_zero, pieces_zero]
      · rw [pieces, if_neg hz, if_neg (by omega)]
        congr 1
        omega

theorem sum_pieces (ns : List ℕ) (p count : ℕ) :
    (pieces ns p count).sum = min count (ns.sum-p) := by
  induction ns generalizing p count with
  | nil => simp [pieces]
  | cons n ns ih =>
    rw [pieces, List.sum_cons]
    split_ifs with hc hp
    · simp [hc]
    · rw [List.sum_cons, ih]
      omega
    · rw [ih]
      omega

theorem pieces_pos {ns : List ℕ} {p count m : ℕ} (h : m ∈ pieces ns p count) : 0 < m := by
  induction ns generalizing p count with
  | nil => simp [pieces] at h
  | cons n ns ih =>
    rw [pieces] at h
    split_ifs at h with hc hp
    · simp at h
    · rcases List.mem_cons.mp h with rfl | h
      · omega
      · exact ih h
    · exact ih h

variable {α : Type*}

theorem drop_flatten (ls : List (List α)) {k o : ℕ} (hk : k < ls.length)
    (ho : o ≤ (ls[k]).length) :
    ls.flatten.drop (start (ls.map List.length) k+o) =
      (ls[k]).drop o ++ (ls.drop (k+1)).flatten := by
  induction ls generalizing k with
  | nil => simp at hk
  | cons l ls ih =>
    cases k with
    | zero =>
      simp only [List.getElem_cons_zero] at ho
      simp [start, List.drop_append_of_le_length ho]
    | succ k =>
      simp only [List.length_cons, Nat.add_lt_add_iff_right] at hk
      simp only [List.getElem_cons_succ] at ho
      simp only [List.map_cons, start_cons_succ, List.flatten_cons, List.getElem_cons_succ,
        List.drop_succ_cons]
      rw [show l.length+start (ls.map List.length) k+o =
        l.length+(start (ls.map List.length) k+o) by omega, List.drop_append]
      simp [ih hk ho]

end Segments
