import Aesd.Lib.Ring

/-!
# A bounded log of terminated lines

Writes accumulate in a pending string until one of them contains the
terminator; then the whole pending string is appended as one line and only the
last `cap` lines are retained. The unbounded log keeps every line; cutting it
once gives the bounded one, and its lines followed by the pending string are
everything that was written.
-/

set_option autoImplicit false

namespace LineLog

structure Log (α : Type*) where
  lines : List (List α)
  pending : List α

variable {α : Type*} [DecidableEq α]

def empty : Log α := ⟨[], []⟩

def write (nl : α) (cap : ℕ) (l : Log α) (w : List α) : Log α :=
  if nl ∈ w then ⟨(l.lines ++ [l.pending ++ w]).rtake cap, []⟩
  else ⟨l.lines, l.pending ++ w⟩

def record (nl : α) (l : Log α) (w : List α) : Log α :=
  if nl ∈ w then ⟨l.lines ++ [l.pending ++ w], []⟩ else ⟨l.lines, l.pending ++ w⟩

def Log.retain (l : Log α) (cap : ℕ) : Log α := ⟨l.lines.rtake cap, l.pending⟩

def Log.evicted (l : Log α) (cap : ℕ) : ℕ := (l.lines.rdrop cap).flatten.length

def Terminated (nl : α) (l : Log α) : Prop := nl ∉ l.pending ∧ ∀ x ∈ l.lines, nl ∈ x

theorem write_retain (nl : α) (cap : ℕ) (l : Log α) (w : List α) :
    write nl cap (l.retain cap) w = (record nl l w).retain cap := by
  by_cases h : nl ∈ w
  · simp [write, record, Log.retain, h, Ring.rtake_rtake_concat]
  · simp [write, record, Log.retain, h]

theorem foldl_write_retain (nl : α) (cap : ℕ) (l : Log α) (ws : List (List α)) :
    ws.foldl (write nl cap) (l.retain cap) = (ws.foldl (record nl) l).retain cap := by
  induction ws generalizing l with
  | nil => rfl
  | cons w ws ih => rw [List.foldl_cons, write_retain, ih, List.foldl_cons]

theorem record_flatten (nl : α) (l : Log α) (w : List α) :
    (record nl l w).lines.flatten ++ (record nl l w).pending =
      l.lines.flatten ++ l.pending ++ w := by
  by_cases h : nl ∈ w <;> simp [record, h]

theorem foldl_record_flatten (nl : α) (l : Log α) (ws : List (List α)) :
    (ws.foldl (record nl) l).lines.flatten ++ (ws.foldl (record nl) l).pending =
      l.lines.flatten ++ l.pending ++ ws.flatten := by
  induction ws generalizing l with
  | nil => simp
  | cons w ws ih => rw [List.foldl_cons, ih, record_flatten]; simp

theorem write_elements (nl : α) (cap : ℕ) (l : Log α) {w : List α} (h : nl ∉ w.dropLast) :
    write nl cap l w = w.foldl (fun l b => write nl cap l [b]) l := by
  induction w generalizing l with
  | nil => simp [write]
  | cons b w ih =>
    cases w with
    | nil => rfl
    | cons b' w =>
      rw [List.dropLast_cons_cons, List.mem_cons, not_or] at h
      have hb : write nl cap l [b] = ⟨l.lines, l.pending ++ [b]⟩ := by simp [write, h.1]
      rw [List.foldl_cons, ← ih _ h.2, hb]
      simp only [write, List.mem_cons (a := nl) (b := b), h.1, false_or, List.append_assoc,
        List.singleton_append]

theorem foldl_write_elements (nl : α) (cap : ℕ) (l : Log α) {ws : List (List α)}
    (h : ∀ w ∈ ws, nl ∉ w.dropLast) :
    ws.foldl (write nl cap) l = ws.flatten.foldl (fun l b => write nl cap l [b]) l := by
  induction ws generalizing l with
  | nil => rfl
  | cons w ws ih =>
    rw [List.foldl_cons, List.flatten_cons, List.foldl_append,
      ih _ fun v hv => h v (List.mem_cons_of_mem _ hv),
      write_elements nl cap l (h w (List.mem_cons_self))]

theorem lines_record (nl : α) (l : Log α) (w : List α) : l.lines <+: (record nl l w).lines := by
  by_cases h : nl ∈ w <;> simp [record, h]

omit [DecidableEq α] in
theorem retain_flatten (l : Log α) (cap : ℕ) :
    (l.retain cap).lines.flatten = l.lines.flatten.drop (l.evicted cap) := by
  have hsplit : l.lines.rdrop cap ++ l.lines.rtake cap = l.lines := List.take_append_drop _ _
  conv_rhs => rw [← hsplit, List.flatten_append]
  exact List.drop_left.symm

omit [DecidableEq α] in
theorem evicted_mono {l m : Log α} (h : l.lines <+: m.lines) (cap : ℕ) :
    l.evicted cap ≤ m.evicted cap := by
  obtain ⟨rest, hrest⟩ := h
  have hlen := congrArg List.length hrest
  have htake : l.lines.rdrop cap = m.lines.take (l.lines.length-cap) := by
    rw [List.rdrop, ← hrest, List.take_append_of_le_length (by omega)]
  have hpre : l.lines.rdrop cap <+: m.lines.rdrop cap := by
    rw [htake]
    apply List.take_prefix_take_left
    rw [List.length_append] at hlen
    omega
  exact hpre.flatten.length_le

omit [DecidableEq α] in
theorem terminated_empty (nl : α) : Terminated nl (empty : Log α) := by
  simp [Terminated, empty]

theorem terminated_record (nl : α) (l : Log α) (w : List α) (h : Terminated nl l) :
    Terminated nl (record nl l w) := by
  obtain ⟨hp, hl⟩ := h
  by_cases hw : nl ∈ w
  · simp only [Terminated, record, hw, if_true]
    refine ⟨by simp, ?_⟩
    intro x hx
    rcases List.mem_append.mp hx with hx | hx
    · exact hl x hx
    · rw [List.mem_singleton] at hx
      simp [hx, hw]
  · simp only [Terminated, record, hw, if_false]
    exact ⟨by simp [hp, hw], hl⟩

theorem terminated_foldl (nl : α) (l : Log α) (ws : List (List α)) (h : Terminated nl l) :
    Terminated nl (ws.foldl (record nl) l) := by
  induction ws generalizing l with
  | nil => exact h
  | cons w ws ih => exact ih _ (terminated_record nl l w h)

theorem foldl_write_lines (nl : α) (cap : ℕ) (lines : List (List α)) (pending : List α)
    {ws : List (List α)} (h : ∀ w ∈ ws, nl ∈ w) :
    ∃ xs : List (List α), xs.length = ws.length ∧
      (ws.foldl (write nl cap) ⟨lines.rtake cap, pending⟩).lines = (lines ++ xs).rtake cap := by
  induction ws generalizing lines pending with
  | nil => exact ⟨[], rfl, by rw [List.append_nil]; rfl⟩
  | cons w ws ih =>
    obtain ⟨xs, hlen, hlines⟩ := ih (lines ++ [pending ++ w]) []
      fun v hv => h v (List.mem_cons_of_mem w hv)
    refine ⟨(pending ++ w)::xs, by simp [hlen], ?_⟩
    rw [List.foldl_cons, write, if_pos (h w List.mem_cons_self), Ring.rtake_rtake_concat, hlines,
      List.append_assoc]
    rfl

/-- A line stays until as many others have come behind it as are retained. -/
theorem line_stays (nl : α) (cap : ℕ) (l : Log α) {w : List α} {ws : List (List α)}
    (hw : nl ∈ w) (h : ∀ v ∈ ws, nl ∈ v) (hlen : ws.length < cap) :
    l.pending ++ w ∈ (ws.foldl (write nl cap) (write nl cap l w)).lines := by
  obtain ⟨xs, hxs, hlines⟩ := foldl_write_lines nl cap (l.lines ++ [l.pending ++ w]) [] h
  rw [write, if_pos hw, hlines, List.rtake, List.append_assoc,
    List.drop_append_of_le_length (by simp only [List.length_append, List.length_singleton]; omega)]
  simp

theorem length_foldl_write (nl : α) (cap : ℕ) (l : Log α) (ws : List (List α))
    (h : l.lines.length ≤ cap) : (ws.foldl (write nl cap) l).lines.length =
      min cap (l.lines.length+ws.countP fun w => decide (nl ∈ w)) := by
  induction ws generalizing l with
  | nil => simpa using h
  | cons w ws ih =>
    rw [List.foldl_cons, List.countP_cons]
    by_cases hw : nl ∈ w
    · rw [write, if_pos hw, ih _ (by simp [List.rtake]; omega)]
      simp only [hw, decide_true, if_true, List.rtake, List.length_drop, List.length_append,
        List.length_singleton]
      omega
    · rw [write, if_neg hw, ih _ (by exact h)]
      simp [hw]

theorem foldl_write (nl : α) (cap : ℕ) (ws : List (List α)) :
    let l := ws.foldl (write nl cap) empty
    Terminated nl l ∧
      ∃ dropped : List (List α), (dropped ++ l.lines).flatten ++ l.pending = ws.flatten := by
  have hr := foldl_write_retain nl cap empty ws
  have he : (empty : Log α).retain cap = empty := by simp [empty, Log.retain]
  rw [he] at hr
  obtain ⟨hp, hl⟩ := terminated_foldl nl empty ws (terminated_empty nl)
  have hsuf := Ring.rtake_suffix (ws.foldl (record nl) empty).lines cap
  obtain ⟨dropped, hd⟩ := hsuf
  simp only [hr]
  refine ⟨⟨hp, fun x hx => hl x (hd ▸ List.mem_append_right _ hx)⟩, dropped, ?_⟩
  rw [Log.retain, hd, foldl_record_flatten]
  simp [empty]

end LineLog
