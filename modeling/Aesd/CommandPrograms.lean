import Aesd.ExecAnswers
import Mathlib.Algebra.Group.Nat.Defs

/-!
# Programs which start commands

A program calls `do_system`, `do_exec` and `do_exec_redirect` and goes on with
what they answer. Where `execv` fails the forked process returns from the call
as well and goes on with the same program. Every process is followed to its end.
-/

set_option autoImplicit false

namespace Aesd.CommandPrograms
open SystemCalls ExecAnswers DescriptorTable

def doSystem (returnCode : ℤ) : Bool := returnCode = 0

inductive Part where
  | alone
  | parent
  | child
  deriving DecidableEq, Repr

structure World where
  calls : Outcomes
  returnCode : ℤ

section
variable {β : Type}

inductive Call (β : Type) where
  | system
  | exec (args : Arguments)
  | redirect (output : β) (args : Arguments)

def Call.command : Call β → List (Option CString)
  | .system => []
  | .exec args => args.command
  | .redirect _ args => args.command

def Call.invoke (w : World) (table : Table β) : Call β → Except BadRead (Run β)
  | .system => .ok ⟨⟨table, .returned (doSystem w.returnCode)⟩, none⟩
  | .exec args => doExec w.calls table args
  | .redirect output args => doExecRedirect w.calls table output args

inductive Program (β : Type) where
  | done
  | call (c : Call β) (next : Bool → Program β)

structure Turn (β : Type) where
  call : Call β
  part : Part
  ending : Ending

/-- `gone` is a process which its last call has not returned to. -/
inductive Fate where
  | finished
  | faulted (e : BadRead)
  | gone
  deriving DecidableEq, Repr

/-- A process when it ends, with the calls it has been through. Those from before
it was forked are its own too. -/
structure Ended (β : Type) where
  table : Table β
  log : List (Turn β)
  fate : Fate

def parts (r : Run β) : List (Part × Process β) :=
  match r.child with
  | none => [(.alone, r.caller)]
  | some child => [(.parent, r.caller), (.child, child)]

def onward (go : Bool → List (Turn β) → Table β → List (Ended β)) (c : Call β)
    (log : List (Turn β)) (x : Part × Process β) : List (Ended β) :=
  let log := log ++ [⟨c, x.1, x.2.ending⟩]
  match x.2.ending with
  | .returned retval => go retval log x.2.table
  | _ => [⟨x.2.table, log, .gone⟩]

/-- The processes which a process ends as. How its calls go may depend on all
that it has been through. -/
def follow (w : List (Turn β) → World) : Program β → List (Turn β) → Table β → List (Ended β)
  | .done, log, table => [⟨table, log, .finished⟩]
  | .call c next, log, table =>
    match c.invoke (w log) table with
    | .error e => [⟨table, log, .faulted e⟩]
    | .ok r => (parts r).flatMap (onward (fun retval => follow w (next retval)) c log)

def Turn.stdout (out : β) (x : Turn β) : β :=
  match x.call, x.part with
  | .redirect output _, .child => if x.ending = .aborted then out else output
  | _, _ => out

def Turn.leaks (x : Turn β) : Bool :=
  match x.call, x.part with
  | .redirect _ _, .parent => true
  | _, _ => false

/-- What the calls answer in each of the processes which leave them. Only
`do_system` can answer `true` where nothing was forked. -/
def Turn.Answered (w : World) (x : Turn β) : Prop :=
  match x.part with
  | .parent => w.calls.forkFails = false ∧ x.ending = .returned true
  | .child => w.calls.execv = none ∧ x.ending = .returned false ∨
      w.calls.dup2Fails = true ∧ x.ending = .aborted ∨
      ∃ commandEnd, w.calls.execv = some commandEnd ∧
        x.ending = .started (x.call.command.headD none) x.call.command commandEnd
  | .alone =>
    match x.call with
    | .system => x.ending = .returned (doSystem w.returnCode)
    | _ => x.ending = .returned false

def Call.faults (w : World) : Call β → Bool
  | .exec args => !w.calls.accessFails && (third args).isNone
  | _ => false

def passesChecks (w : World) (args : Arguments) : Bool :=
  !w.calls.accessFails && (third args).any fun word => strstr word bin

def Call.copies (w : World) : Call β → Bool
  | .system => false
  | .exec args => passesChecks w args && !w.calls.forkFails && w.calls.execv.isNone
  | .redirect _ _ => !w.calls.openFails && !w.calls.forkFails && !w.calls.dup2Fails &&
    w.calls.execv.isNone

structure Leaves (w : World) (table : Table β) (out : β) (x : Turn β) (table' : Table β) :
    Prop where
  stdout : lookup table' STDOUT_FILENO = some (x.stdout out)
  count : openCount table' = openCount table+if x.leaks then 1 else 0
  answered : x.Answered w

end

section
variable {β : Type} {w : World} {table : Table β} {out output : β} {args : Arguments} {r : Run β}
variable {o : Outcomes}

theorem mem_parts_fork {body : Pid → Process β} {x : Part × Process β}
    (hx : x ∈ parts (fork o body)) :
    x = (.alone, body .failed) ∨
      o.forkFails = false ∧ (x = (.parent, body .parent) ∨ x = (.child, body .child)) := by
  rw [fork] at hx
  cases hf : o.forkFails with
  | true =>
    rw [hf, if_pos rfl] at hx
    exact .inl (List.mem_singleton.mp hx)
  | false =>
    rw [hf, if_neg Bool.false_ne_true] at hx
    exact .inr ⟨rfl, by simpa [parts] using hx⟩

theorem lowestFree_ne (h : lookup table STDOUT_FILENO = some out) :
    lowestFree table ≠ STDOUT_FILENO := by
  intro heq
  rw [← heq, lookup_lowestFree] at h
  cases h

theorem stdout_installed (h : lookup table STDOUT_FILENO = some out) (output : β) :
    lookup (install table output) STDOUT_FILENO = some out := by
  rw [lookup_install, if_neg (lowestFree_ne h).symm, h]

theorem close_install (h : lookup table STDOUT_FILENO = some out) (output : β) :
    lookup (close (install table output) (lowestFree table)) STDOUT_FILENO = some out ∧
      openCount (close (install table output) (lowestFree table)) =
        openCount table := by
  have hopened : lookup (install table output) (lowestFree table) = some output := by
    rw [lookup_install, if_pos rfl]
  refine ⟨?_, ?_⟩
  · rw [lookup_close, if_neg (lowestFree_ne h).symm, stdout_installed h output]
  · exact Nat.succ.inj ((openCount_close hopened).trans (openCount_install table output))

theorem close_duplicate (h : lookup table STDOUT_FILENO = some out) (output : β) :
    let table' := close (duplicate (install table output) (lowestFree table) STDOUT_FILENO)
      (lowestFree table)
    lookup table' STDOUT_FILENO = some output ∧ openCount table' = openCount table ∧
      lookup table' (lowestFree table) = none := by
  have hne := lowestFree_ne h
  have hinstalled := stdout_installed h output
  have hopened : lookup (install table output) (lowestFree table) = some output := by
    rw [lookup_install, if_pos rfl]
  rw [duplicate_open hopened hinstalled]
  have hstill : lookup (replace (install table output) STDOUT_FILENO output)
      (lowestFree table) = some output := by
    rw [lookup_replace hinstalled, if_neg hne, hopened]
  refine ⟨?_, ?_, ?_⟩
  · rw [lookup_close, if_neg hne.symm, lookup_replace hinstalled, if_pos rfl]
  · apply Nat.succ.inj
    calc openCount (close _ (lowestFree table))+1
        = openCount (replace (install table output) STDOUT_FILENO output) :=
          openCount_close hstill
      _ = openCount (install table output) :=
          openCount_replace hinstalled output
      _ = openCount table+1 := openCount_install table output
  · rw [lookup_close, if_pos rfl]

theorem system_leaves (h : lookup table STDOUT_FILENO = some out) {x : Part × Process β}
    (hr : Call.system.invoke w table = .ok r) (hx : x ∈ parts r) :
    Leaves w table out ⟨.system, x.1, x.2.ending⟩ x.2.table := by
  obtain rfl := Except.ok.inj hr
  obtain rfl := List.mem_singleton.mp hx
  exact ⟨h, rfl, rfl⟩

theorem exec_cases (w : World) (table : Table β) (args : Arguments) :
    ((Call.exec args : Call β).faults w = true ∧ ∃ e, doExec w.calls table args = .error e) ∨
      ((Call.exec args : Call β).faults w = false ∧ passesChecks w args = false ∧
        doExec w.calls table args = .ok ⟨⟨table, .returned false⟩, none⟩) ∨
      (Call.exec args : Call β).faults w = false ∧ passesChecks w args = true ∧
        doExec w.calls table args =
          .ok (fork w.calls (doExecForked w.calls table args.command)) := by
  rw [Call.faults, passesChecks]
  cases ha : w.calls.accessFails with
  | true => exact .inr (.inl ⟨rfl, rfl, doExec_no_access ha⟩)
  | false =>
    cases ht : third args with
    | none => exact .inl ⟨rfl, doExec_bad_read ha ht⟩
    | some word =>
      cases hb : strstr word bin with
      | false => exact .inr (.inl ⟨rfl, by simp [hb], doExec_no_bin ha ht hb⟩)
      | true => exact .inr (.inr ⟨rfl, by simp [hb], doExec_forks ha ht hb⟩)

theorem exec_refused_leaves (h : lookup table STDOUT_FILENO = some out) :
    Leaves w table out ⟨.exec args, .alone, .returned false⟩ table := ⟨h, rfl, rfl⟩

theorem exec_leaves (h : lookup table STDOUT_FILENO = some out) {x : Part × Process β}
    (hr : (Call.exec args).invoke w table = .ok r) (hx : x ∈ parts r) :
    Leaves w table out ⟨.exec args, x.1, x.2.ending⟩ x.2.table := by
  rw [Call.invoke] at hr
  rcases exec_cases w table args with ⟨_, e, he⟩ | ⟨_, _, hrefused⟩ | ⟨_, _, hforks⟩
  · rw [he] at hr
    cases hr
  · rw [hrefused] at hr
    obtain rfl := Except.ok.inj hr
    obtain rfl := List.mem_singleton.mp hx
    exact exec_refused_leaves h
  · rw [hforks] at hr
    obtain rfl := Except.ok.inj hr
    rcases mem_parts_fork hx with rfl | ⟨hforked, rfl | rfl⟩
    · exact exec_refused_leaves h
    · exact ⟨h, rfl, hforked, rfl⟩
    · rw [doExecForked]
      cases hexecv : w.calls.execv with
      | none => exact ⟨h, rfl, .inl ⟨hexecv, rfl⟩⟩
      | some commandEnd => exact ⟨h, rfl, .inr (.inr ⟨commandEnd, hexecv, rfl⟩)⟩

theorem redirect_leaves (h : lookup table STDOUT_FILENO = some out) {x : Part × Process β}
    (hr : (Call.redirect output args).invoke w table = .ok r) (hx : x ∈ parts r) :
    Leaves w table out ⟨.redirect output args, x.1, x.2.ending⟩ x.2.table := by
  obtain ⟨hclosed, hcount⟩ := close_install h output
  rw [Call.invoke, doExecRedirect] at hr
  split_ifs at hr with hopen
  · obtain rfl := Except.ok.inj hr
    obtain rfl := List.mem_singleton.mp hx
    exact ⟨h, rfl, rfl⟩
  · obtain rfl := Except.ok.inj hr
    rcases mem_parts_fork hx with rfl | ⟨hforked, rfl | rfl⟩
    · exact ⟨hclosed, hcount, rfl⟩
    · exact ⟨stdout_installed h output, openCount_install table output, hforked, rfl⟩
    · rw [doExecRedirectForked]
      split_ifs with hdup
      · exact ⟨hclosed, hcount, .inr (.inl ⟨hdup, rfl⟩)⟩
      · obtain ⟨hplaced, hplacedCount, hgone⟩ := close_duplicate h output
        cases hexecv : w.calls.execv with
        | none =>
          dsimp only
          rw [close_free hgone]
          exact ⟨hplaced, hplacedCount, .inl ⟨hexecv, rfl⟩⟩
        | some commandEnd => exact ⟨hplaced, hplacedCount, .inr (.inr ⟨commandEnd, hexecv, rfl⟩)⟩

theorem invoke_leaves (h : lookup table STDOUT_FILENO = some out) {c : Call β}
    {x : Part × Process β} (hr : c.invoke w table = .ok r) (hx : x ∈ parts r) :
    Leaves w table out ⟨c, x.1, x.2.ending⟩ x.2.table := by
  cases c with
  | system => exact system_leaves h hr hx
  | exec args => exact exec_leaves h hr hx
  | redirect output args => exact redirect_leaves h hr hx

end

structure Booked {β : Type} (w : List (Turn β) → World) (table : Table β) (out : β)
    (log : List (Turn β)) (table' : Table β) : Prop where
  stdout : lookup table' STDOUT_FILENO = some (log.foldl Turn.stdout out)
  count : openCount table' = openCount table+log.countP Turn.leaks
  answered : ∀ before x after, log = before ++ x::after → x.Answered (w before)

def Turn.returned {β : Type} (x : Turn β) : Prop := ∃ retval, x.ending = .returned retval

/-- How a process may have come to its end: it was in the program still, or its
last call has made it the command or has aborted it. -/
def Ended.Closed {β : Type} (e : Ended β) : Prop :=
  match e.fate with
  | .gone => ∃ log x, e.log = log ++ [x] ∧ x.part = .child ∧ ¬ x.returned ∧ ∀ y ∈ log, y.returned
  | _ => ∀ y ∈ e.log, y.returned

section
variable {β : Type} {w : List (Turn β) → World} {table t : Table β} {out : β}
variable {log : List (Turn β)}

theorem Booked.append (h : Booked w table out log t) {x : Turn β} {t' : Table β}
    (hx : Leaves (w log) t (log.foldl Turn.stdout out) x t') :
    Booked w table out (log ++ [x]) t' where
  stdout := by
    rw [List.foldl_append]
    exact hx.stdout
  count := by rw [hx.count, h.count, List.countP_append, List.countP_singleton, Nat.add_assoc]
  answered before y after hy := by
    rcases List.append_eq_append_iff.mp hy with ⟨rest, rfl, hlast⟩ | ⟨rest, rfl, hin⟩
    · obtain ⟨rfl, hcons⟩ := List.append_eq_singleton_iff.mp hlast.symm |>.resolve_right (by simp)
      obtain ⟨rfl, _⟩ := List.cons.inj hcons
      rw [List.append_nil]
      exact hx.answered
    · cases rest with
      | nil =>
        obtain ⟨rfl, _⟩ := List.cons.inj hin
        rw [List.append_nil] at hx
        exact hx.answered
      | cons z rest =>
        obtain ⟨rfl, rfl⟩ := List.cons.inj hin
        exact h.answered before y rest rfl

theorem follow_booked (program : Program β) (h : Booked w table out log t)
    (hlog : ∀ y ∈ log, y.returned) :
    ∀ e ∈ follow w program log t, Booked w table out e.log e.table ∧ e.Closed := by
  induction program generalizing log t with
  | done =>
    intro e he
    obtain rfl := List.mem_singleton.mp he
    exact ⟨h, hlog⟩
  | call c next ih =>
    intro e he
    rw [follow] at he
    cases hr : c.invoke (w log) t with
    | error f =>
      rw [hr] at he
      obtain rfl := List.mem_singleton.mp he
      exact ⟨h, hlog⟩
    | ok r =>
      rw [hr] at he
      obtain ⟨⟨part, p⟩, hx, he⟩ := List.mem_flatMap.mp he
      have hleaves := invoke_leaves h.stdout hr hx
      have hbooked := h.append hleaves
      rw [onward] at he
      have hanswered := hleaves.answered
      dsimp only at he hanswered hbooked
      cases hending : p.ending with
      | returned retval =>
        rw [hending] at he hbooked
        refine ih retval hbooked (fun y hy => ?_) e he
        rcases List.mem_append.mp hy with hy | hy
        · exact hlog y hy
        · obtain rfl := List.mem_singleton.mp hy
          exact ⟨retval, rfl⟩
      | started _ _ _ | aborted =>
        rw [hending] at he hbooked hanswered
        obtain rfl := List.mem_singleton.mp he
        refine ⟨hbooked, log, _, rfl, ?_, ?_, hlog⟩
        · cases part with
          | child => rfl
          | alone =>
            cases c with
            | system => cases hanswered
            | exec args | redirect output args => cases hanswered
          | parent => cases hanswered.2
        · rintro ⟨_, ⟨⟩⟩

end

def original {β : Type} (log : List (Turn β)) : Bool := log.all fun x => x.part ≠ .child

def Ended.inProgram {β : Type} (e : Ended β) : Bool := e.fate ≠ .gone

def straight {β : Type} : List (Call β) → Program β
  | [] => .done
  | c::cs => .call c fun _ => straight cs

def copies {β : Type} (w : ℕ → World) : ℕ → List (Call β) → ℕ
  | _, [] => 0
  | i, c::cs => if c.faults (w i) then 0 else (if c.copies (w i) then 1 else 0)+copies w (i+1) cs

def goesOn {β : Type} (x : Part × Process β) : Bool := x.2.ending.retval.isSome

section
variable {β : Type} {log : List (Turn β)} {go : Bool → List (Turn β) → Table β → List (Ended β)}
variable {c : Call β}

theorem original_append {x : Turn β} :
    original (log ++ [x]) = (original log && x.part ≠ .child) := by
  simp [original]

theorem onward_original
    (hgo : ∀ retval log t, (go retval log t).countP (fun e => original e.log) =
      if original log then 1 else 0) (x : Part × Process β) :
    (onward go c log x).countP (fun e => original e.log) =
      if original log ∧ x.1 ≠ .child then 1 else 0 := by
  have hlog : original (log ++ [⟨c, x.1, x.2.ending⟩]) = (original log && x.1 ≠ .child) :=
    original_append
  cases hending : x.2.ending with
  | returned retval =>
    rw [onward, hending]
    rw [hending] at hlog
    dsimp only
    rw [hgo, hlog]
    simp
  | started _ _ _ | aborted =>
    rw [onward, hending]
    rw [hending] at hlog
    dsimp only
    rw [List.countP_singleton, hlog]
    simp

theorem follow_original (w : List (Turn β) → World) (program : Program β) (log : List (Turn β))
    (t : Table β) : (follow w program log t).countP (fun e => original e.log) =
      if original log then 1 else 0 := by
  induction program generalizing log t with
  | done => rw [follow, List.countP_singleton]
  | call c next ih =>
    rw [follow]
    split
    · rw [List.countP_singleton]
    · rename_i r _
      rw [List.countP_flatMap, parts]
      split <;> simp [onward_original fun retval => ih retval]

theorem onward_inProgram (go : Bool → List (Turn β) → Table β → List (Ended β)) (c : Call β)
    {n : ℕ} (hgo : ∀ retval log' t, log'.length = log.length+1 →
      (go retval log' t).countP Ended.inProgram = n) (x : Part × Process β) :
    (onward go c log x).countP Ended.inProgram = if goesOn x then n else 0 := by
  rw [onward, goesOn]
  cases x.2.ending with
  | returned retval => exact hgo retval _ _ (by simp)
  | started _ _ _ | aborted => rfl

theorem countP_flatMap_ite {α γ : Type} {p : γ → Bool} {q : α → Bool} {f : α → List γ} {n : ℕ}
    (h : ∀ x, (f x).countP p = if q x then n else 0) (l : List α) :
    (l.flatMap f).countP p = l.countP q*n := by
  induction l with
  | nil => rw [List.flatMap_nil, List.countP_nil, List.countP_nil, Nat.zero_mul]
  | cons x l ih =>
    rw [List.flatMap_cons, List.countP_append, List.countP_cons, ih, h, Nat.add_mul, Nat.add_comm]
    split_ifs <;> simp

theorem parts_goOn {o : Outcomes} {body : Pid → Process β}
    (hparent : (body .parent).ending = .returned true)
    (hfailed : (body .failed).ending = .returned false) :
    (parts (fork o body)).countP goesOn =
      if !o.forkFails && goesOn (.child, body .child) then 2 else 1 := by
  rw [fork]
  cases o.forkFails with
  | true => simp [parts, goesOn, hfailed, Ending.retval]
  | false =>
    simp only [parts, Bool.false_eq_true, if_false, List.countP_cons, List.countP_nil]
    cases goesOn (Part.child, body .child) <;> simp [goesOn, hparent, Ending.retval]

theorem invoke_goOn (w : World) (table : Table β) (c : Call β) :
    (c.faults w = true ∧ ∃ e, c.invoke w table = .error e) ∨
      c.faults w = false ∧ ∃ r, c.invoke w table = .ok r ∧
        (parts r).countP goesOn = if c.copies w then 2 else 1 := by
  cases c with
  | system => exact .inr ⟨rfl, _, rfl, rfl⟩
  | exec args =>
    rcases exec_cases w table args with h | ⟨hfaults, hchecks, hrefused⟩ |
      ⟨hfaults, hchecks, hforks⟩
    · exact .inl h
    · refine .inr ⟨hfaults, _, hrefused, ?_⟩
      simp [Call.copies, hchecks, parts, goesOn, Ending.retval]
    · refine .inr ⟨hfaults, _, hforks, ?_⟩
      rw [parts_goOn rfl rfl, Call.copies, hchecks, Bool.true_and]
      cases hexecv : w.calls.execv <;> simp [goesOn, doExecForked, hexecv, Ending.retval]
  | redirect output args =>
    refine .inr ⟨rfl, ?_⟩
    rw [Call.invoke, doExecRedirect, Call.copies]
    cases w.calls.openFails with
    | true => exact ⟨_, rfl, rfl⟩
    | false =>
      refine ⟨_, rfl, ?_⟩
      rw [parts_goOn rfl rfl]
      cases hdup : w.calls.dup2Fails <;> cases hexecv : w.calls.execv <;>
        simp [goesOn, doExecRedirectForked, hdup, hexecv, Ending.retval]

/-- A program makes its calls whatever they answer, and how a call goes depends on
nothing but its number. Then each call whose `execv` fails in a forked process
doubles the processes which make all the calls behind it. -/
theorem straight_processes (w : ℕ → World) (calls : List (Call β)) (log : List (Turn β))
    (t : Table β) :
    (follow (fun log => w log.length) (straight calls) log t).countP Ended.inProgram =
      2^copies w log.length calls := by
  induction calls generalizing log t with
  | nil => rfl
  | cons c calls ih =>
    rw [straight, follow, copies]
    rcases invoke_goOn (w log.length) t c with ⟨hfaults, e, he⟩ | ⟨hfaults, r, hr, hcount⟩
    · rw [he, hfaults]
      rfl
    · rw [hr, hfaults, if_neg Bool.false_ne_true, pow_add]
      dsimp only
      rw [countP_flatMap_ite (onward_inProgram _ c fun _ log' t hlen => by rw [ih, hlen]), hcount]
      split_ifs <;> rfl

end

section
variable {β : Type} {e : Ended β} {x : Turn β} {log : List (Turn β)}

theorem forked_turn (h : original log = false) : ∃ x ∈ log, x.part = .child := by
  simpa [original] using h

theorem Ended.Closed.inside (h : e.Closed) (hin : e.inProgram = true) :
    ∀ x ∈ e.log, x.returned := by
  rw [Ended.Closed] at h
  rw [Ended.inProgram] at hin
  cases hfate : e.fate with
  | finished | faulted f =>
    rw [hfate] at h
    exact h
  | gone =>
    rw [hfate] at hin
    cases hin

theorem Ended.Closed.left (h : e.Closed) (hgone : e.inProgram = false) :
    ∃ log x, e.log = log ++ [x] ∧ x.part = .child ∧ ¬ x.returned ∧ ∀ y ∈ log, y.returned := by
  rw [Ended.Closed] at h
  rw [Ended.inProgram] at hgone
  cases hfate : e.fate with
  | finished | faulted f =>
    rw [hfate] at hgone
    cases hgone
  | gone =>
    rw [hfate] at h
    exact h

theorem Turn.Answered.copied {w : World} (h : x.Answered w) (hpart : x.part = .child)
    (hreturned : x.returned) : w.calls.execv = none ∧ x.ending = .returned false := by
  rw [Turn.Answered, hpart] at h
  obtain ⟨retval, hretval⟩ := hreturned
  rcases h with h | ⟨_, h⟩ | ⟨_, _, h⟩
  · exact h
  · rw [h] at hretval
    cases hretval
  · rw [h] at hretval
    cases hretval

theorem Turn.Answered.departed {w : World} (h : x.Answered w) (hpart : x.part = .child)
    (hnot : ¬ x.returned) : x.ending = .aborted ∨ ∃ commandEnd,
      x.ending = .started (x.call.command.headD none) x.call.command commandEnd := by
  rw [Turn.Answered, hpart] at h
  rcases h with h | h | ⟨commandEnd, _, h⟩
  · exact absurd ⟨false, h.2⟩ hnot
  · exact .inl h.2
  · exact .inr ⟨commandEnd, h⟩

end

/-- Whatever a program calls and however its calls go, one of the processes which
it ends as has not been forked on the way, and this one is in the program to its
end. Each other that still is comes from a call whose `execv` failed in it and
goes on where this call was made. If the standard output was open at the start,
it is in every process the file of the last call to put one there, as a process
which `execv` left behind keeps it, and one descriptor more is open for each
output file which a call has answered `true` for. A process which has left the
program is the command, or is aborted. -/
theorem program_processes {β : Type} (w : List (Turn β) → World) (program : Program β)
    (table : Table β) (out : β) (h : lookup table STDOUT_FILENO = some out) :
    (follow w program [] table).countP (fun e => original e.log) = 1 ∧
      ∀ e ∈ follow w program [] table,
        lookup e.table STDOUT_FILENO = some (e.log.foldl Turn.stdout out) ∧
        openCount e.table = openCount table+e.log.countP Turn.leaks ∧
        (∀ before x after, e.log = before ++ x::after → x.Answered (w before)) ∧
        (original e.log = true → e.inProgram = true) ∧
        (e.inProgram = true → original e.log = false →
          ∃ before x after, e.log = before ++ x::after ∧ x.part = .child ∧
            (w before).calls.execv = none ∧ x.ending = .returned false) ∧
        (e.inProgram = false → ∃ log x, e.log = log ++ [x] ∧ x.part = .child ∧
          (x.ending = .aborted ∨ ∃ commandEnd,
            x.ending = .started (x.call.command.headD none) x.call.command commandEnd)) := by
  refine ⟨follow_original w program [] table, fun e he => ?_⟩
  obtain ⟨hbooked, hclosed⟩ := follow_booked program ⟨h, rfl, by simp⟩
    (List.forall_mem_nil _) e he
  refine ⟨hbooked.stdout, hbooked.count, hbooked.answered, fun horiginal => ?_,
    fun hin hforked => ?_, fun hgone => ?_⟩
  · by_contra hgone
    obtain ⟨log, x, hlog, hpart, _⟩ := hclosed.left (Bool.eq_false_iff.mpr hgone)
    rw [hlog, original_append, hpart] at horiginal
    simp at horiginal
  · obtain ⟨x, hx, hpart⟩ := forked_turn hforked
    obtain ⟨before, after, hlog⟩ := List.append_of_mem hx
    exact ⟨before, x, after, hlog, hpart,
      (hbooked.answered before x after hlog).copied hpart (hclosed.inside hin x hx)⟩
  · obtain ⟨log, x, hlog, hpart, hnot, _⟩ := hclosed.left hgone
    exact ⟨log, x, hlog, hpart, (hbooked.answered log x [] hlog).departed hpart hnot⟩

def missingThenThere : Program ℕ :=
  .call (.redirect 7 testNone) fun _ => .call (.exec testNone) fun _ => .done

def missingWorld (log : List (Turn ℕ)) : World where
  calls := { execv := if log = [] then none else some (.exited 1) }
  returnCode := 0

theorem program_processes_missing :
    (follow missingWorld missingThenThere [] [some 0, some 1, some 2]).map (fun e =>
        (e.inProgram, lookup e.table STDOUT_FILENO)) =
      [(true, some 1), (false, some 1), (true, some 7), (false, some 7)] ∧
    ∀ e ∈ follow missingWorld missingThenThere [] [some 0, some 1, some 2],
      lookup e.table STDOUT_FILENO = some (e.log.foldl Turn.stdout 1) ∧
        openCount e.table = 3+e.log.countP Turn.leaks := by
  refine ⟨by decide +kernel, fun e he => ?_⟩
  have hprocess := (program_processes missingWorld missingThenThere [some 0, some 1, some 2] 1
    (by decide)).2 e he
  exact ⟨hprocess.1, hprocess.2.1⟩

end Aesd.CommandPrograms
