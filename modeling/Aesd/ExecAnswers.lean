import Aesd.SystemCalls

/-!
# What `do_exec` and `do_exec_redirect` tell their caller

The parent does not look at the status of its child, and a child which cannot
start the command returns to the code which has called the function. So the
answer is right only if nothing was forked or the command succeeds.
-/

set_option autoImplicit false

namespace Aesd.ExecAnswers
open DescriptorTable Aesd.SystemCalls

def third (args : Arguments) : Option CString := (args.command[2]?).join

/-- `do_exec` stops before it forks, or nothing fails in the child. -/
def ExecKept (o : Outcomes) (args : Arguments) : Prop :=
  o.accessFails = true ∨ ∃ word ∈ third args,
    strstr word bin = false ∨ o.forkFails = true ∨ o.execv = some (.exited 0)

def RedirectKept (o : Outcomes) : Prop :=
  o.openFails = true ∨ o.forkFails = true ∨ o.dup2Fails = false ∧ o.execv = some (.exited 0)

def SameChecks (o : Outcomes) (args : Arguments) : Prop :=
  o.openFails = true ∨ o.forkFails = true ∨
    o.accessFails = false ∧ ∃ word ∈ third args, strstr word bin = true

section
variable {β : Type} {o : Outcomes} {body : Pid → Process β} {table : Table β} {args : Arguments}

theorem stringAt_third {word : CString} (h : third args = some word) :
    stringAt args.command 2 = .ok word := by
  rw [third, Option.join_eq_some_iff] at h
  rw [stringAt, h]

theorem stringAt_no_third (h : third args = none) :
    ∃ e, stringAt args.command 2 = .error e := by
  rw [third, Option.join_eq_none_iff] at h
  rw [stringAt]
  rcases h with h | h <;> rw [h] <;> exact ⟨_, rfl⟩

theorem reports_fork (hparent : (body .parent).ending = .returned true)
    (hfailed : (body .failed).ending = .returned false) :
    Reports (.ok (fork o body)) ↔ o.forkFails = true ∨ (body .child).ending.succeeded = true := by
  rw [fork]
  cases hf : o.forkFails with
  | true =>
    refine iff_of_true ⟨⟨_, rfl, hfailed⟩, ?_⟩ (.inl rfl)
    rintro r hr p hp
    obtain rfl := Except.ok.inj hr
    cases hp
  | false =>
    constructor
    · rintro ⟨⟨r, hr, hanswer⟩, _⟩
      obtain rfl := Except.ok.inj hr
      exact .inr (Ending.returned.inj (hparent.symm.trans hanswer)).symm
    · rintro (hf' | hsucc)
      · cases hf'
      refine ⟨⟨_, rfl, hparent.trans (congrArg Ending.returned hsucc.symm)⟩, ?_⟩
      rintro r hr p hp b hb
      obtain rfl := Except.ok.inj hr
      obtain rfl := Option.some.inj hp
      rw [hb] at hsucc
      cases hsucc

theorem reports_refused : Reports (.ok (⟨⟨table, .returned false⟩, none⟩ : Run β)) := by
  refine ⟨⟨_, rfl, rfl⟩, ?_⟩
  rintro r hr p hp
  obtain rfl := Except.ok.inj hr
  cases hp

theorem exec_child_succeeds :
    (doExecForked o table args.command .child).ending.succeeded = true ↔
      o.execv = some (.exited 0) := by
  rw [doExecForked]
  cases o.execv with
  | none => simp [Ending.succeeded]
  | some commandEnd => cases commandEnd <;> simp [Ending.succeeded]

theorem redirect_child_succeeds {fd : ℕ} :
    (doExecRedirectForked o table fd args.command .child).ending.succeeded = true ↔
      o.dup2Fails = false ∧ o.execv = some (.exited 0) := by
  rw [doExecRedirectForked]
  cases o.dup2Fails with
  | true => simp [Ending.succeeded]
  | false =>
    cases o.execv with
    | none => simp [Ending.succeeded]
    | some commandEnd => cases commandEnd <;> simp [Ending.succeeded]

theorem doExec_forks (ha : o.accessFails = false) {word : CString} (ht : third args = some word)
    (hb : strstr word bin = true) :
    doExec o table args = .ok (fork o (doExecForked o table args.command)) := by
  rw [doExec, ha, stringAt_third ht]
  simp [bind, Except.bind, hb, pure, Except.pure]

theorem doExec_no_bin (ha : o.accessFails = false) {word : CString}
    (ht : third args = some word) (hb : strstr word bin = false) :
    doExec o table args = .ok ⟨⟨table, .returned false⟩, none⟩ := by
  rw [doExec, ha, stringAt_third ht]
  simp [bind, Except.bind, hb, pure, Except.pure]

theorem doExec_bad_read (ha : o.accessFails = false) (ht : third args = none) :
    ∃ e, doExec o table args = .error e := by
  obtain ⟨e, he⟩ := stringAt_no_third ht
  exact ⟨e, by rw [doExec, ha, he]; rfl⟩

theorem doExec_no_access (ha : o.accessFails = true) :
    doExec o table args = .ok ⟨⟨table, .returned false⟩, none⟩ := by
  rw [doExec, ha, if_pos rfl]

theorem doExec_reports : Reports (doExec o table args) ↔ ExecKept o args := by
  rw [ExecKept]
  cases ha : o.accessFails with
  | true =>
    rw [doExec_no_access ha]
    exact iff_of_true reports_refused (.inl rfl)
  | false =>
    cases ht : third args with
    | none =>
      obtain ⟨e, he⟩ : ∃ e, doExec o table args = .error e := doExec_bad_read ha ht
      rw [he]
      refine iff_of_false ?_ (by simp)
      rintro ⟨⟨r, hr, _⟩, _⟩
      cases hr
    | some word =>
      cases hb : strstr word bin with
      | false =>
        rw [doExec_no_bin ha ht hb]
        exact iff_of_true reports_refused (.inr ⟨word, rfl, .inl hb⟩)
      | true =>
        rw [doExec_forks ha ht hb, reports_fork rfl rfl, exec_child_succeeds]
        simp [hb]

theorem doExecRedirect_reports {output : β} :
    Reports (doExecRedirect o table output args) ↔ RedirectKept o := by
  rw [doExecRedirect, RedirectKept]
  cases o.openFails with
  | true => exact iff_of_true reports_refused (.inl rfl)
  | false =>
    rw [if_neg Bool.false_ne_true, reports_fork rfl rfl, redirect_child_succeeds]
    simp

theorem told_fork (hparent : (body .parent).ending = .returned true)
    (hfailed : (body .failed).ending = .returned false) :
    told (.ok (fork o body)) = some (!o.forkFails) := by
  rw [fork, told]
  cases o.forkFails with
  | true => rw [if_pos rfl, hfailed]; rfl
  | false => rw [if_neg Bool.false_ne_true, hparent]; rfl

theorem told_redirect {output : β} (ho : o.openFails = false) :
    told (doExecRedirect o table output args) = some (!o.forkFails) := by
  rw [doExecRedirect, ho, if_neg Bool.false_ne_true, told_fork rfl rfl]

theorem told_eq_iff {output : β} (h : ExecKept o args) (ho : o.openFails = false) :
    told (doExec o table args) = told (doExecRedirect o table output args) ↔
      SameChecks o args := by
  rw [told_redirect ho, SameChecks, ho]
  rw [ExecKept] at h
  have hrefused : told (.ok (⟨⟨table, .returned false⟩, none⟩ : Run β)) = some (!o.forkFails) ↔
      o.forkFails = true := by
    cases o.forkFails <;> simp [told, Ending.retval]
  cases ha : o.accessFails with
  | true =>
    rw [doExec_no_access ha, hrefused]
    simp
  | false =>
    rw [ha] at h
    obtain ⟨word, ht, _⟩ := h.resolve_left Bool.false_ne_true
    cases hb : strstr word bin with
    | false =>
      rw [doExec_no_bin ha ht hb, hrefused]
      simp [Option.mem_def.mp ht, hb]
    | true =>
      rw [doExec_forks ha ht hb, told_fork rfl rfl]
      exact iff_of_true rfl (.inr (.inr ⟨rfl, word, ht, hb⟩))

end

/-- For all arguments and however the system calls go: the two functions answer
whether the command has succeeded, answer alike, return in the calling process
only and read no string which is not there, exactly if both stop before they
have forked, or both pass their checks and the command succeeds. -/
theorem answers_iff {β : Type} (o : Outcomes) (table : Table β) (output : β) (args : Arguments) :
    (Reports (doExec o table args) ∧ Reports (doExecRedirect o table output args) ∧
      (o.openFails = false →
        told (doExec o table args) = told (doExecRedirect o table output args))) ↔
      ExecKept o args ∧ RedirectKept o ∧ SameChecks o args := by
  rw [doExec_reports, doExecRedirect_reports]
  refine and_congr_right fun h => and_congr_right fun _ => ?_
  cases ho : o.openFails with
  | true => exact iff_of_true nofun (.inl ho)
  | false =>
    have hiff : told (doExec o table args) = told (doExecRedirect o table output args) ↔
        SameChecks o args := told_eq_iff h ho
    exact ⟨fun hsame => hiff.mp (hsame rfl), fun hchecks _ => hiff.mpr hchecks⟩

def testNone : Arguments where
  words :=
    [some ⟨[47,117,115,114,47,98,105,110,47,116,101,115,116], by decide⟩,
      some ⟨[45,102], by decide⟩, some ⟨[47,98,105,110,47,110,111,110,101], by decide⟩]
  nonempty := by decide

theorem exit_status_ignored :
    told (doExec { execv := some (.exited 1) } [some 0, some 1, some 2] testNone) = some true ∧
    told (doExecRedirect { execv := some (.exited 1) } [some 0, some 1, some 2] 3 testNone) =
      some true ∧
    (doExec { execv := some (.exited 1) } [some 0, some 1, some 2]
      testNone).toOption.map Run.succeeded = some false := by
  decide

/-- With one argument `do_exec` reads beyond the array, with two it reads `NULL`. -/
theorem doExec_short (o : Outcomes) {β : Type} (table : Table β) (args : Arguments)
    (ha : o.accessFails = false) (h : args.words.length ≤ 2) :
    doExec o table args = .error (if args.words.length = 1 then .outside 2 else .null 2) := by
  obtain ⟨words, hne⟩ := args
  rw [doExec, ha, if_neg Bool.false_ne_true]
  match words with
  | [] => exact absurd rfl hne
  | [_] => rfl
  | [_, _] => rfl
  | _::_::_::rest => exact absurd h (by simp)

section
variable {β : Type} {o : Outcomes} {table : Table β} {output : β} {args : Arguments} {r : Run β}

theorem redirect_started (hr : doExecRedirect o table output args = .ok r)
    (hfd : lowestFree table ≠ STDOUT_FILENO) {p : Process β} (hp : p ∈ r.child)
    {path : Option CString} {argv : List (Option CString)} {commandEnd : CommandEnd}
    (he : p.ending = .started path argv commandEnd) :
    path = args.command.headD none ∧ argv = args.command ∧
      lookup p.table STDOUT_FILENO = some output := by
  have hopened : lookup (install table output) (lowestFree table) = some output := by
    rw [lookup_install, if_pos rfl]
  rw [doExecRedirect, fork] at hr
  split_ifs at hr with ho hf <;> obtain rfl := Except.ok.inj hr
  · cases hp
  · cases hp
  · obtain rfl := Option.some.inj hp
    rw [doExecRedirectForked] at he ⊢
    split_ifs at he ⊢ with hd
    cases hx : o.execv with
    | none =>
      rw [hx] at he
      cases he
    | some x =>
      rw [hx] at he
      obtain ⟨rfl, rfl, rfl⟩ := Ending.started.inj he
      refine ⟨rfl, rfl, ?_⟩
      rw [lookup_close, if_neg hfd.symm, lookup_duplicate, if_pos rfl, hopened]

theorem redirect_descriptor (hr : doExecRedirect o table output args = .ok r)
    (ho : o.openFails = false) :
    lookup r.caller.table (lowestFree table) = if r.child.isSome then some output else none := by
  rw [doExecRedirect, ho, if_neg Bool.false_ne_true, fork] at hr
  split_ifs at hr with hf <;> obtain rfl := Except.ok.inj hr
  · change lookup (close (install table output) (lowestFree table)) (lowestFree table) = none
    rw [lookup_close, if_pos rfl]
  · change lookup (install table output) (lowestFree table) = some output
    rw [lookup_install, if_pos rfl]

end

end Aesd.ExecAnswers
