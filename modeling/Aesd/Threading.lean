import Aesd.Lib.BlockHeap
import Aesd.Lib.Interleaving

/-!
# Threads which obtain a mutex

`start_thread_obtaining_mutex` and the thread which it starts, for any number of
callers and mutexes. Each access to the `thread_data` and each call which may
block or fail is a step. The joiner frees the block which the thread returns.
The `sleep.sh` commands only take time, and their status is not looked at.
-/

set_option autoImplicit false

namespace Aesd.Threading
open Interleaving BlockHeap

/-- `struct thread_data`, with the number of the mutex which it points to. -/
structure ThreadData where
  mutex : ℕ
  waitToObtainMs : ℤ
  waitToReleaseMs : ℤ
  threadCompleteSuccess : Bool
  deriving DecidableEq, Repr

inductive ThreadFault where
  | badAccess (p : ℕ)
  | badFree (p : ℕ)
  | unlockNotHeld (m : ℕ)
  deriving DecidableEq, Repr

structure Fails where
  lock : Bool := false
  unlock : Bool := false
  deriving DecidableEq, Repr

/-- A call of `start_thread_obtaining_mutex`. `nullArg` says that `thread` or
`mutex` is `NULL`. -/
structure StartCall where
  nullArg : Bool := false
  mutex : ℕ
  waitToObtainMs : ℤ
  waitToReleaseMs : ℤ
  mallocAt : Option ℕ
  createFails : Bool := false
  fails : Fails := {}

structure Shared where
  locked : ℕ → Bool
  heap : ℕ → Option ThreadData

/-- Where a caller is, and from `sleeping` on the thread it has started. -/
inductive Phase where
  | outside
  | creating (p : ℕ) (createFails : Bool) (f : Fails)
  | sleeping (p : ℕ) (f : Fails)
  | obtaining (p : ℕ) (f : Fails)
  | holding (p : ℕ) (f : Fails)
  | releasing (p : ℕ) (f : Fails)
  | completing (p : ℕ) (f : Fails)
  | returned (p : ℕ) (f : Fails)
  deriving DecidableEq, Repr

inductive Move where
  | start (c : StartCall)
  | goOn
  | join

inductive Shown where
  | silent
  | started (retval : Bool)
  | joined (success : Bool)
  deriving DecidableEq, Repr

def readData (s : Shared) (p : ℕ) : Except ThreadFault ThreadData :=
  match s.heap p with
  | some d => .ok d
  | none => .error (.badAccess p)

def setComplete (s : Shared) (p : ℕ) (success : Bool) : Except ThreadFault Shared := do
  let d ← readData s p
  let d := { d with threadCompleteSuccess := success }
  return { s with heap := Function.update s.heap p (some d) }

def freeData (s : Shared) (p : ℕ) : Except ThreadFault Shared :=
  match s.heap p with
  | some _ => .ok { s with heap := Function.update s.heap p none }
  | none => .error (.badFree p)

def mallocData (s : Shared) (mallocAt : Option ℕ) : Option ℕ :=
  mallocAt.filter fun p => (s.heap p).isNone

abbrev ThreadStep := Except ThreadFault (Option (Shared × Phase × Shown))

def startThread (s : Shared) (c : StartCall) : ThreadStep :=
  if c.nullArg then .ok (some (s, .outside, .started false))
  else
    match mallocData s c.mallocAt with
    | none => .ok (some (s, .outside, .started false))
    | some p =>
      let data : ThreadData := ⟨c.mutex, c.waitToObtainMs, c.waitToReleaseMs, false⟩
      .ok (some ({ s with heap := Function.update s.heap p (some data) },
        .creating p c.createFails c.fails, .silent))

/-- The next step of a caller or of its thread, `none` where it waits. -/
def Phase.next (s : Shared) : Phase → ThreadStep
  | .outside => .ok none
  | .creating p createFails f =>
    if createFails then do
      let s ← freeData s p
      return some (s, .outside, .started false)
    else .ok (some (s, .sleeping p f, .started true))
  | .sleeping p f => do
    let _ ← readData s p
    return some (s, .obtaining p f, .silent)
  | .obtaining p f => do
    let d ← readData s p
    if f.lock then
      let s ← setComplete s p false
      return some (s, .returned p f, .silent)
    else if s.locked d.mutex then return none
    else return some ({ s with locked := Function.update s.locked d.mutex true },
      .holding p f, .silent)
  | .holding p f => do
    let _ ← readData s p
    return some (s, .releasing p f, .silent)
  | .releasing p f => do
    let d ← readData s p
    if f.unlock then
      let s ← setComplete s p false
      return some (s, .returned p f, .silent)
    else if s.locked d.mutex then
      return some ({ s with locked := Function.update s.locked d.mutex false },
        .completing p f, .silent)
    else .error (.unlockNotHeld d.mutex)
  | .completing p f => do
    let s ← setComplete s p true
    return some (s, .returned p f, .silent)
  | .returned _ _ => .ok none

def joinThread (s : Shared) (p : ℕ) : ThreadStep := do
  let d ← readData s p
  let s ← freeData s p
  return some (s, .outside, .joined d.threadCompleteSuccess)

def threadProgram : Program ThreadFault Shared Phase Move Shown
  | s, .outside, .start c => startThread s c
  | s, .returned p _, .join => joinThread s p
  | s, l, .goOn => l.next s
  | _, _, _ => .ok none

def allOutside {ι : Type*} : Config ι Shared Phase where
  shared := ⟨fun _ => false, fun _ => none⟩
  locals := fun _ => .outside

def Phase.block : Phase → Option ℕ
  | .outside => none
  | .creating p _ _ => some p
  | .sleeping p _ => some p
  | .obtaining p _ => some p
  | .holding p _ => some p
  | .releasing p _ => some p
  | .completing p _ => some p
  | .returned p _ => some p

def Phase.inSection : Phase → Bool
  | .holding _ _ => true
  | .releasing _ _ => true
  | _ => false

def Phase.fails : Phase → Fails
  | .outside => {}
  | .creating _ _ f => f
  | .sleeping _ f => f
  | .obtaining _ f => f
  | .holding _ f => f
  | .releasing _ f => f
  | .completing _ f => f
  | .returned _ f => f

def Phase.flag : Phase → Option Bool
  | .returned _ f => some (!f.lock && !f.unlock)
  | _ => none

def Phase.Fine : Phase → Prop
  | .holding _ f => f.lock = false
  | .releasing _ f => f.lock = false
  | .completing _ f => f.lock = false ∧ f.unlock = false
  | _ => True

/-- The thread which has locked a mutex. One which could not unlock it has
returned and left it locked. -/
inductive Holder (ι : Type*) where
  | free
  | thread (i : ι)
  | abandoned

structure Ghost (ι : Type*) where
  heap : ℕ → Option ThreadData
  owner : ℕ → Option ι
  holder : ℕ → Holder ι
  trace : List (ι × Shown)

structure Common {ι : Type*} (sound : Bool) (g : Ghost ι) (s : Shared) : Prop where
  heap : s.heap = g.heap
  locked : ∀ m, s.locked m = true ↔ g.holder m ≠ .free
  owned : ∀ a, g.owner a = none ↔ g.heap a = none
  sound : sound = true → ∀ m, g.holder m ≠ .abandoned

structure Own {ι : Type*} (sound : Bool) (g : Ghost ι) (i : ι) (l : Phase) : Prop where
  owner : ∀ a, g.owner a = some i ↔ l.block = some a
  flag : ∀ a d, l.block = some a → g.heap a = some d → ∀ b, l.flag = some b →
    d.threadCompleteSuccess = b
  holder : ∀ m, g.holder m = .thread i ↔ l.inSection = true ∧
    ∃ a d, l.block = some a ∧ g.heap a = some d ∧ d.mutex = m
  fine : l.Fine
  sound : sound = true → l.fails.unlock = false

section
variable {ι : Type*} {sound : Bool} {g g' : Ghost ι} {s : Shared} {i j : ι}
variable {l : Phase}

theorem Own.frame (h : Own sound g j l) (howner : ∀ a, g'.owner a = some j ↔ g.owner a = some j)
    (hheap : ∀ a, g.owner a = some j → g'.heap a = g.heap a)
    (hholder : ∀ m, g'.holder m = .thread j ↔ g.holder m = .thread j) : Own sound g' j l where
  owner a := (howner a).trans (h.owner a)
  flag a d ha hd := h.flag a d ha (by rw [← hheap a ((h.owner a).mpr ha), hd])
  holder m := by
    rw [hholder, h.holder]
    refine and_congr_right fun _ => exists_congr fun a => exists_congr fun d =>
      and_congr_right fun ha => ?_
    rw [hheap a ((h.owner a).mpr ha)]
  fine := h.fine
  sound := h.sound

theorem Own.goesOn (h : Own sound g i l) (l' : Phase) (hblock : l'.block = l.block)
    (hsection : l'.inSection = l.inSection) (hflag : l'.flag = none) (hfine : l'.Fine)
    (hfails : l'.fails = l.fails) : Own sound g i l' where
  owner a := by rw [hblock, h.owner]
  flag a d _ _ b hb := by
    rw [hflag] at hb
    cases hb
  holder m := by rw [hsection, hblock, h.holder]
  fine := hfine
  sound := by rw [hfails]; exact h.sound

theorem own_data (hs : Common sound g s) (hl : Own sound g i l) {p : ℕ} (hp : l.block = some p) :
    ∃ d, g.heap p = some d ∧ readData s p = .ok d := by
  have howner := (hl.owner p).mpr hp
  cases hd : g.heap p with
  | none =>
    rw [(hs.owned p).mpr hd] at howner
    cases howner
  | some d => exact ⟨d, rfl, by rw [readData, hs.heap, hd]⟩

def Proceeds (sound : Bool) (g : Ghost ι) (i : ι) (x : ThreadStep) : Prop :=
  x = .ok none ∨ ∃ s l o g', x = .ok (some (s, l, o)) ∧
    Advances (Common sound) (Own sound) Ghost.trace g i s l o g'

theorem proceeds_same (hs : Common sound g s) {l' : Phase} (hl : Own sound g i l') (o : Shown) :
    Proceeds sound g i (.ok (some (s, l', o))) := by
  refine .inr ⟨s, l', o, { g with trace := g.trace ++ [(i, o)] }, rfl, ?_⟩
  apply Advances.mk
  · exact ⟨hs.heap, hs.locked, hs.owned, hs.sound⟩
  · exact ⟨hl.owner, hl.flag, hl.holder, hl.fine, hl.sound⟩
  · exact fun j m _ hm => ⟨hm.owner, hm.flag, hm.holder, hm.fine, hm.sound⟩
  · rfl

theorem others_heap {a p : ℕ} (hp : g.owner p = some i) (hj : j ≠ i) (ha : g.owner a = some j)
    (x : Option ThreadData) : Function.update g.heap p x a = g.heap a := by
  have hne : a ≠ p := by
    rintro rfl
    exact hj (Option.some.inj (ha.symm.trans hp))
  rw [Function.update_of_ne hne]

theorem Own.not_holder (hl : Own sound g i l) (hsection : l.inSection = false) (m : ℕ) :
    g.holder m ≠ .thread i := by
  rw [Ne, hl.holder, hsection]
  exact fun h => Bool.false_ne_true h.1

theorem start_proceeds (hs : Common sound g s) (hl : Own sound g i .outside) (c : StartCall)
    (hsound : sound = true → c.fails.unlock = false) :
    Proceeds sound g i (startThread s c) := by
  rw [startThread]
  split_ifs with hnull
  · exact proceeds_same hs hl _
  · cases hm : mallocData s c.mallocAt with
    | none => exact proceeds_same hs hl _
    | some p =>
      rw [mallocData, Option.filter_eq_some_iff, hs.heap, Option.isNone_iff_eq_none] at hm
      have hfree : g.heap p = none := hm.2
      have hnone : g.owner p = none := (hs.owned p).mpr hfree
      refine .inr ⟨_, _, _, { g with
        heap := Function.update g.heap p
          (some ⟨c.mutex, c.waitToObtainMs, c.waitToReleaseMs, false⟩)
        owner := Function.update g.owner p (some i)
        trace := g.trace ++ [(i, .silent)] }, rfl, ?_, ?_, ?_, rfl⟩
      · refine ⟨by rw [hs.heap], hs.locked, fun a => ?_, hs.sound⟩
        by_cases ha : a = p
        · subst ha
          simp
        · simpa [ha] using hs.owned a
      · refine ⟨fun a => ?_, ?_, fun m => ?_, trivial, hsound⟩
        · by_cases ha : a = p
          · subst ha
            simp [Phase.block]
          · have hother : g.owner a ≠ some i := by
              rw [Ne, hl.owner]
              exact nofun
            simp [Phase.block, ha, hother, Ne.symm ha]
        · rintro _ _ _ _ _ ⟨⟩
        · exact iff_of_false (hl.not_holder rfl m) fun h => Bool.false_ne_true h.1
      · intro j m hj hm
        refine hm.frame (fun a => ?_) (fun a ha => ?_) fun _ => Iff.rfl
        · by_cases ha : a = p
          · subst ha
            simp [hnone, hj.symm]
          · simp [ha]
        · have hne : a ≠ p := by
            rintro rfl
            rw [hnone] at ha
            cases ha
          exact Function.update_of_ne hne _ _

theorem free_proceeds (hs : Common sound g s) (hl : Own sound g i l) {p : ℕ}
    (hp : l.block = some p) (hsection : l.inSection = false) (o : Shown) :
    ∃ s', freeData s p = .ok s' ∧ Proceeds sound g i (.ok (some (s', .outside, o))) := by
  obtain ⟨d, hd, _⟩ := own_data hs hl hp
  have howner := (hl.owner p).mpr hp
  refine ⟨{ s with heap := Function.update s.heap p none }, by rw [freeData, hs.heap, hd],
    .inr ⟨_, _, _, { g with
      heap := Function.update g.heap p none
      owner := Function.update g.owner p none
      trace := g.trace ++ [(i, o)] }, rfl, ?_, ?_, ?_, rfl⟩⟩
  · refine ⟨by rw [hs.heap], hs.locked, fun a => ?_, hs.sound⟩
    by_cases ha : a = p
    · subst ha
      simp
    · simpa [ha] using hs.owned a
  · refine ⟨fun a => ?_, ?_, fun m => ?_, trivial, fun _ => rfl⟩
    · by_cases ha : a = p
      · subst ha
        simp [Phase.block]
      · have hother : g.owner a ≠ some i := by
          rw [Ne, hl.owner, hp]
          exact fun h => ha (Option.some.inj h).symm
        simp [Phase.block, ha, hother]
    · rintro _ _ ⟨⟩
    · exact iff_of_false (hl.not_holder hsection m) fun h => Bool.false_ne_true h.1
  · intro j m hj hm
    refine hm.frame (fun a => ?_) (fun a ha => others_heap howner hj ha none) fun _ => Iff.rfl
    by_cases ha : a = p
    · subst ha
      simp [howner, hj.symm]
    · simp [ha]

theorem complete_proceeds (hs : Common sound g s) (hl : Own sound g i l) {p : ℕ}
    (hp : l.block = some p) (success : Bool) (l' : Phase) (holder : ℕ → Holder ι)
    (hblock : l'.block = some p) (hsection : l'.inSection = false)
    (hflag : l'.flag = some success) (hfine : l'.Fine) (hfails : l'.fails = l.fails)
    (hnone : ∀ m, holder m ≠ .thread i)
    (hothers : ∀ m j, j ≠ i → (holder m = .thread j ↔ g.holder m = .thread j))
    (hlocked : ∀ m, s.locked m = true ↔ holder m ≠ .free)
    (hsound : sound = true → ∀ m, holder m ≠ .abandoned) :
    ∃ s', setComplete s p success = .ok s' ∧ Proceeds sound g i (.ok (some (s', l', .silent))) := by
  obtain ⟨d, hd, hread⟩ := own_data hs hl hp
  have howner := (hl.owner p).mpr hp
  refine ⟨_, by rw [setComplete, hread]; rfl, .inr ⟨_, _, _, { g with
      heap := Function.update g.heap p (some { d with threadCompleteSuccess := success })
      holder
      trace := g.trace ++ [(i, .silent)] }, rfl, ?_, ?_, ?_, rfl⟩⟩
  · refine ⟨by rw [hs.heap], hlocked, fun a => ?_, hsound⟩
    by_cases ha : a = p
    · subst ha
      simp [howner]
    · simpa [ha] using hs.owned a
  · refine ⟨fun a => ?_, fun a e ha he b hb => ?_, fun m => ?_, hfine, ?_⟩
    · rw [hblock, ← hp]
      exact hl.owner a
    · obtain rfl : p = a := Option.some.inj (hblock.symm.trans ha)
      change Function.update g.heap p _ p = some e at he
      rw [Function.update_self] at he
      obtain rfl := Option.some.inj he
      exact Option.some.inj (hflag.symm.trans hb)
    · exact iff_of_false (hnone m) fun h => Bool.false_ne_true (hsection.symm.trans h.1)
    · rw [hfails]
      exact hl.sound
  · intro j m hj hm
    exact hm.frame (fun _ => Iff.rfl) (fun a ha => others_heap howner hj ha _)
      fun n => hothers n j hj

theorem mutex_proceeds (hs : Common sound g s) (hl : Own sound g i l) (l' : Phase) {m : ℕ}
    (hm : ∀ j, j ≠ i → g.holder m ≠ .thread j) (b : Bool) (x : Holder ι)
    (hx : x = if b then .thread i else .free) (hblock : l'.block = l.block)
    (hflag : l'.flag = none) (hfine : l'.Fine) (hfails : l'.fails = l.fails)
    (hholder : ∀ n, Function.update g.holder m x n = .thread i ↔ l'.inSection = true ∧
      ∃ a d, l.block = some a ∧ g.heap a = some d ∧ d.mutex = n) :
    Proceeds sound g i
      (.ok (some ({ s with locked := Function.update s.locked m b }, l', .silent))) := by
  refine .inr ⟨_, _, _, { g with
    holder := Function.update g.holder m x
    trace := g.trace ++ [(i, .silent)] }, rfl, ?_, ?_, ?_, rfl⟩
  · refine ⟨hs.heap, fun n => ?_, hs.owned, fun h n => ?_⟩
    · by_cases hn : n = m
      · subst hn
        cases b <;> simp [hx]
      · simpa [hn] using hs.locked n
    · by_cases hn : n = m
      · subst hn
        cases b <;> simp [hx]
      · simpa [hn] using hs.sound h n
  · refine ⟨fun a => ?_, fun a d _ _ b hb => ?_, fun n => ?_, hfine, ?_⟩
    · rw [hblock]
      exact hl.owner a
    · rw [hflag] at hb
      cases hb
    · rw [hblock]
      exact hholder n
    · rw [hfails]
      exact hl.sound
  · intro j k hj hk
    refine hk.frame (fun _ => Iff.rfl) (fun _ _ => rfl) fun n => ?_
    by_cases hn : n = m
    · subst hn
      have hne := hm j hj
      cases b <;> simp [hx, hne, hj.symm]
    · simp [hn]

theorem section_holder (hl : Own sound g i l) (hsection : l.inSection = true) {p : ℕ}
    (hp : l.block = some p) {d : ThreadData} (hd : g.heap p = some d) (m : ℕ) :
    g.holder m = .thread i ↔ m = d.mutex := by
  rw [hl.holder]
  constructor
  · rintro ⟨_, a, e, ha, he, rfl⟩
    obtain rfl := Option.some.inj (hp.symm.trans ha)
    obtain rfl := Option.some.inj (hd.symm.trans he)
    rfl
  · rintro rfl
    exact ⟨hsection, p, d, hp, hd, rfl⟩

theorem obtaining_proceeds (hs : Common sound g s) {p : ℕ} {f : Fails}
    (hl : Own sound g i (.obtaining p f)) : Proceeds sound g i (Phase.next s (.obtaining p f)) := by
  obtain ⟨d, hd, hread⟩ := own_data hs hl rfl
  rw [Phase.next, hread, ok_bind]
  split_ifs with hf hm
  · obtain ⟨s', hset, hgo⟩ := complete_proceeds hs hl rfl false (.returned p f) g.holder rfl rfl
      (by simp [Phase.flag, hf]) trivial rfl (hl.not_holder rfl) (fun _ _ _ => Iff.rfl)
      hs.locked hs.sound
    rw [hset, ok_bind]
    exact hgo
  · exact .inl rfl
  · have hfree : g.holder d.mutex = .free := by
      by_contra hne
      exact hm ((hs.locked _).mpr hne)
    rw [Bool.not_eq_true] at hf
    refine mutex_proceeds hs hl (.holding p f) (by simp [hfree]) true (.thread i) rfl rfl rfl hf
      rfl fun n => ?_
    have hnot := hl.not_holder rfl n
    by_cases hn : n = d.mutex
    · subst hn
      simp only [Function.update_self, true_iff]
      exact ⟨rfl, p, d, rfl, hd, rfl⟩
    · rw [Function.update_of_ne hn]
      refine iff_of_false hnot ?_
      rintro ⟨_, a, e, ha, he, rfl⟩
      obtain rfl := Option.some.inj ha
      obtain rfl := Option.some.inj (hd.symm.trans he)
      exact hn rfl

theorem releasing_proceeds (hs : Common sound g s) {p : ℕ} {f : Fails}
    (hl : Own sound g i (.releasing p f)) : Proceeds sound g i (Phase.next s (.releasing p f)) := by
  obtain ⟨d, hd, hread⟩ := own_data hs hl rfl
  have hholder := section_holder hl rfl rfl hd
  have hmine := (hholder d.mutex).mpr rfl
  have hlocked : s.locked d.mutex = true := (hs.locked _).mpr (by rw [hmine]; exact nofun)
  have hrest (x : Holder ι) (hx : x ≠ .thread i) (n : ℕ) :
      Function.update g.holder d.mutex x n ≠ .thread i := by
    by_cases hn : n = d.mutex
    · subst hn
      rwa [Function.update_self]
    · rw [Function.update_of_ne hn, Ne, hholder]
      exact hn
  rw [Phase.next, hread, ok_bind]
  by_cases hf : f.unlock = true
  · rw [if_pos hf]
    have hothers (n : ℕ) (j : ι) (hj : j ≠ i) :
        Function.update g.holder d.mutex .abandoned n = .thread j ↔ g.holder n = .thread j := by
      by_cases hn : n = d.mutex
      · subst hn
        simp [hmine, hj.symm]
      · rw [Function.update_of_ne hn]
    have hstill (n : ℕ) :
        s.locked n = true ↔ Function.update g.holder d.mutex .abandoned n ≠ .free := by
      by_cases hn : n = d.mutex
      · subst hn
        simp [hlocked]
      · rw [Function.update_of_ne hn]
        exact hs.locked n
    have hsound (h : sound = true) (n : ℕ) :
        Function.update g.holder d.mutex .abandoned n ≠ .abandoned := by
      have hunlock : f.unlock = false := hl.sound h
      rw [hf] at hunlock
      cases hunlock
    obtain ⟨s', hset, hgo⟩ := complete_proceeds hs hl rfl false (.returned p f)
      (Function.update g.holder d.mutex .abandoned) rfl rfl (by simp [Phase.flag, hf]) trivial rfl
      (hrest _ nofun) hothers hstill hsound
    rw [hset, ok_bind]
    exact hgo
  · rw [if_neg hf, if_pos hlocked]
    rw [Bool.not_eq_true] at hf
    refine mutex_proceeds hs hl (.completing p f) (fun j hj => ?_) false .free rfl rfl rfl
      ⟨hl.fine, hf⟩ rfl fun n => ?_
    · rw [hmine]
      exact fun h => hj (Holder.thread.inj h).symm
    · exact iff_of_false (hrest .free nofun n) fun h => Bool.false_ne_true h.1

theorem next_proceeds (hs : Common sound g s) (hl : Own sound g i l) :
    Proceeds sound g i (l.next s) := by
  cases l with
  | outside => exact .inl rfl
  | creating p createFails f =>
    rw [Phase.next]
    split_ifs
    · obtain ⟨s', hfree, hgo⟩ := free_proceeds hs hl rfl rfl (.started false)
      rw [hfree, ok_bind]
      exact hgo
    · exact proceeds_same hs (hl.goesOn (.sleeping p f) rfl rfl rfl trivial rfl) _
  | sleeping p f =>
    obtain ⟨d, _, hread⟩ := own_data hs hl rfl
    rw [Phase.next, hread, ok_bind]
    exact proceeds_same hs (hl.goesOn (.obtaining p f) rfl rfl rfl trivial rfl) _
  | obtaining p f => exact obtaining_proceeds hs hl
  | holding p f =>
    obtain ⟨d, _, hread⟩ := own_data hs hl rfl
    rw [Phase.next, hread, ok_bind]
    exact proceeds_same hs (hl.goesOn (.releasing p f) rfl rfl rfl hl.fine rfl) _
  | releasing p f => exact releasing_proceeds hs hl
  | completing p f =>
    obtain ⟨hlock, hunlock⟩ : f.lock = false ∧ f.unlock = false := hl.fine
    obtain ⟨s', hset, hgo⟩ := complete_proceeds hs hl rfl true (.returned p f) g.holder rfl rfl
      (by simp [Phase.flag, hlock, hunlock]) trivial rfl (hl.not_holder rfl)
      (fun _ _ _ => Iff.rfl) hs.locked hs.sound
    rw [Phase.next, hset, ok_bind]
    exact hgo
  | returned p f => exact .inl rfl

end

def Move.UnlockOk : Move → Prop
  | .start c => c.fails.unlock = false
  | _ => True

section
variable {ι : Type*} {sound : Bool} {g : Ghost ι} {s : Shared} {i : ι} {l : Phase}

theorem move_proceeds (hs : Common sound g s) (hl : Own sound g i l) (a : Move)
    (ha : sound = true → a.UnlockOk) : Proceeds sound g i (threadProgram s l a) := by
  cases a with
  | start c =>
    cases l with
    | outside => exact start_proceeds hs hl c ha
    | _ => exact .inl rfl
  | goOn =>
    have hgo : threadProgram s l .goOn = l.next s := by cases l <;> rfl
    rw [hgo]
    exact next_proceeds hs hl
  | join =>
    cases l with
    | returned p f =>
      obtain ⟨d, _, hread⟩ := own_data hs hl rfl
      obtain ⟨s', hfree, hgo⟩ := free_proceeds hs hl rfl rfl (.joined d.threadCompleteSuccess)
      rw [threadProgram, joinThread, hread, ok_bind, hfree, ok_bind]
      exact hgo
    | _ => exact .inl rfl

theorem threads_keep (ι : Type*) :
    Keeps threadProgram (Common (ι := ι) false) (Own false) Ghost.trace :=
  fun _ _ _ _ a hs hl => move_proceeds hs hl a nofun

theorem threads_keep_sound (ι : Type*) :
    Keeps (restrict Move.UnlockOk threadProgram) (Common (ι := ι) true) (Own true) Ghost.trace :=
  fun _ _ _ _ a hs hl => move_proceeds hs hl a.1 fun _ => a.2

end

def threadLeft : Phase → ℕ
  | .outside => 0
  | .returned _ _ => 0
  | .completing _ _ => 1
  | .releasing _ _ => 2
  | .holding _ _ => 3
  | .obtaining _ _ => 4
  | .sleeping _ _ => 5
  | .creating _ _ _ => 6

section
variable {s s' : Shared} {l l' : Phase} {o : Shown}

theorem readData_bind {p : ℕ} {f : ThreadData → ThreadStep} {x : Option (Shared × Phase × Shown)}
    (h : (readData s p >>= f) = .ok x) : ∃ d, readData s p = .ok d ∧ f d = .ok x := by
  cases hd : readData s p with
  | error e =>
    rw [hd] at h
    cases h
  | ok d =>
    rw [hd] at h
    exact ⟨d, rfl, h⟩

theorem changes_bind {x : Except ThreadFault Shared} {y : Option (Shared × Phase × Shown)}
    (h : (x >>= fun s => pure (some (s, l, o))) = .ok y) : ∃ s, y = some (s, l, o) := by
  cases x with
  | error e => cases h
  | ok s =>
    obtain rfl := Except.ok.inj h
    exact ⟨s, rfl⟩

theorem next_ends {y : Option (Shared × Phase × Shown)} (h : l.next s = .ok y) :
    (∃ s' l' o, y = some (s', l', o) ∧ threadLeft l' < threadLeft l) ∨
      y = none ∧ (threadLeft l = 0 ∨ ∃ p f d, l = .obtaining p f ∧ readData s p = .ok d ∧
        s.locked d.mutex = true) := by
  cases l with
  | outside | returned p f => exact .inr ⟨(Except.ok.inj h).symm, .inl rfl⟩
  | creating p createFails f =>
    rw [Phase.next] at h
    split_ifs at h
    · obtain ⟨s', rfl⟩ := changes_bind h
      exact .inl ⟨_, _, _, rfl, by simp [threadLeft]⟩
    · obtain rfl := Except.ok.inj h
      exact .inl ⟨_, _, _, rfl, by simp [threadLeft]⟩
  | sleeping p f | holding p f =>
    obtain ⟨d, _, hy⟩ := readData_bind h
    obtain rfl := Except.ok.inj hy
    exact .inl ⟨_, _, _, rfl, by simp [threadLeft]⟩
  | obtaining p f =>
    obtain ⟨d, hd, hy⟩ := readData_bind h
    split_ifs at hy with hf hm
    · obtain ⟨s', rfl⟩ := changes_bind hy
      exact .inl ⟨_, _, _, rfl, by simp [threadLeft]⟩
    · exact .inr ⟨(Except.ok.inj hy).symm, .inr ⟨p, f, d, rfl, hd, hm⟩⟩
    · obtain rfl := Except.ok.inj hy
      exact .inl ⟨_, _, _, rfl, by simp [threadLeft]⟩
  | releasing p f =>
    obtain ⟨d, hd, hy⟩ := readData_bind h
    split_ifs at hy
    · obtain ⟨s', rfl⟩ := changes_bind hy
      exact .inl ⟨_, _, _, rfl, by simp [threadLeft]⟩
    · obtain rfl := Except.ok.inj hy
      exact .inl ⟨_, _, _, rfl, by simp [threadLeft]⟩
  | completing p f =>
    obtain ⟨s', rfl⟩ := changes_bind h
    exact .inl ⟨_, _, _, rfl, by simp [threadLeft]⟩

theorem program_goOn (s : Shared) (l : Phase) : threadProgram s l .goOn = l.next s := by
  cases l <;> rfl

end

def goOn : {a : Move // a.UnlockOk} := ⟨.goOn, trivial⟩

section
variable {ι : Type*}

theorem threads_shorten : Shortens (restrict Move.UnlockOk threadProgram)
    (Common (ι := ι) true) (Own true) goOn threadLeft := by
  intro g s i l s' l' o _ _ h
  rw [restrict, goOn, program_goOn] at h
  rcases next_ends h with ⟨_, _, _, heq, hless⟩ | ⟨hnone, _⟩
  · obtain ⟨_, rfl, _⟩ := by simpa using heq
    exact hless
  · cases hnone

theorem threads_unblocked : Unblocked (restrict Move.UnlockOk threadProgram)
    (Common (ι := ι) true) (Own true) goOn threadLeft := by
  rintro g c ⟨hs, hl⟩ ⟨i, hi⟩
  have hgo (j : ι) (hj : threadLeft (c.locals j) ≠ 0)
      (hwait : ∀ p f d, c.locals j = .obtaining p f → readData c.shared p = .ok d →
        c.shared.locked d.mutex = false) : ∃ j x, threadLeft (c.locals j) ≠ 0 ∧
          restrict Move.UnlockOk threadProgram c.shared (c.locals j) goOn = .ok (some x) := by
    rcases next_proceeds hs (hl j) with hnone | ⟨s', l', o, _, hsome, _⟩
    · rcases next_ends hnone with ⟨_, _, _, heq, _⟩ | ⟨_, hzero | ⟨p, f, d, hp, hd, hm⟩⟩
      · cases heq
      · exact absurd hzero hj
      · rw [hwait p f d hp hd] at hm
        cases hm
    · exact ⟨j, _, hj, by rw [restrict, goOn, program_goOn, hsome]⟩
  by_cases hfree : ∃ p f d, c.locals i = .obtaining p f ∧ readData c.shared p = .ok d ∧
      c.shared.locked d.mutex = true
  · obtain ⟨p, f, d, _, _, hm⟩ := hfree
    have hnot := (hs.locked _).mp hm
    cases hholder : g.holder d.mutex with
    | free => exact absurd hholder hnot
    | abandoned => exact absurd hholder (hs.sound rfl _)
    | thread j =>
      have hsection := ((hl j).holder d.mutex).mp hholder |>.1
      refine hgo j (fun hzero => ?_) fun p f e hp _ => ?_
      · cases hphase : c.locals j <;> rw [hphase] at hzero hsection <;>
          simp [threadLeft, Phase.inSection] at hzero hsection
      · rw [hp] at hsection
        cases hsection
  · refine hgo i hi fun p f d hp hd => ?_
    by_contra hm
    rw [Bool.not_eq_false] at hm
    exact hfree ⟨p, f, d, hp, hd, hm⟩

end

theorem inSection_block {l : Phase} (h : l.inSection = true) : ∃ a, l.block = some a := by
  cases l with
  | holding p f | releasing p f => exact ⟨p, rfl⟩
  | _ => cases h

def ghostInit {ι : Type*} : Ghost ι := ⟨fun _ => none, fun _ => none, fun _ => .free, []⟩

theorem held_outside (ι : Type*) (sound : Bool) :
    Held (Common sound) (Own sound) ghostInit (allOutside : Config ι Shared Phase) := by
  refine ⟨⟨rfl, fun m => by simp [allOutside, ghostInit], fun a => by simp [ghostInit],
    fun _ m => nofun⟩, fun i => ⟨fun a => by simp [ghostInit, allOutside, Phase.block], nofun,
      fun m => ?_, trivial, fun _ => rfl⟩⟩
  exact iff_of_false nofun fun h => Bool.false_ne_true h.1

/-- Whatever the schedule and whatever fails, nothing is used after it was freed
or freed twice and no mutex is unlocked by whom it is not locked. Each block
that is live belongs to one caller or thread, so every one which `malloc` has
given is freed by the caller whose thread could not be created or by the joiner.
Of the threads on one mutex one at most is between lock and unlock, and a thread
which has returned has left `true` exactly if neither call on its mutex failed. -/
theorem threads_safe {ι : Type*} [DecidableEq ι] (moves : List (ι × Move)) :
    ∃ d outs, run threadProgram allOutside moves = .ok (d, outs) ∧
      (∀ a, d.shared.heap a ≠ none ↔ ∃ i, (d.locals i).block = some a) ∧
      (∀ i j a, (d.locals i).block = some a → (d.locals j).block = some a → i = j) ∧
      (∀ i, (d.locals i).inSection = true → ∃ a data, (d.locals i).block = some a ∧
        d.shared.heap a = some data ∧ d.shared.locked data.mutex = true ∧
        ∀ j b data', (d.locals j).inSection = true → (d.locals j).block = some b →
          d.shared.heap b = some data' → data'.mutex = data.mutex → j = i) ∧
      ∀ i a f, d.locals i = .returned a f → ∃ data, d.shared.heap a = some data ∧
        data.threadCompleteSuccess = (!f.lock && !f.unlock) := by
  obtain ⟨d, outs, g, hrun, ⟨hs, hl⟩, _⟩ := run_keeps (threads_keep ι) (held_outside ι false) moves
  refine ⟨d, outs, hrun, fun a => ?_, fun i j a hi hj => ?_, fun i hi => ?_, fun i a f hi => ?_⟩
  · rw [hs.heap, Ne, ← hs.owned, ← Ne, Option.ne_none_iff_exists']
    exact exists_congr fun i => (hl i).owner a
  · have hown := ((hl i).owner a).mpr hi
    rw [((hl j).owner a).mpr hj] at hown
    exact (Option.some.inj hown).symm
  · obtain ⟨a, ha⟩ := inSection_block hi
    obtain ⟨data, hdata, _⟩ := own_data hs (hl i) ha
    have hholder := (section_holder (hl i) hi ha hdata data.mutex).mpr rfl
    refine ⟨a, data, ha, by rw [hs.heap, hdata], (hs.locked _).mpr (by rw [hholder]; exact nofun),
      fun j b data' hj hb hdata' hm => ?_⟩
    rw [hs.heap] at hdata'
    have hother := (section_holder (hl j) hj hb hdata' data.mutex).mpr hm.symm
    rw [hholder] at hother
    exact (Holder.thread.inj hother).symm
  · have hblock : (d.locals i).block = some a := by rw [hi]; rfl
    obtain ⟨data, hdata, _⟩ := own_data hs (hl i) hblock
    exact ⟨data, by rw [hs.heap, hdata], (hl i).flag a data hblock hdata _ (by rw [hi]; rfl)⟩

/-- As long as no thread fails to unlock its mutex, the threads cannot block each
other for good: from whatever a schedule has led to, some can go on, no schedule
takes more steps than are left to them, and one lets each of them return. -/
theorem threads_return {ι : Type*} [DecidableEq ι] (moves : List (ι × {a : Move // a.UnlockOk})) :
    ∃ d outs, run (restrict Move.UnlockOk threadProgram) allOutside moves = .ok (d, outs) ∧
      let left := ∑ i ∈ (moves.map Prod.fst).toFinset, threadLeft (d.locals i)
      ((∃ i, threadLeft (d.locals i) ≠ 0) → ∃ i x, threadLeft (d.locals i) ≠ 0 ∧
        threadProgram d.shared (d.locals i) .goOn = .ok (some x)) ∧
      (∀ (sched : List ι) (d' : Config ι Shared Phase) (outs' : List (Option (ι × Shown))),
        run (restrict Move.UnlockOk threadProgram) d (sched.map fun i => (i, goOn)) =
            .ok (d', outs') → outs'.reduceOption.length ≤ left) ∧
      ∃ (sched : List ι) (d' : Config ι Shared Phase) (outs' : List (Option (ι × Shown))),
        run (restrict Move.UnlockOk threadProgram) d (sched.map fun i => (i, goOn)) =
            .ok (d', outs') ∧
          sched.length ≤ left ∧ ∀ i, (d'.locals i).block = none ∨
            ∃ p f, d'.locals i = .returned p f := by
  obtain ⟨d, outs, g, hrun, hheld, _⟩ :=
    run_keeps (threads_keep_sound ι) (held_outside ι true) moves
  have hbusy : ∀ i, threadLeft (d.locals i) ≠ 0 → i ∈ (moves.map Prod.fst).toFinset := by
    intro i hi
    by_contra hmem
    rw [List.mem_toFinset] at hmem
    rw [run_locals hrun hmem] at hi
    exact hi rfl
  refine ⟨d, outs, hrun, fun hex => threads_unblocked g d hheld hex, fun sched d' outs' hrun' =>
    run_within goOn threadLeft (threads_keep_sound ι) threads_shorten hheld hrun' _ hbusy, ?_⟩
  obtain ⟨sched, d', outs', hrun', hlen, hdone⟩ := run_drains goOn threadLeft
    (threads_keep_sound ι) threads_shorten threads_unblocked hheld _ hbusy
  refine ⟨sched, d', outs', hrun', hlen, fun i => ?_⟩
  have hzero := hdone i
  cases hphase : d'.locals i with
  | outside => exact .inl rfl
  | returned p f => exact .inr ⟨p, f, rfl⟩
  | _ =>
    rw [hphase] at hzero
    cases hzero

end Aesd.Threading
