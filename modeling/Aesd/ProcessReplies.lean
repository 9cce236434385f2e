import Aesd.ForeignSteps
import Aesd.ProcessStores

/-!
# The replies of the threads

As long as the device is opened again under the number closed before, what a
thread goes on from is stored, and what it has sent of an undisturbed reply is
what the device has up to the position of its file.
-/

set_option autoImplicit false

namespace Aesd.ProcessReplies
open BlockHeap DescriptorTable
open Aesd.KernelMemory Aesd.CharDriver Aesd.DriverRead Aesd.SeekParser Aesd.SocketServer
open Aesd.ServerProcess Aesd.ProcessTallies Aesd.ProcessShutdown Aesd.DescriptorCustody
open Aesd.OwnDescriptors Aesd.ProcessDevice Aesd.ProcessDeviceInvariant Aesd.ForeignSteps
open Aesd.ProcessStores

/-- A thread which opens the device again gets the number which it has closed. -/
def NumberKept (s : System) : SystemAction → Prop
  | .thread k calls =>
    ReopenKept s.process (.thread k (if calls.openFails then .fails else .succeeds))
  | _ => True

instance (s : System) : (a : SystemAction) → Decidable (NumberKept s a)
  | .thread k calls => inferInstanceAs (Decidable
    (ReopenKept s.process (.thread k (if calls.openFails then .fails else .succeeds))))
  | .main _ => .isTrue trivial
  | .signal => .isTrue trivial

/-- `p` bytes of the content are sent, and the next ones are in the buffer. -/
structure Sending (s : System) (k replyFd : ℕ) (r : Reply) (n p : ℕ) : Prop where
  device : lookup s.process.table replyFd = some (.device k n)
  position : s.fPos (.device k n) = (p+r.bytesRead : ℕ)
  inside : p+r.bytesRead ≤ (content s.driver).length
  sent : r.sent = (content s.driver).take p
  buffer : ∀ b, s.heap r.sendBuffer = some b →
    b.take r.bytesRead = ((content s.driver).drop p).take r.bytesRead

structure ThreadKept (s : System) (stored : List (ℕ × List UInt8)) (k : ℕ) : Prop where
  fresh : ahead (s.process.thread k) →
    (∀ request ∈ (s.held k).request, ¬ SEEK_COMMAND <+: request) → ∀ n, s.fPos (.device k n) = 0
  stored : ∀ request ∈ (s.held k).request, ¬ SEEK_COMMAND <+: request → (k, request) ∈ stored
  sending : ∀ c f g r, s.process.thread k = .serving c f g → s.held k = .reply r →
    r.whole = true → ¬ SEEK_COMMAND <+: r.request → ∃ n p, Sending s k g r n p

structure Kept (s : System) (stored : List (ℕ × List UInt8)) : Prop where
  custody : Custody noneStale s.process
  threads : ∀ k, ThreadKept s stored k

section
variable {K : Kernel} {log : LineLog.Log UInt8} {s s' : System} {k : ℕ}
variable {stored stored' : List (ℕ × List UInt8)}

theorem Sending.sent_le {g n p : ℕ} {r : Reply} (hs : Sending s k g r n p) :
    r.sent.length+r.bytesRead ≤ (content s.driver).length := by
  have hinside := hs.inside
  rw [hs.sent, List.length_take]
  omega

theorem Sending.left (h : LeftAlone s s' k) {g n p : ℕ} {r : Reply} (hr : s.held k = .reply r)
    (hin : inSection (s.process.thread k) = true) (hs : Sending s k g r n p) :
    Sending s' k g r n p where
  device := h.device g n hs.device
  position := by rw [h.position, hs.position]
  inside := by
    rw [h.driver hin]
    exact hs.inside
  sent := by
    rw [h.driver hin]
    exact hs.sent
  buffer b hb := by
    rw [h.block r.sendBuffer (by rw [hr]; rfl)] at hb
    rw [h.driver hin]
    exact hs.buffer b hb

theorem ThreadKept.left (h : LeftAlone s s' k) (hahead : ahead (s'.process.thread k) →
      ahead (s.process.thread k)) (hserving : ∀ c f g, s'.process.thread k = .serving c f g →
      s.process.thread k = .serving c f g) (hstored : stored ⊆ stored')
    (hk : ThreadKept s stored k) : ThreadKept s' stored' k where
  fresh ha hr n := by
    rw [h.position]
    exact hk.fresh (hahead ha) (by rwa [← h.held]) n
  stored request hr hseek := hstored (hk.stored request (by rwa [← h.held]) hseek)
  sending c f g r hp hr hwhole hseek := by
    rw [h.held] at hr
    have hbefore := hserving c f g hp
    obtain ⟨n, p, hs⟩ := hk.sending c f g r hbefore hr hwhole hseek
    exact ⟨n, p, hs.left h hr (by rw [hbefore]; rfl)⟩

theorem refused_not_ahead {q p : Process} {o : Outcome} (hp : GoesOn q k o p) (ho : o = .fails)
    (hq : ∀ c f, q.thread k ≠ .locked c f) : ¬ ahead (p.thread k) := by
  have hnext := hp.next
  have hborn := hp.born
  generalize q.thread k = x, p.thread k = y at hnext hborn hq
  cases hnext with
  | opens hne | asks hne | locks hne | reopens hne => exact absurd ho hne
  | goesOn _ => exact absurd rfl (hq _ _)
  | leaves hle =>
    rintro (hy | hy)
    · exact hborn hy
    · omega

theorem effected_drops {e : Effect} {p : Process} (he : Effected K s k e)
    (hp : Continues s k e p) (ha : ahead (p.thread k)) (hnone : e.held.request = none) :
    (s.held k).request = none := by
  cases he with
  | waits | goes o _ | opens n _ => exact hnone
  | gathers hk _ _ _ _ => rw [hk]; rfl
  | dispatches _ hb _ _ => rw [hb]; rfl
  | stores _ hb _ _ _ _ _ _ => rw [hb]; rfl
  | givesUp hk _ =>
    rcases hp with ⟨hgo, _⟩ | ⟨o, hgo, hp⟩
    · cases hgo
    · refine absurd ha (refused_not_ahead hp (Option.some.inj hgo).symm fun c f hq => ?_)
      cases hk.symm.trans hq
  | allocates _ _ _ _ => cases hnone
  | reads _ _ _ _ _ _ _ => cases hnone
  | sends _ _ _ => cases hnone
  | abandons hk _ _ =>
    rcases hk with ⟨c, f, hk, hfails⟩ | ⟨c, f, g, hk⟩
    · rcases hp with ⟨hgo, _⟩ | ⟨o, hgo, hp⟩
      · cases hgo
      · obtain rfl := Option.some.inj hgo
        refine absurd ha (refused_not_ahead hp hfails fun c f hq => ?_)
        cases hk.symm.trans hq
    · exact absurd (hp.onward.ahead k ha) (serving_not_ahead hk)
  | ends hk _ _ _ _ => exact absurd (hp.onward.ahead k ha) (serving_not_ahead hk)

theorem effected_fresh {e : Effect} (hc : Custody noneStale s.process) (he : Effected K s k e)
    (hk : ThreadKept s stored k) (ha : ahead (s.process.thread k))
    (hr : ∀ request ∈ e.held.request, ¬ SEEK_COMMAND <+: request)
    (hkept : e.held.request = none → (s.held k).request = none) (n : ℕ) :
    e.fPos (.device k n) = 0 := by
  have hnone {x : ProcessDevice.Held} (hx : s.held k = x) (hx' : x.request = none) :
      s.fPos (.device k n) = 0 := hk.fresh ha (by rw [hx, hx']; exact nofun) n
  cases he with
  | waits | goes o _ => exact hk.fresh ha hr n
  | opens m _ =>
    change Function.update s.fPos _ 0 _ = 0
    rw [Function.update_apply]
    split_ifs
    · rfl
    · exact hk.fresh ha hr n
  | gathers hx _ _ _ _ => exact hnone hx rfl
  | @dispatches c f m a o fPos flag held hphase hb hpos hheld =>
    rcases hheld with ⟨_, _, rfl⟩ | ⟨request, rfl, hseek⟩
    · exact hnone hb rfl
    · obtain ⟨i, hi⟩ := fileFd_device hc (k := k) (d := f) (by rw [hphase]; rfl)
      exact absurd (hseek (by rw [hi]; rfl)) (hr request rfl)
  | stores _ hb _ _ _ _ _ _ => exact hnone hb rfl
  | givesUp _ hx | abandons _ hx _ | ends _ hx _ _ _ =>
    rw [hx] at hkept
    cases hkept rfl
  | allocates _ hx _ _ => exact hk.fresh ha (by rw [hx]; exact hr) n
  | reads hphase _ _ _ _ _ _ | sends hphase _ _ => exact absurd ha (serving_not_ahead hphase)

theorem effected_kept {e : Effect} (hc : Custody noneStale s.process) (he : Effected K s k e)
    (hk : ThreadKept s stored k) (request : List UInt8) (hr : request ∈ e.held.request)
    (hseek : ¬ SEEK_COMMAND <+: request) :
    (k, request) ∈ stored ++ (storedBy e.shown).toList := by
  cases he with
  | waits | goes o _ | opens n _ =>
    exact List.mem_append_left _ (hk.stored request hr hseek)
  | @dispatches c f m a o fPos flag held hphase hb hpos hheld =>
    rcases hheld with ⟨rfl, _⟩ | ⟨request', rfl, hseek'⟩
    · cases hr
    · obtain rfl := Option.some.inj hr
      obtain ⟨i, hi⟩ := fileFd_device hc (k := k) (d := f) (by rw [hphase]; rfl)
      exact absurd (hseek' (by rw [hi]; rfl)) hseek
  | stores _ _ _ _ _ _ _ hheld =>
    rcases hheld with ⟨rfl, _⟩ | rfl
    · cases hr
    · obtain rfl := Option.some.inj hr
      exact List.mem_append_right _ (List.mem_singleton_self _)
  | allocates _ hx _ _ | reads _ hx _ _ _ _ _ | sends _ hx _ =>
    exact List.mem_append_left _ (hk.stored request (by rw [hx]; exact hr) hseek)
  | _ => cases hr

theorem starts_sending {e : Effect} {p : Process} {o : Outcome} (h : Accounts K log s stored)
    (hc : Custody noneStale s.process) (hc' : Custody noneStale p) (he : Effected K s k e)
    (hk : ThreadKept s stored k) (hp : GoesOn s.process k o p)
    {c f g : ℕ} (hphase : p.thread k = .serving c f g) {r : Reply} (hr : e.held = .reply r)
    (hseek : ¬ SEEK_COMMAND <+: r.request) : ∃ n, Sending (s.take k e p) k g r n 0 := by
  have hless := hp.less
  rw [hphase] at hless
  have ha : ahead (s.process.thread k) := .inr hless
  have hstart : r.sent = [] ∧ r.bytesRead = 0 := by
    rcases effected_unsent he hr with hbefore | hnew | hnot
    · exact h.unsent k r hbefore ha
    · exact hnew
    · exact absurd ha hnot
  obtain ⟨n, hn⟩ := fileFd_device hc' (k := k) (d := g) (by rw [hphase]; rfl)
  have hzero : e.fPos (.device k n) = 0 := by
    refine effected_fresh hc he hk ha ?_ ?_ n
    · rw [hr]
      rintro request ⟨⟩
      exact hseek
    · rw [hr]
      exact nofun
  refine ⟨n, hn, ?_, ?_, ?_, fun b _ => ?_⟩
  · rw [hstart.2]
    exact hzero
  · rw [hstart.2]
    exact Nat.zero_le _
  · rw [hstart.1, List.take_zero]
  · rw [hstart.2, List.take_zero, List.take_zero]

theorem brings_next (hk : ThreadKept s stored k) {c f g : ℕ}
    (hphase : s.process.thread k = .serving c f g) {r : Reply} (hr : s.held k = .reply r)
    (hwhole : r.whole = true) (hseek : ¬ SEEK_COMMAND <+: r.request) (hread : r.bytesRead = 0)
    {n : ℕ} {fPos : File → ℤ} {bytes : List UInt8} (hb : Brings s g n fPos bytes) :
    ∃ m p, Sending s k g r m p ∧ fPos (.device k m) = (p+n : ℕ) ∧
      n = min clientBufferLen ((content s.driver).length-p) ∧
      bytes = ((content s.driver).drop p).take n := by
  obtain ⟨j, m, q, hdevice, hold, hnew, hmin, hbytes⟩ := hb
  obtain ⟨m', p, hs⟩ := hk.sending c f g r hphase hr hwhole hseek
  obtain ⟨rfl, rfl⟩ := File.device.inj (Option.some.inj (hdevice.symm.trans hs.device))
  have hposition := hs.position
  rw [hread, Nat.add_zero, hold] at hposition
  obtain rfl : q = p := by exact_mod_cast hposition
  exact ⟨m, q, hs, hnew, hmin, hbytes⟩

theorem goes_on_sending {e : Effect} (he : Effected K s k e) (hk : ThreadKept s stored k)
    (hgo : e.goesOn = none) {c f g : ℕ} (hphase : s.process.thread k = .serving c f g) {r : Reply}
    (hr : e.held = .reply r) (hwhole : r.whole = true) (hseek : ¬ SEEK_COMMAND <+: r.request) :
    ∃ n p, Sending (s.take k e s.process) k g r n p := by
  cases he with
  | waits =>
    obtain ⟨n, p, hs⟩ := hk.sending c f g r hphase hr hwhole hseek
    exact ⟨n, p, hs.device, hs.position, hs.inside, hs.sent, hs.buffer⟩
  | gathers _ _ _ _ _ => cases hr
  | allocates hx _ _ _ =>
    rw [hphase] at hx
    cases hx
  | @reads c' f' g' n r' b fPos whole hx hr' hread hb hn hpos hbrings =>
    obtain rfl := Held.reply.inj hr
    rw [hphase] at hx
    obtain ⟨rfl, rfl, rfl⟩ := ThreadPhase.serving.inj hx
    obtain ⟨hbefore, hbytes⟩ := hbrings hwhole
    obtain ⟨m, p, hs, hnew, hmin, hnext⟩ := brings_next hk hphase hr' hbefore hseek hread hbytes
    have hinside := hs.inside
    refine ⟨m, p, hs.device, hnew, ?_, hs.sent, fun b' hb' => ?_⟩
    · change p+n ≤ (content s.driver).length
      omega
    · obtain rfl : b = b' := by
        have hsame : alloc s.heap r'.sendBuffer b r'.sendBuffer = some b' := hb'
        rw [alloc_same] at hsame
        exact Option.some.inj hsame
      exact hnext
  | @sends c' f' g' r' sent whole hx hr' hsent =>
    obtain rfl := Held.reply.inj hr
    obtain ⟨hbefore, b, hb, rfl⟩ := hsent hwhole
    obtain ⟨m, p, hs⟩ := hk.sending c f g r' hphase hr' hbefore hseek
    refine ⟨m, p+r'.bytesRead, hs.device, hs.position, hs.inside, ?_, fun b' _ => ?_⟩
    · change r'.sent ++ b.take r'.bytesRead = _
      rw [hs.buffer b hb, hs.sent, ← List.take_add]
      rfl
    · rw [List.take_zero, List.take_zero]
  | _ => cases hgo

theorem held_same (s : System) (k : ℕ) (e : Effect) (p : Process) :
    (s.take k e p).held k = e.held := Function.update_self _ _ _

theorem ThreadKept.own {e : Effect} {p : Process} (h : Accounts K log s stored)
    (hc : Custody noneStale s.process) (hc' : Custody noneStale p) (he : Effected K s k e)
    (hp : Continues s k e p) (hk : ThreadKept s stored k) :
    ThreadKept (s.take k e p) (stored ++ (storedBy e.shown).toList) k where
  fresh ha hr := by
    rw [held_same] at hr
    exact effected_fresh hc he hk (hp.onward.ahead k ha) hr (effected_drops he hp ha)
  stored request hr hseek := by
    rw [held_same] at hr
    exact effected_kept hc he hk request hr hseek
  sending c f g r hphase hr hwhole hseek := by
    rw [held_same] at hr
    rcases hp with ⟨hgo, rfl⟩ | ⟨o, hgo, hp⟩
    · exact goes_on_sending he hk hgo hphase hr hwhole hseek
    · obtain ⟨n, hs⟩ := starts_sending h hc hc' he hk hp hphase hr hseek
      exact ⟨n, 0, hs⟩

theorem NumberKept.respects {calls : Calls} {o : Outcome} (h : NumberKept s (.thread k calls))
    (hre : (∃ c f, s.process.thread k = .reopening c f) → calls.openFails = false →
      o = .succeeds) : Respects noneStale s.process (.thread k o) := by
  apply ReopenKept.respects
  intro f hf
  obtain ⟨hfails, hnumber⟩ := h f hf
  refine ⟨?_, hnumber⟩
  have hreopening : ∃ c f, s.process.thread k = .reopening c f := by
    cases hphase : s.process.thread k with
    | reopening c f => exact ⟨c, f, rfl⟩
    | _ =>
      rw [hphase] at hf
      cases hf
  cases hopen : calls.openFails with
  | true => exact absurd (by rw [hopen]; rfl) hfails
  | false =>
    rw [hre hreopening hopen]
    exact nofun

theorem ThreadKept.others (h : Accounts K log s stored) (hc : Custody noneStale s.process)
    (hk : ThreadKept s stored k) {a : SystemAction} {o : Option Shown} (hs : Stepped K s a s' o)
    (ha : ∀ calls, a ≠ .thread k calls) (ho : Onward s.process s'.process)
    (hserving : ∀ c f g, s'.process.thread k = .serving c f g →
      s.process.thread k = .serving c f g) :
    ThreadKept s' (stored ++ (storedBy o).toList) k :=
  hk.left (left_alone h.consistent hc hs ha) (ho.ahead k) hserving (List.subset_append_left _ _)

theorem Kept.step (h : Accounts K log s stored) (hs : Kept s stored) {a : SystemAction}
    {o : Option Shown} (hstep : Stepped K s a s' o) (hn : NumberKept s a) :
    Kept s' (stored ++ (storedBy o).toList) := by
  have hothers (k : ℕ) := ThreadKept.others h hs.custody (hs.threads k) hstep
  cases hstep with
  | waits =>
    refine ⟨hs.custody, fun k => ?_⟩
    exact (hs.threads k).left (.refl s k) id (fun _ _ _ => id) (List.subset_append_left _ _)
  | main hp =>
    obtain ⟨hmain, hm⟩ := processStep_moves hp
    have hc := hs.custody.step h.consistent.numbered hmain hm (ReopenKept.respects trivial)
    refine ⟨hc, fun k => ?_⟩
    cases hm with
    | main hm =>
      refine hothers k (by rintro _ ⟨⟩) (onward_main h.consistent.numbered hm) fun c f g hg => ?_
      rcases main_phase h.consistent.numbered hm k with heq | ⟨_, _, hopening⟩ | ⟨_, hjoined⟩
      · exact heq.symm.trans hg
      · cases hopening.symm.trans hg
      · cases hjoined.symm.trans hg
  | signal hp =>
    obtain ⟨hmain, hm⟩ := processStep_moves hp
    have hc := hs.custody.step h.consistent.numbered hmain hm (ReopenKept.respects trivial)
    refine ⟨hc, fun k => ?_⟩
    cases hm with
    | signal => exact hothers k (by rintro _ ⟨⟩) ⟨fun _ => id, fun _ => id⟩ fun _ _ _ => id
  | @stays j calls e he hgo =>
    refine ⟨hs.custody, fun k => ?_⟩
    by_cases hk : k = j
    · subst hk
      exact (hs.threads k).own h hs.custody hs.custody he (.inl ⟨hgo, rfl⟩)
    · refine hothers k ?_ ⟨fun _ => id, fun _ => id⟩ fun _ _ _ => id
      rintro _ ⟨⟩
      exact hk rfl
  | @goes j calls e o p he hgo hp hre =>
    obtain ⟨_, hm⟩ := hp.move
    have hc := hs.custody.step h.consistent.numbered hp.running hm (hn.respects hre)
    refine ⟨hc, fun k => ?_⟩
    by_cases hk : k = j
    · subst hk
      exact (hs.threads k).own h hs.custody hc he (.inr ⟨o, hgo, hp⟩)
    · refine hothers k ?_ (onward_thread hp) fun c f g hg => ?_
      · rintro _ ⟨⟩
        exact hk rfl
      · exact (hp.others k hk).symm.trans hg

end

theorem kept_launched (m : Startup) (driver : DriverState) : Kept (launchedOn m driver) [] where
  custody := custody_launched noneStale m
  threads _ := ⟨fun _ _ _ => rfl, nofun, nofun⟩

end Aesd.ProcessReplies
