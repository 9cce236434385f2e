import Aesd.ProcessDeviceInvariant

/-!
# What a thread finds as it left it

As long as no number is stale, `main` and the other threads leave the files, the
positions and the memory of a thread alone, and the device too while the thread
is in its section.
-/

set_option autoImplicit false

namespace Aesd.ForeignSteps
open BlockHeap DescriptorTable
open Aesd.KernelMemory Aesd.ServerProcess Aesd.ProcessTallies
open Aesd.ProcessShutdown Aesd.DescriptorCustody Aesd.OwnDescriptors Aesd.ProcessDevice
open Aesd.ProcessDeviceInvariant

def blockOf : ProcessDevice.Held → Option Addr
  | .buffer clientBuffer _ => some clientBuffer
  | .reply r => some r.sendBuffer
  | _ => none

section
variable {p q : Process} {j k d n : ℕ}

theorem fileFd_device (h : Custody noneStale p) (hk : (p.thread k).fileFd = some d) :
    ∃ n, lookup p.table d = some (.device k n) := by
  obtain ⟨g, hg, hslot⟩ := held_hit h (i := .device k) hk
  cases g with
  | own n => cases hslot
  | client j => cases hslot
  | device j n =>
    cases hslot
    exact ⟨n, hg⟩

theorem clientFd_client (hn : Numbered p) (h : Custody noneStale p)
    (hq : (p.thread k).running = true) (hk : (p.thread k).clientFd = some d) :
    lookup p.table d = some (.client k) := by
  have hfd : fdOf p (.client k) = some d := by
    rw [fdOf, mainFd_running hn hq, Option.or_none, hk]
  obtain ⟨g, hg, hslot⟩ := held_hit h hfd
  cases g with
  | own n => cases hslot
  | client j =>
    cases hslot
    exact hg
  | device j n => cases hslot

theorem remembered_ne (h : Custody noneStale p) (hd : lookup p.table d = some (.device k n))
    {i : Slot} {e : ℕ} (hi : fdOf p i = some e) (hne : i ≠ .device k) : d ≠ e := by
  rintro rfl
  obtain ⟨g, hg, hslot⟩ := held_hit h hi
  rw [hd] at hg
  obtain rfl := Option.some.inj hg
  cases hslot
  exact hne rfl

theorem lookup_installed {t : Table File} {g x : File} (hd : lookup t d = some g) :
    lookup (install t x) d = some g := by
  have hne : d ≠ lowestFree t := by
    rintro rfl
    rw [lookup_lowestFree] at hd
    cases hd
  rw [lookup_install, if_neg hne, hd]

theorem lookup_closed {t : Table File} {g : File} {e : ℕ} (hd : lookup t d = some g)
    (hne : d ≠ e) : lookup (close t e) d = some g := by
  rw [lookup_close, if_neg hne, hd]

theorem main_device (hn : Numbered p) (h : Custody noneStale p) (hmain : p.main ≠ .exited)
    {ok : Bool} {e : Option Event} (hm : MainMove p ok q e)
    (hd : lookup p.table d = some (.device k n)) : lookup q.table d = some (.device k n) := by
  cases hm with
  | accepts hm => exact lookup_installed hd
  | @closes j c hm =>
    have hclient : p.main.client = some (j, c) := by
      rw [hm]
      rfl
    have hfd : fdOf p (.client j) = some c := by
      rw [fdOf, idle_clientFd hn hclient, mainFd_client hclient, if_pos rfl]
      rfl
    exact lookup_closed hd (remembered_ne h hd hfd (by rintro ⟨⟩))
  | cleans hm =>
    obtain ⟨m, hsock⟩ := h.listening hmain
    refine lookup_closed hd ?_
    rintro rfl
    rw [hd] at hsock
    cases hsock
  | _ => exact hd

theorem thread_device (hn : Numbered p) (h : Custody noneStale p)
    (hq : (p.thread j).running = true) {o : Outcome} {phase : ThreadPhase} {t : Table File}
    {e : Option Event} (hmove : ThreadMove p.table j o (p.thread j) phase t e) (hj : k ≠ j)
    (hd : lookup p.table d = some (.device k n)) : lookup t d = some (.device k n) := by
  have hdevice : fdOf p (.device j) = (p.thread j).fileFd := rfl
  have hclient : fdOf p (.client j) = (p.thread j).clientFd := by
    rw [fdOf, mainFd_running hn hq, Option.or_none]
  generalize p.thread j = r at hmove hdevice hclient
  cases hmove with
  | opens _ _ _ _ _ _ => exact lookup_installed hd
  | closesFile _ hf _ _ _ =>
    refine lookup_closed hd (remembered_ne h hd (hdevice.trans hf) ?_)
    rintro ⟨⟩
    exact hj rfl
  | closesClient => exact lookup_closed hd (remembered_ne h hd hclient (by rintro ⟨⟩))
  | _ => exact hd

end

section
variable {K : Kernel} {s s' : System} {j k : ℕ} {e : Effect}

theorem effected_frame (he : Effected K s j e) {x : Addr} (hx : s.heap x ≠ none)
    (hj : blockOf (s.held j) ≠ some x) : e.heap x = s.heap x := by
  have hown {a : Addr} {held : ProcessDevice.Held} (hh : s.held j = held)
      (ha : blockOf held = some a) : x ≠ a := by
    rintro rfl
    exact hj (by rw [hh, ha])
  have hnew {a : Addr} (ha : s.heap a = none) : x ≠ a := by
    rintro rfl
    exact hx ha
  cases he with
  | gathers _ ha _ _ _ => exact alloc_other _ _ (hnew ha)
  | dispatches _ hb _ _ => exact erase_other _ (hown hb rfl)
  | stores _ hb _ _ _ _ _ _ => exact erase_other _ (hown hb rfl)
  | allocates _ _ ha _ => exact alloc_other _ _ (hnew ha)
  | reads _ hr _ _ _ _ _ => exact alloc_other _ _ (hown hr rfl)
  | abandons _ hr _ => exact erase_other _ (hown hr rfl)
  | ends _ hr _ _ _ => exact erase_other _ (hown hr rfl)
  | _ => rfl

theorem owns_block {own : Heap UInt8} {held : ProcessDevice.Held} (h : Owns own held) {x : Addr}
    (hx : blockOf held = some x) : ∃ b, own x = some b := by
  cases held with
  | buffer a n =>
    obtain rfl := Option.some.inj hx
    obtain ⟨b, hown, _⟩ := h
    exact ⟨b, by rw [hown, alloc_same]⟩
  | reply r =>
    obtain rfl := Option.some.inj hx
    obtain ⟨b, hown, _⟩ := h
    exact ⟨b, by rw [hown, alloc_same]⟩
  | _ => cases hx

theorem blocks_apart (h : Consistent K s) {x : Addr}
    (hk : blockOf (s.held k) = some x) (hj : k ≠ j) :
    s.heap x ≠ none ∧ blockOf (s.held j) ≠ some x := by
  obtain ⟨own, hd, howns⟩ := h.blocks
  obtain ⟨b, hb⟩ := owns_block (howns k) hk
  obtain ⟨hlive, _, hothers⟩ := hd.own_load hb
  refine ⟨by rw [hlive]; exact nofun, fun hx => ?_⟩
  obtain ⟨b', hb'⟩ := owns_block (howns j) hx
  rw [hothers j hj.symm] at hb'
  cases hb'

theorem foreign_position (h : Custody noneStale s.process) (he : Effected K s j e) (hj : k ≠ j)
    (n : ℕ) : e.fPos (.device k n) = s.fPos (.device k n) := by
  have hnot {d : ℕ} (hd : (s.process.thread j).fileFd = some d) :
      lookup s.process.table d ≠ some (.device k n) := by
    obtain ⟨m, hm⟩ := fileFd_device h hd
    rw [hm]
    rintro ⟨⟩
    exact hj rfl
  cases he with
  | opens m _ =>
    apply Function.update_of_ne
    rintro ⟨⟩
    exact hj rfl
  | dispatches hk _ hpos _ => exact hpos.others _ (hnot (by rw [hk]; rfl))
  | reads hk _ _ _ _ hpos _ => exact hpos.others _ (hnot (by rw [hk]; rfl))
  | ends hk _ _ hpos _ => exact hpos.others _ (hnot (by rw [hk]; rfl))
  | _ => rfl

theorem section_driver (h : Consistent K s) (hk : inSection (s.process.thread k) = true)
    (he : Effected K s j e) : e.driver = s.driver := by
  cases he with
  | stores _ _ hfree _ _ _ _ _ =>
    rw [h.exclusive k hk] at hfree
    cases hfree
  | _ => rfl

/-- A step leaves what a thread has alone. -/
structure LeftAlone (s s' : System) (k : ℕ) : Prop where
  held : s'.held k = s.held k
  device : ∀ d n, lookup s.process.table d = some (.device k n) →
    lookup s'.process.table d = some (.device k n)
  position : ∀ n, s'.fPos (.device k n) = s.fPos (.device k n)
  block : ∀ x, blockOf (s.held k) = some x → s'.heap x = s.heap x
  driver : inSection (s.process.thread k) = true → s'.driver = s.driver

theorem LeftAlone.refl (s : System) (k : ℕ) : LeftAlone s s k :=
  ⟨rfl, fun _ _ => id, fun _ => rfl, fun _ _ => rfl, fun _ => rfl⟩

theorem left_alone_thread (h : Consistent K s) (hc : Custody noneStale s.process)
    (he : Effected K s j e) (hj : k ≠ j) {p : Process}
    (hdevice : ∀ d n, lookup s.process.table d = some (.device k n) →
      lookup p.table d = some (.device k n)) : LeftAlone s (s.take j e p) k where
  held := Function.update_of_ne hj _ _
  device := hdevice
  position := foreign_position hc he hj
  block _ hx :=
    let ⟨hlive, hother⟩ := blocks_apart h hx hj
    effected_frame he hlive hother
  driver hk := section_driver h hk he

theorem left_alone (h : Consistent K s) (hc : Custody noneStale s.process) {a : SystemAction}
    {o : Option Shown} (hs : Stepped K s a s' o) (ha : ∀ calls, a ≠ .thread k calls) :
    LeftAlone s s' k := by
  cases hs with
  | waits => exact .refl s k
  | main hs =>
    obtain ⟨hmain, hm⟩ := processStep_moves hs
    cases hm with
    | main hm =>
      exact ⟨rfl, fun _ _ => main_device h.numbered hc hmain hm, fun _ => rfl, fun _ _ => rfl,
        fun _ => rfl⟩
  | signal hs =>
    obtain ⟨_, hm⟩ := processStep_moves hs
    cases hm with
    | signal => exact ⟨rfl, fun _ _ => id, fun _ => rfl, fun _ _ => rfl, fun _ => rfl⟩
  | @stays j calls e he hgo =>
    have hj : k ≠ j := by
      rintro rfl
      exact ha calls rfl
    exact left_alone_thread h hc he hj fun _ _ => id
  | @goes j calls e o p he hgo hp hre =>
    have hj : k ≠ j := by
      rintro rfl
      exact ha calls rfl
    obtain ⟨_, hm⟩ := hp.move
    cases hm with
    | thread m b hq hmove _ =>
      exact left_alone_thread h hc he hj fun _ _ => thread_device h.numbered hc hq hmove hj

end

end Aesd.ForeignSteps
