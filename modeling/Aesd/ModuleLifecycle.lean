import Aesd.DriverLosses
import Aesd.Lib.DescriptorTable
import Aesd.OpenFiles

/-!
# The module from loading to unloading

`insmod` and `rmmod` come in any order between the opens, the calls and the
closes of any number of files. The kernel keeps what the module registers and
counts who uses it. It stops where a function of the module would run after
`rmmod`, follow a `private_data` which is `NULL`, or give back what was not
registered. The heap is that of the kernel and outlives the module.
-/

set_option autoImplicit false

namespace Aesd.ModuleLifecycle
open BlockHeap DescriptorTable
open Aesd.CircularBuffer Aesd.KernelMemory Aesd.CharDriver Aesd.DriverInvariant
open Aesd.DriverOwnership Aesd.CommandLog Aesd.DriverRead Aesd.DriverRuns Aesd.DriverAnswers
open Aesd.DriverLinearization Aesd.DriverLosses Aesd.OpenFiles

abbrev ErrorCode := {e : ℤ // e < 0}

inductive ModuleFault where
  | driver (fault : Fault)
  | unloaded
  | nullDevice
  | notRegistered (major : ℕ)
  | destroyedLocked
  deriving DecidableEq, Repr

structure Registry where
  regions : List ℕ
  cdevs : List ℕ
  deriving DecidableEq, Repr

structure Globals where
  aesdMajor : ℕ
  aesdDevice : AesdDev

/-- `struct file`, where `private_data` points to `aesd_device` or to nothing. -/
structure OpenFile where
  fPos : ℤ
  privateData : Bool

structure Machine where
  heap : Heap UInt8
  registry : Registry
  loaded : Option Globals
  users : ℕ
  files : Table OpenFile

def booted : Machine where
  heap := empty
  registry := ⟨[], []⟩
  loaded := none
  users := 0
  files := []

structure LoadCall where
  region : Except ErrorCode ℕ
  cdevAdd : Except ErrorCode Unit

def unregisterChrdevRegion (r : Registry) (major : ℕ) : Except ModuleFault Registry :=
  if major ∈ r.regions then .ok { r with regions := r.regions.erase major }
  else .error (.notRegistered major)

def cdevDel (r : Registry) (major : ℕ) : Except ModuleFault Registry :=
  if major ∈ r.cdevs then .ok { r with cdevs := r.cdevs.erase major }
  else .error (.notRegistered major)

def aesdSetupCdev (r : Registry) (devno : ℕ) (cdevAdd : Except ErrorCode Unit) : Registry × ℤ :=
  match cdevAdd with
  | .ok () => ({ r with cdevs := devno::r.cdevs }, 0)
  | .error err => (r, err)

/-- `aesd_init_module` with its registration. Before it sets them up the
globals are zero, which for the device is the state it sets up. -/
def aesdInitModuleWith (r : Registry) (c : LoadCall) :
    Except ModuleFault (Registry × Globals × ℤ) :=
  match c.region with
  | .error result => .ok (r, ⟨0, aesdInitModule.dev⟩, result)
  | .ok major => do
    let r := { r with regions := major::r.regions }
    let (r, result) := aesdSetupCdev r major c.cdevAdd
    if result ≠ 0 then
      let r ← unregisterChrdevRegion r major
      return (r, ⟨major, aesdInitModule.dev⟩, result)
    else return (r, ⟨major, aesdInitModule.dev⟩, result)

def mutexDestroy (dev : AesdDev) : Except ModuleFault AesdDev :=
  if dev.bufferLock then .error .destroyedLocked else .ok dev

def aesdCleanupModuleWith (h : Heap UInt8) (r : Registry) (m : Globals) :
    Except ModuleFault (Heap UInt8 × Registry) := do
  let devno := m.aesdMajor
  let r ← cdevDel r devno
  let s ← (aesdCleanupModule ⟨m.aesdDevice, h⟩).mapError .driver
  let _ ← mutexDestroy s.dev
  let r ← unregisterChrdevRegion r devno
  return (s.heap, r)

def aesdOpen (f : OpenFile) : OpenFile := { f with privateData := true }

def aesdRelease (f : OpenFile) : OpenFile := { f with privateData := false }

/-- The call which reaches the driver. Only `aesd_write` tests `private_data`. -/
def fileCall (f : OpenFile) (op : FileOp) : Except ModuleFault DriverCall :=
  match op with
  | .write c => .ok (.write { c with fPos := f.fPos, nullDev := !f.privateData })
  | op => if f.privateData then .ok (op.call f.fPos) else .error .nullDevice

def ENOENT : ℤ := 2
def ENXIO : ℤ := 6
def EBADF : ℤ := 9
def EWOULDBLOCK : ℤ := 11
def EEXIST : ℤ := 17

/-- What is done to the machine. A node under `/dev` holds a major number. -/
inductive Act where
  | insmod (c : LoadCall)
  | rmmod
  | open (major : ℕ)
  | call (fd : ℕ) (op : FileOp) (typed : op.Typed)
  | close (fd : ℕ)

inductive Answer where
  | insmod (result : ℤ)
  | rmmod (result : ℤ)
  | opened (result : ℤ)
  | called (c : DriverCall) (r : ReadResult)
  | refused (error : ℤ)
  | closed

def insmod (m : Machine) (c : LoadCall) : Except ModuleFault (Machine × Answer) :=
  match m.loaded with
  | some _ => .ok (m, .insmod (-EEXIST))
  | none => do
    let (registry, globals, result) ← aesdInitModuleWith m.registry c
    return ({ m with registry, loaded := if result = 0 then some globals else none },
      .insmod result)

def rmmod (m : Machine) : Except ModuleFault (Machine × Answer) :=
  match m.loaded with
  | none => .ok (m, .rmmod (-ENOENT))
  | some globals =>
    if m.users ≠ 0 then .ok (m, .rmmod (-EWOULDBLOCK))
    else do
      let (heap, registry) ← aesdCleanupModuleWith m.heap m.registry globals
      return ({ m with heap, registry, loaded := none }, .rmmod 0)

/-- `.owner` makes the kernel count the file as a user of the module. -/
def openNode (m : Machine) (major : ℕ) : Except ModuleFault (Machine × Answer) :=
  if major ∉ m.registry.cdevs then .ok (m, .refused (- ENXIO))
  else
    match m.loaded with
    | none => .error .unloaded
    | some _ => .ok ({ m with users := m.users+1,
                              files := install m.files (aesdOpen ⟨0, false⟩) },
        .opened (lowestFree m.files))

def callFile (K : Kernel) (m : Machine) (fd : ℕ) (op : FileOp) :
    Except ModuleFault (Machine × Answer) :=
  match lookup m.files fd with
  | none => .ok (m, .refused (-EBADF))
  | some f =>
    match m.loaded with
    | none => .error .unloaded
    | some globals => do
      let c ← fileCall f op
      let (s, r) ← (driverAnswer K ⟨globals.aesdDevice, m.heap⟩ c).mapError .driver
      return ({ m with heap := s.heap, loaded := some { globals with aesdDevice := s.dev },
                       files := replace m.files fd { f with fPos := r.fPos } }, .called c r)

def closeFile (m : Machine) (fd : ℕ) : Except ModuleFault (Machine × Answer) :=
  match lookup m.files fd with
  | none => .ok (m, .refused (-EBADF))
  | some f =>
    match m.loaded with
    | none => .error .unloaded
    | some _ =>
      let files := replace m.files fd (aesdRelease f)
      .ok ({ m with users := m.users-1, files := close files fd }, .closed)

def machineStep (K : Kernel) (m : Machine) : Act → Except ModuleFault (Machine × Answer)
  | .insmod c => insmod m c
  | .rmmod => rmmod m
  | .open major => openNode m major
  | .call fd op _ => callFile K m fd op
  | .close fd => closeFile m fd

def machineRun (K : Kernel) : Machine → List Act → Except ModuleFault (Machine × List Answer) :=
  Runs.run (machineStep K)

/-- The calls answered since the module was loaded last, if it is, and those of
each time it was loaded before. -/
structure Past where
  earlier : List (List (DriverCall × ReadResult))
  current : Option (List (DriverCall × ReadResult))

def Past.after (p : Past) : Answer → Past
  | .insmod result => if result = 0 then { p with current := some [] } else p
  | .rmmod result => if result = 0 then ⟨p.earlier ++ p.current.toList, none⟩ else p
  | .called c r => { p with current := p.current.map (· ++ [(c, r)]) }
  | _ => p

def pastOf (os : List Answer) : Past := os.foldl Past.after ⟨[], none⟩

def Past.overwritten (p : Past) : ℕ :=
  ((p.earlier ++ p.current.toList).map fun xs => committed xs-maxWriteOperationsSupported).sum

def Machine.driver (m : Machine) (globals : Globals) : DriverState :=
  ⟨globals.aesdDevice, m.heap⟩

def Machine.owned (m : Machine) : List Addr :=
  match m.loaded with
  | none => []
  | some globals => pointers (m.driver globals)

def registered : Option Globals → Registry
  | none => ⟨[], []⟩
  | some globals => ⟨[globals.aesdMajor], [globals.aesdMajor]⟩

def Serving (K : Kernel) (m : Machine) : Option Globals → Option (List (DriverCall × ReadResult)) →
    Prop
  | none, none => True
  | some globals, some xs => (∃ blocks part, Holds K (m.driver globals) blocks part) ∧
      deviceLog (m.driver globals) = logOf xs
  | _, _ => False

structure Lost (m : Machine) (p : Past) (lost : List Addr) : Prop where
  nodup : lost.Nodup
  length : lost.length = p.overwritten
  unowned : ∀ a ∈ lost, a ∉ m.owned
  live : ∀ a, Live m.heap a ↔ a ∈ m.owned ∨ a ∈ lost

structure Kept (K : Kernel) (m : Machine) (p : Past) : Prop where
  registry : m.registry = registered m.loaded
  users : m.users = openCount m.files
  idle : m.loaded = none → m.users = 0
  files : ∀ fd f, lookup m.files fd = some f → f.privateData = true ∧ 0 ≤ f.fPos ∧ f.fPos < 2^63
  serving : Serving K m m.loaded p.current
  lost : ∃ lost, Lost m p lost

theorem holds_loaded (K : Kernel) (h : Heap UInt8) : Holds K ⟨aesdInitModule.dev, h⟩ [] none where
  unlocked := rfl
  ring := (holds_init K).ring
  content := (holds_init K).content
  partialWrite := rfl
  partialSize := rfl
  heap := by simp
  distinct := by simp
  lines := by simp
  pendingLine := by simp
  small := by simp

theorem init_spec (c : LoadCall) : ∃ globals result,
    aesdInitModuleWith (registered none) c =
      .ok (registered (if result = 0 then some globals else none), globals, result) ∧
      globals.aesdDevice = aesdInitModule.dev := by
  cases hr : c.region with
  | error e =>
    refine ⟨⟨0, aesdInitModule.dev⟩, e, ?_, rfl⟩
    rw [aesdInitModuleWith, hr, if_neg (Int.ne_of_lt e.2)]
  | ok major =>
    cases ha : c.cdevAdd with
    | ok x =>
      refine ⟨⟨major, aesdInitModule.dev⟩, 0, ?_, rfl⟩
      simp [aesdInitModuleWith, hr, ha, aesdSetupCdev, registered]
    | error e =>
      refine ⟨⟨major, aesdInitModule.dev⟩, e, ?_, rfl⟩
      simp [aesdInitModuleWith, hr, ha, aesdSetupCdev, registered, Int.ne_of_lt e.2,
        unregisterChrdevRegion]

theorem freeSlots_lock (is : List ℕ) {s t : DriverState} (h : is.foldlM freeSlot s = .ok t) :
    t.dev.bufferLock = s.dev.bufferLock := by
  induction is generalizing s with
  | nil =>
    obtain rfl := Except.ok.inj h
    rfl
  | cons i is ih =>
    rw [List.foldlM_cons] at h
    cases hs : freeSlot s i with
    | error e =>
      rw [hs] at h
      cases h
    | ok u =>
      rw [hs] at h
      rw [ih h]
      unfold freeSlot at hs
      cases hp : (s.dev.buffer.slot i).buffptr with
      | none =>
        simp only [hp] at hs
        obtain rfl := Except.ok.inj hs
        rfl
      | some p =>
        simp only [hp] at hs
        cases hf : free s.heap p with
        | error e =>
          rw [hf] at hs
          cases hs
        | ok h' =>
          rw [hf] at hs
          obtain rfl := Except.ok.inj hs
          rfl

theorem cleanup_lock {s t : DriverState} (h : aesdCleanupModule s = .ok t) :
    t.dev.bufferLock = s.dev.bufferLock := by
  unfold aesdCleanupModule at h
  cases hp : s.dev.partialWrite with
  | none =>
    simp only [hp, pure_eq_ok, ok_bind] at h
    exact freeSlots_lock _ h
  | some p =>
    simp only [hp] at h
    cases hf : free s.heap p with
    | error e =>
      rw [hf] at h
      cases h
    | ok heap =>
      rw [hf] at h
      exact (freeSlots_lock _ h :)

theorem cleanupWith_spec {K : Kernel} {h : Heap UInt8} {globals : Globals} {blocks : List Block}
    {part : Option Block} (hh : Holds K ⟨globals.aesdDevice, h⟩ blocks part) :
    ∃ heap, aesdCleanupModuleWith h (registered (some globals)) globals =
        .ok (heap, registered none) ∧
      ∀ a, heap a = if a ∈ pointers ⟨globals.aesdDevice, h⟩ then none else h a := by
  obtain ⟨t, ht, _, hheap⟩ := cleanup_spec hh
  refine ⟨t.heap, ?_, hheap⟩
  have hlock : t.dev.bufferLock = false := (cleanup_lock ht).trans hh.unlocked
  simp [aesdCleanupModuleWith, registered, cdevDel, ht, Except.mapError, mutexDestroy, hlock,
    unregisterChrdevRegion]

section
variable {K : Kernel} {m : Machine} {p : Past}

theorem fileCall_spec {s : DriverState} {blocks : List Block} {part : Option Block}
    (h : Holds K s blocks part) {f : OpenFile} (hf : f.privateData = true) (h0 : 0 ≤ f.fPos)
    (hlt : f.fPos < 2^63) (op : FileOp) (typed : op.Typed) :
    ∃ c, fileCall f op = .ok c ∧ c.Typed ∧
      ∀ t r, driverAnswer K s c = .ok (t, r) → 0 ≤ r.fPos ∧ r.fPos < 2^63 := by
  have hcontent := length_content_lt h
  have hmoved (q : ℤ) (hq : q = f.fPos ∨ 0 ≤ q ∧ q ≤ (content s).length) :
      0 ≤ q ∧ q < 2^63 := by
    rcases hq with rfl | ⟨hq, hle⟩
    · exact ⟨h0, hlt⟩
    · exact ⟨hq, by omega⟩
  cases op with
  | write c =>
    refine ⟨_, rfl, trivial, fun t r hr => ?_⟩
    rw [driverAnswer] at hr
    cases hw : aesdWrite K s { c with fPos := f.fPos, nullDev := !f.privateData } with
    | error e =>
      rw [hw] at hr
      cases hr
    | ok x =>
      rw [hw] at hr
      obtain ⟨_, rfl⟩ := Prod.mk.inj (Except.ok.inj hr)
      exact ⟨h0, hlt⟩
  | read c =>
    refine ⟨.read { c with fPos := f.fPos }, if_pos hf, ⟨hlt, typed⟩, fun t r hr => ?_⟩
    obtain ⟨r', hr', hpos⟩ := read_position h { c with fPos := f.fPos } hlt typed
    obtain ⟨_, rfl⟩ := Prod.mk.inj (Except.ok.inj (hr.symm.trans hr'))
    exact hmoved _ hpos
  | llseek offset whence =>
    refine ⟨.llseek f.fPos offset whence, if_pos hf, trivial, fun t r hr => ?_⟩
    obtain ⟨q, r', hl, hpos⟩ := llseek_position h f.fPos offset whence
    rw [driverAnswer, hl] at hr
    obtain ⟨_, rfl⟩ := Prod.mk.inj (Except.ok.inj hr)
    exact hmoved _ hpos
  | ioctl cmd arg =>
    refine ⟨.ioctl f.fPos cmd arg, if_pos hf, trivial, fun t r hr => ?_⟩
    obtain ⟨r', hi | ⟨q, hq, hi⟩⟩ := ioctl_cases h f.fPos cmd arg
    · rw [driverAnswer, hi] at hr
      obtain ⟨_, rfl⟩ := Prod.mk.inj (Except.ok.inj hr)
      exact ⟨h0, hlt⟩
    · rw [driverAnswer, hi] at hr
      obtain ⟨_, rfl⟩ := Prod.mk.inj (Except.ok.inj hr)
      exact hmoved _ (.inr ⟨Int.natCast_nonneg q, Int.ofNat_le.mpr hq.le⟩)

def StepKept (K : Kernel) (p : Past) (x : Except ModuleFault (Machine × Answer)) : Prop :=
  ∃ m o, x = .ok (m, o) ∧ Kept K m (p.after o) ∧
    ∀ c r, o = .called c r → ∃ xs, p.current = some xs ∧ LogAnswers (logOf xs) c r

theorem pointers_loaded (h : Heap UInt8) : pointers ⟨aesdInitModule.dev, h⟩ = [] :=
  List.eq_nil_iff_forall_not_mem.mpr fun a ha => by
    simpa using (mem_pointers (holds_loaded ⟨0, 0, by decide⟩ h)).mp ha

theorem not_serving (h : Serving K m none p.current) : p.current = none := by
  cases hc : p.current with
  | none => rfl
  | some xs =>
    rw [hc] at h
    exact h.elim

theorem serves {globals : Globals} (h : Serving K m (some globals) p.current) :
    ∃ xs, p.current = some xs ∧ (∃ blocks part, Holds K (m.driver globals) blocks part) ∧
      deviceLog (m.driver globals) = logOf xs := by
  cases hc : p.current with
  | none =>
    rw [hc] at h
    exact h.elim
  | some xs =>
    rw [hc] at h
    exact ⟨xs, rfl, h⟩

theorem loads_kept (h : Kept K m p) (hl : m.loaded = none) {globals : Globals}
    (hdevice : globals.aesdDevice = aesdInitModule.dev) :
    Kept K { m with registry := registered (some globals), loaded := some globals }
      { p with current := some [] } := by
  obtain ⟨lost, hlost⟩ := h.lost
  have hserving := h.serving
  rw [hl] at hserving
  have hcurrent := not_serving hserving
  have hholds := holds_loaded K m.heap
  have howned : m.owned = [] := by rw [Machine.owned, hl]
  refine ⟨rfl, h.users, nofun, h.files, ?_, lost, hlost.nodup, ?_, ?_, ?_⟩
  · rw [Serving, Machine.driver, hdevice]
    exact ⟨⟨_, _, hholds⟩, deviceLog_eq hholds⟩
  · rw [hlost.length, Past.overwritten, Past.overwritten, hcurrent]
    simp [committed]
  · intro a _
    change a ∉ pointers ⟨globals.aesdDevice, m.heap⟩
    rw [hdevice, pointers_loaded]
    exact List.not_mem_nil
  · intro a
    have hlive := hlost.live a
    change Live m.heap a ↔ a ∈ pointers ⟨globals.aesdDevice, m.heap⟩ ∨ a ∈ lost
    rw [hdevice, pointers_loaded]
    rwa [howned] at hlive

theorem insmod_kept (h : Kept K m p) (c : LoadCall) : StepKept K p (insmod m c) := by
  cases hl : m.loaded with
  | some globals => exact ⟨m, .insmod (-EEXIST), by rw [insmod, hl], h, by rintro _ _ ⟨⟩⟩
  | none =>
    obtain ⟨globals, result, hinit, hdevice⟩ := init_spec c
    refine ⟨_, .insmod result, by rw [insmod, hl, h.registry, hl, hinit]; rfl, ?_, by rintro _ _ ⟨⟩⟩
    by_cases hr : result = 0
    · rw [if_pos hr, Past.after, if_pos hr]
      exact loads_kept h hl hdevice
    · have hsame : { m with registry := registered none, loaded := none } = m := by
        rw [← hl, ← h.registry]
      rw [if_neg hr, Past.after, if_neg hr, hsame]
      exact h

theorem unloads_kept (h : Kept K m p) {globals : Globals} (hl : m.loaded = some globals)
    (hu : m.users = 0) {heap : Heap UInt8}
    (hheap : ∀ a, heap a = if a ∈ pointers (m.driver globals) then none else m.heap a) :
    Kept K { m with heap, registry := registered none, loaded := none }
      ⟨p.earlier ++ p.current.toList, none⟩ := by
  obtain ⟨lost, hlost⟩ := h.lost
  have howned : m.owned = pointers (m.driver globals) := by rw [Machine.owned, hl]
  refine ⟨rfl, h.users, fun _ => hu, h.files, trivial, lost, hlost.nodup, ?_, ?_, ?_⟩
  · rw [hlost.length, Past.overwritten, Past.overwritten, Option.toList_none, List.append_nil]
  · exact fun a _ => List.not_mem_nil
  · intro a
    have hlive := hlost.live a
    have hnot := hlost.unowned a
    rw [howned] at hlive hnot
    change heap a ≠ none ↔ a ∈ [] ∨ a ∈ lost
    rw [hheap]
    by_cases ha : a ∈ pointers (m.driver globals)
    · have hkept : a ∉ lost := fun hmem => hnot hmem ha
      simp [ha, hkept]
    · simpa [ha, Live] using hlive

theorem rmmod_kept (h : Kept K m p) : StepKept K p (rmmod m) := by
  cases hl : m.loaded with
  | none => exact ⟨m, .rmmod (-ENOENT), by rw [rmmod, hl], h, by rintro _ _ ⟨⟩⟩
  | some globals =>
    by_cases hu : m.users = 0
    · have hserving := h.serving
      rw [hl] at hserving
      obtain ⟨xs, _, ⟨blocks, part, hh⟩, _⟩ := serves hserving
      obtain ⟨heap, hclean, hheap⟩ := cleanupWith_spec hh
      refine ⟨_, .rmmod 0, ?_, unloads_kept h hl hu hheap, by rintro _ _ ⟨⟩⟩
      simp only [rmmod, hl, hu, h.registry]
      rw [if_neg (by simp), hclean]
      rfl
    · exact ⟨m, .rmmod (-EWOULDBLOCK), by simp only [rmmod, hl, if_pos hu], h, by rintro _ _ ⟨⟩⟩

theorem Lost.files {lost : List Addr} (h : Lost m p lost) (users : ℕ) (files : Table OpenFile) :
    Lost { m with users, files } p lost :=
  ⟨h.nodup, h.length, h.unowned, h.live⟩

theorem open_kept (h : Kept K m p) (major : ℕ) : StepKept K p (openNode m major) := by
  by_cases hm : major ∈ m.registry.cdevs
  · cases hl : m.loaded with
    | none =>
      rw [h.registry, hl] at hm
      cases hm
    | some globals =>
      refine ⟨{ m with users := m.users+1, files := install m.files ⟨0, true⟩ },
        .opened (lowestFree m.files), ?_, ?_, by rintro _ _ ⟨⟩⟩
      · simp only [openNode, if_neg (not_not.mpr hm), hl]
        rfl
      · refine ⟨h.registry, ?_, fun hnone => absurd (hl.symm.trans hnone) nofun, ?_, h.serving,
          h.lost.imp fun lost hlost => hlost.files _ _⟩
        · rw [openCount_install, h.users]
        · intro fd f hfd
          rw [lookup_install] at hfd
          split_ifs at hfd
          · obtain rfl := Option.some.inj hfd
            exact ⟨rfl, Int.le_refl 0, by decide⟩
          · exact h.files fd f hfd
  · exact ⟨m, .refused (- ENXIO), by rw [openNode, if_pos hm], h, by rintro _ _ ⟨⟩⟩

theorem open_loaded (h : Kept K m p) {fd : ℕ} {f : OpenFile} (hfd : lookup m.files fd = some f) :
    ∃ globals, m.loaded = some globals := by
  cases hl : m.loaded with
  | none =>
    have hnone := openCount_zero (h.users.symm.trans (h.idle hl)) fd
    rw [hfd] at hnone
    cases hnone
  | some globals => exact ⟨globals, rfl⟩

theorem close_kept (h : Kept K m p) (fd : ℕ) : StepKept K p (closeFile m fd) := by
  cases hfd : lookup m.files fd with
  | none => exact ⟨m, .refused (-EBADF), by rw [closeFile, hfd], h, by rintro _ _ ⟨⟩⟩
  | some f =>
    obtain ⟨globals, hl⟩ := open_loaded h hfd
    refine ⟨{ m with users := m.users-1, files := close (replace m.files fd (aesdRelease f)) fd },
      .closed, by simp only [closeFile, hfd, hl], ?_, by rintro _ _ ⟨⟩⟩
    have hreplaced : lookup (replace m.files fd (aesdRelease f)) fd = some (aesdRelease f) := by
      rw [lookup_replace hfd, if_pos rfl]
    refine ⟨h.registry, ?_, fun hnone => absurd (hl.symm.trans hnone) nofun, ?_, h.serving,
      h.lost.imp fun lost hlost => hlost.files _ _⟩
    · have hcount := openCount_close hreplaced
      rw [openCount_replace hfd, ← h.users] at hcount
      exact Nat.sub_eq_of_eq_add hcount.symm
    · intro e g he
      rw [lookup_close, lookup_replace hfd] at he
      split_ifs at he
      exact h.files e g he

theorem call_kept (h : Kept K m p) (fd : ℕ) (op : FileOp) (typed : op.Typed) :
    StepKept K p (callFile K m fd op) := by
  cases hfd : lookup m.files fd with
  | none => exact ⟨m, .refused (-EBADF), by rw [callFile, hfd], h, by rintro _ _ ⟨⟩⟩
  | some f =>
    obtain ⟨globals, hl⟩ := open_loaded h hfd
    obtain ⟨lost, hlost⟩ := h.lost
    have hserving := h.serving
    rw [hl] at hserving
    obtain ⟨xs, hcurrent, ⟨blocks, part, hh⟩, hlog⟩ := serves hserving
    obtain ⟨hdata, h0, hlt⟩ := h.files fd f hfd
    obtain ⟨c, hc, htyped, hpos⟩ := fileCall_spec hh hdata h0 hlt op typed
    obtain ⟨t, r, hr, hholds, hanswers, hnext⟩ := driverAnswer_logs ⟨blocks, part, hh⟩ htyped
    have howned : m.owned = pointers (m.driver globals) := by rw [Machine.owned, hl]
    have haccounted : Accounted (m.driver globals) lost :=
      ⟨hlost.nodup, howned ▸ hlost.unowned, howned ▸ hlost.live⟩
    obtain ⟨gone, hgone, hlength⟩ := answer_accounted hh haccounted hlog htyped hr
    rw [hlog, ← logOf_concat] at hnext
    refine ⟨{ m with heap := t.heap, loaded := some { globals with aesdDevice := t.dev },
                     files := replace m.files fd { f with fPos := r.fPos } },
      .called c r, ?_, ⟨?_, ?_, nofun, ?_, ?_, gone ++ lost, hgone.nodup, ?_, hgone.unowned,
        hgone.live⟩, ?_⟩
    · have hr' : driverAnswer K ⟨globals.aesdDevice, m.heap⟩ c = .ok (t, r) := hr
      simp only [callFile, hfd, hl, hc, ok_bind, hr', Except.mapError, pure_eq_ok]
    · rw [h.registry, hl]
      rfl
    · rw [openCount_replace hfd, h.users]
    · intro e g he
      rw [lookup_replace hfd] at he
      split_ifs at he
      · obtain rfl := Option.some.inj he
        exact ⟨hdata, hpos t r hr⟩
      · exact h.files e g he
    · rw [Past.after, hcurrent]
      exact ⟨hholds, hnext⟩
    · have hold := hlost.length
      rw [Past.overwritten, hcurrent, Option.toList_some, List.map_append, List.sum_append] at hold
      rw [Past.overwritten, Past.after, hcurrent, Option.map_some, Option.toList_some,
        List.map_append, List.sum_append, List.length_append, hold]
      simp only [List.map_cons, List.map_nil, List.sum_singleton]
      omega
    · rintro _ _ ⟨⟩
      exact ⟨xs, hcurrent, by rwa [← hlog]⟩

theorem step_kept (h : Kept K m p) (a : Act) : StepKept K p (machineStep K m a) := by
  cases a with
  | insmod c => exact insmod_kept h c
  | rmmod => exact rmmod_kept h
  | «open» major => exact open_kept h major
  | call fd op typed => exact call_kept h fd op typed
  | close fd => exact close_kept h fd

end

theorem kept_booted (K : Kernel) : Kept K booted (pastOf []) where
  registry := rfl
  users := rfl
  idle _ := rfl
  files := nofun
  serving := trivial
  lost := ⟨[], List.nodup_nil, rfl, nofun, fun a => by simp [Live, booted, empty, Machine.owned]⟩

def Answered (os : List Answer) : Prop :=
  ∀ pre c r post, os = pre ++ .called c r::post →
    ∃ xs, (pastOf pre).current = some xs ∧ LogAnswers (logOf xs) c r

theorem Answered.concat {os : List Answer} (h : Answered os) {o : Answer}
    (ho : ∀ c r, o = .called c r → ∃ xs, (pastOf os).current = some xs ∧
      LogAnswers (logOf xs) c r) : Answered (os ++ [o]) := by
  intro pre c r post hsplit
  rcases List.eq_nil_or_concat post with rfl | ⟨post', o', rfl⟩
  · obtain ⟨rfl, heq⟩ := List.append_inj' hsplit rfl
    exact ho c r (List.singleton_inj.mp heq)
  · rw [List.concat_eq_append, ← List.cons_append, ← List.append_assoc] at hsplit
    obtain ⟨rfl, _⟩ := List.append_inj' hsplit rfl
    exact h pre c r post' rfl

theorem machine_kept (K : Kernel) (acts : List Act) : ∃ t os,
    machineRun K booted acts = .ok (t, os) ∧ Kept K t (pastOf os) ∧ Answered os := by
  refine Runs.run_history (fun t os => Kept K t (pastOf os) ∧ Answered os) ?_
    ⟨kept_booted K, fun pre c r post hnil => absurd hnil (by simp)⟩ acts
  rintro m os a ⟨hk, ha⟩
  obtain ⟨m', o, hstep, hk', ho⟩ := step_kept hk a
  refine ⟨m', o, hstep, ?_, ha.concat ho⟩
  rwa [pastOf, List.foldl_append]

/-- No run of loads, opens, calls, closes and unloads, whatever fails in them,
makes the module run when it is gone or give back what it has not registered.
It has its registrations exactly while it is loaded and is loaded as long as a
file is open, and each call is answered by the log of those since it was loaded. -/
theorem module_serves_log (K : Kernel) (acts : List Act) : ∃ t os,
    machineRun K booted acts = .ok (t, os) ∧ t.registry = registered t.loaded ∧
      t.users = openCount t.files ∧ (t.loaded = none → ∀ fd, lookup t.files fd = none) ∧
      (∀ fd f, lookup t.files fd = some f → f.privateData = true) ∧
      (∀ globals, t.loaded = some globals → ∃ xs, (pastOf os).current = some xs ∧
        deviceLog (t.driver globals) = logOf xs) ∧
      ∀ pre c r post, os = pre ++ .called c r::post →
        ∃ xs, (pastOf pre).current = some xs ∧ LogAnswers (logOf xs) c r := by
  obtain ⟨t, os, hrun, h, hanswered⟩ := machine_kept K acts
  refine ⟨t, os, hrun, h.registry, h.users, fun hl => ?_, fun fd f hfd => (h.files fd f hfd).1,
    fun globals hl => ?_, hanswered⟩
  · exact openCount_zero (h.users.symm.trans (h.idle hl))
  · have hserving := h.serving
    rw [hl] at hserving
    obtain ⟨xs, hcurrent, _, hlog⟩ := serves hserving
    exact ⟨xs, hcurrent, hlog⟩

/-- Over all the times the module was loaded, exactly one block is lost for each
command beyond the tenth since it was loaded: the blocks which are live and not
owned by a loaded device are as many as the commands overwritten. -/
theorem module_loses_overwritten (K : Kernel) (acts : List Act) : ∃ t os,
    machineRun K booted acts = .ok (t, os) ∧ ∃ lost : List Addr, lost.Nodup ∧
      lost.length = (pastOf os).overwritten ∧ (∀ a ∈ lost, a ∉ t.owned) ∧
      ∀ a, Live t.heap a ↔ a ∈ t.owned ∨ a ∈ lost := by
  obtain ⟨t, os, hrun, h, _⟩ := machine_kept K acts
  obtain ⟨lost, hlost⟩ := h.lost
  exact ⟨t, os, hrun, lost, hlost.nodup, hlost.length, hlost.unowned, hlost.live⟩

end Aesd.ModuleLifecycle
