import Aesd.SocketReply
import Aesd.SocketRequest

/-!
# Which requests are seeks

A request leads to at most one call into the driver, and the request alone
decides which. A request that begins with `SEEK_COMMAND` leads to the seek
ioctl when `sscanf` converts both fields, which accepts more than two plain
numerals up to the end of the line.
-/

set_option autoImplicit false

namespace Aesd.SeekGrammar
open BlockHeap MachineInt
open Aesd.KernelMemory Aesd.CharDriver Aesd.DriverInvariant Aesd.DriverWrite
open Aesd.CommandLog Aesd.DriverRead Aesd.DriverSeek Aesd.SeekParser
open Aesd.SocketServer Aesd.ReceiveLoop Aesd.SocketRequest Aesd.SocketReply

/-- The call into the driver which a request leads to. -/
inductive Issued where
  | write (data : List UInt8)
  | seek (seekto : AesdSeekto)
  | nothing
  deriving DecidableEq, Repr

def issued (request : List UInt8) : Issued :=
  if SEEK_COMMAND.isPrefixOf request then
    match sscanfSeek (request.drop SEEK_COMMAND.length) with
    | some seekto => .seek seekto
    | none => .nothing
  else .write request

theorem dispatch_issued (K : Kernel) (s : DriverState) (flag : Bool) (fPos : ℤ)
    (request : List UInt8) (env : RequestEnv) :
    dispatchRequest K s flag fPos request env =
      match issued request with
      | .write data => (aesdWrite K s (env.writeCall fPos data)).map fun (x : DriverState × ℤ) =>
          if x.2 < 0 ∨ x.2 ≠ request.length then ⟨x.1, flag, fPos, -1⟩
          else ⟨x.1, false, fPos, x.2⟩
      | .seek seekto =>
        (aesdUnlockedIoctl s fPos AESDCHAR_IOCSEEKTO (some seekto)).map fun x =>
          if x.2.2 < 0 then ⟨x.1, flag, x.2.1, -1⟩ else ⟨x.1, true, x.2.1, 1⟩
      | .nothing => .ok ⟨s, flag, fPos, -1⟩ := by
  rw [dispatchRequest, issued]
  by_cases hpre : SEEK_COMMAND.isPrefixOf request = true
  · simp only [if_pos hpre]
    cases sscanfSeek (request.drop SEEK_COMMAND.length) with
    | none => rfl
    | some seekto =>
      simp only
      cases aesdUnlockedIoctl s fPos AESDCHAR_IOCSEEKTO (some seekto) with
      | error e => rfl
      | ok x =>
        simp only [ok_bind, Except.map, pure_eq_ok]
        split_ifs <;> rfl
  · simp only [if_neg hpre]
    cases aesdWrite K s (env.writeCall fPos request) with
    | error e => rfl
    | ok x =>
      simp only [ok_bind, Except.map, pure_eq_ok]
      split_ifs <;> rfl

theorem issued_seek_iff {request : List UInt8} (hs : SEEK_COMMAND <+: request)
    (seekto : AesdSeekto) :
    issued request = .seek seekto ↔
      sscanfSeek (request.drop SEEK_COMMAND.length) = some seekto := by
  rw [issued, if_pos (List.isPrefixOf_iff_prefix.mpr hs)]
  cases sscanfSeek (request.drop SEEK_COMMAND.length) <;> simp

def SeekText (request : List UInt8) (f g : Field) : Prop :=
  ∃ rest, cString (request.drop SEEK_COMMAND.length) = f.bytes ++ comma::(g.bytes ++ rest) ∧
    ∀ b ∈ rest.head?, isDigit b = false

theorem issued_iff_text {request : List UInt8} (hs : SEEK_COMMAND <+: request)
    (seekto : AesdSeekto) :
    issued request = .seek seekto ↔
      ∃ f g, SeekText request f g ∧ seekto = ⟨f.value, g.value⟩ := by
  rw [issued_seek_iff hs, sscanfSeek_iff]
  constructor
  · rintro ⟨f, g, rest, htext, hrest, heq⟩
    exact ⟨f, g, ⟨rest, htext, hrest⟩, heq⟩
  · rintro ⟨f, g, ⟨rest, htext, hrest⟩, heq⟩
    exact ⟨f, g, rest, htext, hrest, heq⟩

/-- For every request received which begins with `SEEK_COMMAND`. The ioctl is
issued exactly when two fields follow; fields below `2^32` are passed as they
are, so a plain first line seeks to its numbers. A request without these
fields, or whose seek the driver refuses, returns `-1` and changes nothing. -/
theorem seek_grammar {K : Kernel} (M : Libc) {srv : Server} (hd : WriteReachable K srv.driver)
    (hm : srv.mutexReadWrite = false) (fPos : ℤ) (env : RequestEnv) {request : List UInt8}
    (hr : gathered M srv.heap env = some request) (hs : SEEK_COMMAND <+: request) :
    ((∃ seekto, issued request = .seek seekto) ↔ ∃ f g, SeekText request f g) ∧
    (∀ f g seekto, SeekText request f g → decimal f.digits < 2^32 → decimal g.digits < 2^32 →
      issued request = .seek seekto →
        seekto.writeCmd.toNat = f.number ∧ seekto.writeCmdOffset.toNat = g.number) ∧
    (∀ x y rest, IsNumeral x → IsNumeral y → decimal x < 2^32 → decimal y < 2^32 →
      request = SEEK_COMMAND ++ (x ++ comma::y ++ newline::rest) →
        issued request = .seek ⟨UInt32.ofNat (decimal x), UInt32.ofNat (decimal y)⟩) ∧
    (∀ seekto, issued request = .seek seekto →
      sendRcvSocketData K M srv fPos env =
        if Addresses srv.driver seekto.writeCmd.toNat seekto.writeCmdOffset.toNat then
          .ok ({ srv with ioctlJustPerformed := true },
            position srv.driver seekto.writeCmd.toNat seekto.writeCmdOffset.toNat, 1)
        else .ok (srv, fPos, -1)) ∧
    ((∀ seekto, issued request ≠ .seek seekto) →
      sendRcvSocketData K M srv fPos env = .ok (srv, fPos, -1)) := by
  obtain ⟨blocks, part, h⟩ := hd.holds
  obtain ⟨_, _, hsend⟩ := sendRcv_some (K := K) M srv hm fPos env hr
  refine ⟨?_, ?_, ?_, ?_, ?_⟩
  · constructor
    · rintro ⟨seekto, hi⟩
      obtain ⟨f, g, htext, _⟩ := (issued_iff_text hs seekto).mp hi
      exact ⟨f, g, htext⟩
    · rintro ⟨f, g, htext⟩
      exact ⟨_, (issued_iff_text hs _).mpr ⟨f, g, htext, rfl⟩⟩
  · intro f g seekto htext hf hg hi
    have hi' := (issued_iff_text hs _).mpr ⟨f, g, htext, rfl⟩
    rw [hi] at hi'
    obtain rfl := Issued.seek.inj hi'
    exact ⟨toNat_value f hf, toNat_value g hg⟩
  · rintro x y rest hx hy hxv hyv rfl
    rw [issued_seek_iff hs, List.drop_left, sscanfSeek_numerals hx hy hxv hyv]
  · intro seekto hi
    rw [hsend, dispatch_issued, hi]
    dsimp only
    by_cases ha : Addresses srv.driver seekto.writeCmd.toNat seekto.writeCmdOffset.toNat
    · rw [if_pos ha, ioctl_accepts h fPos seekto ha]
      rfl
    · rw [if_neg ha, ioctl_unaddressed h fPos seekto ha]
      rfl
  · intro hno
    have hnothing : issued request = .nothing := by
      rw [issued, if_pos (List.isPrefixOf_iff_prefix.mpr hs)]
      cases hscan : sscanfSeek (request.drop SEEK_COMMAND.length) with
      | none => rfl
      | some seekto => exact absurd ((issued_seek_iff hs seekto).mpr hscan) (hno seekto)
    rw [hsend, dispatch_issued, hnothing]
    rfl

def spacedSeek : List UInt8 := SEEK_COMMAND ++ [32,48,44,49,10]

theorem spaced_seek_accepted :
    (∀ x y rest, IsNumeral x → IsNumeral y →
      spacedSeek ≠ SEEK_COMMAND ++ (x ++ comma::y ++ newline::rest)) ∧
    issued spacedSeek = .seek ⟨0, 1⟩ ∧
    (sendRcvSocketData pageKernel pageLibc (idleServer (afterWrites pageKernel twoLines) false) 0
      { callocAt := some 1, segments := [.data spacedSeek] }).toOption.map
        (fun x => (x.2, x.1.ioctlJustPerformed)) = some ((1, 1), true) := by
  refine ⟨?_, by decide +kernel, by decide +kernel⟩
  intro x y rest hx _ heq
  have htail := List.append_cancel_left heq
  obtain ⟨hne, hdigit⟩ := hx
  cases x with
  | nil => exact hne rfl
  | cons d ds =>
    obtain ⟨rfl, _⟩ := List.cons.inj htail
    exact absurd (hdigit 32 (by simp)) (by decide)

theorem seek_grammar_two_lines :
    sendRcvSocketData pageKernel pageLibc (idleServer (afterWrites pageKernel twoLines) false) 0
      { callocAt := some 1, segments := [.data (SEEK_COMMAND ++ [48,44,49,120,10])] } =
      .ok (idleServer (afterWrites pageKernel twoLines) true, 1, 1) := by
  have hr : gathered pageLibc (idleServer (afterWrites pageKernel twoLines) false).heap
      { callocAt := some 1, segments := [.data (SEEK_COMMAND ++ [48,44,49,120,10])] } =
      some (SEEK_COMMAND ++ [48,44,49,120,10]) := by decide +kernel
  obtain ⟨_, _, _, hseek, _⟩ := seek_grammar pageLibc
    (show WriteReachable pageKernel (idleServer (afterWrites pageKernel twoLines) false).driver from
      writeReachable_afterWrites pageKernel twoLines) rfl 0 _ hr (List.prefix_append _ _)
  have haddr : Addresses (idleServer (afterWrites pageKernel twoLines) false).driver
      (0:UInt32).toNat (1:UInt32).toNat := by decide
  rw [hseek ⟨0, 1⟩ (by decide +kernel), if_pos haddr]
  rfl

end Aesd.SeekGrammar
