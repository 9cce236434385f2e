import Aesd.ReceiveLoop

/-!
# The heads of the receive loop

At every head of the loop the buffer holds what was received so far, with room
for one byte more and a zero. Its size is the first one doubled some times,
also when what was received ends exactly where the buffer had to grow.
-/

set_option autoImplicit false

namespace Aesd.ReceiveHeads
open BlockHeap Allocation MachineInt
open Aesd.KernelMemory Aesd.CharDriver Aesd.SocketServer Aesd.ReceiveLoop

/-- The heads which the loop reaches, with the segments received before. -/
inductive AtHead (M : Libc) (start : Head) : Head → List (List UInt8) → Prop where
  | first : AtHead M start start []
  | again {s s' : Head} {got : List (List UInt8)} {bytes : List UInt8} (h : AtHead M start s got)
      (hfit : s.Fits bytes) (hturn : receiveTurn M s bytes = .ok (.again s')) :
      AtHead M start s' (got ++ [bytes])

structure Gathering (M : Libc) (base : Heap UInt8) (received : List UInt8) (s : Head) : Prop where
  fresh : base s.clientBuffer = none
  block : ∃ b, s.heap = alloc base s.clientBuffer b ∧ b.length = s.currentSize ∧
    b.take s.totalReceived = received
  power : ∃ k, s.currentSize = clientBufferLen*2^k
  room : s.totalReceived+1 < s.currentSize
  small : s.currentSize ≤ M.mallocMax
  open_line : newline ∉ received

/-- Where a turn may end once `received` is in the buffer. -/
def Ends (M : Libc) (base : Heap UInt8) (received : List UInt8) : Turn → Prop
  | .again s => Gathering M base received s
  | .leaves heap clientBuffer totalReceived => newline ∈ received ∧
      totalReceived = received.length ∧ load heap clientBuffer 0 totalReceived = .ok received
  | .fails heap => newline ∉ received ∧ heap = base

def Turn.head : Turn → Option Head
  | .again s => some s
  | _ => none

section
variable {M : Libc} {base : Heap UInt8} {s : Head} {received bytes : List UInt8}

theorem Gathering.total (h : Gathering M base received s) :
    s.totalReceived = received.length := by
  obtain ⟨b, _, hlen, htake⟩ := h.block
  have hroom := h.room
  rw [← htake, List.length_take_of_le (by omega)]

theorem Gathering.asked (h : Gathering M base received s) :
    s.asked = s.currentSize-s.totalReceived-1 :=
  asked_eq M h.room h.small

theorem Gathering.stores (h : Gathering M base received s) (hfit : s.Fits bytes) :
    s.totalReceived+bytes.length < s.currentSize := by
  have hroom := h.room
  have hasked := h.asked
  have hle := hfit.2
  omega

theorem Gathering.double (h : Gathering M base received s) :
    wrapU64 (s.currentSize*2) = s.currentSize*2 := by
  have hmax := M.mallocMax_small
  have hsmall := h.small
  exact wrapU64_of_lt (by omega)

theorem Gathering.load (h : Gathering M base received s) :
    load s.heap s.clientBuffer 0 s.totalReceived = .ok received := by
  obtain ⟨b, hheap, hlen, htake⟩ := h.block
  have hroom := h.room
  rw [hheap, load_live _ (alloc_same base s.clientBuffer b) _ _ (by omega), List.drop_zero, htake]

theorem Gathering.turn (h : Gathering M base received s) (hfit : s.Fits bytes) :
    ∃ t, receiveTurn M s bytes = .ok t ∧ Ends M base (received ++ bytes) t := by
  have hstores := h.stores hfit
  have htotal := h.total
  have hroom := h.room
  have hpos := hfit.1
  obtain ⟨heap, a, total, size, places⟩ := s
  obtain ⟨b, hheap, hsize, hbytes⟩ := h.block
  dsimp only at hheap hsize hbytes hstores htotal hroom
  subst hheap hsize hbytes
  obtain ⟨b', hlen, htake, hreceived⟩ := receiveTurn_received M base places hstores h.small
  have happ : (b.take total ++ bytes).length = total+bytes.length := by
    rw [List.length_append, ← htotal]
  rw [hreceived]
  by_cases hn : newline ∈ b.take total ++ bytes
  · rw [if_pos hn]
    refine ⟨_, rfl, hn, happ.symm, ?_⟩
    rw [load_live _ (alloc_same base a b') _ _ (by omega), List.drop_zero, htake]
  rw [if_neg hn]
  by_cases hfull : total+bytes.length ≥ b.length-1
  · rw [if_pos hfull]
    obtain ⟨hrefused, _⟩ | ⟨a', b'', _, ha', hgrown, hglen, hgtake, hmoved⟩ :=
      realloc_spec M base h.fresh (show b'.length ≤ b.length*2 by omega) (places.headD none)
    · rw [hrefused, ok_bind]
      simp only [free_alloc _ _ h.fresh, ok_bind, pure_eq_ok]
      exact ⟨_, rfl, hn, rfl⟩
    · rw [hmoved, ok_bind]
      obtain ⟨k, hk⟩ := h.power
      have hkept : b''.take (total+bytes.length) = b.take total ++ bytes :=
        take_grown (by omega) hgtake htake
      refine ⟨_, rfl, ha', ⟨b'', rfl, hglen, hkept⟩, ⟨k+1, ?_⟩, ?_, hgrown, hn⟩
      · rw [pow_succ, ← Nat.mul_assoc, ← hk]
      · change total+bytes.length+1 < b.length*2
        omega
  · rw [if_neg hfull]
    refine ⟨_, rfl, h.fresh, ⟨b', rfl, hlen, htake⟩, h.power, ?_, h.small, hn⟩
    change total+bytes.length+1 < b.length
    omega

theorem recv_fits (hfit : s.Fits bytes) (segments : List Segment) :
    recv s.asked (.data bytes::segments) = (some bytes, segments) := by
  obtain ⟨hpos, hle⟩ := hfit
  have hnot : ¬ (bytes = [] ∨ s.asked = 0) := by
    rintro (rfl | hz)
    · cases hpos
    · omega
  rw [recv, if_neg hnot, if_pos hle]

theorem AtHead.loop {start : Head} {got : List (List UInt8)} (h : AtHead M start s got)
    (fuel : ℕ) (segments : List Segment) :
    start.loop M (got.length+fuel) (got.map .data ++ segments) = s.loop M fuel segments := by
  induction h generalizing fuel segments with
  | first => rw [List.length_nil, Nat.zero_add, List.map_nil, List.nil_append]
  | @again s s' got bytes _ hfit hturn ih =>
    have hloop := loop_turn M s fuel (recv_fits hfit segments)
    rw [hturn, ok_bind, Turn.goOn] at hloop
    rw [List.length_append, List.length_singleton, Nat.add_assoc, Nat.add_comm 1,
      List.map_append, List.append_assoc, ih (fuel+1)]
    exact hloop

end

end Aesd.ReceiveHeads
