import Aesd.SocketServer

/-!
# What a thread receives

The loop keeps the bytes received so far at the start of a buffer which has
room for one more and a zero. What it gathers is a function of the segments
alone; it ends with the buffer freed, or with these bytes in it, which are a
piece of the stream that ends the line.
-/

set_option autoImplicit false

namespace Aesd.ReceiveLoop
open BlockHeap Allocation MachineInt
open Aesd.KernelMemory Aesd.CharDriver Aesd.SocketServer

def stream : List Segment → List UInt8
  | .data bytes::segments => if bytes = [] then [] else bytes ++ stream segments
  | _ => []

/-- What `send_rcv_socket_data` has gathered when it leaves its loop for the
section under the mutex. -/
def gathered (M : Libc) (heap : Heap UInt8) (env : RequestEnv) : Option (List UInt8) :=
  match gatherRequest M heap env with
  | .ok (heap, some (clientBuffer, totalReceived)) =>
    (load heap clientBuffer 0 totalReceived).toOption
  | _ => none

structure Head where
  heap : Heap UInt8
  clientBuffer : Addr
  totalReceived : ℕ
  currentSize : ℕ
  reallocAt : List (Option Addr)

def Head.asked (s : Head) : ℕ := subU64 (subU64 s.currentSize s.totalReceived) 1

def Head.Fits (s : Head) (bytes : List UInt8) : Prop :=
  1 ≤ bytes.length ∧ bytes.length ≤ s.asked

/-- How a turn of the loop ends: at its head again, behind it with the buffer,
or with the buffer freed. -/
inductive Turn where
  | again (s : Head)
  | leaves (heap : Heap UInt8) (clientBuffer : Addr) (totalReceived : ℕ)
  | fails (heap : Heap UInt8)

def receiveTurn (M : Libc) (s : Head) (bytes : List UInt8) : Except Fault Turn := do
  let heap ← store s.heap s.clientBuffer s.totalReceived bytes
  let totalReceived := wrapU64 (s.totalReceived+bytes.length)
  let heap ← store heap s.clientBuffer totalReceived [0]
  let received ← load heap s.clientBuffer 0 totalReceived
  if received.contains newline then
    return .leaves heap s.clientBuffer totalReceived
  else if totalReceived ≥ subU64 s.currentSize 1 then
    let newSize := wrapU64 (s.currentSize*2)
    match ← realloc M heap s.clientBuffer newSize (s.reallocAt.headD none) with
    | none => do
      let heap ← free heap s.clientBuffer
      return .fails heap
    | some (clientBuffer, heap) =>
      return .again ⟨heap, clientBuffer, totalReceived, newSize, s.reallocAt.tail⟩
  else
    return .again { s with heap, totalReceived }

def Head.loop (M : Libc) (s : Head) (fuel : ℕ) (segments : List Segment) :
    Except Fault (Heap UInt8 × Option (Addr × ℕ)) :=
  receiveLoop M fuel s.heap s.clientBuffer s.totalReceived s.currentSize segments s.reallocAt

def Turn.goOn (M : Libc) (fuel : ℕ) (segments : List Segment) :
    Turn → Except Fault (Heap UInt8 × Option (Addr × ℕ))
  | .again s => s.loop M fuel segments
  | .leaves heap clientBuffer totalReceived => .ok (heap, some (clientBuffer, totalReceived))
  | .fails heap => .ok (heap, none)

/-- The loop takes one turn after another. -/
theorem loop_turn (M : Libc) (s : Head) (fuel : ℕ) {segments rest : List Segment}
    {bytes : List UInt8} (hrecv : recv s.asked segments = (some bytes, rest)) :
    s.loop M (fuel+1) segments = receiveTurn M s bytes >>= Turn.goOn M fuel rest := by
  rw [Head.loop, receiveLoop, ← Head.asked, hrecv, receiveTurn]
  simp only [bind_assoc, pure_eq_ok]
  refine bind_congr fun heap => bind_congr fun heap' => bind_congr fun received => ?_
  split_ifs with hn hfull
  · rfl
  · simp only [bind_assoc]
    refine bind_congr fun moved => ?_
    cases moved with
    | none => simp only [bind_assoc]; rfl
    | some x => rfl
  · rfl

theorem recv_spec {len : ℕ} (hlen : 0 < len) (segments : List Segment) :
    ∃ rest, recv len segments = (none, rest) ∧ stream segments = [] ∨
      ∃ bytes, recv len segments = (some bytes, rest) ∧ bytes ≠ [] ∧ bytes.length ≤ len ∧
        bytes ++ stream rest = stream segments ∧
        bytes.length+(rest.map Segment.length).sum = (segments.map Segment.length).sum := by
  cases segments with
  | nil => exact ⟨[], .inl ⟨rfl, rfl⟩⟩
  | cons segment segments =>
    cases segment with
    | closed => exact ⟨segments, .inl ⟨rfl, rfl⟩⟩
    | error => exact ⟨segments, .inl ⟨rfl, rfl⟩⟩
    | data bytes =>
      by_cases hnil : bytes = []
      · exact ⟨segments, .inl (by simp [recv, stream, hnil])⟩
      have hempty : ¬ (bytes = [] ∨ len = 0) := by
        rintro (h | h)
        · exact hnil h
        · omega
      by_cases hfit : bytes.length ≤ len
      · refine ⟨segments, .inr ⟨bytes, ?_, hnil, hfit, ?_, rfl⟩⟩
        · simp only [recv, if_neg hempty, if_pos hfit]
        · rw [stream, if_neg hnil]
      · have hdrop : bytes.drop len ≠ [] := by
          rw [Ne, List.drop_eq_nil_iff]
          omega
        refine ⟨.data (bytes.drop len)::segments, .inr ⟨bytes.take len, ?_, ?_,
          List.length_take_le _ _, ?_, ?_⟩⟩
        · simp only [recv, if_neg hempty, if_neg hfit]
        · rw [Ne, List.take_eq_nil_iff, or_comm]
          exact hempty
        · rw [stream, stream, if_neg hdrop, if_neg hnil, ← List.append_assoc,
            List.take_append_drop]
        · simp only [List.map_cons, List.sum_cons, Segment.length, List.length_take,
            List.length_drop]
          omega

theorem receive_store (base : Heap UInt8) (a : Addr) {b bytes : List UInt8} {total : ℕ}
    (hroom : total+bytes.length < b.length) :
    ∃ b₁ b₂, store (alloc base a b) a total bytes = .ok (alloc base a b₁) ∧
      store (alloc base a b₁) a (total+bytes.length) [0] = .ok (alloc base a b₂) ∧
      b₂.length = b.length ∧ b₂.take (total+bytes.length) = b.take total ++ bytes ∧
      load (alloc base a b₂) a 0 (total+bytes.length) = .ok (b.take total ++ bytes) := by
  have hlen : (overwrite b total bytes).length = b.length := length_overwrite _ _ _ (by omega)
  have hlen' : (overwrite (overwrite b total bytes) (total+bytes.length) [0]).length =
      b.length := by
    rw [length_overwrite _ _ _ (by simp only [List.length_singleton]; omega), hlen]
  have htake : (overwrite (overwrite b total bytes) (total+bytes.length) [0]).take
      (total+bytes.length) = b.take total ++ bytes := by
    rw [take_overwrite_before _ _ (by omega), take_overwrite _ _ (by omega)]
  refine ⟨overwrite b total bytes, _, ?_, ?_, hlen', htake, ?_⟩
  · rw [store_live _ (alloc_same _ _ _) _ _ (by omega), alloc_alloc]
  · rw [store_live _ (alloc_same _ _ _) _ _ (by simp only [List.length_singleton]; omega),
      alloc_alloc]
  · rw [load_live _ (alloc_same _ _ _) _ _ (by omega), List.drop_zero, htake]

/-- How the loop ends from a buffer which holds `bytes`: the buffer is freed,
or the request stands in it, which is `bytes` and what was received since.
`base` is the heap without the buffer, which may have moved. -/
def Received (base : Heap UInt8) (bytes : List UInt8) (segments : List Segment)
    (result : Except Fault (Heap UInt8 × Option (Addr × ℕ))) : Prop :=
  result = .ok (base, none) ∨ ∃ a b rest, base a = none ∧
    result = .ok (alloc base a b, some (a, (bytes ++ rest).length)) ∧
    b.take (bytes ++ rest).length = bytes ++ rest ∧ rest <+: stream segments ∧
    newline ∈ bytes ++ rest

/-- The loop without the heap: what is received on top of `received` into a
buffer of `size` bytes which may grow up to `limit`. -/
def gatherBytes (limit : ℕ) : ℕ → ℕ → List UInt8 → List Segment → Option (List UInt8)
  | 0, _, _, _ => none
  | fuel+1, size, received, segments =>
    match recv (size-received.length-1) segments with
    | (none, _) => none
    | (some bytes, rest) =>
      if newline ∈ received ++ bytes then some (received ++ bytes)
      else if received.length+bytes.length ≥ size-1 then
        if size*2 ≤ limit then gatherBytes limit fuel (size*2) (received ++ bytes) rest else none
      else gatherBytes limit fuel size (received ++ bytes) rest

theorem gatherBytes_stream {limit fuel size : ℕ} {received r : List UInt8}
    {segments : List Segment} (hroom : received.length+1 < size)
    (h : gatherBytes limit fuel size received segments = some r) :
    newline ∈ r ∧ ∃ rest, r = received ++ rest ∧ rest <+: stream segments := by
  induction fuel generalizing size received segments with
  | zero => simp [gatherBytes] at h
  | succ fuel ih =>
    rw [gatherBytes] at h
    obtain ⟨rest, ⟨hend, _⟩ | ⟨bytes, hrecv, hne, hle, hstream, _⟩⟩ :=
      recv_spec (show 0 < size-received.length-1 by omega) segments
    · simp [hend] at h
    have more (hsome : newline ∈ r ∧ ∃ t, r = received ++ bytes ++ t ∧ t <+: stream rest) :
        newline ∈ r ∧ ∃ t, r = received ++ t ∧ t <+: stream segments := by
      obtain ⟨hn, t, ht, hpre⟩ := hsome
      exact ⟨hn, bytes ++ t, by rw [ht, List.append_assoc],
        hstream ▸ (List.prefix_append_right_inj bytes).mpr hpre⟩
    apply more
    simp only [hrecv] at h
    split_ifs at h with hn hfull hlimit
    · obtain rfl := Option.some.inj h
      exact ⟨hn, [], by rw [List.append_nil], List.nil_prefix⟩
    · exact ih (by rw [List.length_append]; omega) h
    · exact ih (by rw [List.length_append]; omega) h

theorem calloc_spec (M : Libc) (heap : Heap UInt8) (size : ℕ) (at' : Option Addr) :
    calloc M heap size at' = none ∨ ∃ a, heap a = none ∧ size ≤ M.mallocMax ∧
      calloc M heap size at' = some (a, alloc heap a (List.replicate size 0)) := by
  cases hg : grants M.allocator heap size at' with
  | false => exact .inl (place_refused _ _ _ _ (by simpa using hg))
  | true =>
    obtain ⟨a, _, ha, hle, hplace⟩ := place_granted M.allocator heap (List.replicate size 0) at'
      (by simpa using hg)
    rw [List.length_replicate] at hle
    exact .inr ⟨a, ha, hle, hplace⟩

theorem headD_inPlace {places : List (Option Addr)} {a : Addr} (hlen : 0 < places.length)
    (h : ∀ x ∈ places, x = some a) : places.headD none = some a := by
  cases places with
  | nil => simp at hlen
  | cons x xs => exact h x (List.mem_cons_self)

theorem take_grown {b b' bytes : List UInt8} {n : ℕ} (hn : n ≤ b.length)
    (hgrown : b'.take b.length = b) (h : b.take n = bytes) : b'.take n = bytes := by
  rw [← h, ← hgrown, List.take_take, min_eq_left hn]

section
variable (M : Libc) (base : Heap UInt8) {a : Addr} {b : List UInt8}

theorem realloc_spec (ha : base a = none) {size : ℕ} (hle : b.length ≤ size)
    (place : Option Addr) :
    realloc M (alloc base a b) a size place = .ok none ∧
        (place = some a → ¬ size ≤ M.mallocMax) ∨
      ∃ a' b', place = some a' ∧ base a' = none ∧ size ≤ M.mallocMax ∧ b'.length = size ∧
        b'.take b.length = b ∧
        realloc M (alloc base a b) a size place = .ok (some (a', alloc base a' b')) := by
  cases hg : regrants M.allocator (alloc base a b) a size place with
  | false =>
    refine .inl ⟨resize_refused _ _ (alloc_same _ _ _) _ _ hg, ?_⟩
    rintro rfl
    simp only [regrants, beq_self_eq_true, Bool.true_or, Bool.and_true] at hg
    exact of_decide_eq_false hg
  | true =>
    obtain ⟨a', hat, hfree, hgrown, hre⟩ := resize_granted _ _ (alloc_same base a b) _ _ hg
    have ha' : base a' = none := by
      by_cases haa : a' = a
      · rw [haa, ha]
      · have hother := hfree.resolve_left haa
        rwa [alloc_other _ _ haa] at hother
    rw [erase_alloc _ _ ha, List.take_of_length_le hle] at hre
    refine .inr ⟨a', _, hat, ha', hgrown, ?_, List.take_left' rfl, hre⟩
    rw [List.length_append, length_fresh, Nat.add_sub_cancel' hle]

theorem receiveTurn_received {bytes : List UInt8} {total : ℕ} (places : List (Option Addr))
    (hroom : total+bytes.length < b.length) (hsmall : b.length ≤ M.mallocMax) :
    ∃ b', b'.length = b.length ∧ b'.take (total+bytes.length) = b.take total ++ bytes ∧
      receiveTurn M ⟨alloc base a b, a, total, b.length, places⟩ bytes =
        if newline ∈ b.take total ++ bytes then
          .ok (.leaves (alloc base a b') a (total+bytes.length))
        else if total+bytes.length ≥ b.length-1 then do
          match ← realloc M (alloc base a b') a (b.length*2) (places.headD none) with
          | none => do
            let heap ← free (alloc base a b') a
            return .fails heap
          | some (a', heap) =>
            return .again ⟨heap, a', total+bytes.length, b.length*2, places.tail⟩
        else .ok (.again ⟨alloc base a b', a, total+bytes.length, b.length, places⟩) := by
  have hmax := M.mallocMax_small
  have hwrap : wrapU64 (total+bytes.length) = total+bytes.length := wrapU64_of_lt (by omega)
  have hlast : subU64 b.length 1 = b.length-1 := subU64_of_le (by omega) (by omega)
  have hdouble : wrapU64 (b.length*2) = b.length*2 := wrapU64_of_lt (by omega)
  obtain ⟨b₁, b₂, hstore, hzero, hlen, htake, hload⟩ := receive_store base a hroom
  refine ⟨b₂, hlen, htake, ?_⟩
  rw [receiveTurn]
  simp only [hstore, ok_bind, hwrap, hzero, hload, hlast, hdouble, List.contains_iff_mem]
  rfl

theorem asked_eq {s : Head} (hroom : s.totalReceived+1 < s.currentSize)
    (hsmall : s.currentSize ≤ M.mallocMax) : s.asked = s.currentSize-s.totalReceived-1 := by
  have hmax := M.mallocMax_small
  rw [Head.asked, subU64_of_le (show s.totalReceived ≤ s.currentSize by omega) (by omega),
    subU64_of_le (by omega) (by omega)]

end

/-- The loop with `total` bytes in the buffer at `a` gathers them, or frees the
buffer. It does not free it in vain when every reallocation is granted in place.
The induction is on the fuel, which exceeds the bytes still to come. -/
theorem receiveLoop_gathers (M : Libc) (base : Heap UInt8) (fuel : ℕ) (a : Addr) (b : List UInt8)
    (total : ℕ) (segments : List Segment) (places : List (Option Addr)) (ha : base a = none)
    (hroom : total+1 < b.length) (hsmall : b.length ≤ M.mallocMax)
    (hfuel : (segments.map Segment.length).sum < fuel) :
    (receiveLoop M fuel (alloc base a b) a total b.length segments places = .ok (base, none) ∧
      (fuel ≤ places.length → (∀ x ∈ places, x = some a) →
        gatherBytes M.mallocMax fuel b.length (b.take total) segments = none)) ∨
    ∃ a' b' r, base a' = none ∧
      receiveLoop M fuel (alloc base a b) a total b.length segments places =
        .ok (alloc base a' b', some (a', r.length)) ∧
      b'.take r.length = r ∧
      gatherBytes M.mallocMax fuel b.length (b.take total) segments = some r := by
  induction fuel generalizing a b total segments places with
  | zero => omega
  | succ fuel ih =>
    have hmax := M.mallocMax_small
    have htaken : (b.take total).length = total := List.length_take_of_le (by omega)
    have hasked := asked_eq M (s := ⟨alloc base a b, a, total, b.length, places⟩) hroom hsmall
    rw [gatherBytes, htaken]
    obtain ⟨rest, ⟨hend, _⟩ | ⟨bytes, hrecv, hne, hle, hstream, hcount⟩⟩ :=
      recv_spec (show 0 < b.length-total-1 by omega) segments
    · left
      rw [Head.asked] at hasked
      rw [receiveLoop, hasked]
      simp only [hend, free_alloc _ _ ha, ok_bind, pure_eq_ok]
      exact ⟨trivial, fun _ _ => trivial⟩
    have hbpos : 0 < bytes.length := List.length_pos_iff.mpr hne
    obtain ⟨b', hlen, htake, hreceived⟩ :=
      receiveTurn_received M base places (show total+bytes.length < b.length by omega) hsmall
    have hturn : receiveLoop M (fuel+1) (alloc base a b) a total b.length segments places =
        receiveTurn M ⟨alloc base a b, a, total, b.length, places⟩ bytes >>=
          Turn.goOn M fuel rest :=
      loop_turn M ⟨alloc base a b, a, total, b.length, places⟩ fuel (by rw [hasked]; exact hrecv)
    rw [hturn, hreceived]
    simp only [hrecv]
    by_cases hn : newline ∈ b.take total ++ bytes
    · have htotal : (b.take total ++ bytes).length = total+bytes.length := by
        rw [List.length_append, htaken]
      rw [if_pos hn, if_pos hn]
      refine .inr ⟨a, b', b.take total ++ bytes, ha, ?_, ?_, rfl⟩ <;> rw [htotal]
      · rfl
      · exact htake
    rw [if_neg hn, if_neg hn]
    by_cases hfull : total+bytes.length ≥ b.length-1
    · rw [if_pos hfull, if_pos hfull]
      obtain ⟨hrefused, hvain⟩ | ⟨a', b'', hat, ha', hgrown, hglen, hgtake, hmoved⟩ :=
        realloc_spec M base ha (show b'.length ≤ b.length*2 by omega) (places.headD none)
      · refine .inl ⟨?_, fun hplaces hinplace => ?_⟩
        · simp only [hrefused, ok_bind, free_alloc _ _ ha, pure_eq_ok]
          rfl
        · rw [if_neg (hvain (headD_inPlace (by omega) hinplace))]
      · rw [hmoved, ok_bind, if_pos hgrown]
        have hkept : b''.take (total+bytes.length) = b.take total ++ bytes :=
          take_grown (by omega) hgtake htake
        have hnext := ih a' b'' (total+bytes.length) rest places.tail ha' (by omega)
          (by rw [hglen]; exact hgrown) (by omega)
        rw [hglen, hkept] at hnext
        rcases hnext with ⟨hloop, hgather⟩ | hnext
        · refine .inl ⟨hloop, fun hplaces hinplace => ?_⟩
          obtain rfl : a = a' :=
            Option.some.inj ((headD_inPlace (by omega) hinplace).symm.trans hat)
          exact hgather (by rw [List.length_tail]; omega)
            fun x hx => hinplace x (List.mem_of_mem_tail hx)
        · exact .inr hnext
    · rw [if_neg hfull, if_neg hfull, ok_bind]
      have hnext := ih a b' (total+bytes.length) rest places ha (by omega) (by omega) (by omega)
      rw [hlen, htake] at hnext
      rcases hnext with ⟨hloop, hgather⟩ | hnext
      · exact .inl ⟨hloop, fun hplaces => hgather (by omega)⟩
      · exact .inr hnext

theorem receiveLoop_spec (M : Libc) (base : Heap UInt8) (fuel : ℕ) (a : Addr) (b : List UInt8)
    (total : ℕ) (segments : List Segment) (places : List (Option Addr)) (ha : base a = none)
    (hroom : total+1 < b.length) (hsmall : b.length ≤ M.mallocMax)
    (hfuel : (segments.map Segment.length).sum < fuel) :
    Received base (b.take total) segments
      (receiveLoop M fuel (alloc base a b) a total b.length segments places) := by
  rcases receiveLoop_gathers M base fuel a b total segments places ha hroom hsmall hfuel with
    ⟨hloop, _⟩ | ⟨a', b', r, ha', hloop, htake, hgather⟩
  · exact .inl hloop
  · obtain ⟨hn, rest, rfl, hpre⟩ := gatherBytes_stream
      (by rw [List.length_take_of_le (by omega)]; exact hroom) hgather
    exact .inr ⟨a', b', rest, ha', hloop, htake, hpre, hn⟩

end Aesd.ReceiveLoop
