import Aesd.SeekGrammar
import Mathlib.Data.Nat.Log

/-!
# How the cuts of a client's stream show in its request

A thread takes whatever the last segment brings behind the first line end, as
far as the buffer has room for it. The shortest request which a stream can lead
to is its first line, the longest one fills the buffer of that moment.
-/

set_option autoImplicit false

namespace Aesd.ReceiveCuts
open BlockHeap Allocation
open Aesd.KernelMemory Aesd.CharDriver Aesd.DriverInvariant Aesd.DriverWrite
open Aesd.CommandLog Aesd.DriverRead Aesd.DriverSeek Aesd.SeekParser
open Aesd.SocketServer Aesd.ReceiveLoop Aesd.SocketRequest Aesd.SocketReply Aesd.SeekGrammar

def lineLength (bytes : List UInt8) : ℕ := (bytes.takeWhile (· != newline)).length+1

def bufferSize (n : ℕ) : ℕ := 2^max 10 (Nat.clog 2 (n+1))

def Grown (size n : ℕ) : Prop := ∃ j, 10 ≤ j ∧ size = 2^j ∧ (j = 10 ∨ 2^(j-1) ≤ n+1)

theorem grown_start : Grown clientBufferLen 0 := ⟨10, le_rfl, rfl, .inl rfl⟩

theorem Grown.more {size n m : ℕ} (h : Grown size n) (hm : n ≤ m) : Grown size m := by
  obtain ⟨j, hj, hs, hle⟩ := h
  exact ⟨j, hj, hs, hle.imp_right fun h => by omega⟩

theorem Grown.double {size n m : ℕ} (h : Grown size n) (hm : size ≤ m+1) : Grown (size*2) m := by
  obtain ⟨j, hj, hs, _⟩ := h
  refine ⟨j+1, by omega, by rw [hs, Nat.pow_succ], .inr ?_⟩
  rw [Nat.add_sub_cancel, ← hs]
  exact hm

theorem Grown.eq_bufferSize {size n l : ℕ} (h : Grown size n) (hn : n < l) (hl : l < size) :
    size = bufferSize l := by
  obtain ⟨j, hj, rfl, hle⟩ := h
  have hup : Nat.clog 2 (l+1) ≤ j := Nat.clog_le_of_le_pow hl
  rw [bufferSize]
  congr 1
  rcases hle with rfl | hle
  · exact (Nat.max_eq_left hup).symm
  · have hlow : j-1 < Nat.clog 2 (l+1) := by
      rw [Nat.lt_clog_iff_pow_lt (by decide)]
      omega
    omega

theorem Grown.fits {size n l : ℕ} (h : Grown size n) (hl : size ≤ l) : size*2 ≤ bufferSize l := by
  obtain ⟨j, hj, rfl, _⟩ := h
  have hlow : j < Nat.clog 2 (l+1) := by
    rw [Nat.lt_clog_iff_pow_lt (by decide)]
    omega
  rw [bufferSize, ← Nat.pow_succ]
  exact Nat.pow_le_pow_right (by decide) (by omega)

theorem lineLength_le {x : List UInt8} (h : newline ∈ x) : lineLength x ≤ x.length := by
  induction x with
  | nil => simp at h
  | cons b x ih =>
    by_cases hb : b = newline
    · simp [lineLength, hb]
    · have hx := ih (by simpa [Ne.symm hb] using h)
      simpa [lineLength, hb] using hx

theorem lineLength_append {x : List UInt8} (y : List UInt8) (h : newline ∈ x) :
    lineLength (x ++ y) = lineLength x := by
  have hle := lineLength_le h
  unfold lineLength at *
  rw [List.takeWhile_append, if_neg (by omega)]

theorem lt_lineLength {x : List UInt8} (y : List UInt8) (h : newline ∉ x) :
    x.length < lineLength (x ++ y) := by
  rw [lineLength, List.takeWhile_append_of_pos (by
    intro b hb
    simpa using fun heq : b = newline => h (heq ▸ hb)), List.length_append]
  omega

theorem gatherBytes_bounded {limit fuel size : ℕ} {received r : List UInt8}
    {segments : List Segment} (hgrown : Grown size received.length)
    (hroom : received.length+1 < size) (hnew : newline ∉ received)
    (h : gatherBytes limit fuel size received segments = some r) :
    r.length < bufferSize (lineLength (received ++ stream segments)) := by
  induction fuel generalizing size received segments with
  | zero => simp [gatherBytes] at h
  | succ fuel ih =>
    rw [gatherBytes] at h
    obtain ⟨rest, ⟨hend, _⟩ | ⟨bytes, hrecv, hne, hle, hstream, _⟩⟩ :=
      recv_spec (show 0 < size-received.length-1 by omega) segments
    · simp [hend] at h
    simp only [hrecv] at h
    rw [← hstream, ← List.append_assoc]
    have hlen : (received ++ bytes).length = received.length+bytes.length := List.length_append
    split_ifs at h with hn hfull hlimit
    · obtain rfl := Option.some.inj h
      have hlow := lt_lineLength (bytes ++ stream rest) hnew
      have hup := lineLength_le hn
      rw [lineLength_append _ hn]
      rw [← List.append_assoc, lineLength_append _ hn] at hlow
      rw [← hgrown.eq_bufferSize hlow (by omega)]
      omega
    · exact ih (hgrown.double (by omega)) (by omega) hn h
    · exact ih (hgrown.more (by omega)) (by omega) hn h

theorem gatherBytes_some {limit fuel size : ℕ} {received : List UInt8} {segments : List Segment}
    (hgrown : Grown size received.length) (hroom : received.length+1 < size)
    (hnew : newline ∉ received) (hline : newline ∈ stream segments)
    (hlimit : bufferSize (lineLength (received ++ stream segments)) ≤ limit)
    (hfuel : (segments.map Segment.length).sum < fuel) :
    ∃ r, gatherBytes limit fuel size received segments = some r := by
  induction fuel generalizing size received segments with
  | zero => omega
  | succ fuel ih =>
    rw [gatherBytes]
    obtain ⟨rest, ⟨_, hnone⟩ | ⟨bytes, hrecv, hne, hle, hstream, hcount⟩⟩ :=
      recv_spec (show 0 < size-received.length-1 by omega) segments
    · rw [hnone] at hline
      simp at hline
    have hbpos : 0 < bytes.length := List.length_pos_iff.mpr hne
    have hlen : (received ++ bytes).length = received.length+bytes.length := List.length_append
    simp only [hrecv]
    rw [← hstream, ← List.append_assoc] at hlimit
    by_cases hn : newline ∈ received ++ bytes
    · exact ⟨_, if_pos hn⟩
    rw [if_neg hn]
    have hline' : newline ∈ stream rest := by
      rw [← hstream] at hline
      exact (List.mem_append.mp hline).resolve_left fun h => hn (List.mem_append_right _ h)
    by_cases hfull : received.length+bytes.length ≥ size-1
    · have hlow := lt_lineLength (stream rest) hn
      have hfits := hgrown.fits (show size ≤ lineLength (received ++ bytes ++ stream rest) by omega)
      rw [if_pos hfull, if_pos (by omega)]
      exact ih (hgrown.double (by omega)) (by omega) hn hline' hlimit (by omega)
    · rw [if_neg hfull]
      exact ih (hgrown.more (by omega)) (by omega) hn hline' hlimit (by omega)

def singles (bytes : List UInt8) : List Segment := bytes.map fun b => .data [b]

theorem stream_singles (bytes : List UInt8) : stream (singles bytes) = bytes := by
  induction bytes with
  | nil => rfl
  | cons b bytes ih =>
    change stream (.data [b]::singles bytes) = _
    simp [stream, ih]

theorem gatherBytes_singles {limit fuel size : ℕ} {received r : List UInt8} (bytes : List UInt8)
    (hroom : received.length+1 < size) (hnew : newline ∉ received)
    (h : gatherBytes limit fuel size received (singles bytes) = some r) :
    newline ∉ r.dropLast := by
  induction bytes generalizing fuel size received with
  | nil => cases fuel <;> simp [gatherBytes, singles, recv] at h
  | cons b bytes ih =>
    cases fuel with
    | zero => simp [gatherBytes] at h
    | succ fuel =>
      have hrecv : recv (size-received.length-1) (singles (b::bytes)) =
          (some [b], singles bytes) := by
        have hlen : ¬ size-received.length-1 = 0 := by omega
        have hfit : 1 ≤ size-received.length-1 := by omega
        simp [singles, recv, hlen, hfit]
      have hlen : (received ++ [b]).length = received.length+1 := by simp
      rw [gatherBytes, hrecv] at h
      simp only at h
      split_ifs at h with hn hfull hlimit
      · obtain rfl := Option.some.inj h
        rwa [List.dropLast_concat]
      · exact ih (by omega) hn h
      · rw [List.length_singleton] at hfull
        exact ih (by omega) hn h

theorem gatherBytes_whole {limit fuel size : ℕ} {received bytes r : List UInt8}
    (hgrown : Grown size received.length) (hroom : received.length+1 < size)
    (hnew : newline ∉ received) (hne : bytes ≠ [])
    (h : gatherBytes limit fuel size received [.data bytes] = some r) :
    r = (received ++ bytes).take (bufferSize (lineLength (received ++ bytes))-1) := by
  induction fuel generalizing size received bytes with
  | zero => simp [gatherBytes] at h
  | succ fuel ih =>
    have hasked : ¬ (bytes = [] ∨ size-received.length-1 = 0) := by
      rw [not_or]
      exact ⟨hne, by omega⟩
    rw [gatherBytes, recv, if_neg hasked] at h
    by_cases hfit : bytes.length ≤ size-received.length-1
    · rw [if_pos hfit] at h
      have hlen : (received ++ bytes).length = received.length+bytes.length := List.length_append
      have hnone (size : ℕ) (x : List UInt8) : gatherBytes limit fuel size x [] = none := by
        cases fuel <;> simp [gatherBytes, recv]
      simp only [hnone, ite_self] at h
      split_ifs at h with hn
      obtain rfl := Option.some.inj h
      have hlow := lt_lineLength bytes hnew
      have hup := lineLength_le hn
      rw [← hgrown.eq_bufferSize hlow (by omega), List.take_of_length_le (by omega)]
    · rw [if_neg hfit] at h
      have hlen : (received ++ bytes.take (size-received.length-1)).length = size-1 := by
        rw [List.length_append, List.length_take]
        omega
      have hall : received ++ bytes.take (size-received.length-1) ++
          bytes.drop (size-received.length-1) = received ++ bytes := by
        rw [List.append_assoc, List.take_append_drop]
      simp only at h
      split_ifs at h with hn hfull hlimit
      · obtain rfl := Option.some.inj h
        have hlow := lt_lineLength bytes hnew
        have hup := lineLength_le hn
        rw [← hall, lineLength_append _ hn] at hlow
        rw [← hall, lineLength_append _ hn, ← hgrown.eq_bufferSize hlow (by omega),
          ← hlen, List.take_left]
      · rw [← hall]
        exact ih (hgrown.double (by omega)) (by omega) hn (by
          rw [Ne, List.drop_eq_nil_iff]
          omega) h
      · rw [List.length_take] at hfull
        omega

section
variable {M : Libc} {heap : Heap UInt8}

theorem receive_fresh {a : Addr} (ha : heap a = none) (hmax : clientBufferLen ≤ M.mallocMax)
    (segments : List Segment) (places : List (Option Addr)) :
    let result := receiveLoop M (receiveFuel segments)
      (alloc heap a (List.replicate clientBufferLen 0)) a 0 clientBufferLen segments places
    let bytes := gatherBytes M.mallocMax (receiveFuel segments) clientBufferLen [] segments
    (result = .ok (heap, none) ∧ (receiveFuel segments ≤ places.length →
        (∀ x ∈ places, x = some a) → bytes = none)) ∨
      ∃ a' b' r, result = .ok (alloc heap a' b', some (a', r.length)) ∧ b'.take r.length = r ∧
        bytes = some r := by
  have hloop := receiveLoop_gathers M heap (receiveFuel segments) a
    (List.replicate clientBufferLen 0) 0 segments places ha
    (by rw [List.length_replicate]; decide) (by rw [List.length_replicate]; exact hmax)
    (Nat.lt_succ_self _)
  rw [List.length_replicate, List.take_zero] at hloop
  exact hloop.imp_right fun ⟨a', b', r, _, hrest⟩ => ⟨a', b', r, hrest⟩

theorem load_gathered {a : Addr} {b r : List UInt8} (h : b.take r.length = r) :
    load (alloc heap a b) a 0 r.length = .ok r := by
  have hle := request_fits h
  rw [load_live _ (alloc_same heap a b) _ _ (by omega), List.drop_zero, h]

theorem gathered_bytes {env : RequestEnv} {r : List UInt8} (hr : gathered M heap env = some r) :
    gatherBytes M.mallocMax (receiveFuel env.segments) clientBufferLen [] env.segments =
      some r := by
  rw [gathered, gatherRequest] at hr
  rcases calloc_spec M heap clientBufferLen env.callocAt with hcalloc | ⟨a, ha, hle, hcalloc⟩
  · simp [hcalloc] at hr
  · simp only [hcalloc] at hr
    rcases receive_fresh ha hle env.segments env.reallocAt with
      ⟨hloop, _⟩ | ⟨a', b', r', hloop, htake, hbytes⟩
    · simp [hloop] at hr
    · simp only [hloop, load_gathered htake, Except.toOption] at hr
      rwa [← Option.some.inj hr]

def inPlace (a : Addr) (segments : List Segment) : RequestEnv where
  callocAt := some a
  segments := segments
  reallocAt := List.replicate (receiveFuel segments) (some a)

theorem gathered_inPlace {a : Addr} (ha : heap a = none) (hmax : clientBufferLen ≤ M.mallocMax)
    {segments : List Segment} {r : List UInt8}
    (h : gatherBytes M.mallocMax (receiveFuel segments) clientBufferLen [] segments = some r) :
    gathered M heap (inPlace a segments) = some r := by
  have hgrant : grants M.allocator heap (List.replicate clientBufferLen (0:UInt8)).length
      (some a) = true := by
    have hlargest : clientBufferLen ≤ M.allocator.largest := hmax
    rw [List.length_replicate]
    simpa [grants, ha] using hlargest
  obtain ⟨a₀, hat, _, _, hplace⟩ := place_granted M.allocator heap _ _ hgrant
  obtain rfl := Option.some.inj hat
  rw [gathered, gatherRequest]
  simp only [inPlace, calloc, hplace]
  rcases receive_fresh ha hmax segments (List.replicate (receiveFuel segments) (some a)) with
    ⟨_, hnone⟩ | ⟨a', b', r', hloop, htake, hbytes⟩
  · rw [hnone (by simp) (by simp)] at h
    cases h
  · rw [h] at hbytes
    obtain rfl := Option.some.inj hbytes
    simp only [hloop, load_gathered htake, Except.toOption]

end

def firstLine (bytes : List UInt8) : List UInt8 := bytes.take (lineLength bytes)

/-- The text behind the first line for which the buffer has room. -/
def extra (bytes : List UInt8) : List UInt8 :=
  (bytes.drop (lineLength bytes)).take (bufferSize (lineLength bytes)-1-lineLength bytes)

/-- Nothing that fits follows the first line, or the line is a seek command and
`sscanf` reads both fields from it, or does not even with what follows. -/
def OneRequest (bytes : List UInt8) : Prop :=
  extra bytes = [] ∨
  SEEK_COMMAND <+: firstLine bytes ∧
    ((sscanfSeek ((firstLine bytes).drop SEEK_COMMAND.length)).isSome ∨
      sscanfSeek ((firstLine bytes ++ extra bytes).drop SEEK_COMMAND.length) = none)

theorem lt_bufferSize (n : ℕ) : n < bufferSize n := by
  have hclog := Nat.le_pow_clog (show 1 < 2 by decide) (n+1)
  have hle : 2^Nat.clog 2 (n+1) ≤ bufferSize n :=
    Nat.pow_le_pow_right (by decide) (Nat.le_max_right _ _)
  omega

theorem clientBufferLen_le (n : ℕ) : clientBufferLen ≤ bufferSize n :=
  Nat.pow_le_pow_right (show 0 < 2 by decide) (Nat.le_max_left 10 _)

theorem firstLine_extra (bytes : List UInt8) :
    firstLine bytes ++ extra bytes = bytes.take (bufferSize (lineLength bytes)-1) := by
  have hlt := lt_bufferSize (lineLength bytes)
  rw [firstLine, extra, ← List.take_add]
  congr 1
  omega

theorem firstLine_eq {bytes : List UInt8} (h : newline ∈ bytes) :
    firstLine bytes = bytes.takeWhile (· != newline) ++ [newline] := by
  induction bytes with
  | nil => simp at h
  | cons b bytes ih =>
    by_cases hb : b = newline
    · simp [firstLine, lineLength, hb]
    · have hx := ih (by simpa [Ne.symm hb] using h)
      simpa [firstLine, lineLength, hb] using hx

theorem request_of_stream {σ r : List UInt8} (hpre : r <+: σ) (hn : newline ∈ r)
    (hlt : r.length < bufferSize (lineLength σ)) :
    ∃ t, r = firstLine σ ++ t ∧ t <+: extra σ := by
  obtain ⟨u, rfl⟩ := hpre
  have hle := lineLength_le hn
  rw [lineLength_append u hn] at hlt
  refine ⟨r.drop (lineLength r), ?_, ?_⟩
  · rw [firstLine, lineLength_append u hn, List.take_append_of_le_length hle,
      List.take_append_drop]
  · rw [extra, lineLength_append u hn, List.drop_append_of_le_length hle, List.take_append,
      List.take_of_length_le (by rw [List.length_drop]; omega)]
    exact List.prefix_append _ _

theorem seek_line {σ : List UInt8} (hn : newline ∈ σ) (hs : SEEK_COMMAND <+: firstLine σ) :
    ∃ z, firstLine σ = SEEK_COMMAND ++ (z ++ [newline]) := by
  rw [firstLine_eq hn] at hs ⊢
  rcases List.prefix_concat_iff.mp hs with hall | ⟨z, hz⟩
  · have hmem : newline ∈ SEEK_COMMAND := by
      rw [hall]
      simp
    exact absurd hmem (by decide)
  · exact ⟨z, by rw [← hz, List.append_assoc]⟩

theorem issued_append {σ t : List UInt8} (hn : newline ∈ σ) (h : OneRequest σ)
    (ht : t <+: extra σ) : issued (firstLine σ ++ t) = issued (firstLine σ) := by
  rcases h with hnil | ⟨hs, hscan⟩
  · rw [hnil, List.prefix_nil] at ht
    rw [ht, List.append_nil]
  · obtain ⟨z, hz⟩ := seek_line hn hs
    obtain ⟨u, hu⟩ := ht
    have hpre : SEEK_COMMAND.isPrefixOf (firstLine σ ++ t) = true :=
      List.isPrefixOf_iff_prefix.mpr (hs.trans (List.prefix_append _ _))
    rw [issued, issued, if_pos hpre, if_pos (List.isPrefixOf_iff_prefix.mpr hs)]
    rw [← hu] at hscan
    simp only [hz, List.append_assoc, List.drop_left] at hscan ⊢
    cases hline : sscanfSeek (z ++ [newline]) with
    | some seekto =>
      obtain ⟨seekto', hlong, hsame⟩ := sscanfSeek_append t hline
      rw [List.append_assoc] at hlong
      rw [hlong, hsame z rfl]
    | none =>
      cases hlong : sscanfSeek (z ++ ([newline] ++ t)) with
      | none => rfl
      | some seekto =>
        obtain ⟨seekto', hlonger, _⟩ := sscanfSeek_append u hlong
        simp only [List.append_assoc] at hlonger
        rw [hline, hlonger] at hscan
        rcases hscan with h | h <;> cases h

theorem issued_extra_ne {σ : List UInt8} (h : ¬ OneRequest σ) :
    issued (firstLine σ) ≠ issued (firstLine σ ++ extra σ) := by
  rw [OneRequest, not_or] at h
  obtain ⟨hne, hscan⟩ := h
  by_cases hs : SEEK_COMMAND <+: firstLine σ
  · rw [not_and] at hscan
    obtain ⟨hshort, hlong⟩ := not_or.mp (hscan hs)
    rw [Option.not_isSome_iff_eq_none] at hshort
    obtain ⟨seekto, hlong⟩ := Option.ne_none_iff_exists'.mp hlong
    have hlonger : issued (firstLine σ ++ extra σ) = .seek seekto :=
      (issued_seek_iff (hs.trans (List.prefix_append _ _)) seekto).mpr hlong
    intro heq
    rw [hlonger, issued_seek_iff hs, hshort] at heq
    cases heq
  · have hshort : issued (firstLine σ) = .write (firstLine σ) := by
      rw [issued, if_neg (mt List.isPrefixOf_iff_prefix.mp hs)]
    intro heq
    rw [hshort, issued] at heq
    split_ifs at heq
    · cases hscan : sscanfSeek ((firstLine σ ++ extra σ).drop SEEK_COMMAND.length) <;>
        rw [hscan] at heq <;> cases heq
    · exact hne (List.append_right_eq_self.mp (Issued.write.inj heq).symm)

section
variable {K : Kernel} {M : Libc}

theorem gathered_firstLine {heap : Heap UInt8} {env : RequestEnv} {r : List UInt8}
    (hr : gathered M heap env = some r) :
    ∃ t, r = firstLine (stream env.segments) ++ t ∧ t <+: extra (stream env.segments) := by
  have hbytes := gathered_bytes hr
  obtain ⟨hn, rest, hrest, hpre⟩ := gatherBytes_stream (by decide) hbytes
  rw [List.nil_append] at hrest
  have hlt := gatherBytes_bounded grown_start (by decide) (by simp) hbytes
  rw [hrest] at hn hlt ⊢
  rw [List.nil_append] at hlt
  exact request_of_stream hpre hn hlt

theorem received_some {segments : List Segment} (hn : newline ∈ stream segments)
    (hmax : bufferSize (lineLength (stream segments)) ≤ M.mallocMax) :
    ∃ r, gatherBytes M.mallocMax (receiveFuel segments) clientBufferLen [] segments = some r :=
  gatherBytes_some grown_start (by decide) (by simp) hn hmax (Nat.lt_succ_self _)

theorem gathered_singles {heap : Heap UInt8} {a : Addr} (ha : heap a = none) {σ : List UInt8}
    (hn : newline ∈ σ) (hmax : bufferSize (lineLength σ) ≤ M.mallocMax) :
    gathered M heap (inPlace a (singles σ)) = some (firstLine σ) := by
  obtain ⟨r, hr⟩ : ∃ r, gatherBytes M.mallocMax (receiveFuel (singles σ)) clientBufferLen []
      (singles σ) = some r := received_some (by rwa [stream_singles]) (by rwa [stream_singles])
  have hg := gathered_inPlace ha ((clientBufferLen_le _).trans hmax) hr
  obtain ⟨t, ht, _⟩ := gathered_firstLine hg
  have hshort := gatherBytes_singles σ (by decide) (by simp) hr
  rw [inPlace, stream_singles] at ht
  cases t using List.reverseRecOn with
  | nil => rw [hg, ht, List.append_nil]
  | append_singleton t b =>
    rw [ht, ← List.append_assoc, List.dropLast_concat, firstLine_eq hn] at hshort
    exact absurd (by simp) hshort

theorem gathered_whole {heap : Heap UInt8} {a : Addr} (ha : heap a = none) {σ : List UInt8}
    (hn : newline ∈ σ) (hmax : bufferSize (lineLength σ) ≤ M.mallocMax) :
    gathered M heap (inPlace a [.data σ]) = some (firstLine σ ++ extra σ) := by
  have hne : σ ≠ [] := List.ne_nil_of_mem hn
  have hstream : stream [.data σ] = σ := by simp [stream, hne]
  obtain ⟨r, hr⟩ : ∃ r, gatherBytes M.mallocMax (receiveFuel [.data σ]) clientBufferLen []
      [.data σ] = some r := received_some (by rwa [hstream]) (by rwa [hstream])
  rw [gathered_inPlace ha ((clientBufferLen_le _).trans hmax) hr,
    gatherBytes_whole grown_start (by decide) (by simp) hne hr, List.nil_append, firstLine_extra]

def Issued.record (log : LineLog.Log UInt8) : Issued → LineLog.Log UInt8
  | .write data => logWrite log data
  | .seek _ => log
  | .nothing => log

def Granted (K : Kernel) (s : DriverState) (fPos : ℤ) (env : RequestEnv) (request : List UInt8) :
    Prop :=
  ¬ SEEK_COMMAND <+: request → goesThrough K s (env.writeCall fPos request) = true

theorem sendRcv_records {srv : Server} (hd : WriteReachable K srv.driver)
    (hm : srv.mutexReadWrite = false) (fPos : ℤ) {env : RequestEnv} {r : List UInt8}
    (hr : gathered M srv.heap env = some r) (hg : Granted K srv.driver fPos env r) :
    ∃ srv' x, sendRcvSocketData K M srv fPos env = .ok (srv', x) ∧
      deviceLog srv'.driver = Issued.record (deviceLog srv.driver) (issued r) := by
  obtain ⟨blocks, part, h⟩ := hd.holds
  obtain ⟨_, _, hsend⟩ := sendRcv_some (K := K) M srv hm fPos env hr
  have hseek (hs : SEEK_COMMAND <+: r) (l : LineLog.Log UInt8) :
      Issued.record l (issued r) = l := by
    rw [issued, if_pos (List.isPrefixOf_iff_prefix.mpr hs)]
    cases sscanfSeek (r.drop SEEK_COMMAND.length) <;> rfl
  rcases dispatch_cases h srv.ioctlJustPerformed fPos r env with
    ⟨hc, ⟨hs, hno⟩ | ⟨hs, _⟩⟩ | ⟨hs, _, s', hc, _, hlog⟩ | ⟨seekto, hs, _, hc⟩
  · rw [hg hs] at hno
    cases hno
  · rw [hc] at hsend
    exact ⟨_, _, hsend, (hseek hs _).symm⟩
  · rw [hc] at hsend
    refine ⟨_, _, hsend, ?_⟩
    rw [issued, if_neg (mt List.isPrefixOf_iff_prefix.mp hs)]
    exact hlog
  · have hpre : SEEK_COMMAND <+: r := by
      by_contra hno
      rw [seekOf, if_neg hno] at hs
      cases hs
    rw [hc] at hsend
    exact ⟨_, _, hsend, (hseek hpre _).symm⟩

/-- Any two runs which receive the stream issue the same write or the same
seek, and leave the same content when the device grants the write. -/
def SameRequest (K : Kernel) (M : Libc) (srv : Server) (fPos : ℤ) (σ : List UInt8) : Prop :=
  ∀ env env' r r', stream env.segments = σ → stream env'.segments = σ →
    gathered M srv.heap env = some r → gathered M srv.heap env' = some r' →
      issued r = issued r' ∧
      (Granted K srv.driver fPos env r → Granted K srv.driver fPos env' r' →
        ∃ t x t' x', sendRcvSocketData K M srv fPos env = .ok (t, x) ∧
          sendRcvSocketData K M srv fPos env' = .ok (t', x') ∧
          deviceLog t.driver = deviceLog t'.driver)

/-- For every stream with a line end and every pair of its segmentations. The
buffer may grow to where the line ends, so a request is always gathered. -/
theorem same_request_iff {srv : Server} (hd : WriteReachable K srv.driver)
    (hm : srv.mutexReadWrite = false) (fPos : ℤ) {a : Addr} (ha : srv.heap a = none)
    {σ : List UInt8} (hn : newline ∈ σ) (hmax : bufferSize (lineLength σ) ≤ M.mallocMax) :
    SameRequest K M srv fPos σ ↔ OneRequest σ := by
  constructor
  · intro hsame
    by_contra hone
    have hne : σ ≠ [] := List.ne_nil_of_mem hn
    obtain ⟨heq, _⟩ := hsame _ _ _ _ (stream_singles σ) (by simp [inPlace, stream, hne])
      (gathered_singles ha hn hmax) (gathered_whole ha hn hmax)
    exact issued_extra_ne hone heq
  · intro hone env env' r r' hσ hσ' hr hr'
    have hline {env : RequestEnv} {r : List UInt8} (hσ : stream env.segments = σ)
        (hr : gathered M srv.heap env = some r) : issued r = issued (firstLine σ) := by
      obtain ⟨t, ht, hpre⟩ := gathered_firstLine hr
      rw [hσ] at ht hpre
      rw [ht, issued_append hn hone hpre]
    have heq : issued r = issued r' := (hline hσ hr).trans (hline hσ' hr').symm
    refine ⟨heq, fun hg hg' => ?_⟩
    obtain ⟨t, x, hsend, hlog⟩ := sendRcv_records hd hm fPos hr hg
    obtain ⟨t', x', hsend', hlog'⟩ := sendRcv_records hd hm fPos hr' hg'
    exact ⟨t, x, t', x', hsend, hsend', by rw [hlog, hlog', heq]⟩

end

def twoSegments : RequestEnv :=
  { callocAt := some 1, segments := [.data [97,98,10], .data [99,100]], kmallocAt := some 1 }

def oneSegment : RequestEnv :=
  { callocAt := some 1, segments := [.data [97,98,10,99,100]], kmallocAt := some 1 }

theorem cuts_change_request :
    stream twoSegments.segments = stream oneSegment.segments ∧
    newline ∈ stream oneSegment.segments ∧
    (sendRcvSocketData pageKernel pageLibc (idleServer aesdInitModule false) 0
      twoSegments).toOption.map (fun x => (commands x.1.driver, x.2.2)) =
        some ([[97,98,10]], 3) ∧
    (sendRcvSocketData pageKernel pageLibc (idleServer aesdInitModule false) 0
      oneSegment).toOption.map (fun x => (commands x.1.driver, x.2.2)) =
        some ([[97,98,10,99,100]], 5) := by
  refine ⟨by decide, by decide, by decide +kernel, by decide +kernel⟩

theorem same_request_single_line :
    SameRequest pageKernel pageLibc (idleServer aesdInitModule false) 0 [97,98,10] := by
  refine (same_request_iff (a := 1) (show WriteReachable pageKernel aesdInitModule from
    ⟨[], [], rfl⟩) rfl 0 rfl (by decide) ?_).mpr (.inl rfl)
  decide +kernel

end Aesd.ReceiveCuts
