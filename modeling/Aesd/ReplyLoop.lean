import Aesd.SocketServer
import Aesd.DriverRead

/-!
# What a client is sent

The loop of `return_socketdata_to_client` offers each piece it has read to one
`send` and then reads on, whatever the `send` did. The bytes which a short or
an interrupted `send` did not take are gone, and a failing `read` ends the loop
like the end of the content does.
-/

set_option autoImplicit false

namespace Aesd.ReplyLoop
open BlockHeap Allocation MachineInt
open Aesd.KernelMemory Aesd.CharDriver Aesd.DriverInvariant Aesd.DriverWrite
open Aesd.CommandLog Aesd.DriverRead Aesd.SocketServer

def readSucceeds (reads : List ReadOutcome) (i : ℕ) : Prop :=
  reads[i]?.getD .undisturbed = .undisturbed

def takesWhole (sends : List SendOutcome) (i len : ℕ) : Prop :=
  match sends[i]? with
  | none => True
  | some (.accepts count) => len ≤ count
  | some _ => False

def WholeReply (len : ℕ) (reads : List ReadOutcome) (sends : List SendOutcome) : Prop :=
  ∀ i, clientBufferLen*i < len →
    readSucceeds reads i ∧ takesWhole sends i (min clientBufferLen (len-clientBufferLen*i))

/-- The `send` of some piece fails, not with `EINTR`, before any `read` does. -/
def FailedSend (len : ℕ) (reads : List ReadOutcome) (sends : List SendOutcome) : Prop :=
  ∃ j, clientBufferLen*j < len ∧ (∀ i ≤ j, readSucceeds reads i) ∧ sends[j]? = some .fails

theorem wholeReply_undisturbed (len : ℕ) : WholeReply len [] [] := by
  intro i _
  simp [readSucceeds, takesWhole]

theorem wholeReply_cons {len : ℕ} (h : 0 < len) (reads : List ReadOutcome)
    (sends : List SendOutcome) :
    WholeReply len reads sends ↔ readSucceeds reads 0 ∧
      takesWhole sends 0 (min clientBufferLen len) ∧
      WholeReply (len-clientBufferLen) reads.tail sends.tail := by
  have hshift (i : ℕ) : len-1024*(i+1) = len-1024-1024*i := by omega
  simp only [WholeReply, clientBufferLen]
  constructor
  · intro hw
    refine ⟨(hw 0 (by omega)).1, by simpa using (hw 0 (by omega)).2, ?_⟩
    intro i hi
    have hwi := hw (i+1) (by omega)
    rw [hshift] at hwi
    simpa [readSucceeds, takesWhole] using hwi
  · rintro ⟨hr, ht, hw⟩ i hi
    cases i with
    | zero => exact ⟨hr, by simpa using ht⟩
    | succ i =>
      have hwi := hw i (by omega)
      rw [hshift]
      simpa [readSucceeds, takesWhole] using hwi

theorem failedSend_cons {len : ℕ} (h : 0 < len) (reads : List ReadOutcome)
    (sends : List SendOutcome) :
    FailedSend len reads sends ↔ readSucceeds reads 0 ∧
      (sends[0]? = some .fails ∨ FailedSend (len-clientBufferLen) reads.tail sends.tail) := by
  simp only [FailedSend, clientBufferLen]
  constructor
  · rintro ⟨j, hj, hr, hs⟩
    refine ⟨hr 0 (Nat.zero_le _), ?_⟩
    cases j with
    | zero => exact .inl hs
    | succ j =>
      refine .inr ⟨j, by omega, fun i hi => ?_, by simpa using hs⟩
      simpa [readSucceeds] using hr (i+1) (by omega)
  · rintro ⟨hr, hs | ⟨j, hj, hr', hs⟩⟩
    · exact ⟨0, by simpa using h, fun i hi => by rwa [Nat.le_zero.mp hi], hs⟩
    · refine ⟨j+1, by omega, fun i hi => ?_, by simpa using hs⟩
      cases i with
      | zero => exact hr
      | succ i => simpa [readSucceeds] using hr' i (by omega)

theorem wholeReply_nothing (reads : List ReadOutcome) (sends : List SendOutcome) :
    WholeReply 0 reads sends := by
  intro i hi
  omega

theorem first_send (sends : List SendOutcome) (len : ℕ) :
    (takesWhole sends 0 len ↔
      ∃ count, sends.headD (.accepts len) = .accepts count ∧ len ≤ count) ∧
    (sends[0]? = some .fails ↔ sends.headD (.accepts len) = .fails) := by
  cases sends with
  | nil => simp [takesWhole]
  | cons o sends => cases o <;> simp [takesWhole]

section
variable {K : Kernel} {s : DriverState} {blocks : List Block} {part : Option Block}

theorem read_ends (h : Holds K s blocks part) (o : ReadOutcome) (p : ℕ) (buf : List UInt8)
    (hp : p < 2^63) (he : (content s).length ≤ p ∨ o ≠ .undisturbed) :
    ∃ r, aesdRead s (o.call p buf) = .ok (s, r) ∧ r.retval ≤ 0 := by
  cases hg : readEnters (o.call p buf) with
  | false =>
    obtain ⟨r, hr, hread⟩ := aesdRead_not_entered s _ hg
    exact ⟨_, hread, hr.le⟩
  | true =>
    have hpos : (o.call p buf).fPos < 2^63 := by
      change (p:ℤ) < 2^63
      omega
    obtain ⟨n, buf', done, hread, hdel, hfault, _⟩ := aesdRead_entered h _ hg hpos (by
      change 1024 < 2^64
      decide)
    refine ⟨_, hread, ?_⟩
    cases done with
    | false =>
      change -EFAULT ≤ 0
      decide
    | true =>
      have hn := (hdel.all rfl).1
      change (n:ℤ) ≤ 0
      rcases he with he | he
      · simp only [ReadOutcome.call, Int.toNat_natCast] at hn
        omega
      · cases o with
        | undisturbed => exact absurd rfl he
        | interrupted => simp [readEnters, ReadOutcome.call] at hg
        | copyFaults =>
          rcases hfault rfl with hf | hz
          · simp [ReadOutcome.call] at hf
          · omega

theorem piece_append (bytes : List UInt8) (p : ℕ) :
    (bytes.drop p).take clientBufferLen ++
      bytes.drop (p+min clientBufferLen (bytes.length-p)) = bytes.drop p := by
  rw [← List.drop_drop, ← List.length_drop, ← List.drop_eq_drop_min, List.take_append_drop]

theorem read_piece (h : Holds K s blocks part) (p : ℕ) (buf : List UInt8) (hp : p < 2^63)
    (hbuf : buf.length = clientBufferLen) :
    ∃ n bytes buf', n = min 1024 ((content s).length-p) ∧ bytes.length = n ∧
      buf'.take n = bytes ∧ buf'.length = clientBufferLen ∧
      bytes ++ (content s).drop (p+n) = (content s).drop p ∧
      aesdRead s (ReadOutcome.undisturbed.call p buf) = .ok (s, ⟨(n : ℕ), (p+n : ℕ), buf'⟩) := by
  have hread := aesdRead_delivers h (ReadOutcome.undisturbed.call p buf)
    (by simp [readEnters, ReadOutcome.call]) (by simp only [ReadOutcome.call]; omega)
    (show 1024 < 2^64 by decide) (by simp [ReadOutcome.call])
    (by rw [ReadOutcome.call, hbuf]; exact min_le_left _ _)
  have happ := piece_append (content s) p
  obtain ⟨n, hn⟩ : ∃ n, n = min clientBufferLen ((content s).length-p) := ⟨_, rfl⟩
  obtain ⟨bytes, hbytes⟩ : ∃ bytes, bytes = ((content s).drop p).take clientBufferLen := ⟨_, rfl⟩
  have hblen : bytes.length = n := by rw [hbytes, List.length_take, List.length_drop, hn]
  simp only [ReadOutcome.call, Int.toNat_natCast] at hread
  rw [← hn, ← hbytes] at hread happ
  refine ⟨n, bytes, bytes ++ buf.drop n, hn, hblen, List.take_left' hblen, ?_, happ, hread⟩
  have hle : n ≤ clientBufferLen := by
    rw [hn]
    exact min_le_left _ _
  rw [List.length_append, List.length_drop, hblen, hbuf]
  omega

def taken (bytes : List UInt8) : SendOutcome → List UInt8
  | .accepts count => bytes.take count
  | .interrupted => []
  | .fails => []

theorem length_taken_le (bytes : List UInt8) (o : SendOutcome) :
    (taken bytes o).length ≤ bytes.length := by
  cases o <;> simp [taken]

theorem taken_append_eq {bytes sent rest : List UInt8} (o : SendOutcome)
    (hpos : 0 < bytes.length) (hle : sent.length ≤ rest.length) :
    taken bytes o ++ sent = bytes ++ rest ↔
      (∃ count, o = .accepts count ∧ bytes.length ≤ count) ∧ sent = rest := by
  constructor
  · intro heq
    have hl := congrArg List.length heq
    rw [List.length_append, List.length_append] at hl
    cases o with
    | accepts count =>
      rw [taken, List.length_take] at hl
      have hcount : bytes.length ≤ count := by omega
      rw [taken, List.take_of_length_le hcount] at heq
      exact ⟨⟨count, rfl, hcount⟩, List.append_cancel_left heq⟩
    | interrupted | fails =>
      rw [taken, List.length_nil] at hl
      omega
  · rintro ⟨⟨count, rfl, hcount⟩, rfl⟩
    rw [taken, List.take_of_length_le hcount]

section
variable {fuel p n : ℕ} {buf buf' bytes : List UInt8} {reads : List ReadOutcome}
  {sends : List SendOutcome}

theorem replyLoop_piece (hhead : reads.headD .undisturbed = .undisturbed) (hn : 0 < n)
    (hread : aesdRead s (ReadOutcome.undisturbed.call p buf) =
      .ok (s, ⟨(n : ℕ), (p+n : ℕ), buf'⟩))
    (htake : buf'.take n = bytes) {fPos retval : ℤ} {sent : List UInt8}
    (hloop : replyLoop s fuel (p+n : ℕ) buf' reads.tail sends.tail = .ok ⟨s, fPos, sent, retval⟩)
    (ho : sends.headD (.accepts bytes.length) ≠ .fails) :
    replyLoop s (fuel+1) p buf reads sends =
      .ok ⟨s, fPos, taken bytes (sends.headD (.accepts bytes.length)) ++ sent, retval⟩ := by
  have hneg : ¬ (n:ℤ) ≤ 0 := by omega
  simp only [replyLoop, hhead, hread, ok_bind, if_neg hneg, Int.toNat_natCast, htake]
  cases hs : sends.headD (.accepts bytes.length) with
  | accepts count =>
    rw [hloop]
    rfl
  | interrupted => exact hloop
  | fails => exact absurd hs ho

theorem replyLoop_fails (hhead : reads.headD .undisturbed = .undisturbed) (hn : 0 < n)
    (hread : aesdRead s (ReadOutcome.undisturbed.call p buf) =
      .ok (s, ⟨(n : ℕ), (p+n : ℕ), buf'⟩))
    (htake : buf'.take n = bytes) (ho : sends.headD (.accepts bytes.length) = .fails) :
    replyLoop s (fuel+1) p buf reads sends = .ok ⟨s, (p+n : ℕ), [], -1⟩ := by
  have hneg : ¬ (n:ℤ) ≤ 0 := by omega
  simp only [replyLoop, hhead, hread, ok_bind, if_neg hneg, Int.toNat_natCast, htake, ho]
  rfl

end

theorem replyLoop_ends (h : Holds K s blocks part) (fuel p : ℕ) (buf : List UInt8)
    (reads : List ReadOutcome) (sends : List SendOutcome) (hp : p < 2^63)
    (hread : ¬ (p < (content s).length ∧ readSucceeds reads 0)) :
    ∃ fPos, replyLoop s (fuel+1) p buf reads sends = .ok ⟨s, fPos, [], 0⟩ := by
  have hends : (content s).length ≤ p ∨ reads.headD .undisturbed ≠ .undisturbed := by
    by_cases hin : p < (content s).length
    · right
      intro hr
      apply hread
      cases reads <;> simp_all [readSucceeds]
    · exact .inl (by omega)
  obtain ⟨r, hr, hle⟩ := read_ends h (reads.headD .undisturbed) p buf hp hends
  refine ⟨r.fPos, ?_⟩
  rw [replyLoop, hr, ok_bind]
  simp [hle]

/-- The loop from any position. It returns -1 exactly after a failing `send`,
and otherwise nothing is missing exactly when every piece was read and taken. -/
theorem replyLoop_spec (h : Holds K s blocks part) (fuel p : ℕ) (buf : List UInt8)
    (reads : List ReadOutcome) (sends : List SendOutcome)
    (hfuel : (content s).length-p < fuel) (hp : p < 2^63) (hbuf : buf.length = clientBufferLen) :
    ∃ fPos sent retval, replyLoop s fuel p buf reads sends = .ok ⟨s, fPos, sent, retval⟩ ∧
      sent.length ≤ (content s).length-p ∧
      (retval = -1 ∧ FailedSend ((content s).length-p) reads sends ∨
        retval = 0 ∧ ¬ FailedSend ((content s).length-p) reads sends ∧
        (sent = (content s).drop p ↔ WholeReply ((content s).length-p) reads sends)) := by
  have hlen := length_content_lt h
  induction fuel generalizing p buf reads sends with
  | zero => omega
  | succ fuel ih =>
    by_cases hread : p < (content s).length ∧ readSucceeds reads 0
    · obtain ⟨hin, hr0⟩ := hread
      have hpos : 0 < (content s).length-p := by omega
      have hhead : reads.headD .undisturbed = .undisturbed := by
        cases reads <;> simp_all [readSucceeds]
      obtain ⟨n, bytes, buf', hn, hblen, htake, hbuf', happ, hpiece⟩ := read_piece h p buf hp hbuf
      have hnpos : 0 < n := by omega
      have hrest : (content s).length-(p+n) = (content s).length-p-1024 := by omega
      have htotal : (content s).length-p = bytes.length+((content s).length-(p+n)) := by omega
      obtain ⟨fPos, sent, retval, hloop, hsent, hres⟩ := ih (p+n) buf' reads.tail sends.tail
        (by omega) (by omega) hbuf'
      rw [hrest] at hres
      obtain ⟨hwholeFirst, hfailFirst⟩ := first_send sends bytes.length
      have hfailed := failedSend_cons hpos reads sends
      have hwhole := wholeReply_cons hpos reads sends
      have hn' : min clientBufferLen ((content s).length-p) = bytes.length := (hblen.trans hn).symm
      rw [hn', hwholeFirst] at hwhole
      rw [hfailFirst] at hfailed
      by_cases ho : sends.headD (.accepts bytes.length) = .fails
      · exact ⟨_, [], -1, replyLoop_fails hhead hnpos hpiece htake ho, Nat.zero_le _,
          .inl ⟨rfl, hfailed.mpr ⟨hr0, .inl ho⟩⟩⟩
      have hle := length_taken_le bytes (sends.headD (.accepts bytes.length))
      refine ⟨fPos, _, retval, replyLoop_piece hhead hnpos hpiece htake hloop ho, ?_, ?_⟩
      · rw [List.length_append, htotal]
        exact Nat.add_le_add hle hsent
      rcases hres with ⟨hret, hf⟩ | ⟨hret, hf, hiff⟩
      · exact .inl ⟨hret, hfailed.mpr ⟨hr0, .inr hf⟩⟩
      · have hdrop : sent.length ≤ ((content s).drop (p+n)).length := by rwa [List.length_drop]
        refine .inr ⟨hret, fun hfails => ?_, ?_⟩
        · exact (hfailed.mp hfails).2.elim ho hf
        · rw [hwhole, ← hiff, ← happ, taken_append_eq _ (hblen ▸ hnpos) hdrop]
          exact (and_iff_right hr0).symm
    · obtain ⟨fPos, hloop⟩ := replyLoop_ends h fuel p buf reads sends hp hread
      refine ⟨fPos, [], 0, hloop, Nat.zero_le _, .inr ⟨rfl, ?_, ?_⟩⟩
      · rintro ⟨j, hj, hrj, _⟩
        exact hread ⟨by omega, hrj 0 (Nat.zero_le _)⟩
      · constructor
        · intro hnil
          have hz : (content s).length-p = 0 := by rw [← List.length_drop, ← hnil]; rfl
          rw [hz]
          exact wholeReply_nothing _ _
        · intro hw
          by_cases hin : p < (content s).length
          · exact absurd ⟨hin, (hw 0 (by omega)).1⟩ hread
          · exact (List.drop_eq_nil_of_le (by omega)).symm

end

end Aesd.ReplyLoop
