import Aesd.DriverRead

/-!
# What is left behind by a read which fails

A call makes one copy for each command it reaches and moves `*f_pos` after each
of them. It undoes nothing when a later copy fails, so the outcome depends on
which copy is the first to fail.
-/

set_option autoImplicit false

namespace Aesd.ReadFailures
open Segments
open Aesd.CircularBuffer Aesd.KernelMemory Aesd.CharDriver Aesd.DriverInvariant
open Aesd.DriverWrite Aesd.CommandLog Aesd.DriverRead

def copies (s : DriverState) (c : ReadCall) : List ℕ :=
  pieces ((commands s).map List.length) c.fPos.toNat c.count

def copyFails (s : DriverState) (c : ReadCall) (i : ℕ) : Prop :=
  pieceFails c.buf.length c.copyFaults 0 (copies s c) i

def Skips (s : DriverState) (c : ReadCall) : Prop :=
  readEnters c = true ∧ ¬ copyFails s c 0 ∧ ∃ i < (copies s c).length, copyFails s c i

/-- What a caller relies on. A failed read leaves the device and `*f_pos` as
they were; another one moves `*f_pos` by the number it returns and puts as many
bytes of the content at the front of the user's memory. -/
structure Kept (s : DriverState) (c : ReadCall) (s' : DriverState) (r : ReadResult) : Prop where
  failed : r.retval < 0 → s' = s ∧ r.fPos = c.fPos
  delivered : ∀ n : ℕ, r.retval = n → r.fPos = c.fPos+n ∧ n ≤ c.buf.length ∧
    (((content s).drop c.fPos.toNat).take n).length = n ∧
    r.buf = ((content s).drop c.fPos.toNat).take n ++ c.buf.drop n

instance (s : DriverState) (c : ReadCall) (i : ℕ) : Decidable (copyFails s c i) := by
  unfold copyFails
  infer_instance

instance (s : DriverState) (c : ReadCall) : Decidable (Skips s c) := by
  unfold Skips
  infer_instance

theorem length_le_of_overwrite {b bytes b' : List UInt8} (h : b' = BlockHeap.overwrite b 0 bytes)
    (hlen : b'.length = b.length) : bytes.length ≤ b.length := by
  rw [h, BlockHeap.overwrite] at hlen
  simp only [List.take_zero, List.nil_append, List.length_append, List.length_drop] at hlen
  omega

theorem kept_done {s : DriverState} {c : ReadCall} {count n : ℕ} {buf : List UInt8}
    (h : Delivered (content s) c.fPos.toNat count c.buf 0 n buf true) :
    Kept s c s ⟨n, c.fPos+n, buf⟩ := by
  obtain ⟨hn, hbuf⟩ := h.all rfl
  have hlen : (((content s).drop c.fPos.toNat).take n).length = n := by
    rw [List.length_take, List.length_drop]
    omega
  have hroom := length_le_of_overwrite hbuf h.length
  rw [hlen] at hroom
  refine ⟨fun hneg => ?_, fun m hm => ?_⟩
  · dsimp only at hneg
    omega
  · obtain rfl : n = m := Int.ofNat.inj hm
    refine ⟨rfl, hroom, hlen, ?_⟩
    simp [hbuf, BlockHeap.overwrite, hlen]

theorem kept_iff (s : DriverState) (c : ReadCall) :
    Kept s c s (readReply (commands s) c) ↔ ¬ Skips s c := by
  cases hg : readEnters c with
  | false =>
    obtain ⟨r, hr, hreply⟩ := readReply_not_entered (commands s) c hg
    rw [hreply]
    refine iff_of_true ⟨fun _ => ⟨rfl, rfl⟩, fun n hn => ?_⟩ (by simp [Skips, hg])
    dsimp only at hn
    omega
  | true =>
    have hsum : (copies s c).sum = min c.count ((content s).length-c.fPos.toNat) := pieces_le _ _ _
    obtain ⟨hdel, hdone⟩ := copyPieces_spec (content s) (copies s c) c.copyFaults c.fPos.toNat
      c.buf 0 (by omega)
    have hzero : (copyPieces (content s) (copies s c) c.copyFaults c.fPos.toNat c.buf 0).done =
        false → _ :=
      copied_zero_iff (by omega) fun m (hm : m ∈ copies s c) => pieces_pos hm
    have hreply : readReply (commands s) c =
        let x := copyPieces (content s) (copies s c) c.copyFaults c.fPos.toNat c.buf 0
        ⟨if x.done then x.copied else -EFAULT, c.fPos+x.copied, x.buf⟩ := readReply_entered _ c hg
    rw [hreply]
    generalize copyPieces (content s) (copies s c) c.copyFaults c.fPos.toNat c.buf 0 = x at *
    cases hd : x.done with
    | true =>
      rw [hd] at hdel
      refine iff_of_true (by simpa [hd] using kept_done hdel) ?_
      rintro ⟨_, _, i, hi, hfails⟩
      exact hdone.mp hd i hi hfails
    | false =>
      have hsome : ∃ i < (copies s c).length, copyFails s c i := by
        by_contra hno
        rw [hdone.mpr fun i hi hf => hno ⟨i, hi, hf⟩] at hd
        cases hd
      constructor
      · rintro hkept ⟨_, hfirst, _⟩
        have hpos := (hkept.failed (by simp [hd, EFAULT])).2
        dsimp only at hpos
        exact hfirst ((hzero hd).mp (by omega))
      · intro hno
        have hfirst : copyFails s c 0 := by
          by_contra hfirst
          exact hno ⟨hg, hfirst, hsome⟩
        have hz := (hzero hd).mpr hfirst
        refine ⟨fun _ => ⟨rfl, by simp [hz]⟩, fun n hn => ?_⟩
        simp only [hd, Bool.false_eq_true, if_false, EFAULT] at hn
        omega

theorem not_skips {s : DriverState} {c : ReadCall} (hfaults : ∀ f ∈ c.copyFaults, f = none)
    (hroom : c.count ≤ c.buf.length) : ¬ Skips s c := by
  have hsum : (copies s c).sum = min c.count ((content s).length-c.fPos.toNat) := pieces_le _ _ _
  rintro ⟨_, _, i, _, hfails⟩
  exact not_pieceFails hfaults (by omega) i hfails

/-- For every call, a read leaves what its caller relies on exactly if it does
not fail in a copy behind the first one. The comment of the source returns
success once any data was read, but the failing copy jumps past that return. -/
theorem read_kept_iff {K : Kernel} {s : DriverState} (hs : WriteReachable K s) (c : ReadCall)
    (hpos : c.fPos < 2^63) (hcount : c.count < 2^64) :
    ∃ s' r, aesdRead s c = .ok (s', r) ∧ (Kept s c s' r ↔ ¬ Skips s c) := by
  obtain ⟨blocks, part, h⟩ := hs.holds
  exact ⟨s, _, aesdRead_eq h c hpos hcount, kept_iff s c⟩

theorem read_kept_first_copy_faults :
    ∃ s' r, aesdRead (afterWrites pageKernel twoLines)
        { fPos := 3, buf := [0,0,0], count := 3, copyFaults := [some 1] } = .ok (s', r) ∧
      Kept (afterWrites pageKernel twoLines)
        { fPos := 3, buf := [0,0,0], count := 3, copyFaults := [some 1] } s' r := by
  obtain ⟨s', r, hread, hkept⟩ := read_kept_iff (writeReachable_afterWrites pageKernel twoLines)
    { fPos := 3, buf := [0,0,0], count := 3, copyFaults := [some 1] } (by decide) (by decide)
  exact ⟨s', r, hread, hkept.mpr (by decide)⟩

/-- Six bytes are asked for and the memory ends after three: the first line is
copied, the copy of the second one fails, and `*f_pos` stays behind the first. -/
theorem failed_read_moves_position :
    ∃ s' r, aesdRead (afterWrites pageKernel twoLines) { fPos := 0, buf := [0,0,0], count := 6 } =
        .ok (s', r) ∧ r.retval = -EFAULT ∧ r.fPos = 3 := by
  obtain ⟨blocks, part, h⟩ := (writeRun_afterWrites pageKernel twoLines).2
  exact ⟨_, _, aesdRead_eq h { fPos := 0, buf := [0,0,0], count := 6 } (by decide) (by decide),
    by decide, by decide⟩

end Aesd.ReadFailures
