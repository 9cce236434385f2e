import Aesd.DriverRead

/-!
# Reading the content of the device

A read from any position of a device which only writes have changed copies the
content from there, across the commands and the wrap of the ring. Reading on
until nothing comes delivers the same bytes whatever the sizes asked for.
-/

set_option autoImplicit false

namespace Aesd.ReadContent
open Aesd.KernelMemory Aesd.CharDriver Aesd.DriverInvariant Aesd.CommandLog Aesd.DriverRead
open BlockHeap

/-- Reads into the buffers in turn, from buffer `i` on, until one returns 0.
The result is what they delivered, `none` if a read fails or the fuel ends. -/
def readUntilZero (s : DriverState) (bufs : ℕ → List UInt8) :
    ℕ → ℕ → ℤ → Except Fault (Option (List UInt8))
  | 0, _, _ => .ok none
  | fuel+1, i, fPos => do
    let (s, r) ← aesdRead s { fPos, buf := bufs i, count := (bufs i).length }
    if r.retval < 0 then
      return none
    else if r.retval = 0 then
      return some []
    else do
      let rest ← readUntilZero s bufs fuel (i+1) r.fPos
      return rest.map (r.buf.take r.retval.toNat ++ ·)

section
variable {K : Kernel} {s : DriverState} {blocks : List Block} {part : Option Block}

theorem readUntilZero_spec (h : Holds K s blocks part) (bufs : ℕ → List UInt8)
    (hbufs : ∀ i, 0 < (bufs i).length ∧ (bufs i).length < 2^64) (fuel i p : ℕ)
    (hfuel : (content s).length-p < fuel) (hp : p < 2^63) :
    readUntilZero s bufs fuel i p = .ok (some ((content s).drop p)) := by
  have hlen := length_content_lt h
  induction fuel generalizing i p with
  | zero => omega
  | succ fuel ih =>
    obtain ⟨hpos, hlt⟩ := hbufs i
    have hread := aesdRead_delivers h { fPos := p, buf := bufs i, count := (bufs i).length }
      (by simp [readEnters, Nat.ne_of_gt hpos]) (by simpa using by omega) hlt (by simp) (by simp)
    simp only [Int.toNat_natCast] at hread
    rw [readUntilZero, hread]
    obtain ⟨n, hn⟩ : ∃ n, n = min (bufs i).length ((content s).length-p) := ⟨_, rfl⟩
    simp only [← hn, ok_bind]
    have hnn : ¬ (n:ℤ) < 0 := by omega
    rw [if_neg hnn]
    by_cases hend : (content s).length ≤ p
    · obtain rfl : n = 0 := by omega
      rw [List.drop_eq_nil_of_le hend]
      rfl
    · have hpiece : (((content s).drop p).take (bufs i).length).length = n := by
        rw [List.length_take, List.length_drop, hn]
      have hcut : ((content s).drop p).take (bufs i).length ++ (content s).drop (p+n) =
          (content s).drop p := by
        rw [← List.drop_drop, hn, ← List.length_drop, ← List.drop_eq_drop_min,
          List.take_append_drop]
      have hnext := ih (i+1) (p+n) (by omega) (by omega)
      rw [Int.natCast_add] at hnext
      rw [if_neg (by omega), hnext, ok_bind, Int.toNat_natCast, List.take_left' hpiece]
      simp [hcut]

end

/-- For `p = *f_pos`, the read copies the `min count (|S|-p)` bytes of the
content `S` which start there, and reads into any buffers deliver all of
`S[p..]` before one returns 0. The user's memory has room for these bytes, as
`copy_to_user` fails otherwise. -/
theorem read_copies_content {K : Kernel} {s : DriverState} (hs : WriteReachable K s)
    (c : ReadCall) (hnull : c.nullArg = false) (hpos : 0 ≤ c.fPos) (hpos' : c.fPos < 2^63)
    (hcount : 0 < c.count) (hcount' : c.count < 2^64) (hlock : c.interrupted = false)
    (hcopy : ∀ f ∈ c.copyFaults, f = none)
    (hroom : min c.count ((content s).length-c.fPos.toNat) ≤ c.buf.length) :
    aesdRead s c = .ok (s,
      ⟨(min c.count ((content s).length-c.fPos.toNat) : ℕ),
        c.fPos+(min c.count ((content s).length-c.fPos.toNat) : ℕ),
        ((content s).drop c.fPos.toNat).take c.count ++
          c.buf.drop (min c.count ((content s).length-c.fPos.toNat))⟩) ∧
    ∀ bufs : ℕ → List UInt8, (∀ i, 0 < (bufs i).length ∧ (bufs i).length < 2^64) →
      ∀ fuel > (content s).length-c.fPos.toNat,
        readUntilZero s bufs fuel 0 c.fPos = .ok (some ((content s).drop c.fPos.toNat)) := by
  obtain ⟨blocks, part, h⟩ := hs.holds
  have hg : readEnters c = true := by simp [readEnters, hnull, hpos, hlock, Nat.ne_of_gt hcount]
  refine ⟨aesdRead_delivers h c hg hpos' hcount' hcopy hroom, ?_⟩
  intro bufs hbufs fuel hfuel
  have hread := readUntilZero_spec h bufs hbufs fuel 0 c.fPos.toNat hfuel (by omega)
  rwa [Int.toNat_of_nonneg hpos] at hread

theorem read_copies_content_two_lines :
    aesdRead (afterWrites pageKernel twoLines) { fPos := 1, buf := [0,0,0,0,0], count := 4 } =
        .ok (afterWrites pageKernel twoLines, ⟨4, 5, [98,10,99,100,0]⟩) ∧
      readUntilZero (afterWrites pageKernel twoLines) (fun i => List.replicate (i%3+1) 0) 6 0 1 =
        .ok (some [98,10,99,100,10]) := by
  have hcontent : content (afterWrites pageKernel twoLines) = [97,98,10,99,100,10] := by decide
  have hread := read_copies_content (writeReachable_afterWrites pageKernel twoLines)
    { fPos := 1, buf := [0,0,0,0,0], count := 4 } rfl (by decide) (by decide) (by decide)
    (by decide) rfl (by simp) (by rw [hcontent]; decide)
  rw [hcontent] at hread
  refine ⟨hread.1, hread.2 _ (fun i => ?_) 6 (by decide)⟩
  rw [List.length_replicate]
  omega

end Aesd.ReadContent
