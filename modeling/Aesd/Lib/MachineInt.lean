import Mathlib.Algebra.BigOperators.Group.List.Basic
import Mathlib.Algebra.GroupWithZero.Nat
import Mathlib.Data.Int.Notation

/-!
# Fixed-width machine integers

Unsigned and two's complement values are kept as `ℕ` and `ℤ`; every operation
which a machine performs in a fixed width wraps explicitly. Each wrap is the
identity on the values which fit.
-/

set_option autoImplicit false

namespace MachineInt

def wrapU64 (n : ℕ) : ℕ := n % 2^64

def subU64 (a b : ℕ) : ℕ := wrapU64 (a+(2^64-wrapU64 b))

def wrapS64 (z : ℤ) : ℤ := z.bmod (2^64)

def wrapS32 (z : ℤ) : ℤ := z.bmod (2^32)

def toU64 (z : ℤ) : ℕ := (z % 2^64).toNat

@[simp] theorem wrapU64_of_lt {n : ℕ} (h : n < 2^64) : wrapU64 n = n := Nat.mod_eq_of_lt h

theorem subU64_of_le {a b : ℕ} (hb : b ≤ a) (ha : a < 2^64) : subU64 a b = a-b := by
  simp only [subU64, wrapU64] at *
  omega

theorem wrapS64_of_mem {z : ℤ} (hl : -2^63 ≤ z) (hu : z < 2^63) : wrapS64 z = z := by
  simp only [wrapS64, Int.bmod_def]
  omega

theorem wrapS32_of_mem {z : ℤ} (hl : -2^31 ≤ z) (hu : z < 2^31) : wrapS32 z = z := by
  simp only [wrapS32, Int.bmod_def]
  omega

theorem wrapS64_overflow {z : ℤ} (hl : 2^63 ≤ z) (hu : z < 2^64) : wrapS64 z < 0 := by
  simp only [wrapS64, Int.bmod_def]
  omega

theorem wrapS64_natCast {n : ℕ} (h : n < 2^63) : wrapS64 (n:ℤ) = n :=
  wrapS64_of_mem (by omega) (by omega)

/-- A running sum which stays in range never wraps. -/
theorem foldl_wrapS64 (ns : List ℕ) (a : ℕ) (h : a+ns.sum < 2^63) :
    ns.foldl (fun (total : ℤ) (n : ℕ) => wrapS64 (total+n)) (a:ℤ) = (a+ns.sum : ℕ) := by
  induction ns generalizing a with
  | nil => rfl
  | cons n ns ih =>
    rw [List.sum_cons, ← Nat.add_assoc] at h
    rw [List.foldl_cons, ← Int.natCast_add, wrapS64_natCast (by omega), ih _ h, List.sum_cons,
      Nat.add_assoc]

theorem wrapS32_natCast {n : ℕ} (h : n < 2^31) : wrapS32 (n:ℤ) = n :=
  wrapS32_of_mem (by omega) (by omega)

theorem toU64_of_nonneg {z : ℤ} (h0 : 0 ≤ z) (h : z < 2^64) : toU64 z = z.toNat := by
  rw [toU64, Int.emod_eq_of_lt h0 h]

theorem toU64_natCast {n : ℕ} (h : n < 2^64) : toU64 (n:ℤ) = n := by
  rw [toU64_of_nonneg (by omega) (by omega), Int.toNat_natCast]

end MachineInt
