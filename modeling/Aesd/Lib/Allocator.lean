import Aesd.Lib.BlockHeap
import Mathlib.Data.Nat.Notation

/-!
# An allocator on a heap of blocks

Which address an allocation gets, and whether it is granted at all, is an
input of each call: `none` lets it fail. A placement which an allocator could
not have chosen, in a live block or beyond its largest size, fails as well,
so every input describes some behaviour of the allocator.
-/

set_option autoImplicit false

namespace Allocation
open BlockHeap

structure Allocator where
  largest : ℕ
  poison : UInt8

def fresh (A : Allocator) (size : ℕ) : List UInt8 := List.replicate size A.poison

@[simp] theorem length_fresh (A : Allocator) (size : ℕ) : (fresh A size).length = size := by
  simp [fresh]

def grants (A : Allocator) (h : Heap UInt8) (size : ℕ) : Option Addr → Bool
  | none => false
  | some a => size ≤ A.largest && (h a).isNone

def place (A : Allocator) (h : Heap UInt8) (bytes : List UInt8) (at' : Option Addr) :
    Option (Addr × Heap UInt8) :=
  match at' with
  | none => none
  | some a => if grants A h bytes.length (some a) then some (a, alloc h a bytes) else none

def regrants (A : Allocator) (h : Heap UInt8) (p : Addr) (size : ℕ) : Option Addr → Bool
  | none => false
  | some a => size ≤ A.largest && (a == p || (h a).isNone)

/-- The old block is released only when the new one is granted. -/
def resize (A : Allocator) (h : Heap UInt8) (p : Addr) (size : ℕ) (at' : Option Addr) :
    Except Fault (Option (Addr × Heap UInt8)) :=
  match h p with
  | none => .error (.invalidFree p)
  | some old =>
    match at' with
    | none => .ok none
    | some a =>
      if regrants A h p size (some a) then
        .ok (some (a, alloc (erase h p) a (old.take size ++ fresh A (size-old.length))))
      else .ok none

theorem place_refused (A : Allocator) (h : Heap UInt8) (bytes : List UInt8) (at' : Option Addr)
    (hg : grants A h bytes.length at' = false) : place A h bytes at' = none := by
  cases at' <;> simp [place, hg]

theorem place_granted (A : Allocator) (h : Heap UInt8) (bytes : List UInt8) (at' : Option Addr)
    (hg : grants A h bytes.length at' = true) :
    ∃ a, at' = some a ∧ h a = none ∧ bytes.length ≤ A.largest ∧
      place A h bytes at' = some (a, alloc h a bytes) := by
  cases at' with
  | none => simp [grants] at hg
  | some a =>
    have hb : bytes.length ≤ A.largest ∧ h a = none := by simpa [grants] using hg
    exact ⟨a, rfl, hb.2, hb.1, by simp [place, hg]⟩

theorem resize_refused (A : Allocator) (h : Heap UInt8) {p : Addr} {old : List UInt8}
    (hp : h p = some old) (size : ℕ) (at' : Option Addr)
    (hg : regrants A h p size at' = false) : resize A h p size at' = .ok none := by
  cases at' <;> simp [resize, hp, hg]

theorem resize_granted (A : Allocator) (h : Heap UInt8) {p : Addr} {old : List UInt8}
    (hp : h p = some old) (size : ℕ) (at' : Option Addr)
    (hg : regrants A h p size at' = true) :
    ∃ a, at' = some a ∧ (a = p ∨ h a = none) ∧ size ≤ A.largest ∧
      resize A h p size at' =
        .ok (some (a, alloc (erase h p) a (old.take size ++ fresh A (size-old.length)))) := by
  cases at' with
  | none => simp [regrants] at hg
  | some a =>
    have hb : size ≤ A.largest ∧ (a = p ∨ h a = none) := by
      simpa [regrants] using hg
    exact ⟨a, rfl, hb.2, hb.1, by simp [resize, hp, hg]⟩

end Allocation
