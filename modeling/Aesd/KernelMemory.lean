import Aesd.Lib.Allocator
import Mathlib.Algebra.GroupWithZero.Nat
import Mathlib.Data.Int.Notation

/-!
# The kernel allocator as the driver uses it

`kmalloc` leaves its block uninitialised; `krealloc` keeps the bytes which fit
and, when it fails, the old block. The error codes are those of the kernel.
-/

set_option autoImplicit false

namespace Aesd.KernelMemory
open BlockHeap Allocation

/-- The kernel the module is loaded into: `KMALLOC_MAX_SIZE`, the largest size
which `kmalloc` and `krealloc` grant, and what fresh memory happens to hold.
Every Linux configuration keeps `KMALLOC_MAX_SIZE` far below this bound. -/
structure Kernel where
  kmallocMax : ℕ
  poison : UInt8
  kmallocMax_small : 11*kmallocMax < 2^63

def EINVAL : ℤ := 22
def ENOMEM : ℤ := 12
def EFAULT : ℤ := 14
def ENOTTY : ℤ := 25
def ERESTARTSYS : ℤ := 512

def Kernel.allocator (K : Kernel) : Allocator := ⟨K.kmallocMax, K.poison⟩

def kmallocGrants (K : Kernel) (h : Heap UInt8) (size : ℕ) (at' : Option Addr) : Bool :=
  grants K.allocator h size at'

def kmalloc (K : Kernel) (h : Heap UInt8) (size : ℕ) (at' : Option Addr) :
    Option (Addr × Heap UInt8) :=
  place K.allocator h (fresh K.allocator size) at'

def kreallocGrants (K : Kernel) (h : Heap UInt8) (p : Addr) (size : ℕ) (at' : Option Addr) :
    Bool :=
  regrants K.allocator h p size at'

def krealloc (K : Kernel) (h : Heap UInt8) (p : Addr) (size : ℕ) (at' : Option Addr) :
    Except Fault (Option (Addr × Heap UInt8)) :=
  resize K.allocator h p size at'

theorem kmalloc_refused (K : Kernel) (h : Heap UInt8) (size : ℕ) (at' : Option Addr)
    (hg : kmallocGrants K h size at' = false) : kmalloc K h size at' = none :=
  place_refused _ _ _ _ (by simpa [kmallocGrants] using hg)

theorem kmalloc_granted (K : Kernel) (h : Heap UInt8) (size : ℕ) (at' : Option Addr)
    (hg : kmallocGrants K h size at' = true) :
    ∃ a, at' = some a ∧ h a = none ∧ size ≤ K.kmallocMax ∧
      kmalloc K h size at' = some (a, alloc h a (fresh K.allocator size)) := by
  have hplace := place_granted K.allocator h (fresh K.allocator size) at'
    (by simpa [kmallocGrants] using hg)
  rwa [length_fresh] at hplace

theorem krealloc_refused (K : Kernel) (h : Heap UInt8) {p : Addr} {old : List UInt8}
    (hp : h p = some old) (size : ℕ) (at' : Option Addr)
    (hg : kreallocGrants K h p size at' = false) : krealloc K h p size at' = .ok none :=
  resize_refused K.allocator h hp size at' hg

theorem krealloc_granted (K : Kernel) (h : Heap UInt8) {p : Addr} {old : List UInt8}
    (hp : h p = some old) (size : ℕ) (at' : Option Addr)
    (hg : kreallocGrants K h p size at' = true) :
    ∃ a, at' = some a ∧ (a = p ∨ h a = none) ∧ size ≤ K.kmallocMax ∧
      krealloc K h p size at' = .ok (some (a,
        alloc (erase h p) a (old.take size ++ fresh K.allocator (size-old.length)))) :=
  resize_granted K.allocator h hp size at' hg

end Aesd.KernelMemory
