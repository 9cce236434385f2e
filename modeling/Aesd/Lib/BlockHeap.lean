import Mathlib.Logic.Function.Basic
import Mathlib.Data.Nat.Notation
import Mathlib.Data.Set.Defs

/-!
# Block heaps with faults

A heap maps the address of each live allocation to its contents. Every access
names the allocation it addresses, and an access which C leaves undefined is
an explicit fault: freeing what is not live, or a range outside its block.
A program which is shown to return has therefore made no such access.
-/

set_option autoImplicit false

namespace BlockHeap

abbrev Addr := ℕ

/-- What stops a sequential C program: an undefined memory access, a misuse of
a lock by its only thread, or a loop which has not ended within its fuel. -/
inductive Fault where
  | invalidFree (a : Addr)
  | outOfBounds (a : Addr) (off len : ℕ)
  | relock
  | unlockNotHeld
  | outOfFuel
  deriving DecidableEq, Repr

abbrev Heap (β : Type*) := Addr → Option (List β)

section
universe u
variable {ε : Type*} {α γ : Type u}

@[simp] theorem ok_bind (a : α) (f : α → Except ε γ) : (Except.ok a >>= f) = f a := rfl

@[simp] theorem error_bind (e : ε) (f : α → Except ε γ) : (Except.error e >>= f) = .error e := rfl

@[simp] theorem pure_eq_ok (a : α) : (pure a : Except ε α) = .ok a := rfl

end

variable {β : Type*}

def empty : Heap β := fun _ => none

def Live (h : Heap β) (a : Addr) : Prop := h a ≠ none

def alloc (h : Heap β) (a : Addr) (b : List β) : Heap β := Function.update h a (some b)

def erase (h : Heap β) (a : Addr) : Heap β := Function.update h a none

def free (h : Heap β) (a : Addr) : Except Fault (Heap β) :=
  match h a with
  | some _ => .ok (erase h a)
  | none => .error (.invalidFree a)

def overwrite (b : List β) (off : ℕ) (bytes : List β) : List β :=
  b.take off ++ bytes ++ b.drop (off+bytes.length)

def load (h : Heap β) (a : Addr) (off len : ℕ) : Except Fault (List β) :=
  match h a with
  | some b => if off+len ≤ b.length then .ok ((b.drop off).take len)
      else .error (.outOfBounds a off len)
  | none => .error (.outOfBounds a off len)

def store (h : Heap β) (a : Addr) (off : ℕ) (bytes : List β) : Except Fault (Heap β) :=
  match h a with
  | some b => if off+bytes.length ≤ b.length then .ok (alloc h a (overwrite b off bytes))
      else .error (.outOfBounds a off bytes.length)
  | none => .error (.outOfBounds a off bytes.length)

@[simp] theorem alloc_same (h : Heap β) (a : Addr) (b : List β) : alloc h a b a = some b := by
  simp [alloc]

@[simp] theorem alloc_other (h : Heap β) {a x : Addr} (b : List β) (hx : x ≠ a) :
    alloc h a b x = h x := by
  simp [alloc, hx]

@[simp] theorem erase_same (h : Heap β) (a : Addr) : erase h a a = none := by
  simp [erase]

@[simp] theorem erase_other (h : Heap β) {a x : Addr} (hx : x ≠ a) : erase h a x = h x := by
  simp [erase, hx]

@[simp] theorem alloc_alloc (h : Heap β) (a : Addr) (b c : List β) :
    alloc (alloc h a b) a c = alloc h a c := by
  simp [alloc]

theorem erase_alloc (h : Heap β) {a : Addr} (b : List β) (ha : h a = none) :
    erase (alloc h a b) a = h := by
  simp only [erase, alloc, Function.update_idem]
  rw [← ha]
  exact Function.update_eq_self a h

theorem erase_alloc_comm (h : Heap β) {a c : Addr} (b : List β) (hac : a ≠ c) :
    erase (alloc h a b) c = alloc (erase h c) a b :=
  Function.update_comm hac _ _ h

theorem alloc_comm (h : Heap β) {a c : Addr} (b d : List β) (hac : a ≠ c) :
    alloc (alloc h a b) c d = alloc (alloc h c d) a b :=
  Function.update_comm hac _ _ h

theorem free_live (h : Heap β) {a : Addr} {b : List β} (ha : h a = some b) :
    free h a = .ok (erase h a) := by
  simp [free, ha]

theorem free_alloc (h : Heap β) {a : Addr} (b : List β) (ha : h a = none) :
    free (alloc h a b) a = .ok h := by
  rw [free_live _ (alloc_same h a b), erase_alloc h b ha]

theorem load_live (h : Heap β) {a : Addr} {b : List β} (ha : h a = some b) (off len : ℕ)
    (hb : off+len ≤ b.length) : load h a off len = .ok ((b.drop off).take len) := by
  simp [load, ha, hb]

theorem load_whole (h : Heap β) {a : Addr} {b : List β} (ha : h a = some b) :
    load h a 0 b.length = .ok b := by
  simp [load, ha]

theorem store_live (h : Heap β) {a : Addr} {b : List β} (ha : h a = some b) (off : ℕ)
    (bytes : List β) (hb : off+bytes.length ≤ b.length) :
    store h a off bytes = .ok (alloc h a (overwrite b off bytes)) := by
  simp [store, ha, hb]

theorem overwrite_whole (b bytes : List β) (hb : bytes.length = b.length) :
    overwrite b 0 bytes = bytes := by
  simp [overwrite, hb]

theorem overwrite_append (b pad bytes : List β) (hp : pad.length = bytes.length) :
    overwrite (b ++ pad) b.length bytes = b ++ bytes := by
  simp [overwrite, ← hp]

theorem overwrite_overwrite (b x y : List β) {off : ℕ} (hx : off+x.length ≤ b.length) :
    overwrite (overwrite b off x) (off+x.length) y = overwrite b off (x ++ y) := by
  have hoff : (b.take off).length = off := List.length_take_of_le (by omega)
  have htake : (overwrite b off x).take (off+x.length) = b.take off ++ x := by
    rw [overwrite, List.take_left' (by rw [List.length_append, hoff])]
  have hdrop : (overwrite b off x).drop (off+x.length+y.length) =
      b.drop (off+x.length+y.length) := by
    rw [overwrite, ← List.drop_drop, List.drop_left' (by rw [List.length_append, hoff]),
      List.drop_drop]
  rw [overwrite, htake, hdrop]
  simp [overwrite, Nat.add_assoc]

@[simp] theorem overwrite_nil (b : List β) (off : ℕ) : overwrite b off [] = b := by
  simp [overwrite]

theorem take_overwrite (b bytes : List β) {off : ℕ} (hoff : off ≤ b.length) :
    (overwrite b off bytes).take (off+bytes.length) = b.take off ++ bytes := by
  rw [overwrite, List.take_left' (by rw [List.length_append, List.length_take_of_le hoff])]

theorem take_overwrite_before (b bytes : List β) {off : ℕ} (hoff : off ≤ b.length) :
    (overwrite b off bytes).take off = b.take off := by
  rw [overwrite, List.append_assoc, List.take_left' (List.length_take_of_le hoff)]

theorem length_overwrite (b bytes : List β) (off : ℕ) (hb : bytes.length ≤ b.length-off) :
    (overwrite b off bytes).length = b.length := by
  simp only [overwrite, List.length_append, List.length_take, List.length_drop]
  omega

end BlockHeap
