import Aesd.CharDriver

/-!
# The seek command of the server

A request which begins with `SEEK_COMMAND` is read by `sscanf` with the format
`%u,%u`. The conversions follow glibc on a 64-bit system: white space and a
sign are allowed, the digits are converted as `unsigned long`, and text behind
the last conversion is ignored.
-/

set_option autoImplicit false

namespace Aesd.SeekParser
open MachineInt Aesd.CharDriver

def SEEK_COMMAND : List UInt8 :=
  [65,69,83,68,67,72,65,82,95,73,79,67,83,69,69,75,84,79,58]

def comma : UInt8 := 44

def isSpace (b : UInt8) : Bool := b == 32 || (9 ≤ b && b ≤ 13)

def isDigit (b : UInt8) : Bool := 48 ≤ b && b ≤ 57

def decimal (digits : List UInt8) : ℕ := digits.foldl (fun n d => 10*n+(d.toNat-48)) 0

/-- `strtoul`: an overflow gives `ULONG_MAX` whatever the sign. -/
def unsignedLong (negative : Bool) (n : ℕ) : ℕ :=
  if n ≥ 2^64 then 2^64-1 else if negative then wrapU64 (2^64-n) else n

def scanUnsigned (s : List UInt8) : Option (UInt32 × List UInt8) :=
  let s := s.dropWhile isSpace
  let negative := s.head? == some 45
  let s := if negative || s.head? == some 43 then s.tail else s
  let digits := s.takeWhile isDigit
  if digits = [] then none
  else some (UInt32.ofNat (unsignedLong negative (decimal digits)), s.dropWhile isDigit)

def cString (s : List UInt8) : List UInt8 := s.takeWhile (· != 0)

/-- `sscanf(s, "%u,%u", ..)`, `none` unless it returns 2. -/
def sscanfSeek (s : List UInt8) : Option AesdSeekto :=
  match scanUnsigned (cString s) with
  | some (writeCmd, b::s) =>
    if b = comma then (scanUnsigned s).map fun x => ⟨writeCmd, x.1⟩ else none
  | _ => none

structure IsNumeral (digits : List UInt8) : Prop where
  ne_nil : digits ≠ []
  digit : ∀ d ∈ digits, isDigit d = true

theorem isDigit_iff (b : UInt8) : isDigit b = true ↔ 48 ≤ b.toNat ∧ b.toNat ≤ 57 := by
  simp [isDigit, UInt8.le_iff_toNat_le]

theorem not_space_of_digit {b : UInt8} (h : isDigit b = true) : isSpace b = false := by
  have hb := (isDigit_iff b).mp h
  simp only [isSpace, Bool.or_eq_false_iff, beq_eq_false_iff_ne, ne_eq, ← UInt8.toNat_inj,
    Bool.and_eq_false_iff, decide_eq_false_iff_not, UInt8.le_iff_toNat_le]
  change ¬ b.toNat = 32 ∧ (¬ 9 ≤ b.toNat ∨ ¬ b.toNat ≤ 13)
  omega

theorem not_sign_of_digit {b : UInt8} (h : isDigit b = true) : b ≠ 45 ∧ b ≠ 43 ∧ b ≠ 0 := by
  refine ⟨?_, ?_, ?_⟩ <;>
  · rintro rfl
    revert h
    decide

/-- What `%u` reads: white space, a sign and a numeral. -/
structure Field where
  spaces : List UInt8
  sign : Option UInt8
  digits : List UInt8
  space : ∀ b ∈ spaces, isSpace b = true
  signed : ∀ b ∈ sign, b = 43 ∨ b = 45
  numeral : IsNumeral digits

def Field.bytes (f : Field) : List UInt8 := f.spaces ++ (f.sign.toList ++ f.digits)

def Field.negative (f : Field) : Bool := f.sign == some 45

def Field.value (f : Field) : UInt32 := UInt32.ofNat (unsignedLong f.negative (decimal f.digits))

def Field.number (f : Field) : ℕ :=
  if f.negative then (2^32-decimal f.digits) % 2^32 else decimal f.digits

theorem while_append {p : UInt8 → Bool} {l rest : List UInt8} (hl : ∀ b ∈ l, p b = true)
    (hr : ∀ b ∈ rest.head?, p b = false) :
    (l ++ rest).takeWhile p = l ∧ (l ++ rest).dropWhile p = rest := by
  rw [List.takeWhile_append_of_pos hl, List.dropWhile_append_of_pos hl]
  cases rest with
  | nil => simp
  | cons b rest => simp [hr b rfl]

theorem field_head (f : Field) (rest : List UInt8) :
    ∀ b ∈ (f.sign.toList ++ f.digits ++ rest).head?, isSpace b = false := by
  intro b hb
  obtain ⟨hne, hdig⟩ := f.numeral
  have hs := f.signed
  cases hsign : f.sign with
  | none =>
    cases hd : f.digits with
    | nil => exact absurd hd hne
    | cons d ds =>
      obtain rfl : d = b := by simpa [hsign, hd] using hb
      exact not_space_of_digit (hdig d (by simp [hd]))
  | some c =>
    obtain rfl : c = b := by simpa [hsign] using hb
    rcases hs c hsign with rfl | rfl <;> decide

theorem field_sign (f : Field) (rest : List UInt8) :
    let t := f.sign.toList ++ f.digits ++ rest
    (t.head? == some 45) = f.negative ∧
      (if f.negative || t.head? == some 43 then t.tail else t) = f.digits ++ rest := by
  obtain ⟨hne, hdig⟩ := f.numeral
  have hs := f.signed
  cases hsign : f.sign with
  | none =>
    cases hd : f.digits with
    | nil => exact absurd hd hne
    | cons d ds =>
      obtain ⟨hminus, hplus, _⟩ := not_sign_of_digit (hdig d (by simp [hd]))
      simp [Field.negative, hsign, hminus, hplus]
  | some c =>
    rcases hs c hsign with rfl | rfl <;> simp [Field.negative, hsign]

theorem scanUnsigned_field (f : Field) {rest : List UInt8}
    (hr : ∀ b ∈ rest.head?, isDigit b = false) :
    scanUnsigned (f.bytes ++ rest) = some (f.value, rest) := by
  obtain ⟨_, hspace⟩ := while_append f.space (field_head f rest)
  obtain ⟨htake, hdrop⟩ := while_append f.numeral.digit hr
  obtain ⟨hneg, hrest⟩ := field_sign f rest
  simp only [Field.bytes, List.append_assoc, scanUnsigned] at hspace hneg hrest ⊢
  rw [hspace, hneg, hrest, htake, hdrop, if_neg f.numeral.ne_nil, Field.value]

theorem split_sign (t : List UInt8) :
    ∃ (sign : Option UInt8) (u : List UInt8), t = sign.toList ++ u ∧
      (∀ b ∈ sign, b = 43 ∨ b = 45) ∧ (t.head? == some 45) = (sign == some 45) ∧
      (if (t.head? == some 45) || t.head? == some 43 then t.tail else t) = u := by
  cases t with
  | nil => exact ⟨none, [], rfl, by simp, rfl, rfl⟩
  | cons b t =>
    by_cases hs : b = 43 ∨ b = 45
    · refine ⟨some b, t, rfl, ?_, rfl, ?_⟩
      · rintro _ ⟨⟩
        exact hs
      · rcases hs with rfl | rfl <;> rfl
    · rw [not_or] at hs
      exact ⟨none, b::t, rfl, by simp, by simp [hs.2], by simp [hs.1, hs.2]⟩

theorem scanUnsigned_inv {s rest : List UInt8} {v : UInt32} (h : scanUnsigned s = some (v,rest)) :
    ∃ f : Field, s = f.bytes ++ rest ∧ v = f.value ∧ ∀ b ∈ rest.head?, isDigit b = false := by
  obtain ⟨sign, u, ht, hsigned, hneg, hu⟩ := split_sign (s.dropWhile isSpace)
  simp only [scanUnsigned] at h
  rw [hneg] at h hu
  rw [hu] at h
  split_ifs at h with hnil
  obtain ⟨rfl, rfl⟩ := Prod.mk.inj (Option.some.inj h)
  refine ⟨⟨s.takeWhile isSpace, sign, u.takeWhile isDigit, fun b => List.mem_takeWhile_imp,
    hsigned, hnil, fun b => List.mem_takeWhile_imp⟩, ?_, rfl, ?_⟩
  · simp only [Field.bytes, List.append_assoc, List.takeWhile_append_dropWhile]
    rw [← ht, List.takeWhile_append_dropWhile]
  · intro b hb
    have hhead := List.head?_dropWhile_not isDigit u
    rw [Option.mem_def.mp hb] at hhead
    simpa using hhead

theorem sscanfSeek_iff (s : List UInt8) (seekto : AesdSeekto) :
    sscanfSeek s = some seekto ↔ ∃ (f g : Field) (rest : List UInt8),
      cString s = f.bytes ++ comma::(g.bytes ++ rest) ∧
      (∀ b ∈ rest.head?, isDigit b = false) ∧ seekto = ⟨f.value, g.value⟩ := by
  rw [sscanfSeek]
  constructor
  · intro h
    cases hf : scanUnsigned (cString s) with
    | none => simp [hf] at h
    | some x =>
      obtain ⟨v, rest⟩ := x
      obtain ⟨f, hs, rfl, _⟩ := scanUnsigned_inv hf
      cases rest with
      | nil => simp [hf] at h
      | cons b rest =>
        simp only [hf] at h
        split_ifs at h with hb
        obtain ⟨⟨w, rest'⟩, hg, rfl⟩ := Option.map_eq_some_iff.mp h
        obtain ⟨g, rfl, rfl, hrest⟩ := scanUnsigned_inv hg
        exact ⟨f, g, rest', by rw [hs, hb], hrest, rfl⟩
  · rintro ⟨f, g, rest, hs, hrest, rfl⟩
    have hf : scanUnsigned (f.bytes ++ comma::(g.bytes ++ rest)) =
        some (f.value, comma::(g.bytes ++ rest)) :=
      scanUnsigned_field f (by rintro b ⟨⟩; decide)
    rw [hs, hf]
    simp [scanUnsigned_field g hrest]

def Field.extend (f : Field) (ds : List UInt8) (h : ∀ d ∈ ds, isDigit d = true) : Field where
  spaces := f.spaces
  sign := f.sign
  digits := f.digits ++ ds
  space := f.space
  signed := f.signed
  numeral := ⟨by simp [f.numeral.ne_nil], fun d hd =>
    (List.mem_append.mp hd).elim (f.numeral.digit d) (h d)⟩

theorem cString_append (s u : List UInt8) :
    ∃ v, cString (s ++ u) = cString s ++ v ∧ (v = [] ∨ cString s = s) := by
  unfold cString
  rw [List.takeWhile_append]
  split_ifs with hall
  · have heq : s.takeWhile (· != 0) = s := (List.takeWhile_prefix _).eq_of_length hall
    exact ⟨u.takeWhile (· != 0), by rw [heq], .inr heq⟩
  · exact ⟨[], (List.append_nil _).symm, .inl rfl⟩

theorem last_digit (f : Field) (x y : List UInt8) : x ++ f.bytes ≠ y ++ [newline] := by
  intro h
  have hlast := congrArg List.getLast? h
  rw [Field.bytes, ← List.append_assoc, ← List.append_assoc, List.getLast?_append,
    List.getLast?_concat, List.getLast?_eq_some_getLast f.numeral.ne_nil] at hlast
  have hdigit := f.numeral.digit _ (List.getLast_mem f.numeral.ne_nil)
  rw [Option.some_or, Option.some.injEq] at hlast
  rw [hlast] at hdigit
  revert hdigit
  decide

theorem sscanfSeek_append {s : List UInt8} {seekto : AesdSeekto} (u : List UInt8)
    (h : sscanfSeek s = some seekto) :
    ∃ seekto', sscanfSeek (s ++ u) = some seekto' ∧
      ∀ x, s = x ++ [newline] → seekto' = seekto := by
  obtain ⟨f, g, rest, hs, hrest, rfl⟩ := (sscanfSeek_iff _ _).mp h
  obtain ⟨v, hv, hend⟩ := cString_append s u
  have hsu : cString (s ++ u) = f.bytes ++ comma::(g.bytes ++ (rest ++ v)) := by
    rw [hv, hs]
    simp
  by_cases hsame : ∀ b ∈ (rest ++ v).head?, isDigit b = false
  · exact ⟨_, (sscanfSeek_iff _ _).mpr ⟨f, g, rest ++ v, hsu, hsame, rfl⟩, fun _ _ => rfl⟩
  · have hnil : rest = [] := by
      cases rest with
      | nil => rfl
      | cons b rest => exact absurd (by simpa using hrest) hsame
    subst hnil
    have hds : ∀ d ∈ v.takeWhile isDigit, isDigit d = true := fun d => List.mem_takeWhile_imp
    refine ⟨_, (sscanfSeek_iff _ _).mpr ⟨f, g.extend (v.takeWhile isDigit) hds,
      v.dropWhile isDigit, ?_, ?_, rfl⟩, ?_⟩
    · rw [hsu]
      simp [Field.extend, Field.bytes]
    · intro b hb
      have hhead := List.head?_dropWhile_not isDigit v
      rw [Option.mem_def.mp hb] at hhead
      simpa using hhead
    · intro x hx
      rcases hend with rfl | hend
      · simp at hsame
      · rw [hend, hx, List.append_nil] at hs
        exact absurd (by simpa using hs.symm) (last_digit g (f.bytes ++ [comma]) x)

def numeralField {digits : List UInt8} (h : IsNumeral digits) : Field :=
  ⟨[], none, digits, by simp, by simp, h⟩

theorem toNat_value (f : Field) (h : decimal f.digits < 2^32) : f.value.toNat = f.number := by
  have hlong : ¬ decimal f.digits ≥ 2^64 := by omega
  rw [Field.value, Field.number, UInt32.toNat_ofNat', unsignedLong, if_neg hlong, wrapU64]
  split_ifs <;> omega

theorem value_numeral {digits : List UInt8} (h : IsNumeral digits) (hv : decimal digits < 2^32) :
    (numeralField h).value = UInt32.ofNat (decimal digits) := by
  have hlong : ¬ decimal digits ≥ 2^64 := by omega
  have hneg : (numeralField h).negative = false := rfl
  have hdigits : (numeralField h).digits = digits := rfl
  rw [Field.value, hneg, hdigits, unsignedLong, if_neg hlong, if_neg (by decide)]

theorem sscanfSeek_numerals {x y rest : List UInt8} (hx : IsNumeral x) (hy : IsNumeral y)
    (hxv : decimal x < 2^32) (hyv : decimal y < 2^32) :
    sscanfSeek (x ++ comma::y ++ newline::rest) =
      some ⟨UInt32.ofNat (decimal x), UInt32.ofNat (decimal y)⟩ := by
  have hnz (s : List UInt8) (hs : IsNumeral s) : ∀ b ∈ s, (b != 0) = true := by
    intro b hb
    simpa using (not_sign_of_digit (hs.digit b hb)).2.2
  have hstr : cString (x ++ comma::y ++ newline::rest) =
      x ++ comma::(y ++ newline::cString rest) := by
    rw [List.append_assoc, List.cons_append, cString, List.takeWhile_append_of_pos (hnz x hx),
      List.takeWhile_cons_of_pos (by decide), List.takeWhile_append_of_pos (hnz y hy),
      List.takeWhile_cons_of_pos (by decide), cString]
  refine (sscanfSeek_iff _ _).mpr ⟨numeralField hx, numeralField hy, newline::cString rest, hstr,
    by rintro b ⟨⟩; decide, ?_⟩
  rw [value_numeral hx hxv, value_numeral hy hyv]

/-- White space, a sign and text behind the numbers are accepted as well. -/
example : sscanfSeek [32,45,49,44,43,50,120] = some ⟨4294967295, 2⟩ := by decide

end Aesd.SeekParser
