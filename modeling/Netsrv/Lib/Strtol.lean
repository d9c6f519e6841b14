/-
  `strtol` in base 16, and `std::stoi` on top of it.

  The C library skips white space, takes a sign and a `0x` and then as many digits as there
  are; what follows is not looked at.  So of two characters the second may be anything once
  the first is a digit, and the first may be no digit at all.
  Independent of what the number is for.
-/
import Netsrv.Lib.ByteCodec

namespace Strtol

open ByteCodec

/-- `isspace` in the "C" locale. -/
def isSpace (c : UInt8) : Bool := c = 0x20 || (0x09 ≤ c && c ≤ 0x0d)

def minus : UInt8 := 0x2d

def plus : UInt8 := 0x2b

/-- The value of a digit of base 16. -/
def hexValue (c : UInt8) : Option ℕ :=
  if 0x30 ≤ c ∧ c ≤ 0x39 then some (c.toNat - 0x30)
  else if 0x41 ≤ c ∧ c ≤ 0x46 then some (c.toNat - 0x37)
  else if 0x61 ≤ c ∧ c ≤ 0x66 then some (c.toNat - 0x57)
  else none

/-- The optional sign: whether it is a minus, and what follows. -/
def takeSign : Bytes → Bool × Bytes
  | [] => (false, [])
  | c :: s => if c = minus then (true, s) else if c = plus then (false, s) else (false, c :: s)

/-- The optional `0x`, which is one only when a digit follows. -/
def skipPrefix : Bytes → Bytes
  | z :: x :: d :: s =>
    if z = 0x30 ∧ (x = 0x78 ∨ x = 0x58) ∧ (hexValue d).isSome then d :: s else z :: x :: d :: s
  | s => s

/-- The digits up to the first character that is none. -/
def leadingDigits : Bytes → List ℕ
  | [] => []
  | c :: s =>
    match hexValue c with
    | none => []
    | some d => d :: leadingDigits s

def valueOf (digits : List ℕ) : ℕ := digits.foldl (fun n d => 16 * n + d) 0

/-- The conversion of what follows the sign. -/
def convert (negative : Bool) (s : Bytes) : Option ℤ :=
  match leadingDigits (skipPrefix s) with
  | [] => none
  | d :: ds => some (if negative then -(valueOf (d :: ds) : ℤ) else valueOf (d :: ds))

/-- `strtol(s, &end, 16)`; no conversion, where `end` stays at `s`, is `none`. -/
def strtol (s : Bytes) : Option ℤ :=
  let (negative, rest) := takeSign (s.dropWhile isSpace)
  convert negative rest

/-- `std::stoi(s, nullptr, 16)`; what it throws is `none`. -/
def stoi (s : Bytes) : Option ℤ :=
  (strtol s).filter fun v => -2 ^ 31 ≤ v ∧ v < 2 ^ 31

/-! ## Characters

  A fact about one character is checked on all 256 of them. -/

theorem forall_char {P : UInt8 → Prop} (h : ∀ i : Fin 256, P (UInt8.ofFin i)) (c : UInt8) : P c :=
  h c.toFin

/-- The digit of a value, its letter in lower case. -/
def lowerDigit (d : ℕ) : UInt8 := UInt8.ofNat (if d < 10 then 0x30 + d else 0x57 + d)

def toLower (c : UInt8) : UInt8 := if 0x41 ≤ c ∧ c ≤ 0x5a then c + 0x20 else c

theorem hexValue_lt {c : UInt8} {d : ℕ} : hexValue c = some d → d < 16 := by
  have h : ∀ c, ∀ d ∈ hexValue c, d < 16 := forall_char (by decide +kernel)
  exact h c d

/-- A digit has one spelling, up to the case of its letter. -/
theorem toLower_eq_lowerDigit {c : UInt8} {d : ℕ} : hexValue c = some d →
    toLower c = lowerDigit d := by
  have h : ∀ c, ∀ d ∈ hexValue c, toLower c = lowerDigit d := forall_char (by decide +kernel)
  exact h c d

theorem hexValue_lowerDigit {d : ℕ} (h : d < 16) : hexValue (lowerDigit d) = some d := by
  have hall : ∀ i : Fin 16, hexValue (lowerDigit i) = some i.val := by decide
  exact hall ⟨d, h⟩

theorem hexValue_of_isSpace {c : UInt8} : isSpace c = true → hexValue c = none :=
  forall_char (P := fun c => isSpace c = true → hexValue c = none) (by decide +kernel) c

theorem isSpace_of_hexValue {c : UInt8} {d : ℕ} (h : hexValue c = some d) : isSpace c = false := by
  rw [← Bool.not_eq_true]
  intro hspace
  rw [hexValue_of_isSpace hspace] at h
  cases h

/-! ## Two characters -/

/-- What `stoi` makes of two characters: the digits in front, or one after a sign or a
    space. -/
def pairValue (a b : UInt8) : Option ℤ :=
  match hexValue a, hexValue b with
  | some x, some y => some (16 * x + y)
  | some x, none => some x
  | none, some y =>
    if a = minus then some (-y) else if isSpace a = true ∨ a = plus then some (y : ℤ) else none
  | none, none => none

theorem not_sign_of_hexValue {c : UInt8} {d : ℕ} (h : hexValue c = some d) :
    c ≠ minus ∧ c ≠ plus := by
  constructor
  · rintro rfl
    cases h
  · rintro rfl
    cases h

theorem strtol_space {c : UInt8} (h : isSpace c = true) (s : Bytes) :
    strtol (c :: s) = strtol s := by
  rw [strtol, List.dropWhile_cons_of_pos h, strtol]

theorem strtol_minus (s : Bytes) : strtol (minus :: s) = convert true s := rfl

theorem strtol_plus (s : Bytes) : strtol (plus :: s) = convert false s := rfl

theorem strtol_other {c : UInt8} (hspace : isSpace c = false) (hminus : c ≠ minus)
    (hplus : c ≠ plus) (s : Bytes) : strtol (c :: s) = convert false (c :: s) := by
  rw [strtol, List.dropWhile_cons_of_neg (by rw [hspace]; decide), takeSign, if_neg hminus,
    if_neg hplus]

theorem strtol_digit {c : UInt8} {d : ℕ} (h : hexValue c = some d) (s : Bytes) :
    strtol (c :: s) = convert false (c :: s) :=
  strtol_other (isSpace_of_hexValue h) (not_sign_of_hexValue h).1 (not_sign_of_hexValue h).2 s

theorem convert_single (negative : Bool) (b : UInt8) : convert negative [b] =
    (hexValue b).map fun y : ℕ => if negative then -(y : ℤ) else (y : ℤ) := by
  cases hb : hexValue b with
  | none => simp [convert, skipPrefix, leadingDigits, hb]
  | some y => simp [convert, skipPrefix, leadingDigits, hb, valueOf]

theorem convert_pair (a b : UInt8) : convert false [a, b] =
    (hexValue a).map fun x : ℕ => ((hexValue b).elim x fun y => 16 * x + y : ℕ) := by
  cases ha : hexValue a with
  | none => simp [convert, skipPrefix, leadingDigits, ha]
  | some x =>
    cases hb : hexValue b with
    | none => simp [convert, skipPrefix, leadingDigits, ha, hb, valueOf]
    | some y => simp [convert, skipPrefix, leadingDigits, ha, hb, valueOf]

/-- A single character that is no digit is no number. -/
theorem strtol_single (b : UInt8) : strtol [b] = (hexValue b).map fun y : ℕ => (y : ℤ) := by
  by_cases hspace : isSpace b = true
  · rw [strtol_space hspace, hexValue_of_isSpace hspace]
    rfl
  · by_cases hminus : b = minus
    · rw [hminus]
      rfl
    · by_cases hplus : b = plus
      · rw [hplus]
        rfl
      · rw [strtol_other (Bool.not_eq_true _ ▸ hspace) hminus hplus, convert_single]
        rfl

theorem strtol_pair (a b : UInt8) : strtol [a, b] = pairValue a b := by
  cases ha : hexValue a with
  | some x =>
    rw [strtol_digit ha, convert_pair, pairValue, ha]
    cases hexValue b with
    | none => rfl
    | some y =>
      simp
  | none =>
    by_cases hminus : a = minus
    · rw [hminus, strtol_minus, convert_single, pairValue]
      cases hexValue b with
      | none => rfl
      | some y => rfl
    · by_cases hspace : isSpace a = true
      · rw [strtol_space hspace, strtol_single, pairValue, ha]
        cases hexValue b with
        | none => rfl
        | some y => simp [hminus, hspace]
      · by_cases hplus : a = plus
        · rw [hplus, strtol_plus, convert_single, pairValue]
          cases hexValue b with
          | none => rfl
          | some y => rfl
        · rw [strtol_other (Bool.not_eq_true _ ▸ hspace) hminus hplus, convert_pair, pairValue, ha]
          cases hexValue b with
          | none => rfl
          | some y => simp [hminus, hspace, hplus]

/-- Two characters are never out of range. -/
theorem pairValue_bounds {a b : UInt8} {v : ℤ} (h : pairValue a b = some v) :
    -2 ^ 31 ≤ v ∧ v < 2 ^ 31 := by
  have hx {c : UInt8} {d : ℕ} (h : hexValue c = some d) := hexValue_lt h
  unfold pairValue at h
  grind

theorem stoi_pair (a b : UInt8) : stoi [a, b] = pairValue a b := by
  rw [stoi, strtol_pair]
  cases hv : pairValue a b with
  | none => rfl
  | some v => exact Option.filter_eq_some_iff.mpr ⟨rfl, by simpa using pairValue_bounds hv⟩

/-- What `stoi` accepts of two characters: a digit with anything after it, or a space or a
    sign with a digit after it. -/
theorem isSome_stoi_pair (a b : UInt8) : (stoi [a, b]).isSome ↔ (hexValue a).isSome ∨
    (isSpace a = true ∨ a = plus ∨ a = minus) ∧ (hexValue b).isSome := by
  rw [stoi_pair, pairValue]
  cases hexValue a with
  | some x =>
    cases hexValue b with
    | none => simp
    | some y => simp
  | none =>
    cases hexValue b with
    | none => simp
    | some y =>
      by_cases hminus : a = minus
      · simp [hminus]
      · by_cases hspace : isSpace a = true ∨ a = plus
        · simp [hminus, hspace]
        · simp [hminus, hspace]

end Strtol
