/-
  `load_hmac_secret` of `main.cpp`: the key of the internal protocol, from 64 hexadecimal
  digits in the environment.

  The length is checked, the digits are not: each pair goes through `std::stoi`, which takes
  more than two digits for a number.  `hexBytes` is what the digits denote; the two readings
  agree unless a string that is not all digits has only pairs that `stoi` takes.
-/
import Netsrv.Lib.Strtol
import Netsrv.Security.Crypto

namespace Netsrv.InternalSecret

open ByteCodec Strtol

/-! ## The source's reading -/

/-- `static_cast<std::byte>` of an `int`. -/
def toByte (v : ℤ) : UInt8 := UInt8.ofNat (v % 256).toNat

/-- The loop, `n` pairs before its end and at `env + i * 2`.  What `stoi` throws ends the
    process. -/
def keyLoop : ℕ → Bytes → Option Bytes
  | 0, _ => some []
  | n + 1, s => do
    let v ← stoi (s.take 2)
    let key ← keyLoop n (s.drop 2)
    pure (toByte v :: key)

/-- `load_hmac_secret`, on what `getenv` returns; `none` is the end of the process. -/
def loadHmacSecret : Option Bytes → Option Bytes
  | none => none
  | some s => if s.length ≠ 64 then none else keyLoop 32 s

/-! ## What the digits denote -/

/-- The bytes that pairs of digits denote. -/
def hexBytes : Bytes → Option Bytes
  | [] => some []
  | [_] => none
  | a :: b :: s => do
    let x ← hexValue a
    let y ← hexValue b
    let key ← hexBytes s
    pure (UInt8.ofNat (16 * x + y) :: key)

/-- A key comes of 64 digits and nothing else, and is what they denote. -/
def ReadExactly (env : Option Bytes) : Prop :=
  ∀ key, loadHmacSecret env = some key ↔
    ∃ s, env = some s ∧ s.length = 64 ∧ hexBytes s = some key

/-- A digit with anything after it, or a space or a sign with a digit after it. -/
def LoosePair (a b : UInt8) : Prop :=
  (hexValue a).isSome ∨ (isSpace a = true ∨ a = plus ∨ a = minus) ∧ (hexValue b).isSome

instance (a b : UInt8) : Decidable (LoosePair a b) := by unfold LoosePair; infer_instance

def EveryPair (P : UInt8 → UInt8 → Prop) : Bytes → Prop
  | a :: b :: s => P a b ∧ EveryPair P s
  | _ => True

/-- 64 characters that are not all digits, in pairs that are all taken. -/
def Mistyped (env : Option Bytes) : Prop :=
  ∃ s, env = some s ∧ s.length = 64 ∧ EveryPair LoosePair s ∧ ¬ ∀ c ∈ s, (hexValue c).isSome

theorem exists_cons_cons {s : Bytes} {n : ℕ} (h : s.length = 2 * (n + 1)) :
    ∃ a b t, s = a :: b :: t ∧ t.length = 2 * n := by
  match s, h with
  | a :: b :: t, h =>
    rw [List.length_cons, List.length_cons] at h
    exact ⟨a, b, t, rfl, by omega⟩

theorem keyLoop_cons (n : ℕ) (a b : UInt8) (s : Bytes) :
    keyLoop (n + 1) (a :: b :: s) =
      (stoi [a, b]).bind fun v => (keyLoop n s).map fun key => toByte v :: key := by
  rw [keyLoop]
  simp [Option.map_eq_bind]

theorem hexBytes_cons_iff {a b : UInt8} {s key : Bytes} : hexBytes (a :: b :: s) = some key ↔
    ∃ x y rest, hexValue a = some x ∧ hexValue b = some y ∧ hexBytes s = some rest ∧
      key = UInt8.ofNat (16 * x + y) :: rest := by
  rw [hexBytes]
  constructor
  · intro h
    obtain ⟨x, hx, h⟩ := Option.bind_eq_some_iff.mp h
    obtain ⟨y, hy, h⟩ := Option.bind_eq_some_iff.mp h
    obtain ⟨rest, hrest, h⟩ := Option.bind_eq_some_iff.mp h
    exact ⟨x, y, rest, hx, hy, hrest, (Option.some.inj h).symm⟩
  · rintro ⟨x, y, rest, hx, hy, hrest, rfl⟩
    rw [hx, hy, hrest]
    rfl

/-- The loop comes to its end on pairs that are all taken. -/
theorem isSome_keyLoop {n : ℕ} {s : Bytes} (h : s.length = 2 * n) :
    (keyLoop n s).isSome ↔ EveryPair LoosePair s := by
  induction n generalizing s with
  | zero =>
    obtain rfl := List.length_eq_zero_iff.mp h
    exact iff_of_true rfl trivial
  | succ n ih =>
    obtain ⟨a, b, t, rfl, ht⟩ := exists_cons_cons h
    have hpair : (stoi [a, b]).isSome ↔ LoosePair a b := isSome_stoi_pair a b
    rw [keyLoop_cons, EveryPair, ← ih ht, ← hpair]
    cases stoi [a, b] with
    | none => simp
    | some v => simp

theorem isSome_hexBytes {n : ℕ} {s : Bytes} (h : s.length = 2 * n) :
    (hexBytes s).isSome ↔ ∀ c ∈ s, (hexValue c).isSome := by
  induction n generalizing s with
  | zero =>
    obtain rfl := List.length_eq_zero_iff.mp h
    simp [hexBytes]
  | succ n ih =>
    obtain ⟨a, b, t, rfl, ht⟩ := exists_cons_cons h
    rw [List.forall_mem_cons, List.forall_mem_cons, ← ih ht, hexBytes]
    cases hexValue a with
    | none => simp
    | some x =>
      cases hexValue b with
      | none => simp
      | some y => cases hexBytes t <;> simp

theorem toByte_natCast (n : ℕ) : toByte n = UInt8.ofNat n := by
  rw [toByte, ← UInt8.toNat_inj, UInt8.toNat_ofNat', UInt8.toNat_ofNat']
  omega

/-- On digits the loop reads what they denote. -/
theorem keyLoop_of_hexBytes {n : ℕ} {s key : Bytes} (h : s.length = 2 * n)
    (hkey : hexBytes s = some key) : keyLoop n s = some key := by
  induction n generalizing s key with
  | zero =>
    obtain rfl := List.length_eq_zero_iff.mp h
    exact hkey
  | succ n ih =>
    obtain ⟨a, b, t, rfl, ht⟩ := exists_cons_cons h
    obtain ⟨x, y, rest, hx, hy, hrest, rfl⟩ := hexBytes_cons_iff.mp hkey
    have hbyte : toByte (16 * (x : ℤ) + y) = UInt8.ofNat (16 * x + y) := by
      rw [← toByte_natCast]
      push_cast
      rfl
    rw [keyLoop_cons, stoi_pair, pairValue, hx, hy, ih ht hrest]
    simp [hbyte]

/-! ## `to_hex` -/

theorem toHex_cons (v : UInt8) (bytes : Bytes) : toHex (v :: bytes) =
    lowerDigit (v.toNat / 16) :: lowerDigit (v.toNat % 16) :: toHex bytes := by
  have hv : ∀ v : UInt8, [hexDigits.get (Fin.ofNat 16 (v >>> 4).toNat),
      hexDigits.get (Fin.ofNat 16 (v &&& 0x0F).toNat)] =
        [lowerDigit (v.toNat / 16), lowerDigit (v.toNat % 16)] := forall_char (by decide +kernel)
  rw [toHex, List.flatMap_cons, hv, ← toHex]
  rfl

/-- What `to_hex` writes denotes the key. -/
theorem hexBytes_toHex (key : Bytes) : hexBytes (toHex key) = some key := by
  induction key with
  | nil => rfl
  | cons v key ih =>
    have hv := v.toNat_lt
    have hbyte : UInt8.ofNat (16 * (v.toNat / 16) + v.toNat % 16) = v := by
      rw [Nat.div_add_mod, UInt8.ofNat_toNat]
    rw [toHex_cons]
    exact hexBytes_cons_iff.mpr ⟨_, _, key, hexValue_lowerDigit (by omega),
      hexValue_lowerDigit (by omega), ih, by rw [hbyte]⟩

/-- Two digits of a byte, one by one. -/
theorem toNat_pair {x y : ℕ} (hx : x < 16) (hy : y < 16) :
    (UInt8.ofNat (16 * x + y)).toNat / 16 = x ∧ (UInt8.ofNat (16 * x + y)).toNat % 16 = y := by
  rw [UInt8.toNat_ofNat']
  omega

/-- Digits are what `to_hex` writes of what they denote, but for the case of the letters. -/
theorem map_toLower_eq_toHex {n : ℕ} {s key : Bytes} (h : s.length = 2 * n)
    (hkey : hexBytes s = some key) : s.map toLower = toHex key := by
  induction n generalizing s key with
  | zero =>
    obtain rfl := List.length_eq_zero_iff.mp h
    obtain rfl := Option.some.inj hkey
    rfl
  | succ n ih =>
    obtain ⟨a, b, t, rfl, ht⟩ := exists_cons_cons h
    obtain ⟨x, y, rest, hx, hy, hrest, rfl⟩ := hexBytes_cons_iff.mp hkey
    obtain ⟨hdiv, hmod⟩ := toNat_pair (hexValue_lt hx) (hexValue_lt hy)
    rw [List.map_cons, List.map_cons, toLower_eq_lowerDigit hx, toLower_eq_lowerDigit hy,
      ih ht hrest, toHex_cons, hdiv, hmod]

/-! ## Which strings are read exactly -/

theorem readExactly_none : ReadExactly none := by
  intro key
  constructor
  · intro h
    cases h
  · rintro ⟨s, hs, -⟩
    cases hs

theorem readExactly_of_length_ne {s : Bytes} (h : s.length ≠ 64) : ReadExactly (some s) := by
  intro key
  rw [loadHmacSecret, if_pos h]
  constructor
  · intro hnone
    cases hnone
  · rintro ⟨t, ht, hlen, -⟩
    obtain rfl := Option.some.inj ht
    exact absurd hlen h

/-- At the right length the two readings are compared. -/
theorem readExactly_iff {s : Bytes} (h : s.length = 64) :
    ReadExactly (some s) ↔ keyLoop 32 s = hexBytes s := by
  have hload : loadHmacSecret (some s) = keyLoop 32 s := if_neg (not_not.mpr h)
  rw [ReadExactly, hload]
  constructor
  · intro hall
    refine Option.ext fun key => ?_
    rw [hall key]
    constructor
    · rintro ⟨t, ht, -, hkey⟩
      obtain rfl := Option.some.inj ht
      exact hkey
    · intro hkey
      exact ⟨s, rfl, h, hkey⟩
  · intro heq key
    rw [heq]
    constructor
    · intro hkey
      exact ⟨s, rfl, h, hkey⟩
    · rintro ⟨t, ht, -, hkey⟩
      obtain rfl := Option.some.inj ht
      exact hkey

theorem readExactly_iff_not_mistyped (env : Option Bytes) : ReadExactly env ↔ ¬ Mistyped env := by
  cases env with
  | none =>
    refine iff_of_true readExactly_none ?_
    rintro ⟨s, hs, -⟩
    cases hs
  | some s =>
    by_cases hlen : s.length = 64
    · have hmistyped : Mistyped (some s) ↔
          (keyLoop 32 s).isSome ∧ ¬ (hexBytes s).isSome := by
        rw [isSome_keyLoop (n := 32) hlen, isSome_hexBytes (n := 32) hlen]
        constructor
        · rintro ⟨t, ht, -, hpairs, hdigits⟩
          obtain rfl := Option.some.inj ht
          exact ⟨hpairs, hdigits⟩
        · rintro ⟨hpairs, hdigits⟩
          exact ⟨s, rfl, hlen, hpairs, hdigits⟩
      rw [readExactly_iff hlen, hmistyped]
      cases hhex : hexBytes s with
      | some key => simp [keyLoop_of_hexBytes (n := 32) hlen hhex]
      | none => simp
    · refine iff_of_true (readExactly_of_length_ne hlen) ?_
      rintro ⟨t, ht, hlen', -⟩
      obtain rfl := Option.some.inj ht
      exact hlen hlen'

/-- What is read exactly is found again from its key, up to the case of the letters. -/
theorem map_toLower_of_load {s key : Bytes} (hs : ¬ Mistyped (some s))
    (hkey : loadHmacSecret (some s) = some key) : s.map toLower = toHex key := by
  obtain ⟨t, ht, hlen, hhex⟩ := ((readExactly_iff_not_mistyped _).mpr hs key).mp hkey
  obtain rfl := Option.some.inj ht
  exact map_toLower_eq_toHex (n := 32) hlen hhex

/-- **The secret is read exactly unless it is mistyped in a way `stoi` takes.**  Among the
    others two strings give one key only if they differ in the case of letters alone, and
    every key of 32 bytes is read from what `to_hex` writes of it. -/
theorem loadHmacSecret_exact_iff (env : Option Bytes) :
    (ReadExactly env ↔ ¬ Mistyped env) ∧
    (∀ s t key, ¬ Mistyped (some s) → ¬ Mistyped (some t) →
      loadHmacSecret (some s) = some key → loadHmacSecret (some t) = some key →
      s.map toLower = t.map toLower) ∧
    ∀ key : Bytes, key.length = 32 → loadHmacSecret (some (toHex key)) = some key := by
  refine ⟨readExactly_iff_not_mistyped env, fun s t key hs ht hsKey htKey => ?_, fun key hlen => ?_⟩
  · rw [map_toLower_of_load hs hsKey, map_toLower_of_load ht htKey]
  · have hlen64 : (toHex key).length = 64 := by rw [length_toHex, hlen]
    have hdigits : ∀ c ∈ toHex key, (hexValue c).isSome :=
      (isSome_hexBytes (n := 32) hlen64).mp (by rw [hexBytes_toHex]; rfl)
    refine ((readExactly_iff_not_mistyped _).mpr ?_ key).mpr ⟨_, rfl, hlen64, hexBytes_toHex key⟩
    rintro ⟨t, ht, -, -, hnot⟩
    obtain rfl := Option.some.inj ht
    exact hnot hdigits

/-- `5g` and then zeros: the `g` is dropped, and the key has a 5 where `5g` was. -/
theorem loadHmacSecret_typo : ¬ ∀ env, ReadExactly env := by
  intro hall
  obtain ⟨s, hs, -, hhex⟩ := (hall (some (0x35 :: 0x67 :: List.replicate 62 0x30))
    (5 :: List.replicate 31 0)).mp (by decide +kernel)
  obtain rfl := Option.some.inj hs
  revert hhex
  decide +kernel

end Netsrv.InternalSecret
