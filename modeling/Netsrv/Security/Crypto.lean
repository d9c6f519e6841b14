/-
  The cryptographic primitives the protocols are built on: `security/hmac.hpp`,
  `security/sha256.hpp` and `security/secure_random.hpp`.

  HMAC-SHA256 and SHA-256 are OpenSSL's, so they are parameters of the model: arbitrary
  functions to 32 bytes.  `RAND_bytes` is an argument of whatever draws from it.
-/
import Netsrv.Net.ByteIo

namespace Netsrv

def kHmacSize : ℕ := 32

/-- `std::array<std::byte, 32>`. -/
abbrev Digest := Vector UInt8 32

/-- `hmac_sha256(key, data)`. -/
abbrev Hmac := Bytes → Bytes → Digest

/-- `sha256(data)`. -/
abbrev Hash := Bytes → Digest

/-- `constant_time_equal`: `CRYPTO_memcmp` on spans of equal length. -/
def constantTimeEqual (a b : Bytes) : Bool :=
  if a.length ≠ b.length then false else a == b

theorem constantTimeEqual_iff (a b : Bytes) : constantTimeEqual a b = true ↔ a = b := by
  unfold constantTimeEqual
  by_cases h : a.length ≠ b.length
  · rw [if_pos h]
    constructor
    · intro hf; cases hf
    · rintro rfl; exact absurd rfl h
  · rw [if_neg h, beq_iff_eq]

/-! ## Tokens -/

/-- `"0123456789abcdef"`. -/
def hexDigits : Vector UInt8 16 :=
  #v[0x30, 0x31, 0x32, 0x33, 0x34, 0x35, 0x36, 0x37, 0x38, 0x39,
    0x61, 0x62, 0x63, 0x64, 0x65, 0x66]

def toHex (bytes : Bytes) : Bytes :=
  bytes.flatMap fun v : UInt8 =>
    [hexDigits.get (Fin.ofNat 16 (v >>> 4).toNat), hexDigits.get (Fin.ofNat 16 (v &&& 0x0F).toNat)]

/-- `generate_token_hex`, given what `RAND_bytes` put into the 16 bytes. -/
def generateTokenHex (random : Vector UInt8 16) : Bytes := toHex random.toList

@[simp] theorem length_toHex (bytes : Bytes) : (toHex bytes).length = 2 * bytes.length := by
  induction bytes with
  | nil => rfl
  | cons b bs ih =>
    rw [toHex, List.flatMap_cons, List.length_append, ← toHex, ih, List.length_cons]
    simp only [List.length_cons, List.length_nil]
    omega

@[simp] theorem length_generateTokenHex (random : Vector UInt8 16) :
    (generateTokenHex random).length = 32 := by
  rw [generateTokenHex, length_toHex, Vector.length_toList]

theorem mem_toHex {bytes : Bytes} {c : UInt8} (h : c ∈ toHex bytes) : c ∈ hexDigits.toList := by
  obtain ⟨v, _, hc⟩ := List.mem_flatMap.mp h
  have hget (i : Fin 16) : hexDigits.get i ∈ hexDigits.toList :=
    Vector.mem_toList_iff.mpr (Vector.getElem_mem i.isLt)
  simp only [List.mem_cons, List.not_mem_nil, or_false] at hc
  rcases hc with rfl | rfl
  · exact hget _
  · exact hget _

end Netsrv
