/-
  `security/srp6.hpp`: SRP-6a over SHA-256.

  A `BIGNUM` is a natural number, `BN_bn2binpad` the fixed-width big-endian encoding, which
  fails on a value that is too wide; a failure, which the source throws, is `none`.  SHA-256
  is a parameter and the ephemerals `a` and `b`, drawn by `BN_rand_range`, are arguments.

  The group is an argument as well, with the constants of the source as `kGroup`, so that
  what needs a property of the group can say which one.
-/
import Netsrv.Security.Crypto
import Mathlib.Data.Nat.Log

namespace Netsrv.Srp6

open ByteCodec

structure Group where
  N : ℕ
  g : ℕ

/-- The rows of `kGroupNHex`, 64 digits each. -/
def kGroupNHex : List ℕ :=
  [0xF511360967F552BDE33F1CBAA2A7FB1952F54B0B98C5C43B0C41F5CDE6BDE52F,
   0x23190FB594E944D74CD79557D372AA1896F8E50E4369090FB5951BE6365AF475,
   0xE9110B93B9BA6628AF0F5C9AB386154C4C2A4107FD522255D138E092DEA66252,
   0x4A45C3E0F405622641C69444663EFD1989325FCBE9DCE9BD5EE35DAF1A88B818,
   0xE820992BCA6617258137105E432EBA98F9E27235C0FF535BD4B6B89F7A030C54,
   0xBCE4BCA12CEED3AEBADBB567C05D8DB3755AECB83DAF494C8CE8F596B7FC72D0,
   0x2C44D0C7D1CE96C329A6CF080B15A543327362BDCCAECE26BFB35F7A5D0A80A6,
   0xF6EEBF818694AB4A0D2B3188A884BD94AD5B38E0C7B510AC532449CA2850A5EF]

/-- `bn_from_hex(kGroupNHex)`. -/
def kGroupN : ℕ := kGroupNHex.foldl (fun n row => n * 2 ^ 256 + row) 0

def kGroupG : ℕ := 2

def kNBytes : ℕ := 256

def kGroup : Group := ⟨kGroupN, kGroupG⟩

/-! ## Big numbers -/

def bnFromBytes (bytes : Bytes) : ℕ := ofBE bytes

/-- `BN_bn2binpad`: a value wider than `kNBytes` throws. -/
def bnToBytes (n : ℕ) : Option Bytes :=
  if n < 256 ^ kNBytes then some (toBE kNBytes n) else none

/-- Square and multiply, `fuel` bits of the exponent. -/
def modExpLoop (m : ℕ) : ℕ → ℕ → ℕ → ℕ
  | 0, _, _ => 1 % m
  | fuel + 1, a, p =>
    let half := modExpLoop m fuel (a * a % m) (p / 2)
    if p % 2 = 1 then a * half % m else half

/-- `BN_mod_exp`. -/
def bnModExp (a p m : ℕ) : ℕ := modExpLoop m (Nat.log2 p + 1) a p

/-- `BN_mod_sub`: the remainder is not negative. -/
def bnModSub (a b m : ℕ) : ℕ := (((a : ℤ) - b) % m).toNat

/-! ## The hashes -/

section Exchange

variable (H : Hash) (G : Group)

/-- `x = H(salt | H(username | ":" | password))`. -/
def computeX (salt username password : Bytes) : ℕ :=
  let inner := H (username ++ [0x3a] ++ password)
  bnFromBytes (H (salt ++ inner.toList)).toList

/-- `k = H(N | PAD(g))`. -/
def computeK : Option ℕ := do
  let nBytes ← bnToBytes G.N
  let gBytes ← bnToBytes G.g
  pure (bnFromBytes (H (nBytes ++ gBytes)).toList)

def computeU (aBytes bBytes : Bytes) : ℕ := bnFromBytes (H (aBytes ++ bBytes)).toList

def computeM1 (aBytes bBytes : Bytes) (K : Digest) : Digest := H (aBytes ++ bBytes ++ K.toList)

def computeM2 (aBytes : Bytes) (M1 K : Digest) : Digest := H (aBytes ++ M1.toList ++ K.toList)

/-! ## Registration -/

structure Registration where
  salt : Bytes
  verifier : Bytes

def computeVerifierWithSalt (username password salt : Bytes) : Option Registration := do
  let x := computeX H salt username password
  let verifier ← bnToBytes (bnModExp G.g x G.N)
  pure { salt, verifier }

/-! ## The server -/

structure ServerChallenge where
  b : ℕ
  v : ℕ
  /-- `B_bytes`, what the client is sent. -/
  bBytes : Bytes

def serverBegin (verifierBytes : Bytes) (b : ℕ) : Option ServerChallenge := do
  let k ← computeK H G
  let v := bnFromBytes verifierBytes
  let kv := k * v % G.N
  let gb := bnModExp G.g b G.N
  let bBytes ← bnToBytes ((kv + gb) % G.N)
  pure { b, v, bBytes }

structure ServerResult where
  ok : Bool := false
  K : Digest := Vector.replicate 32 0
  M2 : Bytes := []

def serverVerify (challenge : ServerChallenge) (aBytes clientM1 : Bytes) :
    Option ServerResult := do
  let A := bnFromBytes aBytes
  -- an A of 0 would force S to 0
  if A % G.N = 0 then pure {}
  else
    let u := computeU H aBytes challenge.bBytes
    if u = 0 then pure {}
    else do
      let vu := bnModExp challenge.v u G.N
      let Avu := A * vu % G.N
      let S := bnModExp Avu challenge.b G.N
      let K := H (← bnToBytes S)
      let expectedM1 := computeM1 H aBytes challenge.bBytes K
      if !constantTimeEqual expectedM1.toList clientM1 then pure {}
      else pure { ok := true, K, M2 := (computeM2 H aBytes expectedM1 K).toList }

/-! ## The client -/

structure ClientProof where
  aBytes : Bytes
  M1 : Digest
  K : Digest

/-- A `B` of 0 throws. -/
def clientRespond (username password salt bBytes : Bytes) (a : ℕ) : Option ClientProof := do
  let k ← computeK H G
  let B := bnFromBytes bBytes
  if B % G.N = 0 then none
  else do
    let aBytes ← bnToBytes (bnModExp G.g a G.N)
    let u := computeU H aBytes bBytes
    let x := computeX H salt username password
    let gx := bnModExp G.g x G.N
    let kgx := k * gx % G.N
    let base := bnModSub B kgx G.N
    let S := bnModExp base (a + u * x) G.N
    let K := H (← bnToBytes S)
    pure { aBytes, M1 := computeM1 H aBytes bBytes K, K }

def clientVerifyServer (proof : ClientProof) (serverM2 : Bytes) : Bool :=
  constantTimeEqual (computeM2 H proof.aBytes proof.M1 proof.K).toList serverM2

end Exchange

/-- An accepted proof is answered with a digest. -/
theorem digest_of_serverVerify {H : Hash} {G : Group} {challenge : ServerChallenge}
    {aBytes clientM1 : Bytes} {result : ServerResult}
    (h : serverVerify H G challenge aBytes clientM1 = some result) (hok : result.ok = true) :
    ∃ M2 : Digest, result.M2 = M2.toList := by
  unfold serverVerify at h
  dsimp only at h
  split at h
  · obtain rfl := Option.some.inj h
    cases hok
  · split at h
    · obtain rfl := Option.some.inj h
      cases hok
    · obtain ⟨s, -, h⟩ := Option.bind_eq_some_iff.mp h
      split at h
      · obtain rfl := Option.some.inj h
        cases hok
      · obtain rfl := Option.some.inj h
        exact ⟨_, rfl⟩

/-- A hash for concrete runs, with `k`, `x` and `u` equal to 1. -/
def unitHash : Hash := fun _ => (Vector.replicate 32 0).set 31 1

/-! ## Arithmetic -/

theorem modExpLoop_eq (m fuel a p : ℕ) (hp : p < 2 ^ fuel) :
    modExpLoop m fuel a p = a ^ p % m := by
  induction fuel generalizing a p with
  | zero =>
    obtain rfl : p = 0 := by omega
    rw [modExpLoop, Nat.pow_zero]
  | succ fuel ih =>
    have hhalf : p / 2 < 2 ^ fuel := by
      rw [Nat.pow_succ] at hp
      omega
    have hsq : (a * a) ^ (p / 2) = a ^ (2 * (p / 2)) := by rw [Nat.pow_mul, Nat.pow_two]
    rw [modExpLoop, ih _ _ hhalf, ← Nat.pow_mod, hsq]
    by_cases hodd : p % 2 = 1
    · rw [if_pos hodd, Nat.mul_mod_mod, ← Nat.pow_succ']
      congr 2
      omega
    · rw [if_neg hodd]
      congr 2
      omega

@[simp] theorem bnModExp_eq (a p m : ℕ) : bnModExp a p m = a ^ p % m :=
  modExpLoop_eq m _ a p Nat.lt_log2_self

theorem bnToBytes_of_lt {n : ℕ} (h : n < 256 ^ kNBytes) : bnToBytes n = some (toBE kNBytes n) :=
  if_pos h

theorem bnFromBytes_toBE {n : ℕ} (h : n < 256 ^ kNBytes) : bnFromBytes (toBE kNBytes n) = n :=
  ofBE_toBE h

end Netsrv.Srp6
