/-
  An honest SRP exchange succeeds, on both sides and through the wire formats.

  Server and client compute S on their own: `(A * v^u)^b` and `(B - k*g^x)^(a + u*x)`.
  `secret_agree` is that the two are one number modulo N; the hash inputs then agree byte
  for byte, because every value is padded to `kNBytes`.  Nothing is asked of the hash, and
  of the group only `Group.Sound`, which the source's constants have by evaluation.
-/
import Netsrv.Net.LoginProtocol
import Netsrv.Security.Srp6
import Mathlib.Data.ZMod.Basic
import Mathlib.Tactic.LinearCombination

namespace Netsrv.Srp6

open ByteCodec

/-- What the exchange needs of a group: the values fit their encoding, and `g` has no common
    factor with N, so that no power of it is 0. -/
structure Group.Sound (G : Group) : Prop where
  one_lt : 1 < G.N
  N_fits : G.N < 256 ^ kNBytes
  g_fits : G.g < 256 ^ kNBytes
  coprime : G.g.Coprime G.N

theorem kGroup_sound : kGroup.Sound where
  one_lt := by decide +kernel
  N_fits := by decide +kernel
  g_fits := by decide +kernel
  coprime := by decide +kernel

/-! ## The arithmetic of the exchange -/

theorem natCast_bnModSub (a b : ℕ) {m : ℕ} (hm : 0 < m) :
    ((bnModSub a b m : ℕ) : ZMod m) = a - b := by
  have hpos : (0 : ℤ) ≤ ((a : ℤ) - b) % m := Int.emod_nonneg _ (by omega)
  have hcast : ((bnModSub a b m : ℕ) : ZMod m) = ((((a : ℤ) - b) % m : ℤ) : ZMod m) := by
    rw [bnModSub, ← Int.cast_natCast (R := ZMod m), Int.toNat_of_nonneg hpos]
  rw [hcast, ZMod.intCast_mod]
  push_cast
  rfl

/-- The two computations of S agree. -/
theorem secret_agree {N : ℕ} (hN : 0 < N) (g k x a b u : ℕ) :
    (g ^ a % N * ((g ^ x % N) ^ u % N) % N) ^ b % N =
      bnModSub ((k * (g ^ x % N) % N + g ^ b % N) % N) (k * (g ^ x % N) % N) N ^ (a + u * x) %
        N := by
  refine (ZMod.natCast_eq_natCast_iff' _ _ N).mp ?_
  rw [Nat.cast_pow, Nat.cast_pow, natCast_bnModSub _ _ hN]
  push_cast [ZMod.natCast_mod]
  have hbase : (k : ZMod N) * g ^ x + g ^ b - k * g ^ x = g ^ b := by ring
  rw [hbase, ← pow_mul, ← pow_add, ← pow_mul, ← pow_mul]
  congr 1
  ring

/-- No power of `g` is 0. -/
theorem Group.Sound.pow_mod_ne_zero {G : Group} (hG : G.Sound) (n : ℕ) : G.g ^ n % G.N ≠ 0 := by
  intro h
  have hdvd : G.N ∣ G.g ^ n := Nat.dvd_of_mod_eq_zero h
  have hone : G.N = 1 := Nat.Coprime.eq_one_of_dvd (hG.coprime.pow_left n).symm hdvd
  have := hG.one_lt
  omega

/-- A remainder fits its encoding. -/
theorem Group.Sound.mod_fits {G : Group} (hG : G.Sound) (n : ℕ) : n % G.N < 256 ^ kNBytes :=
  (Nat.mod_lt n (by have := hG.one_lt; omega)).trans hG.N_fits

/-! ## What each function returns -/

section Values

variable (H : Hash) {G : Group} (hG : G.Sound)
include hG

theorem Group.Sound.computeK_eq : ∃ k, computeK H G = some k ∧ k < 256 ^ 32 := by
  refine ⟨bnFromBytes (H (toBE kNBytes G.N ++ toBE kNBytes G.g)).toList, ?_, ?_⟩
  · rw [computeK, bnToBytes_of_lt hG.N_fits, bnToBytes_of_lt hG.g_fits]
    rfl
  · have hlt := ofBE_lt (H (toBE kNBytes G.N ++ toBE kNBytes G.g)).toList
    rwa [Vector.length_toList] at hlt

theorem Group.Sound.computeVerifierWithSalt_eq (username password salt : Bytes) :
    computeVerifierWithSalt H G username password salt =
      some ⟨salt, toBE kNBytes (G.g ^ computeX H salt username password % G.N)⟩ := by
  rw [computeVerifierWithSalt, bnModExp_eq, bnToBytes_of_lt (hG.mod_fits _)]
  rfl

theorem Group.Sound.serverBegin_eq {k : ℕ} (hk : computeK H G = some k) (verifierBytes : Bytes)
    (b : ℕ) : serverBegin H G verifierBytes b =
      some ⟨b, bnFromBytes verifierBytes, toBE kNBytes
        ((k * bnFromBytes verifierBytes % G.N + G.g ^ b % G.N) % G.N)⟩ := by
  rw [serverBegin, hk, Option.bind_eq_bind, Option.bind_some, bnModExp_eq]
  dsimp only
  rw [bnToBytes_of_lt (hG.mod_fits _)]
  rfl

/-- Every verifier has a challenge, with a B of full width. -/
theorem Group.Sound.exists_serverBegin (verifierBytes : Bytes) (b : ℕ) :
    ∃ challenge, serverBegin H G verifierBytes b = some challenge ∧
      challenge.bBytes.length = kNBytes := by
  obtain ⟨k, hk, -⟩ := hG.computeK_eq H
  refine ⟨_, hG.serverBegin_eq H hk verifierBytes b, ?_⟩
  rw [length_toBE]

/-- The server on an A and a u that are not 0. -/
theorem Group.Sound.serverVerify_eq (challenge : ServerChallenge) {aBytes : Bytes}
    (clientM1 : Bytes) (hA : bnFromBytes aBytes % G.N ≠ 0)
    (hu : computeU H aBytes challenge.bBytes ≠ 0) {K : Digest}
    (hK : K = H (toBE kNBytes ((bnFromBytes aBytes *
      (challenge.v ^ computeU H aBytes challenge.bBytes % G.N) % G.N) ^ challenge.b % G.N))) :
    serverVerify H G challenge aBytes clientM1 = some
      (if (computeM1 H aBytes challenge.bBytes K).toList = clientM1 then
        { ok := true, K,
          M2 := (computeM2 H aBytes (computeM1 H aBytes challenge.bBytes K) K).toList }
      else {}) := by
  rw [serverVerify, if_neg hA, if_neg hu]
  dsimp only
  rw [bnModExp_eq, bnModExp_eq, bnToBytes_of_lt (hG.mod_fits _), Option.bind_eq_bind,
    Option.bind_some, ← hK]
  by_cases hM1 : (computeM1 H aBytes challenge.bBytes K).toList = clientM1
  · rw [if_pos hM1, (constantTimeEqual_iff _ _).mpr hM1]
    rfl
  · have hne : constantTimeEqual (computeM1 H aBytes challenge.bBytes K).toList clientM1 =
        false := by
      rw [← Bool.not_eq_true, constantTimeEqual_iff]
      exact hM1
    rw [if_neg hM1, hne]
    rfl

/-- The check of a proof never throws. -/
theorem Group.Sound.serverVerify_isSome (challenge : ServerChallenge) (aBytes clientM1 : Bytes) :
    (serverVerify H G challenge aBytes clientM1).isSome := by
  by_cases hA : bnFromBytes aBytes % G.N = 0
  · rw [serverVerify, if_pos hA]
    rfl
  · by_cases hu : computeU H aBytes challenge.bBytes = 0
    · rw [serverVerify, if_neg hA, if_pos hu]
      rfl
    · rw [hG.serverVerify_eq H challenge clientM1 hA hu rfl]
      rfl

/-- The client on a B that is not 0. -/
theorem Group.Sound.clientRespond_eq {k : ℕ} (hk : computeK H G = some k)
    (username password salt : Bytes) {bBytes : Bytes} (a : ℕ)
    (hB : bnFromBytes bBytes % G.N ≠ 0) {aBytes : Bytes} {K : Digest}
    (ha : aBytes = toBE kNBytes (G.g ^ a % G.N))
    (hK : K = H (toBE kNBytes (bnModSub (bnFromBytes bBytes)
      (k * (G.g ^ computeX H salt username password % G.N) % G.N) G.N ^
        (a + computeU H aBytes bBytes * computeX H salt username password) % G.N))) :
    clientRespond H G username password salt bBytes a =
      some ⟨aBytes, computeM1 H aBytes bBytes K, K⟩ := by
  rw [clientRespond, hk, Option.bind_eq_bind, Option.bind_some, if_neg hB, bnModExp_eq,
    bnToBytes_of_lt (hG.mod_fits _), Option.bind_eq_bind, Option.bind_some, ← ha]
  dsimp only
  rw [bnModExp_eq, bnModExp_eq, bnToBytes_of_lt (hG.mod_fits _), Option.bind_some, ← hK]
  rfl

end Values

/-! ## Completeness -/

/-- An honest exchange in any sound group, without the wire. -/
theorem Group.Sound.exchange {G : Group} (hG : G.Sound) (H : Hash)
    (username password salt : Bytes) (a b : ℕ) :
    ∃ reg challenge, computeVerifierWithSalt H G username password salt = some reg ∧
      reg.salt = salt ∧ serverBegin H G reg.verifier b = some challenge ∧
      challenge.bBytes.length = kNBytes ∧
      (bnFromBytes challenge.bBytes % G.N ≠ 0 →
        ∃ proof, clientRespond H G username password salt challenge.bBytes a = some proof ∧
          proof.aBytes.length = kNBytes ∧
          (computeU H proof.aBytes challenge.bBytes ≠ 0 →
            serverVerify H G challenge proof.aBytes proof.M1.toList =
              some { ok := true, K := proof.K,
                     M2 := (computeM2 H proof.aBytes proof.M1 proof.K).toList })) := by
  obtain ⟨k, hk, -⟩ := hG.computeK_eq H
  have hpos : 0 < G.N := Nat.lt_trans Nat.zero_lt_one hG.one_lt
  have hregister := hG.computeVerifierWithSalt_eq H username password salt
  generalize hx : computeX H salt username password = x at hregister
  obtain ⟨verifier, hverifier⟩ : ∃ bytes, bytes = toBE kNBytes (G.g ^ x % G.N) := ⟨_, rfl⟩
  have hv : bnFromBytes verifier = G.g ^ x % G.N := by
    rw [hverifier, bnFromBytes_toBE (hG.mod_fits _)]
  have hbegin := hG.serverBegin_eq H hk verifier b
  rw [hv] at hbegin
  rw [← hverifier] at hregister
  -- what goes over the wire, and what either side reads back
  obtain ⟨bBytes, hbBytes⟩ : ∃ bytes, bytes =
      toBE kNBytes ((k * (G.g ^ x % G.N) % G.N + G.g ^ b % G.N) % G.N) := ⟨_, rfl⟩
  obtain ⟨aBytes, haBytes⟩ : ∃ bytes, bytes = toBE kNBytes (G.g ^ a % G.N) := ⟨_, rfl⟩
  have hB : bnFromBytes bBytes = (k * (G.g ^ x % G.N) % G.N + G.g ^ b % G.N) % G.N := by
    rw [hbBytes, bnFromBytes_toBE (hG.mod_fits _)]
  have hA : bnFromBytes aBytes = G.g ^ a % G.N := by
    rw [haBytes, bnFromBytes_toBE (hG.mod_fits _)]
  have hA0 : bnFromBytes aBytes % G.N ≠ 0 := by
    rw [hA, Nat.mod_mod]
    exact hG.pow_mod_ne_zero a
  rw [← hbBytes] at hbegin
  refine ⟨_, _, hregister, rfl, hbegin, by rw [hbBytes, length_toBE], fun hB0 => ?_⟩
  have hrespond := hG.clientRespond_eq H hk username password salt a hB0 haBytes rfl
  refine ⟨_, hrespond, by rw [haBytes, length_toBE], fun hu => ?_⟩
  rw [hG.serverVerify_eq H ⟨b, G.g ^ x % G.N, bBytes⟩ _ hA0 hu rfl]
  dsimp only
  rw [hA, hB, hx, secret_agree hpos G.g k x a b, if_pos rfl]

/-- **SRP-6a completeness.**  With the constants of the source, the server accepts an honest
    client and the client the server's answer, both holding the same K; it is the same after
    all three messages have been encoded and decoded. -/
theorem srp_complete (H : Hash) (username password : Bytes) {salt token : Bytes} (a b : ℕ)
    (hsalt : salt.length ≤ 65535) (htoken : token.length ≤ 65535) :
    ∃ reg challenge, computeVerifierWithSalt H kGroup username password salt = some reg ∧
      serverBegin H kGroup reg.verifier b = some challenge ∧
      (bnFromBytes challenge.bBytes % kGroupN ≠ 0 →
        ∃ proof,
          clientRespond H kGroup username password reg.salt challenge.bBytes a = some proof ∧
          (computeU H proof.aBytes challenge.bBytes ≠ 0 →
            ∃ result,
              serverVerify H kGroup challenge proof.aBytes proof.M1.toList = some result ∧
              result.ok = true ∧ result.K = proof.K ∧
              clientVerifyServer H proof result.M2 = true ∧
              ∃ d₁ d₂ d₃,
                LoginProto.decode (LoginProto.encodeServerChallenge reg.salt challenge.bBytes) =
                  some d₁ ∧
                clientRespond H kGroup username password d₁.salt d₁.B a = some proof ∧
                LoginProto.decode (LoginProto.encodeClientProof proof.aBytes proof.M1.toList) =
                  some d₂ ∧
                serverVerify H kGroup challenge d₂.A d₂.M1.toList = some result ∧
                LoginProto.decode (LoginProto.encodeServerProof result.M2 token) = some d₃ ∧
                clientVerifyServer H proof d₃.M2.toList = true)) := by
  obtain ⟨reg, challenge, hreg, rfl, hbegin, hlenB, hrest⟩ :=
    kGroup_sound.exchange H username password salt a b
  refine ⟨reg, challenge, hreg, hbegin, fun hB => ?_⟩
  obtain ⟨proof, hproof, hlenA, hrest⟩ := hrest hB
  refine ⟨proof, hproof, fun hu => ?_⟩
  have hverify := hrest hu
  have hclient : clientVerifyServer H proof
      (computeM2 H proof.aBytes proof.M1 proof.K).toList = true :=
    (constantTimeEqual_iff _ _).mpr rfl
  have hkN : kNBytes < 2 ^ 32 := by decide
  refine ⟨_, hverify, rfl, rfl, hclient, _, _, _,
    LoginProto.decode_encodeServerChallenge (Nat.lt_succ_of_le hsalt) (hlenB ▸ hkN), hproof,
    LoginProto.decode_encodeClientProof _ (hlenA ▸ hkN), hverify,
    LoginProto.decode_encodeServerProof _ (Nat.lt_succ_of_le htoken), hclient⟩

/-- An exchange with the ephemerals 1. -/
theorem srp_complete_one : ∃ reg challenge proof result,
    computeVerifierWithSalt unitHash kGroup [] [] [] = some reg ∧
    serverBegin unitHash kGroup reg.verifier 1 = some challenge ∧
    clientRespond unitHash kGroup [] [] reg.salt challenge.bBytes 1 = some proof ∧
    serverVerify unitHash kGroup challenge proof.aBytes proof.M1.toList = some result ∧
    result.ok = true := by
  obtain ⟨reg, challenge, hreg, hbegin, hrest⟩ :=
    srp_complete unitHash [] [] 1 1 (show ([] : Bytes).length ≤ 65535 by decide)
      (show ([] : Bytes).length ≤ 65535 by decide)
  have hB : ((computeVerifierWithSalt unitHash kGroup [] [] []).bind fun reg =>
      (serverBegin unitHash kGroup reg.verifier 1).map fun challenge =>
        bnFromBytes challenge.bBytes % kGroupN) = some 4 := by decide +kernel
  rw [hreg, Option.bind_some, hbegin, Option.map_some] at hB
  obtain ⟨proof, hproof, hrest⟩ := hrest (by rw [Option.some.inj hB]; decide)
  have hu : computeU unitHash proof.aBytes challenge.bBytes ≠ 0 := by
    rw [computeU, unitHash]
    decide
  obtain ⟨result, hverify, hok, -⟩ := hrest hu
  exact ⟨reg, challenge, proof, result, hreg, hbegin, hproof, hverify, hok⟩

end Netsrv.Srp6
