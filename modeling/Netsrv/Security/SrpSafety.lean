/-
  What a client can do to `server_verify`.

  A comes off the wire as any number of bytes: it goes into the hashes as it is and into the
  arithmetic modulo N.  Where N is prime the residues are a field, so a product of what the
  two guards let through and a verifier that is not 0 is not 0, nor is any power of it.
-/
import Netsrv.Security.SrpCompleteness
import Mathlib.Tactic.NormNum.Prime

namespace Netsrv.Srp6

open ByteCodec

/-- `S = (A * v^u)^b mod N`, of the bytes the client sent. -/
def serverSecret (H : Hash) (G : Group) (challenge : ServerChallenge) (aBytes : Bytes) : ℕ :=
  (bnFromBytes aBytes * challenge.v ^ computeU H aBytes challenge.bBytes) ^ challenge.b % G.N

/-- `H(A | B | H(pad256(S)))`: the proof of whoever knows S. -/
def expectedM1 (H : Hash) (G : Group) (challenge : ServerChallenge) (aBytes : Bytes) : Digest :=
  computeM1 H aBytes challenge.bBytes
    (H (toBE kNBytes (serverSecret H G challenge aBytes)))

section Safety

variable (H : Hash) {G : Group}

/-- The server reduces modulo N at every step; S is the same. -/
theorem serverSecret_eq (challenge : ServerChallenge) (aBytes : Bytes) :
    (bnFromBytes aBytes * (challenge.v ^ computeU H aBytes challenge.bBytes % G.N) % G.N) ^
      challenge.b % G.N = serverSecret H G challenge aBytes := by
  rw [serverSecret, ← Nat.pow_mod, Nat.pow_mod, Nat.mul_mod_mod, ← Nat.pow_mod]

/-- A and v that are not 0 leave no way to make S 0. -/
theorem serverSecret_ne_zero (hN : G.N.Prime) {challenge : ServerChallenge}
    (hv : challenge.v % G.N ≠ 0) {aBytes : Bytes} (hA : bnFromBytes aBytes % G.N ≠ 0) :
    serverSecret H G challenge aBytes ≠ 0 := by
  intro hS
  have hdvd := hN.dvd_of_dvd_pow (Nat.dvd_of_mod_eq_zero hS)
  rcases (hN.dvd_mul).mp hdvd with hdvd | hdvd
  · exact hA (Nat.mod_eq_zero_of_dvd hdvd)
  · exact hv (Nat.mod_eq_zero_of_dvd (hN.dvd_of_dvd_pow hdvd))

/-- The two guards and the proof are all that is checked. -/
theorem serverVerify_ok_iff (hG : G.Sound) {challenge : ServerChallenge}
    {aBytes clientM1 : Bytes} {result : ServerResult}
    (h : serverVerify H G challenge aBytes clientM1 = some result) :
    result.ok = true ↔ bnFromBytes aBytes % G.N ≠ 0 ∧
      computeU H aBytes challenge.bBytes ≠ 0 ∧
      clientM1 = (expectedM1 H G challenge aBytes).toList := by
  by_cases hA : bnFromBytes aBytes % G.N = 0
  · rw [serverVerify, if_pos hA] at h
    obtain rfl := Option.some.inj h
    exact iff_of_false (by decide) fun hall => hall.1 hA
  · by_cases hu : computeU H aBytes challenge.bBytes = 0
    · rw [serverVerify, if_neg hA, if_pos hu] at h
      obtain rfl := Option.some.inj h
      exact iff_of_false (by decide) fun hall => hall.2.1 hu
    · rw [hG.serverVerify_eq H challenge clientM1 hA hu rfl, serverSecret_eq,
        ← expectedM1] at h
      obtain rfl := Option.some.inj h
      by_cases hM1 : (expectedM1 H G challenge aBytes).toList = clientM1
      · exact iff_of_true (by rw [if_pos hM1]) ⟨hA, hu, hM1.symm⟩
      · refine iff_of_false ?_ fun hall => hM1 hall.2.2.symm
        rw [if_neg hM1]
        decide

end Safety

end Netsrv.Srp6
