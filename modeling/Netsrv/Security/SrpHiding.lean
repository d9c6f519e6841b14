/-
  What the B of a challenge tells about the verifier it was made from.

  B is `k*v + g^b` modulo N, so it leaves a second verifier possible exactly when
  `k*(v1 - v2) + g^b1` is a power of `g`.  In the group of the source N is 7 modulo 8 and
  `g` is 2, which is a square then, so only squares are powers of `g` and every B that is
  seen rules out about half of the verifiers.

  * `hidden_iff_isSquare`: exactly which pairs of verifiers B does not tell apart.
  * `not_hidden`: with the constants of the source, and without assuming them prime, there
    is a pair that it does.
-/
import Netsrv.Lib.SafePrime
import Netsrv.Security.SrpCompleteness
import Mathlib.Tactic.NormNum.Prime

namespace Netsrv.Srp6

open ByteCodec

/-- What the header of the source says of the group, and which generator it takes. -/
structure Group.SafePrime (G : Group) : Prop extends G.Sound where
  prime : G.N.Prime
  half_prime : (G.N / 2).Prime
  g_eq : G.g = 2
  mod_eight : G.N % 8 = 7

/-- The B that `server_begin` sends for a verifier. -/
def sentB (H : Hash) (G : Group) (verifier : Bytes) (b : ℕ) : Option Bytes :=
  (serverBegin H G verifier b).map ServerChallenge.bBytes

/-- Whoever sees the B of `verifier₁` and `b₁` cannot rule out `verifier₂`. -/
def Hidden (H : Hash) (G : Group) (verifier₁ verifier₂ : Bytes) (b₁ : ℕ) : Prop :=
  ∀ k B, computeK H G = some k → sentB H G verifier₁ b₁ = some B →
    bnFromBytes B % G.N ≠ k * bnFromBytes verifier₂ % G.N →
    ∃ b₂, sentB H G verifier₂ b₂ = some B

section Sent

variable {H : Hash} {G : Group} {k : ℕ}

theorem sentB_eq (hG : G.Sound) (hk : computeK H G = some k) (verifier : Bytes) (b : ℕ) :
    sentB H G verifier b =
      some (toBE kNBytes ((k * bnFromBytes verifier % G.N + G.g ^ b % G.N) % G.N)) := by
  rw [sentB, hG.serverBegin_eq H hk, Option.map_some]

theorem natCast_sentB (verifier : Bytes) (b : ℕ) :
    (((k * bnFromBytes verifier % G.N + G.g ^ b % G.N) % G.N : ℕ) : ZMod G.N) =
      k * (bnFromBytes verifier : ZMod G.N) + (G.g : ZMod G.N) ^ b := by
  push_cast [ZMod.natCast_mod]
  rfl

/-- One B for two verifiers is one equation modulo N. -/
theorem sentB_eq_sentB_iff (hG : G.Sound) (hk : computeK H G = some k)
    (verifier₁ verifier₂ : Bytes) (b₁ b₂ : ℕ) :
    sentB H G verifier₂ b₂ = sentB H G verifier₁ b₁ ↔
      (G.g : ZMod G.N) ^ b₂ =
        k * ((bnFromBytes verifier₁ : ZMod G.N) - bnFromBytes verifier₂) +
          (G.g : ZMod G.N) ^ b₁ := by
  have hbytes {n m : ℕ} : toBE kNBytes (n % G.N) = toBE kNBytes (m % G.N) ↔ n % G.N = m % G.N := by
    refine ⟨fun h => ?_, fun h => by rw [h]⟩
    rw [← bnFromBytes_toBE (hG.mod_fits n), h, bnFromBytes_toBE (hG.mod_fits m)]
  rw [sentB_eq hG hk, sentB_eq hG hk, Option.some_inj, hbytes,
    ← ZMod.natCast_eq_natCast_iff']
  push_cast [ZMod.natCast_mod]
  constructor
  · intro h
    linear_combination h
  · intro h
    linear_combination h

/-- `Hidden` in terms of the powers of `g`. -/
theorem hidden_iff_exists_pow (hG : G.Sound) (hk : computeK H G = some k)
    (verifier₁ verifier₂ : Bytes) (b₁ : ℕ) :
    Hidden H G verifier₁ verifier₂ b₁ ↔
      (k * ((bnFromBytes verifier₁ : ZMod G.N) - bnFromBytes verifier₂) +
          (G.g : ZMod G.N) ^ b₁ ≠ 0 →
        ∃ b₂, (G.g : ZMod G.N) ^ b₂ =
          k * ((bnFromBytes verifier₁ : ZMod G.N) - bnFromBytes verifier₂) +
            (G.g : ZMod G.N) ^ b₁) := by
  -- B is `k * v2` exactly when the difference is 0
  have hzero : bnFromBytes (toBE kNBytes
        ((k * bnFromBytes verifier₁ % G.N + G.g ^ b₁ % G.N) % G.N)) % G.N =
      k * bnFromBytes verifier₂ % G.N ↔
        k * ((bnFromBytes verifier₁ : ZMod G.N) - bnFromBytes verifier₂) +
          (G.g : ZMod G.N) ^ b₁ = 0 := by
    rw [bnFromBytes_toBE (hG.mod_fits _), ← ZMod.natCast_eq_natCast_iff', natCast_sentB]
    push_cast
    constructor
    · intro h
      linear_combination h
    · intro h
      linear_combination h
  have hB := sentB_eq hG hk verifier₁ b₁
  constructor
  · intro h hne
    obtain ⟨b₂, hb₂⟩ := h k _ hk hB fun heq => hne (hzero.mp heq)
    exact ⟨b₂, (sentB_eq_sentB_iff hG hk verifier₁ verifier₂ b₁ b₂).mp (hb₂.trans hB.symm)⟩
  · intro h k' B hk' hB' hne
    obtain rfl : k = k' := Option.some.inj (hk.symm.trans hk')
    obtain rfl := Option.some.inj (hB.symm.trans hB')
    obtain ⟨b₂, hb₂⟩ := h fun heq => hne (hzero.mpr heq)
    exact ⟨b₂, ((sentB_eq_sentB_iff hG hk verifier₁ verifier₂ b₁ b₂).mpr hb₂).trans hB⟩

end Sent

/-- **B hides exactly the verifiers at a square distance.**  The powers of 2 are half of the
    residues, the squares. -/
theorem hidden_iff_isSquare {G : Group} (hG : G.SafePrime) {H : Hash} {k : ℕ}
    (hk : computeK H G = some k) (verifier₁ verifier₂ : Bytes) (b₁ : ℕ) :
    Hidden H G verifier₁ verifier₂ b₁ ↔
      IsSquare (k * ((bnFromBytes verifier₁ : ZMod G.N) - bnFromBytes verifier₂) + 2 ^ b₁) := by
  have : Fact G.N.Prime := ⟨hG.prime⟩
  rw [hidden_iff_exists_pow hG.toSound hk, hG.g_eq, Nat.cast_ofNat]
  generalize (k : ZMod G.N) * ((bnFromBytes verifier₁ : ZMod G.N) - bnFromBytes verifier₂) +
    2 ^ b₁ = w
  by_cases hw : w = 0
  · simp [hw]
  · rw [← SafePrime.exists_two_pow_iff_isSquare hG.half_prime hG.mod_eight hw]
    simp [hw]

/-- 23 in place of the 2048-bit N: the B of verifier 1 rules out verifier 3. -/
theorem not_hidden_mod_23 : ¬ Hidden unitHash ⟨23, 2⟩ [1] [3] 0 := by
  have hG : Group.SafePrime ⟨23, 2⟩ :=
    { one_lt := by decide, N_fits := by decide +kernel, g_fits := by decide +kernel,
      coprime := by decide, prime := by norm_num, half_prime := by norm_num, g_eq := rfl,
      mod_eight := rfl }
  have hk : computeK unitHash ⟨23, 2⟩ = some 1 := by decide +kernel
  rw [hidden_iff_isSquare hG hk]
  show ¬ IsSquare (((1 : ℕ) : ZMod 23) * (((1 : ℕ) : ZMod 23) - ((3 : ℕ) : ZMod 23)) + 2 ^ 0)
  decide

/-! ## The constants of the source -/

theorem kGroup_mod_eight : kGroup.N % 8 = 7 := by decide +kernel

/-- One half of `hidden_iff_isSquare` needs no prime: a B that rules out nothing leaves a
    difference of Jacobi symbol 1. -/
theorem jacobiSym_of_hidden {H : Hash} {k : ℕ} (hk : computeK H kGroup = some k)
    {verifier₁ verifier₂ : Bytes} {b₁ : ℕ} (h : Hidden H kGroup verifier₁ verifier₂ b₁) {z : ℤ}
    (hz : (z : ZMod kGroup.N) =
      k * ((bnFromBytes verifier₁ : ZMod kGroup.N) - bnFromBytes verifier₂) + 2 ^ b₁)
    (hz0 : (z : ZMod kGroup.N) ≠ 0) : jacobiSym z kGroup.N = 1 := by
  have hg : (kGroup.g : ZMod kGroup.N) = 2 := rfl
  rw [hidden_iff_exists_pow kGroup_sound hk, hg, ← hz] at h
  obtain ⟨b₂, hb₂⟩ := h hz0
  exact SafePrime.jacobiSym_of_two_pow kGroup_mod_eight hb₂

/-- The verifier to tell apart from 1: with it, `k*(v1 - v2) + 1` is -1. -/
theorem exists_telling_verifier {N k : ℕ} (hN : k + 2 < N) (hk : k.Coprime N) :
    ∃ v₂, 1 ≤ v₂ ∧ v₂ < N ∧ (k : ZMod N) * (((1 : ℕ) : ZMod N) - v₂) + 1 = -1 := by
  have : NeZero N := ⟨by omega⟩
  have hinv : (k : ZMod N) * (k : ZMod N)⁻¹ = 1 := ZMod.coe_mul_inv_eq_one k hk
  let v₂ : ZMod N := 1 + 2 * (k : ZMod N)⁻¹
  have hcast : ((v₂.val : ℕ) : ZMod N) = v₂ := ZMod.natCast_zmod_val v₂
  refine ⟨v₂.val, Nat.one_le_iff_ne_zero.mpr fun h0 => ?_, ZMod.val_lt v₂, ?_⟩
  · -- otherwise k would be -2
    rw [h0, Nat.cast_zero] at hcast
    have hk2 : ((k + 2 : ℕ) : ZMod N) = 0 := by
      push_cast
      linear_combination (-(k : ZMod N)) * hcast - 2 * hinv
    have hle := Nat.le_of_dvd (by omega) ((ZMod.natCast_eq_zero_iff (k + 2) N).mp hk2)
    omega
  · rw [hcast, Nat.cast_one]
    linear_combination (-2) * hinv

/-- For every hash whose `k` is a unit there are two verifiers that B tells apart. -/
theorem not_hidden : (∃ H k, computeK H kGroup = some k ∧ k.Coprime kGroup.N) ∧
    ∀ H k, computeK H kGroup = some k → k.Coprime kGroup.N →
      ∃ v₂, 1 ≤ v₂ ∧ v₂ < kGroup.N ∧ ¬ Hidden H kGroup (toBE kNBytes 1) (toBE kNBytes v₂) 0 := by
  refine ⟨⟨unitHash, 1, by decide +kernel, Nat.coprime_one_left _⟩, fun H k hk hcoprime => ?_⟩
  obtain ⟨k', hk', hlt⟩ := kGroup_sound.computeK_eq H
  obtain rfl : k = k' := Option.some.inj (hk.symm.trans hk')
  have hN : 256 ^ 32 + 2 < kGroup.N := by decide +kernel
  obtain ⟨v₂, hpos, hv₂, hneg⟩ := exists_telling_verifier (by omega) hcoprime
  have hread {v : ℕ} (hv : v < kGroup.N) : bnFromBytes (toBE kNBytes v) = v :=
    bnFromBytes_toBE (hv.trans kGroup_sound.N_fits)
  have hneg_cast : ((-1 : ℤ) : ZMod kGroup.N) = -1 := by push_cast; rfl
  have hne : ((-1 : ℤ) : ZMod kGroup.N) ≠ 0 := by
    have : Fact (1 < kGroup.N) := ⟨kGroup_sound.one_lt⟩
    rw [hneg_cast]
    exact neg_ne_zero.mpr one_ne_zero
  refine ⟨v₂, hpos, hv₂, fun hhidden => ?_⟩
  have hsym := jacobiSym_of_hidden hk hhidden (z := -1)
    (by rw [hneg_cast, hread kGroup_sound.one_lt, hread hv₂, pow_zero, hneg]) hne
  rw [SafePrime.jacobiSym_neg_one kGroup_mod_eight] at hsym
  cases hsym

end Netsrv.Srp6
