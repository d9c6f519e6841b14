/-
  What a proof that is accepted says about the exchange it was made in (a reduction: nothing is
  assumed of the hash).

  M1 is `H(A | B | K)` and M2 is `H(A | M1 | K)`, and A may be any number of bytes.  B, M1 and K
  have a fixed width, so the parts can be told apart from the end.  Two ends that take each
  other's digests have therefore seen the same exchange, or the two inputs they have hashed are
  a collision of SHA-256, which each statement names.

  * `proof_binds`: one M1 that the server accepts on two challenges.
  * `mutual_agreement`: a client that believes the server, and the server that accepted a proof.
-/
import Netsrv.Security.SrpSafety

namespace Netsrv.Srp6

open ByteCodec

/-- Two inputs with one digest. -/
def Collides (H : Hash) (x y : Bytes) : Prop := x ≠ y ∧ H x = H y

instance (H : Hash) (x y : Bytes) : Decidable (Collides H x y) :=
  inferInstanceAs (Decidable (_ ∧ _))

/-- The inputs of M1 and of M2: `middle` is B in the one and M1 in the other. -/
def transcript (aBytes middle : Bytes) (K : Digest) : Bytes := aBytes ++ middle ++ K.toList

/-- `K = H(pad256(S))` of the server. -/
def serverKey (H : Hash) (G : Group) (challenge : ServerChallenge) (aBytes : Bytes) : Digest :=
  H (toBE kNBytes (serverSecret H G challenge aBytes))

/-- `S = (B - k*g^x) ^ (a + u*x) mod N`. -/
def clientSecret (H : Hash) (G : Group) (username password salt bBytes : Bytes) (a : ℕ) : ℕ :=
  let k := (computeK H G).getD 0
  let x := computeX H salt username password
  let u := computeU H (toBE kNBytes (G.g ^ a % G.N)) bBytes
  bnModSub (bnFromBytes bBytes) (k * (G.g ^ x % G.N) % G.N) G.N ^ (a + u * x) % G.N

variable {H : Hash} {G : Group}

theorem eq_or_collides {x y : Bytes} (h : H x = H y) : x = y ∨ Collides H x y :=
  (em (x = y)).imp_right fun hne => ⟨hne, h⟩

theorem computeM1_eq (aBytes bBytes : Bytes) (K : Digest) :
    computeM1 H aBytes bBytes K = H (transcript aBytes bBytes K) := rfl

/-- The parts of a transcript, if the one in the middle has a fixed width. -/
theorem transcript_inj {aBytes aBytes' middle middle' : Bytes} {K K' : Digest}
    (hmiddle : middle.length = middle'.length)
    (h : transcript aBytes middle K = transcript aBytes' middle' K') :
    aBytes = aBytes' ∧ middle = middle' ∧ K = K' := by
  have hK : K.toList.length = K'.toList.length := by
    rw [Vector.length_toList, Vector.length_toList]
  obtain ⟨hfront, hback⟩ := List.append_inj' h hK
  obtain ⟨ha, hm⟩ := List.append_inj' hfront hmiddle
  exact ⟨ha, hm, Vector.toList_inj.mp hback⟩

/-- If A is known to be the same, the middle needs no width. -/
theorem transcript_inj_middle {aBytes middle middle' : Bytes} {K K' : Digest}
    (h : transcript aBytes middle K = transcript aBytes middle' K') : middle = middle' := by
  have hK : K.toList.length = K'.toList.length := by
    rw [Vector.length_toList, Vector.length_toList]
  exact List.append_cancel_left (List.append_inj' h hK).1

/-- What the server has when it accepts. -/
theorem Group.Sound.serverVerify_accepts (hG : G.Sound) {challenge : ServerChallenge}
    {aBytes clientM1 : Bytes} {result : ServerResult}
    (h : serverVerify H G challenge aBytes clientM1 = some result) (hok : result.ok = true) :
    clientM1 = (H (transcript aBytes challenge.bBytes result.K)).toList ∧
      result.K = serverKey H G challenge aBytes ∧
      result.M2 = (H (transcript aBytes clientM1 result.K)).toList := by
  obtain ⟨hA, hu, hM1⟩ := (serverVerify_ok_iff H hG h).mp hok
  rw [hG.serverVerify_eq H challenge clientM1 hA hu rfl, serverSecret_eq, ← expectedM1,
    if_pos hM1.symm] at h
  obtain rfl := Option.some.inj h
  refine ⟨hM1, rfl, ?_⟩
  rw [hM1]
  rfl

/-- What the client has when it has responded. -/
theorem Group.Sound.clientRespond_responds (hG : G.Sound) {username password salt bBytes : Bytes}
    {a : ℕ} {proof : ClientProof}
    (h : clientRespond H G username password salt bBytes a = some proof) :
    proof.K = H (toBE kNBytes (clientSecret H G username password salt bBytes a)) ∧
      proof.M1 = H (transcript proof.aBytes bBytes proof.K) := by
  obtain ⟨k, hk, -⟩ := hG.computeK_eq H
  by_cases hB : bnFromBytes bBytes % G.N = 0
  · rw [clientRespond, hk, Option.bind_eq_bind, Option.bind_some, if_pos hB] at h
    cases h
  · obtain ⟨aBytes, ha⟩ : ∃ bytes, bytes = toBE kNBytes (G.g ^ a % G.N) := ⟨_, rfl⟩
    obtain ⟨K, hK⟩ : ∃ K,
        K = H (toBE kNBytes (clientSecret H G username password salt bBytes a)) := ⟨_, rfl⟩
    have hsecret := hK
    rw [clientSecret, hk, Option.getD_some, ← ha] at hsecret
    rw [hG.clientRespond_eq H hk username password salt a hB ha hsecret] at h
    obtain rfl := Option.some.inj h
    exact ⟨hK, computeM1_eq _ _ _⟩

/-- Equal keys come of equal secrets. -/
theorem secret_eq_or_collides {S S' : ℕ} (hS : S < 256 ^ kNBytes) (hS' : S' < 256 ^ kNBytes)
    (h : H (toBE kNBytes S) = H (toBE kNBytes S')) :
    S = S' ∨ Collides H (toBE kNBytes S) (toBE kNBytes S') := by
  refine (eq_or_collides h).imp_left fun heq => ?_
  rw [← bnFromBytes_toBE hS, heq, bnFromBytes_toBE hS']

/-- **A proof that the server accepts twice is a proof of the same exchange**: the same A, B and
    S, unless SHA-256 collides. -/
theorem proof_binds (H : Hash) {G : Group} (hG : G.Sound) {challenge challenge' : ServerChallenge}
    (hwidth : challenge.bBytes.length = challenge'.bBytes.length)
    {aBytes aBytes' clientM1 : Bytes} {result result' : ServerResult}
    (h : serverVerify H G challenge aBytes clientM1 = some result) (hok : result.ok = true)
    (h' : serverVerify H G challenge' aBytes' clientM1 = some result') (hok' : result'.ok = true) :
    (aBytes = aBytes' ∧ challenge.bBytes = challenge'.bBytes ∧ result.K = result'.K ∧
        serverSecret H G challenge aBytes = serverSecret H G challenge' aBytes') ∨
      Collides H (transcript aBytes challenge.bBytes result.K)
        (transcript aBytes' challenge'.bBytes result'.K) ∨
      Collides H (toBE kNBytes (serverSecret H G challenge aBytes))
        (toBE kNBytes (serverSecret H G challenge' aBytes')) := by
  obtain ⟨hM1, hK, -⟩ := hG.serverVerify_accepts h hok
  obtain ⟨hM1', hK', -⟩ := hG.serverVerify_accepts h' hok'
  rcases eq_or_collides (Vector.toList_inj.mp (hM1.symm.trans hM1')) with heq | hcollides
  · obtain ⟨ha, hb, hkey⟩ := transcript_inj hwidth heq
    have hsecret := hK.symm.trans (hkey.trans hK')
    rcases secret_eq_or_collides (hG.mod_fits _) (hG.mod_fits _) hsecret with hS | hcollides
    · exact Or.inl ⟨ha, hb, hkey, hS⟩
    · exact Or.inr (Or.inr hcollides)
  · exact Or.inr (Or.inl hcollides)

theorem sound_mod_23 : Group.Sound ⟨23, 2⟩ where
  one_lt := by decide
  N_fits := by decide +kernel
  g_fits := by decide +kernel
  coprime := by decide

/-- With a hash that collides on everything the server takes any proof. -/
theorem accepts_unitHash (v : ℕ) (A : UInt8) (hA : bnFromBytes [A] % 23 ≠ 0) : ∃ result,
    serverVerify unitHash ⟨23, 2⟩ ⟨1, v, []⟩ [A] (unitHash []).toList = some result ∧
      result.ok = true := by
  obtain ⟨result, hresult⟩ := Option.isSome_iff_exists.mp
    (sound_mod_23.serverVerify_isSome unitHash ⟨1, v, []⟩ [A] (unitHash []).toList)
  refine ⟨result, hresult, (serverVerify_ok_iff unitHash sound_mod_23 hresult).mpr ⟨hA, ?_, rfl⟩⟩
  rw [computeU, unitHash]
  decide

/-- One proof of two exchanges is a collision. -/
theorem proof_binds_mod_23 : ∃ result result' : ServerResult,
    Collides unitHash (transcript [3] [] result.K) (transcript [4] [] result'.K) ∨
      Collides unitHash (toBE kNBytes (serverSecret unitHash ⟨23, 2⟩ ⟨1, 5, []⟩ [3]))
        (toBE kNBytes (serverSecret unitHash ⟨23, 2⟩ ⟨1, 7, []⟩ [4])) := by
  obtain ⟨result, hresult, hok⟩ := accepts_unitHash 5 3 (by decide)
  obtain ⟨result', hresult', hok'⟩ := accepts_unitHash 7 4 (by decide)
  have hwidth : (⟨1, 5, []⟩ : ServerChallenge).bBytes.length =
      (⟨1, 7, []⟩ : ServerChallenge).bBytes.length := rfl
  refine ⟨result, result',
    (proof_binds unitHash sound_mod_23 hwidth hresult hok hresult' hok').resolve_left ?_⟩
  rintro ⟨ha, -⟩
  cases ha

/-- **A client that believes the server has had its exchange with it.**  Whatever password, salt
    and B the client has used, and whatever A and M1 the server has got, if the client takes the
    M2 of a server that accepted, both have the same A, B, M1, K and S, unless SHA-256 collides. -/
theorem mutual_agreement (H : Hash) {G : Group} (hG : G.Sound)
    {username password salt bBytes : Bytes} {a : ℕ} {proof : ClientProof}
    (hproof : clientRespond H G username password salt bBytes a = some proof)
    {challenge : ServerChallenge} {aBytes clientM1 : Bytes} {result : ServerResult}
    (hverify : serverVerify H G challenge aBytes clientM1 = some result) (hok : result.ok = true)
    (hbelieves : clientVerifyServer H proof result.M2 = true) :
    (proof.aBytes = aBytes ∧ bBytes = challenge.bBytes ∧ proof.M1.toList = clientM1 ∧
        proof.K = result.K ∧ clientSecret H G username password salt bBytes a =
          serverSecret H G challenge aBytes) ∨
      Collides H (transcript proof.aBytes proof.M1.toList proof.K)
        (transcript aBytes clientM1 result.K) ∨
      Collides H (transcript proof.aBytes bBytes proof.K)
        (transcript aBytes challenge.bBytes result.K) ∨
      Collides H (toBE kNBytes (clientSecret H G username password salt bBytes a))
        (toBE kNBytes (serverSecret H G challenge aBytes)) := by
  obtain ⟨hM1, hK, hM2⟩ := hG.serverVerify_accepts hverify hok
  obtain ⟨hCK, hCM1⟩ := hG.clientRespond_responds hproof
  have hanswer : H (transcript proof.aBytes proof.M1.toList proof.K) =
      H (transcript aBytes clientM1 result.K) := by
    apply Vector.toList_inj.mp
    rw [← hM2]
    exact (constantTimeEqual_iff _ _).mp hbelieves
  rcases eq_or_collides hanswer with heq | hcollides
  · have hwidth : proof.M1.toList.length = clientM1.length := by
      rw [hM1, Vector.length_toList, Vector.length_toList]
    obtain ⟨rfl, hsame, hkey⟩ := transcript_inj hwidth heq
    -- with A and K the same, equal proofs are equal Bs
    have hproofs : H (transcript proof.aBytes bBytes proof.K) =
        H (transcript proof.aBytes challenge.bBytes result.K) := by
      rw [← hCM1]
      exact Vector.toList_inj.mp (hsame.trans hM1)
    rcases eq_or_collides hproofs with heq | hcollides
    · have hsecret := hCK.symm.trans (hkey.trans hK)
      rcases secret_eq_or_collides (hG.mod_fits _) (hG.mod_fits _) hsecret with hS | hcollides
      · exact Or.inl ⟨rfl, transcript_inj_middle heq, hsame, hkey, hS⟩
      · exact Or.inr (Or.inr (Or.inr hcollides))
    · exact Or.inr (Or.inr (Or.inl hcollides))
  · exact Or.inr (Or.inl hcollides)

/-- A client that believes an exchange that was not its own has found a collision. -/
theorem mutual_agreement_mod_23 : ∃ (proof : ClientProof) (result : ServerResult),
    Collides unitHash (transcript proof.aBytes proof.M1.toList proof.K)
        (transcript [3] (unitHash []).toList result.K) ∨
      Collides unitHash (transcript proof.aBytes [5] proof.K) (transcript [3] [] result.K) ∨
      Collides unitHash (toBE kNBytes (clientSecret unitHash ⟨23, 2⟩ [1] [2] [] [5] 3))
        (toBE kNBytes (serverSecret unitHash ⟨23, 2⟩ ⟨1, 5, []⟩ [3])) := by
  obtain ⟨k, hk, -⟩ := sound_mod_23.computeK_eq unitHash
  obtain ⟨proof, hproof⟩ : ∃ proof,
      clientRespond unitHash ⟨23, 2⟩ [1] [2] [] [5] 3 = some proof :=
    ⟨_, sound_mod_23.clientRespond_eq unitHash hk [1] [2] [] 3 (by decide) rfl rfl⟩
  obtain ⟨result, hresult, hok⟩ := accepts_unitHash 5 3 (by decide)
  have hbelieves : clientVerifyServer unitHash proof result.M2 = true := by
    apply (constantTimeEqual_iff _ _).mpr
    rw [(sound_mod_23.serverVerify_accepts hresult hok).2.2]
    rfl
  refine ⟨proof, result,
    (mutual_agreement unitHash sound_mod_23 hproof hresult hok hbelieves).resolve_left ?_⟩
  rintro ⟨-, hb, -⟩
  cases hb

end Netsrv.Srp6
