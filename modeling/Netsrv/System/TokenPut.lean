/-
  A client that is sent a `ServerProof` holds a live token, unless the put was lost.

  `handle_proof` waits for the put of the token and goes on whatever it returns.  In a run in
  which no such put is lost, every token sent was put before, for the user of its session
  and for the whole lifetime, and whoever takes it in time gets that user
  (`proof_after_put`).  One lost put is enough for a `ServerProof` with a token that the
  store has never seen (`proof_without_put`).

  * `Backend.Keeps`: an executed put was answered with `Ok`, and what a key stands for is in
    the store until it expires.
  * `step_proofs`: the only step that sends a `ServerProof` is the one after the put.
-/
import Netsrv.System.Messages
import Netsrv.System.Provenance

namespace Netsrv.System

open StoreWire StoreHandler Custody Custody.History LoginHandler Srp6

/-! ## What the store keeps -/

namespace Backend

structure Keeps (b : Backend) : Prop where
  executed : ∀ cid c t a, b.calls cid = some c → c.request.op = .put → c.answer = some (t, a) →
    a = some .ok ∧ ∃ n, History.issue b.history n = some (c.request.key,
      { origin := c.party, value := c.request.value
        expiresAt := t + seconds c.request.ttlSeconds.toNat })
  kept : ∀ key n i, holds b.history key = some n → History.issue b.history n = some (key, i) →
    b.now < i.expiresAt → b.store.find key = some ⟨i.value, i.expiresAt⟩

theorem keeps_init : Keeps {} where
  executed := fun _ _ _ _ h => by cases h
  kept := fun _ _ _ h => by cases h

theorem Keeps.tick {b : Backend} (h : Keeps b) (d : ℕ) : Keeps (b.tick d) where
  executed := h.executed
  kept := fun key n i hn hi hlt =>
    h.kept key n i hn hi (Nat.lt_of_le_of_lt (Nat.le_add_right _ _) hlt)

theorem Keeps.sweep {b : Backend} (h : Keeps b) {it : List SharedStore.Cell}
    (hit : b.store.Walk it) : Keeps (b.sweep it) where
  executed := h.executed
  kept := fun key n i hn hi hlt => by
    have hfind : b.store.find key = some ⟨i.value, i.expiresAt⟩ := h.kept key n i hn hi hlt
    have hlt : b.now < i.expiresAt := hlt
    rw [Backend.sweep, SharedStore.find_sweepExpired hit, hfind, Option.bind_some, if_pos hlt]

theorem Keeps.issue {b : Backend} (h : Keeps b) (cid : ℕ) (party : Party) (request : Decoded) :
    Keeps (b.issue cid party request) where
  executed := fun cid' c t a hc hop hans => by
    rcases Slots.update_cases hc with ⟨-, rfl⟩ | ⟨-, hc⟩
    · cases hans
    · exact h.executed cid' c t a hc hop hans
  kept := h.kept

/-- A put is there at once, and touches no other key. -/
theorem kept_put {b : Backend} (h : Keeps b) (origin : Party) (key value : Bytes) (ttl : ℕ)
    {k : Bytes} {n : ℕ} {i : Issue}
    (hn : holds (.put key ⟨origin, value, b.now + seconds ttl⟩ :: b.history) k = some n)
    (hi : History.issue (.put key ⟨origin, value, b.now + seconds ttl⟩ :: b.history) n =
      some (k, i)) (hlt : b.now < i.expiresAt) :
    (b.store.put b.now key value ttl).find k = some ⟨i.value, i.expiresAt⟩ := by
  rw [SharedStore.find_put]
  rw [holds] at hn
  by_cases hk : k = key
  · rw [if_pos hk] at hn ⊢
    obtain rfl := Option.some.inj hn
    rw [issue_put] at hi
    obtain ⟨-, rfl⟩ := Prod.mk.inj (Option.some.inj hi)
    rfl
  · rw [if_neg hk] at hn ⊢
    obtain ⟨j, hj⟩ := issue_of_holds hn
    obtain ⟨-, rfl⟩ := Prod.mk.inj (Option.some.inj ((issue_cons hj _).symm.trans hi))
    exact h.kept k n j hn hj hlt

/-- A take erases what its key stood for, and no other key. -/
theorem kept_take {b : Backend} (h : Keeps b) {key : Bytes} {m : ℕ}
    (hm : holds b.history key = some m) (cid : ℕ) {k : Bytes} {n : ℕ} {i : Issue}
    (hn : holds (.took cid m :: b.history) k = some n)
    (hi : History.issue b.history n = some (k, i)) (hlt : b.now < i.expiresAt) :
    (b.store.take b.now key).2.find k = some ⟨i.value, i.expiresAt⟩ := by
  rw [holds] at hn
  split at hn
  · cases hn
  · next hne =>
    have hk : k ≠ key := by
      rintro rfl
      exact hne hm
    rw [SharedStore.find_take, if_neg fun hboth => hk hboth.1]
    exact h.kept k n i hn hi hlt

theorem Keeps.put {b : Backend} (h : Keeps b) (origin : Party) (key value : Bytes) (ttl : ℕ) :
    Keeps (b.put origin key value ttl) where
  executed := fun cid c t a hc hop hans => by
    obtain ⟨hok, n, hn⟩ := h.executed cid c t a hc hop hans
    exact ⟨hok, n, issue_cons hn _⟩
  kept := fun _ _ _ hn hi hlt => kept_put h origin key value ttl hn hi hlt

theorem Keeps.exec {b b' : Backend} (h : Keeps b) (hs : Sound b) {cid : ℕ}
    {it : List SharedStore.Cell} (hexec : b.exec cid it = some b') : Keeps b' := by
  obtain ⟨c, a, hc, -, -, -, ha, rfl⟩ := exec_cases hexec
  have heffect := hs.effect cid c it
  refine ⟨fun cid' c' t a' hc' hop hans => ?_, fun k n i hn hi hlt => ?_⟩
  · rcases Slots.update_cases hc' with ⟨-, rfl⟩ | ⟨-, hc'⟩
    · obtain ⟨rfl, rfl⟩ := Prod.mk.inj (Option.some.inj hans)
      rcases heffect with ⟨-, hdispatch, hrec⟩ | ⟨htake, -⟩ | ⟨hnot, -⟩
      · rw [hdispatch] at ha
        exact ⟨ha.symm, count b.history, by rw [hrec, issue_put]⟩
      · rw [hop] at htake
        cases htake
      · exact absurd hop hnot
    · obtain ⟨hok, n, hn⟩ := h.executed cid' c' t a' hc' hop hans
      exact ⟨hok, n, issue_of_suffix (recorded_suffix b cid c) hn⟩
  · dsimp only at hn hi ⊢
    rcases heffect with ⟨-, hdispatch, hrec⟩ | ⟨-, -, m, x, hm, -, -, hdispatch, hrec⟩ |
      ⟨-, hstore, hrec, -⟩
    · rw [hrec] at hn hi
      rw [hdispatch]
      exact kept_put h c.party c.request.key c.request.value _ hn hi hlt
    · rw [hrec] at hn hi
      rw [hdispatch]
      exact kept_take h hm cid hn hi hlt
    · rw [hrec] at hn hi
      rw [hstore]
      exact h.kept k n i hn hi hlt

/-- Whoever takes in time what is left of the last put of a key gets its value. -/
theorem Keeps.take_of_last {b : Backend} (h : Keeps b) {key : Bytes} {n : ℕ} {i : Issue}
    (hi : History.issue b.history n = some (key, i)) (hlast : ∀ m ∈ puts b.history key, m ≤ n)
    (hleft : n ∉ taken b.history) (hlt : b.now < i.expiresAt) :
    (b.store.take b.now key).1 = some i.value := by
  have hfind := h.kept key n i (holds_of_last hi hlast hleft) hi hlt
  rw [SharedStore.take_eq, SharedStore.get_eq, hfind, Option.bind_some, if_pos hlt]

end Backend

variable {env : Env} {s s' : Sys} {l : Label}

theorem Step.keeps (h : Step env s l s') (hk : s.backend.Keeps) (hs : s.backend.Sound) :
    s'.backend.Keeps := by
  cases h with
  | tick d => exact hk.tick d
  | sweep hit => exact hk.sweep hit
  | heartbeat r _ => exact hk.issue _ _ _
  | get key _ => exact hk.issue _ _ _
  | exec hb => exact hk.exec hs hb
  | masterIssues random _ => exact hk.put _ _ _ _
  | loginTakes _ _ => exact hk.issue _ _ _
  | loginAccepts _ _ _ _ _ => exact hk.issue _ _ _
  | loginSendsProof _ _ => exact hk.issue _ _ _
  | worldTakes _ _ => exact hk.issue _ _ _
  | _ => exact hk

/-! ## Who sends a `ServerProof` -/

/-- The token a client reads in a frame that a Login session sends. -/
def Event.proof? : Event → Option (ℕ × Bytes)
  | .sent (.login sid) frame =>
    ((LoginProto.decode frame).filter fun d => d.op = .serverProof).map fun d =>
      (sid, d.sessionToken)
  | _ => none

/-- The tokens that were sent, with the sessions that sent them. -/
def Sys.proofs (s : Sys) : List (ℕ × Bytes) := s.log.filterMap Event.proof?

/-- A message with another opcode carries no token. -/
theorem proof?_of_code (sid : ℕ) (op : LoginProto.Op) {frame : Bytes}
    (hframe : ByteWriter.u16 op.code <+: frame) (hop : op ≠ .serverProof) :
    Event.proof? (.sent (.login sid) frame) = none := by
  rw [Event.proof?]
  cases hd : LoginProto.decode frame with
  | none => rfl
  | some d =>
    rw [Option.filter_some_neg (by simpa [LoginProto.op_eq_of_code hframe hd] using hop)]
    rfl

theorem proof?_encodeServerProof (sid : ℕ) (m2 : Digest) (random : Vector UInt8 16) :
    Event.proof? (.sent (.login sid)
      (LoginProto.encodeServerProof m2.toList (generateTokenHex random))) =
        some (sid, generateTokenHex random) := by
  have hlen : (generateTokenHex random).length < 2 ^ 16 := by
    rw [length_generateTokenHex]
    decide
  rw [Event.proof?, LoginProto.decode_encodeServerProof m2 hlen]
  rfl

theorem Sys.proofs_eq (s : Sys) :
    s.proofs = s.messages.filterMap fun m => Event.proof? (.sent m.1 m.2) := by
  rw [Sys.proofs, Sys.messages, List.filterMap_filterMap]
  congr 1
  funext e
  cases e with
  | sent party frame => rfl
  | challenged _ _ _ _ _ | verified _ _ _ _ _ _ | authenticated _ _ _ _ | dispatched _ _ _ => rfl

theorem Sys.proofs_of_message {party : Party} {frame : Bytes}
    (h : s'.messages = (party, frame) :: s.messages) :
    s'.proofs = (Event.proof? (.sent party frame)).toList ++ s.proofs := by
  rw [Sys.proofs_eq, Sys.proofs_eq, h, List.filterMap_cons]
  cases Event.proof? (.sent party frame) with
  | none => rfl
  | some x => rfl

/-- A step sends no token, or it goes on after the put of a token, whatever that returned. -/
theorem step_proofs (h : step env s l = some s') : s'.proofs = s.proofs ∨
    ∃ sid lost cid waited result token outcome, l = .loginPut sid lost cid ∧
      (s.login sid).point = .putting waited result token ∧
      s.awaited waited lost = some outcome ∧
      s'.proofs = (Event.proof? (.sent (.login sid)
        (LoginProto.encodeServerProof result.M2 token))).toList ++ s.proofs := by
  cases step_messages h with
  | silent hsame => exact Or.inl (by rw [Sys.proofs_eq, hsame, Sys.proofs_eq])
  | sends hmsg hnew =>
    have hproofs := Sys.proofs_of_message hnew
    cases hmsg with
    | proof hpoint hout => exact Or.inr ⟨_, _, _, _, _, _, _, rfl, hpoint, hout, hproofs⟩
    | masterError => exact Or.inl hproofs
    | redirect random _ => exact Or.inl hproofs
    | echo _ _ _ => exact Or.inl hproofs
    | @loginError _ sid _ =>
      have hcode : ByteWriter.u16 LoginProto.Op.serverError.code <+: LoginProto.encodeError :=
        List.prefix_rfl
      rw [proof?_of_code sid .serverError hcode (by decide)] at hproofs
      exact Or.inl hproofs
    | @challenge sid b lost lookupFails random username reg ch _ _ =>
      have hcode : ByteWriter.u16 LoginProto.Op.serverChallenge.code <+:
          LoginProto.encodeServerChallenge reg.salt ch.bBytes := by
        rw [LoginProto.encodeServerChallenge, List.append_assoc]
        exact List.prefix_append _ _
      rw [proof?_of_code sid .serverChallenge hcode (by decide)] at hproofs
      exact Or.inl hproofs
    | @worlds sid cid lost outcome _ =>
      have hcode : ByteWriter.u16 LoginProto.Op.worldList.code <+:
          worldList (StoreClient.listPrefixResult outcome) := by
        rw [worldList, LoginProto.encodeWorldList, List.append_assoc]
        exact List.prefix_append _ _
      rw [proof?_of_code sid .worldList hcode (by decide)] at hproofs
      exact Or.inl hproofs

/-! ## What a Login session does -/

/-- What a step makes of a Login session. -/
inductive LoginMove (env : Env) (s s' : Sys) (sid : ℕ) : LoginSession → Prop
  | stays {x : LoginSession} : x.state = (s.login sid).state → x.point = (s.login sid).point →
      LoginMove env s s' sid x
  | reads {x : LoginSession} : x.state = (s.login sid).state → x.point = .reading →
      LoginMove env s s' sid x
  | takes {x : LoginSession} {cid : ℕ} {ticket username : Bytes} :
      (s.login sid).state.stage = .awaitingHello → x.state = (s.login sid).state →
      x.point = .taking cid ticket username → LoginMove env s s' sid x
  | challenges {x : LoginSession} {cid : ℕ} {ticket username : Bytes} :
      (s.login sid).point = .taking cid ticket username → x.state.stage = .awaitingProof →
      x.point = .reading → LoginMove env s s' sid x
  | puts {x : LoginSession} {cid : ℕ} {ch : ServerChallenge} {a m1 : Bytes}
      {result : ServerResult} (random : Vector UInt8 16) :
      (s.login sid).state.stage = .awaitingProof →
      serverVerify env.H kGroup ch a m1 = some result → result.ok = true →
      s'.backend.calls cid = some ⟨.login sid, putRequest (generateTokenHex random)
        (s.login sid).state.username sessionTtl, none⟩ →
      x.state = (s.login sid).state → x.point = .putting cid result (generateTokenHex random) →
      LoginMove env s s' sid x
  | lists {x : LoginSession} {cid : ℕ} : x.state = (s.login sid).state → x.point = .listing cid →
      LoginMove env s s' sid x
  | finishes {x : LoginSession} :
      x.state = { (s.login sid).state with stage := .done } → x.point = .reading →
      LoginMove env s s' sid x

theorem Step.moves (h : Step env s l s') (sid : ℕ) : LoginMove env s s' sid (s'.login sid) := by
  have hset {sid' : ℕ} {x : LoginSession} (t : Sys) (ht : t.login = s.login)
      (hx : LoginMove env s s' sid' x) :
      LoginMove env s s' sid ((t.setLogin sid' x).login sid) := by
    by_cases hsid : sid = sid'
    · obtain rfl := hsid
      rw [Sys.login_setLogin_self]
      exact hx
    · rw [Sys.login_setLogin_of_ne _ hsid, ht]
      exact .stays rfl rfl
  cases h with
  | loginCloses frames _ => exact hset (s.send _ _) rfl (.reads rfl rfl)
  | loginTakes hstage _ => exact hset _ rfl (.takes hstage rfl rfl)
  | @loginAccepts sid' cid payload a m1 random ch result hstage _ hverify hok _ =>
    exact hset _ rfl (.puts random hstage hverify hok (Function.update_self _ _ _) rfl rfl)
  | loginChallenges hpoint _ _ _ _ => exact hset _ rfl (.challenges hpoint rfl rfl)
  | loginSendsProof _ _ => exact hset _ rfl (.lists rfl rfl)
  | loginSendsWorlds frame _ => exact hset _ rfl (.finishes rfl rfl)
  | loginLeaves sid' => exact hset s rfl (.stays rfl rfl)
  | _ => exact .stays rfl rfl

/-- A session that has its challenge keeps its username. -/
theorem LoginMove.username {sid : ℕ} {x : LoginSession} (h : LoginMove env s s' sid x)
    (htaking : ∀ cid ticket username, (s.login sid).point = .taking cid ticket username →
      (s.login sid).state.stage = .awaitingHello)
    (hstage : (s.login sid).state.stage ≠ .awaitingHello) :
    x.state.username = (s.login sid).state.username ∧ x.state.stage ≠ .awaitingHello := by
  cases h with
  | stays hstate _ | reads hstate _ | takes _ hstate _ | puts _ _ _ _ _ hstate _
  | lists hstate _ =>
    rw [hstate]
    exact ⟨rfl, hstage⟩
  | challenges hpoint _ _ => exact absurd (htaking _ _ _ hpoint) hstage
  | finishes hstate _ =>
    rw [hstate]
    exact ⟨rfl, (by decide : Stage.done ≠ .awaitingHello)⟩

/-- Call `cid` is this session's put of a token. -/
def Sys.PutBy (s : Sys) (sid cid : ℕ) (token : Bytes) : Prop :=
  ∃ c, s.backend.calls cid = some c ∧ c.party = .login sid ∧
    c.request = putRequest token (s.login sid).state.username sessionTtl

theorem Sys.PutBy.grows {sid cid : ℕ} {token : Bytes} (h : s.PutBy sid cid token)
    (hg : s.backend.Grows s'.backend)
    (hname : (s'.login sid).state.username = (s.login sid).state.username) :
    s'.PutBy sid cid token := by
  obtain ⟨c, hc, hparty, hreq⟩ := h
  obtain ⟨c', hc', hparty', hreq', -⟩ := hg.calls cid c hc
  exact ⟨c', hc', hparty'.trans hparty, by rw [hreq', hreq, hname]⟩

/-- Where a Login session stands. -/
structure Poised (s : Sys) : Prop where
  keeps : s.backend.Keeps
  taking : ∀ sid cid ticket username, (s.login sid).point = .taking cid ticket username →
    (s.login sid).state.stage = .awaitingHello
  putting : ∀ sid cid result token, (s.login sid).point = .putting cid result token →
    (s.login sid).state.stage ≠ .awaitingHello ∧ s.PutBy sid cid token ∧
      (∃ random, token = generateTokenHex random) ∧ ∃ m2 : Digest, result.M2 = m2.toList

theorem poised_init : Poised {} where
  keeps := Backend.keeps_init
  taking := fun _ _ _ _ h => by cases h
  putting := fun _ _ _ _ h => by cases h

theorem Poised.step (hp : Poised s) (hgated : Gated s) (h : Step env s l s') : Poised s' where
  keeps := h.keeps hp.keeps hgated.sound
  taking := fun sid cid ticket username hpoint => by
    cases h.moves sid with
    | stays hstate hsame =>
      rw [hstate]
      exact hp.taking sid cid ticket username (hsame ▸ hpoint)
    | takes hstage hstate _ => rw [hstate, hstage]
    | reads _ hnew | challenges _ _ hnew | puts _ _ _ _ _ _ hnew | lists _ hnew
    | finishes _ hnew =>
      rw [hnew] at hpoint
      cases hpoint
  putting := fun sid cid result token hpoint => by
    have hmove := h.moves sid
    cases hmove with
    | stays hstate hsame =>
      obtain ⟨hstage, hput, hdrawn, hm2⟩ := hp.putting sid cid result token (hsame ▸ hpoint)
      rw [hstate]
      exact ⟨hstage, hput.grows h.grows (by rw [hstate]), hdrawn, hm2⟩
    | puts random hstage hverify hok hcall hstate hnew =>
      rw [hnew] at hpoint
      obtain ⟨rfl, rfl, rfl⟩ := LoginPoint.putting.inj hpoint
      refine ⟨by rw [hstate, hstage]; decide, ⟨_, hcall, rfl, by rw [hstate]⟩, ⟨random, rfl⟩,
        digest_of_serverVerify hverify hok⟩
    | reads _ hnew | takes _ _ hnew | challenges _ _ hnew | lists _ hnew | finishes _ hnew =>
      rw [hnew] at hpoint
      cases hpoint

theorem poised_of_reachable (hr : Machine.Reachable (step env) {} s) : Gated s ∧ Poised s := by
  refine hr.invariant (I := fun s => Gated s ∧ Poised s) ⟨gated_init, poised_init⟩ ?_
  rintro s l s' ⟨hgated, hpoised⟩ - hstep
  exact ⟨hgated.step (step_cases hstep), hpoised.step hgated (step_cases hstep)⟩

/-- The tokens after a step: one more if the step goes on after a put. -/
theorem proofs_of_step (hp : Poised s) (h : step env s l = some s') : s'.proofs = s.proofs ∨
    ∃ sid lost cid waited result token outcome, l = .loginPut sid lost cid ∧
      (s.login sid).point = .putting waited result token ∧
      s.awaited waited lost = some outcome ∧ s'.proofs = (sid, token) :: s.proofs := by
  rcases step_proofs h with hsame | ⟨sid, lost, cid, waited, result, token, outcome, rfl, hpoint,
    hout, hproofs⟩
  · exact Or.inl hsame
  · obtain ⟨-, -, ⟨random, rfl⟩, m2, hm2⟩ := hp.putting sid waited result _ hpoint
    rw [hm2, proof?_encodeServerProof] at hproofs
    exact Or.inr ⟨sid, lost, cid, waited, result, _, outcome, rfl, hpoint, hout, hproofs⟩

/-- A wait that was not lost ended with the answer of an executed call. -/
theorem Sys.answered_of_awaited {cid : ℕ} {outcome : Option Decoded}
    (h : s.awaited cid false = some outcome) :
    ∃ c t a, s.backend.calls cid = some c ∧ c.answer = some (t, a) ∧
      outcome = a.bind RemoteStore.received := by
  rw [Sys.awaited, if_neg (by simp)] at h
  split at h
  · next hsome =>
    obtain ⟨⟨t, a⟩, hans⟩ := Option.isSome_iff_exists.mp hsome
    obtain ⟨c, hc, hans⟩ := Option.bind_eq_some_iff.mp hans
    refine ⟨c, t, a, hc, hans, ?_⟩
    rw [← Option.some.inj h, Backend.answerOf, hc, Option.bind_some, hans, Option.bind_some]
  · cases h

/-! ## Put before it is sent -/

/-- The store has executed this session's put of the token: at time `t`, as number `n`. -/
def Sys.TokenPut (s : Sys) (sid : ℕ) (token : Bytes) (t n : ℕ) : Prop :=
  (∃ cid c, s.backend.calls cid = some c ∧ c.party = .login sid ∧
    c.request = putRequest token (s.login sid).state.username sessionTtl ∧
    c.answer = some (t, some .ok)) ∧
  History.issue s.backend.history n =
    some (token, ⟨.login sid, (s.login sid).state.username, t + seconds sessionTtl⟩)

/-- No put of this Login session is lost in the step. -/
def Label.keepsPut (sid : ℕ) : Label → Bool
  | .loginPut sid' lost _ => sid' ≠ sid || !lost
  | _ => true

/-- What `put` returns in a step that ends the wait for it. -/
def Sys.putReturns (s : Sys) : Label → Option Bool
  | .loginPut sid lost _ =>
    match (s.login sid).point with
    | .putting waited _ _ => (s.awaited waited lost).map StoreClient.putResult
    | _ => none
  | _ => none

theorem Sys.TokenPut.grows {sid : ℕ} {token : Bytes} {t n : ℕ} (h : s.TokenPut sid token t n)
    (hg : s.backend.Grows s'.backend)
    (hname : (s'.login sid).state.username = (s.login sid).state.username) :
    s'.TokenPut sid token t n := by
  obtain ⟨⟨cid, c, hc, hparty, hreq, hans⟩, hissue⟩ := h
  obtain ⟨c', hc', hparty', hreq', hans'⟩ := hg.calls cid c hc
  refine ⟨⟨cid, c', hc', hparty'.trans hparty, ?_, hans' _ hans⟩, ?_⟩
  · rw [hreq', hreq, hname]
  · rw [hname]
    exact issue_of_suffix hg.history hissue

/-- The put that a session has an answer to was executed, and returns `true`. -/
theorem Poised.put_of_awaited (hp : Poised s) {sid cid : ℕ} {token : Bytes}
    (hput : s.PutBy sid cid token) {outcome : Option Decoded}
    (hout : s.awaited cid false = some outcome) :
    StoreClient.putResult outcome = true ∧ ∃ t n, s.TokenPut sid token t n := by
  obtain ⟨c, hc, hparty, hreq⟩ := hput
  obtain ⟨c', t, a, hc', hans, rfl⟩ := Sys.answered_of_awaited hout
  obtain rfl : c = c' := Option.some.inj (hc.symm.trans hc')
  obtain ⟨rfl, n, hn⟩ := hp.keeps.executed cid c t a hc (by rw [hreq]; rfl) hans
  rw [hparty, hreq] at hn
  exact ⟨rfl, t, n, ⟨cid, c, hc, hparty, hreq, hans⟩, hn⟩

/-- Every token that this session sent was put before. -/
def Backed (sid : ℕ) (s : Sys) : Prop :=
  ∀ token, (sid, token) ∈ s.proofs →
    (s.login sid).state.stage ≠ .awaitingHello ∧ ∃ t n, s.TokenPut sid token t n

theorem Backed.step {sid : ℕ} (hb : Backed sid s) (hp : Poised s) (h : step env s l = some s')
    (hok : l.keepsPut sid = true) : Backed sid s' := by
  have hmove := (step_cases h).moves sid
  have hgrows := (step_cases h).grows
  have hkeep {token : Bytes} (hbacked : (s.login sid).state.stage ≠ .awaitingHello ∧
      ∃ t n, s.TokenPut sid token t n) :
      (s'.login sid).state.stage ≠ .awaitingHello ∧ ∃ t n, s'.TokenPut sid token t n := by
    obtain ⟨hstage, t, n, hput⟩ := hbacked
    obtain ⟨hname, hstage'⟩ := hmove.username (hp.taking sid) hstage
    exact ⟨hstage', t, n, hput.grows hgrows hname⟩
  intro token hmem
  rcases proofs_of_step hp h with hsame | ⟨sid', lost, cid, waited, result, token', outcome, rfl,
    hpoint, hout, hproofs⟩
  · exact hkeep (hb token (hsame ▸ hmem))
  · rw [hproofs] at hmem
    rcases List.mem_cons.mp hmem with heq | hmem
    · obtain ⟨rfl, rfl⟩ := Prod.mk.inj heq
      obtain rfl : lost = false := by simpa [Label.keepsPut] using hok
      obtain ⟨hstage, hput, -⟩ := hp.putting sid waited result token hpoint
      exact hkeep ⟨hstage, (hp.put_of_awaited hput hout).2⟩
    · exact hkeep (hb token hmem)

theorem backed_of_reach {sid : ℕ}
    (hr : Machine.Reach (step env) (fun _ l => l.keepsPut sid = true) {} s) : Backed sid s := by
  refine (hr.invariant (I := fun s => (Gated s ∧ Poised s) ∧ Backed sid s)
    ⟨⟨gated_init, poised_init⟩, fun _ hmem => by cases hmem⟩ ?_).2
  rintro s l s' ⟨⟨hgated, hpoised⟩, hbacked⟩ hok hstep
  exact ⟨⟨hgated.step (step_cases hstep), hpoised.step hgated (step_cases hstep)⟩,
    hbacked.step hpoised hstep hok⟩

/-- **No dead token is handed out unless a put is lost.**  In every run in which no put of a
    Login session is lost, every token it sent was put before, by this session and for its
    user, and until its lifetime ends a take of it finds that user, unless it was taken or
    put again.  In every run, a step that sends a token follows a put that returned `true`
    exactly if that put was not lost. -/
theorem proof_after_put (env : Env) {s : Sys} (hr : Machine.Reachable (step env) {} s)
    (sid : ℕ) :
    (Machine.Reach (step env) (fun _ l => l.keepsPut sid = true) {} s →
      ∀ token, (sid, token) ∈ s.proofs → ∃ t n, s.TokenPut sid token t n ∧
        (n ∉ taken s.backend.history → (∀ m ∈ puts s.backend.history token, m ≤ n) →
          s.backend.now < t + seconds sessionTtl →
          (s.backend.store.take s.backend.now token).1 = some (s.login sid).state.username)) ∧
    ∀ l s' token, step env s l = some s' → s'.proofs = (sid, token) :: s.proofs →
      (s.putReturns l = some true ↔ l.keepsPut sid = true) := by
  obtain ⟨-, hpoised⟩ := poised_of_reachable hr
  refine ⟨fun hkept token hmem => ?_, fun l s' token hstep hnew => ?_⟩
  · obtain ⟨-, t, n, hput⟩ := backed_of_reach hkept token hmem
    refine ⟨t, n, hput, fun hleft hlast hlt => ?_⟩
    exact hpoised.keeps.take_of_last hput.2 hlast hleft hlt
  · rcases proofs_of_step hpoised hstep with hsame | ⟨sid', lost, cid, waited, result, token',
      outcome, rfl, hpoint, hout, hproofs⟩
    · exact absurd (hnew.symm.trans hsame) (List.cons_ne_self _ _)
    · obtain ⟨heq, -⟩ := List.cons.inj (hnew.symm.trans hproofs)
      obtain ⟨rfl, rfl⟩ := Prod.mk.inj heq
      rw [Sys.putReturns, hpoint]
      dsimp only
      rw [hout, Option.map_some, Option.some_inj]
      cases lost with
      | false =>
        obtain ⟨-, hput, -⟩ := hpoised.putting sid waited result token hpoint
        exact iff_of_true (hpoised.put_of_awaited hput hout).1 (by simp [Label.keepsPut])
      | true =>
        obtain rfl : none = outcome := Option.some.inj hout
        exact iff_of_false (by decide) (by simp [Label.keepsPut])

/-- The client of `walkthrough` is sent a token that was put. -/
theorem proof_after_put_walkthrough :
    ∃ s, Machine.run (Machine.guarded (step plainEnv) fun _ l => l.keepsPut 0) {} walkthrough =
        some s ∧ s.proofs = [(0, generateTokenHex secondDraw)] ∧
      ∃ t n, s.TokenPut 0 (generateTokenHex secondDraw) t n := by
  have hrun : ((Machine.run (Machine.guarded (step plainEnv) fun _ l => l.keepsPut 0) {}
      walkthrough).map Sys.proofs) = some [(0, generateTokenHex secondDraw)] := by
    decide +kernel
  obtain ⟨s, hs, hproofs⟩ := Option.map_eq_some_iff.mp hrun
  have hr := Machine.Reach.of_run .init hs
  obtain ⟨t, n, hput, -⟩ := (proof_after_put plainEnv hr.reachable 0).1 hr
    (generateTokenHex secondDraw) (hproofs ▸ List.mem_singleton_self _)
  exact ⟨s, hs, hproofs, t, n, hput⟩

/-- The client of `walkthrough` when the store cannot be reached for the put. -/
def lostPutRun : List Label := walkthrough.take 8 ++ [.loginPut 0 true 3]

/-- It is sent a `ServerProof`, with a token that the store has never seen. -/
theorem proof_without_put :
    ¬ ∀ (env : Env) (s : Sys), Machine.Reachable (step env) {} s →
      ∀ sid token, (sid, token) ∈ s.proofs → ∃ t n, s.TokenPut sid token t n := by
  intro h
  have hrun : ((Machine.run (step plainEnv) {} lostPutRun).map fun s =>
      (s.proofs, puts s.backend.history (generateTokenHex secondDraw))) =
        some ([(0, generateTokenHex secondDraw)], []) := by decide +kernel
  obtain ⟨s, hs, heq⟩ := Option.map_eq_some_iff.mp hrun
  obtain ⟨hproofs, hnone⟩ := Prod.mk.inj heq
  obtain ⟨t, n, -, hissue⟩ := h plainEnv s (Machine.Reachable.of_run .init hs) 0
    (generateTokenHex secondDraw) (hproofs ▸ List.mem_singleton_self _)
  have hput := mem_puts_iff.mpr ⟨_, hissue⟩
  rw [hnone] at hput
  cases hput

end Netsrv.System
