/-
  A client of `tools/client_sim.cpp` in the middle of the system.

  `Visit` is the system with one such client: what it has written and the servers have not
  read, one queue for each of its connections, and how far it has read of what they have
  sent.  Its two sessions are read from by nobody else; everything else goes on as before,
  in any order.  The client is honest, and so are the servers, so what can go wrong is known:
  `Excused` says of each way the client stops short when it does.

  * `Aligned`: where the client, its Login session and the frames between them stand, one
    case for each stage of the exchange.
  * `aligned_turn` and `aligned_read`: the session takes a turn, the client reads a frame.
-/
import Netsrv.Security.SrpSafety
import Netsrv.System.LoginTurns
import Netsrv.Tools.ClientSim

namespace Netsrv.System

open StoreWire LoginHandler Registry Srp6 ClientSim

/-! ## The client in the system -/

/-- The system and the client.  `toMaster` and `toLogin` are on their way; `read` counts the
    frames that the client has read of the connection it has open. -/
structure Visit where
  sys : Sys
  client : Point := .master
  toMaster : List Bytes := [hello]
  toLogin : List Bytes := []
  read : ℕ := 0

/-- A step of the system, a frame that the client reads, or the end of its connection. -/
inductive Move where
  | sys (l : Label)
  | read
  | hangUp

/-- Who reads a frame in the step of this label. -/
def Label.reads : Label → Option (Party × Bytes)
  | .masterFrame sid payload _ => some (.master sid, payload)
  | .loginFrame sid payload _ _ => some (.login sid, payload)
  | .worldFrame sid payload _ => some (.world sid, payload)
  | _ => none

/-- What is left of a queue after its first frame, if it is this one. -/
def dequeue (frame : Bytes) : List Bytes → Option (List Bytes)
  | f :: rest => if f = frame then some rest else none
  | [] => none

section Step

variable (env : Env) (player : Player) (msid lsid : ℕ)

/-- A frame that a server reads on one of the client's connections is the client's next one. -/
def Visit.deliver (v : Visit) (l : Label) : Option Visit :=
  match l.reads with
  | none => some v
  | some (party, frame) =>
    if party = .master msid then
      (dequeue frame v.toMaster).map fun rest => { v with toMaster := rest }
    else if party = .login lsid then
      (dequeue frame v.toLogin).map fun rest => { v with toLogin := rest }
    else some v

/-- The session at the other end of the connection that the client has open. -/
def Visit.party (v : Visit) : Party :=
  if v.client.atMaster then .master msid else .login lsid

/-- The client reads a frame; from Master it goes to Login, and it writes to Login only. -/
def Visit.hears (v : Visit) (frame : Bytes) : Visit :=
  let (p, written) := next env.H player v.client frame
  { v with
    client := p
    toLogin := v.toLogin ++ written.toList
    read := if v.client.atMaster then 0 else v.read + 1 }

def Visit.step (v : Visit) : Move → Option Visit
  | .sys l => (v.deliver msid lsid l).bind fun v' =>
      (System.step env v.sys l).map fun s => { v' with sys := s }
  | .read =>
    if v.client.waits then
      ((v.sys.framesOf (v.party msid lsid))[v.read]?).map (v.hears env player)
    else none
  | .hangUp => if v.client.waits then some { v with client := .failed .noAnswer } else none

end Step

/-! ## What Master answers -/

variable {env : Env} {s s' : Sys} {l : Label}

/-- Every frame of Master is the error, or a redirect to a Login it has read out of the registry. -/
theorem answers_of_master (hr : Machine.Reachable (step env) {} s) :
    (∀ sid info, (s.master sid).pending = some info → LoginFits info) ∧
    ∀ sid frame, (.master sid, frame) ∈ s.messages → frame = MasterProto.encodeError ∨
      ∃ random info, LoginFits info ∧
        frame = MasterHandler.redirect (generateTokenHex random) info := by
  refine hr.invariant (I := fun s => (∀ sid info, (s.master sid).pending = some info →
      LoginFits info) ∧ ∀ sid frame, (.master sid, frame) ∈ s.messages →
        frame = MasterProto.encodeError ∨ ∃ random info, LoginFits info ∧
          frame = MasterHandler.redirect (generateTokenHex random) info) ⟨nofun, nofun⟩ ?_
  intro s l s' ⟨hpicked, hsent⟩ _ hstep
  refine ⟨(step_cases hstep).picked hpicked, fun sid frame hm => ?_⟩
  cases step_messages hstep with
  | silent hsame => exact hsent sid frame (hsame ▸ hm)
  | sends hmsg hnew =>
    rw [hnew] at hm
    rcases List.mem_cons.mp hm with heq | hold
    · obtain ⟨rfl, rfl⟩ := Prod.mk.inj heq
      cases hmsg with
      | masterError => exact Or.inl rfl
      | redirect random hpending => exact Or.inr ⟨random, _, hpicked _ _ hpending, rfl⟩
    · exact hsent sid frame hold

/-- The client reads what Master answers: no Login, or a ticket and where to go. -/
theorem next_master (H : Hash) (player : Player) {frame : Bytes}
    (h : frame = MasterProto.encodeError ∨ ∃ random info, LoginFits info ∧
      frame = MasterHandler.redirect (generateTokenHex random) info) :
    next H player .master frame = (.failed .noLogin, none) ∨
      ∃ ticket, ticket.length < 2 ^ 16 ∧ next H player .master frame =
        (.challenge, some (LoginProto.encodeClientHello ticket player.username)) := by
  rcases h with rfl | ⟨random, info, hfits, rfl⟩
  · refine Or.inl ?_
    rw [next_eq H player (by decide) (by decide), onFrame_masterError]
  · have hticket := length_generateTokenHex random
    have hhost : info.host.length < 65536 := hfits
    have hmax : (MasterHandler.redirect (generateTokenHex random) info).length ≤ 2 ^ 20 := by
      simp only [MasterHandler.redirect, MasterProto.encodeRedirect, List.length_append,
        ByteWriter.length_str16, ByteWriter.length_u16]
      omega
    refine Or.inr ⟨generateTokenHex random, hticket.trans_lt (by decide), ?_⟩
    rw [next_eq H player (sendable_redirect random hfits).1 hmax]
    exact onFrame_redirect (r := ⟨generateTokenHex random, info.host, info.port⟩)
      ⟨hticket.trans_lt (by decide), hfits⟩ (hticket.trans_lt (by decide))

/-! ## What the two sides know -/

/-- The account was made from the client's password, and everything fits its length field. -/
structure Registered (env : Env) (player : Player) (salt verifier : Bytes) : Prop where
  made : computeVerifierWithSalt env.H kGroup player.username player.password salt =
    some ⟨salt, verifier⟩
  name_fits : player.username.length < 2 ^ 16
  salt_fits : salt.length < 2 ^ 16

/-- When the client stops short in this way.  It never takes Login for an impostor; a proof
    is refused only if `u` is 0, and the list of Worlds only if it is over the cap. -/
def Excused (env : Env) (frames : List Bytes) : Failure → Prop
  | .noAnswer | .noLogin => True
  | .refused => LoginProto.encodeError ∈ frames
  | .unreadable | .impostor => False
  | .raised bBytes => bnFromBytes bBytes % kGroupN = 0
  | .proofRefused bBytes proof => computeU env.H proof.aBytes bBytes = 0
  | .worldsUnreadable => ∃ entries,
      LoginProto.kMaxWorlds < (WorldListing.worlds entries).length ∧ worldList entries ∈ frames

theorem Excused.append {frames : List Bytes} {why : Failure} (h : Excused env frames why)
    (more : List Bytes) : Excused env (frames ++ more) why := by
  cases why with
  | refused => exact List.mem_append_left _ h
  | worldsUnreadable =>
    obtain ⟨entries, hcap, hmem⟩ := h
    exact ⟨entries, hcap, List.mem_append_left _ hmem⟩
  | _ => exact h

/-- What `server_verify` returns for this proof if it has the client's key. -/
def agreed (env : Env) (proof : ClientProof) : ServerResult :=
  { ok := true, K := proof.K, M2 := (computeM2 env.H proof.aBytes proof.M1 proof.K).toList }

/-- The session's state after the challenge. -/
def awaiting (player : Player) (ch : ServerChallenge) : LoginHandler.SessionState :=
  { stage := .awaitingProof, username := player.username, challenge := some ch }

/-- The client answers its account's challenge, unless `B` is 0, and Login accepts the answer,
    unless `u` is 0. -/
theorem Registered.exchange {player : Player} {salt verifier : Bytes}
    (hreg : Registered env player salt verifier) {b : ℕ} {ch : ServerChallenge}
    (hbegin : serverBegin env.H kGroup verifier b = some ch) :
    ch.bBytes.length = kNBytes ∧
    (clientRespond env.H kGroup player.username player.password salt ch.bBytes player.a = none →
      bnFromBytes ch.bBytes % kGroupN = 0) ∧
    ∀ proof, clientRespond env.H kGroup player.username player.password salt ch.bBytes
        player.a = some proof → proof.aBytes.length = kNBytes ∧
      (computeU env.H proof.aBytes ch.bBytes ≠ 0 →
        serverVerify env.H kGroup ch proof.aBytes proof.M1.toList = some (agreed env proof)) := by
  obtain ⟨reg, ch', hmade, -, hbegin', hlen, hrest⟩ :=
    kGroup_sound.exchange env.H player.username player.password salt player.a b
  rw [hreg.made] at hmade
  obtain rfl := Option.some.inj hmade
  obtain rfl : ch = ch' := Option.some.inj (hbegin.symm.trans hbegin')
  refine ⟨hlen, fun hnone => ?_, fun proof hsome => ?_⟩
  · by_contra hB
    obtain ⟨proof, hproof, -⟩ := hrest hB
    rw [hnone] at hproof
    cases hproof
  · have hB : bnFromBytes ch.bBytes % kGroup.N ≠ 0 := by
      intro hzero
      obtain ⟨k, hk, -⟩ := kGroup_sound.computeK_eq env.H
      rw [clientRespond, hk, Option.bind_eq_bind, Option.bind_some, if_pos hzero] at hsome
      cases hsome
    obtain ⟨proof', hproof', hlenA, hverify⟩ := hrest hB
    obtain rfl : proof = proof' := Option.some.inj (hsome.symm.trans hproof')
    exact ⟨hlenA, hverify⟩

/-! ## The stages of the exchange -/

section Stages

variable (env : Env) (player : Player) (salt verifier : Bytes) (lsid : ℕ) (log : List Event)

/-- Login has accepted this proof, with the client's key, and drawn the token for it. -/
structure Accepted (ch : ServerChallenge) (proof : ClientProof) (token : Bytes) : Prop where
  verified : .verified lsid player.username ch proof.aBytes proof.M1.toList token ∈ log
  verify : serverVerify env.H kGroup ch proof.aBytes proof.M1.toList = some (agreed env proof)
  drawn : ∃ random, token = generateTokenHex random

/-- What Login has sent after it accepted the proof. -/
inductive Told (proof : ClientProof) (token : Bytes) : LoginPoint → List Bytes → Prop
  | putting (cid : ℕ) : Told proof token (.putting cid (agreed env proof) token) []
  | listing (cid : ℕ) :
      Told proof token (.listing cid) [LoginProto.encodeServerProof (agreed env proof).M2 token]
  | finished (answer : Option StoreHandler.Answer) :
      Told proof token .reading [LoginProto.encodeServerProof (agreed env proof).M2 token,
        worldList (StoreClient.listPrefixResult (answer.bind RemoteStore.received))]

/-- How much of that the client has read. -/
inductive Heard (bBytes : Bytes) (proof : ClientProof) (token : Bytes) (frames : List Bytes) :
    Point → ℕ → Prop
  | proof : Heard bBytes proof token frames (.proof bBytes proof) 1
  | worlds : Heard bBytes proof token frames (.worlds proof token) 2
  | listed {entries : List StoreWire.Entry} : worldList entries ∈ frames →
      Heard bBytes proof token frames (.listed proof token (WorldListing.worlds entries)) 3

/-- Where the client stands, what it has on its way to Login, how many frames it has read, the
    state and the point of its session and the frames that were sent to it. -/
inductive Aligned : Point → List Bytes → ℕ → LoginHandler.SessionState → LoginPoint →
    List Bytes → Prop
  | calling {k : ℕ} : Aligned .master [] k {} .reading []
  | hailing {ticket : Bytes} : ticket.length < 2 ^ 16 →
      Aligned .challenge [LoginProto.encodeClientHello ticket player.username] 0 {} .reading []
  | taking {cid : ℕ} {ticket : Bytes} :
      Aligned .challenge [] 0 {} (.taking cid ticket player.username) []
  | turnedAway {st : LoginHandler.SessionState} {frames : List Bytes} :
      frames = [] ∨ frames = [LoginProto.encodeError] →
      Aligned .challenge [] 0 st .reading frames
  | asked {b : ℕ} {ch : ServerChallenge} : serverBegin env.H kGroup verifier b = some ch →
      Aligned .challenge [] 0 (awaiting player ch) .reading
        [LoginProto.encodeServerChallenge salt ch.bBytes]
  | proving {b : ℕ} {ch : ServerChallenge} {proof : ClientProof} :
      serverBegin env.H kGroup verifier b = some ch →
      clientRespond env.H kGroup player.username player.password salt ch.bBytes player.a =
        some proof →
      Aligned (.proof ch.bBytes proof)
        [LoginProto.encodeClientProof proof.aBytes proof.M1.toList] 1 (awaiting player ch)
        .reading [LoginProto.encodeServerChallenge salt ch.bBytes]
  | disproved {bBytes : Bytes} {proof : ClientProof} {st : LoginHandler.SessionState}
      {first : Bytes} {frames : List Bytes} : computeU env.H proof.aBytes bBytes = 0 →
      frames = [] ∨ frames = [LoginProto.encodeError] →
      Aligned (.proof bBytes proof) [] 1 st .reading (first :: frames)
  | accepted {ch : ServerChallenge} {proof : ClientProof} {token first : Bytes} {c : Point}
      {k : ℕ} {st : LoginHandler.SessionState} {pt : LoginPoint} {frames : List Bytes} :
      Accepted env player lsid log ch proof token → Told env proof token pt frames →
      Heard ch.bBytes proof token frames c k → Aligned c [] k st pt (first :: frames)
  | stopped {why : Failure} {out : List Bytes} {k : ℕ} {st : LoginHandler.SessionState}
      {pt : LoginPoint} {frames : List Bytes} : Excused env frames why →
      Aligned (.failed why) out k st pt frames

end Stages

variable {player : Player} {salt verifier : Bytes} {lsid : ℕ} {log log' : List Event}
  {accounts : Bytes → Option AccountRecord} {st st' : LoginHandler.SessionState}
  {pt pt' : LoginPoint} {sent : List Bytes}

/-! ## The session takes a turn -/

/-- A session that waits for a frame rests without one. -/
theorem Turn.of_none (h : Turn env accounts log lsid st .reading none st' pt' sent) :
    st' = st ∧ pt' = .reading ∧ sent = [] := by
  cases h with
  | rests => exact ⟨rfl, rfl, rfl⟩
  | turnsAway hpt _ => cases hpt
  | challenges hpt _ _ => cases hpt
  | sendsProof cid hpt => cases hpt
  | sendsWorlds answer hpt => cases hpt

theorem Turn.of_hello {payload ticket username : Bytes}
    (h : Turn env accounts log lsid st pt (some payload) st' pt' sent)
    (hmsg : onMessage st payload = .hello ticket username) :
    st' = st ∧ (∃ cid, pt' = .taking cid ticket username) ∧ sent = [] := by
  cases h with
  | closes _ hclose => rw [hmsg] at hclose; cases hclose
  | hello cid _ hhello =>
    rw [hmsg] at hhello
    obtain ⟨rfl, rfl⟩ := Action.hello.inj hhello
    exact ⟨rfl, ⟨cid, rfl⟩, rfl⟩
  | refuses _ hproof _ => rw [hmsg] at hproof; cases hproof
  | accepts cid random _ hproof _ _ _ _ => rw [hmsg] at hproof; cases hproof

/-- A proof is refused, or accepted with a token. -/
theorem Turn.of_proof {payload a m1 : Bytes} {ch : ServerChallenge}
    (h : Turn env accounts log lsid st pt (some payload) st' pt' sent)
    (hmsg : onMessage st payload = .proof a m1) (hch : st.challenge = some ch) :
    (proved env st a m1 = .closed sent ∧ pt' = .reading) ∨
      ∃ cid random result, pt' = .putting cid result (generateTokenHex random) ∧
        serverVerify env.H kGroup ch a m1 = some result ∧ result.ok = true ∧ sent = [] ∧
        .verified lsid st.username ch a m1 (generateTokenHex random) ∈ log := by
  cases h with
  | closes _ hclose => rw [hmsg] at hclose; cases hclose
  | hello cid _ hhello => rw [hmsg] at hhello; cases hhello
  | refuses _ hproof hclosed =>
    rw [hmsg] at hproof
    obtain ⟨rfl, rfl⟩ := Action.proof.inj hproof
    exact Or.inl ⟨hclosed, rfl⟩
  | accepts cid random _ hproof hch' hverify hok hlog =>
    rw [hmsg] at hproof
    obtain ⟨rfl, rfl⟩ := Action.proof.inj hproof
    obtain rfl := Option.some.inj (hch.symm.trans hch')
    exact Or.inr ⟨cid, random, _, rfl, hverify, hok, rfl, hlog⟩

/-- A new session reads the client's hello. -/
theorem onMessage_clientHello {ticket username : Bytes} (hticket : ticket.length < 2 ^ 16)
    (hname : username.length < 2 ^ 16) :
    onMessage {} (LoginProto.encodeClientHello ticket username) = .hello ticket username := by
  have hdec : LoginProto.decode (LoginProto.encodeClientHello ticket username) =
      some { op := .clientHello, ticket, username } :=
    (LoginProto.decode_eq_some_iff _ _).mpr ⟨⟨hticket, hname, rfl⟩, [],
      by simp [LoginProto.encodeClientHello, LoginProto.Decoded.encoding,
        LoginProto.Decoded.fields]⟩
  rw [onMessage, hdec]
  rfl

/-- A session with a challenge reads the client's proof. -/
theorem onMessage_clientProof (ch : ServerChallenge) {proof : ClientProof}
    (ha : proof.aBytes.length = kNBytes) :
    onMessage (awaiting player ch)
      (LoginProto.encodeClientProof proof.aBytes proof.M1.toList) =
        .proof proof.aBytes proof.M1.toList := by
  have hlen : proof.aBytes.length < 2 ^ 32 := by
    rw [ha]
    decide
  rw [onMessage, LoginProto.decode_encodeClientProof _ hlen]
  rfl

theorem Accepted.mono {ch : ServerChallenge} {proof : ClientProof} {token : Bytes}
    (h : Accepted env player lsid log ch proof token) (hlog : log ⊆ log') :
    Accepted env player lsid log' ch proof token :=
  ⟨hlog h.verified, h.verify, h.drawn⟩

theorem Heard.append {bBytes token : Bytes} {proof : ClientProof} {frames : List Bytes}
    {c : Point} {k : ℕ} (h : Heard bBytes proof token frames c k) (more : List Bytes) :
    Heard bBytes proof token (frames ++ more) c k := by
  cases h with
  | proof => exact .proof
  | worlds => exact .worlds
  | listed hmem => exact .listed (List.mem_append_left _ hmem)

/-- The log only grows. -/
theorem Aligned.mono {c : Point} {out : List Bytes} {k : ℕ} {frames : List Bytes}
    (h : Aligned env player salt verifier lsid log c out k st pt frames) (hlog : log ⊆ log') :
    Aligned env player salt verifier lsid log' c out k st pt frames := by
  cases h with
  | calling => exact .calling
  | hailing hticket => exact .hailing hticket
  | taking => exact .taking
  | turnedAway hframes => exact .turnedAway hframes
  | asked hbegin => exact .asked hbegin
  | proving hbegin hproof => exact .proving hbegin hproof
  | disproved hu hframes => exact .disproved hu hframes
  | accepted hacc htold hheard => exact .accepted (hacc.mono hlog) htold hheard
  | stopped hwhy => exact .stopped hwhy

/-- After the proof was accepted, Login says who it is and which Worlds there are. -/
theorem Told.turn {proof : ClientProof} {token : Bytes} {frames : List Bytes}
    (h : Told env proof token pt frames)
    (hturn : Turn env accounts log lsid st pt none st' pt' sent) :
    Told env proof token pt' (frames ++ sent) := by
  cases h with
  | putting cid =>
    cases hturn with
    | rests => exact .putting cid
    | turnsAway hpt _ => cases hpt
    | challenges hpt _ _ => cases hpt
    | sendsProof cid' hpt =>
      obtain ⟨-, rfl, rfl⟩ := LoginPoint.putting.inj hpt
      exact .listing cid'
    | sendsWorlds answer hpt => cases hpt
  | listing cid =>
    cases hturn with
    | rests => exact .listing cid
    | turnsAway hpt _ => cases hpt
    | challenges hpt _ _ => cases hpt
    | sendsProof cid' hpt => cases hpt
    | sendsWorlds answer hpt => exact .finished answer
  | finished answer =>
    obtain ⟨rfl, rfl, rfl⟩ := hturn.of_none
    exact .finished answer

/-- The session takes a turn, in which it reads the client's next frame or none. -/
theorem Aligned.turn (hreg : Registered env player salt verifier)
    (hrow : accounts player.username = some ⟨player.username, salt, verifier⟩) {c : Point}
    {out out' : List Bytes} {k : ℕ} {frames : List Bytes} {payload : Option Bytes}
    (h : Aligned env player salt verifier lsid log c out k st pt frames)
    (hturn : Turn env accounts log lsid st pt payload st' pt' sent)
    (hout : out = payload.toList ++ out') :
    Aligned env player salt verifier lsid log c out' k st' pt' (frames ++ sent) := by
  have hnone (hnil : [] = payload.toList ++ out') : payload = none ∧ out' = [] := by
    cases payload with
    | none => exact ⟨rfl, hnil.symm⟩
    | some p => cases hnil
  have hone {f : Bytes} (hcons : [f] = payload.toList ++ out') :
      payload = none ∧ out' = [f] ∨ payload = some f ∧ out' = [] := by
    cases payload with
    | none => exact Or.inl ⟨rfl, hcons.symm⟩
    | some p =>
      obtain ⟨rfl, rfl⟩ := List.cons.inj hcons
      exact Or.inr ⟨rfl, rfl⟩
  cases h with
  | calling =>
    obtain ⟨rfl, rfl⟩ := hnone hout
    obtain ⟨rfl, rfl, rfl⟩ := hturn.of_none
    exact .calling
  | @hailing ticket hticket =>
    rcases hone hout with ⟨rfl, rfl⟩ | ⟨rfl, rfl⟩
    · obtain ⟨rfl, rfl, rfl⟩ := hturn.of_none
      exact .hailing hticket
    · obtain ⟨rfl, ⟨cid, rfl⟩, rfl⟩ :=
        hturn.of_hello (onMessage_clientHello hticket hreg.name_fits)
      exact .taking
  | taking =>
    obtain ⟨rfl, rfl⟩ := hnone hout
    cases hturn with
    | rests => exact .taking
    | turnsAway hpt hframes => exact .turnedAway hframes
    | challenges hpt hmade hbegin =>
      obtain ⟨-, -, rfl⟩ := LoginPoint.taking.inj hpt
      rw [hrow] at hmade
      obtain rfl := Option.some.inj hmade
      exact .asked hbegin
    | sendsProof cid hpt => cases hpt
    | sendsWorlds answer hpt => cases hpt
  | turnedAway hframes =>
    obtain ⟨rfl, rfl⟩ := hnone hout
    obtain ⟨rfl, rfl, rfl⟩ := hturn.of_none
    exact .turnedAway (by rwa [List.append_nil])
  | asked hbegin =>
    obtain ⟨rfl, rfl⟩ := hnone hout
    obtain ⟨rfl, rfl, rfl⟩ := hturn.of_none
    exact .asked hbegin
  | @proving b ch proof hbegin hproof =>
    rcases hone hout with ⟨rfl, rfl⟩ | ⟨rfl, rfl⟩
    · obtain ⟨rfl, rfl, rfl⟩ := hturn.of_none
      exact .proving hbegin hproof
    · obtain ⟨-, -, hrest⟩ := hreg.exchange hbegin
      obtain ⟨hlen, haccepts⟩ := hrest proof hproof
      rcases hturn.of_proof (onMessage_clientProof ch hlen) rfl with ⟨hclosed, rfl⟩ |
        ⟨cid, random, result, rfl, hverify, hok, rfl, hlog⟩
      · -- what fits the verifier is refused only for its `u`
        refine .disproved ?_ (proved_closed hclosed)
        by_contra hu
        rw [proved, awaiting] at hclosed
        dsimp only at hclosed
        rw [haccepts hu] at hclosed
        cases hclosed
      · obtain ⟨-, hu, -⟩ := (serverVerify_ok_iff env.H kGroup_sound hverify).mp hok
        obtain rfl := Option.some.inj (hverify.symm.trans (haccepts hu))
        exact .accepted ⟨hlog, hverify, random, rfl⟩ (.putting cid) .proof
  | disproved hu hframes =>
    obtain ⟨rfl, rfl⟩ := hnone hout
    obtain ⟨rfl, rfl, rfl⟩ := hturn.of_none
    rw [List.append_nil]
    exact .disproved hu hframes
  | accepted hacc htold hheard =>
    obtain ⟨rfl, rfl⟩ := hnone hout
    exact .accepted hacc (htold.turn hturn) (hheard.append sent)
  | stopped hwhy => exact .stopped (hwhy.append sent)

/-! ## The client reads a frame -/

/-- An entry takes some bytes of a list. -/
theorem length_le_listLength (entries : List StoreWire.Entry) :
    entries.length ≤ listLength entries := by
  have hflat : entries.length ≤ (entries.flatMap StoreWire.encodeEntry).length := by
    induction entries with
    | nil => exact Nat.zero_le _
    | cons e es ih =>
      rw [List.length_cons, List.flatMap_cons, List.length_append, StoreWire.encodeEntry,
        List.length_append, ByteWriter.length_str16]
      omega
  rw [listLength]
  omega

/-- A client at Master has no session of Login yet. -/
theorem Aligned.of_master {out : List Bytes} {k : ℕ} {frames : List Bytes}
    (h : Aligned env player salt verifier lsid log .master out k st pt frames) :
    out = [] ∧ st = {} ∧ pt = .reading ∧ frames = [] := by
  cases h with
  | calling => exact ⟨rfl, rfl, rfl, rfl⟩
  | accepted _ _ hheard => cases hheard

/-- Whatever list Login makes of an answer of the store, the client reads it, or refuses it for
    its length. -/
theorem next_worldList {entries : List StoreWire.Entry}
    (hlist : listLength entries ≤ StoreClient.kMaxResponseBytes) {proof : ClientProof}
    {token : Bytes} : next env.H player (.worlds proof token) (worldList entries) =
      if (WorldListing.worlds entries).length ≤ LoginProto.kMaxWorlds
      then (.listed proof token (WorldListing.worlds entries), none)
      else (.failed .worldsUnreadable, none) := by
  have hmax : (worldList entries).length ≤ 2 ^ 20 :=
    (WorldListing.length_worldList_le entries).trans hlist
  have hcount := (WorldListing.length_worlds_le entries).trans (length_le_listLength entries)
  have h32 : StoreClient.kMaxResponseBytes < 2 ^ 32 := by decide
  rw [next_eq env.H player (sendable_worldList hlist).1 hmax, WorldListing.worldList_eq]
  split
  · next hcap => exact onFrame_worldList hcap fun w hw => WorldListing.worldFits_of_mem hw
  · next hcap => exact onFrame_worldList_of_too_many (Nat.lt_of_not_le hcap) (by omega)

/-- The client reads what Login sent after it accepted the proof. -/
theorem Accepted.hears {ch : ServerChallenge} {proof : ClientProof} {token first : Bytes}
    {c : Point} {k : ℕ} {frames : List Bytes} {frame : Bytes}
    (hacc : Accepted env player lsid log ch proof token) (htold : Told env proof token pt frames)
    (hheard : Heard ch.bBytes proof token frames c k) (hwait : c.waits = true)
    (hframe : (first :: frames)[k]? = some frame) :
    Aligned env player salt verifier lsid log (next env.H player c frame).1
      (next env.H player c frame).2.toList (k + 1) st pt (first :: frames) := by
  obtain ⟨random, rfl⟩ := hacc.drawn
  have htoken := length_generateTokenHex random
  cases hheard with
  | listed _ => cases hwait
  | proof =>
    have hnext : next env.H player (.proof ch.bBytes proof) (LoginProto.encodeServerProof
        (agreed env proof).M2 (generateTokenHex random)) =
          (.worlds proof (generateTokenHex random), none) := by
      have hsend := sendable_serverProof (computeM2 env.H proof.aBytes proof.M1 proof.K) random
      have hmax : (LoginProto.encodeServerProof
          (computeM2 env.H proof.aBytes proof.M1 proof.K).toList
            (generateTokenHex random)).length ≤ 2 ^ 20 := by
        simp only [LoginProto.encodeServerProof, List.length_append, Vector.length_toList,
          ByteWriter.length_str16, ByteWriter.length_u16]
        omega
      rw [agreed, next_eq env.H player hsend.1 hmax]
      exact onFrame_serverProof (htoken.trans_lt (by decide))
    cases htold with
    | putting cid => cases hframe
    | listing cid =>
      obtain rfl := Option.some.inj hframe
      rw [hnext]
      exact .accepted hacc (.listing cid) .worlds
    | finished answer =>
      obtain rfl := Option.some.inj hframe
      rw [hnext]
      exact .accepted hacc (.finished answer) .worlds
  | worlds =>
    cases htold with
    | putting cid => cases hframe
    | listing cid => cases hframe
    | finished answer =>
      obtain rfl := Option.some.inj hframe
      rw [next_worldList (listLength_result_le answer)]
      split
      · exact .accepted hacc (.finished answer) (.listed (by simp))
      · next hcap => exact .stopped ⟨_, Nat.lt_of_not_le hcap, by simp⟩

/-- The client reads the next frame of its Login session. -/
theorem Aligned.hears (hreg : Registered env player salt verifier) {c : Point}
    {out : List Bytes} {k : ℕ} {frames : List Bytes} {frame : Bytes}
    (h : Aligned env player salt verifier lsid log c out k st pt frames) (hwait : c.waits = true)
    (hlogin : c.atMaster = false) (hframe : frames[k]? = some frame) :
    Aligned env player salt verifier lsid log (next env.H player c frame).1
      (out ++ (next env.H player c frame).2.toList) (k + 1) st pt frames := by
  have herror (c : Point) : next env.H player c LoginProto.encodeError =
      onFrame env.H player LoginProto.encodeError c :=
    next_eq env.H player (by decide) (by decide) c
  cases h with
  | calling => cases hlogin
  | hailing _ => cases hframe
  | taking => cases hframe
  | turnedAway hframes =>
    rcases hframes with rfl | rfl
    · cases hframe
    · obtain rfl := Option.some.inj hframe
      rw [herror, onFrame_error_challenge]
      exact .stopped List.mem_cons_self
  | @asked b ch hbegin =>
    obtain rfl := Option.some.inj hframe
    obtain ⟨hlen, hraises, -⟩ := hreg.exchange hbegin
    have hmax : (LoginProto.encodeServerChallenge salt ch.bBytes).length ≤ 2 ^ 20 := by
      have hlen : ch.bBytes.length = 256 := hlen
      have hsalt := hreg.salt_fits
      simp only [LoginProto.encodeServerChallenge, List.length_append,
        ByteWriter.length_str16, ByteWriter.length_bytes32, ByteWriter.length_u16]
      omega
    have hpos := (sendable_serverChallenge (hreg.salt_fits.trans (by decide)) hlen).1
    rw [next_eq env.H player hpos hmax,
      onFrame_serverChallenge hreg.salt_fits (hlen.trans_lt (by decide))]
    cases hproof : clientRespond env.H kGroup player.username player.password salt ch.bBytes
        player.a with
    | none => exact .stopped (hraises hproof)
    | some proof => exact .proving hbegin hproof
  | proving _ _ => cases hframe
  | disproved hu hframes =>
    rcases hframes with rfl | rfl
    · cases hframe
    · obtain rfl := Option.some.inj hframe
      rw [herror, onFrame_error_proof]
      exact .stopped hu
  | accepted hacc htold hheard => exact hacc.hears htold hheard hwait hframe
  | stopped _ => cases hwait

/-! ## What the stages are for -/

theorem Aligned.excused {out : List Bytes} {k : ℕ} {frames : List Bytes} {why : Failure}
    (h : Aligned env player salt verifier lsid log (.failed why) out k st pt frames) :
    Excused env frames why := by
  cases h with
  | accepted _ _ hheard => cases hheard
  | stopped hwhy => exact hwhy

theorem Aligned.accepted_of_holds {c : Point} {out : List Bytes} {k : ℕ} {frames : List Bytes}
    {proof : ClientProof} {token : Bytes}
    (h : Aligned env player salt verifier lsid log c out k st pt frames)
    (hholds : c.holds = some (proof, token)) :
    ∃ ch, Accepted env player lsid log ch proof token := by
  cases h with
  | @accepted ch _ _ _ _ _ _ _ _ hacc _ hheard =>
    cases hheard with
    | proof => cases hholds
    | worlds =>
      obtain ⟨rfl, rfl⟩ := Prod.mk.inj (Option.some.inj hholds)
      exact ⟨ch, hacc⟩
    | listed _ =>
      obtain ⟨rfl, rfl⟩ := Prod.mk.inj (Option.some.inj hholds)
      exact ⟨ch, hacc⟩
  | _ => cases hholds

theorem Aligned.listed {out : List Bytes} {k : ℕ} {frames : List Bytes} {proof : ClientProof}
    {token : Bytes} {worlds : List LoginProto.WorldEntry}
    (h : Aligned env player salt verifier lsid log (.listed proof token worlds) out k st pt
      frames) : ∃ entries, worldList entries ∈ frames ∧ worlds = WorldListing.worlds entries := by
  cases h with
  | accepted _ _ hheard =>
    cases hheard with
    | listed hmem => exact ⟨_, List.mem_cons_of_mem _ hmem, rfl⟩

/-! ## Every run -/

theorem dequeue_some {frame : Bytes} {queue rest : List Bytes}
    (h : dequeue frame queue = some rest) : queue = frame :: rest := by
  cases queue with
  | nil => cases h
  | cons f fs =>
    rw [dequeue] at h
    split at h
    · next heq => rw [heq, Option.some.inj h]
    · cases h

/-- What is delivered to the Login session was the client's next frame to it. -/
theorem Visit.deliver_some {v v' : Visit} {msid : ℕ} (h : v.deliver msid lsid l = some v') :
    v'.client = v.client ∧ v'.read = v.read ∧
      v.toLogin = (l.readBy lsid).toList ++ v'.toLogin := by
  unfold Visit.deliver at h
  cases l with
  | masterFrame sid payload it =>
    dsimp only [Label.reads] at h
    split at h
    · obtain ⟨rest, -, rfl⟩ := Option.map_eq_some_iff.mp h
      exact ⟨rfl, rfl, rfl⟩
    · obtain rfl := Option.some.inj h
      exact ⟨rfl, rfl, rfl⟩
  | worldFrame sid payload cid =>
    dsimp only [Label.reads] at h
    obtain rfl := Option.some.inj h
    exact ⟨rfl, rfl, rfl⟩
  | loginFrame sid payload cid random =>
    dsimp only [Label.reads] at h
    rw [if_neg (by nofun)] at h
    rw [Label.readBy]
    by_cases hsid : sid = lsid
    · rw [if_pos (congrArg Party.login hsid)] at h
      obtain ⟨rest, hrest, rfl⟩ := Option.map_eq_some_iff.mp h
      rw [if_pos hsid]
      exact ⟨rfl, rfl, dequeue_some hrest⟩
    · rw [if_neg fun heq => hsid (Party.login.inj heq)] at h
      obtain rfl := Option.some.inj h
      rw [if_neg hsid]
      exact ⟨rfl, rfl, rfl⟩
  | _ =>
    obtain rfl := Option.some.inj h
    exact ⟨rfl, rfl, rfl⟩

/-- The system is in a state of its own, the account is there and the exchange is aligned. -/
structure Visiting (env : Env) (player : Player) (salt verifier : Bytes) (lsid : ℕ) (v : Visit) :
    Prop where
  sys : Machine.Reachable (step env) {} v.sys
  row : v.sys.accounts player.username = some ⟨player.username, salt, verifier⟩
  aligned : Aligned env player salt verifier lsid v.sys.log v.client v.toLogin v.read
    (v.sys.login lsid).state (v.sys.login lsid).point (v.sys.framesOf (.login lsid))

theorem Visiting.step (hreg : Registered env player salt verifier) {msid : ℕ} {v v' : Visit}
    {m : Move} (hv : Visiting env player salt verifier lsid v)
    (h : v.step env player msid lsid m = some v') :
    Visiting env player salt verifier lsid v' := by
  obtain ⟨hsys, hrow, haligned⟩ := hv
  cases m with
  | sys l =>
    obtain ⟨t, ht, h⟩ := Option.bind_eq_some_iff.mp h
    obtain ⟨s', hstep, rfl⟩ := Option.map_eq_some_iff.mp h
    obtain ⟨hclient, hread, hout⟩ := Visit.deliver_some ht
    refine ⟨.step l hsys trivial hstep, ?_, ?_⟩
    · rcases (step_cases hstep).account player.username with hnone | hsame
      · rw [hrow] at hnone
        cases hnone
      · exact hsame.trans hrow
    · obtain ⟨sent, hturn, hframes⟩ := turn_of_step hstep lsid
      dsimp only
      rw [hclient, hread, hframes]
      exact (haligned.mono (step_cases hstep).log).turn hreg hrow hturn hout
  | read =>
    rw [Visit.step] at h
    split at h
    · next hwait =>
      obtain ⟨frame, hframe, rfl⟩ := Option.map_eq_some_iff.mp h
      refine ⟨hsys, hrow, ?_⟩
      cases hat : v.client.atMaster with
      | true =>
        have hmaster := Point.eq_master hat
        rw [hmaster] at haligned
        obtain ⟨hout, hst, hpt, hframes⟩ := haligned.of_master
        have hsent := Sys.mem_framesOf (List.mem_of_getElem? hframe)
        rw [Visit.party, hat, if_pos rfl] at hsent
        rw [Visit.hears, hmaster, hout, hst, hpt, hframes]
        rcases next_master env.H player
          ((answers_of_master hsys).2 _ _ hsent) with hnext | ⟨ticket, hticket, hnext⟩
        · rw [hnext]
          exact .stopped trivial
        · rw [hnext]
          exact .hailing hticket
      | false =>
        rw [Visit.party, hat, if_neg Bool.false_ne_true] at hframe
        rw [Visit.hears, hat, if_neg Bool.false_ne_true]
        exact haligned.hears hreg hwait hat hframe
    · cases h
  | hangUp =>
    rw [Visit.step] at h
    split at h
    · obtain rfl := Option.some.inj h
      exact ⟨hsys, hrow, .stopped trivial⟩
    · cases h

/-- A player of `plainEnv` and what its account was made of. -/
def plainPlayer : Player := { username := [0x75], password := [0x70], a := 1 }

def plainVerifier : Bytes := ByteCodec.toBE kNBytes 2

/-- The account is there, and a Login. -/
def doors : List Label :=
  [.createAccount ⟨plainPlayer.username, [0x73], plainVerifier⟩, .heartbeat 0 loginHost, .exec 0 []]

/-- A client that gets its list, which is empty. -/
def visitRun : List Move :=
  [.sys (.masterFrame 0 hello [hostCell]), .sys (.masterIssue 0 firstDraw), .read,
    .sys (.loginFrame 0 (LoginProto.encodeClientHello (generateTokenHex firstDraw) [0x75]) 1
      secondDraw),
    .sys (.exec 1 [ticketCell, hostCell]), .sys (.loginTaken 0 false false secondDraw 1), .read,
    .sys (.loginFrame 0 (LoginProto.encodeClientProof plainVerifier (unitHash []).toList) 2
      secondDraw),
    .sys (.exec 2 [hostCell]), .sys (.loginPut 0 false 3), .read,
    .sys (.exec 3 [tokenCell, hostCell]), .sys (.loginListed 0 false), .read]

theorem registered_plainPlayer : Registered plainEnv plainPlayer [0x73] plainVerifier where
  made := by
    have hx : computeX unitHash [0x73] plainPlayer.username plainPlayer.password = 1 := by
      decide +kernel
    have hmade := kGroup_sound.computeVerifierWithSalt_eq unitHash plainPlayer.username
      plainPlayer.password [0x73]
    rw [hx] at hmade
    exact hmade
  name_fits := by decide
  salt_fits := by decide

end Netsrv.System
