/-
  `handlers/login_handler.hpp`: the two steps of a Login session.

  A session waits for a `ClientHello`, then for a `ClientProof`, then is done; a message out
  of order closes it.  The handler waits for the store three times, after a hello for the
  `Take` of the ticket, after a proof for the `Put` of the session token and the listing of
  the worlds.  `onMessage` is what it does up to the first wait; `ticketTaken` and `proved`
  what follows a `Take` and the check of a proof.

  The account repository answers with a record, with nothing, or with an exception; random
  numbers and the SHA-256 and HMAC of the process are arguments.
-/
import Netsrv.Net.LoginProtocol
import Netsrv.Registry.WorldRegistry
import Netsrv.Security.Srp6

namespace Netsrv.LoginHandler

open Srp6

/-- `accounts::AccountRecord`. -/
structure AccountRecord where
  username : Bytes
  salt : Bytes
  verifier : Bytes
  deriving DecidableEq, Repr

/-- What the process runs on: the two primitives, and the key that hides missing accounts. -/
structure Env where
  H : Hash
  hmac : Hmac
  enumKey : Bytes

/-- `session_ttl`, in seconds. -/
def sessionTtl : ℕ := 60

inductive Stage where
  | awaitingHello | awaitingProof | done
  deriving DecidableEq, Repr

structure SessionState where
  stage : Stage := .awaitingHello
  username : Bytes := []
  challenge : Option ServerChallenge := none

/-- What `on_message` does first. -/
inductive Action where
  | hello (ticket username : Bytes)
  | proof (a m1 : Bytes)
  | close

def onMessage (st : SessionState) (payload : Bytes) : Action :=
  match LoginProto.decode payload with
  | none => .close
  | some d =>
    if st.stage = .awaitingHello ∧ d.op = .clientHello then .hello d.ticket d.username
    else if st.stage = .awaitingProof ∧ d.op = .clientProof then .proof d.A d.M1.toList
    else .close

/-! ## After the `Take` of the ticket -/

section Hello

variable (env : Env)

/-- `"srp6-fake-salt:"`. -/
def fakeSaltLabel : Bytes :=
  [0x73, 0x72, 0x70, 0x36, 0x2d, 0x66, 0x61, 0x6b, 0x65, 0x2d, 0x73, 0x61, 0x6c, 0x74, 0x3a]

def fakeSaltFor (username : Bytes) : Bytes :=
  (env.hmac env.enumKey (fakeSaltLabel ++ username)).toList.take 16

/-- The registration a challenge is made from: the account's own, or a made-up one of the
    same shape. -/
def registrationFor (account : Option AccountRecord) (username fakePassword : Bytes) :
    Option Registration :=
  match account with
  | some record => some { salt := record.salt, verifier := record.verifier }
  | none => computeVerifierWithSalt env.H kGroup username fakePassword (fakeSaltFor env username)

/-- How a hello ends: with the session closed and the frames sent before that, or with a
    challenge. -/
inductive HelloResult where
  | closed (sent : List Bytes)
  | challenge (challenge : ServerChallenge) (response : Bytes)

/-- `lookup` is `accounts_->find(username)`, `none` its exception.  A challenge that cannot be
    computed is an exception as well, which ends the session without a word. -/
def ticketTaken (found : Option Bytes) (lookup : Option (Option AccountRecord))
    (username fakePassword : Bytes) (b : ℕ) : HelloResult :=
  match found with
  | none => .closed []
  | some _ =>
    match lookup with
    | none => .closed [LoginProto.encodeError]
    | some account =>
      match registrationFor env account username fakePassword with
      | none => .closed []
      | some reg =>
        match serverBegin env.H kGroup reg.verifier b with
        | none => .closed []
        | some challenge =>
          .challenge challenge (LoginProto.encodeServerChallenge reg.salt challenge.bBytes)

end Hello

/-! ## The proof -/

/-- How the check of a proof ends. -/
inductive ProofResult where
  | closed (sent : List Bytes)
  | accepted (result : ServerResult)

/-- `server_verify` on the challenge of the session; it throws, or refuses, or accepts. -/
def proved (env : Env) (st : SessionState) (a m1 : Bytes) : ProofResult :=
  match st.challenge with
  | none => .closed []
  | some challenge =>
    match serverVerify env.H kGroup challenge a m1 with
    | none => .closed []
    | some result => if result.ok then .accepted result else .closed [LoginProto.encodeError]

/-- The list a client gets after its proof. -/
def worldList (entries : List (Bytes × Bytes)) : Bytes :=
  LoginProto.encodeWorldList ((Registry.listWorlds entries).map fun w =>
    { name := w.name, host := w.host, port := w.port, population := w.population })

theorem ticketTaken_challenge {env : Env} {found : Option Bytes}
    {lookup : Option (Option AccountRecord)} {username fakePassword response : Bytes} {b : ℕ}
    {challenge : ServerChallenge}
    (h : ticketTaken env found lookup username fakePassword b = .challenge challenge response) :
    found.isSome ∧ ∃ account reg, lookup = some account ∧
      registrationFor env account username fakePassword = some reg ∧
      serverBegin env.H kGroup reg.verifier b = some challenge ∧
      response = LoginProto.encodeServerChallenge reg.salt challenge.bBytes := by
  unfold ticketTaken at h
  split at h
  · cases h
  · split at h
    · cases h
    · next account =>
      split at h
      · cases h
      · next reg hreg =>
        split at h
        · cases h
        · next ch hch =>
          obtain ⟨rfl, rfl⟩ := HelloResult.challenge.inj h
          exact ⟨rfl, account, reg, rfl, hreg, hch, rfl⟩

/-- Without a challenge the session is closed, with an error if the look-up failed. -/
theorem ticketTaken_closed {env : Env} {found : Option Bytes}
    {lookup : Option (Option AccountRecord)} {username fakePassword : Bytes} {b : ℕ}
    {frames : List Bytes}
    (h : ticketTaken env found lookup username fakePassword b = .closed frames) :
    frames = [] ∨ frames = [LoginProto.encodeError] ∧ found.isSome ∧ lookup = none := by
  unfold ticketTaken at h
  split at h
  · exact Or.inl (HelloResult.closed.inj h).symm
  · split at h
    · exact Or.inr ⟨(HelloResult.closed.inj h).symm, rfl, rfl⟩
    · split at h
      · exact Or.inl (HelloResult.closed.inj h).symm
      · split at h
        · exact Or.inl (HelloResult.closed.inj h).symm
        · cases h

theorem proved_accepted {env : Env} {st : SessionState} {a m1 : Bytes} {result : ServerResult}
    (h : proved env st a m1 = .accepted result) :
    ∃ challenge, st.challenge = some challenge ∧
      serverVerify env.H kGroup challenge a m1 = some result ∧ result.ok = true := by
  unfold proved at h
  split at h
  · cases h
  · next challenge hch =>
    split at h
    · cases h
    · next r hr =>
      split at h
      · next hok =>
        obtain rfl := ProofResult.accepted.inj h
        exact ⟨challenge, hch, hr, hok⟩
      · cases h

theorem proved_closed {env : Env} {st : SessionState} {a m1 : Bytes} {frames : List Bytes}
    (h : proved env st a m1 = .closed frames) :
    frames = [] ∨ frames = [LoginProto.encodeError] := by
  unfold proved at h
  split at h
  · exact Or.inl (ProofResult.closed.inj h).symm
  · split at h
    · exact Or.inl (ProofResult.closed.inj h).symm
    · split at h
      · cases h
      · exact Or.inr (ProofResult.closed.inj h).symm

theorem onMessage_hello {st : SessionState} {payload ticket username : Bytes}
    (h : onMessage st payload = .hello ticket username) : st.stage = .awaitingHello := by
  unfold onMessage at h
  split at h
  · cases h
  · split at h
    · next hstage => exact hstage.1
    · split at h <;> cases h

theorem onMessage_proof {st : SessionState} {payload a m1 : Bytes}
    (h : onMessage st payload = .proof a m1) : st.stage = .awaitingProof := by
  unfold onMessage at h
  split at h
  · cases h
  · split at h
    · cases h
    · split at h
      · next hstage => exact hstage.1
      · cases h

end Netsrv.LoginHandler
