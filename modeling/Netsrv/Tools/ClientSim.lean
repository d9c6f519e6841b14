/-
  `tools/client_sim.cpp`: what a client does, from Master to the list of Worlds.

  `run` writes a frame and reads one, again and again.  `Point` is where it waits for a frame,
  and `next` what it makes of the frame or of the end of the connection: where it waits then,
  and what it writes before.  It stops with the list, or with the first thing that is wrong.
-/
import Netsrv.Handlers.WorldListing
import Netsrv.Net.MasterProtocol

namespace Netsrv.ClientSim

open Srp6

/-- `1u << 20`, the longest frame that `read_frame` takes. -/
def kMaxFrame : ℕ := 2 ^ 20

def readFrame (incoming : Bytes) : Option (Bytes × Bytes) := Session.readFrame kMaxFrame incoming

/-- Who logs in; `a` is what `client_respond` draws. -/
structure Player where
  username : Bytes
  password : Bytes
  a : ℕ

/-- `"hello"`. -/
def hello : Bytes := [0x68, 0x65, 0x6c, 0x6c, 0x6f]

/-- Why the client stops short.  `raised` is the exception of `client_respond` on this `B`. -/
inductive Failure where
  | noAnswer
  | noLogin
  | unreadable
  | refused
  | raised (bBytes : Bytes)
  | proofRefused (bBytes : Bytes) (proof : ClientProof)
  | impostor
  | worldsUnreadable

/-- Where the client waits for a frame: of Master, and then of Login. -/
inductive Point where
  | master
  | challenge
  | proof (bBytes : Bytes) (proof : ClientProof)
  | worlds (proof : ClientProof) (token : Bytes)
  | listed (proof : ClientProof) (token : Bytes) (worlds : List LoginProto.WorldEntry)
  | failed (why : Failure)

/-- The client waits for a frame. -/
def Point.waits : Point → Bool
  | .master | .challenge | .proof .. | .worlds .. => true
  | .listed .. | .failed _ => false

/-- The client waits for Master. -/
def Point.atMaster : Point → Bool
  | .master => true
  | .challenge | .proof .. | .worlds .. | .listed .. | .failed _ => false

theorem Point.eq_master {p : Point} (h : p.atMaster = true) : p = .master := by
  cases p with
  | master => rfl
  | challenge | proof _ _ | worlds _ _ | listed _ _ _ | failed _ => cases h

/-- What the client has in hand once it believes the server. -/
def Point.holds : Point → Option (ClientProof × Bytes)
  | .worlds p token | .listed p token _ => some (p, token)
  | .master | .challenge | .proof .. | .failed _ => none

variable (H : Hash) (player : Player)

/-- What the client does with a frame. -/
def onFrame (frame : Bytes) : Point → Point × Option Bytes
  | .master =>
    match MasterProto.clientAnswer frame with
    | .noLogin => (.failed .noLogin, none)
    | .unreadable => (.failed .unreadable, none)
    | .redirect r =>
      (.challenge, some (LoginProto.encodeClientHello r.ticket player.username))
  | .challenge =>
    match LoginProto.decode frame with
    | none => (.failed .refused, none)
    | some d =>
      if d.op ≠ .serverChallenge then (.failed .refused, none)
      else
        match clientRespond H kGroup player.username player.password d.salt d.B player.a with
        | none => (.failed (.raised d.B), none)
        | some proof =>
          (.proof d.B proof, some (LoginProto.encodeClientProof proof.aBytes proof.M1.toList))
  | .proof bBytes proof =>
    match LoginProto.decode frame with
    | none => (.failed (.proofRefused bBytes proof), none)
    | some d =>
      if d.op ≠ .serverProof then (.failed (.proofRefused bBytes proof), none)
      else if !clientVerifyServer H proof d.M2.toList then (.failed .impostor, none)
      else (.worlds proof d.sessionToken, none)
  | .worlds proof token =>
    match LoginProto.decode frame with
    | none => (.failed .worldsUnreadable, none)
    | some d =>
      if d.op ≠ .worldList then (.failed .worldsUnreadable, none)
      else (.listed proof token d.worlds, none)
  | .listed proof token worlds => (.listed proof token worlds, none)
  | .failed why => (.failed why, none)

/-- What the client does with what `read_frame` returns when this frame comes in. -/
def next (p : Point) (frame : Bytes) : Point × Option Bytes :=
  match readFrame (Session.send frame) with
  | none => (.failed .noAnswer, none)
  | some (frame, _) => onFrame H player frame p

/-- A frame of a length that the client takes is read as it was sent. -/
theorem next_eq {frame : Bytes} (hpos : 0 < frame.length) (hmax : frame.length ≤ kMaxFrame)
    (p : Point) : next H player p frame = onFrame H player frame p := by
  have h32 : frame.length < 2 ^ 32 := hmax.trans_lt (by decide)
  have hread := Session.readFrame_send hpos hmax h32 []
  rw [List.append_nil] at hread
  rw [next, readFrame, hread]

/-! ## What the client makes of what the servers send -/

variable {H player}

theorem onFrame_masterError :
    onFrame H player MasterProto.encodeError .master = (.failed .noLogin, none) := by
  rw [onFrame, MasterProto.clientAnswer, if_pos MasterProto.isError_encodeError]

/-- A redirect is followed, with the ticket in the hello. -/
theorem onFrame_redirect {r : MasterProto.Redirect} (hr : MasterProto.RedirectFits r)
    (hticket : r.ticket.length < 65535) : onFrame H player r.encode .master =
      (.challenge, some (LoginProto.encodeClientHello r.ticket player.username)) := by
  rw [onFrame, MasterProto.clientAnswer_encodeRedirect hr hticket]

/-- A challenge is answered with a proof, unless its `B` is 0. -/
theorem onFrame_serverChallenge {salt b : Bytes} (hsalt : salt.length < 2 ^ 16)
    (hb : b.length < 2 ^ 32) :
    onFrame H player (LoginProto.encodeServerChallenge salt b) .challenge =
      match clientRespond H kGroup player.username player.password salt b player.a with
      | none => (.failed (.raised b), none)
      | some proof =>
        (.proof b proof, some (LoginProto.encodeClientProof proof.aBytes proof.M1.toList)) := by
  rw [onFrame, LoginProto.decode_encodeServerChallenge hsalt hb]
  rfl

/-- The answer of a server that has the client's key is believed. -/
theorem onFrame_serverProof {bBytes token : Bytes} {proof : ClientProof}
    (htoken : token.length < 2 ^ 16) :
    onFrame H player (LoginProto.encodeServerProof
      (computeM2 H proof.aBytes proof.M1 proof.K).toList token) (.proof bBytes proof) =
        (.worlds proof token, none) := by
  have hbelieved : clientVerifyServer H proof
      (computeM2 H proof.aBytes proof.M1 proof.K).toList = true :=
    (constantTimeEqual_iff _ _).mpr rfl
  rw [onFrame, LoginProto.decode_encodeServerProof _ htoken]
  dsimp only
  rw [if_neg (by decide), hbelieved]
  rfl

theorem onFrame_worldList {proof : ClientProof} {token : Bytes}
    {worlds : List LoginProto.WorldEntry} (hcap : worlds.length ≤ LoginProto.kMaxWorlds)
    (hfits : ∀ w ∈ worlds, LoginProto.WorldFits w) :
    onFrame H player (LoginProto.encodeWorldList worlds) (.worlds proof token) =
      (.listed proof token worlds, none) := by
  rw [onFrame, WorldListing.decode_encodeWorldList hcap hfits]
  rfl

theorem onFrame_worldList_of_too_many {proof : ClientProof} {token : Bytes}
    {worlds : List LoginProto.WorldEntry} (hcap : LoginProto.kMaxWorlds < worlds.length)
    (h32 : worlds.length < 2 ^ 32) :
    onFrame H player (LoginProto.encodeWorldList worlds) (.worlds proof token) =
      (.failed .worldsUnreadable, none) := by
  rw [onFrame, WorldListing.decode_encodeWorldList_of_too_many hcap h32]

theorem decode_encodeError : LoginProto.decode LoginProto.encodeError =
    some { op := .serverError } := by
  decide

/-- An error is no challenge. -/
theorem onFrame_error_challenge :
    onFrame H player LoginProto.encodeError .challenge = (.failed .refused, none) := by
  rw [onFrame, decode_encodeError]
  rfl

/-- An error is no proof. -/
theorem onFrame_error_proof {bBytes : Bytes} {proof : ClientProof} :
    onFrame H player LoginProto.encodeError (.proof bBytes proof) =
      (.failed (.proofRefused bBytes proof), none) := by
  rw [onFrame, decode_encodeError]
  rfl

end Netsrv.ClientSim
