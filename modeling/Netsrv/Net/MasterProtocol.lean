/-
  `net/master_protocol.hpp`: Master's one answer to a client, and how `client_sim.cpp`
  reads it.

  The error is not tagged: it is the length `0xFFFF` where a redirect has the length of its
  ticket.
-/
import Netsrv.Net.ByteIo

namespace Netsrv.MasterProto

open ByteCodec PrefixParser

def encodeRedirect (ticket loginHost : Bytes) (loginPort : UInt16) : Bytes :=
  ByteWriter.str16 ticket ++ ByteWriter.str16 loginHost ++ ByteWriter.u16 loginPort

def encodeError : Bytes := ByteWriter.u16 0xFFFF

structure Redirect where
  ticket : Bytes
  loginHost : Bytes
  loginPort : UInt16
  deriving DecidableEq, Repr

def readRedirect : ByteReader Redirect := do
  let ticket ← ByteReader.str16
  let loginHost ← ByteReader.str16
  let loginPort ← ByteReader.u16
  pure { ticket, loginHost, loginPort }

def decodeRedirect (msg : Bytes) : Option Redirect := (readRedirect.run msg).map Prod.fst

def isError (msg : Bytes) : Bool :=
  match ByteReader.u16.run msg with
  | none => false
  | some (v, _) => v == 0xFFFF

/-- What the client makes of the answer: it goes on to Login, or says why it cannot. -/
inductive MasterAnswer where
  | noLogin
  | unreadable
  | redirect (r : Redirect)
  deriving DecidableEq, Repr

/-- `run` of `client_sim.cpp`, from Master's frame to the connection to Login. -/
def clientAnswer (msg : Bytes) : MasterAnswer :=
  if isError msg then .noLogin
  else match decodeRedirect msg with
    | none => .unreadable
    | some r => .redirect r

/-- The strings the length fields can hold. -/
def RedirectFits (r : Redirect) : Prop := r.ticket.length < 2 ^ 16 ∧ r.loginHost.length < 2 ^ 16

def Redirect.encode (r : Redirect) : Bytes := encodeRedirect r.ticket r.loginHost r.loginPort

theorem exact_readRedirect : Exact readRedirect (Enc RedirectFits Redirect.encode) := by
  refine (exact_bind ByteReader.exact_str16 fun ticket => exact_bind ByteReader.exact_str16
    fun host => exact_bind ByteReader.exact_u16 fun port => exact_pure _).congr fun r w => ?_
  constructor
  · rintro ⟨ticket, _, _, ⟨hticket, rfl⟩, ⟨host, _, _, ⟨hhost, rfl⟩, ⟨port, _, _, ⟨_, rfl⟩,
      ⟨rfl, rfl⟩, rfl⟩, rfl⟩, rfl⟩
    exact ⟨⟨hticket, hhost⟩, by simp [Redirect.encode, encodeRedirect]⟩
  · rintro ⟨⟨hticket, hhost⟩, rfl⟩
    exact ⟨r.ticket, _, _, ⟨hticket, rfl⟩, ⟨r.loginHost, _, _, ⟨hhost, rfl⟩, ⟨r.loginPort, _, [],
      ⟨trivial, rfl⟩, ⟨rfl, rfl⟩, rfl⟩, rfl⟩, by simp [Redirect.encode, encodeRedirect]⟩

theorem decodeRedirect_eq_some_iff (msg : Bytes) (r : Redirect) :
    decodeRedirect msg = some r ↔ RedirectFits r ∧ ∃ rest, msg = r.encode ++ rest :=
  exact_readRedirect.answer_enc_iff msg r

/-! ## The untagged error -/

/-- Only the first length is looked at. -/
theorem isError_append (v : UInt16) (rest : Bytes) :
    isError (ByteWriter.u16 v ++ rest) = (v == 0xFFFF) := by
  have hread := (ByteReader.exact_u16 _ v rest).mpr ⟨_, ⟨trivial, rfl⟩, rfl⟩
  rw [isError, hread]

theorem isError_encodeError : isError encodeError = true := by
  have h := isError_append 0xFFFF []
  rwa [List.append_nil] at h

/-- A redirect is taken for the error at one length of the ticket. -/
theorem isError_encodeRedirect {ticket : Bytes} (hticket : ticket.length < 2 ^ 16)
    (loginHost : Bytes) (loginPort : UInt16) :
    isError (encodeRedirect ticket loginHost loginPort) = true ↔ ticket.length = 65535 := by
  rw [encodeRedirect, ByteWriter.str16, List.append_assoc, List.append_assoc, isError_append,
    beq_iff_eq, ← UInt16.toNat_inj, UInt16.toNat_ofNat', Nat.mod_eq_of_lt hticket]
  rfl

theorem clientAnswer_encodeRedirect {r : Redirect} (hr : RedirectFits r)
    (hticket : r.ticket.length < 65535) : clientAnswer r.encode = .redirect r := by
  have herr : ¬ isError r.encode = true := by
    rw [Redirect.encode, isError_encodeRedirect hr.1]
    omega
  have hdec : decodeRedirect r.encode = some r :=
    (decodeRedirect_eq_some_iff _ _).mpr ⟨hr, [], (List.append_nil _).symm⟩
  rw [clientAnswer, if_neg herr, hdec]

/-- A message of two bytes holds no redirect. -/
theorem decodeRedirect_encodeError : decodeRedirect encodeError = none := by
  cases hdec : decodeRedirect encodeError with
  | none => rfl
  | some r =>
    obtain ⟨-, rest, hrest⟩ := (decodeRedirect_eq_some_iff _ _).mp hdec
    have hlen := congrArg List.length hrest
    simp [encodeError, Redirect.encode, encodeRedirect] at hlen
    omega

end Netsrv.MasterProto
