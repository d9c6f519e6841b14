/-
  `store/store_client.hpp`: the client side of the store's protocol, in Login and World.

  A call encodes its request, makes one round trip on a connection of its own and turns the
  answer, or its absence, into the caller's result.  `roundtrip` never raises: every network
  or protocol error is `none`.  The three `...Result` functions are what the public methods
  make of a round trip; the handlers of the system model use them as well.
-/
import Netsrv.Net.Framing
import Netsrv.Store.StoreWire

namespace Netsrv.StoreClient

open StoreWire

/-- `1 << 20`. -/
def kMaxResponseBytes : ℕ := 2 ^ 20

/-! ## What the caller makes of a response -/

/-- `resp && resp->op == Op::Ok`. -/
def putResult : Option Decoded → Bool
  | none => false
  | some d => d.op = .ok

/-- `get_or_take` after its round trip. -/
def getOrTakeResult : Option Decoded → Option Bytes
  | none => none
  | some d => if d.op ≠ .value then none else some d.value

/-- `list_prefix` after its round trip. -/
def listPrefixResult : Option Decoded → List Entry
  | none => []
  | some d => if d.op ≠ .list then [] else d.entries

/-! ## The round trip -/

section Calls

variable (hmac : Hmac) (hmacKey : Bytes)

/-- The reading half of `roundtrip`: the header, the limit, the body, the decoder. -/
def receive (incoming : Bytes) : Option Decoded :=
  (Session.readFrame kMaxResponseBytes incoming).bind fun frame =>
    decodeAndVerify hmac hmacKey frame.1

/-- `roundtrip` on a connection that carries everything written and everything answered:
    `connection` turns the bytes the client writes into the bytes it can then read. -/
def roundtrip (connection : Bytes → Bytes) (request : Bytes) : Option Decoded :=
  receive hmac hmacKey (connection (Session.send request))

/-- `static_cast<std::uint32_t>(ttl.count())` cuts the lifetime to 32 bits. -/
def putRequest (key value : Bytes) (ttl : ℕ) : Bytes :=
  encodePut hmac hmacKey key value (UInt32.ofNat ttl)

def put (connection : Bytes → Bytes) (key value : Bytes) (ttl : ℕ) : Bool :=
  putResult (roundtrip hmac hmacKey connection (putRequest hmac hmacKey key value ttl))

def get (connection : Bytes → Bytes) (key : Bytes) : Option Bytes :=
  getOrTakeResult (roundtrip hmac hmacKey connection (encodeGetOrTake hmac hmacKey .get key))

def take (connection : Bytes → Bytes) (key : Bytes) : Option Bytes :=
  getOrTakeResult (roundtrip hmac hmacKey connection (encodeGetOrTake hmac hmacKey .take key))

def listPrefix (connection : Bytes → Bytes) (pre : Bytes) : List Entry :=
  listPrefixResult (roundtrip hmac hmacKey connection (encodeListPrefix hmac hmacKey pre))

end Calls

theorem receive_nil (hmac : Hmac) (hmacKey : Bytes) : receive hmac hmacKey [] = none := rfl

/-- An answer within the limit reaches the decoder whole, and alone. -/
theorem receive_send_append (hmac : Hmac) (hmacKey : Bytes) {answer : Bytes}
    (hpos : 0 < answer.length) (hmax : answer.length ≤ kMaxResponseBytes) (rest : Bytes) :
    receive hmac hmacKey (Session.send answer ++ rest) =
      decodeAndVerify hmac hmacKey answer := by
  have hmax' : answer.length ≤ 1048576 := hmax
  rw [receive, Session.readFrame_send hpos hmax (by omega) rest, Option.bind_some]

theorem receive_send (hmac : Hmac) (hmacKey : Bytes) {answer : Bytes} (hpos : 0 < answer.length)
    (hmax : answer.length ≤ kMaxResponseBytes) :
    receive hmac hmacKey (Session.send answer) = decodeAndVerify hmac hmacKey answer := by
  have h := receive_send_append hmac hmacKey hpos hmax []
  rwa [List.append_nil] at h

/-- Whatever its length, an answer reaches the decoder as some prefix of it, or not at all:
    the header holds the length modulo `2 ^ 32`. -/
theorem receive_send_prefix (hmac : Hmac) (hmacKey answer : Bytes) :
    receive hmac hmacKey (Session.send answer) = none ∨
      receive hmac hmacKey (Session.send answer) =
        decodeAndVerify hmac hmacKey (answer.take (answer.length % 2 ^ 32)) := by
  rw [receive, Session.send, Session.readFrame_header]
  by_cases hlimit : answer.length % 2 ^ 32 = 0 ∨ answer.length % 2 ^ 32 > kMaxResponseBytes
  · exact Or.inl (by rw [if_pos hlimit, Option.bind_none])
  · right
    rw [if_neg hlimit, if_neg (Nat.not_lt.mpr (Nat.mod_le _ _)), Option.bind_some]

/-- An answer over the limit whose length the header can hold is refused. -/
theorem receive_send_of_too_long (hmac : Hmac) (hmacKey : Bytes) {answer : Bytes}
    (hmax : kMaxResponseBytes < answer.length) (h32 : answer.length < 2 ^ 32) :
    receive hmac hmacKey (Session.send answer) = none := by
  rw [receive, Session.send, Session.readFrame_header, Nat.mod_eq_of_lt h32,
    if_pos (Or.inr hmax), Option.bind_none]

end Netsrv.StoreClient
