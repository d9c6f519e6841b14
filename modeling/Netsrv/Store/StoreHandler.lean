/-
  `store/store_handler.hpp`: the server side of the store's protocol, in Master.

  `dispatch` is the `switch` on a verified request, `onMessage` the whole handler: verify,
  dispatch, answer.  A payload that does not decode is ignored, and so is a response.
  `dispatch` also serves the system model, where requests are not encoded.
-/
import Netsrv.Net.Framing
import Netsrv.Store.SharedStore
import Netsrv.Store.StoreWire

namespace Netsrv.StoreHandler

open StoreWire SharedStore

/-- What one request reads from its surroundings: the clock when it tests a single entry,
    and for a walk of the map its order and the clock at each entry. -/
structure Moment where
  now : ℕ
  clk : Bytes → ℕ := fun _ => now
  it : List Cell

/-- What the handler sends back. -/
inductive Answer where
  | ok
  | value (v : Bytes)
  | notFound
  | list (entries : List (Bytes × Bytes))
  deriving DecidableEq, Repr

def Answer.ofFound : Option Bytes → Answer
  | some v => value v
  | none => notFound

/-- The `switch` of `on_message`. -/
def dispatch (m : Moment) (store : SharedStore) (d : Decoded) : SharedStore × Option Answer :=
  match d.op with
  | .put => (store.put m.now d.key d.value d.ttlSeconds.toNat, some .ok)
  | .get => (store, some (.ofFound (store.get m.now d.key)))
  | .take => ((store.take m.now d.key).2, some (.ofFound (store.take m.now d.key).1))
  | .listPrefix => (store, some (.list (listPrefix m.clk m.it d.key)))
  | .ok | .value | .notFound | .err | .list => (store, none)

variable (hmac : Hmac) (hmacKey : Bytes)

def Answer.encode : Answer → Bytes
  | ok => encodeOk hmac hmacKey
  | value v => encodeValue hmac hmacKey v
  | notFound => encodeNotFound hmac hmacKey
  | list entries => encodeList hmac hmacKey entries

/-- `StoreHandler::on_message`. -/
def onMessage (m : Moment) (store : SharedStore) (payload : Bytes) : Session.Handled SharedStore :=
  match decodeAndVerify hmac hmacKey payload with
  | none => { state := store }
  | some d =>
    { state := (dispatch m store d).1
      sent := (dispatch m store d).2.toList.map (Answer.encode hmac hmacKey) }

theorem onMessage_ended (m : Moment) (store : SharedStore) (payload : Bytes) :
    (onMessage hmac hmacKey m store payload).ended = false := by
  unfold onMessage
  split <;> rfl

variable {hmac hmacKey}

theorem onMessage_of_none {m : Moment} {store : SharedStore} {payload : Bytes}
    (h : decodeAndVerify hmac hmacKey payload = none) :
    onMessage hmac hmacKey m store payload = { state := store } := by
  rw [onMessage, h]

theorem onMessage_of_some {m : Moment} {store : SharedStore} {payload : Bytes} {d : Decoded}
    (h : decodeAndVerify hmac hmacKey payload = some d) :
    onMessage hmac hmacKey m store payload =
      { state := (dispatch m store d).1
        sent := (dispatch m store d).2.toList.map (Answer.encode hmac hmacKey) } := by
  rw [onMessage, h]

end Netsrv.StoreHandler
