/-
  `handlers/world_handler.hpp`, with `handlers/player_channel.hpp` and the dispatch of
  `net/channel.hpp`.

  The first message is a session token, which is taken from the store; everything after it
  is an opcode and a body for the `PlayerChannel`.  `onMessage` is the handler up to its
  first wait, `taken` what it does with the answer of the `Take`.
-/
import Netsrv.Net.ByteIo

namespace Netsrv

namespace PlayerChannel

def CPLAYER_PONG : UInt16 := 0x0001

def CPLAYER_MOVE : UInt16 := 0x0002

def CPLAYER_PORTAL : UInt16 := 0x0003

/-- `Channel::dispatch` over `build_handlers()`, by the frames the handler sends: an unknown
    opcode is ignored. -/
def dispatch (opcode : UInt16) (body : Bytes) : List Bytes :=
  if opcode = CPLAYER_PONG then []
  else if opcode = CPLAYER_MOVE then [body]
  else if opcode = CPLAYER_PORTAL then [body]
  else []

/-- The handler of the player's opcodes sends the body back, or nothing. -/
theorem dispatch_cases (opcode : UInt16) (body : Bytes) :
    (dispatch opcode body = [body] ∧
      (opcode = CPLAYER_MOVE ∨ opcode = CPLAYER_PORTAL)) ∨
    (dispatch opcode body = [] ∧
      ¬ (opcode = CPLAYER_MOVE ∨ opcode = CPLAYER_PORTAL)) := by
  rw [dispatch]
  by_cases hpong : opcode = CPLAYER_PONG
  · rw [if_pos hpong, hpong]
    exact Or.inr ⟨rfl, by decide⟩
  · rw [if_neg hpong]
    by_cases hmove : opcode = CPLAYER_MOVE
    · exact Or.inl ⟨if_pos hmove, Or.inl hmove⟩
    · rw [if_neg hmove]
      by_cases hportal : opcode = CPLAYER_PORTAL
      · exact Or.inl ⟨if_pos hportal, Or.inr hportal⟩
      · exact Or.inr ⟨if_neg hportal, fun h => h.elim hmove hportal⟩

end PlayerChannel

namespace WorldHandler

structure SessionState where
  authenticated : Bool := false
  username : Bytes := []
  deriving DecidableEq, Repr

/-- What `on_message` does first. -/
inductive Action where
  | take (token : Bytes)
  | ignore
  | dispatch (opcode : UInt16) (body : Bytes)
  deriving DecidableEq, Repr

def onMessage (ctx : SessionState) (payload : Bytes) : Action :=
  if !ctx.authenticated then .take payload
  else if payload.length < 2 then .ignore
  else .dispatch (UInt16.ofNat (ByteCodec.ofLE (payload.take 2))) (payload.drop 2)

/-- After the `Take`: without a value the session is closed. -/
def taken (found : Option Bytes) : Option SessionState :=
  found.map fun value => { authenticated := true, username := value }

/-- A session that has not authenticated dispatches nothing. -/
theorem onMessage_dispatch {ctx : SessionState} {payload body : Bytes} {opcode : UInt16}
    (h : onMessage ctx payload = .dispatch opcode body) : ctx.authenticated = true := by
  unfold onMessage at h
  by_cases hauth : ctx.authenticated = true
  · exact hauth
  · simp [hauth] at h

theorem onMessage_take {ctx : SessionState} {payload token : Bytes}
    (h : onMessage ctx payload = .take token) : token = payload ∧ ctx.authenticated = false := by
  unfold onMessage at h
  by_cases hauth : ctx.authenticated = true
  · simp only [hauth, Bool.not_true, Bool.false_eq_true, if_false] at h
    split at h <;> cases h
  · simp only [hauth, Bool.not_false, if_true] at h
    obtain rfl := Action.take.inj h
    exact ⟨rfl, eq_false_of_ne_true hauth⟩

end WorldHandler

end Netsrv
