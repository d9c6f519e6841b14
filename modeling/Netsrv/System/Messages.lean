/-
  What a step sends, and on what grounds.

  A handler sends at most one frame between two of its waits.  `Message` has one case for
  each `session.send` of Master, Login and World, with what the handler knows at that point;
  `step_messages` is that a step sends one of these or nothing.  What holds of every frame
  of every run is then a case analysis of `Message`.
-/
import Netsrv.System.Cluster

namespace Netsrv.System

open StoreWire LoginHandler Registry Srp6

def Event.message? : Event → Option (Party × Bytes)
  | .sent party frame => some (party, frame)
  | .challenged .. | .verified .. | .authenticated .. | .dispatched .. => none

/-- What was sent and by whom, the newest first. -/
def Sys.messages (s : Sys) : List (Party × Bytes) := s.log.filterMap Event.message?

def Label.ofLogin : Label → Bool
  | .loginFrame .. | .loginTaken .. | .loginPut .. | .loginListed .. => true
  | _ => false

/-- A frame that a step can send. -/
inductive Message (env : Env) (s : Sys) : Label → Party → Bytes → Prop
  | masterError {sid : ℕ} {payload : Bytes} {it : List SharedStore.Cell} :
      Message env s (.masterFrame sid payload it) (.master sid) MasterProto.encodeError
  | redirect {sid : ℕ} {info : LoginInfo} (random : Vector UInt8 16) :
      (s.master sid).pending = some info →
      Message env s (.masterIssue sid random) (.master sid)
        (MasterHandler.redirect (generateTokenHex random) info)
  | loginError {l : Label} {sid : ℕ} : l.ofLogin = true →
      Message env s l (.login sid) LoginProto.encodeError
  | challenge {sid b : ℕ} {lost lookupFails : Bool} {random : Vector UInt8 16}
      {username : Bytes} {reg : Registration} {ch : ServerChallenge} :
      registrationFor env (s.accounts username) username (generateTokenHex random) = some reg →
      serverBegin env.H kGroup reg.verifier b = some ch →
      Message env s (.loginTaken sid lost lookupFails random b) (.login sid)
        (LoginProto.encodeServerChallenge reg.salt ch.bBytes)
  | proof {sid cid waited : ℕ} {lost : Bool} {result : ServerResult} {token : Bytes}
      {outcome : Option Decoded} : (s.login sid).point = .putting waited result token →
      s.awaited waited lost = some outcome →
      Message env s (.loginPut sid lost cid) (.login sid)
        (LoginProto.encodeServerProof result.M2 token)
  | worlds {sid cid : ℕ} {lost : Bool} {outcome : Option Decoded} :
      s.awaited cid lost = some outcome →
      Message env s (.loginListed sid lost) (.login sid)
        (worldList (StoreClient.listPrefixResult outcome))
  | echo {sid cid : ℕ} {payload body : Bytes} {opcode : UInt16} : FrameFits .world payload →
      WorldHandler.onMessage (s.world sid).state payload = .dispatch opcode body →
      opcode = PlayerChannel.CPLAYER_MOVE ∨ opcode = PlayerChannel.CPLAYER_PORTAL →
      Message env s (.worldFrame sid payload cid) (.world sid) body

/-- Nothing is sent, or one message. -/
inductive Speaks (env : Env) (s : Sys) (l : Label) (s' : Sys) : Prop
  | silent : s'.messages = s.messages → Speaks env s l s'
  | sends {party : Party} {frame : Bytes} : Message env s l party frame →
      s'.messages = (party, frame) :: s.messages → Speaks env s l s'

variable {env : Env} {s s' : Sys} {l : Label}

/-! ## One step -/

theorem speaks_closeLogin (sid : ℕ) {frames : List Bytes}
    (hframes : frames = [] ∨ frames = [LoginProto.encodeError]) (hl : l.ofLogin = true) :
    Speaks env s l (s.closeLogin sid frames) := by
  rcases hframes with rfl | rfl
  · exact .silent rfl
  · exact .sends (.loginError hl) rfl

theorem speaks_of_loginFrame {sid cid : ℕ} {payload : Bytes} {random : Vector UInt8 16}
    (h : step env s (.loginFrame sid payload cid random) = some s') :
    Speaks env s (.loginFrame sid payload cid random) s' := by
  rw [step] at h
  split at h
  · split at h
    · split at h
      · obtain rfl := Option.some.inj h
        exact speaks_closeLogin sid (Or.inl rfl) rfl
      · obtain ⟨t, ht, rfl⟩ := Option.map_eq_some_iff.mp h
        obtain ⟨-, rfl⟩ := Sys.issue_some ht
        exact .silent rfl
      · split at h
        · obtain ⟨t, ht, rfl⟩ := Option.map_eq_some_iff.mp h
          obtain ⟨-, rfl⟩ := Sys.issue_some ht
          exact .silent rfl
        · next frames hproved =>
          obtain rfl := Option.some.inj h
          exact speaks_closeLogin sid (proved_closed hproved) rfl
        · cases h
    · cases h
  · cases h

theorem speaks_of_loginTaken {sid b : ℕ} {lost lookupFails : Bool} {random : Vector UInt8 16}
    (h : step env s (.loginTaken sid lost lookupFails random b) = some s') :
    Speaks env s (.loginTaken sid lost lookupFails random b) s' := by
  rw [step] at h
  split at h
  · next cid ticket username _ =>
    obtain ⟨outcome, -, rfl⟩ := Option.map_eq_some_iff.mp h
    split
    · next frames hclosed =>
      exact speaks_closeLogin sid ((ticketTaken_closed hclosed).imp_right And.left) rfl
    · next ch response hres =>
      obtain ⟨-, account, reg, hlookup, hreg, hbegin, rfl⟩ := ticketTaken_challenge hres
      split at hlookup
      · cases hlookup
      · obtain rfl := Option.some.inj hlookup
        exact .sends (.challenge hreg hbegin) rfl
  · cases h

theorem speaks_of_worldFrame {sid cid : ℕ} {payload : Bytes}
    (h : step env s (.worldFrame sid payload cid) = some s') :
    Speaks env s (.worldFrame sid payload cid) s' := by
  rw [step] at h
  split at h
  · next hguard =>
    split at h
    · obtain ⟨t, ht, rfl⟩ := Option.map_eq_some_iff.mp h
      obtain ⟨-, rfl⟩ := Sys.issue_some ht
      exact .silent rfl
    · obtain rfl := Option.some.inj h
      exact .silent rfl
    · next opcode body hmsg =>
      obtain rfl := Option.some.inj h
      rcases PlayerChannel.dispatch_cases opcode body with ⟨hbody, hop⟩ | ⟨hnil, -⟩
      · rw [hbody]
        exact .sends (.echo hguard.1 hmsg hop) rfl
      · rw [hnil]
        exact .silent rfl
  · cases h

/-- A step sends nothing, or one message. -/
theorem step_messages (h : step env s l = some s') : Speaks env s l s' := by
  cases l with
  | loginFrame sid payload cid random => exact speaks_of_loginFrame h
  | loginTaken sid lost lookupFails random b => exact speaks_of_loginTaken h
  | worldFrame sid payload cid => exact speaks_of_worldFrame h
  | loginPut sid lost cid =>
    rw [step] at h
    split at h
    · next waited result token hpoint =>
      obtain ⟨outcome, hout, h⟩ := Option.bind_eq_some_iff.mp h
      obtain ⟨t, ht, rfl⟩ := Option.map_eq_some_iff.mp h
      obtain ⟨-, rfl⟩ := Sys.issue_some ht
      exact .sends (.proof hpoint hout) rfl
    · cases h
  | loginListed sid lost =>
    rw [step] at h
    split at h
    · obtain ⟨outcome, hout, rfl⟩ := Option.map_eq_some_iff.mp h
      exact .sends (.worlds hout) rfl
    · cases h
  | masterFrame sid payload it =>
    cases step_cases h with
    | masterRefuses _ => exact .sends .masterError rfl
    | masterPicks _ _ => exact .silent rfl
    | loginCloses frames hl => cases hl
  | masterIssue sid random =>
    cases step_cases h with
    | masterIssues _ hpending => exact .sends (.redirect random hpending) rfl
    | loginCloses frames hl => cases hl
  | tick _ | sweep _ | createAccount _ | heartbeat _ _ | get _ _ | exec _ _ | worldTaken _ _
  | disconnect _ =>
    cases step_cases h with
    | loginCloses frames hl => cases hl
    | _ => exact .silent rfl

end Netsrv.System
