/-
  Master, Login, World and the shared store as one machine.

  Any number of clients open sessions with any of the three servers and send any frames.  A
  session's handler runs from one wait to the next as one step: on a frame, on the outcome
  of a store call, or, for Master, between its two uses of the store.  A session that waits
  for a call goes on when the answer has arrived, or at any time with the call lost.  In
  between the store executes calls, sweeps, time passes, processes register themselves or
  read a key, and peers disconnect.

  A step takes from its label what the code gets from outside: the payload, random bytes,
  the order of a walk, whether a call is lost.  `Step` says what each step does; `step_cases`
  is that the step function does nothing else.  `log` is not in the program: it records
  frames sent and gates passed, newest first.
-/
import Netsrv.Handlers.LoginHandler
import Netsrv.Handlers.MasterHandler
import Netsrv.Handlers.WorldHandler
import Netsrv.Lib.Machine
import Netsrv.System.Backend

namespace Netsrv.System

open StoreWire LoginHandler Registry Srp6

/-! ## Sessions -/

/-- A Master session; `pending` is the Login picked for the message in hand. -/
structure MasterSession where
  pending : Option LoginInfo := none
  closed : Bool := false

/-- Where the coroutine of a Login session stands. -/
inductive LoginPoint where
  | reading
  | taking (cid : ℕ) (ticket username : Bytes)
  | putting (cid : ℕ) (result : ServerResult) (token : Bytes)
  | listing (cid : ℕ)

structure LoginSession where
  state : LoginHandler.SessionState := {}
  point : LoginPoint := .reading
  closed : Bool := false

/-- A World session; `waiting` is the call for its token. -/
structure WorldSession where
  state : WorldHandler.SessionState := {}
  waiting : Option (ℕ × Bytes) := none
  closed : Bool := false

inductive Event where
  | sent (party : Party) (frame : Bytes)
  /-- A Login session sends a `ServerChallenge`, made for `username` on this ticket. -/
  | challenged (sid cid : ℕ) (ticket username : Bytes) (challenge : ServerChallenge)
  /-- `server_verify` accepts a proof; `token` is the session token drawn for it. -/
  | verified (sid : ℕ) (username : Bytes) (challenge : ServerChallenge) (a m1 token : Bytes)
  /-- A World session becomes authenticated with this token. -/
  | authenticated (sid cid : ℕ) (token username : Bytes)
  | dispatched (sid : ℕ) (opcode : UInt16) (body : Bytes)

structure Sys where
  backend : Backend := {}
  accounts : Bytes → Option AccountRecord := fun _ => none
  master : ℕ → MasterSession := fun _ => {}
  login : ℕ → LoginSession := fun _ => {}
  world : ℕ → WorldSession := fun _ => {}
  log : List Event := []

/-! ## Requests -/

def takeRequest (key : Bytes) : Decoded := { op := .take, key }

def putRequest (key value : Bytes) (ttl : ℕ) : Decoded :=
  { op := .put, key, value, ttlSeconds := UInt32.ofNat ttl }

def listRequest (pre : Bytes) : Decoded := { op := .listPrefix, key := pre }

def getRequest (key : Bytes) : Decoded := { op := .get, key }

def heartbeatRequest (r : Registrant) : Decoded := putRequest r.key r.value heartbeatTtl

/-! ## Steps -/

namespace Sys

def record (s : Sys) (e : Event) : Sys := { s with log := e :: s.log }

def send (s : Sys) (party : Party) (frames : List Bytes) : Sys :=
  { s with log := (frames.map (Event.sent party)).reverse ++ s.log }

def setMaster (s : Sys) (sid : ℕ) (m : MasterSession) : Sys :=
  { s with master := Function.update s.master sid m }

def setLogin (s : Sys) (sid : ℕ) (l : LoginSession) : Sys :=
  { s with login := Function.update s.login sid l }

def setWorld (s : Sys) (sid : ℕ) (w : WorldSession) : Sys :=
  { s with world := Function.update s.world sid w }

/-- A call under a number that was not used before. -/
def issue (s : Sys) (cid : ℕ) (party : Party) (request : Decoded) : Option Sys :=
  if (s.backend.calls cid).isSome then none
  else some { s with backend := s.backend.issue cid party request }

/-- The end of a wait: the outcome of a round trip, lost or answered. -/
def awaited (s : Sys) (cid : ℕ) (lost : Bool) : Option (Option Decoded) :=
  if lost then some none
  else if ((s.backend.calls cid).bind Call.answer).isSome then some (s.backend.answerOf cid)
  else none

/-- A Login session sends its last frames and closes. -/
def closeLogin (s : Sys) (sid : ℕ) (frames : List Bytes) : Sys :=
  (s.send (.login sid) frames).setLogin sid
    { s.login sid with point := .reading, closed := true }

/-- The put of a ticket and the redirect that carries it. -/
def issueTicket (s : Sys) (sid : ℕ) (info : LoginInfo) (ticket : Bytes) : Sys :=
  ({ s with backend :=
      s.backend.put (.master sid) ticket MasterHandler.ticketValue MasterHandler.ticketTtl }.send
    (.master sid) [MasterHandler.redirect ticket info]).setMaster sid
      { s.master sid with pending := none }

/-- A Login session passes its gate: the challenge is kept and sent. -/
def challenge (s : Sys) (sid cid : ℕ) (ticket username : Bytes) (ch : ServerChallenge)
    (response : Bytes) : Sys :=
  ((s.send (.login sid) [response]).record (.challenged sid cid ticket username ch)).setLogin sid
    { s.login sid with
      state := { stage := .awaitingProof, username, challenge := some ch }
      point := .reading }

/-- A World session passes its gate. -/
def authenticate (s : Sys) (sid cid : ℕ) (token : Bytes) (state : WorldHandler.SessionState) :
    Sys :=
  (s.record (.authenticated sid cid token state.username)).setWorld sid
    { s.world sid with state, waiting := none }

@[simp] theorem mem_log_send (s : Sys) (party : Party) (frames : List Bytes) (e : Event) :
    e ∈ (s.send party frames).log ↔ (∃ f ∈ frames, .sent party f = e) ∨ e ∈ s.log := by
  rw [send, List.mem_append, List.mem_reverse, List.mem_map]

/-- A view of the log that shows none of the frames is as it was. -/
theorem filterMap_send {β : Type} {g : Event → Option β} (s : Sys) (party : Party)
    {frames : List Bytes} (hnone : ∀ f ∈ frames, g (.sent party f) = none) :
    (s.send party frames).log.filterMap g = s.log.filterMap g := by
  have hnil : (frames.map (Event.sent party)).reverse.filterMap g = [] := by
    rw [List.filterMap_eq_nil_iff]
    intro e he
    obtain ⟨f, hf, rfl⟩ := List.mem_map.mp (List.mem_reverse.mp he)
    exact hnone f hf
  rw [send, List.filterMap_append, hnil, List.nil_append]

@[simp] theorem login_setLogin_self (s : Sys) (sid : ℕ) (l : LoginSession) :
    (s.setLogin sid l).login sid = l := Function.update_self _ _ _

theorem login_setLogin_of_ne (s : Sys) {sid sid' : ℕ} (h : sid' ≠ sid) (l : LoginSession) :
    (s.setLogin sid l).login sid' = s.login sid' := Function.update_of_ne h _ _

@[simp] theorem world_setWorld_self (s : Sys) (sid : ℕ) (w : WorldSession) :
    (s.setWorld sid w).world sid = w := Function.update_self _ _ _

theorem world_setWorld_of_ne (s : Sys) {sid sid' : ℕ} (h : sid' ≠ sid) (w : WorldSession) :
    (s.setWorld sid w).world sid' = s.world sid' := Function.update_of_ne h _ _

end Sys

/-- A payload that `read_frame` delivers to a session of this role. -/
def FrameFits (role : ServerRole) (payload : Bytes) : Prop :=
  0 < payload.length ∧ payload.length ≤ role.readBufferBytes

instance (role : ServerRole) (payload : Bytes) : Decidable (FrameFits role payload) :=
  inferInstanceAs (Decidable (_ ∧ _))

inductive Label where
  | tick (d : ℕ)
  | sweep (it : List SharedStore.Cell)
  | createAccount (record : AccountRecord)
  | heartbeat (cid : ℕ) (r : Registrant)
  /-- `StoreClient::get`, which no handler calls. -/
  | get (cid : ℕ) (key : Bytes)
  | exec (cid : ℕ) (it : List SharedStore.Cell)
  | masterFrame (sid : ℕ) (payload : Bytes) (it : List SharedStore.Cell)
  | masterIssue (sid : ℕ) (random : Vector UInt8 16)
  | loginFrame (sid : ℕ) (payload : Bytes) (cid : ℕ) (random : Vector UInt8 16)
  | loginTaken (sid : ℕ) (lost lookupFails : Bool) (random : Vector UInt8 16) (b : ℕ)
  | loginPut (sid : ℕ) (lost : Bool) (cid : ℕ)
  | loginListed (sid : ℕ) (lost : Bool)
  | worldFrame (sid : ℕ) (payload : Bytes) (cid : ℕ)
  | worldTaken (sid : ℕ) (lost : Bool)
  | disconnect (party : Party)

variable (env : Env)

/-- One step of the system, `none` where the label is not enabled. -/
def step (s : Sys) : Label → Option Sys
  | .tick d => some { s with backend := s.backend.tick d }
  | .sweep it =>
    if s.backend.store.Walk it then some { s with backend := s.backend.sweep it } else none
  | .createAccount r =>
    if (s.accounts r.username).isSome then none
    else some { s with accounts := Function.update s.accounts r.username (some r) }
  | .heartbeat cid r => s.issue cid .registrant (heartbeatRequest r)
  | .get cid key => s.issue cid .registrant (getRequest key)
  | .exec cid it => (s.backend.exec cid it).map fun b => { s with backend := b }
  | .masterFrame sid payload it =>
    if FrameFits .master payload ∧ (s.master sid).closed = false ∧
        (s.master sid).pending.isNone ∧ s.backend.store.Walk it then
      match pickLogin (fun _ => s.backend.now) it with
      | none => some (s.send (.master sid) [MasterProto.encodeError])
      | some info => some (s.setMaster sid { s.master sid with pending := some info })
    else none
  | .masterIssue sid random =>
    match (s.master sid).pending with
    | none => none
    | some info => some (s.issueTicket sid info (generateTokenHex random))
  | .loginFrame sid payload cid random =>
    match (s.login sid).point with
    | .reading =>
      if FrameFits .login payload ∧ (s.login sid).closed = false then
        match LoginHandler.onMessage (s.login sid).state payload with
        | .close => some (s.closeLogin sid [])
        | .hello ticket username =>
          (s.issue cid (.login sid) (takeRequest ticket)).map fun s' =>
            s'.setLogin sid { s.login sid with point := .taking cid ticket username }
        | .proof a m1 =>
          match proved env (s.login sid).state a m1, (s.login sid).state.challenge with
          | .accepted result, some ch =>
            let token := generateTokenHex random
            let username := (s.login sid).state.username
            (s.issue cid (.login sid) (putRequest token username sessionTtl)).map fun s' =>
              (s'.record (.verified sid username ch a m1 token)).setLogin sid
                { s.login sid with point := .putting cid result token }
          | .closed frames, _ => some (s.closeLogin sid frames)
          | .accepted _, none => none
      else none
    | _ => none
  | .loginTaken sid lost lookupFails random b =>
    match (s.login sid).point with
    | .taking cid ticket username =>
      (s.awaited cid lost).map fun outcome =>
        match ticketTaken env (StoreClient.getOrTakeResult outcome)
            (if lookupFails then none else some (s.accounts username)) username
            (generateTokenHex random) b with
        | .closed frames => s.closeLogin sid frames
        | .challenge ch response => s.challenge sid cid ticket username ch response
    | _ => none
  | .loginPut sid lost cid =>
    match (s.login sid).point with
    | .putting waited result token =>
      (s.awaited waited lost).bind fun _ =>
        (s.issue cid (.login sid) (listRequest kWorldPrefix)).map fun s' =>
          (s'.send (.login sid) [LoginProto.encodeServerProof result.M2 token]).setLogin sid
            { s.login sid with point := .listing cid }
    | _ => none
  | .loginListed sid lost =>
    match (s.login sid).point with
    | .listing cid =>
      (s.awaited cid lost).map fun outcome =>
        (s.send (.login sid) [worldList (StoreClient.listPrefixResult outcome)]).setLogin sid
          { s.login sid with
            state := { (s.login sid).state with stage := .done }, point := .reading }
    | _ => none
  | .worldFrame sid payload cid =>
    if FrameFits .world payload ∧ (s.world sid).closed = false ∧
        (s.world sid).waiting.isNone then
      match WorldHandler.onMessage (s.world sid).state payload with
      | .take token =>
        (s.issue cid (.world sid) (takeRequest token)).map fun s' =>
          s'.setWorld sid { s.world sid with waiting := some (cid, token) }
      | .ignore => some s
      | .dispatch opcode body =>
        some ((s.record (.dispatched sid opcode body)).send (.world sid)
          (PlayerChannel.dispatch opcode body))
    else none
  | .worldTaken sid lost =>
    match (s.world sid).waiting with
    | none => none
    | some (cid, token) =>
      (s.awaited cid lost).map fun outcome =>
        match WorldHandler.taken (StoreClient.getOrTakeResult outcome) with
        | none => s.setWorld sid { s.world sid with waiting := none, closed := true }
        | some state => s.authenticate sid cid token state
  | .disconnect party =>
    match party with
    | .master sid => some (s.setMaster sid { s.master sid with closed := true })
    | .login sid => some (s.setLogin sid { s.login sid with closed := true })
    | .world sid => some (s.setWorld sid { s.world sid with closed := true })
    | .registrant => none

/-! ## What a step can do -/

/-- The steps, one constructor for each thing that can happen. -/
inductive Step (s : Sys) : Label → Sys → Prop
  | tick (d : ℕ) : Step s (.tick d) { s with backend := s.backend.tick d }
  | sweep {it : List SharedStore.Cell} : s.backend.store.Walk it →
      Step s (.sweep it) { s with backend := s.backend.sweep it }
  | createAccount (r : AccountRecord) : (s.accounts r.username).isSome = false →
      Step s (.createAccount r)
        { s with accounts := Function.update s.accounts r.username (some r) }
  | heartbeat {cid : ℕ} (r : Registrant) : s.backend.calls cid = none →
      Step s (.heartbeat cid r)
        { s with backend := s.backend.issue cid .registrant (heartbeatRequest r) }
  | get {cid : ℕ} (key : Bytes) : s.backend.calls cid = none →
      Step s (.get cid key) { s with backend := s.backend.issue cid .registrant (getRequest key) }
  | exec {cid : ℕ} {it : List SharedStore.Cell} {b : Backend} :
      s.backend.exec cid it = some b → Step s (.exec cid it) { s with backend := b }
  | masterRefuses {sid : ℕ} {payload : Bytes} {it : List SharedStore.Cell} :
      pickLogin (fun _ => s.backend.now) it = none →
      Step s (.masterFrame sid payload it) (s.send (.master sid) [MasterProto.encodeError])
  | masterPicks {sid : ℕ} {payload : Bytes} {it : List SharedStore.Cell} {info : LoginInfo} :
      s.backend.store.Walk it → pickLogin (fun _ => s.backend.now) it = some info →
      Step s (.masterFrame sid payload it)
        (s.setMaster sid { s.master sid with pending := some info })
  | masterIssues {sid : ℕ} {info : LoginInfo} (random : Vector UInt8 16) :
      (s.master sid).pending = some info →
      Step s (.masterIssue sid random) (s.issueTicket sid info (generateTokenHex random))
  | loginCloses {l : Label} {sid : ℕ} (frames : List Bytes) :
      (l matches .loginFrame .. | .loginTaken ..) → Step s l (s.closeLogin sid frames)
  | loginTakes {sid cid : ℕ} {payload ticket username : Bytes} {random : Vector UInt8 16} :
      (s.login sid).state.stage = .awaitingHello → s.backend.calls cid = none →
      Step s (.loginFrame sid payload cid random)
        ({ s with backend := s.backend.issue cid (.login sid) (takeRequest ticket) }.setLogin sid
          { s.login sid with point := .taking cid ticket username })
  | loginAccepts {sid cid : ℕ} {payload a m1 : Bytes} {random : Vector UInt8 16}
      {ch : ServerChallenge} {result : ServerResult} :
      (s.login sid).state.stage = .awaitingProof → (s.login sid).state.challenge = some ch →
      serverVerify env.H kGroup ch a m1 = some result → result.ok = true →
      s.backend.calls cid = none →
      Step s (.loginFrame sid payload cid random)
        (({ s with backend := s.backend.issue cid (.login sid) (putRequest
            (generateTokenHex random) (s.login sid).state.username sessionTtl) }.record
          (.verified sid (s.login sid).state.username ch a m1 (generateTokenHex random))).setLogin
            sid { s.login sid with point := .putting cid result (generateTokenHex random) })
  | loginChallenges {sid cid b : ℕ} {lost lookupFails : Bool} {random : Vector UInt8 16}
      {ticket username response : Bytes} {outcome : Option Decoded} {reg : Registration}
      {ch : ServerChallenge} :
      (s.login sid).point = .taking cid ticket username → s.awaited cid lost = some outcome →
      (StoreClient.getOrTakeResult outcome).isSome →
      registrationFor env (s.accounts username) username (generateTokenHex random) = some reg →
      serverBegin env.H kGroup reg.verifier b = some ch →
      Step s (.loginTaken sid lost lookupFails random b)
        (s.challenge sid cid ticket username ch response)
  | loginSendsProof {sid cid waited : ℕ} {lost : Bool} {result : ServerResult} {token : Bytes} :
      (s.login sid).point = .putting waited result token → s.backend.calls cid = none →
      Step s (.loginPut sid lost cid)
        (({ s with backend := s.backend.issue cid (.login sid) (listRequest kWorldPrefix) }.send
          (.login sid) [LoginProto.encodeServerProof result.M2 token]).setLogin sid
            { s.login sid with point := .listing cid })
  | loginSendsWorlds {sid cid : ℕ} {lost : Bool} (frame : Bytes) :
      (s.login sid).point = .listing cid →
      Step s (.loginListed sid lost)
        ((s.send (.login sid) [frame]).setLogin sid
          { s.login sid with
            state := { (s.login sid).state with stage := .done }, point := .reading })
  | worldTakes {sid cid : ℕ} {payload : Bytes} :
      (s.world sid).state.authenticated = false → s.backend.calls cid = none →
      Step s (.worldFrame sid payload cid)
        ({ s with backend := s.backend.issue cid (.world sid) (takeRequest payload) }.setWorld sid
          { s.world sid with waiting := some (cid, payload) })
  | worldIgnores {sid cid : ℕ} {payload : Bytes} : Step s (.worldFrame sid payload cid) s
  | worldDispatches {sid cid : ℕ} {payload body : Bytes} {opcode : UInt16} :
      (s.world sid).state.authenticated = true →
      Step s (.worldFrame sid payload cid)
        ((s.record (.dispatched sid opcode body)).send (.world sid)
          (PlayerChannel.dispatch opcode body))
  | worldRefuses {sid : ℕ} {lost : Bool} :
      Step s (.worldTaken sid lost)
        (s.setWorld sid { s.world sid with waiting := none, closed := true })
  | worldAuthenticates {sid cid : ℕ} {lost : Bool} {token value : Bytes}
      {outcome : Option Decoded} :
      (s.world sid).waiting = some (cid, token) → s.awaited cid lost = some outcome →
      StoreClient.getOrTakeResult outcome = some value →
      Step s (.worldTaken sid lost)
        (s.authenticate sid cid token { authenticated := true, username := value })
  | masterLeaves (sid : ℕ) :
      Step s (.disconnect (.master sid)) (s.setMaster sid { s.master sid with closed := true })
  | loginLeaves (sid : ℕ) :
      Step s (.disconnect (.login sid)) (s.setLogin sid { s.login sid with closed := true })
  | worldLeaves (sid : ℕ) :
      Step s (.disconnect (.world sid)) (s.setWorld sid { s.world sid with closed := true })

theorem Sys.issue_some {s s' : Sys} {cid : ℕ} {party : Party} {request : Decoded}
    (h : s.issue cid party request = some s') :
    s.backend.calls cid = none ∧
      s' = { s with backend := s.backend.issue cid party request } := by
  unfold Sys.issue at h
  split at h
  · cases h
  · next hnone =>
    exact ⟨by simpa using hnone, (Option.some.inj h).symm⟩

variable {env}

theorem step_cases {s s' : Sys} {l : Label} (h : step env s l = some s') : Step env s l s' := by
  cases l with
  | tick d =>
    obtain rfl := Option.some.inj h
    exact .tick d
  | sweep it =>
    rw [step] at h
    split at h
    · next hit =>
      obtain rfl := Option.some.inj h
      exact .sweep hit
    · cases h
  | createAccount r =>
    rw [step] at h
    split at h
    · cases h
    · next hnew =>
      obtain rfl := Option.some.inj h
      exact .createAccount r (by simpa using hnew)
  | heartbeat cid r =>
    obtain ⟨hnew, rfl⟩ := Sys.issue_some h
    exact .heartbeat r hnew
  | get cid key =>
    obtain ⟨hnew, rfl⟩ := Sys.issue_some h
    exact .get key hnew
  | exec cid it =>
    obtain ⟨b, hb, rfl⟩ := Option.map_eq_some_iff.mp h
    exact .exec hb
  | masterFrame sid payload it =>
    rw [step] at h
    split at h
    · next hguard =>
      split at h
      · next hpick =>
        obtain rfl := Option.some.inj h
        exact .masterRefuses hpick
      · next info hpick =>
        obtain rfl := Option.some.inj h
        exact .masterPicks hguard.2.2.2 hpick
    · cases h
  | masterIssue sid random =>
    rw [step] at h
    split at h
    · cases h
    · next info hpending =>
      obtain rfl := Option.some.inj h
      exact .masterIssues random hpending
  | loginFrame sid payload cid random =>
    rw [step] at h
    split at h
    · split at h
      · split at h
        · obtain rfl := Option.some.inj h
          exact .loginCloses [] rfl
        · next ticket username hmsg =>
          obtain ⟨t, ht, rfl⟩ := Option.map_eq_some_iff.mp h
          obtain ⟨hnew, rfl⟩ := Sys.issue_some ht
          exact .loginTakes (onMessage_hello hmsg) hnew
        · next a m1 hmsg =>
          split at h
          · next result ch hproved hch =>
            obtain ⟨t, ht, rfl⟩ := Option.map_eq_some_iff.mp h
            obtain ⟨hnew, rfl⟩ := Sys.issue_some ht
            obtain ⟨ch', hch', hverify, hok⟩ := proved_accepted hproved
            obtain rfl : ch = ch' := Option.some.inj (hch.symm.trans hch')
            exact .loginAccepts (onMessage_proof hmsg) hch hverify hok hnew
          · next frames _ =>
            obtain rfl := Option.some.inj h
            exact .loginCloses frames rfl
          · cases h
      · cases h
    · cases h
  | loginTaken sid lost lookupFails random b =>
    rw [step] at h
    split at h
    · next cid ticket username hpoint =>
      obtain ⟨outcome, hout, rfl⟩ := Option.map_eq_some_iff.mp h
      split
      · next frames _ => exact .loginCloses frames rfl
      · next ch response hres =>
        obtain ⟨hfound, account, reg, hlookup, hreg, hbegin, -⟩ := ticketTaken_challenge hres
        split at hlookup
        · cases hlookup
        · obtain rfl := Option.some.inj hlookup
          exact .loginChallenges hpoint hout hfound hreg hbegin
    · cases h
  | loginPut sid lost cid =>
    rw [step] at h
    split at h
    · next waited result token hpoint =>
      obtain ⟨_, _, h⟩ := Option.bind_eq_some_iff.mp h
      obtain ⟨t, ht, rfl⟩ := Option.map_eq_some_iff.mp h
      obtain ⟨hnew, rfl⟩ := Sys.issue_some ht
      exact .loginSendsProof hpoint hnew
    · cases h
  | loginListed sid lost =>
    rw [step] at h
    split at h
    · next cid hpoint =>
      obtain ⟨outcome, _, rfl⟩ := Option.map_eq_some_iff.mp h
      exact .loginSendsWorlds _ hpoint
    · cases h
  | worldFrame sid payload cid =>
    rw [step] at h
    split at h
    · split at h
      · next token hmsg =>
        obtain ⟨t, ht, rfl⟩ := Option.map_eq_some_iff.mp h
        obtain ⟨hnew, rfl⟩ := Sys.issue_some ht
        obtain ⟨rfl, hauth⟩ := WorldHandler.onMessage_take hmsg
        exact .worldTakes hauth hnew
      · obtain rfl := Option.some.inj h
        exact .worldIgnores
      · next opcode body hmsg =>
        obtain rfl := Option.some.inj h
        exact .worldDispatches (WorldHandler.onMessage_dispatch hmsg)
    · cases h
  | worldTaken sid lost =>
    rw [step] at h
    split at h
    · cases h
    · next cid token hwait =>
      obtain ⟨outcome, hout, rfl⟩ := Option.map_eq_some_iff.mp h
      split
      · exact .worldRefuses
      · next state hstate =>
        obtain ⟨value, hvalue, rfl⟩ := Option.map_eq_some_iff.mp hstate
        exact .worldAuthenticates hwait hout hvalue
  | disconnect party =>
    cases party with
    | master sid =>
      obtain rfl := Option.some.inj h
      exact .masterLeaves sid
    | login sid =>
      obtain rfl := Option.some.inj h
      exact .loginLeaves sid
    | world sid =>
      obtain rfl := Option.some.inj h
      exact .worldLeaves sid
    | registrant => cases h

/-! ## What a step writes into the log -/

/-- Nothing is unsaid. -/
theorem Step.log {s s' : Sys} {l : Label} (h : Step env s l s') : s.log ⊆ s'.log := by
  intro e he
  have hsend (t : Sys) (party : Party) (frames : List Bytes) (ht : e ∈ t.log) :
      e ∈ (t.send party frames).log := (Sys.mem_log_send t party frames e).mpr (Or.inr ht)
  cases h with
  | masterRefuses _ => exact hsend s _ _ he
  | masterIssues random _ => exact hsend _ _ _ he
  | loginCloses frames _ => exact hsend s _ _ he
  | loginAccepts _ _ _ _ _ => exact List.mem_cons_of_mem _ he
  | loginChallenges _ _ _ _ _ => exact List.mem_cons_of_mem _ (hsend s _ _ he)
  | loginSendsProof _ _ => exact hsend _ _ _ he
  | loginSendsWorlds frame _ => exact hsend s _ _ he
  | worldDispatches _ => exact hsend _ _ _ (List.mem_cons_of_mem _ he)
  | worldAuthenticates _ _ _ => exact List.mem_cons_of_mem _ he
  | _ => exact he

/-- What is behind a new event. -/
inductive Says (env : Env) (s : Sys) : Event → Prop
  | sent (party : Party) (frame : Bytes) : Says env s (.sent party frame)
  | challenged {sid cid b : ℕ} {ticket username : Bytes} {random : Vector UInt8 16}
      {reg : Registration} {ch : ServerChallenge} :
      (s.login sid).point = .taking cid ticket username →
      registrationFor env (s.accounts username) username (generateTokenHex random) = some reg →
      serverBegin env.H kGroup reg.verifier b = some ch →
      Says env s (.challenged sid cid ticket username ch)
  | verified {sid : ℕ} {ch : ServerChallenge} {a m1 : Bytes} {result : ServerResult}
      (random : Vector UInt8 16) : (s.login sid).state.stage = .awaitingProof →
      (s.login sid).state.challenge = some ch →
      serverVerify env.H kGroup ch a m1 = some result → result.ok = true →
      Says env s (.verified sid (s.login sid).state.username ch a m1 (generateTokenHex random))
  | authenticated {sid cid : ℕ} {token value : Bytes} {lost : Bool} {outcome : Option Decoded} :
      (s.world sid).waiting = some (cid, token) → s.awaited cid lost = some outcome →
      StoreClient.getOrTakeResult outcome = some value →
      Says env s (.authenticated sid cid token value)
  | dispatched {sid : ℕ} {opcode : UInt16} {body : Bytes} :
      (s.world sid).state.authenticated = true → Says env s (.dispatched sid opcode body)

theorem Step.event {s s' : Sys} {l : Label} (h : Step env s l s') {e : Event}
    (he : e ∈ s'.log) : e ∈ s.log ∨ Says env s e := by
  have hsend {t : Sys} {party : Party} {frames : List Bytes}
      (ht : e ∈ (t.send party frames).log) : e ∈ t.log ∨ Says env s e := by
    rcases (Sys.mem_log_send t party frames e).mp ht with ⟨f, -, rfl⟩ | ht
    · exact Or.inr (.sent party f)
    · exact Or.inl ht
  cases h with
  | masterRefuses _ => exact hsend he
  | masterIssues random _ => exact hsend he
  | loginCloses frames _ => exact hsend he
  | loginAccepts hstage hch hverify hok _ =>
    rcases List.mem_cons.mp he with rfl | he
    · exact Or.inr (.verified _ hstage hch hverify hok)
    · exact Or.inl he
  | loginChallenges hpoint _ _ hreg hbegin =>
    rcases List.mem_cons.mp he with rfl | he
    · exact Or.inr (.challenged hpoint hreg hbegin)
    · exact hsend he
  | loginSendsProof _ _ => exact hsend he
  | loginSendsWorlds frame _ => exact hsend he
  | worldDispatches hauth =>
    rcases hsend he with he | he
    · rcases List.mem_cons.mp he with rfl | he
      · exact Or.inr (.dispatched hauth)
      · exact Or.inl he
    · exact Or.inr he
  | worldAuthenticates hwait hout hvalue =>
    rcases List.mem_cons.mp he with rfl | he
    · exact Or.inr (.authenticated hwait hout hvalue)
    · exact Or.inl he
  | _ => exact Or.inl he

end Netsrv.System
