/-
  The run of a Login session, from `Session::run` through `LoginHandler`, wait by wait.

  Whatever is awaited ends in any way: the read of a frame, the round trips to the store,
  the look-up of the account, the sends.  A read on a closed socket fails; a handler that
  waits is not disturbed by the closing.  `log` is not in the program: it records what the
  handler does, newest first.

  * `Orderly`: each event of a log could come after the ones before it.
  * `Wf.step`: a session stays on its course, which keeps its log orderly.
-/
import Netsrv.Handlers.LoginHandler
import Netsrv.Lib.Machine
import Mathlib.Algebra.Order.BigOperators.Group.Finset

namespace Netsrv.LoginRun

open LoginHandler Srp6

/-- Where the coroutine of a session waits. -/
inductive Point where
  | reading
  | taking (ticket username : Bytes)
  | errorSend | challengeSend
  | putting (m2 token : Bytes)
  | proofSend | listing | worldListSend
  /-- `Session::run` is past its loop. -/
  | left
  deriving DecidableEq, Repr

inductive Event where
  | received (payload : Bytes)
  | asked (ticket username : Bytes)
  /-- The `Take` of the ticket succeeds. -/
  | took
  | lookedUp (username : Bytes) (lookup : Option (Option AccountRecord))
  /-- `server_verify` runs, and accepts or not. -/
  | verified (challenge : Option ServerChallenge) (a m1 : Bytes) (ok : Bool)
  | put (token value : Bytes)
  | sent (frame : Bytes)
  | listed
  /-- The handler closes the session. -/
  | closed

structure State where
  state : SessionState := {}
  point : Point := .reading
  closed : Bool := false
  log : List Event := []

/-- How a wait ends. -/
inductive Label where
  | frame (payload : Bytes) (random : Vector UInt8 16)
  /-- The stream is over or broken, or the session idle for too long. -/
  | readFails
  | taken (found : Option Bytes) (lookup : Option (Option AccountRecord))
      (random : Vector UInt8 16) (b : ℕ)
  | put (ok : Bool)
  | listed (entries : List (Bytes × Bytes))
  | sent (ok : Bool)
  /-- What is awaited throws. -/
  | throws
  /-- The socket is closed from outside. -/
  | closes

namespace State

def say (c : State) (e : Event) : State := { c with log := e :: c.log }

def send (c : State) (frame : Bytes) (point : Point) : State :=
  { c.say (.sent frame) with point }

def close (c : State) : State := { c.say .closed with point := .reading, closed := true }

/-- The last frame, if there is one, and the closing. -/
def refuse (c : State) : List Bytes → State
  | [] => c.close
  | frame :: _ => c.send frame .errorSend

/-- `on_disconnect` and `close`. -/
def leave (c : State) : State := { c with point := .left, closed := true }

/-- The account is looked up if the ticket was there. -/
def lookUp (c : State) (username : Bytes) (found : Option Bytes)
    (lookup : Option (Option AccountRecord)) : State :=
  if found.isSome then (c.say .took).say (.lookedUp username lookup) else c

end State

variable (env : Env)

/-- `on_message`, up to its first wait. -/
def onMessage (c : State) (payload : Bytes) (random : Vector UInt8 16) : State :=
  match LoginHandler.onMessage c.state payload with
  | .close => (c.say (.received payload)).close
  | .hello ticket username =>
    { (c.say (.received payload)).say (.asked ticket username) with
      point := .taking ticket username }
  | .proof a m1 =>
    match proved env c.state a m1 with
    | .closed frames =>
      ((c.say (.received payload)).say (.verified c.state.challenge a m1 false)).refuse frames
    | .accepted result =>
      { ((c.say (.received payload)).say (.verified c.state.challenge a m1 true)).say
          (.put (generateTokenHex random) c.state.username) with
        point := .putting result.M2 (generateTokenHex random) }

/-- `handle_hello` after its `Take`. -/
def afterTake (c : State) (username : Bytes) (found : Option Bytes)
    (lookup : Option (Option AccountRecord)) (random : Vector UInt8 16) (b : ℕ) : State :=
  match ticketTaken env found lookup username (generateTokenHex random) b with
  | .closed frames => (c.lookUp username found lookup).refuse frames
  | .challenge challenge response =>
    { (c.lookUp username found lookup).send response .challengeSend with
      state := { stage := .awaitingProof, username, challenge := some challenge } }

/-- After a `send`, which closes the session if it fails. -/
def afterSend (c : State) (ok : Bool) : Option State :=
  match c.point with
  | .errorSend => some c.close
  | .challengeSend => some { c with point := .reading, closed := c.closed || !ok }
  | .proofSend => some { c.say .listed with point := .listing, closed := c.closed || !ok }
  | .worldListSend => some { c with
      state := { c.state with stage := .done }
      point := .reading
      closed := c.closed || !ok }
  | _ => none

def step (c : State) : Label → Option State
  | .frame payload random =>
    if c.point = .reading ∧ c.closed = false then some (onMessage env c payload random) else none
  | .readFails => if c.point = .reading then some c.leave else none
  | .taken found lookup random b =>
    match c.point with
    | .taking _ username => some (afterTake env c username found lookup random b)
    | _ => none
  | .put _ =>
    match c.point with
    | .putting m2 token => some (c.send (LoginProto.encodeServerProof m2 token) .proofSend)
    | _ => none
  | .listed entries =>
    if c.point = .listing then some (c.send (worldList entries) .worldListSend) else none
  | .sent ok => afterSend c ok
  | .throws => if c.point = .reading ∨ c.point = .left then none else some c.leave
  | .closes => some { c with closed := true }

/-! ## Orderly logs -/

@[simp] def Event.frame? : Event → Option Bytes
  | sent frame => some frame
  | _ => none

/-- The frames sent, in their order. -/
def sentFrames (log : List Event) : List Bytes := (log.filterMap Event.frame?).reverse

/-- A challenge, a proof and a world list, broken off anywhere, or an error instead of one of
    the first two. -/
def Dialogue (frames : List Bytes) : Prop :=
  (∃ salt b m2 token worlds, frames <+: [LoginProto.encodeServerChallenge salt b,
    LoginProto.encodeServerProof m2 token, LoginProto.encodeWorldList worlds]) ∨
  frames = [LoginProto.encodeError] ∨
  ∃ salt b, frames = [LoginProto.encodeServerChallenge salt b, LoginProto.encodeError]

/-- The challenge was made from what was looked up for the name, or made up for it. -/
def MadeFor (past : List Event) (username : Bytes) (challenge : ServerChallenge) : Prop :=
  ∃ account fakePassword reg b, .lookedUp username (some account) ∈ past ∧
    registrationFor env account username fakePassword = some reg ∧
    serverBegin env.H kGroup reg.verifier b = some challenge

/-- A message that is taken for a proof. -/
def IsProof (payload a m1 : Bytes) : Prop :=
  ∃ state, LoginHandler.onMessage state payload = .proof a m1

/-- What an event says of the ones before it. -/
def Explained (past : List Event) : Event → Prop
  | .asked ticket username => ∃ payload, past = [.received payload] ∧
      LoginHandler.onMessage {} payload = .hello ticket username
  | .took => ∃ ticket username payload, past = [.asked ticket username, .received payload]
  | .lookedUp username _ => .took ∈ past ∧ ∃ ticket, .asked ticket username ∈ past
  | .verified challenge a m1 _ => .took ∈ past ∧
      (∀ challenge a m1 ok, .verified challenge a m1 ok ∉ past) ∧
      (∃ payload rest, past = .received payload :: rest ∧ IsProof payload a m1) ∧
      ∃ ch ticket username, challenge = some ch ∧ .asked ticket username ∈ past ∧
        MadeFor env past username ch
  | .put _ value => (∃ challenge a m1, .verified challenge a m1 true ∈ past) ∧
      (∀ token value, .put token value ∉ past) ∧ ∃ ticket, .asked ticket value ∈ past
  | .sent frame => Dialogue (sentFrames past ++ [frame])
  | .received _ | .listed | .closed => True

/-- An event that can come next: none after the closing, only the closing after an error, and
    after a frame what it asks for, or the closing. -/
structure Allowed (past : List Event) (e : Event) : Prop where
  last : .closed ∉ past
  refused : .sent LoginProto.encodeError ∈ past → e = .closed
  sequence : ∀ payload rest, past = .received payload :: rest →
    (∃ ticket username, e = .asked ticket username) ∨
    (∃ challenge a m1 ok, e = .verified challenge a m1 ok) ∨ e = .closed
  explained : Explained env past e

/-- Each event is one that could come next. -/
def Orderly (log : List Event) : Prop := ∀ e past, e :: past <:+ log → Allowed env past e

variable {env} {c c' : State} {log : List Event}

theorem Orderly.cons (h : Orderly env log) {e : Event} (he : Allowed env log e) :
    Orderly env (e :: log) := by
  intro e' past hsuffix
  rcases List.suffix_cons_iff.mp hsuffix with heq | hold
  · obtain ⟨rfl, rfl⟩ := List.cons.inj heq
    exact he
  · exact h e' past hold

theorem Orderly.head {e : Event} (h : Orderly env (e :: log)) : Allowed env log e :=
  h e log List.suffix_rfl

theorem Orderly.tail {e : Event} (h : Orderly env (e :: log)) : Orderly env log :=
  fun e' past hsuffix => h e' past (hsuffix.trans (List.suffix_cons e log))

@[simp] theorem sentFrames_nil : sentFrames [] = [] := rfl

@[simp] theorem sentFrames_cons (e : Event) (log : List Event) :
    sentFrames (e :: log) = sentFrames log ++ e.frame?.toList := by
  rw [sentFrames, List.filterMap_cons]
  cases e.frame? with
  | none => exact (List.append_nil _).symm
  | some frame => exact List.reverse_cons

theorem Orderly.dialogue (h : Orderly env log) : Dialogue (sentFrames log) := by
  induction log with
  | nil => exact Or.inl ⟨[], [], [], [], [], List.nil_prefix⟩
  | cons e log ih =>
    rw [sentFrames_cons]
    cases e with
    | sent frame => exact h.head.explained
    | _ => exact (List.append_nil (sentFrames log)).symm ▸ ih h.tail

def Event.isVerified : Event → Bool
  | verified .. => true
  | _ => false

def Event.isTook : Event → Bool
  | took => true
  | _ => false

def Event.isPut : Event → Bool
  | put .. => true
  | _ => false

/-- The checks of a proof are at most one, and no more than the tickets taken. -/
theorem Orderly.verifies_le (h : Orderly env log) :
    log.countP Event.isVerified ≤ 1 ∧
      log.countP Event.isVerified ≤ log.countP Event.isTook := by
  induction log with
  | nil => exact ⟨Nat.zero_le _, Nat.le_refl _⟩
  | cons e log ih =>
    obtain ⟨hone, htook⟩ := ih h.tail
    cases e with
    | verified challenge a m1 ok =>
      obtain ⟨hmem, hfirst, -⟩ := h.head.explained
      have hnone : log.countP Event.isVerified = 0 := by
        refine List.countP_eq_zero.mpr fun e he hv => ?_
        cases e with
        | verified challenge a m1 ok => exact hfirst _ _ _ _ he
        | _ => cases hv
      have hpos : 0 < log.countP Event.isTook := List.countP_pos_iff.mpr ⟨_, hmem, rfl⟩
      simp only [List.countP_cons, Event.isVerified, Event.isTook, hnone]
      exact ⟨Nat.le_refl _, hpos⟩
    | took =>
      simp only [List.countP_cons, Event.isVerified, Event.isTook]
      exact ⟨hone, Nat.le_succ_of_le htook⟩
    | _ =>
      simp only [List.countP_cons, Event.isVerified, Event.isTook]
      exact ⟨hone, htook⟩

theorem Orderly.puts_le (h : Orderly env log) : log.countP Event.isPut ≤ 1 := by
  induction log with
  | nil => exact Nat.zero_le _
  | cons e log ih =>
    cases e with
    | put token value =>
      obtain ⟨-, hfirst, -⟩ := h.head.explained
      have hnone : log.countP Event.isPut = 0 := by
        refine List.countP_eq_zero.mpr fun e he hp => ?_
        cases e with
        | put token value => exact hfirst _ _ he
        | _ => cases hp
      rw [List.countP_cons_of_pos rfl, hnone]
    | _ =>
      simp only [List.countP_cons, Event.isPut]
      exact ih h.tail

/-! ## The course of a session -/

/-- A hello has arrived, and its ticket is asked for. -/
inductive Asked : List Event → Bytes → Bytes → Prop
  | mk {payload ticket username : Bytes} :
      LoginHandler.onMessage {} payload = .hello ticket username →
      Asked [.asked ticket username, .received payload] ticket username

/-- The challenge for the name is sent. -/
inductive Challenged (env : Env) : List Event → Bytes → ServerChallenge → Prop
  | mk {log : List Event} {ticket username fakePassword : Bytes} {account : Option AccountRecord}
      {reg : Registration} {b : ℕ} {challenge : ServerChallenge} : Asked log ticket username →
      registrationFor env account username fakePassword = some reg →
      serverBegin env.H kGroup reg.verifier b = some challenge →
      Challenged env (.sent (LoginProto.encodeServerChallenge reg.salt challenge.bBytes) ::
        .lookedUp username (some account) :: .took :: log) username challenge

/-- A proof is accepted, and a token put for the name. -/
inductive Proved (env : Env) : List Event → Bytes → ServerChallenge → Prop
  | mk {log : List Event} {username payload a m1 token : Bytes} {challenge : ServerChallenge} :
      Challenged env log username challenge → IsProof payload a m1 →
      Proved env (.put token username :: .verified (some challenge) a m1 true ::
        .received payload :: log) username challenge

/-- Why an error is sent: the look-up failed, or the proof was refused. -/
inductive Failed (env : Env) : List Event → Prop
  | lookup {log : List Event} {ticket username : Bytes} : Asked log ticket username →
      Failed env (.lookedUp username none :: .took :: log)
  | proof {log : List Event} {username payload a m1 : Bytes} {challenge : ServerChallenge} :
      Challenged env log username challenge → IsProof payload a m1 →
      Failed env (.verified (some challenge) a m1 false :: .received payload :: log)

/-- A session that goes on: what its log, its state and its point have to do with each other. -/
inductive Course (env : Env) : List Event → SessionState → Point → Prop
  | start : Course env [] {} .reading
  | asks {log : List Event} {ticket username : Bytes} : Asked log ticket username →
      Course env log {} (.taking ticket username)
  | challenges {log : List Event} {username : Bytes} {challenge : ServerChallenge} {point : Point} :
      Challenged env log username challenge → point = .challengeSend ∨ point = .reading →
      Course env log { stage := .awaitingProof, username, challenge := some challenge } point
  | puts {log : List Event} {username m2 token : Bytes} {challenge : ServerChallenge} :
      Proved env log username challenge →
      Course env log { stage := .awaitingProof, username, challenge := some challenge }
        (.putting m2 token)
  | proves {log : List Event} {username m2 token : Bytes} {challenge : ServerChallenge} :
      Proved env log username challenge →
      Course env (.sent (LoginProto.encodeServerProof m2 token) :: log)
        { stage := .awaitingProof, username, challenge := some challenge } .proofSend
  | lists {log : List Event} {username m2 token : Bytes} {challenge : ServerChallenge} :
      Proved env log username challenge →
      Course env (.listed :: .sent (LoginProto.encodeServerProof m2 token) :: log)
        { stage := .awaitingProof, username, challenge := some challenge } .listing
  | ends {log : List Event} {username m2 token : Bytes} {entries : List (Bytes × Bytes)}
      {state : SessionState} {point : Point} {challenge : ServerChallenge} :
      Proved env log username challenge →
      point = .worldListSend ∨ state.stage = .done ∧ point = .reading →
      Course env (.sent (worldList entries) :: .listed ::
        .sent (LoginProto.encodeServerProof m2 token) :: log) state point
  | fails {log : List Event} {state : SessionState} : Failed env log →
      Course env (.sent LoginProto.encodeError :: log) state .errorSend

/-! ## Each event is allowed -/

theorem encodeServerChallenge_ne_error (salt b : Bytes) :
    LoginProto.encodeServerChallenge salt b ≠ LoginProto.encodeError := by
  intro h
  have hlen := congrArg List.length h
  simp [LoginProto.encodeServerChallenge, LoginProto.encodeError] at hlen

/-- A log after which the handler is still there. -/
structure Open (log : List Event) : Prop where
  last : .closed ∉ log
  refused : .sent LoginProto.encodeError ∉ log
  sequence : ∀ payload rest, log ≠ .received payload :: rest

theorem Asked.mem {ticket username : Bytes} (h : Asked log ticket username) :
    .asked ticket username ∈ log := by
  cases h with
  | mk _ => exact List.mem_cons_self

theorem Asked.orderly (env : Env) {ticket username : Bytes} (h : Asked log ticket username) :
    Orderly env log ∧ Open log := by
  cases h with
  | @mk payload ticket username hmsg =>
    refine ⟨?_, by simp, by simp, nofun⟩
    have hnil : Orderly env [] := fun e past hsuffix => by simp at hsuffix
    have hreceived : Orderly env [.received payload] :=
      hnil.cons ⟨by simp, by simp, nofun, trivial⟩
    exact hreceived.cons
      ⟨by simp, by simp, fun _ _ _ => Or.inl ⟨_, _, rfl⟩, payload, rfl, hmsg⟩

/-- What the course up to the challenge leaves in the log. -/
structure Begun (env : Env) (log : List Event) (username : Bytes) (challenge : ServerChallenge) :
    Prop where
  took : .took ∈ log
  asked : ∃ ticket, .asked ticket username ∈ log
  made : MadeFor env log username challenge
  sent : ∃ salt b, sentFrames log = [LoginProto.encodeServerChallenge salt b]
  verified : ∀ challenge a m1 ok, .verified challenge a m1 ok ∉ log
  put : ∀ token value, .put token value ∉ log

theorem Asked.lookedUp (env : Env) {ticket username : Bytes} (h : Asked log ticket username)
    (lookup : Option (Option AccountRecord)) :
    Orderly env (.lookedUp username lookup :: .took :: log) ∧
      Open (.lookedUp username lookup :: .took :: log) := by
  obtain ⟨horderly, hopen⟩ := h.orderly env
  cases h with
  | @mk payload ticket username hmsg =>
    have htook : Orderly env [.took, .asked ticket username, .received payload] :=
      horderly.cons ⟨by simp, by simp, nofun, ticket, username, payload, rfl⟩
    exact ⟨htook.cons ⟨by simp, by simp, nofun, by simp, ticket, by simp⟩, by simp, by simp,
      nofun⟩

theorem Challenged.orderly {username : Bytes} {challenge : ServerChallenge}
    (h : Challenged env log username challenge) :
    Orderly env log ∧ Open log ∧ Begun env log username challenge := by
  cases h with
  | @mk log ticket username fakePassword account reg b challenge hasked hreg hbegin =>
    obtain ⟨horderly, hopen⟩ := hasked.lookedUp env (some account)
    cases hasked with
    | @mk payload ticket username hmsg =>
      have hne := (encodeServerChallenge_ne_error reg.salt challenge.bBytes).symm
      refine ⟨horderly.cons ⟨hopen.last, fun hmem => absurd hmem hopen.refused, nofun, ?_⟩,
        ⟨by simp, by simp [hne], nofun⟩, by simp, ⟨ticket, by simp⟩,
        ⟨account, fakePassword, reg, b, by simp, hreg, hbegin⟩, ⟨reg.salt, challenge.bBytes, rfl⟩,
        by simp, by simp⟩
      exact Or.inl ⟨reg.salt, challenge.bBytes, [], [], [], [_, _], rfl⟩

/-- A frame that arrives is noted down. -/
theorem Open.received (h : Open log) (horderly : Orderly env log) (payload : Bytes) :
    Orderly env (.received payload :: log) :=
  horderly.cons ⟨h.last, fun hmem => absurd hmem h.refused,
    fun p rest heq => absurd heq (h.sequence p rest), trivial⟩

theorem Challenged.verified {username : Bytes} {challenge : ServerChallenge}
    (h : Challenged env log username challenge) {payload a m1 : Bytes}
    (hproof : IsProof payload a m1) (ok : Bool) :
    Orderly env (.verified (some challenge) a m1 ok :: .received payload :: log) ∧
      Open (.verified (some challenge) a m1 ok :: .received payload :: log) := by
  obtain ⟨horderly, hopen, hbegun⟩ := h.orderly
  obtain ⟨ticket, hasked⟩ := hbegun.asked
  obtain ⟨account, fakePassword, reg, b, hlookup, hreg, hbegin⟩ := hbegun.made
  refine ⟨(hopen.received horderly payload).cons ⟨by simp [hopen.last], by simp [hopen.refused],
    fun _ _ _ => Or.inr (Or.inl ⟨_, _, _, _, rfl⟩), ?_⟩, by simp [hopen.last],
    by simp [hopen.refused], nofun⟩
  exact ⟨by simp [hbegun.took], by simpa using hbegun.verified, ⟨payload, log, rfl, hproof⟩,
    challenge, ticket, username, rfl, by simp [hasked],
    account, fakePassword, reg, b, by simp [hlookup], hreg, hbegin⟩

theorem Proved.orderly {username : Bytes} {challenge : ServerChallenge}
    (h : Proved env log username challenge) : Orderly env log ∧ Open log ∧
      ∃ salt b, sentFrames log = [LoginProto.encodeServerChallenge salt b] := by
  cases h with
  | @mk log username payload a m1 token challenge hchallenged hproof =>
    obtain ⟨-, -, hbegun⟩ := hchallenged.orderly
    obtain ⟨horderly, hopen⟩ := hchallenged.verified hproof true
    obtain ⟨ticket, hasked⟩ := hbegun.asked
    obtain ⟨salt, b, hsent⟩ := hbegun.sent
    refine ⟨horderly.cons ⟨hopen.last, fun hmem => absurd hmem hopen.refused, nofun,
      ⟨challenge, a, m1, by simp⟩, by simpa using hbegun.put, ticket, by simp [hasked]⟩,
      ⟨by simpa using hopen.last, by simpa using hopen.refused, nofun⟩, salt, b, ?_⟩
    simp [hsent]

theorem Failed.orderly (h : Failed env log) :
    Orderly env (.sent LoginProto.encodeError :: log) := by
  cases h with
  | lookup hasked =>
    obtain ⟨horderly, hopen⟩ := hasked.lookedUp env none
    cases hasked with
    | mk _ => exact horderly.cons ⟨hopen.last, fun hmem => absurd hmem hopen.refused, nofun,
        Or.inr (Or.inl rfl)⟩
  | @proof log username payload a m1 challenge hchallenged hproof =>
    obtain ⟨-, -, hbegun⟩ := hchallenged.orderly
    obtain ⟨horderly, hopen⟩ := hchallenged.verified hproof false
    obtain ⟨salt, b, hsent⟩ := hbegun.sent
    refine horderly.cons ⟨hopen.last, fun hmem => absurd hmem hopen.refused, nofun,
      Or.inr (Or.inr ⟨salt, b, ?_⟩)⟩
    simp [hsent]

theorem encodeServerProof_ne_error (m2 token : Bytes) :
    LoginProto.encodeServerProof m2 token ≠ LoginProto.encodeError := by
  intro h
  have hlen := congrArg List.length h
  simp [LoginProto.encodeServerProof, LoginProto.encodeError] at hlen

theorem worldList_ne_error (entries : List (Bytes × Bytes)) :
    worldList entries ≠ LoginProto.encodeError := by
  intro h
  have hlen := congrArg List.length h
  simp [worldList, LoginProto.encodeWorldList, LoginProto.encodeError] at hlen

/-- The proof that answers an accepted one, with the listing of the worlds after it. -/
theorem Proved.proves {username : Bytes} {challenge : ServerChallenge}
    (h : Proved env log username challenge) (m2 token : Bytes) :
    Orderly env (.sent (LoginProto.encodeServerProof m2 token) :: log) ∧
      Orderly env (.listed :: .sent (LoginProto.encodeServerProof m2 token) :: log) ∧
      Open (.sent (LoginProto.encodeServerProof m2 token) :: log) := by
  obtain ⟨horderly, hopen, salt, b, hsent⟩ := h.orderly
  have hne := (encodeServerProof_ne_error m2 token).symm
  have hproof : Orderly env (.sent (LoginProto.encodeServerProof m2 token) :: log) := by
    refine horderly.cons ⟨hopen.last, fun hmem => absurd hmem hopen.refused,
      fun p rest heq => absurd heq (hopen.sequence p rest),
      Or.inl ⟨salt, b, m2, token, [], ?_⟩⟩
    rw [hsent]
    exact ⟨[_], rfl⟩
  have hstill : Open (.sent (LoginProto.encodeServerProof m2 token) :: log) :=
    ⟨by simpa using hopen.last, by simpa [hne] using hopen.refused, nofun⟩
  exact ⟨hproof, hproof.cons ⟨hstill.last, fun hmem => absurd hmem hstill.refused, nofun,
    trivial⟩, hstill⟩

theorem Proved.ends {username : Bytes} {challenge : ServerChallenge}
    (h : Proved env log username challenge) (m2 token : Bytes) (entries : List (Bytes × Bytes)) :
    Orderly env (.sent (worldList entries) :: .listed ::
      .sent (LoginProto.encodeServerProof m2 token) :: log) ∧
    Open (.sent (worldList entries) :: .listed ::
      .sent (LoginProto.encodeServerProof m2 token) :: log) := by
  obtain ⟨-, -, salt, b, hsent⟩ := h.orderly
  obtain ⟨-, horderly, hopen⟩ := h.proves m2 token
  have hne := (worldList_ne_error entries).symm
  refine ⟨horderly.cons ⟨by simpa using hopen.last, fun hmem => absurd hmem
    (by simpa using hopen.refused), nofun, Or.inl ⟨salt, b, m2, token,
    (Registry.listWorlds entries).map fun w =>
      { name := w.name, host := w.host, port := w.port, population := w.population }, ?_⟩⟩,
    by simpa using hopen.last, by simpa [hne] using hopen.refused, nofun⟩
  simp [hsent, worldList]

theorem Course.orderly {state : SessionState} {point : Point} (h : Course env log state point) :
    Orderly env log ∧ .closed ∉ log ∧ (point ≠ .errorSend → Open log) := by
  cases h with
  | start =>
    exact ⟨fun e past hsuffix => by simp at hsuffix, by simp, fun _ => ⟨by simp, by simp, nofun⟩⟩
  | asks hasked =>
    obtain ⟨horderly, hopen⟩ := hasked.orderly env
    exact ⟨horderly, hopen.last, fun _ => hopen⟩
  | challenges hchallenged _ =>
    obtain ⟨horderly, hopen, -⟩ := hchallenged.orderly
    exact ⟨horderly, hopen.last, fun _ => hopen⟩
  | puts hproved =>
    obtain ⟨horderly, hopen, -⟩ := hproved.orderly
    exact ⟨horderly, hopen.last, fun _ => hopen⟩
  | proves hproved =>
    obtain ⟨horderly, -, hopen⟩ := hproved.proves _ _
    exact ⟨horderly, hopen.last, fun _ => hopen⟩
  | lists hproved =>
    obtain ⟨-, horderly, hopen⟩ := hproved.proves _ _
    have hstill := hopen
    exact ⟨horderly, by simpa using hopen.last, fun _ =>
      ⟨by simpa using hopen.last, by simpa using hopen.refused, nofun⟩⟩
  | ends hproved _ =>
    obtain ⟨horderly, hopen⟩ := hproved.ends _ _ _
    exact ⟨horderly, hopen.last, fun _ => hopen⟩
  | fails hfailed =>
    have horderly := hfailed.orderly
    refine ⟨horderly, ?_, fun hne => absurd rfl hne⟩
    simpa using horderly.head.last

/-- A session that does nothing more. -/
def Over (c : State) : Prop := c.closed = true ∧ c.point = .reading ∨ c.point = .left

/-- Every session is on its course or over, and its log in order. -/
structure Wf (env : Env) (c : State) : Prop where
  orderly : Orderly env c.log
  course : Course env c.log c.state c.point ∨ Over c

/-- The handler closes the session. -/
theorem Wf.close (horderly : Orderly env c.log) (hlast : .closed ∉ c.log)  : Wf env c.close :=
  ⟨horderly.cons ⟨hlast, fun _ => rfl, fun _ _ _ => Or.inr (Or.inr rfl), trivial⟩,
    Or.inr (Or.inl ⟨rfl, rfl⟩)⟩

theorem Wf.refuse (horderly : Orderly env c.log) (hlast : .closed ∉ c.log) {frames : List Bytes}
    (hframes : frames = [] ∨ frames = [LoginProto.encodeError] ∧ Failed env c.log) :
    Wf env (c.refuse frames) := by
  rcases hframes with rfl | ⟨rfl, hfailed⟩
  · exact .close horderly hlast
  · exact ⟨hfailed.orderly, Or.inl (.fails hfailed)⟩

theorem Course.awaitingHello {state : SessionState} (h : Course env log state .reading)
    (hstage : state.stage = .awaitingHello) : log = [] ∧ state = {} := by
  cases h with
  | start => exact ⟨rfl, rfl⟩
  | challenges _ _ => cases hstage
  | ends _ hdone =>
    rcases hdone with hpoint | ⟨hdone, -⟩
    · cases hpoint
    · rw [hdone] at hstage
      cases hstage

theorem Course.awaitingProof {state : SessionState} (h : Course env log state .reading)
    (hstage : state.stage = .awaitingProof) :
    ∃ username challenge,
      state = { stage := .awaitingProof, username, challenge := some challenge } ∧
        Challenged env log username challenge := by
  cases h with
  | start => cases hstage
  | challenges hchallenged _ => exact ⟨_, _, rfl, hchallenged⟩
  | ends _ hdone =>
    rcases hdone with hpoint | ⟨hdone, -⟩
    · cases hpoint
    · rw [hdone] at hstage
      cases hstage

theorem Course.taking {state : SessionState} {ticket username : Bytes}
    (h : Course env log state (.taking ticket username)) : Asked log ticket username := by
  cases h with
  | asks hasked => exact hasked
  | challenges _ hpoint => rcases hpoint with hpoint | hpoint <;> cases hpoint
  | ends _ hpoint => rcases hpoint with hpoint | ⟨-, hpoint⟩ <;> cases hpoint

theorem Course.putting {state : SessionState} {m2 token : Bytes}
    (h : Course env log state (.putting m2 token)) : ∃ username challenge,
      state = { stage := .awaitingProof, username, challenge := some challenge } ∧
        Proved env log username challenge := by
  cases h with
  | challenges _ hpoint => rcases hpoint with hpoint | hpoint <;> cases hpoint
  | puts hproved => exact ⟨_, _, rfl, hproved⟩
  | ends _ hpoint => rcases hpoint with hpoint | ⟨-, hpoint⟩ <;> cases hpoint

theorem Course.listing {state : SessionState} (h : Course env log state .listing) :
    ∃ past username challenge m2 token,
      log = .listed :: .sent (LoginProto.encodeServerProof m2 token) :: past ∧
        Proved env past username challenge := by
  cases h with
  | challenges _ hpoint => rcases hpoint with hpoint | hpoint <;> cases hpoint
  | lists hproved => exact ⟨_, _, _, _, _, rfl, hproved⟩
  | ends _ hpoint => rcases hpoint with hpoint | ⟨-, hpoint⟩ <;> cases hpoint

/-! ## What a step does to a session -/

theorem Course.onMessage (h : Course env c.log c.state .reading) (payload : Bytes)
    (random : Vector UInt8 16) : Wf env (onMessage env c payload random) := by
  obtain ⟨horderly, hlast, hopen⟩ := h.orderly
  unfold LoginRun.onMessage
  split
  · exact .close ((hopen nofun).received horderly payload) (by simpa [State.say] using hlast)
  · next ticket username hmsg =>
    obtain ⟨hlog, hstate⟩ := h.awaitingHello (onMessage_hello hmsg)
    rw [hstate] at hmsg
    have hasked : Asked (.asked ticket username :: .received payload :: c.log) ticket username :=
      hlog ▸ .mk hmsg
    exact ⟨(hasked.orderly env).1, Or.inl (hstate.symm ▸ .asks hasked)⟩
  · next a m1 hmsg =>
    obtain ⟨username, challenge, hstate, hchallenged⟩ := h.awaitingProof (onMessage_proof hmsg)
    have hch : c.state.challenge = some challenge := by rw [hstate]
    split
    · next frames hproved =>
      obtain ⟨hverified, hstill⟩ := hchallenged.verified ⟨_, hmsg⟩ false
      rw [hch]
      exact .refuse hverified hstill.last
        ((proved_closed hproved).imp_right fun hframes => ⟨hframes, .proof hchallenged ⟨_, hmsg⟩⟩)
    · next result hproved =>
      rw [hch]
      have hput : Proved env (.put (generateTokenHex random) c.state.username ::
          .verified (some challenge) a m1 true :: .received payload :: c.log)
          username challenge := by
        rw [hstate]
        exact .mk hchallenged ⟨_, hmsg⟩
      refine ⟨hput.orderly.1, Or.inl ?_⟩
      have hputs : Course env _ { stage := .awaitingProof, username, challenge := some challenge }
          (.putting result.M2 (generateTokenHex random)) := .puts hput
      rw [← hstate] at hputs
      exact hputs

theorem Course.afterTake {ticket username : Bytes}
    (h : Course env c.log c.state (.taking ticket username)) (found : Option Bytes)
    (lookup : Option (Option AccountRecord)) (random : Vector UInt8 16) (b : ℕ) :
    Wf env (afterTake env c username found lookup random b) := by
  obtain ⟨horderly, hlast, -⟩ := h.orderly
  have hasked := h.taking
  have htaken : Orderly env (c.lookUp username found lookup).log ∧
      .closed ∉ (c.lookUp username found lookup).log := by
    unfold State.lookUp
    split
    · obtain ⟨hlooked, hopen⟩ := hasked.lookedUp env lookup
      exact ⟨hlooked, hopen.last⟩
    · exact ⟨horderly, hlast⟩
  unfold LoginRun.afterTake
  split
  · next frames hres =>
    refine .refuse htaken.1 htaken.2 ((ticketTaken_closed hres).imp_right ?_)
    rintro ⟨hframes, hfound, rfl⟩
    refine ⟨hframes, ?_⟩
    rw [State.lookUp, if_pos hfound]
    exact .lookup hasked
  · next challenge response hres =>
    obtain ⟨hfound, account, reg, rfl, hreg, hbegin, rfl⟩ := ticketTaken_challenge hres
    rw [State.lookUp, if_pos hfound]
    have hchallenged := Challenged.mk hasked hreg hbegin
    exact ⟨hchallenged.orderly.1, Or.inl (.challenges hchallenged (Or.inl rfl))⟩

theorem Course.afterSend (h : Course env c.log c.state c.point) {ok : Bool}
    (hstep : afterSend c ok = some c') : Wf env c' := by
  obtain ⟨horderly, hlast, -⟩ := h.orderly
  unfold LoginRun.afterSend at hstep
  obtain ⟨state, point, closed, log⟩ := c
  dsimp only at h horderly hlast hstep
  cases h with
  | start => cases hstep
  | asks _ => cases hstep
  | challenges hchallenged hpoint =>
    rcases hpoint with rfl | rfl
    · obtain rfl := Option.some.inj hstep
      exact ⟨horderly, Or.inl (.challenges hchallenged (Or.inr rfl))⟩
    · cases hstep
  | puts _ => cases hstep
  | @proves _ _ m2 token _ hproved =>
    obtain rfl := Option.some.inj hstep
    exact ⟨(hproved.proves m2 token).2.1, Or.inl (.lists hproved)⟩
  | lists _ => cases hstep
  | ends hproved hpoint =>
    rcases hpoint with rfl | ⟨-, rfl⟩
    · obtain rfl := Option.some.inj hstep
      exact ⟨horderly, Or.inl (.ends hproved (Or.inr ⟨rfl, rfl⟩))⟩
    · cases hstep
  | fails hfailed =>
    obtain rfl := Option.some.inj hstep
    exact .close horderly hlast

theorem wf_init : Wf env {} where
  orderly := fun e past hsuffix => by simp at hsuffix
  course := Or.inl .start

/-- A session that is over says nothing more. -/
theorem Wf.still (h : Wf env c) (hover : Over c') (hlog : c'.log = c.log) : Wf env c' :=
  ⟨hlog ▸ h.orderly, Or.inr hover⟩

theorem Wf.onCourse (h : Wf env c) (hread : c.point = .reading → c.closed = false)
    (hleft : c.point ≠ .left) : Course env c.log c.state c.point := by
  rcases h.course with hcourse | ⟨hclosed, hpoint⟩ | hpoint
  · exact hcourse
  · rw [hread hpoint] at hclosed
    cases hclosed
  · exact absurd hpoint hleft

theorem Wf.step {l : Label} (h : Wf env c) (hstep : step env c l = some c') : Wf env c' := by
  have hcourse {point : Point} (hpoint : c.point = point)
      (hread : point = .reading → c.closed = false) (hleft : point ≠ .left) :
      Course env c.log c.state point :=
    hpoint ▸ h.onCourse (hpoint ▸ hread) (hpoint ▸ hleft)
  cases l with
  | frame payload random =>
    rw [LoginRun.step] at hstep
    split at hstep
    · next hread =>
      obtain rfl := Option.some.inj hstep
      exact (hcourse hread.1 (fun _ => hread.2) nofun).onMessage payload random
    · cases hstep
  | readFails =>
    rw [LoginRun.step] at hstep
    split at hstep
    · obtain rfl := Option.some.inj hstep
      exact h.still (Or.inr rfl) rfl
    · cases hstep
  | taken found lookup random b =>
    rw [LoginRun.step] at hstep
    split at hstep
    · next ticket username hpoint =>
      obtain rfl := Option.some.inj hstep
      exact (hcourse hpoint nofun nofun).afterTake found lookup random b
    · cases hstep
  | put ok =>
    rw [LoginRun.step] at hstep
    split at hstep
    · next m2 token hpoint =>
      obtain rfl := Option.some.inj hstep
      obtain ⟨username, challenge, hstate, hproved⟩ := (hcourse hpoint nofun nofun).putting
      have hproves : Course env (.sent (LoginProto.encodeServerProof m2 token) :: c.log)
          { stage := .awaitingProof, username, challenge := some challenge } .proofSend :=
        .proves hproved
      rw [← hstate] at hproves
      exact ⟨(hproved.proves m2 token).1, Or.inl hproves⟩
    · cases hstep
  | listed entries =>
    rw [LoginRun.step] at hstep
    split at hstep
    · next hpoint =>
      obtain rfl := Option.some.inj hstep
      obtain ⟨past, username, challenge, m2, token, hlog, hproved⟩ :=
        (hcourse hpoint nofun nofun).listing
      refine ⟨?_, Or.inl ?_⟩
      · have horderly := (hproved.ends m2 token entries).1
        rw [← hlog] at horderly
        exact horderly
      · have hends : Course env (.sent (worldList entries) :: .listed ::
            .sent (LoginProto.encodeServerProof m2 token) :: past) c.state .worldListSend :=
          .ends hproved (Or.inl rfl)
        rw [← hlog] at hends
        exact hends
    · cases hstep
  | sent ok =>
    refine Course.afterSend (h.onCourse (fun hpoint => ?_) fun hpoint => ?_) hstep
    · rw [LoginRun.step, LoginRun.afterSend, hpoint] at hstep
      cases hstep
    · rw [LoginRun.step, LoginRun.afterSend, hpoint] at hstep
      cases hstep
  | throws =>
    rw [LoginRun.step] at hstep
    split at hstep
    · cases hstep
    · obtain rfl := Option.some.inj hstep
      exact h.still (Or.inr rfl) rfl
  | closes =>
    obtain rfl := Option.some.inj hstep
    refine ⟨h.orderly, ?_⟩
    rcases h.course with hcourse | ⟨-, hpoint⟩ | hpoint
    · exact Or.inl hcourse
    · exact Or.inr (Or.inl ⟨rfl, hpoint⟩)
    · exact Or.inr (Or.inr hpoint)

theorem wf_of_reachable (hr : Machine.Reachable (step env) {} c) : Wf env c :=
  hr.invariant wf_init fun _ _ _ hwf _ hstep => hwf.step hstep

/-! ## One guess per ticket -/

/-- **One guess per ticket.**  In every run of any number of sessions: a session checks at most
    one proof, after its own ticket was taken, against a challenge made for the name of its
    own hello; so there are no more checks than tickets taken.  It puts at most one token,
    for that name, after a proof was accepted.  It sends a `Dialogue`; after an error, and
    after a frame out of sequence, comes nothing but the closing. -/
theorem one_guess_per_ticket (env : Env) {s : ℕ → State}
    (hr : Machine.Reachable (Machine.many (step env)) (fun _ => {}) s) :
    (∀ sid, (s sid).log.countP Event.isVerified ≤ 1 ∧ (s sid).log.countP Event.isPut ≤ 1 ∧
      Orderly env (s sid).log ∧ Dialogue (sentFrames (s sid).log)) ∧
    ∀ sids : Finset ℕ, ∑ sid ∈ sids, (s sid).log.countP Event.isVerified ≤
      ∑ sid ∈ sids, (s sid).log.countP Event.isTook := by
  have horderly (sid : ℕ) : Orderly env (s sid).log := (wf_of_reachable (hr.of_many sid)).orderly
  refine ⟨fun sid => ⟨(horderly sid).verifies_le.1, (horderly sid).puts_le, horderly sid,
    (horderly sid).dialogue⟩, fun sids => ?_⟩
  exact Finset.sum_le_sum fun sid _ => (horderly sid).verifies_le.2

/-- With this hash every proof with the right M1 is accepted. -/
def unitEnv : Env := { H := unitHash, hmac := fun _ _ => Vector.replicate 32 0, enumKey := [] }

def zeroRandom : Vector UInt8 16 := Vector.replicate 16 0

/-- Two sessions: one up to its world list, and a proof too many; one without a ticket. -/
def twoSessions : List (ℕ × Label) :=
  [(0, .frame (LoginProto.encodeClientHello [1] [0x75]) zeroRandom),
    (1, .frame (LoginProto.encodeClientHello [1] [0x75]) zeroRandom),
    (0, .taken (some []) (some none) zeroRandom 0), (0, .sent true),
    (1, .taken none (some none) zeroRandom 0), (1, .readFails),
    (0, .frame (LoginProto.encodeClientProof [1] (unitHash []).toList) zeroRandom),
    (0, .put true), (0, .sent true), (0, .listed []), (0, .sent true),
    (0, .frame (LoginProto.encodeClientProof [1] (unitHash []).toList) zeroRandom)]

theorem one_guess_per_ticket_two :
    ∃ s, Machine.run (Machine.many (step unitEnv)) (fun _ => {}) twoSessions = some s ∧
      (s 0).log.countP Event.isVerified = 1 ∧
      ∑ sid ∈ {0, 1}, (s sid).log.countP Event.isVerified ≤
        ∑ sid ∈ {0, 1}, (s sid).log.countP Event.isTook := by
  have hrun : ((Machine.run (Machine.many (step unitEnv)) (fun _ => {}) twoSessions).map fun s =>
      (s 0).log.countP Event.isVerified) = some 1 := by decide +kernel
  obtain ⟨s, hs, hone⟩ := Option.map_eq_some_iff.mp hrun
  exact ⟨s, hs, hone, (one_guess_per_ticket unitEnv (.of_run .init hs)).2 {0, 1}⟩

end Netsrv.LoginRun
