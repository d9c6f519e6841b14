/-
  What the sessions send, and whether a frame can carry it.

  `Session::send` writes the length of its payload and the payload, whatever that length is.
  Every reader takes a length of 0 for an invalid frame and closes, and a length from
  `2 ^ 32` on is cut.  The messages of Master and Login start with an opcode or a length, so
  they are not empty, and what they carry is bounded: a host that was read with a 16-bit
  length, a salt out of a column, a list that the client of the store let pass.  Two senders
  can fail.  World echoes the body of a move, which is empty when the frame is the bare
  opcode (`Sys.bareEcho`), and the store sends however many entries there are.

  * `sends_of_step`: what one step sends.
  * `sendable_answers_iff`: what a store session sends.
-/
import Netsrv.Handlers.WorldListing
import Netsrv.Security.SrpCompleteness
import Netsrv.Store.StoreGate
import Netsrv.System.TokenPut

namespace Netsrv.System

open ByteCodec StoreWire StoreHandler RemoteStore LoginHandler Registry Srp6
open Session (Sendable)

/-! ## The messages of Master and Login -/

theorem sendable_redirect (random : Vector UInt8 16) {info : LoginInfo} (hfits : LoginFits info) :
    Sendable (MasterHandler.redirect (generateTokenHex random) info) := by
  have hhost : info.host.length < 65536 := hfits
  have htoken := length_generateTokenHex random
  simp only [Sendable, MasterHandler.redirect, MasterProto.encodeRedirect, List.length_append,
    ByteWriter.length_str16, ByteWriter.length_u16]
  omega

theorem sendable_serverChallenge {salt b : Bytes} (hsalt : salt.length < 2 ^ 31)
    (hb : b.length = kNBytes) : Sendable (LoginProto.encodeServerChallenge salt b) := by
  have hb : b.length = 256 := hb
  simp only [Sendable, LoginProto.encodeServerChallenge, List.length_append,
    ByteWriter.length_str16, ByteWriter.length_bytes32, ByteWriter.length_u16]
  omega

theorem sendable_serverProof (m2 : Digest) (random : Vector UInt8 16) :
    Sendable (LoginProto.encodeServerProof m2.toList (generateTokenHex random)) := by
  have htoken := length_generateTokenHex random
  simp only [Sendable, LoginProto.encodeServerProof, List.length_append, Vector.length_toList,
    ByteWriter.length_str16, ByteWriter.length_u16]
  omega

theorem sendable_worldList {entries : List StoreWire.Entry}
    (hlist : listLength entries ≤ StoreClient.kMaxResponseBytes) :
    Sendable (worldList entries) := by
  have hle := (WorldListing.length_worldList_le entries).trans hlist
  have hmax : StoreClient.kMaxResponseBytes < 2 ^ 32 := by decide
  refine ⟨?_, hle.trans_lt hmax⟩
  simp only [WorldListing.worldList_eq, LoginProto.encodeWorldList, List.length_append,
    ByteWriter.length_u16, ByteWriter.length_u32]
  omega

/-- What `list_prefix` returns came in one response. -/
theorem listLength_result_le (answer : Option Answer) :
    listLength (StoreClient.listPrefixResult (answer.bind received)) ≤
      StoreClient.kMaxResponseBytes := by
  have hnil : listLength [] ≤ StoreClient.kMaxResponseBytes := by decide
  cases answer with
  | none => exact hnil
  | some a =>
    rw [Option.bind_some]
    cases a with
    | list es =>
      rw [received]
      split
      · next hlimits => exact hlimits.2
      · exact hnil
    | ok => exact hnil
    | value v => exact hnil
    | notFound => exact hnil

/-- Whatever a wait ends with is an answer as the client received it, or nothing. -/
theorem Sys.received_of_awaited {s : Sys} {cid : ℕ} {lost : Bool} {outcome : Option Decoded}
    (h : s.awaited cid lost = some outcome) :
    ∃ answer : Option Answer, outcome = answer.bind received := by
  cases lost with
  | true => exact ⟨none, (Option.some.inj h).symm⟩
  | false =>
    obtain ⟨c, t, a, -, -, rfl⟩ := Sys.answered_of_awaited h
    exact ⟨a, rfl⟩

/-- The salt of a challenge is that of the account, or made up. -/
theorem length_salt_of_registrationFor {env : Env} {account : Option AccountRecord}
    {username fakePassword : Bytes} {reg : Registration}
    (hrow : ∀ r, account = some r → r.salt.length < 2 ^ 31)
    (h : registrationFor env account username fakePassword = some reg) :
    reg.salt.length < 2 ^ 31 := by
  cases account with
  | some r =>
    obtain rfl := Option.some.inj h
    exact hrow r rfl
  | none =>
    obtain ⟨verifier, -, hreg⟩ := Option.bind_eq_some_iff.mp h
    obtain rfl := Option.some.inj hreg
    have hlen : (fakeSaltFor env username).length ≤ 16 := List.length_take_le _ _
    exact hlen.trans_lt (by decide)

theorem length_bBytes_of_serverBegin {H : Hash} {verifier : Bytes} {b : ℕ} {ch : ServerChallenge}
    (h : serverBegin H kGroup verifier b = some ch) : ch.bBytes.length = kNBytes := by
  obtain ⟨ch', hbegin, hlen⟩ := kGroup_sound.exists_serverBegin H verifier b
  obtain rfl : ch = ch' := Option.some.inj (h.symm.trans hbegin)
  exact hlen

/-! ## The echo -/

/-- Two bytes are an opcode exactly if they are the layout of it. -/
theorem ofNat_ofLE_eq_iff {bytes : Bytes} (hlen : bytes.length = 2) (opcode : UInt16) :
    UInt16.ofNat (ofLE bytes) = opcode ↔ bytes = ByteWriter.u16 opcode := by
  have hlt : ofLE bytes < 2 ^ 16 := by
    have h := ofLE_lt bytes
    rwa [hlen] at h
  rw [ByteWriter.u16]
  constructor
  · rintro rfl
    rw [UInt16.toNat_ofNat', Nat.mod_eq_of_lt hlt, ← hlen, toLE_ofLE]
  · intro heq
    rw [heq, ofLE_toLE opcode.toNat_lt, UInt16.ofNat_toNat]

/-- An opcode that is echoed, and no body. -/
def bareEchoes : List Bytes :=
  [ByteWriter.u16 PlayerChannel.CPLAYER_MOVE, ByteWriter.u16 PlayerChannel.CPLAYER_PORTAL]

theorem length_of_mem_bareEchoes {payload : Bytes} (h : payload ∈ bareEchoes) :
    payload.length = 2 := by
  rcases List.mem_pair.mp h with rfl | rfl
  · exact ByteWriter.length_u16 _
  · exact ByteWriter.length_u16 _

/-- What a World session sends back can be framed unless it read a bare opcode. -/
theorem sendable_echo_iff {ctx : WorldHandler.SessionState} {payload body : Bytes}
    {opcode : UInt16} (hfits : FrameFits .world payload)
    (h : WorldHandler.onMessage ctx payload = .dispatch opcode body)
    (hecho : opcode = PlayerChannel.CPLAYER_MOVE ∨ opcode = PlayerChannel.CPLAYER_PORTAL) :
    Sendable body ↔ payload ∉ bareEchoes := by
  have hauth := WorldHandler.onMessage_dispatch h
  rw [WorldHandler.onMessage, hauth, if_neg (by decide)] at h
  split at h
  · cases h
  · next hlong =>
    obtain ⟨rfl, rfl⟩ := WorldHandler.Action.dispatch.inj h
    have hhead : (payload.take 2).length = 2 := List.length_take_of_le (Nat.le_of_not_lt hlong)
    have hmax : payload.length ≤ 8192 := hfits.2
    rw [ofNat_ofLE_eq_iff hhead, ofNat_ofLE_eq_iff hhead] at hecho
    by_cases hbare : payload.length = 2
    · -- nothing is left after the opcode
      rw [List.take_of_length_le hbare.le] at hecho
      rw [List.drop_of_length_le hbare.le]
      exact iff_of_false (by decide) fun hnot => hnot (List.mem_pair.mpr hecho)
    · refine iff_of_true ?_ fun hmem => hbare (length_of_mem_bareEchoes hmem)
      rw [Sendable, List.length_drop]
      omega

/-- A bare opcode on an authenticated session is dispatched with an empty body. -/
theorem onMessage_bareEcho {ctx : WorldHandler.SessionState} {payload : Bytes}
    (hauth : ctx.authenticated = true) (hmem : payload ∈ bareEchoes) :
    ∃ opcode, WorldHandler.onMessage ctx payload = .dispatch opcode [] ∧
      PlayerChannel.dispatch opcode [] = [[]] := by
  rw [WorldHandler.onMessage, hauth]
  rcases List.mem_pair.mp hmem with rfl | rfl
  · exact ⟨PlayerChannel.CPLAYER_MOVE, by decide, by decide⟩
  · exact ⟨PlayerChannel.CPLAYER_PORTAL, by decide, by decide⟩

/-! ## A step -/

/-- The step handles a bare opcode on an authenticated World session. -/
def Sys.bareEcho (s : Sys) : Label → Bool
  | .worldFrame sid payload _ =>
    (s.world sid).state.authenticated && decide (payload ∈ bareEchoes)
  | _ => false

/-- An account that is created can be stored and found: the length of a salt is an `int` to
    `sqlite3_bind_blob` and `sqlite3_column_bytes`. -/
def Label.storable : Label → Bool
  | .createAccount r => decide (r.salt.length < 2 ^ 31)
  | _ => true

/-- What the messages of a step are made of. -/
structure Primed (s : Sys) : Prop where
  gated : Gated s
  poised : Poised s
  /-- What Master has picked was read out of the registry. -/
  picked : ∀ sid info, (s.master sid).pending = some info → LoginFits info
  rows : ∀ username r, s.accounts username = some r → r.salt.length < 2 ^ 31

theorem primed_init : Primed {} where
  gated := gated_init
  poised := poised_init
  picked := fun _ _ h => by cases h
  rows := fun _ _ h => by cases h

variable {env : Env} {s s' : Sys} {l : Label}

theorem loginFits_of_pickLogin {clk : Bytes → ℕ} {it : List SharedStore.Cell} {info : LoginInfo}
    (h : pickLogin clk it = some info) : LoginFits info := by
  rw [pickLogin] at h
  split at h
  · cases h
  · exact ((decodeLogin_eq_some_iff _ _).mp h).1

theorem Step.picked (h : Step env s l s')
    (hp : ∀ sid info, (s.master sid).pending = some info → LoginFits info) :
    ∀ sid info, (s'.master sid).pending = some info → LoginFits info := by
  have hset {sid : ℕ} {m : MasterSession} (hm : ∀ info, m.pending = some info → LoginFits info)
      (sid' : ℕ) (info : LoginInfo)
      (hinfo : (Function.update s.master sid m sid').pending = some info) : LoginFits info := by
    rw [Function.update_apply] at hinfo
    split at hinfo
    · exact hm info hinfo
    · exact hp sid' info hinfo
  cases h with
  | masterPicks _ hpick =>
    exact hset fun info hinfo => Option.some.inj hinfo ▸ loginFits_of_pickLogin hpick
  | masterIssues random _ => exact hset fun info hinfo => by cases hinfo
  | masterLeaves sid => exact hset (hp sid)
  | _ => exact hp

theorem Step.rows (h : Step env s l s') (hl : l.storable = true)
    (hrows : ∀ username r, s.accounts username = some r → r.salt.length < 2 ^ 31) :
    ∀ username r, s'.accounts username = some r → r.salt.length < 2 ^ 31 := by
  cases h with
  | createAccount r _ =>
    intro username r' hr'
    have hr' : Function.update s.accounts r.username (some r) username = some r' := hr'
    rw [Function.update_apply] at hr'
    split at hr'
    · obtain rfl := Option.some.inj hr'
      exact of_decide_eq_true hl
    · exact hrows username r' hr'
  | _ => exact hrows

theorem Primed.step (hp : Primed s) (h : Step env s l s') (hl : l.storable = true) :
    Primed s' where
  gated := hp.gated.step h
  poised := hp.poised.step hp.gated h
  picked := h.picked hp.picked
  rows := h.rows hl hp.rows

theorem primed_of_reach (hr : Machine.Reach (step env) (fun _ l => l.storable = true) {} s) :
    Primed s :=
  hr.invariant primed_init fun _ _ _ hp hl hstep => hp.step (step_cases hstep) hl

/-- A message can be framed, unless it is the echo of a bare opcode. -/
theorem Message.sendable_iff {party : Party} {frame : Bytes} (h : Message env s l party frame)
    (hp : Primed s) : Sendable frame ↔ s.bareEcho l = false := by
  cases h with
  | masterError => exact iff_of_true (by decide) rfl
  | redirect random hpending =>
    exact iff_of_true (sendable_redirect random (hp.picked _ _ hpending)) rfl
  | loginError hl => exact iff_of_true (by decide) (by cases l <;> first | rfl | cases hl)
  | challenge hreg hbegin =>
    exact iff_of_true (sendable_serverChallenge (length_salt_of_registrationFor (hp.rows _) hreg)
      (length_bBytes_of_serverBegin hbegin)) rfl
  | proof hpoint _ =>
    obtain ⟨-, -, ⟨random, rfl⟩, m2, hm2⟩ := hp.poised.putting _ _ _ _ hpoint
    rw [hm2]
    exact iff_of_true (sendable_serverProof m2 random) rfl
  | worlds hout =>
    obtain ⟨answer, rfl⟩ := Sys.received_of_awaited hout
    exact iff_of_true (sendable_worldList (listLength_result_le answer)) rfl
  | echo hfits hmsg hecho =>
    rw [sendable_echo_iff hfits hmsg hecho, Sys.bareEcho, WorldHandler.onMessage_dispatch hmsg,
      Bool.true_and, decide_eq_false_iff_not]

/-- A step that handles a bare opcode sends an empty payload. -/
theorem messages_of_bareEcho (h : step env s l = some s') (hbare : s.bareEcho l = true) :
    ∃ party, s'.messages = (party, []) :: s.messages := by
  cases l with
  | worldFrame sid payload cid =>
    rw [Sys.bareEcho, Bool.and_eq_true, decide_eq_true_eq] at hbare
    obtain ⟨opcode, hmsg, hecho⟩ := onMessage_bareEcho hbare.1 hbare.2
    rw [step] at h
    split at h
    · rw [hmsg] at h
      obtain rfl := Option.some.inj h
      rw [hecho]
      exact ⟨_, rfl⟩
    · cases h
  | _ => cases hbare

/-- What a step sends can be framed exactly if the step is no echo of a bare opcode. -/
theorem sends_of_step (hp : Primed s) (h : step env s l = some s') :
    ∃ sent, s'.messages = sent ++ s.messages ∧
      ((∀ m ∈ sent, Sendable m.2) ↔ s.bareEcho l = false) := by
  cases step_messages h with
  | silent hsame =>
    refine ⟨[], hsame, iff_of_true (fun _ hm => by cases hm) ?_⟩
    rw [← Bool.not_eq_true]
    intro hbare
    obtain ⟨party, hone⟩ := messages_of_bareEcho h hbare
    exact List.cons_ne_self _ _ (hone.symm.trans hsame)
  | @sends party frame hmsg hnew =>
    refine ⟨[(party, frame)], hnew, ?_⟩
    rw [← hmsg.sendable_iff hp, List.forall_mem_singleton]

/-! ## The store -/

/-- The bytes that the visible entries under a prefix take in a list. -/
def listedBytes (clk : Bytes → ℕ) (it : List SharedStore.Cell) (pre : Bytes) : ℕ :=
  (it.map fun c => if SharedStore.expiredCell clk c = false ∧ c.1.take pre.length = pre
    then c.1.length + c.2.value.length + 6 else 0).sum

theorem listLength_listPrefix (clk : Bytes → ℕ) (it : List SharedStore.Cell) (pre : Bytes) :
    listLength (SharedStore.listPrefix clk it pre) = 38 + listedBytes clk it pre := by
  rw [listLength, listedBytes, SharedStore.listPrefix_eq]
  congr 1
  induction it with
  | nil => rfl
  | cons c it ih =>
    rw [List.filterMap_cons, List.map_cons, List.sum_cons, ← ih]
    by_cases hc : SharedStore.expiredCell clk c = false ∧ c.1.take pre.length = pre
    · have hentry :
          (encodeEntry (c.1, c.2.value)).length = c.1.length + c.2.value.length + 6 := by
        rw [encodeEntry, List.length_append, ByteWriter.length_str16, ByteWriter.length_bytes32]
        dsimp only
        omega
      simp only [if_pos hc, List.flatMap_cons, List.length_append, hentry]
    · simp only [if_neg hc, Nat.zero_add]

/-- A request does not list more than a frame can hold. -/
def ListFits (hmac : Hmac) (hmacKey : Bytes) (m : Moment) (payload : Bytes) : Prop :=
  ∀ r, Authentic hmac hmacKey payload r → r.op = .listPrefix →
    38 + listedBytes m.clk m.it r.key < 2 ^ 32

/-- A value that was stored can be sent. -/
theorem sendable_ofFound {hmac : Hmac} {hmacKey : Bytes} {store : SharedStore}
    (hs : Bounded store) (now : ℕ) (key : Bytes) :
    Sendable ((Answer.ofFound (store.get now key)).encode hmac hmacKey) := by
  cases hget : store.get now key with
  | none =>
    rw [Answer.ofFound, Answer.encode, Sendable, length_encodeNotFound]
    decide
  | some v =>
    have hlen := hs.length_value hget
    have hlen : v.length + 44 ≤ 4096 := hlen
    rw [Answer.ofFound, Answer.encode, Sendable, length_encodeValue]
    omega

/-- Whatever a store session is sent, its answer can be framed unless it is a list that is too
    long. -/
theorem sendable_answers_iff {hmac : Hmac} {hmacKey : Bytes} {store : SharedStore}
    (hs : Bounded store) (m : Moment) (payload : Bytes) :
    (∀ f ∈ (onMessage hmac hmacKey m store payload).sent, Sendable f) ↔
      ListFits hmac hmacKey m payload := by
  cases hd : decodeAndVerify hmac hmacKey payload with
  | none =>
    rw [onMessage_of_none hd]
    refine iff_of_true (fun _ hf => by cases hf) fun r hr => ?_
    rw [authentic_iff, hd] at hr
    cases hr
  | some d =>
    have hauth : Authentic hmac hmacKey payload d := (authentic_iff payload d).mpr hd
    rw [onMessage_of_some hd]
    cases hop : d.op with
    | listPrefix =>
      simp only [dispatch, hop, Option.toList_some, List.map_singleton, List.mem_singleton,
        forall_eq, Answer.encode, Sendable, length_encodeList, listLength_listPrefix]
      constructor
      · rintro ⟨-, hlt⟩ r hr -
        rwa [hr.unique hauth]
      · intro hfits
        exact ⟨by omega, hfits d hauth hop⟩
    | put =>
      simp only [dispatch, hop, Option.toList_some, List.map_singleton, List.mem_singleton,
        forall_eq]
      refine iff_of_true ?_ fun r hr hlist => ?_
      · rw [Answer.encode, Sendable, length_encodeOk]
        decide
      · rw [hr.unique hauth, hop] at hlist
        cases hlist
    | get | take =>
      simp only [dispatch, hop, SharedStore.take_eq, Option.toList_some, List.map_singleton,
        List.mem_singleton, forall_eq]
      refine iff_of_true (sendable_ofFound hs m.now d.key) fun r hr hlist => ?_
      rw [hr.unique hauth, hop] at hlist
      cases hlist
    | ok | value | notFound | err | list =>
      simp only [dispatch, hop, Option.toList_none, List.map_nil]
      refine iff_of_true (fun _ hf => by cases hf) fun r hr hlist => ?_
      rw [hr.unique hauth, hop] at hlist
      cases hlist

/-! ## Every run -/

/-- In a run without a bare opcode, every payload sent can be framed. -/
theorem sendable_of_reach (hr : Machine.Reach (step env)
      (fun s l => l.storable = true ∧ s.bareEcho l = false) {} s) :
    ∀ m ∈ s.messages, Sendable m.2 := by
  refine (hr.invariant (I := fun s => Primed s ∧ ∀ m ∈ s.messages, Sendable m.2)
    ⟨primed_init, fun _ hm => by cases hm⟩ ?_).2
  rintro s l s' ⟨hprimed, hall⟩ ⟨hl, hok⟩ hstep
  refine ⟨hprimed.step (step_cases hstep) hl, fun m hm => ?_⟩
  obtain ⟨sent, hsent, hiff⟩ := sends_of_step hprimed hstep
  rw [hsent] at hm
  rcases List.mem_append.mp hm with hm | hm
  · exact hiff.mpr hok m hm
  · exact hall m hm

/-- **No empty frame but the echo of a bare opcode.**  In every run in which no authenticated
    World session reads a bare `CPLAYER_MOVE` or `CPLAYER_PORTAL`, every payload that a Master,
    Login or World session sends has a length that its frame announces, so its reader gets
    it; a step of any run sends such payloads only, exactly if it does not read one of the
    two.  What a store session sends has such a length, exactly if it is not a list of
    `2 ^ 32` bytes or more. -/
theorem sent_frames_sendable (env : Env) (hmac : Hmac) (hmacKey : Bytes) :
    (∀ s, Machine.Reach (step env) (fun s l => l.storable = true ∧ s.bareEcho l = false) {} s →
      ∀ party f, (party, f) ∈ s.messages → Sendable f ∧
        ∀ maxFrameBytes, f.length ≤ maxFrameBytes → ∀ rest,
          Session.readFrame maxFrameBytes (Session.send f ++ rest) = some (f, rest)) ∧
    (∀ s s' l sent, Machine.Reach (step env) (fun _ l => l.storable = true) {} s →
      step env s l = some s' → s'.messages = sent ++ s.messages →
      ((∀ m ∈ sent, Sendable m.2) ↔ s.bareEcho l = false)) ∧
    ∀ store, RemoteStore.Reachable hmac hmacKey store → ∀ m payload,
      ((∀ f ∈ (onMessage hmac hmacKey m store payload).sent, Sendable f) ↔
        ListFits hmac hmacKey m payload) := by
  refine ⟨fun s hr party f hf => ?_, fun s s' l sent hr hstep hsent => ?_,
    fun store hstore m payload => sendable_answers_iff hstore.bounded m payload⟩
  · have hok : Sendable f := sendable_of_reach hr (party, f) hf
    exact ⟨hok, hok.readFrame⟩
  · obtain ⟨sent', hsent', hiff⟩ := sends_of_step (primed_of_reach hr) hstep
    obtain rfl : sent = sent' := List.append_cancel_right (hsent.symm.trans hsent')
    exact hiff

/-- The frames of `walkthrough`, one of them the echo of a move with a body. -/
theorem sent_frames_sendable_walkthrough :
    ∃ s, Machine.run (Machine.guarded (step plainEnv) fun s l => l.storable && !s.bareEcho l) {}
        walkthrough = some s ∧ s.messages.length = 4 ∧ ∀ m ∈ s.messages, Sendable m.2 := by
  have hrun : ((Machine.run (Machine.guarded (step plainEnv) fun s l =>
      l.storable && !s.bareEcho l) {} walkthrough).map fun s => s.messages.length) = some 4 := by
    decide +kernel
  obtain ⟨s, hs, hfour⟩ := Option.map_eq_some_iff.mp hrun
  have hr := Machine.Reach.of_run .init hs
  have hok := (sent_frames_sendable plainEnv zeroMac []).1 s
    (hr.mono fun s l hok => by simpa using hok)
  exact ⟨s, hs, hfour, fun m hm => (hok m.1 m.2 hm).1⟩

/-- A client that gets into World and moves without saying where. -/
def bareMoveRun : List Label :=
  walkthrough.dropLast ++ [.worldFrame 0 (ByteWriter.u16 PlayerChannel.CPLAYER_MOVE) 5]

/-- It is sent an empty frame, which it takes for an invalid one. -/
theorem empty_frame_sent :
    ¬ ∀ (env : Env) (s : Sys), Machine.Reach (step env) (fun _ l => l.storable = true) {} s →
      ∀ party f, (party, f) ∈ s.messages → Sendable f := by
  intro h
  have hrun : ((Machine.run (Machine.guarded (step plainEnv) fun _ l => l.storable) {}
      bareMoveRun).map fun s => s.messages.head?) = some (some (.world 0, [])) := by
    decide +kernel
  obtain ⟨s, hs, hhead⟩ := Option.map_eq_some_iff.mp hrun
  have hempty := h plainEnv s (Machine.Reach.of_run .init hs) _ _ (List.mem_of_head? hhead)
  exact absurd hempty (by decide)

end Netsrv.System
