/-
  The internal channel, with someone on it who has no key.

  Every frame a client or the store puts on the channel can be dropped, kept and passed on,
  any number of times, to the store or to any caller; other frames can be made up, if their
  MAC does not verify.  The store answers each frame by itself, whatever connection it came
  on, so connections are left out.  `log` is not in the program: it records what the store was
  given and what Master put, in order.

  * `genuine_of_reachable`: what the store executes was sent by some call, and what a call
    accepts was sent by the store.
  * `agreement`: each to its own, in the runs in which no write is passed on twice and no
    answer given to another call; `replayed` is a run that breaks this.
-/
import Netsrv.Lib.Machine
import Netsrv.Lib.Slots
import Netsrv.Store.RemoteStore

namespace Netsrv.StoreReplay

open StoreWire StoreHandler SharedStore RemoteStore

/-- The calls of `StoreClient`. -/
inductive Request where
  | put (key value : Bytes) (ttl : ℕ)
  | get (key : Bytes)
  | take (key : Bytes)
  | listPrefix (pre : Bytes)
  deriving DecidableEq, Repr

/-- Whether `put` makes a success of a response, or `get` and `take` a value. -/
def Request.accepts : Request → Decoded → Bool
  | put .., d => StoreClient.putResult (some d)
  | get _, d | take _, d => (StoreClient.getOrTakeResult (some d)).isSome
  | listPrefix _, _ => false

structure Call where
  request : Request
  waiting : Bool := true
  /-- The frame with the answer that was accepted. -/
  accepted : Option Bytes := none
  deriving DecidableEq, Repr

/-- Where a frame comes from that is passed on: a call, an answer in the log, or neither. -/
inductive Frame where
  | request (cid : ℕ)
  | answer (i : ℕ)
  | made (payload : Bytes)
  deriving DecidableEq, Repr

inductive Event where
  /-- `on_message`, and what it sent. -/
  | served (frame : Frame) (payload : Bytes) (sent : List Bytes)
  /-- Master puts a ticket. -/
  | issued (key : Bytes)
  deriving DecidableEq, Repr

structure State where
  now : ℕ := 0
  store : SharedStore := .empty
  calls : List Call := []
  log : List Event := []

inductive Label where
  | call (request : Request)
  /-- The store is given a frame. -/
  | deliver (frame : Frame) (it : List Cell)
  /-- A caller is given a frame. -/
  | answer (cid : ℕ) (frame : Frame)
  /-- A call ends without an answer. -/
  | lost (cid : ℕ)
  | issue (key value : Bytes) (ttl : ℕ)
  | tick (d : ℕ)
  | sweep (it : List Cell)

def Event.frame? : Event → Option Frame
  | served frame _ _ => some frame
  | issued _ => none

def Event.sent : Event → List Bytes
  | served _ _ sent => sent
  | issued _ => []

section Channel

variable (hmac : Hmac) (hmacKey : Bytes)

def Request.encode : Request → Bytes
  | put key value ttl => StoreClient.putRequest hmac hmacKey key value ttl
  | get key => encodeGetOrTake hmac hmacKey .get key
  | take key => encodeGetOrTake hmac hmacKey .take key
  | listPrefix pre => encodeListPrefix hmac hmacKey pre

/-- The bytes of a frame: one that is there, or one whose MAC is not known. -/
def State.payload (s : State) : Frame → Option Bytes
  | .request cid => s.calls[cid]?.map fun c => c.request.encode hmac hmacKey
  | .answer i => s.log[i]?.bind fun e => e.sent.head?
  | .made payload =>
    if (decodeAndVerify hmac hmacKey payload).isNone then some payload else none

/-- The call decodes the frame and looks at its opcode. -/
def Call.accepts (c : Call) (payload : Bytes) : Bool :=
  (decodeAndVerify hmac hmacKey payload).any c.request.accepts

def step (s : State) : Label → Option State
  | .call request => some { s with calls := s.calls ++ [{ request }] }
  | .deliver frame it =>
    match s.payload hmac hmacKey frame with
    | none => none
    | some payload =>
      if s.store.Walk it then
        let handled := onMessage hmac hmacKey { now := s.now, it } s.store payload
        some { s with
          store := handled.state
          log := s.log ++ [.served frame payload handled.sent] }
      else none
  | .answer cid frame =>
    match s.calls[cid]?, s.payload hmac hmacKey frame with
    | some c, some payload =>
      if c.waiting ∧ 0 < payload.length ∧ payload.length ≤ StoreClient.kMaxResponseBytes then
        some { s with calls := s.calls.set cid { c with
          waiting := false
          accepted := if c.accepts hmac hmacKey payload then some payload else none } }
      else none
    | _, _ => none
  | .lost cid =>
    match s.calls[cid]? with
    | some c =>
      if c.waiting then some { s with calls := s.calls.set cid { c with waiting := false } }
      else none
    | none => none
  | .issue key value ttl =>
    some { s with store := s.store.put s.now key value ttl, log := s.log ++ [.issued key] }
  | .tick d => some { s with now := s.now + d }
  | .sweep it =>
    if s.store.Walk it then some { s with store := (s.store.sweepExpired (fun _ => s.now) it).1 }
    else none

/-! ## What is to hold -/

/-- The frame is an authentic `Put` or `Take`. -/
def writes (payload : Bytes) : Bool :=
  (decodeAndVerify hmac hmacKey payload).any fun d => d.op = .put || d.op = .take

/-- `caller` says whose each execution is: each write is of a call of its own, that sent it,
    and what a call accepts is the answer to an execution that is its own. -/
structure Agrees (s : State) (caller : ℕ → ℕ) : Prop where
  sent : ∀ (i : ℕ) frame payload answers, s.log[i]? = some (.served frame payload answers) →
    writes hmac hmacKey payload = true →
    ∃ c, s.calls[caller i]? = some c ∧ c.request.encode hmac hmacKey = payload
  distinct : ∀ (i j : ℕ) frame frame' payload payload' answers answers',
    s.log[i]? = some (.served frame payload answers) → writes hmac hmacKey payload = true →
    s.log[j]? = some (.served frame' payload' answers') → writes hmac hmacKey payload' = true →
    caller i = caller j → i = j
  answered : ∀ (cid : ℕ) c answer, s.calls[cid]? = some c → c.accepted = some answer →
    ∃ i frame answers, s.log[i]? = some (.served frame (c.request.encode hmac hmacKey) answers) ∧
      caller i = cid ∧ answer ∈ answers

/-- Event `i` is a `Take` of the key that found a value. -/
def Takes (s : State) (i : ℕ) (key : Bytes) : Prop :=
  ∃ frame payload d value, s.log[i]? =
      some (.served frame payload [encodeValue hmac hmacKey value]) ∧
    decodeAndVerify hmac hmacKey payload = some d ∧ d.op = .take ∧ d.key = key

/-- Event `i` is a `Put` of the key, by a call or by Master. -/
def Puts (s : State) (i : ℕ) (key : Bytes) : Prop :=
  s.log[i]? = some (.issued key) ∨
    ∃ frame payload answers d, s.log[i]? = some (.served frame payload answers) ∧
      decodeAndVerify hmac hmacKey payload = some d ∧ d.op = .put ∧ d.key = key

/-- Between two takes of a key there is a put of it. -/
def SingleUse (s : State) : Prop :=
  ∀ i j key, i < j → Takes hmac hmacKey s i key → Takes hmac hmacKey s j key →
    ∃ k, i < k ∧ k < j ∧ Puts hmac hmacKey s k key

/-- No write is given to the store a second time, and no call the answer to another one. -/
def passedOn (s : State) : Label → Bool
  | .deliver frame _ => !(s.payload hmac hmacKey frame).any (writes hmac hmacKey) ||
      !s.log.any fun e => e.frame? = some frame
  | .answer cid frame =>
    match s.calls[cid]?, frame with
    | some c, .answer i => !(s.payload hmac hmacKey frame).any (c.accepts hmac hmacKey) ||
        (s.log[i]?.bind Event.frame?) = some (.request cid)
    | some c, _ => !(s.payload hmac hmacKey frame).any (c.accepts hmac hmacKey)
    | none, _ => true
  | _ => true

end Channel

/-! ## What a step can do -/

inductive Step (hmac : Hmac) (hmacKey : Bytes) (s : State) : Label → State → Prop
  | calls (request : Request) :
      Step hmac hmacKey s (.call request) { s with calls := s.calls ++ [{ request }] }
  | delivers {frame : Frame} {it : List Cell} {payload : Bytes} :
      s.payload hmac hmacKey frame = some payload → s.store.Walk it →
      Step hmac hmacKey s (.deliver frame it) { s with
        store := (onMessage hmac hmacKey { now := s.now, it } s.store payload).state
        log := s.log ++ [.served frame payload
          (onMessage hmac hmacKey { now := s.now, it } s.store payload).sent] }
  | answers {cid : ℕ} {frame : Frame} {c : Call} {payload : Bytes} : s.calls[cid]? = some c →
      s.payload hmac hmacKey frame = some payload →
      Step hmac hmacKey s (.answer cid frame) { s with calls := s.calls.set cid { c with
        waiting := false
        accepted := if c.accepts hmac hmacKey payload then some payload else none } }
  | loses {cid : ℕ} {c : Call} : s.calls[cid]? = some c → Step hmac hmacKey s (.lost cid)
      { s with calls := s.calls.set cid { c with waiting := false } }
  | issues (key value : Bytes) (ttl : ℕ) : Step hmac hmacKey s (.issue key value ttl)
      { s with store := s.store.put s.now key value ttl, log := s.log ++ [.issued key] }
  | ticks (d : ℕ) : Step hmac hmacKey s (.tick d) { s with now := s.now + d }
  | sweeps {it : List Cell} : s.store.Walk it → Step hmac hmacKey s (.sweep it)
      { s with store := (s.store.sweepExpired (fun _ => s.now) it).1 }

variable {hmac : Hmac} {hmacKey : Bytes} {s s' : State} {l : Label}

theorem step_cases (h : step hmac hmacKey s l = some s') : Step hmac hmacKey s l s' := by
  cases l with
  | call request =>
    obtain rfl := Option.some.inj h
    exact .calls request
  | deliver frame it =>
    simp only [step] at h
    split at h
    · cases h
    · next payload hpayload =>
      split at h
      · next hit =>
        obtain rfl := Option.some.inj h
        exact .delivers hpayload hit
      · cases h
  | answer cid frame =>
    simp only [step] at h
    split at h
    · next c payload hc hpayload =>
      split at h
      · obtain rfl := Option.some.inj h
        exact .answers hc hpayload
      · cases h
    · cases h
  | lost cid =>
    simp only [step] at h
    split at h
    · next c hc =>
      split at h
      · obtain rfl := Option.some.inj h
        exact .loses hc
      · cases h
    · cases h
  | issue key value ttl =>
    obtain rfl := Option.some.inj h
    exact .issues key value ttl
  | tick d =>
    obtain rfl := Option.some.inj h
    exact .ticks d
  | sweep it =>
    simp only [step] at h
    split at h
    · next hit =>
      obtain rfl := Option.some.inj h
      exact .sweeps hit
    · cases h

/-- A call keeps its request, and the log only grows. -/
structure Grows (s s' : State) : Prop where
  calls : ∀ (cid : ℕ) c, s.calls[cid]? = some c →
    ∃ c', s'.calls[cid]? = some c' ∧ c'.request = c.request
  log : ∀ (i : ℕ) e, s.log[i]? = some e → s'.log[i]? = some e

theorem Step.grows (h : Step hmac hmacKey s l s') : Grows s s' := by
  have hset {cid : ℕ} {c c' : Call} (hc : s.calls[cid]? = some c) (hreq : c'.request = c.request)
      (j : ℕ) (d : Call) (hd : s.calls[j]? = some d) :
      ∃ d', (s.calls.set cid c')[j]? = some d' ∧ d'.request = d.request := by
    by_cases hj : j = cid
    · obtain rfl := hj
      obtain rfl := Option.some.inj (hc.symm.trans hd)
      exact ⟨c', Slots.set_self hc, hreq⟩
    · exact ⟨d, (List.getElem?_set_ne (Ne.symm hj)).trans hd, rfl⟩
  cases h with
  | calls request => exact ⟨fun _ c hc => ⟨c, Slots.append_left hc _, rfl⟩, fun _ _ he => he⟩
  | delivers _ _ => exact ⟨fun _ c hc => ⟨c, hc, rfl⟩, fun _ _ he => Slots.append_left he _⟩
  | answers hc _ => exact ⟨hset hc rfl, fun _ _ he => he⟩
  | loses hc => exact ⟨hset hc rfl, fun _ _ he => he⟩
  | issues => exact ⟨fun _ c hc => ⟨c, hc, rfl⟩, fun _ _ he => Slots.append_left he _⟩
  | ticks _ => exact ⟨fun _ c hc => ⟨c, hc, rfl⟩, fun _ _ he => he⟩
  | sweeps _ => exact ⟨fun _ c hc => ⟨c, hc, rfl⟩, fun _ _ he => he⟩

/-- What is new in the log: the event of a frame given to the store, or of a put by Master. -/
theorem Step.new_event (h : Step hmac hmacKey s l s') {i : ℕ} {e : Event}
    (he : s'.log[i]? = some e) : s.log[i]? = some e ∨ i = s.log.length ∧
      ((∃ frame it payload, l = .deliver frame it ∧ s.payload hmac hmacKey frame = some payload ∧
        s.store.Walk it ∧ e = .served frame payload
          (onMessage hmac hmacKey { now := s.now, it } s.store payload).sent) ∨
      ∃ key value ttl, l = .issue key value ttl ∧ e = .issued key) := by
  cases h with
  | calls _ => exact Or.inl he
  | @delivers frame it payload hpayload hit =>
    refine (Slots.concat_cases he).imp_right fun ⟨hi, heq⟩ => ⟨hi, Or.inl ?_⟩
    exact ⟨frame, it, payload, rfl, hpayload, hit, heq⟩
  | answers _ _ => exact Or.inl he
  | loses _ => exact Or.inl he
  | issues key value ttl =>
    exact (Slots.concat_cases he).imp_right fun ⟨hi, heq⟩ =>
      ⟨hi, Or.inr ⟨key, value, ttl, rfl, heq⟩⟩
  | ticks _ => exact Or.inl he
  | sweeps _ => exact Or.inl he

/-! ## Every frame has an origin -/

theorem op_eq_of_code {msg : Bytes} {d : Decoded} {op : Op} (hmsg : ByteWriter.u16 op.code <+: msg)
    (hd : decodeAndVerify hmac hmacKey msg = some d) : d.op = op := by
  obtain ⟨rest, hrest⟩ := hmsg
  exact RemoteStore.op_of_decode hrest.symm hd

theorem prefix_sign {start body : Bytes} (h : start <+: body) : start <+: sign hmac hmacKey body :=
  h.trans (List.prefix_append _ _)

theorem prefix_encodeGetOrTake (op : Op) (key : Bytes) :
    ByteWriter.u16 op.code <+: encodeGetOrTake hmac hmacKey op key := by
  refine prefix_sign ?_
  rw [List.append_assoc, List.append_assoc]
  exact List.prefix_append _ _

theorem not_writes_of_prefix {msg : Bytes} (op : Op) (hmsg : ByteWriter.u16 op.code <+: msg)
    (hput : op ≠ .put) (htake : op ≠ .take) : writes hmac hmacKey msg = false := by
  unfold writes
  cases hd : decodeAndVerify hmac hmacKey msg with
  | none => rfl
  | some d =>
    rw [Option.any_some, op_eq_of_code hmsg hd, decide_eq_false hput, decide_eq_false htake,
      Bool.or_false]

theorem not_writes_encode (a : StoreHandler.Answer) :
    writes hmac hmacKey (a.encode hmac hmacKey) = false := by
  cases a with
  | ok => exact not_writes_of_prefix .ok (prefix_sign List.prefix_rfl) (by decide) (by decide)
  | value v =>
    exact not_writes_of_prefix .value (prefix_sign (List.prefix_append _ _)) (by decide)
      (by decide)
  | notFound =>
    exact not_writes_of_prefix .notFound (prefix_sign List.prefix_rfl) (by decide) (by decide)
  | list entries =>
    refine not_writes_of_prefix .list (prefix_sign ?_) (by decide) (by decide)
    rw [List.append_assoc]
    exact List.prefix_append _ _

/-- The store sends responses, which are no writes. -/
theorem not_writes_of_sent {m : Moment} {store : SharedStore} {payload answer : Bytes}
    (h : answer ∈ (onMessage hmac hmacKey m store payload).sent) :
    writes hmac hmacKey answer = false := by
  unfold onMessage at h
  split at h
  · cases h
  · obtain ⟨a, -, rfl⟩ := List.mem_map.mp h
    exact not_writes_encode a

/-- A request starts with the opcode of one. -/
theorem Request.exists_prefix (hmac : Hmac) (hmacKey : Bytes) (r : Request) :
    ∃ op : Op, ByteWriter.u16 op.code <+: r.encode hmac hmacKey ∧ op ≠ .ok ∧ op ≠ .value := by
  cases r with
  | put key value ttl =>
    refine ⟨.put, prefix_sign ?_, by decide, by decide⟩
    rw [List.append_assoc, List.append_assoc]
    exact List.prefix_append _ _
  | get key => exact ⟨.get, prefix_encodeGetOrTake _ _, by decide, by decide⟩
  | take key => exact ⟨.take, prefix_encodeGetOrTake _ _, by decide, by decide⟩
  | listPrefix pre => exact ⟨.listPrefix, prefix_encodeGetOrTake _ _, by decide, by decide⟩

/-- Only `Ok` and `Value` are accepted. -/
theorem Request.op_of_accepts {r : Request} {d : Decoded} (h : r.accepts d = true) :
    d.op = .ok ∨ d.op = .value := by
  cases r with
  | put key value ttl =>
    rw [Request.accepts, StoreClient.putResult] at h
    exact Or.inl (of_decide_eq_true h)
  | get key | take key =>
    rw [Request.accepts, StoreClient.getOrTakeResult] at h
    by_contra hnot
    rw [not_or] at hnot
    rw [if_pos hnot.2] at h
    cases h
  | listPrefix pre => cases h

/-- No call accepts a request. -/
theorem Call.not_accepts_encode (c : Call) (r : Request) :
    c.accepts hmac hmacKey (r.encode hmac hmacKey) = false := by
  unfold Call.accepts
  cases hd : decodeAndVerify hmac hmacKey (r.encode hmac hmacKey) with
  | none => rfl
  | some d =>
    obtain ⟨op, hmsg, hok, hvalue⟩ := r.exists_prefix hmac hmacKey
    rw [Option.any_some, Bool.eq_false_iff]
    intro haccepts
    rcases Request.op_of_accepts haccepts with hop | hop
    · exact hok (op_eq_of_code hmsg hd ▸ hop)
    · exact hvalue (op_eq_of_code hmsg hd ▸ hop)

/-- What a frame carries was sent by a call, or by the store, or is not authentic. -/
structure Genuine (hmac : Hmac) (hmacKey : Bytes) (s : State) : Prop where
  request : ∀ (i : ℕ) cid payload answers,
    s.log[i]? = some (.served (.request cid) payload answers) →
    ∃ c, s.calls[cid]? = some c ∧ c.request.encode hmac hmacKey = payload
  write : ∀ (i : ℕ) frame payload answers, s.log[i]? = some (.served frame payload answers) →
    writes hmac hmacKey payload = true → ∃ cid, frame = .request cid
  answer : ∀ (i : ℕ) (e : Event), s.log[i]? = some e →
    ∀ answer ∈ e.sent, writes hmac hmacKey answer = false
  accepted : ∀ (cid : ℕ) c answer, s.calls[cid]? = some c → c.accepted = some answer →
    ∃ (i : ℕ) (e : Event), s.log[i]? = some e ∧ answer ∈ e.sent

theorem decode_of_made {payload payload' : Bytes}
    (h : s.payload hmac hmacKey (.made payload') = some payload) :
    decodeAndVerify hmac hmacKey payload = none := by
  rw [State.payload] at h
  split at h
  · next hnone =>
    obtain rfl := Option.some.inj h
    exact Option.isNone_iff_eq_none.mp hnone
  · cases h

theorem mem_sent_of_payload {i : ℕ} {payload : Bytes}
    (h : s.payload hmac hmacKey (.answer i) = some payload) :
    ∃ e, s.log[i]? = some e ∧ payload ∈ e.sent := by
  rw [State.payload, Option.bind_eq_some_iff] at h
  obtain ⟨e, he, hhead⟩ := h
  exact ⟨e, he, List.mem_of_head? hhead⟩

/-- An accepted frame is an answer of the store. -/
theorem answer_of_accepts {frame : Frame} {payload : Bytes} {c : Call}
    (hpayload : s.payload hmac hmacKey frame = some payload)
    (h : c.accepts hmac hmacKey payload = true) : ∃ i, frame = .answer i := by
  cases frame with
  | request cid =>
    rw [State.payload, Option.map_eq_some_iff] at hpayload
    obtain ⟨c', -, rfl⟩ := hpayload
    rw [Call.not_accepts_encode] at h
    cases h
  | answer i => exact ⟨i, rfl⟩
  | made payload' =>
    rw [Call.accepts, decode_of_made hpayload] at h
    cases h

/-- What is accepted after a step was accepted before it, or is an answer that the store sent,
    passed on to this call now. -/
theorem Step.new_accepted (h : Step hmac hmacKey s l s') {cid : ℕ} {c : Call} {answer : Bytes}
    (hc : s'.calls[cid]? = some c) (hanswer : c.accepted = some answer) :
    (∃ c₀, s.calls[cid]? = some c₀ ∧ c₀.accepted = some answer) ∨
      ∃ i c₀ e, l = .answer cid (.answer i) ∧ s.calls[cid]? = some c₀ ∧
        s.payload hmac hmacKey (.answer i) = some answer ∧
        c₀.accepts hmac hmacKey answer = true ∧ s.log[i]? = some e ∧ answer ∈ e.sent := by
  have hold (hc : s.calls[cid]? = some c) :
      ∃ c₀, s.calls[cid]? = some c₀ ∧ c₀.accepted = some answer := ⟨c, hc, hanswer⟩
  cases h with
  | calls request =>
    rcases Slots.concat_cases hc with hc | ⟨-, rfl⟩
    · exact Or.inl (hold hc)
    · cases hanswer
  | @answers cid' frame c' payload hc' hpayload =>
    rcases Slots.set_cases hc with ⟨rfl, rfl⟩ | ⟨-, hc⟩
    · dsimp only at hanswer
      split at hanswer
      · next haccepts =>
        obtain rfl := Option.some.inj hanswer
        obtain ⟨i, rfl⟩ := answer_of_accepts hpayload haccepts
        obtain ⟨e, he, hmem⟩ := mem_sent_of_payload hpayload
        exact Or.inr ⟨i, c', e, rfl, hc', hpayload, haccepts, he, hmem⟩
      · cases hanswer
    · exact Or.inl (hold hc)
  | @loses cid' c' hc' =>
    rcases Slots.set_cases hc with ⟨rfl, rfl⟩ | ⟨-, hc⟩
    · exact Or.inl ⟨c', hc', hanswer⟩
    · exact Or.inl (hold hc)
  | delivers _ _ => exact Or.inl (hold hc)
  | issues => exact Or.inl (hold hc)
  | ticks _ => exact Or.inl (hold hc)
  | sweeps _ => exact Or.inl (hold hc)

theorem Genuine.step (h : Genuine hmac hmacKey s) (hstep : step hmac hmacKey s l = some s') :
    Genuine hmac hmacKey s' := by
  have hcases := step_cases hstep
  have hgrows := hcases.grows
  refine ⟨fun i cid payload answers he => ?_, fun i frame payload answers he hwrites => ?_,
    fun i e he answer hanswer => ?_, fun cid c answer hc hanswer => ?_⟩
  · have hcall : ∃ c, s.calls[cid]? = some c ∧ c.request.encode hmac hmacKey = payload := by
      rcases hcases.new_event he with hold | ⟨-, ⟨frame, it, payload', -, hpayload, -, heq⟩ | hnew⟩
      · exact h.request i cid payload answers hold
      · obtain ⟨rfl, rfl, -⟩ := Event.served.inj heq
        exact Option.map_eq_some_iff.mp hpayload
      · obtain ⟨key, value, ttl, -, heq⟩ := hnew
        cases heq
    obtain ⟨c, hc, hencode⟩ := hcall
    obtain ⟨c', hc', hreq⟩ := hgrows.calls cid c hc
    exact ⟨c', hc', hreq ▸ hencode⟩
  · rcases hcases.new_event he with hold | ⟨-, ⟨frame', it, payload', -, hpayload, -, heq⟩ | hnew⟩
    · exact h.write i frame payload answers hold hwrites
    · obtain ⟨rfl, rfl, -⟩ := Event.served.inj heq
      cases frame with
      | request cid => exact ⟨cid, rfl⟩
      | answer j =>
        obtain ⟨e, he', hmem⟩ := mem_sent_of_payload hpayload
        rw [h.answer j e he' payload hmem] at hwrites
        cases hwrites
      | made payload' =>
        rw [writes, decode_of_made hpayload] at hwrites
        cases hwrites
    · obtain ⟨key, value, ttl, -, heq⟩ := hnew
      cases heq
  · rcases hcases.new_event he with hold | ⟨-, ⟨frame, it, payload, -, -, -, rfl⟩ | hnew⟩
    · exact h.answer i e hold answer hanswer
    · exact not_writes_of_sent hanswer
    · obtain ⟨key, value, ttl, -, rfl⟩ := hnew
      cases hanswer
  · rcases hcases.new_accepted hc hanswer with ⟨c₀, hc₀, hacc⟩ | ⟨i, c₀, e, -, -, -, -, he, hmem⟩
    · obtain ⟨i, e, he, hmem⟩ := h.accepted cid c₀ answer hc₀ hacc
      exact ⟨i, e, hgrows.log i e he, hmem⟩
    · exact ⟨i, e, hgrows.log i e he, hmem⟩

theorem genuine_init : Genuine hmac hmacKey {} where
  request := by simp
  write := by simp
  answer := by simp
  accepted := by simp

/-- **In every run** what is executed was sent, and what is accepted was answered. -/
theorem genuine_of_reachable (h : Machine.Reachable (step hmac hmacKey) {} s) :
    Genuine hmac hmacKey s :=
  h.invariant (I := Genuine hmac hmacKey) genuine_init fun _ _ _ ih _ hstep => ih.step hstep

/-! ## A key is put before it is taken again -/

/-- Since a key was taken it was put, or it is not there. -/
def Spent (hmac : Hmac) (hmacKey : Bytes) (s : State) : Prop :=
  ∀ i key, Takes hmac hmacKey s i key →
    (∃ k, i < k ∧ Puts hmac hmacKey s k key) ∨ s.store.find key = none

theorem Puts.grows {i : ℕ} {key : Bytes} (h : Puts hmac hmacKey s i key) (hgrows : Grows s s') :
    Puts hmac hmacKey s' i key := by
  rcases h with hissued | ⟨frame, payload, answers, d, he, hd⟩
  · exact Or.inl (hgrows.log i _ hissued)
  · exact Or.inr ⟨frame, payload, answers, d, hgrows.log i _ he, hd⟩

theorem Takes.lt {i : ℕ} {key : Bytes} (h : Takes hmac hmacKey s i key) : i < s.log.length := by
  obtain ⟨_, _, _, _, he, -⟩ := h
  exact (List.getElem?_eq_some_iff.mp he).1

theorem Puts.lt {i : ℕ} {key : Bytes} (h : Puts hmac hmacKey s i key) : i < s.log.length := by
  rcases h with he | ⟨_, _, _, _, he, -⟩
  · exact (List.getElem?_eq_some_iff.mp he).1
  · exact (List.getElem?_eq_some_iff.mp he).1

/-- A `Take` that was answered with a value erased it. -/
theorem find_of_sent_value {m : Moment} {store : SharedStore} {payload value : Bytes} {d : Decoded}
    (hd : decodeAndVerify hmac hmacKey payload = some d) (hop : d.op = .take)
    (hsent : [encodeValue hmac hmacKey value] = (onMessage hmac hmacKey m store payload).sent) :
    store.find d.key ≠ none ∧
      (onMessage hmac hmacKey m store payload).state.find d.key = none := by
  rw [onMessage_of_some hd] at hsent ⊢
  simp only [dispatch, hop, Option.toList_some, List.map_singleton] at hsent ⊢
  rw [take_eq] at hsent
  cases hget : store.get m.now d.key with
  | none =>
    -- the answer would be `NotFound`
    rw [hget] at hsent
    have heq : encodeValue hmac hmacKey value = encodeNotFound hmac hmacKey :=
      List.singleton_inj.mp hsent
    have hvalue : ByteWriter.u16 Op.value.code <+: encodeNotFound hmac hmacKey :=
      heq ▸ prefix_sign (List.prefix_append _ _)
    cases op_eq_of_code hvalue (decode_encodeNotFound hmac hmacKey)
  | some v =>
    refine ⟨fun hnone => ?_, ?_⟩
    · rw [get_eq, hnone] at hget
      cases hget
    · rw [find_take, hget]
      exact if_pos ⟨rfl, rfl⟩

/-- A take that is new found the key, and it is gone. -/
theorem Takes.of_step (hcases : Step hmac hmacKey s l s') {i : ℕ} {key : Bytes}
    (h : Takes hmac hmacKey s' i key) : Takes hmac hmacKey s i key ∨
      i = s.log.length ∧ s.store.find key ≠ none ∧ s'.store.find key = none := by
  obtain ⟨frame, payload, d, value, he, hd, hop, rfl⟩ := h
  rcases hcases.new_event he with hold | ⟨hi, ⟨frame', it, payload', rfl, hpayload, -, heq⟩ | hnew⟩
  · exact Or.inl ⟨frame, payload, d, value, hold, hd, hop, rfl⟩
  · obtain ⟨rfl, rfl, hsent⟩ := Event.served.inj heq
    cases hcases with
    | delivers hpayload' _ =>
      obtain rfl := Option.some.inj (hpayload.symm.trans hpayload')
      exact Or.inr ⟨hi, find_of_sent_value hd hop hsent⟩
  · obtain ⟨_, _, _, -, heq⟩ := hnew
    cases heq

/-- A key that is not there is not there after a step, unless that was a put of it. -/
theorem Step.find (hcases : Step hmac hmacKey s l s') {key : Bytes}
    (hnone : s.store.find key = none) :
    s'.store.find key = none ∨ Puts hmac hmacKey s' s.log.length key := by
  cases hcases with
  | @delivers frame it payload hpayload hit =>
    cases hd : decodeAndVerify hmac hmacKey payload with
    | none =>
      rw [onMessage_of_none hd]
      exact Or.inl hnone
    | some d =>
      cases hop : d.op with
      | put =>
        by_cases hkey : key = d.key
        · exact Or.inr (Or.inr ⟨frame, payload, _, d, List.getElem?_concat_length, hd, hop,
            hkey.symm⟩)
        · rw [onMessage_of_some hd]
          simp only [dispatch, hop]
          exact Or.inl ((find_put _ _ _ _ _ _).trans ((if_neg hkey).trans hnone))
      | take =>
        rw [onMessage_of_some hd]
        simp only [dispatch, hop, find_take, hnone, ite_self]
        exact Or.inl trivial
      | get | listPrefix | ok | value | notFound | err | list =>
        rw [onMessage_of_some hd]
        simp only [dispatch, hop]
        exact Or.inl hnone
  | issues k value ttl =>
    by_cases hkey : key = k
    · exact Or.inr (Or.inl (hkey ▸ List.getElem?_concat_length))
    · exact Or.inl ((find_put _ _ _ _ _ _).trans ((if_neg hkey).trans hnone))
  | sweeps hit =>
    refine Or.inl ?_
    rw [find_sweepExpired hit, hnone, Option.bind_none]
  | calls _ => exact Or.inl hnone
  | answers _ _ => exact Or.inl hnone
  | loses _ => exact Or.inl hnone
  | ticks _ => exact Or.inl hnone

theorem Spent.step (h : Spent hmac hmacKey s) (hcases : Step hmac hmacKey s l s') :
    Spent hmac hmacKey s' := by
  intro i key htakes
  rcases htakes.of_step hcases with hold | ⟨-, -, hgone⟩
  · rcases h i key hold with ⟨k, hik, hputs⟩ | hnone
    · exact Or.inl ⟨k, hik, hputs.grows hcases.grows⟩
    · rcases hcases.find hnone with hnone | hputs
      · exact Or.inr hnone
      · exact Or.inl ⟨s.log.length, hold.lt, hputs⟩
  · exact Or.inr hgone

theorem SingleUse.step (h : SingleUse hmac hmacKey s) (hspent : Spent hmac hmacKey s)
    (hcases : Step hmac hmacKey s l s') : SingleUse hmac hmacKey s' := by
  intro i j key hij hi hj
  rcases hj.of_step hcases with hj | ⟨rfl, hthere, -⟩
  · rcases hi.of_step hcases with hi | ⟨rfl, -⟩
    · obtain ⟨k, hik, hkj, hputs⟩ := h i j key hij hi hj
      exact ⟨k, hik, hkj, hputs.grows hcases.grows⟩
    · exact absurd hj.lt (by omega)
  · rcases hi.of_step hcases with hi | ⟨rfl, -⟩
    · rcases hspent i key hi with ⟨k, hik, hputs⟩ | hnone
      · exact ⟨k, hik, hputs.lt, hputs.grows hcases.grows⟩
      · exact absurd hnone hthere
    · exact absurd hij (Nat.lt_irrefl _)

/-- **In every run** a key is put between two takes of it. -/
theorem singleUse_of_reachable (h : Machine.Reachable (step hmac hmacKey) {} s) :
    SingleUse hmac hmacKey s := by
  have hinv : Spent hmac hmacKey s ∧ SingleUse hmac hmacKey s := by
    refine h.invariant (I := fun s => Spent hmac hmacKey s ∧ SingleUse hmac hmacKey s) ⟨?_, ?_⟩ ?_
    · intro i key htakes
      exact absurd htakes.lt (Nat.not_lt_zero i)
    · intro i j key _ htakes
      exact absurd htakes.lt (Nat.not_lt_zero i)
    · rintro s l s' ⟨hspent, hsingle⟩ - hstep
      exact ⟨hspent.step (step_cases hstep), hsingle.step hspent (step_cases hstep)⟩
  exact hinv.2

/-! ## Each to its own -/

/-- No frame of a write was served twice, and every call accepted an answer of its own. -/
structure InOrder (hmac : Hmac) (hmacKey : Bytes) (s : State) : Prop where
  once : ∀ (i j : ℕ) cid payload payload' answers answers',
    s.log[i]? = some (.served (.request cid) payload answers) →
    s.log[j]? = some (.served (.request cid) payload' answers') →
    writes hmac hmacKey payload = true → i = j
  own : ∀ (cid : ℕ) c answer, s.calls[cid]? = some c → c.accepted = some answer →
    ∃ (i : ℕ) (payload : Bytes) (answers : List Bytes),
      s.log[i]? = some (.served (.request cid) payload answers) ∧ answer ∈ answers

/-- The frame of a write that is passed on in order has not been served. -/
theorem not_served_of_passedOn {frame : Frame} {it : List Cell} {payload : Bytes}
    (hok : passedOn hmac hmacKey s (.deliver frame it) = true)
    (hpayload : s.payload hmac hmacKey frame = some payload)
    (hwrites : writes hmac hmacKey payload = true) {i : ℕ} {e : Event} (he : s.log[i]? = some e) :
    e.frame? ≠ some frame := by
  intro hframe
  simp only [passedOn, hpayload, Option.any_some, hwrites, Bool.not_true, Bool.false_or,
    Bool.not_eq_true', List.any_eq_false, decide_eq_true_eq] at hok
  exact hok e (List.mem_of_getElem? he) hframe

/-- An answer that is passed on in order and accepted is one to the call. -/
theorem frame_of_passedOn {cid i : ℕ} {c : Call} {payload : Bytes}
    (hok : passedOn hmac hmacKey s (.answer cid (.answer i)) = true) (hc : s.calls[cid]? = some c)
    (hpayload : s.payload hmac hmacKey (.answer i) = some payload)
    (haccepts : c.accepts hmac hmacKey payload = true) :
    s.log[i]?.bind Event.frame? = some (.request cid) := by
  simpa only [passedOn, hc, hpayload, Option.any_some, haccepts, Bool.not_true, Bool.false_or,
    decide_eq_true_eq] using hok

theorem InOrder.step (h : InOrder hmac hmacKey s) (hgenuine : Genuine hmac hmacKey s)
    (hok : passedOn hmac hmacKey s l = true) (hstep : step hmac hmacKey s l = some s') :
    InOrder hmac hmacKey s' := by
  have hcases := step_cases hstep
  have hgrows := hcases.grows
  refine ⟨fun i j cid payload payload' answers answers' hi hj hwrites => ?_,
    fun cid c answer hc hanswer => ?_⟩
  · -- both are the frame of one call
    obtain ⟨c, hc, hpayload⟩ := (hgenuine.step hstep).request i cid payload answers hi
    obtain ⟨c', hc', hpayload'⟩ := (hgenuine.step hstep).request j cid payload' answers' hj
    obtain rfl := Option.some.inj (hc.symm.trans hc')
    obtain rfl := hpayload.symm.trans hpayload'
    have hserved {k : ℕ} {e : Event} (hk : s.log[k]? = some e)
        (hframe : e.frame? = some (.request cid)) {answers : List Bytes}
        (hnew : ∃ frame it payload', l = .deliver frame it ∧
          s.payload hmac hmacKey frame = some payload' ∧ s.store.Walk it ∧
          Event.served (.request cid) payload answers = .served frame payload'
            (onMessage hmac hmacKey { now := s.now, it } s.store payload').sent) : False := by
      obtain ⟨frame, it, payload', rfl, hpayload, -, heq⟩ := hnew
      obtain ⟨rfl, rfl, -⟩ := Event.served.inj heq
      exact not_served_of_passedOn hok hpayload hwrites hk hframe
    rcases hcases.new_event hi with hi | ⟨rfl, hnew | ⟨_, _, _, -, heq⟩⟩
    · rcases hcases.new_event hj with hj | ⟨rfl, hnew | ⟨_, _, _, -, heq⟩⟩
      · exact h.once i j cid payload payload answers answers' hi hj hwrites
      · exact (hserved hi rfl hnew).elim
      · cases heq
    · rcases hcases.new_event hj with hj | ⟨rfl, -⟩
      · exact (hserved hj rfl hnew).elim
      · rfl
    · cases heq
  · rcases hcases.new_accepted hc hanswer with ⟨c₀, hc₀, hacc⟩ |
      ⟨i, c₀, e, rfl, hc₀, hpayload, haccepts, he, hmem⟩
    · obtain ⟨i, payload, answers, he, hmem⟩ := h.own cid c₀ answer hc₀ hacc
      exact ⟨i, payload, answers, hgrows.log i _ he, hmem⟩
    · have hframe := frame_of_passedOn hok hc₀ hpayload haccepts
      rw [he, Option.bind_some] at hframe
      cases e with
      | served frame payload' answers =>
        obtain rfl := Option.some.inj hframe
        exact ⟨i, payload', answers, hgrows.log i _ he, hmem⟩
      | issued key => cases hframe

/-- The call whose frame event `i` is. -/
def State.caller (s : State) (i : ℕ) : ℕ :=
  match s.log[i]?.bind Event.frame? with
  | some (.request cid) => cid
  | _ => 0

theorem caller_of_served {i cid : ℕ} {payload : Bytes} {answers : List Bytes}
    (h : s.log[i]? = some (.served (.request cid) payload answers)) : s.caller i = cid := by
  simp only [State.caller, h, Option.bind_some, Event.frame?]

theorem InOrder.agrees (h : InOrder hmac hmacKey s) (hgenuine : Genuine hmac hmacKey s) :
    Agrees hmac hmacKey s s.caller where
  sent := by
    intro i frame payload answers he hwrites
    obtain ⟨cid, rfl⟩ := hgenuine.write i frame payload answers he hwrites
    rw [caller_of_served he]
    exact hgenuine.request i cid payload answers he
  distinct := by
    intro i j frame frame' payload payload' answers answers' hi hwrites hj hwrites' hcaller
    obtain ⟨cid, rfl⟩ := hgenuine.write i frame payload answers hi hwrites
    obtain ⟨cid', rfl⟩ := hgenuine.write j frame' payload' answers' hj hwrites'
    rw [caller_of_served hi, caller_of_served hj] at hcaller
    obtain rfl := hcaller
    exact h.once i j cid payload payload' answers answers' hi hj hwrites
  answered := by
    intro cid c answer hc hanswer
    obtain ⟨i, payload, answers, he, hmem⟩ := h.own cid c answer hc hanswer
    obtain ⟨c', hc', hencode⟩ := hgenuine.request i cid payload answers he
    obtain rfl := Option.some.inj (hc.symm.trans hc')
    exact ⟨i, _, answers, hencode ▸ he, caller_of_served he, hmem⟩

/-- **Where no write is passed on twice and no call given the answer to another one**, each
    `Put` and `Take` that is executed is of a call of its own, what a call accepts is the
    answer to it, and a key that was taken is not taken again before it is put again. -/
theorem agreement (hmac : Hmac) (hmacKey : Bytes) {s : State}
    (h : Machine.Reach (step hmac hmacKey) (fun s l => passedOn hmac hmacKey s l = true) {} s) :
    (∃ caller, Agrees hmac hmacKey s caller) ∧ SingleUse hmac hmacKey s := by
  have hinv : Genuine hmac hmacKey s ∧ InOrder hmac hmacKey s := by
    refine h.invariant (I := fun s => Genuine hmac hmacKey s ∧ InOrder hmac hmacKey s)
      ⟨genuine_init, ⟨by simp, by simp⟩⟩ ?_
    rintro s l s' ⟨hgenuine, horder⟩ hok hstep
    exact ⟨hgenuine.step hstep, horder.step hgenuine hok hstep⟩
  exact ⟨⟨s.caller, hinv.2.agrees hinv.1⟩, singleUse_of_reachable h.reachable⟩

/-! ## A run in order, and one that is not -/

/-- A put and a take, with their answers. -/
def inOrder : List Label :=
  [.call (.put [1] [2] 60), .deliver (.request 0) [], .answer 0 (.answer 0), .call (.take [1]),
    .deliver (.request 1) [⟨[1], [2], seconds 60⟩], .answer 1 (.answer 1)]

theorem agreement_inOrder :
    ∃ s, Machine.run (Machine.guarded (step zeroMac []) (passedOn zeroMac [])) {} inOrder = some s ∧
      s.calls.map Call.accepted =
        [some (encodeOk zeroMac []), some (encodeValue zeroMac [] [2])] ∧
      (∃ caller, Agrees zeroMac [] s caller) ∧ SingleUse zeroMac [] s := by
  have hrun : ((Machine.run (Machine.guarded (step zeroMac []) (passedOn zeroMac [])) {}
      inOrder).map fun s => s.calls.map Call.accepted) =
        some [some (encodeOk zeroMac []), some (encodeValue zeroMac [] [2])] := by decide +kernel
  obtain ⟨s, hs, haccepted⟩ := Option.map_eq_some_iff.mp hrun
  exact ⟨s, hs, haccepted, agreement zeroMac [] (.of_run .init hs)⟩

/-- The token is put and taken, then the put is passed on again, and another call takes the
    token. -/
def again : List Label :=
  inOrder ++ [.deliver (.request 0) [], .call (.take [1]),
    .deliver (.request 2) [⟨[1], [2], seconds 60⟩], .answer 2 (.answer 3)]

/-- **A recorded put can be passed on again**: it is executed twice, and the token that was put
    once is taken by two calls. -/
theorem replayed :
    ∃ s, Machine.Reachable (step zeroMac []) {} s ∧
      s.calls.map Call.request = [.put [1] [2] 60, .take [1], .take [1]] ∧
      s.calls.map Call.accepted = [some (encodeOk zeroMac []),
        some (encodeValue zeroMac [] [2]), some (encodeValue zeroMac [] [2])] ∧
      ¬ ∃ caller, Agrees zeroMac [] s caller := by
  have hrun : ((Machine.run (step zeroMac []) {} again).map fun s =>
      (s.calls.map Call.request, s.calls.map Call.accepted, s.log[0]?, s.log[2]?)) =
        some ([.put [1] [2] 60, .take [1], .take [1]], [some (encodeOk zeroMac []),
          some (encodeValue zeroMac [] [2]), some (encodeValue zeroMac [] [2])],
          some (.served (.request 0) (StoreClient.putRequest zeroMac [] [1] [2] 60)
            [encodeOk zeroMac []]),
          some (.served (.request 0) (StoreClient.putRequest zeroMac [] [1] [2] 60)
            [encodeOk zeroMac []])) := by decide +kernel
  obtain ⟨s, hs, hvalues⟩ := Option.map_eq_some_iff.mp hrun
  simp only [Prod.mk.injEq] at hvalues
  obtain ⟨hrequests, haccepted, hfirst, hthird⟩ := hvalues
  refine ⟨s, .of_run .init hs, hrequests, haccepted, ?_⟩
  rintro ⟨caller, hagrees⟩
  have hwrites : writes zeroMac [] (StoreClient.putRequest zeroMac [] [1] [2] 60) = true := by
    decide +kernel
  -- only one call has sent the frame
  have hzero {i : ℕ} {c : Call} (hc : s.calls[i]? = some c)
      (hencode : c.request.encode zeroMac [] = StoreClient.putRequest zeroMac [] [1] [2] 60) :
      i = 0 := by
    have hrequest : (s.calls.map Call.request)[i]? = some c.request := by
      rw [List.getElem?_map, hc, Option.map_some]
    rw [hrequests] at hrequest
    have htake : (Request.take [1]).encode zeroMac [] ≠
        StoreClient.putRequest zeroMac [] [1] [2] 60 := by decide +kernel
    match i with
    | 0 => rfl
    | 1 | 2 => exact absurd (Option.some.inj hrequest ▸ hencode) htake
    | n + 3 => cases hrequest
  obtain ⟨c, hc, hencode⟩ := hagrees.sent 0 _ _ _ hfirst hwrites
  obtain ⟨c', hc', hencode'⟩ := hagrees.sent 2 _ _ _ hthird hwrites
  exact absurd (hagrees.distinct 0 2 _ _ _ _ _ _ hfirst hwrites hthird hwrites
    ((hzero hc hencode).trans (hzero hc' hencode').symm)) (by decide)

end Netsrv.StoreReplay
