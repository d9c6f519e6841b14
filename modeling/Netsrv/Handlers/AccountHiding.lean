/-
  Two runs of Login, of which one has an account for a name and the other has none.

  As long as no proof for the name is accepted, the runs differ only in what is inside the
  challenges for it: a salt of 16 bytes, the stored one or the one derived from the name, and
  a B of 256 bytes.  `Alike` says how a session of the one run and the same session of the
  other hang together; `Alike.step` is that two steps on the same outcomes keep it.
-/
import Netsrv.Handlers.LoginRun
import Netsrv.Security.SrpCompleteness

namespace Netsrv.LoginRun

open LoginHandler Srp6

/-! ## What a client sees -/

/-- The lengths of the fields that have none of their own. -/
def fieldLengths (d : LoginProto.Decoded) : List ℕ :=
  [d.ticket, d.username, d.A, d.salt, d.B, d.sessionToken].map List.length ++
    d.worlds.flatMap fun w => [w.name.length, w.host.length]

/-- A message up to the contents of its fields. -/
def shape (frame : Bytes) : Option (LoginProto.Op × List ℕ) :=
  (LoginProto.decode frame).map fun d => (d.op, fieldLengths d)

inductive Seen where
  | received (payload : Bytes)
  | message (shape : Option (LoginProto.Op × List ℕ))
  | closed

def Event.seen? : Event → Option Seen
  | received payload => some (.received payload)
  | sent frame => some (.message (shape frame))
  | closed => some .closed
  | _ => none

/-- The messages of a session up to content, and the closing, among the frames it got. -/
def view (log : List Event) : List Seen := log.filterMap Event.seen?

/-! ## The same outcomes in both runs -/

/-- `accounts_->find` on a fixed table, or its exception. -/
def find (accounts : Bytes → Option AccountRecord) (fails : Bool) (username : Bytes) :
    Option (Option AccountRecord) :=
  if fails then none else some (accounts username)

/-- Two labels with the same outcomes, each from its own table.  In a session for another name
    than `u` the random numbers are the same. -/
inductive Matched (u : Bytes) (accounts accounts' : Bytes → Option AccountRecord) (c : State) :
    Label → Label → Prop
  | frame (payload : Bytes) {random random' : Vector UInt8 16} :
      (∀ ticket username, .asked ticket username ∈ c.log → username ≠ u → random = random') →
      Matched u accounts accounts' c (.frame payload random) (.frame payload random')
  | taken (found : Option Bytes) (fails : Bool) {ticket username : Bytes}
      {random random' : Vector UInt8 16} {b b' : ℕ} : c.point = .taking ticket username →
      (username ≠ u → random = random' ∧ b = b') →
      Matched u accounts accounts' c (.taken found (find accounts fails username) random b)
        (.taken found (find accounts' fails username) random' b')
  | readFails : Matched u accounts accounts' c .readFails .readFails
  | put (ok : Bool) : Matched u accounts accounts' c (.put ok) (.put ok)
  | listed (entries : List (Bytes × Bytes)) :
      Matched u accounts accounts' c (.listed entries) (.listed entries)
  | sent (ok : Bool) : Matched u accounts accounts' c (.sent ok) (.sent ok)
  | throws : Matched u accounts accounts' c .throws .throws
  | closes : Matched u accounts accounts' c .closes .closes

/-- The labels of two runs of any number of sessions. -/
def matchedMany (u : Bytes) (accounts accounts' : Bytes → Option AccountRecord) (s : ℕ → State)
    (l m : ℕ × Label) : Prop :=
  l.1 = m.1 ∧ Matched u accounts accounts' (s l.1) l.2 m.2

/-- No proof was accepted in a session that asked for `u`. -/
def Unproved (u : Bytes) (log : List Event) : Prop :=
  ∀ ticket, .asked ticket u ∈ log → ∀ challenge a m1, .verified challenge a m1 true ∉ log

/-! ## How the runs hang together -/

/-- Only errors, and challenges with this salt, were sent. -/
def Salted (salt : Bytes) (log : List Event) : Prop :=
  ∀ frame, .sent frame ∈ log → frame = LoginProto.encodeError ∨
    ∃ b, frame = LoginProto.encodeServerChallenge salt b

/-- A session that waits for a proof for `u`. -/
structure Waits (u salt : Bytes) (c : State) : Prop where
  asked : ∃ ticket, .asked ticket u ∈ c.log
  stage : c.state.stage = .awaitingProof
  challenge : c.state.challenge.isSome
  salted : Salted salt c.log

/-- A session for `u` that was refused. -/
structure Ended (u salt : Bytes) (c : State) : Prop where
  asked : ∃ ticket, .asked ticket u ∈ c.log
  ending : c.point = .errorSend ∨ Over c
  salted : Salted salt c.log

/-- One session in both runs. -/
inductive Alike (u salt salt' : Bytes) : State → State → Prop
  | other {c : State} : (∀ ticket, .asked ticket u ∉ c.log) → Alike u salt salt' c c
  | asks {c : State} {ticket : Bytes} : c.point = .taking ticket u →
      .asked ticket u ∈ c.log → sentFrames c.log = [] → Alike u salt salt' c c
  | waits {c d : State} : Waits u salt c → Waits u salt' d →
      c.point = .challengeSend ∨ c.point = .reading → c.point = d.point → c.closed = d.closed →
      view c.log = view d.log → Alike u salt salt' c d
  | ended {c d : State} : Ended u salt c → Ended u salt' d → c.point = d.point →
      c.closed = d.closed → view c.log = view d.log → Alike u salt salt' c d

variable {env : Env} {u salt salt' : Bytes} {c c' d d' : State} {l m : Label}

/-! ## What is new in a log -/

@[simp] theorem view_cons (e : Event) (log : List Event) :
    view (e :: log) = e.seen?.toList ++ view log := by
  rw [view, List.filterMap_cons]
  cases e.seen? with
  | none => rfl
  | some x => rfl

def Event.isAsked : Event → Bool
  | asked .. => true
  | _ => false

/-- The log goes on, without a new hello. -/
def Adds (log log' : List Event) : Prop :=
  ∃ es, log' = es ++ log ∧ ∀ ticket username, .asked ticket username ∉ es

theorem Adds.refl (log : List Event) : Adds log log := ⟨[], rfl, fun _ _ => List.not_mem_nil⟩

theorem adds_cons {e : Event} (log : List Event) (he : e.isAsked = false := by rfl) :
    Adds log (e :: log) := by
  refine ⟨[e], rfl, fun ticket username hmem => ?_⟩
  obtain rfl := List.mem_singleton.mp hmem
  cases he

theorem Adds.trans {log₁ log₂ log₃ : List Event} (h : Adds log₁ log₂) (h' : Adds log₂ log₃) :
    Adds log₁ log₃ := by
  obtain ⟨es, rfl, hes⟩ := h
  obtain ⟨es', rfl, hes'⟩ := h'
  refine ⟨es' ++ es, (List.append_assoc _ _ _).symm, fun ticket username hmem => ?_⟩
  exact (List.mem_append.mp hmem).elim (hes' ticket username) (hes ticket username)

theorem Adds.asked_iff {log log' : List Event} (h : Adds log log') {ticket username : Bytes} :
    .asked ticket username ∈ log' ↔ .asked ticket username ∈ log := by
  obtain ⟨es, rfl, hes⟩ := h
  rw [List.mem_append, or_iff_right (hes ticket username)]

theorem adds_refuse (c : State) (frames : List Bytes) : Adds c.log (c.refuse frames).log := by
  cases frames with
  | nil => exact adds_cons c.log
  | cons frame _ => exact adds_cons c.log

theorem adds_lookUp (c : State) (username : Bytes) (found : Option Bytes)
    (lookup : Option (Option AccountRecord)) :
    Adds c.log (c.lookUp username found lookup).log := by
  unfold State.lookUp
  split
  · exact (adds_cons _).trans (adds_cons _)
  · exact .refl _

/-- A hello is noted down when it arrives, and asks for its ticket. -/
theorem log_step (h : step env c l = some c') : Adds c.log c'.log ∨
    ∃ payload random ticket username, l = .frame payload random ∧ c.point = .reading ∧
      c.closed = false ∧ LoginHandler.onMessage c.state payload = .hello ticket username ∧
      c' = { (c.say (.received payload)).say (.asked ticket username) with
        point := .taking ticket username } := by
  cases l with
  | frame payload random =>
    rw [step] at h
    split at h
    · next hread =>
      obtain rfl := Option.some.inj h
      unfold LoginRun.onMessage
      split
      · exact Or.inl ((adds_cons _).trans (adds_cons _))
      · next ticket username hmsg =>
        exact Or.inr ⟨payload, random, ticket, username, rfl, hread.1, hread.2, hmsg, rfl⟩
      · split
        · exact Or.inl (((adds_cons _).trans (adds_cons _)).trans (adds_refuse _ _))
        · exact Or.inl (((adds_cons _).trans (adds_cons _)).trans (adds_cons _))
    · cases h
  | readFails =>
    rw [step] at h
    split at h
    · obtain rfl := Option.some.inj h
      exact Or.inl (.refl _)
    · cases h
  | taken found lookup random b =>
    rw [step] at h
    split at h
    · next ticket username _ =>
      obtain rfl := Option.some.inj h
      unfold LoginRun.afterTake
      split
      · exact Or.inl ((adds_lookUp c username found lookup).trans (adds_refuse _ _))
      · exact Or.inl ((adds_lookUp c username found lookup).trans (adds_cons _))
    · cases h
  | put ok =>
    rw [step] at h
    split at h
    · obtain rfl := Option.some.inj h
      exact Or.inl (adds_cons _)
    · cases h
  | listed entries =>
    rw [step] at h
    split at h
    · obtain rfl := Option.some.inj h
      exact Or.inl (adds_cons _)
    · cases h
  | sent ok =>
    rw [step, LoginRun.afterSend] at h
    split at h
    · obtain rfl := Option.some.inj h
      exact Or.inl (adds_cons _)
    · obtain rfl := Option.some.inj h
      exact Or.inl (.refl _)
    · obtain rfl := Option.some.inj h
      exact Or.inl (adds_cons _)
    · obtain rfl := Option.some.inj h
      exact Or.inl (.refl _)
    · cases h
  | throws =>
    rw [step] at h
    split at h
    · cases h
    · obtain rfl := Option.some.inj h
      exact Or.inl (.refl _)
  | closes =>
    obtain rfl := Option.some.inj h
    exact Or.inl (.refl _)

theorem log_subset_step (h : step env c l = some c') : c.log ⊆ c'.log := by
  rcases log_step h with ⟨es, heq, -⟩ | ⟨payload, _, ticket, username, -, -, -, -, rfl⟩
  · rw [heq]
    exact List.subset_append_right es c.log
  · exact ((List.suffix_cons _ _).trans (List.suffix_cons _ _)).subset

theorem Unproved.of_step (h : step env c l = some c') (hc : Unproved u c'.log) :
    Unproved u c.log := by
  have hsub := log_subset_step h
  exact fun ticket hasked challenge a m1 hmem => hc ticket (hsub hasked) challenge a m1 (hsub hmem)

/-! ## The two answers -/

/-- With a registration at hand the challenge is sent, with a B of `kNBytes`. -/
theorem ticketTaken_eq {account : Option AccountRecord} {username fakePassword : Bytes}
    {reg : Registration} (hreg : registrationFor env account username fakePassword = some reg)
    (value : Bytes) (b : ℕ) :
    ∃ challenge, ticketTaken env (some value) (some account) username fakePassword b =
        .challenge challenge (LoginProto.encodeServerChallenge reg.salt challenge.bBytes) ∧
      challenge.bBytes.length = kNBytes := by
  obtain ⟨challenge, hbegin, hlength⟩ := kGroup_sound.exists_serverBegin env.H reg.verifier b
  exact ⟨challenge, by simp only [ticketTaken, hreg, hbegin], hlength⟩

theorem shape_challenge {salt b : Bytes} (hsalt : salt.length = 16) (hb : b.length = kNBytes) :
    shape (LoginProto.encodeServerChallenge salt b) =
      some (.serverChallenge, [0, 0, 0, 16, 256, 0]) := by
  have hsalt' : salt.length < 2 ^ 16 := by omega
  have hb' : b.length < 2 ^ 32 := by rw [hb]; decide
  have hdecode := LoginProto.decode_encodeServerChallenge hsalt' hb'
  rw [shape, hdecode, Option.map_some]
  simp [fieldLengths, hsalt, hb, kNBytes]

/-- A proof is accepted or answered with an error. -/
theorem proved_cases (env : Env) {state : SessionState} (h : state.challenge.isSome)
    (a m1 : Bytes) :
    proved env state a m1 = .closed [LoginProto.encodeError] ∨
      ∃ result, proved env state a m1 = .accepted result := by
  obtain ⟨challenge, hch⟩ := Option.isSome_iff_exists.mp h
  obtain ⟨result, hresult⟩ := Option.isSome_iff_exists.mp
    (kGroup_sound.serverVerify_isSome env.H challenge a m1)
  simp only [proved, hch, hresult]
  by_cases hok : result.ok = true
  · exact Or.inr ⟨result, if_pos hok⟩
  · exact Or.inl (if_neg hok)

theorem onMessage_congr {state state' : SessionState} (h : state.stage = state'.stage)
    (payload : Bytes) :
    LoginHandler.onMessage state payload = LoginHandler.onMessage state' payload := by
  unfold LoginHandler.onMessage
  rw [h]

/-! ## Two steps on the same outcomes -/

theorem Salted.cons {log : List Event} (h : Salted salt log) {e : Event}
    (he : e.frame? = none := by rfl) : Salted salt (e :: log) := by
  intro frame hmem
  rcases List.mem_cons.mp hmem with rfl | hmem
  · cases he
  · exact h frame hmem

theorem Salted.send {log : List Event} (h : Salted salt log) {frame : Bytes}
    (hframe : frame = LoginProto.encodeError ∨
      ∃ b, frame = LoginProto.encodeServerChallenge salt b) : Salted salt (.sent frame :: log) := by
  intro frame' hmem
  rcases List.mem_cons.mp hmem with heq | hmem
  · exact Event.sent.inj heq ▸ hframe
  · exact h frame' hmem

theorem salted_of_sentFrames {log : List Event} (h : sentFrames log = []) : Salted salt log := by
  intro frame hmem
  have hin : frame ∈ sentFrames log :=
    List.mem_reverse.mpr (List.mem_filterMap.mpr ⟨_, hmem, rfl⟩)
  rw [h] at hin
  cases hin

variable {accounts accounts' : Bytes → Option AccountRecord}

theorem asked_of_taking (hwf : Wf env c) {ticket username : Bytes}
    (hpoint : c.point = .taking ticket username) : .asked ticket username ∈ c.log := by
  have hcourse := hwf.onCourse (by rw [hpoint]; simp) (by rw [hpoint]; simp)
  rw [hpoint] at hcourse
  exact hcourse.taking.mem

/-- A session that has not asked for `u` does the same in both runs. -/
theorem step_other (hothers : ∀ v, v ≠ u → accounts v = accounts' v) (hwf : Wf env c)
    (hnot : ∀ ticket, .asked ticket u ∉ c.log) (hm : Matched u accounts accounts' c l m)
    (hs : step env c l = some c') (ht : step env c m = some d') : c' = d' := by
  cases hm with
  | @frame payload random random' hrandom =>
    rw [step] at hs ht
    split at hs
    · next hread =>
      obtain rfl := Option.some.inj hs
      rw [if_pos hread] at ht
      obtain rfl := Option.some.inj ht
      unfold LoginRun.onMessage
      split
      · rfl
      · rfl
      · next a m1 hmsg =>
        have hcourse := hwf.onCourse (fun _ => hread.2) (by rw [hread.1]; simp)
        rw [hread.1] at hcourse
        obtain ⟨username, challenge, -, hchallenged⟩ :=
          hcourse.awaitingProof (onMessage_proof hmsg)
        obtain ⟨ticket, hasked⟩ := hchallenged.orderly.2.2.asked
        obtain rfl := hrandom ticket username hasked fun heq => hnot ticket (heq ▸ hasked)
        rfl
    · cases hs
  | @taken found fails ticket username random random' b b' hpoint hrandom =>
    have hne : username ≠ u := fun heq => hnot ticket (heq ▸ asked_of_taking hwf hpoint)
    obtain ⟨rfl, rfl⟩ := hrandom hne
    have hfind : find accounts fails username = find accounts' fails username := by
      rw [find, find, hothers username hne]
    rw [hfind] at hs
    exact Option.some.inj (hs.symm.trans ht)
  | _ => exact Option.some.inj (hs.symm.trans ht)

theorem alike_of_other (hwf : Wf env c) (hnot : ∀ ticket, .asked ticket u ∉ c.log)
    (hs : step env c l = some c') : Alike u salt salt' c' c' := by
  rcases log_step hs with hadds | ⟨payload, _, ticket, username, -, hpoint, hopen, hmsg, rfl⟩
  · exact .other fun ticket hasked => hnot ticket (hadds.asked_iff.mp hasked)
  · by_cases hu : username = u
    · obtain rfl := hu
      have hcourse := hwf.onCourse (fun _ => hopen) (by rw [hpoint]; simp)
      rw [hpoint] at hcourse
      obtain ⟨hlog, -⟩ := hcourse.awaitingHello (onMessage_hello hmsg)
      exact .asks rfl List.mem_cons_self (by simp [State.say, hlog])
    · refine .other fun t hasked => ?_
      rcases List.mem_cons.mp hasked with heq | hasked
      · exact hu (Event.asked.inj heq).2.symm
      · exact hnot t ((adds_cons _).asked_iff.mp hasked)

/-- What the look-up of `u` comes to: a registration with this salt. -/
structure Answers (env : Env) (accounts : Bytes → Option AccountRecord) (u salt : Bytes) :
    Prop where
  length : salt.length = 16
  registration : ∀ fakePassword, ∃ reg,
    registrationFor env (accounts u) u fakePassword = some reg ∧ reg.salt = salt

/-- A session that was refused before its challenge. -/
theorem alike_of_refused {ticket : Bytes} (hasked : .asked ticket u ∈ c.log)
    (hover : c.point = .errorSend ∨ Over c)
    (hsent : ∀ frame, .sent frame ∈ c.log → frame = LoginProto.encodeError) :
    Alike u salt salt' c c :=
  .ended ⟨⟨ticket, hasked⟩, hover, fun frame hmem => Or.inl (hsent frame hmem)⟩
    ⟨⟨ticket, hasked⟩, hover, fun frame hmem => Or.inl (hsent frame hmem)⟩ rfl rfl rfl

/-- The session after its hello for `u` was answered with a challenge. -/
def State.challenged (c : State) (u salt : Bytes) (account : Option AccountRecord)
    (challenge : ServerChallenge) : State where
  point := .challengeSend
  closed := c.closed
  state := { stage := .awaitingProof, username := u, challenge := some challenge }
  log := .sent (LoginProto.encodeServerChallenge salt challenge.bBytes) ::
    .lookedUp u (some account) :: .took :: c.log

theorem afterTake_eq (hans : Answers env accounts u salt) (c : State) (value : Bytes)
    (random : Vector UInt8 16) (b : ℕ) :
    ∃ challenge : ServerChallenge, challenge.bBytes.length = kNBytes ∧
      afterTake env c u (some value) (find accounts false u) random b =
        c.challenged u salt (accounts u) challenge := by
  obtain ⟨reg, hreg, rfl⟩ := hans.registration (generateTokenHex random)
  obtain ⟨challenge, hres, hlength⟩ := ticketTaken_eq hreg value b
  refine ⟨challenge, hlength, ?_⟩
  simp only [LoginRun.afterTake, find, hres, Bool.false_eq_true, if_false]
  rfl

theorem waits_afterTake (hans : Answers env accounts u salt) {ticket : Bytes}
    (hasked : .asked ticket u ∈ c.log) (hsent : sentFrames c.log = []) (value : Bytes)
    (random : Vector UInt8 16) (b : ℕ) :
    Waits u salt (afterTake env c u (some value) (find accounts false u) random b) ∧
      (afterTake env c u (some value) (find accounts false u) random b).point = .challengeSend ∧
      (afterTake env c u (some value) (find accounts false u) random b).closed = c.closed ∧
      view (afterTake env c u (some value) (find accounts false u) random b).log =
        .message (some (.serverChallenge, [0, 0, 0, 16, 256, 0])) :: view c.log := by
  obtain ⟨challenge, hlength, heq⟩ := afterTake_eq hans c value random b
  rw [heq]
  refine ⟨⟨⟨ticket, by simp [State.challenged, hasked]⟩, rfl, rfl, ?_⟩, rfl, rfl, ?_⟩
  · exact (salted_of_sentFrames hsent).cons.cons.send (Or.inr ⟨challenge.bBytes, rfl⟩)
  · simp only [State.challenged, view_cons, Event.seen?, Option.toList_some, Option.toList_none,
      List.singleton_append, List.nil_append, shape_challenge hans.length hlength]

theorem alike_of_asks (hans : Answers env accounts u salt) (hans' : Answers env accounts' u salt')
    {ticket : Bytes} (hpoint : c.point = .taking ticket u) (hasked : .asked ticket u ∈ c.log)
    (hsent : sentFrames c.log = []) (hm : Matched u accounts accounts' c l m)
    (hs : step env c l = some c') (ht : step env c m = some d') : Alike u salt salt' c' d' := by
  have hnone (frame : Bytes) (hmem : .sent frame ∈ c.log) : frame = LoginProto.encodeError := by
    have hin : frame ∈ sentFrames c.log :=
      List.mem_reverse.mpr (List.mem_filterMap.mpr ⟨_, hmem, rfl⟩)
    rw [hsent] at hin
    cases hin
  cases hm with
  | frame payload _ =>
    rw [step, hpoint, if_neg (by simp)] at hs
    cases hs
  | @taken found fails ticket' username random random' b b' hpoint' _ =>
    obtain ⟨-, rfl⟩ := Point.taking.inj (hpoint.symm.trans hpoint')
    rw [step, hpoint] at hs ht
    obtain rfl := Option.some.inj hs
    obtain rfl := Option.some.inj ht
    cases found with
    | none =>
      have hasked' : .asked ticket u ∈ c.close.log := List.mem_cons_of_mem _ hasked
      refine alike_of_refused hasked' (Or.inr (Or.inl ⟨rfl, rfl⟩)) fun frame hmem => ?_
      exact hnone frame ((List.mem_cons.mp hmem).resolve_left (by simp))
    | some value =>
      cases fails with
      | true =>
        have hadds : Adds c.log ((c.lookUp u (some value) none).send LoginProto.encodeError
            .errorSend).log := (adds_lookUp c u (some value) none).trans (adds_cons _)
        refine alike_of_refused (hadds.asked_iff.mpr hasked) (Or.inl rfl) fun frame hmem => ?_
        rcases List.mem_cons.mp hmem with heq | hmem
        · exact Event.sent.inj heq
        · exact hnone frame (by simpa [State.lookUp, State.say] using hmem)
      | false =>
        obtain ⟨hwaits, hp, hc, hv⟩ := waits_afterTake hans hasked hsent value random b
        obtain ⟨hwaits', hp', hc', hv'⟩ := waits_afterTake hans' hasked hsent value random' b'
        exact .waits hwaits hwaits' (Or.inl hp) (hp.trans hp'.symm) (hc.trans hc'.symm)
          (hv.trans hv'.symm)
  | readFails =>
    rw [step, hpoint, if_neg (by simp)] at hs
    cases hs
  | put ok =>
    rw [step, hpoint] at hs
    cases hs
  | listed entries =>
    rw [step, hpoint, if_neg (by simp)] at hs
    cases hs
  | sent ok =>
    rw [step, LoginRun.afterSend, hpoint] at hs
    cases hs
  | throws =>
    rw [step, hpoint, if_neg (by simp)] at hs ht
    obtain rfl := Option.some.inj hs
    obtain rfl := Option.some.inj ht
    exact alike_of_refused hasked (Or.inr (Or.inr rfl)) hnone
  | closes =>
    obtain rfl := Option.some.inj hs
    obtain rfl := Option.some.inj ht
    exact .asks hpoint hasked hsent

theorem onMessage_ne_hello {state : SessionState} (h : state.stage = .awaitingProof)
    (payload ticket username : Bytes) :
    LoginHandler.onMessage state payload ≠ .hello ticket username := by
  intro hmsg
  have hstage := onMessage_hello hmsg
  rw [h] at hstage
  cases hstage

/-- A frame ends a session that waits for a proof: it is out of sequence, or refused. -/
theorem ended_onMessage (h : Waits u salt c) {payload : Bytes} {random : Vector UInt8 16}
    (hu : Unproved u (onMessage env c payload random).log) :
    Ended u salt (onMessage env c payload random) ∧
      (LoginHandler.onMessage c.state payload = .close ∧
          (onMessage env c payload random).point = .reading ∧
          (onMessage env c payload random).closed = true ∧
          view (onMessage env c payload random).log =
            .closed :: .received payload :: view c.log ∨
        (∃ a m1, LoginHandler.onMessage c.state payload = .proof a m1) ∧
          (onMessage env c payload random).point = .errorSend ∧
          (onMessage env c payload random).closed = c.closed ∧
          view (onMessage env c payload random).log =
            .message (shape LoginProto.encodeError) :: .received payload :: view c.log) := by
  obtain ⟨⟨ticket, hasked⟩, hstage, hchallenge, hsalted⟩ := h
  cases hmsg : LoginHandler.onMessage c.state payload with
  | close =>
    have hclose : onMessage env c payload random = (c.say (.received payload)).close := by
      simp only [LoginRun.onMessage, hmsg]
    rw [hclose]
    exact ⟨⟨⟨ticket, List.mem_cons_of_mem _ (List.mem_cons_of_mem _ hasked)⟩,
      Or.inr (Or.inl ⟨rfl, rfl⟩), hsalted.cons.cons⟩, Or.inl ⟨rfl, rfl, rfl, rfl⟩⟩
  | hello ticket' username => exact absurd hmsg (onMessage_ne_hello hstage _ _ _)
  | proof a m1 =>
    rcases proved_cases env hchallenge a m1 with hproved | ⟨result, hproved⟩
    · have hrefuse : onMessage env c payload random =
          ((c.say (.received payload)).say (.verified c.state.challenge a m1 false)).send
            LoginProto.encodeError .errorSend := by
        simp only [LoginRun.onMessage, hmsg, hproved, State.refuse]
      rw [hrefuse]
      refine ⟨⟨⟨ticket, ?_⟩, Or.inl rfl, ?_⟩, Or.inr ⟨⟨a, m1, rfl⟩, rfl, rfl, rfl⟩⟩
      · exact (((adds_cons _).trans (adds_cons _)).trans (adds_cons _)).asked_iff.mpr hasked
      · exact hsalted.cons.cons.send (Or.inl rfl)
    · -- the proof would have been accepted
      obtain ⟨challenge, hch⟩ := Option.isSome_iff_exists.mp hchallenge
      have haccept : (onMessage env c payload random).log =
          .put (generateTokenHex random) c.state.username ::
            .verified (some challenge) a m1 true :: .received payload :: c.log := by
        simp only [LoginRun.onMessage, hmsg, hproved, State.say, hch]
      rw [haccept] at hu
      exact absurd (by simp) (hu ticket (by simp [hasked]) challenge a m1)

theorem ended_leave (hasked : ∃ ticket, .asked ticket u ∈ c.log) (hsalted : Salted salt c.log) :
    Ended u salt c.leave :=
  ⟨hasked, Or.inr (Or.inr rfl), hsalted⟩

/-- A session that is left, in both runs. -/
theorem alike_leave (hc : Ended u salt c.leave) (hd : Ended u salt' d.leave)
    (hview : view c.log = view d.log) : Alike u salt salt' c.leave d.leave :=
  .ended hc hd rfl rfl hview

theorem alike_of_waits (hc : Waits u salt c) (hd : Waits u salt' d)
    (hwhere : c.point = .challengeSend ∨ c.point = .reading) (hpoint : c.point = d.point)
    (hclosed : c.closed = d.closed) (hview : view c.log = view d.log)
    (hm : Matched u accounts accounts' c l m) (hs : step env c l = some c')
    (ht : step env d m = some d') (hu : Unproved u c'.log) (hu' : Unproved u d'.log) :
    Alike u salt salt' c' d' := by
  cases hm with
  | @frame payload random random' _ =>
    rw [step] at hs ht
    split at hs
    · next hread =>
      obtain rfl := Option.some.inj hs
      rw [if_pos ⟨hpoint ▸ hread.1, hclosed ▸ hread.2⟩] at ht
      obtain rfl := Option.some.inj ht
      have hsame := onMessage_congr (hc.stage.trans hd.stage.symm) payload
      obtain ⟨hended, hcase⟩ := ended_onMessage hc hu
      obtain ⟨hended', hcase'⟩ := ended_onMessage hd hu'
      rcases hcase with ⟨hmsg, hp, hcl, hv⟩ | ⟨⟨a, m1, hmsg⟩, hp, hcl, hv⟩
      · rcases hcase' with ⟨-, hp', hcl', hv'⟩ | ⟨⟨a, m1, hmsg'⟩, -⟩
        · exact .ended hended hended' (hp.trans hp'.symm) (hcl.trans hcl'.symm)
            (by rw [hv, hv', hview])
        · rw [← hsame, hmsg] at hmsg'
          cases hmsg'
      · rcases hcase' with ⟨hmsg', -⟩ | ⟨-, hp', hcl', hv'⟩
        · rw [← hsame, hmsg] at hmsg'
          cases hmsg'
        · exact .ended hended hended' (hp.trans hp'.symm) (by rw [hcl, hcl', hclosed])
            (by rw [hv, hv', hview])
    · cases hs
  | taken found fails hp _ =>
    rw [hp] at hwhere
    rcases hwhere with hwhere | hwhere <;> cases hwhere
  | readFails =>
    rw [step] at hs ht
    split at hs
    · next hread =>
      obtain rfl := Option.some.inj hs
      rw [if_pos (hpoint ▸ hread)] at ht
      obtain rfl := Option.some.inj ht
      exact alike_leave (ended_leave hc.asked hc.salted) (ended_leave hd.asked hd.salted) hview
    · cases hs
  | put ok =>
    rcases hwhere with hwhere | hwhere
    · rw [step, hwhere] at hs
      cases hs
    · rw [step, hwhere] at hs
      cases hs
  | listed entries =>
    rcases hwhere with hwhere | hwhere
    · rw [step, hwhere, if_neg (by simp)] at hs
      cases hs
    · rw [step, hwhere, if_neg (by simp)] at hs
      cases hs
  | sent ok =>
    rcases hwhere with hwhere | hwhere
    · rw [step, LoginRun.afterSend, hwhere] at hs
      rw [step, LoginRun.afterSend, ← hpoint, hwhere] at ht
      obtain rfl := Option.some.inj hs
      obtain rfl := Option.some.inj ht
      exact .waits ⟨hc.asked, hc.stage, hc.challenge, hc.salted⟩
        ⟨hd.asked, hd.stage, hd.challenge, hd.salted⟩ (Or.inr rfl) rfl
        (congrArg (· || !ok) hclosed) hview
    · rw [step, LoginRun.afterSend, hwhere] at hs
      cases hs
  | throws =>
    rw [step] at hs ht
    split at hs
    · cases hs
    · next hnot =>
      obtain rfl := Option.some.inj hs
      rw [if_neg (hpoint ▸ hnot)] at ht
      obtain rfl := Option.some.inj ht
      exact alike_leave (ended_leave hc.asked hc.salted) (ended_leave hd.asked hd.salted) hview
  | closes =>
    obtain rfl := Option.some.inj hs
    obtain rfl := Option.some.inj ht
    exact .waits ⟨hc.asked, hc.stage, hc.challenge, hc.salted⟩
      ⟨hd.asked, hd.stage, hd.challenge, hd.salted⟩ hwhere hpoint rfl hview

theorem Ended.close (h : Ended u salt c) : Ended u salt c.close :=
  ⟨h.asked.imp fun _ hmem => List.mem_cons_of_mem _ hmem, Or.inr (Or.inl ⟨rfl, rfl⟩),
    h.salted.cons⟩

theorem Ended.closes (h : Ended u salt c) : Ended u salt { c with closed := true } := by
  refine ⟨h.asked, h.ending.imp_right fun hover => ?_, h.salted⟩
  exact hover.imp_left fun hread => ⟨rfl, hread.2⟩

/-- A session that has ended is closed, or left; it does not turn to the store again. -/
inductive Ends (c : State) : Label → State → Prop
  | closes (ok : Bool) : Ends c (.sent ok) c.close
  | fails : Ends c .readFails c.leave
  | throws : Ends c .throws c.leave
  | closed : Ends c .closes { c with closed := true }

theorem Ended.step (h : Ended u salt c) (hs : step env c l = some c') : Ends c l c' := by
  have hpoint : c.point = .errorSend ∨ c.point = .reading ∨ c.point = .left :=
    h.ending.imp_right fun hover => hover.imp_left And.right
  cases l with
  | frame payload random =>
    rw [LoginRun.step] at hs
    split at hs
    · next hread =>
      have hover := h.ending
      rw [Over, hread.1, hread.2] at hover
      simp at hover
    · cases hs
  | taken found lookup random b =>
    rcases hpoint with hp | hp | hp <;> rw [LoginRun.step, hp] at hs <;> cases hs
  | put ok => rcases hpoint with hp | hp | hp <;> rw [LoginRun.step, hp] at hs <;> cases hs
  | listed entries =>
    rcases hpoint with hp | hp | hp <;> rw [LoginRun.step, hp, if_neg (by simp)] at hs <;> cases hs
  | readFails =>
    rw [LoginRun.step] at hs
    split at hs
    · obtain rfl := Option.some.inj hs
      exact .fails
    · cases hs
  | sent ok =>
    rw [LoginRun.step, LoginRun.afterSend] at hs
    rcases hpoint with hp | hp | hp
    · rw [hp] at hs
      obtain rfl := Option.some.inj hs
      exact .closes ok
    · rw [hp] at hs
      cases hs
    · rw [hp] at hs
      cases hs
  | throws =>
    rw [LoginRun.step] at hs
    split at hs
    · cases hs
    · obtain rfl := Option.some.inj hs
      exact .throws
  | closes =>
    obtain rfl := Option.some.inj hs
    exact .closed

theorem alike_of_ended (hc : Ended u salt c) (hd : Ended u salt' d) (hpoint : c.point = d.point)
    (hview : view c.log = view d.log) (hm : Matched u accounts accounts' c l m)
    (hs : step env c l = some c') (ht : step env d m = some d') : Alike u salt salt' c' d' := by
  cases hc.step hs with
  | closes ok =>
    cases hm
    cases hd.step ht
    exact .ended hc.close hd.close rfl rfl (congrArg (Seen.closed :: ·) hview)
  | fails =>
    cases hm
    cases hd.step ht
    exact alike_leave (ended_leave hc.asked hc.salted) (ended_leave hd.asked hd.salted) hview
  | throws =>
    cases hm
    cases hd.step ht
    exact alike_leave (ended_leave hc.asked hc.salted) (ended_leave hd.asked hd.salted) hview
  | closed =>
    cases hm
    cases hd.step ht
    exact .ended hc.closes hd.closes hpoint rfl hview

/-- **Two steps on the same outcomes look the same.** -/
theorem Alike.step (hothers : ∀ v, v ≠ u → accounts v = accounts' v)
    (hans : Answers env accounts u salt) (hans' : Answers env accounts' u salt')
    (h : Alike u salt salt' c d) (hwf : Wf env c) (hm : Matched u accounts accounts' c l m)
    (hs : step env c l = some c') (ht : step env d m = some d') (hu : Unproved u c'.log)
    (hu' : Unproved u d'.log) : Alike u salt salt' c' d' := by
  cases h with
  | other hnot =>
    obtain rfl := step_other hothers hwf hnot hm hs ht
    exact alike_of_other hwf hnot hs
  | asks hpoint hasked hsent => exact alike_of_asks hans hans' hpoint hasked hsent hm hs ht
  | waits hc hd hwhere hpoint hclosed hview =>
    exact alike_of_waits hc hd hwhere hpoint hclosed hview hm hs ht hu hu'
  | ended hc hd hpoint _ hview => exact alike_of_ended hc hd hpoint hview hm hs ht

/-! ## Whole runs -/

theorem Alike.same (h : Alike u salt salt' c d) :
    view c.log = view d.log ∧ c.point = d.point ∧ c.closed = d.closed := by
  cases h with
  | other _ => exact ⟨rfl, rfl, rfl⟩
  | asks _ _ _ => exact ⟨rfl, rfl, rfl⟩
  | waits _ _ _ hpoint hclosed hview => exact ⟨hview, hpoint, hclosed⟩
  | ended _ _ hpoint hclosed hview => exact ⟨hview, hpoint, hclosed⟩

theorem Alike.salted (h : Alike u salt salt' c d) (ticket : Bytes) :
    (.asked ticket u ∈ c.log → Salted salt c.log) ∧
      (.asked ticket u ∈ d.log → Salted salt' d.log) := by
  cases h with
  | other hnot => exact ⟨fun h => absurd h (hnot ticket), fun h => absurd h (hnot ticket)⟩
  | asks _ _ hsent =>
    exact ⟨fun _ => salted_of_sentFrames hsent, fun _ => salted_of_sentFrames hsent⟩
  | waits hc hd _ _ _ _ => exact ⟨fun _ => hc.salted, fun _ => hd.salted⟩
  | ended hc hd _ _ _ => exact ⟨fun _ => hc.salted, fun _ => hd.salted⟩

/-- A step can be taken in the one run if it can be taken in the other. -/
theorem isSome_step_iff (hpoint : c.point = d.point) (hclosed : c.closed = d.closed)
    (hm : Matched u accounts accounts' c l m) :
    (step env c l).isSome ↔ (step env d m).isSome := by
  cases hm with
  | frame payload _ =>
    rw [step, step, ← hpoint, ← hclosed]
    by_cases hread : c.point = .reading ∧ c.closed = false
    · simp [hread]
    · simp [hread]
  | taken found fails hp _ =>
    rw [step, step, ← hpoint, hp]
    simp
  | readFails =>
    rw [step, step, ← hpoint]
    by_cases hread : c.point = .reading
    · simp [hread]
    · simp [hread]
  | put ok =>
    rw [step, step, ← hpoint]
    cases c.point with
    | putting m2 token => simp
    | _ => simp
  | listed entries =>
    rw [step, step, ← hpoint]
    by_cases hlist : c.point = .listing
    · simp [hlist]
    · simp [hlist]
  | sent ok =>
    rw [step, step, LoginRun.afterSend, LoginRun.afterSend, ← hpoint]
    cases c.point with
    | _ => simp
  | throws =>
    rw [step, step, ← hpoint]
    by_cases hnot : c.point = .reading ∨ c.point = .left
    · simp [hnot]
    · simp [hnot]
  | closes => simp [step]

theorem answers_stored {password : Bytes} {reg : Registration} (hlength : salt.length = 16)
    (hreg : computeVerifierWithSalt env.H kGroup u password salt = some reg)
    (hstored : accounts u = some { username := u, salt := reg.salt, verifier := reg.verifier }) :
    Answers env accounts u salt := by
  rw [kGroup_sound.computeVerifierWithSalt_eq] at hreg
  obtain rfl := Option.some.inj hreg
  exact ⟨hlength, fun _ => ⟨_, by rw [hstored]; rfl, rfl⟩⟩

theorem length_fakeSaltFor (env : Env) (username : Bytes) :
    (fakeSaltFor env username).length = 16 := by
  rw [fakeSaltFor, List.length_take, Vector.length_toList]
  rfl

theorem answers_missing (hnone : accounts u = none) :
    Answers env accounts u (fakeSaltFor env u) := by
  refine ⟨length_fakeSaltFor env u, fun fakePassword => ?_⟩
  have hreg := kGroup_sound.computeVerifierWithSalt_eq env.H u fakePassword (fakeSaltFor env u)
  exact ⟨_, by rw [hnone]; exact hreg, rfl⟩

theorem alike_of_twins (hothers : ∀ v, v ≠ u → accounts v = accounts' v)
    (hans : Answers env accounts u salt) (hans' : Answers env accounts' u salt')
    {s t : ℕ → State} (hruns : Machine.Twins (Machine.many (step env))
      (matchedMany u accounts accounts') (fun _ => {}) s t)
    (hs : ∀ sid, Unproved u (s sid).log) (ht : ∀ sid, Unproved u (t sid).log) (sid : ℕ) :
    Alike u salt salt' (s sid) (t sid) := by
  induction hruns generalizing sid with
  | init => exact .other fun _ => List.not_mem_nil
  | @step s t s' t' l m htwins hrel hstep hstep' ih =>
    obtain ⟨c', hc', rfl⟩ := Machine.many_eq_some hstep
    obtain ⟨d', hd', rfl⟩ := Machine.many_eq_some hstep'
    obtain ⟨i, l⟩ := l
    obtain ⟨j, m⟩ := m
    obtain ⟨rfl, hm⟩ : i = j ∧ Matched u accounts accounts' (s i) l m := hrel
    have hbefore {f : ℕ → State} {c : State} {k : Label} (hk : step env (f i) k = some c)
        (hf : ∀ sid, Unproved u (Function.update f i c sid).log) (sid : ℕ) :
        Unproved u (f sid).log := by
      have hsid := hf sid
      by_cases hi : sid = i
      · subst hi
        rw [Function.update_self] at hsid
        exact hsid.of_step hk
      · rwa [Function.update_of_ne hi] at hsid
    have halike := ih (hbefore hc' hs) (hbefore hd' ht)
    by_cases hi : sid = i
    · subst hi
      have hu := hs sid
      have hu' := ht sid
      rw [Function.update_self] at hu hu' ⊢
      rw [Function.update_self]
      exact (halike sid).step hothers hans hans' (wf_of_reachable (htwins.reachable.1.of_many sid))
        hm hc' hd' hu hu'
    · rw [Function.update_of_ne hi, Function.update_of_ne hi]
      exact halike sid

/-- One account, with a password of one byte. -/
def oneAccount (username : Bytes) : Option AccountRecord :=
  if username = [0x75] then
    (computeVerifierWithSalt unitHash kGroup [0x75] [1] (List.replicate 16 7)).map fun reg =>
      { username, salt := reg.salt, verifier := reg.verifier }
  else none

/-- A session that has asked for the ticket of its hello. -/
def helloAsked : State where
  point := .taking [1] [0x75]
  log := [.asked [1] [0x75], .received (LoginProto.encodeClientHello [1] [0x75])]

end Netsrv.LoginRun
