/-
  `Session::run` with the handler it calls, wait by wait.

  The peer sends any bytes.  A handler returns, waits, throws or closes the session, in
  `on_connect` as in `on_message`, and keeps one entry for the session.  Which of the read
  and the idle timer comes first is a label.  `calls` is not in the program: it records the
  calls to the handler, in their order.

  * `called`: `on_connect`, then any number of `on_message`, then `on_disconnect`.
  * `rank_step`: the loop ends, unless a call to the handler does not.
-/
import Netsrv.Net.Framing
import Netsrv.Lib.Machine

namespace Netsrv.SessionLife

open Session

/-- How a handler's turn ends: it waits at `point`, or its call is over. -/
inductive Next (ω : Type) where
  | waits (point : ω)
  | returns
  | throws

/-- What a handler does without waiting: the entry it leaves, and whether it closes the
    session. -/
structure Turn (σ ω : Type) where
  entry : Option σ
  closes : Bool := false
  next : Next ω

/-- A handler with entries in `σ` that waits at points in `ω`; a call starts with an input in
    `ι`, a wait ends with a result in `ρ`. -/
structure Handler (σ ω ι ρ : Type) where
  onConnect : Option σ → ι → Turn σ ω
  onMessage : Option σ → Bytes → ι → Turn σ ω
  /-- A call goes on after a wait. -/
  resume : Option σ → ω → ρ → Option (Turn σ ω)
  onDisconnect : Option σ → Option σ

inductive Call where
  | onConnect
  | onMessage (payload : Bytes)
  | onDisconnect
  deriving DecidableEq, Repr

/-- Where the coroutine is. -/
inductive Point (ω : Type) where
  | spawned
  | connecting (point : ω)
  | reading
  | handling (point : ω)
  /-- `run` is over. -/
  | ended

/-- A session with the bytes that it has not read. -/
structure State (ω : Type) where
  stream : Bytes
  closed : Bool := false
  point : Point ω := .spawned
  calls : List Call := []

inductive Label (ι ρ : Type) where
  | starts (input : ι)
  | resumes (result : ρ)
  /-- The read of a frame ends before the idle timer. -/
  | reads (input : ι)
  | idles
  /-- The socket is closed from outside. -/
  | closes

variable {σ ω ι ρ : Type}

/-- `on_disconnect` and `close`, after the loop or an exception. -/
def leave (handler : Handler σ ω ι ρ) (entry : Option σ) (c : State ω) : Option σ × State ω :=
  (handler.onDisconnect entry,
    { c with closed := true, point := .ended, calls := c.calls ++ [.onDisconnect] })

/-- The session after a turn of the handler. -/
def take (handler : Handler σ ω ι ρ) (c : State ω) (waiting : ω → Point ω) (turn : Turn σ ω) :
    Option σ × State ω :=
  match turn.next with
  | .waits point =>
    (turn.entry, { c with closed := c.closed || turn.closes, point := waiting point })
  | .returns => (turn.entry, { c with closed := c.closed || turn.closes, point := .reading })
  | .throws => leave handler turn.entry c

def step (handler : Handler σ ω ι ρ) (maxFrameBytes : ℕ) (s : Option σ × State ω) :
    Label ι ρ → Option (Option σ × State ω)
  | .starts input =>
    match s.2.point with
    | .spawned => some (take handler { s.2 with calls := s.2.calls ++ [.onConnect] } .connecting
        (handler.onConnect s.1 input))
    | _ => none
  | .resumes result =>
    match s.2.point with
    | .connecting point => (handler.resume s.1 point result).map (take handler s.2 .connecting)
    | .handling point => (handler.resume s.1 point result).map (take handler s.2 .handling)
    | _ => none
  | .reads input =>
    match s.2.point with
    | .reading =>
      -- a read on a closed socket fails
      match if s.2.closed then none else readFrame maxFrameBytes s.2.stream with
      | none => some (leave handler s.1 s.2)
      | some (payload, rest) => some (take handler
          { s.2 with stream := rest, calls := s.2.calls ++ [.onMessage payload] } .handling
          (handler.onMessage s.1 payload input))
    | _ => none
  | .idles =>
    match s.2.point with
    | .reading => some (leave handler s.1 s.2)
    | _ => none
  | .closes => some (s.1, { s.2 with closed := true })

/-! ## What a step can do -/

inductive Step (handler : Handler σ ω ι ρ) (maxFrameBytes : ℕ) (entry : Option σ) (c : State ω) :
    Label ι ρ → Option σ × State ω → Prop
  | starts (input : ι) : c.point = .spawned → Step handler maxFrameBytes entry c (.starts input)
      (take handler { c with calls := c.calls ++ [.onConnect] } .connecting
        (handler.onConnect entry input))
  | connects {point : ω} {result : ρ} {turn : Turn σ ω} : c.point = .connecting point →
      handler.resume entry point result = some turn →
      Step handler maxFrameBytes entry c (.resumes result) (take handler c .connecting turn)
  | handles {point : ω} {result : ρ} {turn : Turn σ ω} : c.point = .handling point →
      handler.resume entry point result = some turn →
      Step handler maxFrameBytes entry c (.resumes result) (take handler c .handling turn)
  | reads (input : ι) {payload rest : Bytes} : c.point = .reading →
      readFrame maxFrameBytes c.stream = some (payload, rest) →
      Step handler maxFrameBytes entry c (.reads input) (take handler
        { c with stream := rest, calls := c.calls ++ [.onMessage payload] } .handling
        (handler.onMessage entry payload input))
  | leaves {l : Label ι ρ} : c.point = .reading → l ≠ .closes →
      Step handler maxFrameBytes entry c l (leave handler entry c)
  | closes : Step handler maxFrameBytes entry c .closes (entry, { c with closed := true })

variable {handler : Handler σ ω ι ρ} {maxFrameBytes : ℕ} {s s' : Option σ × State ω}
variable {l : Label ι ρ}

theorem step_cases (h : step handler maxFrameBytes s l = some s') :
    Step handler maxFrameBytes s.1 s.2 l s' := by
  cases l with
  | starts input =>
    simp only [step] at h
    split at h
    · next hpoint =>
      obtain rfl := Option.some.inj h
      exact .starts input hpoint
    · cases h
  | resumes result =>
    simp only [step] at h
    split at h
    · next point hpoint =>
      obtain ⟨turn, hturn, rfl⟩ := Option.map_eq_some_iff.mp h
      exact .connects hpoint hturn
    · next point hpoint =>
      obtain ⟨turn, hturn, rfl⟩ := Option.map_eq_some_iff.mp h
      exact .handles hpoint hturn
    · cases h
  | reads input =>
    simp only [step] at h
    split at h
    · next hpoint =>
      split at h
      · obtain rfl := Option.some.inj h
        exact .leaves hpoint nofun
      · next payload rest hread =>
        obtain rfl := Option.some.inj h
        split at hread
        · cases hread
        · exact .reads input hpoint hread
    · cases h
  | idles =>
    simp only [step] at h
    split at h
    · next hpoint =>
      obtain rfl := Option.some.inj h
      exact .leaves hpoint nofun
    · cases h
  | closes =>
    obtain rfl := Option.some.inj h
    exact .closes

/-! ## The calls to the handler -/

/-- The calls of a session that has come to `point`. -/
def Called (calls : List Call) : Point ω → Prop
  | .spawned => calls = []
  | .connecting _ => calls = [.onConnect]
  | .reading | .handling _ => ∃ payloads : List Bytes, calls = .onConnect :: payloads.map .onMessage
  | .ended => ∃ payloads : List Bytes,
      calls = .onConnect :: payloads.map .onMessage ++ [.onDisconnect]

/-- A handler that has been called, and waits at `waiting` if it waits. -/
theorem called_take (c : State ω) (waiting : ω → Point ω) {payloads : List Bytes}
    (hcalls : c.calls = .onConnect :: payloads.map .onMessage)
    (hwaiting : ∀ point, Called c.calls (waiting point)) (turn : Turn σ ω) :
    Called (take handler c waiting turn).2.calls (take handler c waiting turn).2.point := by
  unfold take
  split
  · next point _ => exact hwaiting point
  · exact ⟨payloads, hcalls⟩
  · exact ⟨payloads, congrArg (· ++ [Call.onDisconnect]) hcalls⟩

theorem called_step (hcalled : Called s.2.calls s.2.point)
    (h : step handler maxFrameBytes s l = some s') : Called s'.2.calls s'.2.point := by
  cases step_cases h with
  | starts input hpoint =>
    rw [hpoint] at hcalled
    have hcalls : s.2.calls ++ [Call.onConnect] = .onConnect :: List.map .onMessage [] := by
      rw [hcalled]
      rfl
    exact called_take { s.2 with calls := s.2.calls ++ [.onConnect] } .connecting hcalls
      (fun _ => hcalls) _
  | connects hpoint _ =>
    rw [hpoint] at hcalled
    have hcalls : s.2.calls = .onConnect :: List.map .onMessage [] := hcalled
    exact called_take s.2 .connecting hcalls (fun _ => hcalled) _
  | handles hpoint _ =>
    rw [hpoint] at hcalled
    obtain ⟨payloads, hcalls⟩ := hcalled
    exact called_take s.2 .handling hcalls (fun _ => ⟨payloads, hcalls⟩) _
  | @reads input payload rest hpoint _ =>
    rw [hpoint] at hcalled
    obtain ⟨payloads, hcalls⟩ := hcalled
    have hmore : s.2.calls ++ [Call.onMessage payload] =
        .onConnect :: (payloads ++ [payload]).map .onMessage := by
      rw [hcalls, List.map_append]
      rfl
    exact called_take { s.2 with stream := rest, calls := s.2.calls ++ [.onMessage payload] }
      .handling hmore (fun _ => ⟨_, hmore⟩) _
  | leaves hpoint _ =>
    rw [hpoint] at hcalled
    obtain ⟨payloads, hcalls⟩ := hcalled
    exact ⟨payloads, congrArg (· ++ [Call.onDisconnect]) hcalls⟩
  | closes => exact hcalled

/-- **The handler is called in this order, whatever the peer and the handler do.** -/
theorem called {stream : Bytes}
    (h : Machine.Reachable (step handler maxFrameBytes) (none, { stream }) s) :
    Called s.2.calls s.2.point :=
  h.invariant (I := fun s => Called s.2.calls s.2.point) (show Called [] .spawned from rfl)
    fun _ _ _ hcalled _ hstep => called_step hcalled hstep

theorem Called.ended_iff {calls : List Call} {point : Point ω} (h : Called calls point) :
    point = .ended ↔ .onDisconnect ∈ calls := by
  cases point with
  | ended =>
    obtain ⟨payloads, rfl⟩ := h
    simp
  | spawned =>
    obtain rfl := h
    simp
  | connecting point =>
    obtain rfl := h
    simp
  | reading | handling point =>
    obtain ⟨payloads, rfl⟩ := h
    simp

/-! ## The end of the loop -/

/-- How much there is left to do, apart from the waits of the handler. -/
def rank (c : State ω) : ℕ :=
  match c.point with
  | .spawned => 2 * c.stream.length + 3
  | .connecting _ | .handling _ => 2 * c.stream.length + 2
  | .reading => 2 * c.stream.length + 1
  | .ended => 0

/-- The handler waits. -/
def Waiting (c : State ω) : Prop := ∃ point, c.point = .connecting point ∨ c.point = .handling point

theorem rank_take (handler : Handler σ ω ι ρ) (c : State ω) {waiting : ω → Point ω}
    (hwaiting : ∀ point, waiting point = .connecting point ∨ waiting point = .handling point)
    (turn : Turn σ ω) :
    rank (take handler c waiting turn).2 < 2 * c.stream.length + 2 ∨
      Waiting (take handler c waiting turn).2 ∧
        rank (take handler c waiting turn).2 = 2 * c.stream.length + 2 := by
  unfold take
  split
  · next point _ =>
    refine Or.inr ⟨⟨point, hwaiting point⟩, ?_⟩
    rcases hwaiting point with hpoint | hpoint <;> simp only [rank, hpoint]
  · exact Or.inl (Nat.lt_succ_self _)
  · exact Or.inl (Nat.succ_pos _)

/-- **Each step brings the end nearer**, or is one of a call that goes on. -/
theorem rank_step (h : step handler maxFrameBytes s l = some s') (hl : l ≠ .closes) :
    rank s'.2 < rank s.2 ∨ Waiting s.2 ∧ Waiting s'.2 ∧ rank s'.2 = rank s.2 := by
  cases step_cases h with
  | starts input hpoint =>
    have hrank : rank s.2 = 2 * s.2.stream.length + 3 := by simp only [rank, hpoint]
    have := rank_take handler { s.2 with calls := s.2.calls ++ [Call.onConnect] }
      (fun _ => Or.inl rfl) (handler.onConnect s.1 input)
    simp only at this
    omega
  | @connects point result turn hpoint _ =>
    have hrank : rank s.2 = 2 * s.2.stream.length + 2 := by simp only [rank, hpoint]
    rw [hrank]
    exact (rank_take handler s.2 (fun _ => Or.inl rfl) turn).imp_right fun ⟨hwaits, heq⟩ =>
      ⟨⟨point, Or.inl hpoint⟩, hwaits, heq⟩
  | @handles point result turn hpoint _ =>
    have hrank : rank s.2 = 2 * s.2.stream.length + 2 := by simp only [rank, hpoint]
    rw [hrank]
    exact (rank_take handler s.2 (fun _ => Or.inr rfl) turn).imp_right fun ⟨hwaits, heq⟩ =>
      ⟨⟨point, Or.inr hpoint⟩, hwaits, heq⟩
  | @reads input payload rest hpoint hread =>
    have hrank : rank s.2 = 2 * s.2.stream.length + 1 := by simp only [rank, hpoint]
    have hshort := (readFrame_some hread).2.2
    rw [kFrameHeaderSize] at hshort
    have := rank_take handler
      { s.2 with stream := rest, calls := s.2.calls ++ [Call.onMessage payload] }
      (fun _ => Or.inr rfl) (handler.onMessage s.1 payload input)
    simp only at this
    omega
  | leaves hpoint _ =>
    refine Or.inl ?_
    simp only [rank, leave, hpoint]
    exact Nat.succ_pos _
  | closes => exact absurd rfl hl

/-- A session that is not over and not in its handler goes on, whatever the stream is. -/
theorem isSome_step (hover : s.2.point ≠ .ended) (hwait : ¬ Waiting s.2) (input : ι) :
    (step handler maxFrameBytes s (.starts input)).isSome ∨
      (step handler maxFrameBytes s (.reads input)).isSome := by
  cases hpoint : s.2.point with
  | spawned =>
    left
    simp only [step, hpoint, Option.isSome_some]
  | connecting point => exact absurd ⟨point, Or.inl hpoint⟩ hwait
  | reading =>
    right
    simp only [step, hpoint]
    split <;> rfl
  | handling point => exact absurd ⟨point, Or.inr hpoint⟩ hwait
  | ended => exact absurd hpoint hover

/-! ## Handlers with a map -/

/-- The handler makes no entry before the first message, and erases it in `on_disconnect`. -/
structure Handler.Tidy (handler : Handler σ ω ι ρ) : Prop where
  onConnect : ∀ entry input, handler.onConnect entry input = { entry, next := .returns }
  onDisconnect : ∀ entry, handler.onDisconnect entry = none

/-- Where a session can have an entry. -/
structure Kept (entry : Option σ) (c : State ω) : Prop where
  ended : c.point = .ended → entry = none
  fresh : (∀ payload, .onMessage payload ∉ c.calls) → entry = none ∧ ¬ Waiting c

theorem Kept.leave (htidy : handler.Tidy) (entry : Option σ) (c : State ω) :
    Kept (leave handler entry c).1 (leave handler entry c).2 where
  ended _ := htidy.onDisconnect entry
  fresh _ := ⟨htidy.onDisconnect entry, nofun⟩

/-- After a message anything may be kept until the session is over. -/
theorem Kept.take (htidy : handler.Tidy) (c : State ω) (waiting : ω → Point ω) {payload : Bytes}
    (hmem : .onMessage payload ∈ c.calls) (hwaiting : ∀ point, waiting point ≠ .ended)
    (turn : Turn σ ω) :
    Kept (take handler c waiting turn).1 (take handler c waiting turn).2 := by
  unfold SessionLife.take
  split
  · next point _ => exact ⟨fun h => absurd h (hwaiting point), fun h => absurd hmem (h payload)⟩
  · exact ⟨nofun, fun h => absurd hmem (h payload)⟩
  · exact Kept.leave htidy _ c

theorem kept_step (htidy : handler.Tidy) (hkept : Kept s.1 s.2)
    (h : step handler maxFrameBytes s l = some s') : Kept s'.1 s'.2 := by
  have hmessage (hwait : Waiting s.2) : ∃ payload, .onMessage payload ∈ s.2.calls := by
    by_contra hnone
    exact (hkept.fresh fun payload hmem => hnone ⟨payload, hmem⟩).2 hwait
  cases step_cases h with
  | starts input hpoint =>
    rw [htidy.onConnect]
    refine ⟨nofun, fun hfresh => ⟨(hkept.fresh fun payload hmem => ?_).1, nofun⟩⟩
    exact hfresh payload (List.mem_append_left _ hmem)
  | @connects point _ turn hpoint _ =>
    obtain ⟨payload, hmem⟩ := hmessage ⟨point, Or.inl hpoint⟩
    exact Kept.take htidy s.2 .connecting hmem (fun _ => nofun) turn
  | @handles point _ turn hpoint _ =>
    obtain ⟨payload, hmem⟩ := hmessage ⟨point, Or.inr hpoint⟩
    exact Kept.take htidy s.2 .handling hmem (fun _ => nofun) turn
  | @reads input payload rest hpoint _ =>
    exact Kept.take htidy { s.2 with stream := rest, calls := s.2.calls ++ [.onMessage payload] }
      .handling (List.mem_append_right _ (List.mem_singleton.mpr rfl)) (fun _ => nofun) _
  | leaves hpoint _ => exact Kept.leave htidy s.1 s.2
  | closes => exact ⟨hkept.ended, hkept.fresh⟩

theorem kept (htidy : handler.Tidy) {stream : Bytes}
    (h : Machine.Reachable (step handler maxFrameBytes) (none, { stream }) s) : Kept s.1 s.2 :=
  h.invariant (I := fun s => Kept s.1 s.2)
    ⟨fun _ => rfl, fun _ => ⟨rfl, fun ⟨_, hwaits⟩ => hwaits.elim nofun nofun⟩⟩
    fun _ _ _ hkept _ hstep => kept_step htidy hkept hstep

end Netsrv.SessionLife
