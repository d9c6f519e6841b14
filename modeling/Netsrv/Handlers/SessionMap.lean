/-
  The `session_state()` of `LoginHandler` and `WorldHandler`: a thread-local map from the
  addresses of the sessions of a worker to what the handler keeps of them.

  The accept loop spawns sessions, each runs in turn, and an object whose run is over is
  destroyed; the address of a new object is one that no object in use has.  With the thread
  its map ends, and so does this machine.

  * `Hygiene`: the entries are those of sessions that are not over, a session starts with
    none, and runs as it would alone.
  * `lifecycle`: this of any handler that erases its entry, and of the two there are.
-/
import Netsrv.Handlers.LoginRun
import Netsrv.Handlers.WorldHandler
import Netsrv.Lib.Slots
import Netsrv.Net.SessionLife

namespace Netsrv.SessionMap

open SessionLife

/-- A session object; `freed` objects are not in use any more. -/
structure Object (ω : Type) where
  address : ℕ
  session : State ω
  freed : Bool := false

/-- A worker thread: its objects, the oldest first, and the map of its handler. -/
structure Thread (σ ω : Type) where
  objects : List (Object ω) := []
  sessionState : ℕ → Option σ := fun _ => none

inductive Event (ι ρ : Type) where
  /-- `accept_loop` makes a session of a connection, and spawns its run. -/
  | accept (address : ℕ) (stream : Bytes)
  | run (i : ℕ) (l : Label ι ρ)
  /-- The last `shared_ptr` is gone. -/
  | free (i : ℕ)

variable {σ ω ι ρ : Type}

/-- The entry of a session is the one at its address. -/
def step (handler : Handler σ ω ι ρ) (maxFrameBytes : ℕ) (t : Thread σ ω) :
    Event ι ρ → Option (Thread σ ω)
  | .accept address stream =>
    if t.objects.all fun o => o.freed || o.address != address then
      some { t with objects := t.objects ++ [{ address, session := { stream } }] }
    else none
  | .run i l =>
    match t.objects[i]? with
    | none => none
    | some o =>
      if o.freed then none
      else
        (SessionLife.step handler maxFrameBytes (t.sessionState o.address, o.session) l).map
          fun s =>
            { objects := t.objects.set i { o with session := s.2 }
              sessionState := Function.update t.sessionState o.address s.1 }
  | .free i =>
    match t.objects[i]? with
    | none => none
    | some o =>
      match o.session.point with
      -- the coroutine holds the object until `run` returns
      | .ended => some { t with objects := t.objects.set i { o with freed := true } }
      | _ => none

/-! ## What an event can do -/

inductive Step (handler : Handler σ ω ι ρ) (maxFrameBytes : ℕ) (t : Thread σ ω) :
    Event ι ρ → Thread σ ω → Prop
  | accepts {address : ℕ} (stream : Bytes) :
      (∀ o ∈ t.objects, o.freed = false → o.address ≠ address) →
      Step handler maxFrameBytes t (.accept address stream)
        { t with objects := t.objects ++ [{ address, session := { stream } }] }
  | runs {i : ℕ} {o : Object ω} {l : Label ι ρ} {s : Option σ × State ω} :
      t.objects[i]? = some o → o.freed = false →
      SessionLife.step handler maxFrameBytes (t.sessionState o.address, o.session) l = some s →
      Step handler maxFrameBytes t (.run i l)
        { objects := t.objects.set i { o with session := s.2 }
          sessionState := Function.update t.sessionState o.address s.1 }
  | frees {i : ℕ} {o : Object ω} : t.objects[i]? = some o → o.session.point = .ended →
      Step handler maxFrameBytes t (.free i)
        { t with objects := t.objects.set i { o with freed := true } }

variable {handler : Handler σ ω ι ρ} {maxFrameBytes : ℕ} {t t' : Thread σ ω} {e : Event ι ρ}

theorem step_cases (h : step handler maxFrameBytes t e = some t') :
    Step handler maxFrameBytes t e t' := by
  cases e with
  | accept address stream =>
    simp only [step] at h
    split at h
    · next hunused =>
      obtain rfl := Option.some.inj h
      refine .accepts stream fun o ho hlive heq => ?_
      have := List.all_eq_true.mp hunused o ho
      simp [hlive, heq] at this
    · cases h
  | run i l =>
    simp only [step] at h
    split at h
    · cases h
    · next o ho =>
      split at h
      · cases h
      · next hlive =>
        obtain ⟨s, hs, rfl⟩ := Option.map_eq_some_iff.mp h
        exact .runs ho (eq_false_of_ne_true hlive) hs
  | free i =>
    simp only [step] at h
    split at h
    · cases h
    · next o ho =>
      split at h
      · next hover =>
        obtain rfl := Option.some.inj h
        exact .frees ho hover
      · cases h

/-! ## Every session runs as if it were alone -/

/-- Object `i` is in use. -/
def Live (t : Thread σ ω) (i : ℕ) (o : Object ω) : Prop :=
  t.objects[i]? = some o ∧ o.freed = false

/-- Objects in use are apart, each is with its entry where it could be alone, and there are
    no other entries. -/
structure Wf (handler : Handler σ ω ι ρ) (maxFrameBytes : ℕ) (t : Thread σ ω) : Prop where
  apart : ∀ i j o o', Live t i o → Live t j o' → o.address = o'.address → i = j
  alone : ∀ (i : ℕ) (o : Object ω), t.objects[i]? = some o → ∃ entry stream,
    Machine.Reachable (SessionLife.step handler maxFrameBytes) (none, { stream })
      (entry, o.session) ∧ (o.freed = false → t.sessionState o.address = entry)
  owned : ∀ address, t.sessionState address ≠ none → ∃ i o, Live t i o ∧ o.address = address

theorem live_append {o₁ o : Object ω} {i : ℕ} {state : ℕ → Option σ}
    (h : Live { objects := t.objects ++ [o₁], sessionState := state } i o) :
    Live t i o ∨ i = t.objects.length ∧ o = o₁ := by
  exact (Slots.concat_cases h.1).imp (fun hold => ⟨hold, h.2⟩) id

theorem Wf.accepts (hwf : Wf handler maxFrameBytes t) {address : ℕ} (stream : Bytes)
    (hunused : ∀ o ∈ t.objects, o.freed = false → o.address ≠ address) :
    Wf handler maxFrameBytes
      { t with objects := t.objects ++ [{ address, session := { stream } }] } := by
  have hnone : t.sessionState address = none := by
    by_contra hsome
    obtain ⟨i, o, hlive, heq⟩ := hwf.owned address hsome
    exact hunused o (List.mem_of_getElem? hlive.1) hlive.2 heq
  have hother {i : ℕ} {o : Object ω} (hlive : Live t i o) : o.address ≠ address :=
    hunused o (List.mem_of_getElem? hlive.1) hlive.2
  refine ⟨?_, ?_, ?_⟩
  · intro i j o o' hi hj heq
    rcases live_append hi with hi | ⟨rfl, rfl⟩
    · rcases live_append hj with hj | ⟨rfl, rfl⟩
      · exact hwf.apart i j o o' hi hj heq
      · exact absurd heq (hother hi)
    · rcases live_append hj with hj | ⟨rfl, rfl⟩
      · exact absurd heq.symm (hother hj)
      · rfl
  · intro i o ho
    rcases Slots.concat_cases ho with hold | ⟨-, rfl⟩
    · exact hwf.alone i o hold
    · exact ⟨none, stream, .init, fun _ => hnone⟩
  · intro a hsome
    obtain ⟨i, o, hlive, heq⟩ := hwf.owned a hsome
    exact ⟨i, o, ⟨Slots.append_left hlive.1 _, hlive.2⟩, heq⟩

theorem Wf.runs (hwf : Wf handler maxFrameBytes t) {i : ℕ} {o : Object ω} {l : Label ι ρ}
    {s : Option σ × State ω} (hlive : Live t i o)
    (hs : SessionLife.step handler maxFrameBytes (t.sessionState o.address, o.session) l =
      some s) :
    Wf handler maxFrameBytes
      { objects := t.objects.set i { o with session := s.2 }
        sessionState := Function.update t.sessionState o.address s.1 } := by
  have hother {j : ℕ} {o' : Object ω} (hj : j ≠ i) (hlive' : Live t j o') :
      o'.address ≠ o.address :=
    fun heq => hj (hwf.apart j i o' o hlive' hlive heq)
  refine ⟨?_, ?_, ?_⟩
  · intro j k oj ok hj hk heq
    rcases Slots.set_cases hj.1 with ⟨rfl, rfl⟩ | ⟨hji, hj'⟩
    · rcases Slots.set_cases hk.1 with ⟨rfl, rfl⟩ | ⟨hki, hk'⟩
      · rfl
      · exact absurd heq.symm (hother hki ⟨hk', hk.2⟩)
    · rcases Slots.set_cases hk.1 with ⟨rfl, rfl⟩ | ⟨hki, hk'⟩
      · exact absurd heq (hother hji ⟨hj', hj.2⟩)
      · exact hwf.apart j k oj ok ⟨hj', hj.2⟩ ⟨hk', hk.2⟩ heq
  · intro j oj hj
    rcases Slots.set_cases hj with ⟨rfl, rfl⟩ | ⟨hji, hj'⟩
    · obtain ⟨entry, stream, hreach, hentry⟩ := hwf.alone j o hlive.1
      rw [hentry hlive.2] at hs
      exact ⟨s.1, stream, .step l hreach trivial hs, fun _ => Function.update_self ..⟩
    · obtain ⟨entry, stream, hreach, hentry⟩ := hwf.alone j oj hj'
      refine ⟨entry, stream, hreach, fun hlive' => ?_⟩
      rw [← hentry hlive']
      exact Function.update_of_ne (hother hji ⟨hj', hlive'⟩) _ _
  · intro a hsome
    by_cases ha : a = o.address
    · exact ⟨i, _, ⟨Slots.set_self hlive.1, hlive.2⟩, ha.symm⟩
    · have hold : t.sessionState a ≠ none := by
        rwa [← Function.update_of_ne ha s.1 t.sessionState]
      obtain ⟨j, oj, hj, heq⟩ := hwf.owned a hold
      have hji : j ≠ i := by
        rintro rfl
        obtain rfl := Option.some.inj (hj.1.symm.trans hlive.1)
        exact ha heq.symm
      exact ⟨j, oj, ⟨(List.getElem?_set_ne hji.symm).trans hj.1, hj.2⟩, heq⟩

/-- An object is destroyed after its entry. -/
theorem Wf.frees (hwf : Wf handler maxFrameBytes t) (htidy : handler.Tidy) {i : ℕ}
    {o : Object ω} (ho : t.objects[i]? = some o) (hover : o.session.point = .ended) :
    Wf handler maxFrameBytes { t with objects := t.objects.set i { o with freed := true } } := by
  have hlive {j : ℕ} {o' : Object ω}
      (h : Live { t with objects := t.objects.set i { o with freed := true } } j o') :
      Live t j o' := by
    rcases Slots.set_cases h.1 with ⟨rfl, rfl⟩ | ⟨-, hj⟩
    · exact absurd h.2 (by simp)
    · exact ⟨hj, h.2⟩
  refine ⟨fun j k oj ok hj hk => hwf.apart j k oj ok (hlive hj) (hlive hk), ?_, ?_⟩
  · intro j oj hj
    rcases Slots.set_cases hj with ⟨rfl, rfl⟩ | ⟨-, hj'⟩
    · obtain ⟨entry, stream, hreach, -⟩ := hwf.alone j o ho
      exact ⟨entry, stream, hreach, nofun⟩
    · exact hwf.alone j oj hj'
  · intro a hsome
    obtain ⟨j, oj, hj, heq⟩ := hwf.owned a hsome
    have hji : j ≠ i := by
      rintro rfl
      obtain rfl := Option.some.inj (hj.1.symm.trans ho)
      obtain ⟨entry, stream, hreach, hentry⟩ := hwf.alone j oj hj.1
      rw [← heq, hentry hj.2] at hsome
      exact hsome ((kept htidy hreach).ended hover)
    exact ⟨j, oj, ⟨(List.getElem?_set_ne hji.symm).trans hj.1, hj.2⟩, heq⟩

theorem Wf.step (hwf : Wf handler maxFrameBytes t) (htidy : handler.Tidy)
    (h : step handler maxFrameBytes t e = some t') : Wf handler maxFrameBytes t' := by
  cases step_cases h with
  | accepts stream hunused => exact hwf.accepts stream hunused
  | runs ho hlive hs => exact hwf.runs ⟨ho, hlive⟩ hs
  | frees ho hover => exact hwf.frees htidy ho hover

/-- Every worker is well-formed. -/
theorem wf (htidy : handler.Tidy)
    (h : Machine.Reachable (step handler maxFrameBytes) {} t) : Wf handler maxFrameBytes t := by
  refine h.invariant (I := Wf handler maxFrameBytes) ⟨?_, ?_, ?_⟩ fun _ _ _ hwf _ hstep =>
    hwf.step htidy hstep
  · intro i j o o' hi
    exact absurd hi.1 (by simp)
  · intro i o ho
    exact absurd ho (by simp)
  · intro address hsome
    exact absurd rfl hsome

/-- What the map of a worker has to do with its sessions. -/
structure Hygiene (handler : Handler σ ω ι ρ) (maxFrameBytes : ℕ) (t : Thread σ ω) : Prop where
  called : ∀ (i : ℕ) (o : Object ω), t.objects[i]? = some o →
    Called o.session.calls o.session.point
  /-- An entry is one of a session that is not disconnected. -/
  owned : ∀ address, t.sessionState address ≠ none →
    ∃ i o, Live t i o ∧ o.address = address ∧ .onDisconnect ∉ o.session.calls
  /-- A session has no entry before its first message. -/
  fresh : ∀ i o, Live t i o → (∀ payload, .onMessage payload ∉ o.session.calls) →
    t.sessionState o.address = none
  /-- The entry of a session is changed by its own run only. -/
  apart : ∀ e t' i o, step handler maxFrameBytes t e = some t' → Live t i o →
    (∀ l, e ≠ .run i l) → t'.sessionState o.address = t.sessionState o.address

theorem Wf.hygiene (hwf : Wf handler maxFrameBytes t) (htidy : handler.Tidy) :
    Hygiene handler maxFrameBytes t where
  called := by
    intro i o ho
    obtain ⟨entry, stream, hreach, -⟩ := hwf.alone i o ho
    exact SessionLife.called hreach
  owned := by
    intro address hsome
    obtain ⟨i, o, hlive, heq⟩ := hwf.owned address hsome
    refine ⟨i, o, hlive, heq, fun hmem => hsome ?_⟩
    obtain ⟨entry, stream, hreach, hentry⟩ := hwf.alone i o hlive.1
    rw [← heq, hentry hlive.2]
    exact (kept htidy hreach).ended ((SessionLife.called hreach).ended_iff.mpr hmem)
  fresh := by
    intro i o hlive hfresh
    obtain ⟨entry, stream, hreach, hentry⟩ := hwf.alone i o hlive.1
    rw [hentry hlive.2]
    exact ((kept htidy hreach).fresh hfresh).1
  apart := by
    intro e t' i o hstep hlive hother
    cases step_cases hstep with
    | accepts stream _ => rfl
    | @runs j o' l s ho hlive' hs =>
      have hij : i ≠ j := fun heq => hother l (heq ▸ rfl)
      exact Function.update_of_ne (fun heq => hij (hwf.apart i j o o' hlive ⟨ho, hlive'⟩ heq)) _ _
    | frees _ _ => rfl

/-! ## The two handlers -/

/-- A turn of `LoginHandler`, from the state of its session after it. -/
def loginTurn (c : LoginRun.State) : Turn LoginHandler.SessionState LoginRun.Point where
  entry := some c.state
  closes := c.closed
  next :=
    match c.point with
    | .reading => .returns
    | .left => .throws
    | point => .waits point

/-- `LoginHandler`.  A message that cannot be decoded makes no entry. -/
def login (env : LoginHandler.Env) :
    Handler LoginHandler.SessionState LoginRun.Point (Vector UInt8 16) LoginRun.Label where
  onConnect entry _ := { entry, next := .returns }
  onMessage entry payload random :=
    match LoginProto.decode payload with
    | none => { entry, closes := true, next := .returns }
    | some _ => loginTurn (LoginRun.onMessage env { state := entry.getD {} } payload random)
  resume entry point result :=
    (LoginRun.step env { state := entry.getD {}, point } result).map loginTurn
  onDisconnect _ := none

/-- Where `WorldHandler` waits. -/
inductive WorldPoint where
  | taking | sending
  deriving DecidableEq, Repr

inductive WorldResult where
  | taken (found : Option Bytes)
  | sent (ok : Bool)
  | throws
  deriving DecidableEq, Repr

/-- `WorldHandler`. -/
def world : Handler WorldHandler.SessionState WorldPoint Unit WorldResult where
  onConnect entry _ := { entry, next := .returns }
  onMessage entry payload _ :=
    let ctx := entry.getD {}
    match WorldHandler.onMessage ctx payload with
    | .take _ => { entry := some ctx, next := .waits .taking }
    | .ignore => { entry := some ctx, next := .returns }
    | .dispatch opcode body =>
      match PlayerChannel.dispatch opcode body with
      | [] => { entry := some ctx, next := .returns }
      | _ :: _ => { entry := some ctx, next := .waits .sending }
  resume entry
    | .taking, .taken found =>
      match WorldHandler.taken found with
      | none => some { entry, closes := true, next := .returns }
      -- through the reference that the handler kept
      | some ctx => some { entry := entry.map fun _ => ctx, next := .returns }
    | .sending, .sent ok => some { entry, closes := !ok, next := .returns }
    | _, .throws => some { entry, next := .throws }
    | _, _ => none
  onDisconnect _ := none

theorem login_tidy (env : LoginHandler.Env) : (login env).Tidy := ⟨fun _ _ => rfl, fun _ => rfl⟩

theorem world_tidy : world.Tidy := ⟨fun _ _ => rfl, fun _ => rfl⟩

/-- A session is connected, given its messages and disconnected, in this order and to the end,
    whatever the peer, the handler and the timer do; so the sessions of a worker, Login's and
    World's, start afresh, leave nothing behind and do not touch each other's state. -/
theorem lifecycle (env : LoginHandler.Env) (maxFrameBytes : ℕ) :
    (∀ (σ ω ι ρ : Type) (handler : Handler σ ω ι ρ) (stream : Bytes) (s : Option σ × State ω),
      Machine.Reachable (SessionLife.step handler maxFrameBytes) (none, { stream }) s →
      Called s.2.calls s.2.point ∧
      (∀ l s', SessionLife.step handler maxFrameBytes s l = some s' → l ≠ .closes →
        rank s'.2 < rank s.2 ∨ Waiting s.2 ∧ Waiting s'.2 ∧ rank s'.2 = rank s.2) ∧
      (s.2.point ≠ .ended → ¬ Waiting s.2 → ∀ input,
        (SessionLife.step handler maxFrameBytes s (.starts input)).isSome ∨
          (SessionLife.step handler maxFrameBytes s (.reads input)).isSome)) ∧
    (∀ t, Machine.Reachable (step (login env) maxFrameBytes) {} t →
      Hygiene (login env) maxFrameBytes t ∧
      ∀ i o, Live t i o → (∀ payload, .onMessage payload ∉ o.session.calls) →
        ((t.sessionState o.address).getD {}).stage = .awaitingHello) ∧
    ∀ t, Machine.Reachable (step world maxFrameBytes) {} t →
      Hygiene world maxFrameBytes t ∧
      ∀ i o, Live t i o → (∀ payload, .onMessage payload ∉ o.session.calls) →
        ((t.sessionState o.address).getD {}).authenticated = false := by
  refine ⟨fun σ ω ι ρ handler stream s h => ⟨called h, fun l s' hs hl => rank_step hs hl,
    fun hover hwait input => isSome_step hover hwait input⟩, fun t h => ?_, fun t h => ?_⟩
  · have hygiene := (wf (login_tidy env) h).hygiene (login_tidy env)
    refine ⟨hygiene, fun i o hlive hfresh => ?_⟩
    rw [hygiene.fresh i o hlive hfresh]
    rfl
  · have hygiene := (wf world_tidy h).hygiene world_tidy
    refine ⟨hygiene, fun i o hlive hfresh => ?_⟩
    rw [hygiene.fresh i o hlive hfresh]
    rfl

/-- A World session that authenticates and is over; then another one at its address. -/
def reuse : List (Event Unit WorldResult) :=
  [.accept 8 [0, 0, 0, 1, 7], .run 0 (.starts ()), .run 0 (.reads ()),
    .run 0 (.resumes (.taken (some [97]))), .run 0 .idles, .free 0, .accept 8 []]

theorem lifecycle_reuse :
    (∃ t, Machine.run (step world 64) {} (reuse.take 4) = some t ∧
      t.sessionState 8 = some { authenticated := true, username := [97] }) ∧
    ∃ t, Machine.run (step world 64) {} reuse = some t ∧
      ((t.sessionState 8).getD {}).authenticated = false := by
  have hfirst : ((Machine.run (step world 64) {} (reuse.take 4)).map fun t =>
      t.sessionState 8) = some (some { authenticated := true, username := [97] }) := by decide
  have hsecond : ((Machine.run (step world 64) {} reuse).map fun t =>
      t.objects[1]?.map fun o => (o.address, o.freed, o.session.calls)) =
        some (some (8, false, [])) := by decide
  refine ⟨Option.map_eq_some_iff.mp hfirst, ?_⟩
  obtain ⟨t, ht, hobject⟩ := Option.map_eq_some_iff.mp hsecond
  obtain ⟨o, ho, hvalues⟩ := Option.map_eq_some_iff.mp hobject
  obtain ⟨haddress, hrest⟩ := Prod.mk.inj hvalues
  obtain ⟨hlive, hcalls⟩ := Prod.mk.inj hrest
  refine ⟨t, ht, haddress ▸ ?_⟩
  refine ((lifecycle LoginRun.unitEnv 64).2.2 t (.of_run .init ht)).2 1 o ⟨ho, hlive⟩ ?_
  rw [hcalls]
  exact fun _ => List.not_mem_nil

end Netsrv.SessionMap
