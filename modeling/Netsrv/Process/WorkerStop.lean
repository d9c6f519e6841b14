/-
  What the stop of a worker leaves open.

  `stop()` runs in another thread, at any time of the worker's life: before its callback is
  there, before its coroutine is spawned, while it runs.  The handler that the callback posts
  closes what is open when its turn comes.  It misses a listener that is only opened after
  it, and a connection that was accepted before it and is taken in after it; in a run with
  neither, everything is closed for good once it has run (`stop_complete`).
-/
import Netsrv.Lib.EventLoopShut
import Netsrv.Process.Shutdown

namespace Netsrv.Process

open EventLoop EventLoop.Loop

variable {role : ServerRole} {wk wk' : Worker}

/-- A worker's own steps, those of its peers and of the store, and the stop. -/
inductive WorkerLabel where
  | arm
  | launch
  | act (a : Act Point)
  | finish
  | stop

namespace Worker

/-- A step that the worker makes as the only one of its process. -/
def alone (role : ServerRole) (wk : Worker) (l : Label) : Option Worker :=
  (Process.step role { workers := [wk] } l).bind fun s => s.workers[0]?

def step (role : ServerRole) (wk : Worker) : WorkerLabel → Option Worker
  | .arm => wk.alone role (.arm 0)
  | .launch => wk.alone role (.launch 0)
  | .act a => wk.alone role (.act 0 a)
  | .finish => wk.alone role (.finish 0)
  | .stop => if wk.stopRequested = true then none else some wk.requestStop

/-- The posted handler runs. -/
def closing (_ : Worker) : WorkerLabel → Option Unit
  | .act (.close _) => some ()
  | _ => none

/-- The listener is open when the handler runs, and afterwards no connection is taken in. -/
def inTime (role : ServerRole) (wk : Worker) : WorkerLabel → Bool
  | .act (.close _) => !wk.loop.early (script role)
  | .act a => !wk.loop.late (script role) a
  | _ => true

theorem alone_cases {l : Label} (h : wk.alone role l = some wk') (hsignal : l ≠ .signal)
    (hjoin : l ≠ .join) : wk.Does role l wk' := by
  obtain ⟨s, hstep, hget⟩ := Option.bind_eq_some_iff.mp h
  cases step_cases hstep with
  | @worker _ w wk₁ wk₂ hwk hd _ =>
    rw [List.getElem?_singleton] at hwk
    split at hwk
    · next hw =>
      subst hw
      obtain rfl := Option.some.inj hwk
      obtain rfl := Option.some.inj hget
      exact hd
    · cases hwk
  | stops hrequested _ _ _ _ =>
    cases l with
    | signal => exact absurd rfl hsignal
    | join => exact absurd rfl hjoin
    | _ => cases hrequested
  | joins _ _ _ _ _ => exact absurd rfl hjoin
  | isDone hwhen _ =>
    rcases hwhen with hempty | hrunning
    · cases hempty
    · exact absurd rfl hrunning

/-- What a step is. -/
inductive Steps (role : ServerRole) (wk : Worker) : WorkerLabel → Worker → Prop
  | arms : wk.phase = .created → Steps role wk .arm { wk with
      phase := .armed
      loop := if wk.stopRequested then wk.loop.closeLater else wk.loop }
  | launches : wk.phase = .armed → Steps role wk .launch { wk with
      phase := .running
      loop := { cos := [{ point := wk.protocol.listens, status := .fresh }]
                queue := wk.loop.queue ++ [.begin 0] } }
  | acts {a : Act Point} {loop : Loop Point} : wk.phase = .running →
      wk.loop.step (script role) a = some loop → Steps role wk (.act a) { wk with loop }
  | finishes : wk.phase = .running → Steps role wk .finish { wk with phase := .finished }
  | stops : wk.stopRequested = false → Steps role wk .stop wk.requestStop

theorem steps_of_step {l : WorkerLabel} (h : wk.step role l = some wk') : wk.Steps role l wk' := by
  cases l with
  | arm =>
    cases alone_cases h nofun nofun with
    | arms _ hphase => exact .arms hphase
  | launch =>
    cases alone_cases h nofun nofun with
    | launches _ hphase => exact .launches hphase
  | act a =>
    cases alone_cases h nofun nofun with
    | acts _ hphase hloop => exact .acts hphase hloop
  | finish =>
    cases alone_cases h nofun nofun with
    | finishes _ hphase _ _ => exact .finishes hphase
  | stop =>
    rw [step] at h
    split at h
    · cases h
    · next hnot =>
      obtain rfl := Option.some.inj h
      exact .stops (eq_false_of_ne_true hnot)

/-- Once the posted handler has run, everything is closed. -/
structure Closed (wk : Worker) : Prop where
  launched : wk.launched = true
  shut : Shut wk.loop

theorem Closed.requestStop (h : wk.Closed) : Closed wk.requestStop := by
  refine ⟨h.launched, ?_⟩
  rw [Worker.requestStop]
  dsimp only
  split
  · exact h.shut
  · exact h.shut

theorem Closed.step {l : WorkerLabel} (h : wk.Closed) (hs : wk.Steps role l wk')
    (hok : wk.inTime role l = true) : wk'.Closed := by
  have hnot {q : Prop} (hphase : wk.phase = .created ∨ wk.phase = .armed) : q := by
    have hlaunched := h.launched
    rw [not_launched hphase] at hlaunched
    cases hlaunched
  cases hs with
  | arms hphase => exact hnot (Or.inl hphase)
  | launches hphase => exact hnot (Or.inr hphase)
  | @acts a loop hphase hloop =>
    refine ⟨h.launched, h.shut.step hloop ?_⟩
    cases a with
    | close order => rfl
    | _ => exact (Bool.not_eq_true' _).mp hok
  | finishes _ => exact ⟨rfl, h.shut⟩
  | stops _ => exact h.requestStop

theorem closed_of_close {order : List ℕ} (hs : wk.Steps role (.act (.close order)) wk')
    (hok : wk.inTime role (.act (.close order)) = true) : wk'.Closed := by
  cases hs with
  | acts hphase hloop =>
    exact ⟨launched_of_running hphase, shut_of_close ((Bool.not_eq_true' _).mp hok) hloop⟩

end Worker

/-- **A stop in time is complete.**  In every run of a worker whose closing finds the listener
    open and in which no connection is taken in after it: once the closing has run, the
    listener and all sessions are closed, and none of them is opened any more. -/
theorem stop_complete (role : ServerRole) (protocol : Protocol) {seen : List Unit} {wk : Worker}
    (hr : Machine.Trace (Worker.step role) Worker.closing
      (fun wk l => wk.inTime role l = true) { protocol } seen wk) (hseen : seen ≠ []) :
    ∀ c ∈ wk.loop.cos, c.isOpen (script role) = false := by
  have hclosed : seen ≠ [] → wk.Closed := by
    clear hseen
    induction hr with
    | init => exact fun hseen => absurd rfl hseen
    | @step seen wk wk' l _ hok hs ih =>
      intro hseen
      have hsteps := Worker.steps_of_step hs
      cases hclosing : wk.closing l with
      | none =>
        rw [hclosing] at hseen
        exact (ih hseen).step hsteps hok
      | some u =>
        unfold Worker.closing at hclosing
        split at hclosing
        · exact Worker.closed_of_close hsteps hok
        · cases hclosing
  exact fun c hc => (hclosed hseen).shut.isOpen (script role) hc

/-- A worker is stopped that has a client; another one comes too late, and is refused. -/
def stopRun : List WorkerLabel :=
  [.arm, .launch, .act .begin, .act (.arrive 0), .act (.resume (some (.accept, false))),
    .act .begin, .stop, .act (.arrive 0), .act (.close [1, 0]),
    .act (.resume (some (.accept, true))), .act (.resume none), .act (.resume none), .finish]

theorem stop_complete_stopRun :
    ∃ seen wk, Machine.watch (Machine.guarded (Worker.step .login) (Worker.inTime .login))
        Worker.closing [] { protocol := .tcp } stopRun = some (seen, wk) ∧ seen ≠ [] ∧
      ∀ c ∈ wk.loop.cos, c.isOpen (script .login) = false := by
  have hrun : ((Machine.watch (Machine.guarded (Worker.step .login) (Worker.inTime .login))
      Worker.closing [] { protocol := .tcp } stopRun).map fun x => decide (x.1 ≠ [])) =
        some true := by decide +kernel
  obtain ⟨⟨seen, wk⟩, hwatch, hseen⟩ := Option.map_eq_some_iff.mp hrun
  exact ⟨seen, wk, hwatch, of_decide_eq_true hseen,
    stop_complete .login .tcp (.of_watch .init hwatch) (of_decide_eq_true hseen)⟩

/-- The stop comes before the worker has got to its listener. -/
def stopEarlyRun : List WorkerLabel :=
  [.stop, .arm, .launch, .act (.close [0]), .act .begin]

/-- Its listener then: it was opened after the closing. -/
def lateListener : Coroutine Point := { point := .accept, status := .waiting }

theorem stop_incomplete :
    ¬ ∀ (role : ServerRole) (protocol : Protocol) (seen : List Unit) (wk : Worker),
      Machine.Trace (Worker.step role) Worker.closing (fun _ _ => True) { protocol } seen wk →
        seen ≠ [] → ∀ c ∈ wk.loop.cos, c.isOpen (script role) = false := by
  intro h
  have hrun : Machine.watch (Machine.guarded (Worker.step .login) fun _ _ => true)
      Worker.closing [] { protocol := .tcp } stopEarlyRun = some ([()], {
        protocol := .tcp, phase := .running, stopRequested := true
        loop := { cos := [lateListener] } }) := by decide +kernel
  have hopen := h .login .tcp _ _ (Machine.Trace.of_watch .init hrun |>.mono fun _ _ _ => trivial)
    (List.cons_ne_nil _ _) lateListener List.mem_cons_self
  cases hopen

/-- A client that is accepted when the closing is in the queue gets a session after it. -/
example : (Machine.watch (Worker.step .login) Worker.closing [] { protocol := .tcp }
    [.arm, .launch, .act .begin, .stop, .act (.arrive 0), .act (.close [0]),
      .act (.resume (some (.accept, false)))]).map
        (fun x => (x.1, x.2.loop.cos.map (Coroutine.isOpen (script .login)))) =
    some ([()], [false, true]) := by decide +kernel

end Netsrv.Process
