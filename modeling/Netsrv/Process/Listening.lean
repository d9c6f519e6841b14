/-
  The listening socket of a worker and the coroutine that serves it.

  `accept_loop` opens the acceptor, but `run_worker_impl` owns it: it is closed by the stop,
  or destroyed when `run()` returns, which is when no coroutine is left.  In between it is
  open whether the loop is still there or not, and the kernel goes on giving it a share of
  the connections.  `socketOpen` follows the socket; `Worker` says where the coroutine is.

  The loop ends on any error of an accept (or receive), so the worker keeps serving exactly
  as long as these succeed (`keeps_serving`); after one that fails, a session that is still
  there keeps the socket open (`stops_serving`).
-/
import Netsrv.Lib.EventLoopServing
import Netsrv.Process.WorkerStop

namespace Netsrv.Process

open EventLoop EventLoop.Loop

structure Listening where
  worker : Worker
  /-- The acceptor, or the socket of UDP, is open. -/
  socketOpen : Bool := false
  deriving DecidableEq, Repr

namespace Listening

/-- `accept_loop` (or `datagram_loop`) begins: it opens the socket. -/
def opens (wk : Worker) : WorkerLabel → Bool
  | .act .begin => wk.loop.queue.head? = some (.begin 0)
  | _ => false

/-- The posted handler closes the socket, and so does the end of `run_worker_impl`. -/
def shuts : WorkerLabel → Bool
  | .act (.close _) | .finish => true
  | _ => false

def step (role : ServerRole) (s : Listening) (l : WorkerLabel) : Option Listening :=
  (s.worker.step role l).map fun worker =>
    { worker, socketOpen := (s.socketOpen || opens s.worker l) && !shuts l }

/-- Whoever connects is taken in: an accept (or receive) is pending, or the loop is about to
    make one. -/
def Served (s : Listening) : Prop :=
  s.socketOpen = true → ∃ c, s.worker.loop.cos[0]? = some c ∧ c.status ≠ .finished

/-- Before the stop no accept and no receive fails. -/
def steady (role : ServerRole) (s : Listening) : WorkerLabel → Bool
  | .act a => s.worker.stopRequested || !s.worker.loop.listenFails (script role) a
  | _ => true

/-- Where the coroutines are that serve the socket. -/
def Serving (p : Point) : Prop := p = .accept ∨ p = .receive ∨ p = .reply

theorem lasting (role : ServerRole) : Lasting (script role) Serving where
  kind := by
    rintro p (rfl | rfl | rfl)
    · exact Or.inl rfl
    · exact Or.inl rfl
    · exact Or.inr rfl
  next := by
    rintro p (rfl | rfl | rfl) x hx
    · simp [script, Point.next] at hx
      rcases hx with rfl | rfl <;> exact Or.inl rfl
    · simp [script, Point.next] at hx
      exact Or.inr (Or.inr (by rw [hx]))
    · simp [script, Point.next] at hx
      exact Or.inr (Or.inl (by rw [hx]))
  open_next := by
    rintro p (rfl | rfl | rfl) haccepts x hx
    · cases haccepts
    · simp [script, Point.next] at hx
      rw [hx]
    · simp [script, Point.next] at hx
      rw [hx]
  closes := by
    rintro p (rfl | rfl | rfl) hsend
    · cases hsend
    · cases hsend
    · rfl
  throws := by
    rintro p (rfl | rfl | rfl) <;> rfl

/-- What holds of a worker before its stop. -/
structure Steady (role : ServerRole) (s : Listening) : Prop where
  before : s.worker.launched = false → s.socketOpen = false ∧ s.worker.loop.queue = []
  during : s.worker.phase = .running → s.worker.loop.Serves (script role) Serving 0
  after : s.worker.phase = .finished → s.socketOpen = false

variable {role : ServerRole} {s s' : Listening}

theorem Steady.served (h : Steady role s) : Served s := by
  intro hopen
  cases hphase : s.worker.phase with
  | running =>
    obtain ⟨c, hc, -, -, hlive, -⟩ := (h.during hphase).coroutine
    exact ⟨c, hc, hlive⟩
  | created =>
    rw [(h.before (not_launched (Or.inl hphase))).1] at hopen
    cases hopen
  | armed =>
    rw [(h.before (not_launched (Or.inr hphase))).1] at hopen
    cases hopen
  | finished =>
    rw [h.after hphase] at hopen
    cases hopen

/-- The loop of a worker that is launched has its listener, and nothing else. -/
theorem serves_launch (role : ServerRole) (protocol : Protocol) :
    Loop.Serves (script role) Serving 0
      { cos := [{ point := protocol.listens, status := .fresh }], queue := [.begin 0] } where
  noClosing := by simp
  coroutine := by
    refine ⟨_, rfl, ?_, rfl, nofun, fun hmem => by cases List.mem_singleton.mp hmem⟩
    cases protocol with
    | tcp => exact Or.inl rfl
    | udp => exact Or.inr (Or.inl rfl)

theorem Steady.step (h : Steady role s) (hwf : s.worker.Wf role)
    (hstop : s'.worker.stopRequested = false) {l : WorkerLabel}
    (hstep : s.step role l = some s') (hok : s.steady role l = true) : Steady role s' := by
  obtain ⟨wk, hwk, rfl⟩ := Option.map_eq_some_iff.mp hstep
  cases Worker.steps_of_step hwk with
  | arms hphase =>
    have hnot : s.worker.stopRequested = false := hstop
    obtain ⟨hclosed, hqueue⟩ := h.before (not_launched (Or.inl hphase))
    refine ⟨fun _ => ⟨by simp [hclosed, opens], ?_⟩, nofun, nofun⟩
    dsimp only
    rw [hnot, if_neg (by decide)]
    exact hqueue
  | launches hphase =>
    obtain ⟨-, hqueue⟩ := h.before (not_launched (Or.inr hphase))
    refine ⟨nofun, fun _ => ?_, nofun⟩
    dsimp only
    rw [hqueue]
    exact serves_launch role s.worker.protocol
  | @acts a loop hphase hloop =>
    have hnot : s.worker.stopRequested = false := hstop
    have hfails : s.worker.loop.listenFails (script role) a = false := by
      rw [steady, hnot, Bool.false_or, Bool.not_eq_true'] at hok
      exact hok
    have hphase' {q : Phase} (hq : q ≠ .running) : s.worker.phase ≠ q := fun heq =>
      hq (heq.symm.trans hphase)
    refine ⟨fun hlaunched => ?_, fun _ => ?_, fun hfinished => absurd hfinished (hphase' nofun)⟩
    · have hlaunched : s.worker.launched = false := hlaunched
      rw [launched_of_running hphase] at hlaunched
      cases hlaunched
    · exact (h.during hphase).step (lasting role) hwf.tidy hloop hfails
  | finishes _ => exact ⟨nofun, nofun, fun _ => by simp [shuts]⟩
  | stops _ => cases hstop

/-- What a worker starts with. -/
def initial (protocol : Protocol) : Listening where
  worker := { protocol }

theorem wf_initial (role : ServerRole) (protocol : Protocol) :
    Worker.Wf role { protocol } where
  tidy := ⟨List.nodup_nil, nofun, nofun, nofun, nofun, nofun, nofun⟩
  empty := fun _ => ⟨rfl, rfl⟩

theorem wf_step {wk wk' : Worker} {l : WorkerLabel} (h : wk.Wf role)
    (hs : wk.Steps role l wk') : wk'.Wf role := by
  cases hs with
  | arms hphase => exact h.step (.arms 0 hphase)
  | launches hphase => exact h.step (.launches 0 hphase)
  | acts hphase hloop => exact h.step (.acts 0 hphase hloop)
  | finishes _ => exact ⟨h.tidy, nofun⟩
  | stops _ => exact h.requestStop

/-- A stop is not taken back. -/
theorem stopRequested_step {wk wk' : Worker} {l : WorkerLabel} (hs : wk.Steps role l wk')
    (hnot : wk'.stopRequested = false) : wk.stopRequested = false := by
  cases hs with
  | arms _ | launches _ | acts _ _ | finishes _ => exact hnot
  | stops hnot' => exact hnot'

/-- **A worker keeps serving while it can accept.**  In every run in which no accept and no
    receive fails before the stop, whatever sessions open and close and however often the
    limit is hit: while the socket is open, the loop that serves it is there. -/
theorem keeps_serving (role : ServerRole) (protocol : Protocol) {s : Listening}
    (hr : Machine.Reach (step role) (fun s l => s.steady role l = true) (initial protocol) s)
    (hstop : s.worker.stopRequested = false) : Served s := by
  have hall : s.worker.Wf role ∧ (s.worker.stopRequested = false → Steady role s) := by
    refine hr.invariant (I := fun s => s.worker.Wf role ∧
      (s.worker.stopRequested = false → Steady role s)) ⟨wf_initial role protocol, fun _ => ?_⟩ ?_
    · exact ⟨fun _ => ⟨rfl, rfl⟩, nofun, nofun⟩
    · rintro s l s' ⟨hwf, hsteady⟩ hok hstep
      obtain ⟨wk, hwk, rfl⟩ := Option.map_eq_some_iff.mp hstep
      have hsteps := Worker.steps_of_step hwk
      refine ⟨wf_step hwf hsteps, fun hnot => ?_⟩
      exact (hsteady (stopRequested_step hsteps hnot)).step hwf hnot hstep hok
  exact (hall.2 hstop).served

/-- A session opens, a connection is refused, the session ends, and the next is accepted. -/
def busyRun : List WorkerLabel :=
  [.arm, .launch, .act .begin, .act (.arrive 0), .act (.resume (some (.accept, false))),
    .act .begin, .act (.arrive 0), .act (.resume (some (.accept, true))), .act (.fail 1),
    .act (.resume none), .act (.arrive 0)]

theorem keeps_serving_busyRun : ∃ s,
    Machine.run (Machine.guarded (step .login) (steady .login)) (initial .tcp) busyRun = some s ∧
      s.socketOpen = true ∧ Served s := by
  have hrun : ((Machine.run (Machine.guarded (step .login) (steady .login)) (initial .tcp)
      busyRun).map fun s => decide (s.socketOpen = true ∧ s.worker.stopRequested = false)) =
        some true := by decide +kernel
  obtain ⟨s, hs, hopen⟩ := Option.map_eq_some_iff.mp hrun
  have hboth := of_decide_eq_true hopen
  exact ⟨s, hs, hboth.1, keeps_serving .login .tcp (.of_run .init hs) hboth.2⟩

/-- One accept fails, for want of file descriptors say, while a session is there. -/
def failedAcceptRun : List WorkerLabel :=
  [.arm, .launch, .act .begin, .act (.arrive 0), .act (.resume (some (.accept, false))),
    .act .begin, .act (.fail 0), .act (.resume none)]

theorem stops_serving : ¬ ∀ (role : ServerRole) (protocol : Protocol) (s : Listening),
    Machine.Reachable (step role) (initial protocol) s → s.worker.stopRequested = false →
      Served s := by
  intro hall
  have hrun : Machine.run (step .login) (initial .tcp) failedAcceptRun = some
      { worker := { protocol := .tcp, phase := .running
                    loop := { cos := [{ point := .accept, status := .finished, closed := true },
                                      { point := .hello, status := .waiting }] } }
        socketOpen := true } := by decide +kernel
  obtain ⟨c, hc, hlive⟩ := hall .login .tcp _ (.of_run .init hrun) rfl rfl
  obtain rfl := Option.some.inj hc
  exact hlive rfl

end Listening

end Netsrv.Process
