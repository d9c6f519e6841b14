/-
  The threads of a Login or World process: `run_login` and `run_world` of `main.cpp`, the
  workers of `server.hpp`, and where the coroutine of a session waits.

  The orchestrator thread runs its own loop, in which the store's answers arrive for all
  sessions of the process, until a signal arrives; the handler of the signal stops one
  server after the other, joining its workers, in that same thread.  A worker registers its
  stop callback, spawns the coroutine that accepts connections or receives datagrams, and
  runs its loop until every coroutine is done.  The callback posts the closing of all
  sockets; if the stop was requested before it was registered, it runs at registration.

  `close_all` walks its sessions in any order.  What a handler does between two waits is one
  step; which way it takes is in the label.
-/
import Netsrv.Lib.EventLoop
import Netsrv.Net.ServerRole

namespace Netsrv.Process

open EventLoop

/-! ## Where coroutines wait -/

inductive Point where
  /-- `accept_loop` -/
  | accept
  /-- `datagram_loop` -/
  | receive | reply
  /-- `LoginHandler`: for a hello, in `handle_hello`, for a proof, in `handle_proof`, after it. -/
  | hello | ticketTake | errorSend | challengeSend
  | proof | tokenPut | proofSend | listWorlds | worldListSend | done
  /-- `WorldHandler`: for the token, in its `Take`, after it. -/
  | token | tokenTake | playing | replySend
  deriving DecidableEq, Repr

def Point.kind : Point → Kind
  | accept | receive => .listen
  | hello | proof | done | token | playing => .read
  | reply | errorSend | challengeSend | proofSend | worldListSend | replySend => .send
  | ticketTake | tokenPut | listWorlds | tokenTake => .foreign

/-- The ways of the handlers.  A session that is refused closes and goes back to read; a
    connection may be refused for there are too many. -/
def Point.next : Point → List (Point × Bool)
  | accept => [(accept, false), (accept, true)]
  | receive => [(reply, false)]
  | reply => [(receive, false)]
  | hello => [(ticketTake, false), (hello, true)]
  | ticketTake => [(hello, true), (errorSend, false), (challengeSend, false)]
  | errorSend => [(hello, true), (proof, true)]
  | challengeSend => [(proof, false)]
  | proof => [(proof, true), (errorSend, false), (tokenPut, false)]
  | tokenPut => [(proofSend, false)]
  | proofSend => [(listWorlds, false)]
  | listWorlds => [(worldListSend, false)]
  | worldListSend => [(done, false)]
  | done => [(done, true)]
  | token => [(tokenTake, false)]
  | tokenTake => [(token, true), (playing, false)]
  | playing => [(playing, false), (replySend, false)]
  | replySend => [(playing, false)]

/-- `Session::send` closes the session on an error, a UDP reply nothing.  `Session::run` ends
    on an exception; the loops that listen throw none. -/
def script (role : ServerRole) : Script Point where
  kind := Point.kind
  next := Point.next
  accepts := fun p => decide (p = .accept)
  closes := fun p => decide (p ≠ .reply)
  throws := fun p => decide (p ∉ [.accept, .receive, .reply])
  first := if role = .world then .token else .hello
  next_ne_nil := fun p => by cases p <;> exact List.cons_ne_nil _ _
  kind_of_accepts := fun p hp => by rw [of_decide_eq_true hp]; rfl
  kind_first := by split <;> rfl
  next_first := by split <;> decide

/-! ## Workers -/

inductive Protocol where
  | tcp | udp
  deriving DecidableEq, Repr

/-- Where a server waits for whoever comes. -/
def Protocol.listens : Protocol → Point
  | tcp => .accept
  | udp => .receive

/-- `run_worker_impl`: before its `stop_callback`, before its `co_spawn`, in `run()`, after. -/
inductive Phase where
  | created | armed | running | finished
  deriving DecidableEq, Repr

structure Worker where
  protocol : Protocol
  phase : Phase := .created
  stopRequested : Bool := false
  loop : Loop Point := {}
  deriving DecidableEq, Repr

/-- `request_stop()`: the callback, if there is one, posts the closing. -/
def Worker.requestStop (wk : Worker) : Worker :=
  { wk with
    stopRequested := true
    loop := if wk.phase = .armed ∨ wk.phase = .running then wk.loop.closeLater else wk.loop }

/-- The worker has spawned the coroutine that listens. -/
def Worker.launched (wk : Worker) : Bool :=
  decide (wk.phase = .running) || decide (wk.phase = .finished)

/-- A session waits for an answer of the store. -/
def Worker.asksStore (wk : Worker) : Bool :=
  wk.loop.cos.any fun c => decide (c.point.kind = .foreign ∧ c.status = .waiting)

/-! ## The process -/

/-- Where the orchestrator thread is: in `run()`, in `stop()` of the server of a protocol,
    joining worker `w`, or after. -/
inductive Orchestrator where
  | running
  | stopping (protocol : Protocol) (w : ℕ)
  | stopped
  deriving DecidableEq, Repr

structure State where
  workers : List Worker
  orchestrator : Orchestrator := .running
  deriving DecidableEq, Repr

/-- After `start()`: the TCP server has `n` workers and the UDP server, in World, `m`. -/
def initial (n m : ℕ) : State where
  workers := List.replicate n { protocol := .tcp } ++ List.replicate m { protocol := .udp }

inductive Label where
  | arm (w : ℕ)
  | launch (w : ℕ)
  | act (w : ℕ) (a : Act Point)
  | finish (w : ℕ)
  | signal
  | join

/-- A step of one of the threads: not the signal itself, and not what a peer does to a socket. -/
def Label.byThread : Label → Bool
  | arm _ | launch _ | finish _ | join => true
  | act _ a => a.own || a.answers
  | signal => false

/-- `Server::stop`: the stop is requested of all workers, and the first is joined. -/
def State.stop (s : State) (protocol : Protocol) (w : ℕ) : State where
  workers := s.workers.map fun wk => if wk.protocol = protocol then wk.requestStop else wk
  orchestrator := .stopping protocol w

/-- Worker `w` changes by itself. -/
def State.update (s : State) (w : ℕ) (f : Worker → Option Worker) : Option State :=
  ((s.workers[w]?).bind f).map fun wk => { s with workers := s.workers.set w wk }

def step (role : ServerRole) (s : State) : Label → Option State
  | .arm w => s.update w fun wk =>
    if wk.phase = .created then
      some { wk with
        phase := .armed
        loop := if wk.stopRequested then wk.loop.closeLater else wk.loop }
    else none
  | .launch w => s.update w fun wk =>
    if wk.phase = .armed then
      some { wk with
        phase := .running
        loop := { cos := [{ point := wk.protocol.listens, status := .fresh }]
                  queue := wk.loop.queue ++ [.begin 0] } }
    else none
  | .act w a =>
    -- the store's answers arrive in the orchestrator's own loop
    if a.answers = true ∧ s.orchestrator ≠ .running then none
    else s.update w fun wk =>
      if wk.phase = .running then
        (wk.loop.step (script role) a).map fun loop => { wk with loop }
      else none
  | .finish w => s.update w fun wk =>
    if wk.phase = .running ∧ wk.loop.queue = [] ∧
        (wk.loop.cos.all fun c => decide (c.status = .finished)) = true then
      some { wk with phase := .finished }
    else none
  | .signal =>
    match s.orchestrator, s.workers with
    | .running, wk :: _ => some (s.stop wk.protocol 0)
    | .running, [] => some { s with orchestrator := .stopped }
    | _, _ => none
  | .join =>
    match s.orchestrator with
    | .stopping protocol w =>
      match s.workers[w]? with
      | some wk =>
        if wk.phase = .finished then
          match s.workers[w + 1]? with
          | none => some { s with orchestrator := .stopped }
          | some next =>
            if next.protocol = protocol then
              some { s with orchestrator := .stopping protocol (w + 1) }
            else some (s.stop next.protocol (w + 1))
        else none
      | none => none
    | _ => none

end Netsrv.Process
