/-
  `Server::datagram_loop` with `WorldUdpHandler`: each worker sends every datagram back to where
  it came from.

  A worker has one buffer and one `sender` for all its datagrams.  The handler is given the two
  by reference, and what it sends is what they hold when the kernel takes it.  Any number of
  workers share the port; which of them a datagram comes to is a label, as are the errors of
  `async_receive_from` and of `async_send_to`.  `read` is not in the program: it records the
  datagrams that the loop has received.

  * `Echoes`: what a worker has sent, and still owes, for what it has received.
  * `echo_faithful`: no worker sends anything but the datagrams it was sent, in their order, and
    all workers together send to nobody more than came from there.
  * `backlog_answered`: what has come to an open socket can be answered.
-/
import Netsrv.Lib.Buffer
import Netsrv.Lib.Machine
import Netsrv.Net.ByteIo
import Mathlib.Algebra.Order.BigOperators.Group.Finset
import Mathlib.Algebra.Order.BigOperators.Group.List

namespace Netsrv.Datagram

open Buffer ByteCodec

variable {ε : Type}

/-- A datagram with the endpoint it comes from, or goes to. -/
structure Packet (ε : Type) where
  peer : ε
  payload : Bytes
  deriving DecidableEq, Repr

inductive Point where
  | receiving
  /-- In `on_datagram`, with the first `n` bytes of the buffer. -/
  | sending (n : ℕ)
  | ended
  deriving DecidableEq, Repr

structure Loop (ε : Type) where
  /-- What has come to the socket and has not been received. -/
  socket : List (Packet ε) := []
  closed : Bool := false
  buffer : Bytes
  sender : ε
  point : Point := .receiving
  read : List (Packet ε) := []
  sent : List (Packet ε) := []
  deriving DecidableEq, Repr

/-- The start of `datagram_loop`: `sender` is an endpoint that nothing has been written to. -/
def Loop.new (readBufferBytes : ℕ) (sender : ε) : Loop ε where
  buffer := List.replicate readBufferBytes 0
  sender := sender

inductive Event (ε : Type) where
  | arrives (p : Packet ε)
  | receives
  | receiveFails
  | sends
  | sendFails
  /-- The stop callback closes the socket. -/
  | closes
  deriving DecidableEq, Repr

def step (s : Loop ε) : Event ε → Option (Loop ε)
  | .arrives p => if s.closed then none else some { s with socket := s.socket ++ [p] }
  | .receives =>
    match s.point, s.closed, s.socket with
    | .receiving, false, p :: socket =>
      -- what does not fit is lost
      let data := p.payload.take s.buffer.length
      some { s with
        socket
        buffer := overwrite s.buffer 0 data
        sender := p.peer
        point := .sending data.length
        read := s.read ++ [p] }
    | _, _, _ => none
  | .receiveFails =>
    match s.point with
    | .receiving => some { s with point := .ended }
    | _ => none
  | .sends =>
    match s.point, s.closed with
    | .sending n, false =>
      some { s with
        point := .receiving
        sent := s.sent ++ [{ peer := s.sender, payload := s.buffer.take n }] }
    | _, _ => none
  | .sendFails =>
    match s.point with
    | .sending _ => some { s with point := .receiving }
    | _ => none
  | .closes => some { s with closed := true }

/-! ## What a step can do -/

inductive Step (s : Loop ε) : Event ε → Loop ε → Prop
  | arrives (p : Packet ε) : Step s (.arrives p) { s with socket := s.socket ++ [p] }
  | receives {p : Packet ε} {socket : List (Packet ε)} : s.point = .receiving →
      s.socket = p :: socket → Step s .receives
      { s with
        socket
        buffer := overwrite s.buffer 0 (p.payload.take s.buffer.length)
        sender := p.peer
        point := .sending (p.payload.take s.buffer.length).length
        read := s.read ++ [p] }
  | receiveFails : s.point = .receiving → Step s .receiveFails { s with point := .ended }
  | sends {n : ℕ} : s.point = .sending n → Step s .sends
      { s with
        point := .receiving
        sent := s.sent ++ [{ peer := s.sender, payload := s.buffer.take n }] }
  | sendFails {n : ℕ} : s.point = .sending n → Step s .sendFails { s with point := .receiving }
  | closes : Step s .closes { s with closed := true }

theorem step_cases {s s' : Loop ε} {e : Event ε} (h : step s e = some s') : Step s e s' := by
  cases e with
  | arrives p =>
    rw [step] at h
    split at h
    · cases h
    · obtain rfl := Option.some.inj h
      exact .arrives p
  | receives =>
    rw [step] at h
    split at h
    · next hpoint _ hsocket =>
      obtain rfl := Option.some.inj h
      exact .receives hpoint hsocket
    · cases h
  | receiveFails =>
    rw [step] at h
    split at h
    · next hpoint =>
      obtain rfl := Option.some.inj h
      exact .receiveFails hpoint
    · cases h
  | sends =>
    rw [step] at h
    split at h
    · next hpoint _ =>
      obtain rfl := Option.some.inj h
      exact .sends hpoint
    · cases h
  | sendFails =>
    rw [step] at h
    split at h
    · next hpoint =>
      obtain rfl := Option.some.inj h
      exact .sendFails hpoint
    · cases h
  | closes =>
    obtain rfl := Option.some.inj h
    exact .closes

/-! ## One worker -/

/-- The datagram as the loop receives it. -/
def Packet.cut (readBufferBytes : ℕ) (p : Packet ε) : Packet ε :=
  { p with payload := p.payload.take readBufferBytes }

/-- The reply that the handler is at. -/
def Loop.pending (s : Loop ε) : List (Packet ε) :=
  match s.point with
  | .sending n => [{ peer := s.sender, payload := s.buffer.take n }]
  | _ => []

/-- The datagrams that come to the socket. -/
def arrivals (es : List (Event ε)) : List (Packet ε) :=
  es.filterMap fun
    | .arrives p => some p
    | _ => none

/-- What the worker has made of its datagrams.  Replies are lost where `async_send_to` fails. -/
structure Echoes (readBufferBytes : ℕ) (es : List (Event ε)) (s : Loop ε) : Prop where
  buffer : s.buffer.length = readBufferBytes
  arrived : arrivals es = s.read ++ s.socket
  sublist : (s.sent ++ s.pending).Sublist (s.read.map (Packet.cut readBufferBytes))
  complete : .sendFails ∉ es → s.sent ++ s.pending = s.read.map (Packet.cut readBufferBytes)

variable {readBufferBytes : ℕ} {es : List (Event ε)} {e : Event ε} {s s' : Loop ε}

theorem arrivals_append (es es' : List (Event ε)) :
    arrivals (es ++ es') = arrivals es ++ arrivals es' :=
  List.filterMap_append

theorem pending_of_receiving (h : s.point = .receiving) : s.pending = [] := by
  rw [Loop.pending, h]

/-- What a datagram leaves in the buffer is the datagram. -/
theorem take_received (buffer payload : Bytes) :
    (overwrite buffer 0 (payload.take buffer.length)).take (payload.take buffer.length).length =
      payload.take buffer.length := by
  have hfit : 0 + (payload.take buffer.length).length ≤ buffer.length := by
    rw [List.length_take]
    omega
  have htake := take_overwrite hfit
  rwa [Nat.zero_add] at htake

theorem buffer_step (hstep : step s e = some s') : s'.buffer.length = s.buffer.length := by
  cases step_cases hstep with
  | @receives p socket _ _ =>
    refine length_overwrite ?_
    rw [List.length_take]
    omega
  | arrives | receiveFails | sends | sendFails | closes => rfl

theorem echoes_step (h : Echoes readBufferBytes es s) (hstep : step s e = some s') :
    Echoes readBufferBytes (es ++ [e]) s' := by
  have hmore (hnone : arrivals [e] = []) : arrivals (es ++ [e]) = s.read ++ s.socket := by
    rw [arrivals_append, hnone, List.append_nil]
    exact h.arrived
  have hcomplete (hall : .sendFails ∉ es ++ [e]) :
      s.sent ++ s.pending = s.read.map (Packet.cut readBufferBytes) :=
    h.complete fun hmem => hall (List.mem_append_left _ hmem)
  cases step_cases hstep with
  | arrives p =>
    refine ⟨h.buffer, ?_, h.sublist, hcomplete⟩
    rw [arrivals_append, h.arrived, List.append_assoc]
    rfl
  | @receives p socket hpoint hsocket =>
    -- the reply that is pending now is the datagram
    have hpending : [(⟨p.peer, (overwrite s.buffer 0 (p.payload.take s.buffer.length)).take
        (p.payload.take s.buffer.length).length⟩ : Packet ε)] =
        [p].map (Packet.cut readBufferBytes) := by
      rw [take_received, h.buffer]
      rfl
    have hsub := h.sublist
    rw [pending_of_receiving hpoint, List.append_nil] at hsub
    refine ⟨(buffer_step hstep).trans h.buffer, ?_, ?_, fun hall => ?_⟩
    · rw [hmore rfl, hsocket]
      exact (List.append_assoc _ [p] _).symm
    · rw [Loop.pending]
      dsimp only
      rw [hpending, List.map_append]
      exact hsub.append_right _
    · have hall := hcomplete hall
      rw [pending_of_receiving hpoint, List.append_nil] at hall
      rw [Loop.pending]
      dsimp only
      rw [hpending, List.map_append, hall]
  | receiveFails hpoint =>
    have hsub := h.sublist
    rw [pending_of_receiving hpoint] at hsub hcomplete
    exact ⟨h.buffer, hmore rfl, hsub, hcomplete⟩
  | sends hpoint =>
    have hsub := h.sublist
    rw [Loop.pending, hpoint] at hsub hcomplete
    refine ⟨h.buffer, hmore rfl, ?_, fun hall => ?_⟩
    · rw [pending_of_receiving rfl, List.append_nil]
      exact hsub
    · rw [pending_of_receiving rfl, List.append_nil]
      exact hcomplete hall
  | sendFails hpoint =>
    refine ⟨h.buffer, hmore rfl, ?_, fun hall => ?_⟩
    · rw [pending_of_receiving rfl, List.append_nil]
      exact (List.sublist_append_left _ _).trans h.sublist
    · exact absurd (List.mem_append_right es (List.mem_singleton.mpr rfl)) hall
  | closes => exact ⟨h.buffer, hmore rfl, h.sublist, hcomplete⟩

theorem echoes {sender : ε} (h : Machine.run step (Loop.new readBufferBytes sender) es = some s) :
    Echoes readBufferBytes es s :=
  Machine.run_induction
    ⟨List.length_replicate, rfl, List.Sublist.refl _, fun _ => rfl⟩
    (fun _ _ _ _ _ hechoes hstep => echoes_step hechoes hstep) h

/-! ## All workers -/

section Volume

variable [DecidableEq ε] {w : ℕ → ℕ} {x : ε}

/-- What the datagrams of an endpoint weigh, by their length: `1` counts them, `id` counts their
    bytes, and the headers may be added to these. -/
def volume (w : ℕ → ℕ) (x : ε) (ps : List (Packet ε)) : ℕ :=
  ((ps.filter (·.peer = x)).map fun p => w p.payload.length).sum

theorem volume_append (w : ℕ → ℕ) (x : ε) (ps qs : List (Packet ε)) :
    volume w x (ps ++ qs) = volume w x ps + volume w x qs := by
  rw [volume, List.filter_append, List.map_append, List.sum_append]
  rfl

theorem volume_sublist {ps qs : List (Packet ε)} (h : ps.Sublist qs) (w : ℕ → ℕ) (x : ε) :
    volume w x ps ≤ volume w x qs :=
  ((h.filter _).map _).sum_le_sum fun _ _ => Nat.zero_le _

/-- What is cut off weighs nothing. -/
theorem volume_cut (hw : Monotone w) (x : ε) (ps : List (Packet ε)) :
    volume w x (ps.map (Packet.cut readBufferBytes)) ≤ volume w x ps := by
  rw [volume, List.filter_map, List.map_map]
  refine List.sum_le_sum fun p _ => hw ?_
  rw [Packet.cut, List.length_take]
  exact Nat.min_le_right _ _

/-- What comes to the sockets of all workers comes to the port. -/
theorem sum_volume_own {ι : Type} [DecidableEq ι] [Fintype ι] (w : ℕ → ℕ) (x : ε)
    (ls : List (ι × Event ε)) :
    ∑ i, volume w x (arrivals (Machine.own i ls)) = volume w x (arrivals (ls.map Prod.snd)) := by
  have hsum (es : List (Event ε)) :
      volume w x (arrivals es) = (es.map fun e => volume w x (arrivals [e])).sum := by
    induction es with
    | nil => rfl
    | cons e es ih =>
      rw [List.map_cons, List.sum_cons, ← ih, ← volume_append, ← arrivals_append]
      rfl
  calc ∑ i, volume w x (arrivals (Machine.own i ls))
      = ∑ i, ((Machine.own i ls).map fun e => volume w x (arrivals [e])).sum :=
        Finset.sum_congr rfl fun i _ => hsum _
    _ = (ls.map fun l => volume w x (arrivals [l.2])).sum := Machine.sum_own _ ls
    _ = volume w x (arrivals (ls.map Prod.snd)) := by
      rw [hsum, List.map_map]
      rfl

end Volume

/-- **Every worker sends what it was sent, in that order and nothing twice**, without a gap if
    no `async_send_to` fails; and the workers together send to no endpoint more, in number or in
    bytes, than the port was sent from there. -/
theorem echo_faithful {ι : Type} [DecidableEq ι] [Fintype ι] [DecidableEq ε] {sender : ε}
    {ls : List (ι × Event ε)} {s : ι → Loop ε}
    (h : Machine.run (Machine.many step) (fun _ => Loop.new readBufferBytes sender) ls = some s) :
    (∀ i, (s i).sent.Sublist ((arrivals (Machine.own i ls)).map (Packet.cut readBufferBytes))) ∧
      (∀ i, .sendFails ∉ Machine.own i ls →
        (s i).sent <+: (arrivals (Machine.own i ls)).map (Packet.cut readBufferBytes)) ∧
      ∀ (w : ℕ → ℕ), Monotone w → ∀ x,
        ∑ i, volume w x (s i).sent ≤ volume w x (arrivals (ls.map Prod.snd)) := by
  have hechoes (i : ι) := echoes (Machine.run_of_many h i)
  have hread (i : ι) : (s i).read <+: arrivals (Machine.own i ls) := ⟨_, (hechoes i).arrived.symm⟩
  have hsub (i : ι) :
      (s i).sent.Sublist ((arrivals (Machine.own i ls)).map (Packet.cut readBufferBytes)) :=
    (List.sublist_append_left _ _).trans
      ((hechoes i).sublist.trans ((hread i).sublist.map _))
  refine ⟨hsub, fun i hall => ?_, fun w hw x => ?_⟩
  · exact (List.prefix_append _ _).trans ((hechoes i).complete hall ▸ (hread i).map _)
  · rw [← sum_volume_own]
    exact Finset.sum_le_sum fun i _ => (volume_sublist (hsub i) w x).trans (volume_cut hw x _)

/-- Two workers with two bytes each: one cuts a datagram and then loses a reply, the other has
    still to send its own. -/
def twoWorkers : List (Bool × Event ℕ) :=
  [(true, .arrives ⟨7, [1, 2, 3]⟩), (false, .arrives ⟨8, [4]⟩), (true, .receives), (true, .sends),
    (false, .receives), (true, .arrives ⟨7, [5]⟩), (true, .receives), (true, .sendFails)]

theorem echo_faithful_twoWorkers : ∃ s : Bool → Loop ℕ,
    Machine.run (Machine.many step) (fun _ => Loop.new 2 0) twoWorkers = some s ∧
      (s true).sent.Sublist [⟨7, [1, 2]⟩, ⟨7, [5]⟩] ∧ (s false).sent <+: [⟨8, [4]⟩] ∧
      ∑ i, volume id 7 (s i).sent ≤ 4 := by
  obtain ⟨s, hrun⟩ := Option.isSome_iff_exists.mp
    (rfl : (Machine.run (Machine.many step) (fun _ => Loop.new 2 0) twoWorkers).isSome = true)
  have h := echo_faithful hrun
  exact ⟨s, hrun, h.1 true, h.2.1 false (by decide), h.2.2 id monotone_id 7⟩

/-! ## What has not been answered -/

/-- The replies that the worker owes, if nothing more comes. -/
def Loop.owed (readBufferBytes : ℕ) (s : Loop ε) : List (Packet ε) :=
  s.pending ++ s.socket.map (Packet.cut readBufferBytes)

/-- The next datagram is received and sent back. -/
theorem run_answer {p : Packet ε} {socket : List (Packet ε)}
    (hbuffer : s.buffer.length = readBufferBytes) (hpoint : s.point = .receiving)
    (hopen : s.closed = false) (hsocket : s.socket = p :: socket) :
    ∃ t : Loop ε, Machine.run step s [.receives, .sends] = some t ∧
      t.buffer.length = readBufferBytes ∧ t.point = .receiving ∧ t.closed = false ∧
      t.socket = socket ∧ t.sent = s.sent ++ [p.cut readBufferBytes] := by
  have hfit : 0 + (p.payload.take s.buffer.length).length ≤ s.buffer.length := by
    rw [List.length_take]
    omega
  have hreceive : step s .receives = some { s with
      socket
      buffer := overwrite s.buffer 0 (p.payload.take s.buffer.length)
      sender := p.peer
      point := .sending (p.payload.take s.buffer.length).length
      read := s.read ++ [p] } := by
    rw [step, hpoint, hopen, hsocket]
  rw [Machine.run, hreceive, Option.bind_some, Machine.run, step]
  dsimp only
  rw [hopen]
  refine ⟨_, rfl, hbuffer ▸ length_overwrite hfit, rfl, rfl, rfl, ?_⟩
  dsimp only
  rw [take_received, hbuffer]
  rfl

theorem run_answers (hbuffer : s.buffer.length = readBufferBytes) (hpoint : s.point = .receiving)
    (hopen : s.closed = false) :
    ∃ es t, (∀ e ∈ es, e = .receives ∨ e = .sends) ∧ Machine.run step s es = some t ∧
      t.point = .receiving ∧ t.socket = [] ∧
      t.sent = s.sent ++ s.socket.map (Packet.cut readBufferBytes) := by
  induction hsocket : s.socket generalizing s with
  | nil => exact ⟨[], s, nofun, rfl, hpoint, hsocket, (List.append_nil _).symm⟩
  | cons p socket ih =>
    obtain ⟨u, hrun, hbuffer', hpoint', hopen', hsocket', hsent⟩ :=
      run_answer hbuffer hpoint hopen hsocket
    obtain ⟨es, t, hes, hrest, hend, hempty, hall⟩ := ih hbuffer' hpoint' hopen' hsocket'
    refine ⟨[.receives, .sends] ++ es, t, ?_, ?_, hend, hempty, ?_⟩
    · intro e he
      rcases List.mem_append.mp he with he | he
      · simpa using he
      · exact hes e he
    · rw [Machine.run_append hrun]
      exact hrest
    · rw [hall, hsent, List.append_assoc]
      rfl

/-- **What has come to an open socket can be answered**, all of it and in its order. -/
theorem backlog_answered {sender : ε}
    (h : Machine.Reachable step (Loop.new readBufferBytes sender) s) (hopen : s.closed = false)
    (hpoint : s.point ≠ .ended) :
    ∃ es t, (∀ e ∈ es, e = .receives ∨ e = .sends) ∧ Machine.run step s es = some t ∧
      t.point = .receiving ∧ t.socket = [] ∧ t.sent = s.sent ++ s.owed readBufferBytes := by
  have hbuffer : s.buffer.length = readBufferBytes :=
    h.invariant (I := fun s => s.buffer.length = readBufferBytes) List.length_replicate
      fun _ _ _ hbuffer _ hstep => (buffer_step hstep).trans hbuffer
  cases hp : s.point with
  | receiving =>
    rw [Loop.owed, pending_of_receiving hp]
    exact run_answers hbuffer hp hopen
  | sending n =>
    have hsend : step s .sends = some { s with
        point := .receiving
        sent := s.sent ++ [{ peer := s.sender, payload := s.buffer.take n }] } := by
      rw [step, hp, hopen]
    obtain ⟨es, t, hes, hrest, hend, hempty, hall⟩ :=
      run_answers (s := { s with
        point := .receiving
        sent := s.sent ++ [{ peer := s.sender, payload := s.buffer.take n }] }) hbuffer rfl hopen
    refine ⟨.sends :: es, t, List.forall_mem_cons.mpr ⟨Or.inr rfl, hes⟩, ?_, hend, hempty, ?_⟩
    · rw [Machine.run, hsend]
      exact hrest
    · rw [hall, List.append_assoc, Loop.owed, Loop.pending, hp]
  | ended => exact absurd hp hpoint

/-- A worker with a reply under way and one datagram in the socket. -/
def replying : Loop ℕ where
  socket := [⟨8, [4]⟩]
  buffer := [1, 2]
  sender := 7
  point := .sending 2
  read := [⟨7, [1, 2, 3]⟩]

theorem backlog_answered_replying : ∃ (es : List (Event ℕ)) (t : Loop ℕ),
    (∀ e ∈ es, e = .receives ∨ e = .sends) ∧ Machine.run step replying es = some t ∧
      t.point = .receiving ∧ t.socket = [] ∧ t.sent = [⟨7, [1, 2]⟩, ⟨8, [4]⟩] :=
  backlog_answered (.of_run .init (rfl : Machine.run step (Loop.new 2 0)
    [.arrives ⟨7, [1, 2, 3]⟩, .arrives ⟨8, [4]⟩, .receives] = some replying)) rfl nofun

end Netsrv.Datagram
