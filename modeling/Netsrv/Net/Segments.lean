/-
  A session that reads its frames as TCP brings them, piece by piece and into one buffer.

  `SessionLife` reads a frame in one step.  In the program `async_read` fills `header_buf_`
  and then `buffer_` with whatever has arrived, any number of bytes at a time, the timer or
  a close may come in between, and `on_message` is given a span of the buffer, in which the
  next frame is written over this one.  `step` is that machine, and all but the reading is
  as in `SessionLife`.

  * `Sim`: where the two stand; `sim_step` is that each step here is a run there.
  * `segments_faithful`: the handler gets the frames of the stream, in their order, and the span
    shows each one for as long as its call lasts.
  * `frame_delivered`: a frame that has arrived gets there, wherever it was cut.
-/
import Netsrv.Lib.Buffer
import Netsrv.Net.FrameStream
import Netsrv.Net.SessionLife

namespace Netsrv.Segments

open Buffer ByteCodec Session SessionLife

/-! ## The machine -/

/-- How far `read_frame` has come.  `ready` is a frame that is complete, `failed` every `nullopt`;
    in both the coroutine has still to go on. -/
inductive Progress where
  | header (got : ℕ)
  | body (len got : ℕ)
  | ready (len : ℕ)
  | failed

/-- A session, `stream` being what has not been read from the socket, and `arrived` how much of
    it is there to be read. -/
structure Conn (ω : Type) extends State ω where
  arrived : ℕ := 0
  headerBuf : Bytes
  buffer : Bytes
  progress : Progress := .header 0

variable {σ ω ι ρ : Type}

/-- A new session: `buffer_.resize(max_frame_bytes_)`. -/
def Conn.new (maxFrameBytes : ℕ) (stream : Bytes) : Conn ω where
  stream := stream
  headerBuf := List.replicate kFrameHeaderSize 0
  buffer := List.replicate maxFrameBytes 0

/-- What `read_frame` makes of the header. -/
def afterHeader (maxFrameBytes : ℕ) (headerBuf : Bytes) : Progress :=
  let len := (fromNetwork (UInt32.ofNat (ofLE headerBuf))).toNat
  if len = 0 ∨ len > maxFrameBytes then .failed else .body len 0

/-- The pending `async_read` takes `n` bytes from the socket. -/
def Conn.fill (maxFrameBytes n : ℕ) (c : Conn ω) : Option (Conn ω) :=
  let data := c.stream.take n
  let c' := { c with stream := c.stream.drop n, arrived := c.arrived - n }
  match c.progress with
  | .header got =>
    if got + n ≤ kFrameHeaderSize then
      let headerBuf := overwrite c.headerBuf got data
      some { c' with
        headerBuf
        progress :=
          if got + n = kFrameHeaderSize then afterHeader maxFrameBytes headerBuf
          else .header (got + n) }
    else none
  | .body len got =>
    if got + n ≤ len then
      some { c' with
        buffer := overwrite c.buffer got data
        progress := if got + n = len then .ready len else .body len (got + n) }
    else none
  | .ready _ | .failed => none

inductive Event (ι ρ : Type) where
  /-- The kernel receives `n` more bytes. -/
  | arrives (n : ℕ)
  | fills (n : ℕ)
  /-- The pending `async_read` ends with an error. -/
  | fails
  | life (l : Label ι ρ)

def step (handler : Handler σ ω ι ρ) (maxFrameBytes : ℕ) (s : Option σ × Conn ω) :
    Event ι ρ → Option (Option σ × Conn ω)
  | .arrives n =>
    if s.2.arrived + n ≤ s.2.stream.length then
      some (s.1, { s.2 with arrived := s.2.arrived + n })
    else none
  | .fills n =>
    match s.2.point with
    | .reading =>
      if s.2.closed = false ∧ 0 < n ∧ n ≤ s.2.arrived then
        (s.2.fill maxFrameBytes n).map fun c => (s.1, c)
      else none
    | _ => none
  | .fails =>
    match s.2.point, s.2.progress with
    | .reading, .header _ | .reading, .body _ _ => some (s.1, { s.2 with progress := .failed })
    | _, _ => none
  | .life (.reads input) =>
    match s.2.point, s.2.progress with
    | .reading, .ready len =>
      let payload := s.2.buffer.take len
      let t := take handler { s.2.toState with calls := s.2.calls ++ [.onMessage payload] }
        .handling (handler.onMessage s.1 payload input)
      some (t.1, { s.2 with toState := t.2, progress := .header 0 })
    | .reading, .failed =>
      let t := leave handler s.1 s.2.toState
      some (t.1, { s.2 with toState := t.2 })
    | _, _ => none
  | .life l =>
    (SessionLife.step handler maxFrameBytes (s.1, s.2.toState) l).map fun t =>
      (t.1, { s.2 with toState := t.2 })

/-! ## What is in the buffers -/

/-- What the session has read of the frame it is at. -/
def Conn.taken (c : Conn ω) : Bytes :=
  match c.progress with
  | .header got => c.headerBuf.take got
  | .body _ got => c.headerBuf ++ c.buffer.take got
  | .ready len => c.headerBuf ++ c.buffer.take len
  | .failed => []

/-- What the header has announced is in the buffer or on its way into it. -/
def Conn.Announced (maxFrameBytes : ℕ) (c : Conn ω) : Prop :=
  match c.progress with
  | .header got => got < kFrameHeaderSize
  | .body len got => afterHeader maxFrameBytes c.headerBuf = .body len 0 ∧ got < len
  | .ready len => afterHeader maxFrameBytes c.headerBuf = .body len 0
  | .failed => True

/-- The buffers are as long as they were made, and hold what the progress says. -/
structure Conn.Wf (maxFrameBytes : ℕ) (c : Conn ω) : Prop where
  header : c.headerBuf.length = kFrameHeaderSize
  buffer : c.buffer.length = maxFrameBytes
  arrived : c.arrived ≤ c.stream.length
  announced : c.Announced maxFrameBytes

variable {handler : Handler σ ω ι ρ} {maxFrameBytes n : ℕ} {c c' : Conn ω}

theorem afterHeader_eq {headerBuf : Bytes} {len : ℕ}
    (h : afterHeader maxFrameBytes headerBuf = .body len 0) :
    len = (fromNetwork (UInt32.ofNat (ofLE headerBuf))).toNat ∧ 0 < len ∧ len ≤ maxFrameBytes := by
  unfold afterHeader at h
  dsimp only at h
  split at h
  · cases h
  · next hlen =>
    obtain ⟨rfl, -⟩ := Progress.body.inj h
    exact ⟨rfl, by omega, by omega⟩

/-- A complete frame is the one that `readFrame` reads. -/
theorem readFrame_of_announced {headerBuf payload : Bytes}
    (hheader : headerBuf.length = kFrameHeaderSize)
    (h : afterHeader maxFrameBytes headerBuf = .body payload.length 0) (rest : Bytes) :
    readFrame maxFrameBytes (headerBuf ++ payload ++ rest) = some (payload, rest) := by
  obtain ⟨hlen, hpos, hmax⟩ := afterHeader_eq h
  have htake : (headerBuf ++ (payload ++ rest)).take kFrameHeaderSize = headerBuf :=
    List.take_left' hheader
  have hdrop : (headerBuf ++ (payload ++ rest)).drop kFrameHeaderSize = payload ++ rest :=
    List.drop_left' hheader
  rw [List.append_assoc, readFrame, if_neg (by rw [List.length_append]; omega)]
  dsimp only
  rw [htake, hdrop, ← hlen, if_neg (by omega), if_neg (by rw [List.length_append]; omega),
    List.take_left, List.drop_left]

theorem afterHeader_cases (maxFrameBytes : ℕ) (headerBuf : Bytes) :
    afterHeader maxFrameBytes headerBuf = .failed ∨
      ∃ len, afterHeader maxFrameBytes headerBuf = .body len 0 := by
  unfold afterHeader
  dsimp only
  split
  · exact Or.inl rfl
  · exact Or.inr ⟨_, rfl⟩

/-- The bytes that the pending read can take. -/
theorem Conn.Wf.length_data (hc : c.Wf maxFrameBytes) (hn : n ≤ c.arrived) :
    (c.stream.take n).length = n := by
  have harrived := hc.arrived
  rw [List.length_take]
  omega

theorem Conn.Wf.le_rest (hc : c.Wf maxFrameBytes) (hn : n ≤ c.arrived) :
    c.arrived - n ≤ (c.stream.drop n).length := by
  have harrived := hc.arrived
  rw [List.length_drop]
  omega

/-- What a step of the read leaves: the same bytes, some of them further on. -/
structure Filled (maxFrameBytes : ℕ) (c c' : Conn ω) : Prop where
  wf : c'.Wf maxFrameBytes
  bytes : c'.progress ≠ .failed → c'.taken ++ c'.stream = c.taken ++ c.stream
  point : c'.point = c.point
  calls : c'.calls = c.calls
  closed : c'.closed = c.closed

theorem Conn.Wf.fill_header (hc : c.Wf maxFrameBytes) (hn : n ≤ c.arrived) {got : ℕ}
    (hprogress : c.progress = .header got) (h : c.fill maxFrameBytes n = some c') :
    Filled maxFrameBytes c c' ∧ c'.buffer = c.buffer := by
  have hdata := hc.length_data hn
  have htaken : c.taken = c.headerBuf.take got := by rw [Conn.taken, hprogress]
  rw [Conn.fill, hprogress] at h
  dsimp only at h
  split at h
  · next hroom =>
    obtain rfl := Option.some.inj h
    have hfit : got + (c.stream.take n).length ≤ c.headerBuf.length := by
      rw [hdata, hc.header]
      exact hroom
    have hlen := (length_overwrite hfit).trans hc.header
    by_cases hfull : got + n = kFrameHeaderSize
    · have hwhole := overwrite_of_full (by rw [hdata, hc.header]; exact hfull :
        got + (c.stream.take n).length = c.headerBuf.length)
      rw [if_pos hfull]
      refine ⟨⟨⟨hlen, hc.buffer, hc.le_rest hn, ?_⟩, fun hok => ?_, rfl, rfl, rfl⟩, rfl⟩
      · rcases afterHeader_cases maxFrameBytes (overwrite c.headerBuf got (c.stream.take n)) with
          hfailed | ⟨len, hbody⟩
        · simp only [Conn.Announced, hfailed]
        · simp only [Conn.Announced, hbody, true_and]
          exact (afterHeader_eq hbody).2.1
      · rcases afterHeader_cases maxFrameBytes (overwrite c.headerBuf got (c.stream.take n)) with
          hfailed | ⟨len, hbody⟩
        · exact absurd hfailed hok
        · simp only [Conn.taken, hbody, List.take_zero, List.append_nil]
          rw [hwhole, hprogress, List.append_assoc, List.take_append_drop]
    · have htake := take_overwrite hfit
      rw [hdata] at htake
      rw [if_neg hfull]
      refine ⟨⟨⟨hlen, hc.buffer, hc.le_rest hn, ?_⟩, fun _ => ?_, rfl, rfl, rfl⟩, rfl⟩
      · exact (by omega : got + n < kFrameHeaderSize)
      · rw [Conn.taken, htaken]
        dsimp only
        rw [htake, List.append_assoc, List.take_append_drop]
  · cases h

theorem Conn.Wf.fill_body (hc : c.Wf maxFrameBytes) (hn : n ≤ c.arrived) {len got : ℕ}
    (hprogress : c.progress = .body len got) (h : c.fill maxFrameBytes n = some c') :
    Filled maxFrameBytes c c' := by
  have hdata := hc.length_data hn
  have htaken : c.taken = c.headerBuf ++ c.buffer.take got := by rw [Conn.taken, hprogress]
  have hannounced := hc.announced
  rw [Conn.Announced, hprogress] at hannounced
  obtain ⟨hbody, hgot⟩ := hannounced
  obtain ⟨-, -, hmax⟩ := afterHeader_eq hbody
  rw [Conn.fill, hprogress] at h
  dsimp only at h
  split at h
  · next hroom =>
    obtain rfl := Option.some.inj h
    have hfit : got + (c.stream.take n).length ≤ c.buffer.length := by
      rw [hdata, hc.buffer]
      omega
    have hlen := (length_overwrite hfit).trans hc.buffer
    have htake := take_overwrite hfit
    rw [hdata] at htake
    have hbytes : c.headerBuf ++ (overwrite c.buffer got (c.stream.take n)).take (got + n) ++
        c.stream.drop n = c.taken ++ c.stream := by
      rw [htake, htaken, List.append_assoc, List.append_assoc, List.append_assoc,
        List.take_append_drop]
    by_cases hfull : got + n = len
    · rw [if_pos hfull]
      rw [hfull] at hbytes
      exact ⟨⟨hc.header, hlen, hc.le_rest hn, hbody⟩, fun _ => hbytes, rfl, rfl, rfl⟩
    · rw [if_neg hfull]
      exact ⟨⟨hc.header, hlen, hc.le_rest hn, hbody, by omega⟩, fun _ => hbytes, rfl, rfl, rfl⟩
  · cases h

/-- The read moves bytes from the socket into the buffers, and does nothing else. -/
theorem Conn.Wf.fill (hc : c.Wf maxFrameBytes) (hn : n ≤ c.arrived)
    (h : c.fill maxFrameBytes n = some c') : Filled maxFrameBytes c c' := by
  cases hprogress : c.progress with
  | header got => exact (hc.fill_header hn hprogress h).1
  | body len got => exact hc.fill_body hn hprogress h
  | ready len =>
    rw [Conn.fill, hprogress] at h
    cases h
  | failed =>
    rw [Conn.fill, hprogress] at h
    cases h

/-! ## The session that reads a frame in one step -/

/-- A frame is complete and the coroutine has not gone on with it.  A close that comes now comes
    after the read. -/
def Conn.isReady (c : Conn ω) : Bool :=
  match c.point, c.progress with
  | .reading, .ready _ => true
  | _, _ => false

/-- The session is where the other one is, which has not begun to read this frame. -/
structure Sim (maxFrameBytes : ℕ) (c : Conn ω) (a : State ω) : Prop where
  wf : c.Wf maxFrameBytes
  /-- Where nothing is read, the read has not begun. -/
  rests : c.point ≠ .reading → c.point ≠ .ended → c.progress = .header 0
  point : a.point = c.point
  calls : a.calls = c.calls
  closed : a.closed = (c.closed && !c.isReady)
  stream : c.point ≠ .ended → c.progress ≠ .failed → a.stream = c.taken ++ c.stream

theorem sim_new (maxFrameBytes : ℕ) (stream : Bytes) :
    Sim maxFrameBytes (Conn.new maxFrameBytes stream : Conn ω) { stream } where
  wf := ⟨List.length_replicate, List.length_replicate, Nat.zero_le _,
    (by decide : 0 < kFrameHeaderSize)⟩
  rests _ _ := rfl
  point := rfl
  calls := rfl
  closed := rfl
  stream _ _ := rfl

/-- A session that reads nothing is the other one. -/
theorem Sim.eq_toState {a : State ω} (h : Sim maxFrameBytes c a) (hreading : c.point ≠ .reading)
    (hended : c.point ≠ .ended) : a = c.toState := by
  have hprogress := h.rests hreading hended
  have hready : c.isReady = false := by
    unfold Conn.isReady
    split
    · next hpoint _ => exact absurd hpoint hreading
    · rfl
  have hstream : a.stream = c.stream := by
    rw [h.stream hended (by rw [hprogress]; nofun), Conn.taken, hprogress]
    rfl
  have hclosed : a.closed = c.closed := by
    rw [h.closed, hready]
    exact Bool.and_true _
  calc a = ⟨a.stream, a.closed, a.point, a.calls⟩ := rfl
    _ = c.toState := by rw [hstream, hclosed, h.point, h.calls]

/-- With no read under way the two are the same. -/
theorem sim_toState (hc : c.Wf maxFrameBytes) {b : State ω} (hstream : b.stream = c.stream) :
    Sim maxFrameBytes { c with toState := b, progress := .header 0 } b where
  wf := ⟨hc.header, hc.buffer, (by rw [hstream]; exact hc.arrived),
    (by decide : 0 < kFrameHeaderSize)⟩
  rests _ _ := rfl
  point := rfl
  calls := rfl
  closed := by
    have hready : Conn.isReady { c with toState := b, progress := .header 0 } = false := by
      unfold Conn.isReady
      split
      · next hprogress => cases hprogress
      · rfl
    rw [hready]
    exact (Bool.and_true _).symm
  stream _ _ := rfl

theorem stream_take (b : State ω) (waiting : ω → Point ω) (turn : Turn σ ω) :
    (SessionLife.take handler b waiting turn).2.stream = b.stream := by
  unfold SessionLife.take
  split <;> rfl

/-- It makes no difference whether the socket is closed before the turn or after it. -/
theorem take_closed (b : State ω) (waiting : ω → Point ω) (turn : Turn σ ω) :
    SessionLife.take handler { b with closed := true } waiting turn =
      ((SessionLife.take handler b waiting turn).1,
        { (SessionLife.take handler b waiting turn).2 with closed := true }) := by
  unfold SessionLife.take
  split <;> rfl

/-- A session that is over has no read under way. -/
theorem sim_leave (hc : c.Wf maxFrameBytes) {a : State ω} (hcalls : a.calls = c.calls)
    (entry : Option σ) : Sim maxFrameBytes { c with toState := (leave handler entry c.toState).2 }
      (leave handler entry a).2 where
  wf := ⟨hc.header, hc.buffer, hc.arrived, hc.announced⟩
  rests _ hended := absurd rfl hended
  point := rfl
  calls := congrArg (· ++ [Call.onDisconnect]) hcalls
  closed := rfl
  stream hended _ := absurd rfl hended

/-! ## Each step is a run of the other session -/

/-- While the read goes on, the other session stands still. -/
theorem Sim.fill {a : State ω} (h : Sim maxFrameBytes c a) (hpoint : c.point = .reading)
    (hopen : c.closed = false) (hn : n ≤ c.arrived) (hfill : c.fill maxFrameBytes n = some c') :
    Sim maxFrameBytes c' a := by
  have hfilled := h.wf.fill hn hfill
  have hok : c.progress ≠ .failed := by
    intro hfailed
    rw [Conn.fill, hfailed] at hfill
    cases hfill
  have hended : c.point ≠ .ended := by
    rw [hpoint]
    nofun
  refine ⟨hfilled.wf, fun hreading => ?_, h.point.trans hfilled.point.symm,
    h.calls.trans hfilled.calls.symm, ?_, fun _ hok' => ?_⟩
  · exact absurd (hfilled.point.trans hpoint) hreading
  · rw [h.closed, hfilled.closed, hopen]
    rfl
  · rw [hfilled.bytes hok']
    exact h.stream hended hok

theorem Conn.Wf.readFrame_taken (hc : c.Wf maxFrameBytes) {len : ℕ}
    (hready : c.progress = .ready len) :
    readFrame maxFrameBytes (c.taken ++ c.stream) = some (c.buffer.take len, c.stream) := by
  have hannounced := hc.announced
  rw [Conn.Announced, hready] at hannounced
  have hlen : (c.buffer.take len).length = len := by
    have hmax := (afterHeader_eq hannounced).2.2
    rw [List.length_take, hc.buffer]
    omega
  rw [Conn.taken, hready]
  exact readFrame_of_announced hc.header (by rw [hlen]; exact hannounced) _

/-- What the coroutine reads is the frame that the other session reads. -/
theorem Sim.readFrame_eq {a : State ω} (h : Sim maxFrameBytes c a) (hpoint : c.point = .reading)
    {len : ℕ} (hready : c.progress = .ready len) :
    readFrame maxFrameBytes a.stream = some (c.buffer.take len, c.stream) := by
  rw [h.stream (by rw [hpoint]; nofun) (by rw [hready]; nofun)]
  exact h.wf.readFrame_taken hready

variable {entry entry' : Option σ} {e : Event ι ρ}

theorem Sim.reads {a : State ω} (h : Sim maxFrameBytes c a) {input : ι}
    (hstep : step handler maxFrameBytes (entry, c) (.life (.reads input)) = some (entry', c')) :
    ∃ (ls : List (Label ι ρ)) (a' : State ω),
      Machine.run (SessionLife.step handler maxFrameBytes) (entry, a) ls = some (entry', a') ∧
        Sim maxFrameBytes c' a' := by
  rw [step] at hstep
  split at hstep
  · next len hpoint hready =>
    obtain ⟨rfl, rfl⟩ := Prod.mk.inj (Option.some.inj hstep)
    dsimp only at hpoint hready
    have hread := h.readFrame_eq hpoint hready
    have hopen : a.closed = false := by
      rw [h.closed, Conn.isReady, hpoint, hready]
      exact Bool.and_false _
    have hreads : SessionLife.step handler maxFrameBytes (entry, a) (.reads input) =
        some (SessionLife.take handler
          ⟨c.stream, false, .reading, c.calls ++ [.onMessage (c.buffer.take len)]⟩ .handling
          (handler.onMessage entry (c.buffer.take len) input)) := by
      rw [SessionLife.step]
      dsimp only
      rw [h.point.trans hpoint, hopen, if_neg Bool.false_ne_true, hread, h.calls]
    dsimp only
    rw [hpoint]
    cases hclosed : c.closed with
    | false =>
      refine ⟨[.reads input], _, ?_, sim_toState h.wf (stream_take _ _ _)⟩
      rw [Machine.run, hreads]
      rfl
    | true =>
      -- the other session is closed when it has read the frame
      refine ⟨[.reads input, .closes], _, ?_, sim_toState h.wf (stream_take _ _ _)⟩
      rw [Machine.run, hreads, take_closed ⟨c.stream, false, _, _⟩]
      rfl
  · next hpoint hfailed =>
    obtain ⟨rfl, rfl⟩ := Prod.mk.inj (Option.some.inj hstep)
    refine ⟨[.idles], (leave handler entry a).2, ?_, sim_leave h.wf h.calls entry⟩
    have hreading : a.point = .reading := h.point.trans hpoint
    rw [Machine.run, SessionLife.step]
    dsimp only
    rw [hreading]
    rfl
  · cases hstep

/-- A turn of the handler is a turn in the other session. -/
theorem Sim.life {a : State ω} (h : Sim maxFrameBytes c a) (hreading : c.point ≠ .reading)
    (hended : c.point ≠ .ended) {l : Label ι ρ} {b : State ω} {waiting : ω → Point ω}
    {turn : Turn σ ω} (hstream : b.stream = c.stream)
    (hstep : SessionLife.step handler maxFrameBytes (entry, c.toState) l =
      some (SessionLife.take handler b waiting turn)) :
    ∃ (ls : List (Label ι ρ)) (a' : State ω),
      Machine.run (SessionLife.step handler maxFrameBytes) (entry, a) ls =
          some ((SessionLife.take handler b waiting turn).1, a') ∧
        Sim maxFrameBytes { c with toState := (SessionLife.take handler b waiting turn).2 } a' := by
  have hkept : (SessionLife.take handler b waiting turn).2.stream = c.stream :=
    (stream_take b waiting turn).trans hstream
  have hsim := sim_toState h.wf hkept
  rw [← h.rests hreading hended] at hsim
  refine ⟨[l], _, ?_, hsim⟩
  rw [Machine.run, h.eq_toState hreading hended, hstep]
  rfl

theorem Conn.isReady_eq_false (h : ∀ len, c.progress ≠ .ready len) : c.isReady = false := by
  unfold Conn.isReady
  split
  · next len _ hready => exact absurd hready (h len)
  · rfl

/-- An `async_read` that ends with an error ends the frame. -/
theorem Sim.fails {a : State ω} (h : Sim maxFrameBytes c a) (hpoint : c.point = .reading)
    (hready : ∀ len, c.progress ≠ .ready len) :
    Sim maxFrameBytes { c with progress := .failed } a where
  wf := ⟨h.wf.header, h.wf.buffer, h.wf.arrived, trivial⟩
  rests hreading _ := absurd hpoint hreading
  point := h.point
  calls := h.calls
  closed := by
    rw [h.closed, Conn.isReady_eq_false hready, Conn.isReady_eq_false (by nofun)]
  stream _ hok := absurd rfl hok

theorem Conn.Wf.closes (hc : c.Wf maxFrameBytes) :
    Conn.Wf maxFrameBytes { c with closed := true } :=
  ⟨hc.header, hc.buffer, hc.arrived, hc.announced⟩

theorem sim_step {a : State ω} (h : Sim maxFrameBytes c a)
    (hstep : step handler maxFrameBytes (entry, c) e = some (entry', c')) :
    ∃ (ls : List (Label ι ρ)) (a' : State ω),
      Machine.run (SessionLife.step handler maxFrameBytes) (entry, a) ls = some (entry', a') ∧
        Sim maxFrameBytes c' a' := by
  cases e with
  | arrives n =>
    rw [step] at hstep
    split at hstep
    · next hroom =>
      obtain ⟨rfl, rfl⟩ := Prod.mk.inj (Option.some.inj hstep)
      exact ⟨[], a, rfl, ⟨h.wf.header, h.wf.buffer, hroom, h.wf.announced⟩, h.rests, h.point,
        h.calls, h.closed, h.stream⟩
    · cases hstep
  | fills n =>
    rw [step] at hstep
    split at hstep
    · next hpoint =>
      split at hstep
      · next hn =>
        obtain ⟨d, hfill, hd⟩ := Option.map_eq_some_iff.mp hstep
        obtain ⟨rfl, rfl⟩ := Prod.mk.inj hd
        exact ⟨[], a, rfl, h.fill hpoint hn.1 hn.2.2 hfill⟩
      · cases hstep
    · cases hstep
  | fails =>
    rw [step] at hstep
    split at hstep
    · next hpoint hheader =>
      obtain ⟨rfl, rfl⟩ := Prod.mk.inj (Option.some.inj hstep)
      exact ⟨[], a, rfl, h.fails hpoint fun len hready => by rw [hready] at hheader; cases hheader⟩
    · next hpoint hbody =>
      obtain ⟨rfl, rfl⟩ := Prod.mk.inj (Option.some.inj hstep)
      exact ⟨[], a, rfl, h.fails hpoint fun len hready => by rw [hready] at hbody; cases hbody⟩
    · cases hstep
  | life l =>
    cases l with
    | reads input => exact h.reads hstep
    | starts input =>
      obtain ⟨t, ht, htc⟩ := Option.map_eq_some_iff.mp hstep
      obtain ⟨rfl, rfl⟩ := Prod.mk.inj htc
      have hstart := ht
      rw [SessionLife.step] at hstart
      split at hstart
      · next hpoint =>
        obtain rfl := Option.some.inj hstart
        replace hpoint : c.point = .spawned := hpoint
        exact h.life (by simp [hpoint]) (by simp [hpoint]) rfl ht
      · cases hstart
    | resumes result =>
      obtain ⟨t, ht, htc⟩ := Option.map_eq_some_iff.mp hstep
      obtain ⟨rfl, rfl⟩ := Prod.mk.inj htc
      have hresume := ht
      rw [SessionLife.step] at hresume
      split at hresume
      · next point hpoint =>
        obtain ⟨turn, -, rfl⟩ := Option.map_eq_some_iff.mp hresume
        replace hpoint : c.point = .connecting point := hpoint
        exact h.life (by simp [hpoint]) (by simp [hpoint]) rfl ht
      · next point hpoint =>
        obtain ⟨turn, -, rfl⟩ := Option.map_eq_some_iff.mp hresume
        replace hpoint : c.point = .handling point := hpoint
        exact h.life (by simp [hpoint]) (by simp [hpoint]) rfl ht
      · cases hresume
    | idles =>
      obtain ⟨t, ht, htc⟩ := Option.map_eq_some_iff.mp hstep
      obtain ⟨rfl, rfl⟩ := Prod.mk.inj htc
      rw [SessionLife.step] at ht
      split at ht
      · next hpoint =>
        obtain rfl := Option.some.inj ht
        replace hpoint : c.point = .reading := hpoint
        refine ⟨[.idles], (leave handler entry a).2, ?_, sim_leave h.wf h.calls entry⟩
        rw [Machine.run, SessionLife.step]
        dsimp only
        rw [h.point.trans hpoint]
        rfl
      · cases ht
    | closes =>
      obtain ⟨rfl, rfl⟩ := Prod.mk.inj (Option.some.inj hstep)
      cases hready : c.isReady with
      | true =>
        have hopen : a.closed = false := by
          rw [h.closed, hready]
          exact Bool.and_false _
        exact ⟨[], a, rfl, h.wf.closes, h.rests, h.point, h.calls, hopen.trans
          (congrArg not hready).symm, h.stream⟩
      | false =>
        exact ⟨[.closes], { a with closed := true }, rfl, h.wf.closes, h.rests, h.point, h.calls,
          (congrArg not hready).symm, h.stream⟩

/-! ## What the handler is given -/

/-- The payloads that the handler was called with. -/
def messages (calls : List Call) : List Bytes :=
  calls.filterMap fun
    | .onMessage payload => some payload
    | _ => none

/-- The payloads are the frames at the start of the peer's stream; `a.stream` is what comes
    after them. -/
structure Framed (maxFrameBytes : ℕ) (stream : Bytes) (a : State ω) : Prop where
  frames : ∀ payload ∈ messages a.calls, FrameOk maxFrameBytes payload
  stream : (messages a.calls).flatMap frame ++ a.stream = stream

variable {stream : Bytes} {a : State ω}

theorem messages_append (calls calls' : List Call) :
    messages (calls ++ calls') = messages calls ++ messages calls' :=
  List.filterMap_append

/-- A call that brings no payload changes nothing. -/
theorem Framed.of_calls {b : State ω} {calls : List Call} (h : Framed maxFrameBytes stream a)
    (hcalls : b.calls = a.calls ++ calls) (hnone : messages calls = [])
    (hstream : b.stream = a.stream) : Framed maxFrameBytes stream b := by
  have hmessages : messages b.calls = messages a.calls := by
    rw [hcalls, messages_append, hnone, List.append_nil]
  constructor
  · rw [hmessages]
    exact h.frames
  · rw [hmessages, hstream]
    exact h.stream

theorem Framed.take (h : Framed maxFrameBytes stream a) (waiting : ω → Point ω) (turn : Turn σ ω) :
    Framed maxFrameBytes stream (SessionLife.take handler a waiting turn).2 := by
  unfold SessionLife.take
  split
  · exact ⟨h.frames, h.stream⟩
  · exact ⟨h.frames, h.stream⟩
  · exact h.of_calls rfl rfl rfl

theorem Framed.reads (h : Framed maxFrameBytes stream a) {payload rest : Bytes}
    (hread : readFrame maxFrameBytes a.stream = some (payload, rest)) :
    Framed maxFrameBytes stream
      { a with stream := rest, calls := a.calls ++ [.onMessage payload] } := by
  obtain ⟨_, ⟨hok, rfl⟩, hsplit⟩ := (exact_readFrame maxFrameBytes _ _ _).mp hread
  have hmessages : messages (a.calls ++ [.onMessage payload]) = messages a.calls ++ [payload] :=
    messages_append _ _
  constructor
  · rw [hmessages]
    exact List.forall_mem_append.mpr ⟨h.frames, List.forall_mem_singleton.mpr hok⟩
  · rw [hmessages, List.flatMap_append, List.flatMap_singleton, List.append_assoc, ← hsplit]
    exact h.stream

theorem framed_step {s s' : Option σ × State ω} {l : Label ι ρ}
    (h : Framed maxFrameBytes stream s.2)
    (hstep : SessionLife.step handler maxFrameBytes s l = some s') :
    Framed maxFrameBytes stream s'.2 := by
  cases SessionLife.step_cases hstep with
  | starts input _ =>
    have hconnect : Framed maxFrameBytes stream { s.2 with calls := s.2.calls ++ [.onConnect] } :=
      h.of_calls rfl rfl rfl
    exact hconnect.take _ _
  | connects _ _ => exact h.take _ _
  | handles _ _ => exact h.take _ _
  | reads input _ hread => exact (h.reads hread).take _ _
  | leaves _ _ => exact h.of_calls rfl rfl rfl
  | closes => exact ⟨h.frames, h.stream⟩

/-- The handler's span still shows the payload it was called with. -/
def Conn.Shown (c : Conn ω) : Prop :=
  ∀ point, c.point = .handling point →
    ∃ before payload, c.calls = before ++ [.onMessage payload] ∧ payload <+: c.buffer

/-- A handler that waits after its turn waits in the call that the turn belongs to. -/
theorem handling_take {b : State ω} {waiting : ω → Point ω} {turn : Turn σ ω} {point : ω}
    (h : (SessionLife.take handler b waiting turn).2.point = .handling point) :
    (∃ q, waiting q = .handling point) ∧
      (SessionLife.take handler b waiting turn).2.calls = b.calls := by
  unfold SessionLife.take at h ⊢
  split at h
  · next q _ => exact ⟨⟨q, h⟩, rfl⟩
  · cases h
  · cases h

theorem shown_step (hc : c.Wf maxFrameBytes) (h : c.Shown)
    (hstep : step handler maxFrameBytes (entry, c) e = some (entry', c')) : c'.Shown := by
  intro point hpoint'
  cases e with
  | arrives n =>
    rw [step] at hstep
    split at hstep
    · obtain ⟨rfl, rfl⟩ := Prod.mk.inj (Option.some.inj hstep)
      exact h point hpoint'
    · cases hstep
  | fills n =>
    rw [step] at hstep
    split at hstep
    · next hpoint =>
      split at hstep
      · next hn =>
        obtain ⟨d, hfill, hd⟩ := Option.map_eq_some_iff.mp hstep
        obtain ⟨rfl, rfl⟩ := Prod.mk.inj hd
        rw [(hc.fill hn.2.2 hfill).point, hpoint] at hpoint'
        cases hpoint'
      · cases hstep
    · cases hstep
  | fails =>
    rw [step] at hstep
    split at hstep
    · obtain ⟨rfl, rfl⟩ := Prod.mk.inj (Option.some.inj hstep)
      exact h point hpoint'
    · obtain ⟨rfl, rfl⟩ := Prod.mk.inj (Option.some.inj hstep)
      exact h point hpoint'
    · cases hstep
  | life l =>
    by_cases hl : ∃ input, l = .reads input
    · obtain ⟨input, rfl⟩ := hl
      rw [step] at hstep
      split at hstep
      · next len _ _ =>
        obtain ⟨rfl, rfl⟩ := Prod.mk.inj (Option.some.inj hstep)
        exact ⟨c.calls, c.buffer.take len, (handling_take hpoint').2, List.take_prefix len c.buffer⟩
      · obtain ⟨rfl, rfl⟩ := Prod.mk.inj (Option.some.inj hstep)
        cases hpoint'
      · cases hstep
    · rw [step] at hstep
      · obtain ⟨t, ht, htc⟩ := Option.map_eq_some_iff.mp hstep
        obtain ⟨rfl, rfl⟩ := Prod.mk.inj htc
        cases SessionLife.step_cases ht with
        | starts input _ => cases (handling_take hpoint').1.choose_spec
        | connects _ _ => cases (handling_take hpoint').1.choose_spec
        | handles hpoint _ =>
          obtain ⟨before, payload, hcalls, hshown⟩ := h _ hpoint
          exact ⟨before, payload, (handling_take hpoint').2.trans hcalls, hshown⟩
        | reads input _ _ => exact absurd ⟨input, rfl⟩ hl
        | leaves _ _ => cases hpoint'
        | closes => exact h point hpoint'
      · exact fun input hinput => hl ⟨input, hinput⟩

/-! ## Whole runs -/

theorem sim_of_reachable {stream : Bytes} {s : Option σ × Conn ω}
    (h : Machine.Reachable (step handler maxFrameBytes)
      (none, Conn.new maxFrameBytes stream) s) :
    ∃ a : State ω,
      Machine.Reachable (SessionLife.step handler maxFrameBytes) (none, { stream }) (s.1, a) ∧
        Sim maxFrameBytes s.2 a ∧ s.2.Shown := by
  have hrun : ∃ t, Machine.Reachable (SessionLife.step handler maxFrameBytes)
      (none, { stream }) t ∧ s.1 = t.1 ∧ Sim maxFrameBytes s.2 t.2 ∧ s.2.Shown := by
    refine h.simulated (R := fun s (t : Option σ × State ω) =>
      s.1 = t.1 ∧ Sim maxFrameBytes s.2 t.2 ∧ s.2.Shown) ?_ ?_
    · exact ⟨rfl, sim_new maxFrameBytes stream, nofun⟩
    · rintro ⟨entry, c⟩ e ⟨entry', c'⟩ ⟨_, a⟩ ⟨rfl, hsim, hshown⟩ hstep
      obtain ⟨ls, a', hrun, hsim'⟩ := sim_step hsim hstep
      exact ⟨ls, (entry', a'), hrun, rfl, hsim', shown_step hsim.wf hshown hstep⟩
  obtain ⟨⟨_, a⟩, ha, rfl, hsim, hshown⟩ := hrun
  exact ⟨a, ha, hsim, hshown⟩

/-- **However the bytes arrive, the session is one that reads each frame in one step**, it takes
    no byte of the stream twice, out of turn or not at all, and the span shows the payload for
    as long as the handler has it. -/
theorem segments_faithful {stream : Bytes} {s : Option σ × Conn ω}
    (h : Machine.Reachable (step handler maxFrameBytes)
      (none, Conn.new maxFrameBytes stream) s) :
    (∃ a : State ω,
      Machine.Reachable (SessionLife.step handler maxFrameBytes) (none, { stream }) (s.1, a) ∧
        a.point = s.2.point ∧ a.calls = s.2.calls) ∧
      (∀ payload ∈ messages s.2.calls, FrameOk maxFrameBytes payload) ∧
      (messages s.2.calls).flatMap frame <+: stream ∧
      (s.2.point ≠ .ended → s.2.progress ≠ .failed →
        (messages s.2.calls).flatMap frame ++ (s.2.taken ++ s.2.stream) = stream) ∧
      s.2.Shown := by
  obtain ⟨a, ha, hsim, hshown⟩ := sim_of_reachable h
  have hframed : Framed maxFrameBytes stream a :=
    ha.invariant (I := fun t => Framed maxFrameBytes stream t.2)
      ⟨fun _ hmem => absurd hmem List.not_mem_nil, rfl⟩
      fun _ _ _ hframed _ hstep => framed_step hframed hstep
  have hcalls : messages a.calls = messages s.2.calls := congrArg messages hsim.calls
  refine ⟨⟨a, ha, hsim.point, hsim.calls⟩, ?_, ?_, fun hended hok => ?_, hshown⟩
  · rw [← hcalls]
    exact hframed.frames
  · rw [← hcalls]
    exact ⟨a.stream, hframed.stream⟩
  · rw [← hcalls, ← hsim.stream hended hok]
    exact hframed.stream

/-- A handler that waits once in each message. -/
def lingering : Handler Unit Unit Unit Unit where
  onConnect entry _ := { entry, next := .returns }
  onMessage entry _ _ := { entry, next := .waits () }
  resume entry _ _ := some { entry, next := .returns }
  onDisconnect _ := none

/-- The frames of `[7, 8, 9]` and of `[5, 6]`. -/
def twoFrames : Bytes := [0, 0, 0, 3, 7, 8, 9, 0, 0, 0, 2, 5, 6]

/-- The first frame is read and handled, and half of the second header is read. -/
def cutFrames : List (Event Unit Unit) :=
  [.life (.starts ()), .arrives 9, .fills 4, .fills 3, .life (.reads ()), .life (.resumes ()),
    .fills 2, .arrives 4]

/-- The handler waits in the second message, and the buffer shows its payload before what is
    left of the first one. -/
def lingers : Conn Unit where
  stream := []
  point := .handling ()
  calls := [.onConnect, .onMessage [7, 8, 9], .onMessage [5, 6]]
  arrived := 0
  headerBuf := [0, 0, 0, 2]
  buffer := [5, 6, 9, 0]

theorem run_twoFrames : Machine.run (step lingering 4) (none, Conn.new 4 twoFrames)
    (cutFrames ++ [.fills 2, .fills 1, .fills 1, .life (.reads ())]) = some (none, lingers) := rfl

theorem segments_faithful_twoFrames :
    messages lingers.calls = [[7, 8, 9], [5, 6]] ∧
      (messages lingers.calls).flatMap frame ++ (lingers.taken ++ lingers.stream) = twoFrames ∧
      lingers.Shown :=
  have h := segments_faithful (.of_run .init run_twoFrames)
  ⟨rfl, h.2.2.2.1 nofun nofun, h.2.2.2.2⟩

/-! ## A frame that has arrived -/

section Arrived

variable {payload rest : Bytes}

theorem afterHeader_frame (hok : FrameOk maxFrameBytes payload) :
    afterHeader maxFrameBytes (toBE 4 payload.length) = .body payload.length 0 := by
  obtain ⟨hpos, hmax, h32⟩ := hok
  unfold afterHeader
  dsimp only
  rw [fromNetwork_ofLE (length_toBE _ _), ofBE_toBE h32, if_neg (by omega)]

theorem take_frame (hbytes : c.taken ++ c.stream = frame payload ++ rest) :
    (c.taken ++ c.stream).take kFrameHeaderSize = toBE 4 payload.length := by
  rw [hbytes, frame, List.append_assoc]
  exact List.take_left' (length_toBE _ _)

/-- A frame that is complete is the one that the stream starts with. -/
theorem Conn.Wf.of_ready (hc : c.Wf maxFrameBytes) {len : ℕ} (hready : c.progress = .ready len)
    (hok : FrameOk maxFrameBytes payload)
    (hbytes : c.taken ++ c.stream = frame payload ++ rest) :
    c.buffer.take len = payload ∧ c.stream = rest := by
  have hread : readFrame maxFrameBytes (frame payload ++ rest) = some (payload, rest) :=
    (exact_readFrame maxFrameBytes _ _ _).mpr ⟨_, ⟨hok, rfl⟩, rfl⟩
  rw [← hbytes, hc.readFrame_taken hready] at hread
  exact Prod.mk.inj (Option.some.inj hread)

/-- The rest of the body is one read away. -/
theorem Conn.Wf.completes_body (hc : c.Wf maxFrameBytes) (handler : Handler σ ω ι ρ)
    (entry : Option σ) (hpoint : c.point = .reading) (hopen : c.closed = false) {len got : ℕ}
    (hprogress : c.progress = .body len got)
    (hbytes : c.taken ++ c.stream = frame payload ++ rest)
    (hok : FrameOk maxFrameBytes payload)
    (harrived : (frame payload).length ≤ c.taken.length + c.arrived) :
    ∃ (n : ℕ) (c' : Conn ω), step handler maxFrameBytes (entry, c) (.fills n) = some (entry, c') ∧
      Filled maxFrameBytes c c' ∧ c'.progress = .ready len := by
  have hannounced := hc.announced
  rw [Conn.Announced, hprogress] at hannounced
  obtain ⟨hbody, hgot⟩ := hannounced
  have htaken : c.taken = c.headerBuf ++ c.buffer.take got := by rw [Conn.taken, hprogress]
  have hheader : c.headerBuf = toBE 4 payload.length := by
    rw [← take_frame hbytes, htaken, List.append_assoc]
    exact (List.take_left' hc.header).symm
  have hlen : len = payload.length := by
    rw [hheader, afterHeader_frame hok] at hbody
    exact (Progress.body.inj hbody).1.symm
  have hmax := (afterHeader_eq hbody).2.2
  have hn : len - got ≤ c.arrived := by
    rw [htaken, frame, List.length_append, List.length_append, length_toBE, List.length_take,
      hc.header, hc.buffer, kFrameHeaderSize] at harrived
    omega
  obtain ⟨c', hfill, hready⟩ :
      ∃ c', c.fill maxFrameBytes (len - got) = some c' ∧ c'.progress = .ready len := by
    rw [Conn.fill, hprogress]
    dsimp only
    rw [if_pos (by omega), if_pos (by omega)]
    exact ⟨_, rfl, rfl⟩
  refine ⟨len - got, c', ?_, hc.fill hn hfill, hready⟩
  rw [step]
  dsimp only
  rw [hpoint]
  dsimp only
  rw [if_pos ⟨hopen, by omega, hn⟩, hfill]
  rfl

/-- The rest of the header is one read away. -/
theorem Conn.Wf.completes_header (hc : c.Wf maxFrameBytes) (handler : Handler σ ω ι ρ)
    (entry : Option σ) (hpoint : c.point = .reading) (hopen : c.closed = false) {got : ℕ}
    (hprogress : c.progress = .header got)
    (hbytes : c.taken ++ c.stream = frame payload ++ rest)
    (hok : FrameOk maxFrameBytes payload)
    (harrived : (frame payload).length ≤ c.taken.length + c.arrived) :
    ∃ (n : ℕ) (c' : Conn ω), step handler maxFrameBytes (entry, c) (.fills n) = some (entry, c') ∧
      Filled maxFrameBytes c c' ∧ c'.progress = .body payload.length 0 ∧
      c.taken.length + c.arrived = c'.taken.length + c'.arrived := by
  have hgot : got < kFrameHeaderSize := by
    have hannounced := hc.announced
    rwa [Conn.Announced, hprogress] at hannounced
  have htaken : c.taken = c.headerBuf.take got := by rw [Conn.taken, hprogress]
  have hlen : c.taken.length = got := by
    rw [htaken, List.length_take, hc.header]
    omega
  have hframe : kFrameHeaderSize ≤ (frame payload).length := by
    rw [frame, List.length_append, length_toBE]
    exact Nat.le_add_right _ _
  have hn : kFrameHeaderSize - got ≤ c.arrived := by omega
  have hdata := hc.length_data hn
  have hwhole : overwrite c.headerBuf got (c.stream.take (kFrameHeaderSize - got)) =
      toBE 4 payload.length := by
    rw [overwrite_of_full (by rw [hdata, hc.header]; omega), ← take_frame hbytes, List.take_append,
      List.take_of_length_le (l := c.taken) (by omega), hlen, ← htaken]
  obtain ⟨c', hfill, hbody, hheader, harrived'⟩ :
      ∃ c', c.fill maxFrameBytes (kFrameHeaderSize - got) = some c' ∧
        c'.progress = .body payload.length 0 ∧ c'.headerBuf = toBE 4 payload.length ∧
        c'.arrived = c.arrived - (kFrameHeaderSize - got) := by
    rw [Conn.fill, hprogress]
    dsimp only
    rw [if_pos (by omega), if_pos (by omega), hwhole, afterHeader_frame hok]
    exact ⟨_, rfl, rfl, rfl, rfl⟩
  refine ⟨kFrameHeaderSize - got, c', ?_, hc.fill hn hfill, hbody, ?_⟩
  · rw [step]
    dsimp only
    rw [hpoint]
    dsimp only
    rw [if_pos ⟨hopen, by omega, hn⟩, hfill]
    rfl
  · have htaken' : c'.taken = toBE 4 payload.length := by
      rw [Conn.taken, hbody]
      dsimp only
      rw [hheader, List.take_zero, List.append_nil]
    rw [htaken', length_toBE, hlen, harrived']
    unfold kFrameHeaderSize at hgot hn ⊢
    omega

theorem calls_take (b : State ω) (waiting : ω → Point ω) (turn : Turn σ ω) :
    b.calls <+: (SessionLife.take handler b waiting turn).2.calls := by
  unfold SessionLife.take
  split
  · exact List.prefix_rfl
  · exact List.prefix_rfl
  · exact List.prefix_append _ _

/-- A frame that is complete goes to the handler. -/
theorem Conn.Wf.delivers (hc : c.Wf maxFrameBytes) (handler : Handler σ ω ι ρ)
    (entry : Option σ) (hpoint : c.point = .reading) {len : ℕ} (hready : c.progress = .ready len)
    (hbytes : c.taken ++ c.stream = frame payload ++ rest)
    (hok : FrameOk maxFrameBytes payload) (input : ι) :
    ∃ t : Option σ × Conn ω, step handler maxFrameBytes (entry, c) (.life (.reads input)) = some t ∧
      c.calls ++ [.onMessage payload] <+: t.2.calls ∧ t.2.stream = rest := by
  obtain ⟨hpayload, hrest⟩ := hc.of_ready hready hok hbytes
  rw [step]
  dsimp only
  rw [hpoint, hready]
  dsimp only
  rw [hpayload]
  exact ⟨_, rfl, calls_take ⟨c.stream, c.closed, .reading, c.calls ++ [.onMessage payload]⟩ _ _,
    (stream_take _ _ _).trans hrest⟩

/-- **A frame that has arrived is delivered**, however it has been cut so far: at most two more
    reads complete it, and they leave the socket at the next frame. -/
theorem frame_delivered {stream : Bytes} {s : Option σ × Conn ω}
    (h : Machine.Reachable (step handler maxFrameBytes)
      (none, Conn.new maxFrameBytes stream) s)
    (hpoint : s.2.point = .reading) (hopen : s.2.closed = false) (hread : s.2.progress ≠ .failed)
    (hok : FrameOk maxFrameBytes payload)
    (hbytes : s.2.taken ++ s.2.stream = frame payload ++ rest)
    (harrived : (frame payload).length ≤ s.2.taken.length + s.2.arrived) (input : ι) :
    ∃ (ns : List ℕ) (t : Option σ × Conn ω), ns.length ≤ 2 ∧
      Machine.run (step handler maxFrameBytes) s (ns.map .fills ++ [.life (.reads input)]) =
        some t ∧
      s.2.calls ++ [.onMessage payload] <+: t.2.calls ∧ t.2.stream = rest := by
  obtain ⟨entry, c⟩ := s
  dsimp only at hpoint hopen hread hbytes harrived ⊢
  obtain ⟨a, -, hsim, -⟩ := sim_of_reachable h
  have hc : c.Wf maxFrameBytes := hsim.wf
  cases hprogress : c.progress with
  | header got =>
    obtain ⟨n₁, c₁, hstep₁, hfilled₁, hbody, harrived₁⟩ :=
      hc.completes_header handler entry hpoint hopen hprogress hbytes hok harrived
    rw [harrived₁] at harrived
    have hpoint₁ := hfilled₁.point.trans hpoint
    have hbytes₁ := (hfilled₁.bytes (by simp [hbody])).trans hbytes
    obtain ⟨n₂, c₂, hstep₂, hfilled₂, hready⟩ :=
      hfilled₁.wf.completes_body handler entry hpoint₁ (hfilled₁.closed.trans hopen) hbody hbytes₁
        hok harrived
    have hbytes₂ := (hfilled₂.bytes (by simp [hready])).trans hbytes₁
    obtain ⟨t, hstep, hcalls, hstream⟩ := hfilled₂.wf.delivers handler entry
      (hfilled₂.point.trans hpoint₁) hready hbytes₂ hok input
    rw [hfilled₂.calls, hfilled₁.calls] at hcalls
    refine ⟨[n₁, n₂], t, Nat.le_refl 2, ?_, hcalls, hstream⟩
    simp only [List.map_cons, List.map_nil, List.cons_append, List.nil_append, Machine.run, hstep₁,
      hstep₂, hstep, Option.bind_some]
  | body len got =>
    obtain ⟨n, c₁, hstep₁, hfilled₁, hready⟩ :=
      hc.completes_body handler entry hpoint hopen hprogress hbytes hok harrived
    have hbytes₁ := (hfilled₁.bytes (by simp [hready])).trans hbytes
    obtain ⟨t, hstep, hcalls, hstream⟩ := hfilled₁.wf.delivers handler entry
      (hfilled₁.point.trans hpoint) hready hbytes₁ hok input
    rw [hfilled₁.calls] at hcalls
    refine ⟨[n], t, Nat.le_succ 1, ?_, hcalls, hstream⟩
    simp only [List.map_cons, List.map_nil, List.cons_append, List.nil_append, Machine.run, hstep₁,
      hstep, Option.bind_some]
  | ready len =>
    obtain ⟨t, hstep, hcalls, hstream⟩ := hc.delivers handler entry hpoint
      hprogress hbytes hok input
    refine ⟨[], t, Nat.zero_le 2, ?_, hcalls, hstream⟩
    simp only [List.map_nil, List.nil_append, Machine.run, hstep, Option.bind_some]
  | failed => exact absurd hprogress hread

/-- The session after `cutFrames`, with half a header. -/
def halfRead : Conn Unit where
  stream := [0, 2, 5, 6]
  point := .reading
  calls := [.onConnect, .onMessage [7, 8, 9]]
  arrived := 4
  headerBuf := [0, 0, 0, 3]
  buffer := [7, 8, 9, 0]
  progress := .header 2

theorem frame_delivered_halfRead : ∃ (ns : List ℕ) (t : Option Unit × Conn Unit), ns.length ≤ 2 ∧
    Machine.run (step lingering 4) (none, halfRead) (ns.map .fills ++ [.life (.reads ())]) =
      some t ∧
    [.onConnect, .onMessage [7, 8, 9], .onMessage [5, 6]] <+: t.2.calls ∧ t.2.stream = [] :=
  frame_delivered (.of_run .init (rfl : Machine.run (step lingering 4)
    (none, Conn.new 4 twoFrames) cutFrames = some (none, halfRead))) rfl rfl nofun
    ⟨by decide, by decide, by decide⟩ rfl (by decide) ()

end Arrived

end Netsrv.Segments
