/-
  What a stream of frames delivers: `Session::send` on one side, the read loop of
  `Session::run` on the other.

  `delivered` are the payloads that reach `on_message`, by a handler that notes each one
  down.  As long as the handler does not end the session they are the longest list of frames
  the stream starts with, so nothing is delivered after a frame that is empty, over the
  limit or cut off, whatever follows it.
-/
import Netsrv.Net.Framing

namespace Netsrv.Session

open ByteCodec PrefixParser

/-- A payload that a reader with this limit accepts. -/
def FrameOk (maxFrameBytes : ℕ) (payload : Bytes) : Prop :=
  0 < payload.length ∧ payload.length ≤ maxFrameBytes ∧ payload.length < 2 ^ 32

/-- A well-formed frame: the big-endian length and the payload. -/
def frame (payload : Bytes) : Bytes := toBE 4 payload.length ++ payload

/-- The stream does not start with a frame a reader with this limit accepts. -/
def Broken (maxFrameBytes : ℕ) (stream : Bytes) : Prop :=
  stream.length < 4 ∨ ofBE (stream.take 4) = 0 ∨ ofBE (stream.take 4) > maxFrameBytes ∨
    stream.length < 4 + ofBE (stream.take 4)

theorem send_eq_frame {payload : Bytes} (h : payload.length < 2 ^ 32) :
    send payload = frame payload := by
  rw [send, header_eq_toBE, Nat.mod_eq_of_lt h, frame]

/-- `from_network` of four bytes is their big-endian value. -/
theorem fromNetwork_ofLE {h : Bytes} (hlen : h.length = 4) :
    (fromNetwork (UInt32.ofNat (ofLE h))).toNat = ofBE h := by
  have hlt : ofLE h < 2 ^ 32 := by
    have := ofLE_lt h
    rwa [hlen] at this
  have hnat : (UInt32.ofNat (ofLE h)).toNat = ofLE h := by
    rw [UInt32.toNat_ofNat', Nat.mod_eq_of_lt hlt]
  have hback : toLE 4 (ofLE h) = h := by rw [← hlen, toLE_ofLE]
  have hswap := toLE_toNetwork (UInt32.ofNat (ofLE h))
  rw [hnat, toBE, hback] at hswap
  rw [fromNetwork, ofBE, ← hswap, ofLE_toLE (toNetwork _).toNat_lt]

/-- The reader accepts the frames within its limit, and nothing else. -/
theorem exact_readFrame (maxFrameBytes : ℕ) :
    Exact (readFrame maxFrameBytes) (Enc (FrameOk maxFrameBytes) frame) := by
  intro s payload r
  constructor
  · intro h
    unfold StateT.run readFrame at h
    split at h
    · cases h
    · next h4 =>
      have hlen : (s.take kFrameHeaderSize).length = 4 := by
        rw [List.length_take, kFrameHeaderSize] at *
        omega
      rw [fromNetwork_ofLE hlen] at h
      dsimp only at h
      split at h
      · cases h
      · next hlimit =>
        split at h
        · cases h
        · next hrest =>
          obtain ⟨rfl, rfl⟩ := Prod.mk.inj (Option.some.inj h)
          have hpay : ((s.drop kFrameHeaderSize).take (ofBE (s.take kFrameHeaderSize))).length =
              ofBE (s.take kFrameHeaderSize) := by
            rw [List.length_take]
            omega
          have hlt := ofBE_lt (s.take kFrameHeaderSize)
          rw [hlen] at hlt
          refine ⟨_, ⟨⟨?_, ?_, ?_⟩, rfl⟩, ?_⟩
          · rw [hpay]
            omega
          · rw [hpay]
            omega
          · rw [hpay]
            omega
          · have hback : toBE 4 (ofBE (s.take kFrameHeaderSize)) = s.take kFrameHeaderSize := by
              rw [← hlen, toBE_ofBE]
            rw [frame, hpay, hback, List.append_assoc, List.take_append_drop,
              List.take_append_drop]
  · rintro ⟨_, ⟨⟨hpos, hmax, h32⟩, rfl⟩, rfl⟩
    rw [← send_eq_frame h32]
    exact readFrame_send hpos hmax h32 r

theorem Broken.readFrame_eq {maxFrameBytes : ℕ} {stream : Bytes} (h : Broken maxFrameBytes stream) :
    readFrame maxFrameBytes stream = none := by
  cases hread : readFrame maxFrameBytes stream with
  | none => rfl
  | some x =>
    obtain ⟨_, ⟨⟨hpos, hmax, h32⟩, rfl⟩, rfl⟩ :=
      (exact_readFrame maxFrameBytes stream x.1 x.2).mp hread
    have htake : (frame x.1 ++ x.2).take 4 = toBE 4 x.1.length := by
      rw [frame, List.append_assoc]
      exact List.take_left' (length_toBE _ _)
    have hval : ofBE (toBE 4 x.1.length) = x.1.length := ofBE_toBE h32
    have hlen : (frame x.1 ++ x.2).length = 4 + x.1.length + x.2.length := by
      rw [frame, List.length_append, List.length_append, length_toBE]
    rw [Broken, htake, hval, hlen] at h
    omega

/-! ## What is delivered -/

section Delivered

variable {σ : Type} {maxFrameBytes : ℕ} {onMessage : σ → Bytes → Handled σ}

/-- The handler, noting down the payloads it is given. -/
def recording (onMessage : σ → Bytes → Handled σ) (st : σ × List Bytes) (payload : Bytes) :
    Handled (σ × List Bytes) where
  state := ((onMessage st.1 payload).state, st.2 ++ [payload])
  sent := (onMessage st.1 payload).sent
  ended := (onMessage st.1 payload).ended

/-- The payloads that `Session::run` gives to `on_message`, in order. -/
def delivered (maxFrameBytes : ℕ) (onMessage : σ → Bytes → Handled σ) (state : σ)
    (stream : Bytes) : List Bytes :=
  (run maxFrameBytes (recording onMessage) (state, []) stream).1.2

theorem run_recording (hopen : ∀ state payload, (onMessage state payload).ended = false) (n : ℕ)
    (state : σ) (got : List Bytes) (stream : Bytes) (hn : stream.length = n) :
    ∃ ps, (run maxFrameBytes (recording onMessage) (state, got) stream).1.2 = got ++ ps ∧
      Longest (FrameOk maxFrameBytes) frame stream ps := by
  induction n using Nat.strong_induction_on generalizing state got stream with
  | _ n ih =>
    cases hread : readFrame maxFrameBytes stream with
    | none =>
      refine ⟨[], ?_, (exact_readFrame maxFrameBytes).longest_nil hread⟩
      rw [run_none _ _ hread, List.append_nil]
    | some x =>
      have hshort : x.2.length < n := by
        have := (readFrame_some hread).2.2
        rw [kFrameHeaderSize] at this
        omega
      obtain ⟨ps, hrun, hlong⟩ :=
        ih _ hshort (onMessage state x.1).state (got ++ [x.1]) x.2 rfl
      refine ⟨x.1 :: ps, ?_, (exact_readFrame maxFrameBytes).longest_cons hread hlong⟩
      have hgoes : (recording onMessage (state, got) x.1).ended = false := hopen state x.1
      rw [run_some hread hgoes]
      exact hrun.trans (List.append_assoc _ _ _)

/-- **The read loop delivers the longest list of frames the stream starts with.** -/
theorem longest_delivered (hopen : ∀ state payload, (onMessage state payload).ended = false)
    (state : σ) (stream : Bytes) :
    Longest (FrameOk maxFrameBytes) frame stream
      (delivered maxFrameBytes onMessage state stream) := by
  obtain ⟨ps, hrun, hlong⟩ := run_recording hopen stream.length state [] stream rfl
  rwa [delivered, hrun, List.nil_append]

/-- Frames are delivered up to the first one that is empty, over the limit or cut off. -/
theorem delivered_frames (hopen : ∀ state payload, (onMessage state payload).ended = false)
    (state : σ) {ps : List Bytes} (hps : ∀ p ∈ ps, FrameOk maxFrameBytes p) {rest : Bytes}
    (hrest : Broken maxFrameBytes rest) :
    delivered maxFrameBytes onMessage state (ps.flatMap frame ++ rest) = ps := by
  refine (longest_delivered hopen state _).unique ?_
  induction ps with
  | nil => exact (exact_readFrame maxFrameBytes).longest_nil hrest.readFrame_eq
  | cons p ps ih =>
    obtain ⟨hp, hps⟩ := List.forall_mem_cons.mp hps
    refine (exact_readFrame maxFrameBytes).longest_cons ?_ (ih hps)
    exact (exact_readFrame maxFrameBytes _ _ _).mpr
      ⟨frame p, ⟨hp, rfl⟩, by rw [List.flatMap_cons, List.append_assoc]⟩

end Delivered

/-- Frames that `send` writes are delivered as they were sent; any stream delivers the longest
    list of frames it starts with, and nothing after the first that is not one. -/
theorem framing_faithful {σ : Type} (maxFrameBytes : ℕ) (onMessage : σ → Bytes → Handled σ)
    (state : σ) (hopen : ∀ state payload, (onMessage state payload).ended = false) :
    (∀ ps : List Bytes, (∀ p ∈ ps, FrameOk maxFrameBytes p) →
      delivered maxFrameBytes onMessage state (ps.flatMap send) = ps) ∧
    (∀ stream, Longest (FrameOk maxFrameBytes) frame stream
      (delivered maxFrameBytes onMessage state stream)) ∧
    (∀ stream, ∀ p ∈ delivered maxFrameBytes onMessage state stream,
      p.length ≤ maxFrameBytes) ∧
    ∀ (ps : List Bytes) (rest : Bytes), (∀ p ∈ ps, FrameOk maxFrameBytes p) →
      Broken maxFrameBytes rest →
      delivered maxFrameBytes onMessage state (ps.flatMap send ++ rest) = ps := by
  have hsend {ps : List Bytes} (hps : ∀ p ∈ ps, FrameOk maxFrameBytes p) :
      ps.flatMap send = ps.flatMap frame :=
    List.flatMap_congr fun p hp => send_eq_frame (hps p hp).2.2
  refine ⟨fun ps hps => ?_, longest_delivered hopen state, fun stream p hp => ?_,
    fun ps rest hps hrest => ?_⟩
  · have hnil : Broken maxFrameBytes [] := Or.inl (by decide)
    have := delivered_frames hopen state hps hnil
    rwa [List.append_nil, ← hsend hps] at this
  · exact ((longest_delivered hopen state stream).mem p hp).2.1
  · rw [hsend hps]
    exact delivered_frames hopen state hps hrest

/-- With a limit of 4 bytes: a frame, a header of length 0, and a frame that is not read. -/
theorem framing_faithful_stops :
    delivered 4 (fun (_ : Unit) _ => { state := () }) ()
      ([[7, 8]].flatMap send ++ ([0, 0, 0, 0] ++ send [9])) = [[7, 8]] := by
  have hok : ∀ p ∈ [([7, 8] : Bytes)], FrameOk 4 p := by
    intro p hp
    obtain rfl := List.mem_singleton.mp hp
    exact ⟨by decide, by decide, by decide⟩
  have hempty : Broken 4 ([0, 0, 0, 0] ++ send [9]) := Or.inr (Or.inl (by decide))
  exact (framing_faithful 4 _ () fun _ _ => rfl).2.2.2 [[7, 8]] _ hok hempty

end Netsrv.Session
