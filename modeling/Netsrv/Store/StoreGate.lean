/-
  What gets through the MAC of the store, over any number of payloads on any connections.

  `Authentic` is the other side of `decode_and_verify`: the layout of a request, any bytes
  after it, and the HMAC over both.  `Applied` is the store that the authentic puts and takes
  among some deliveries lead to, and `Answered` says which payloads get an answer; the
  handler does the one and the other, whatever it is sent (`authentic_only`).
-/
import Netsrv.Lib.Machine
import Netsrv.Store.RemoteStore

namespace Netsrv.StoreHandler

open StoreWire SharedStore

/-- A payload, the connection it comes on, and the moment it is handled. -/
structure Delivery where
  conn : ℕ
  moment : Moment
  payload : Bytes

/-- The store, and the frames sent in answer to each payload, the newest first. -/
structure Gate where
  store : SharedStore := .empty
  served : List (Delivery × List Bytes) := []

section Gate

variable (hmac : Hmac) (hmacKey : Bytes)

/-- A walk of the map is a walk of the map as it is. -/
def deliver (s : Gate) (d : Delivery) : Option Gate :=
  if s.store.Walk d.moment.it then
    some {
      store := (onMessage hmac hmacKey d.moment s.store d.payload).state
      served := (d, (onMessage hmac hmacKey d.moment s.store d.payload).sent) :: s.served }
  else none

/-! ## What an authentic request is, and does -/

/-- The payload is the layout of `r`, anything after it, and the HMAC over both. -/
def Authentic (payload : Bytes) (r : Decoded) : Prop :=
  r.WellFormed ∧ ∃ rest, payload = sign hmac hmacKey (r.encoding ++ rest)

/-- The store after the authentic puts and takes among the deliveries, the newest first. -/
inductive Applied : List Delivery → SharedStore → Prop
  | start : Applied [] .empty
  | put {ds : List Delivery} {s : SharedStore} {d : Delivery} {key value : Bytes}
      {ttlSeconds : UInt32} : Applied ds s →
      Authentic hmac hmacKey d.payload { op := .put, key, value, ttlSeconds } →
      Applied (d :: ds) (s.put d.moment.now key value ttlSeconds.toNat)
  | take {ds : List Delivery} {s : SharedStore} {d : Delivery} {key : Bytes} : Applied ds s →
      Authentic hmac hmacKey d.payload { op := .take, key } →
      Applied (d :: ds) (s.take d.moment.now key).2
  | other {ds : List Delivery} {s : SharedStore} {d : Delivery} : Applied ds s →
      (∀ r, Authentic hmac hmacKey d.payload r → r.op ≠ .put ∧ r.op ≠ .take) →
      Applied (d :: ds) s

/-- A request has one answer, of the kind its opcode asks for; nothing else has any. -/
inductive Answered (payload : Bytes) : List Bytes → Prop
  | ok {r : Decoded} {answer : Bytes} : Authentic hmac hmacKey payload r → r.op = .put →
      decodeAndVerify hmac hmacKey answer = some { op := .ok } → Answered payload [answer]
  | found {r : Decoded} {answer : Bytes} : Authentic hmac hmacKey payload r →
      r.op = .get ∨ r.op = .take →
      (∃ value, decodeAndVerify hmac hmacKey answer = some { op := .value, value }) ∨
        decodeAndVerify hmac hmacKey answer = some { op := .notFound } →
      Answered payload [answer]
  | listed {r : Decoded} {entries : List StoreWire.Entry} : Authentic hmac hmacKey payload r →
      r.op = .listPrefix →
      (entries.length ≤ kMaxListEntries →
        decodeAndVerify hmac hmacKey (encodeList hmac hmacKey entries) =
          some { op := .list, entries }) →
      Answered payload [encodeList hmac hmacKey entries]
  | ignored : (∀ r, Authentic hmac hmacKey payload r →
      r.op ≠ .put ∧ r.op ≠ .get ∧ r.op ≠ .take ∧ r.op ≠ .listPrefix) → Answered payload []

end Gate

variable {hmac : Hmac} {hmacKey : Bytes}

theorem authentic_iff (payload : Bytes) (r : Decoded) :
    Authentic hmac hmacKey payload r ↔ decodeAndVerify hmac hmacKey payload = some r :=
  (decodeAndVerify_eq_some_iff hmac hmacKey payload r).symm

/-- A payload is one request at most. -/
theorem Authentic.unique {payload : Bytes} {r r' : Decoded} (h : Authentic hmac hmacKey payload r)
    (h' : Authentic hmac hmacKey payload r') : r = r' :=
  Option.some.inj (((authentic_iff _ _).mp h).symm.trans ((authentic_iff _ _).mp h'))

/-- What a put carries is what was decoded, and nothing else. -/
theorem Authentic.put_eq {payload : Bytes} {r : Decoded} (h : Authentic hmac hmacKey payload r)
    (hop : r.op = .put) :
    r = { op := .put, key := r.key, value := r.value, ttlSeconds := r.ttlSeconds } := by
  obtain ⟨hwf, -⟩ := h
  obtain ⟨op, key, value, ttlSeconds, entries⟩ := r
  obtain rfl : op = .put := hop
  obtain ⟨-, -, rfl⟩ := hwf
  rfl

theorem Authentic.take_eq {payload : Bytes} {r : Decoded} (h : Authentic hmac hmacKey payload r)
    (hop : r.op = .take) : r = { op := .take, key := r.key } := by
  obtain ⟨hwf, -⟩ := h
  obtain ⟨op, key, value, ttlSeconds, entries⟩ := r
  obtain rfl : op = .take := hop
  obtain ⟨-, rfl, rfl, rfl⟩ := hwf
  rfl

/-! ## One payload -/

/-- What the length fields of a value or of a listed entry can hold. -/
abbrev Holds (s : SharedStore) : Prop :=
  s.Every fun key value => key.length < 2 ^ 16 ∧ value.length < 2 ^ 32

theorem Holds.onMessage {s : SharedStore} (h : Holds s) (m : Moment) (payload : Bytes) :
    Holds (onMessage hmac hmacKey m s payload).state := by
  cases hd : decodeAndVerify hmac hmacKey payload with
  | none => rwa [onMessage_of_none hd]
  | some r =>
    rw [onMessage_of_some hd]
    cases hop : r.op with
    | put =>
      obtain ⟨hwf, -⟩ := (authentic_iff _ _).mpr hd
      rw [Decoded.WellFormed, hop] at hwf
      simpa only [dispatch, hop] using h.put ⟨hwf.1, hwf.2.1⟩ m.now r.ttlSeconds.toNat
    | take => simpa only [dispatch, hop] using h.take m.now r.key
    | get | listPrefix | ok | value | notFound | err | list => simpa only [dispatch, hop] using h

theorem answered_found {payload : Bytes} {r : Decoded} {found : Option Bytes}
    (h : Authentic hmac hmacKey payload r) (hop : r.op = .get ∨ r.op = .take)
    (hvalue : ∀ value, found = some value → value.length < 2 ^ 32) :
    Answered hmac hmacKey payload [(Answer.ofFound found).encode hmac hmacKey] := by
  refine .found h hop ?_
  cases found with
  | none => exact Or.inr (decode_encodeNotFound hmac hmacKey)
  | some value => exact Or.inl ⟨value, decode_encodeValue hmac hmacKey (hvalue value rfl)⟩

/-- The handler answers requests, each once, and nothing else. -/
theorem answered_onMessage {s : SharedStore} (hs : Holds s) {m : Moment} (hit : s.Walk m.it)
    (payload : Bytes) :
    Answered hmac hmacKey payload (onMessage hmac hmacKey m s payload).sent := by
  cases hd : decodeAndVerify hmac hmacKey payload with
  | none =>
    rw [onMessage_of_none hd]
    refine .ignored fun r hr => ?_
    rw [authentic_iff, hd] at hr
    cases hr
  | some r =>
    have hr : Authentic hmac hmacKey payload r := (authentic_iff _ _).mpr hd
    have hvalue {now : ℕ} (value : Bytes) (hget : s.get now r.key = some value) :
        value.length < 2 ^ 32 := (hs.get hget).2
    rw [onMessage_of_some hd]
    cases hop : r.op with
    | put =>
      simp only [dispatch, hop, Option.toList_some, List.map_singleton]
      exact .ok hr hop (decode_encodeOk hmac hmacKey)
    | get =>
      simp only [dispatch, hop, Option.toList_some, List.map_singleton]
      exact answered_found hr (Or.inl hop) hvalue
    | take =>
      simp only [dispatch, hop, Option.toList_some, List.map_singleton]
      refine answered_found hr (Or.inr hop) fun value htake => ?_
      rw [take_eq] at htake
      exact hvalue value htake
    | listPrefix =>
      simp only [dispatch, hop, Option.toList_some, List.map_singleton]
      exact .listed hr hop fun hcap =>
        decode_encodeList hmac hmacKey hcap (hs.listed hit m.clk r.key)
    | ok | value | notFound | err | list =>
      simp only [dispatch, hop, Option.toList_none, List.map_nil]
      refine .ignored fun r' hr' => ?_
      rw [hr'.unique hr, hop]
      exact ⟨by decide, by decide, by decide, by decide⟩

/-- The handler does to the store what is to be done. -/
theorem Applied.deliver {ds : List Delivery} {s : SharedStore} (h : Applied hmac hmacKey ds s)
    (d : Delivery) :
    Applied hmac hmacKey (d :: ds) (onMessage hmac hmacKey d.moment s d.payload).state := by
  cases hd : decodeAndVerify hmac hmacKey d.payload with
  | none =>
    rw [onMessage_of_none hd]
    refine .other h fun r hr => ?_
    rw [authentic_iff, hd] at hr
    cases hr
  | some r =>
    have hr : Authentic hmac hmacKey d.payload r := (authentic_iff _ _).mpr hd
    rw [onMessage_of_some hd]
    cases hop : r.op with
    | put =>
      simp only [dispatch, hop]
      exact .put h (hr.put_eq hop ▸ hr)
    | take =>
      simp only [dispatch, hop]
      exact .take h (hr.take_eq hop ▸ hr)
    | get | listPrefix | ok | value | notFound | err | list =>
      simp only [dispatch, hop]
      refine .other h fun r' hr' => ?_
      rw [hr'.unique hr, hop]
      exact ⟨by decide, by decide⟩

/-- There is one store that the deliveries lead to. -/
theorem Applied.unique {ds : List Delivery} {s s' : SharedStore} (h : Applied hmac hmacKey ds s)
    (h' : Applied hmac hmacKey ds s') : s = s' := by
  induction h generalizing s' with
  | start =>
    cases h'
    rfl
  | put _ hr ih =>
    cases h' with
    | put h' hr' =>
      obtain rfl := ih h'
      cases hr.unique hr'
      rfl
    | take _ hr' => cases hr.unique hr'
    | other _ hnot => exact absurd rfl (hnot _ hr).1
  | take _ hr ih =>
    cases h' with
    | put _ hr' => cases hr.unique hr'
    | take h' hr' =>
      obtain rfl := ih h'
      cases hr.unique hr'
      rfl
    | other _ hnot => exact absurd rfl (hnot _ hr).2
  | other _ hnot ih =>
    cases h' with
    | put _ hr' => exact absurd rfl (hnot _ hr').1
    | take _ hr' => exact absurd rfl (hnot _ hr').2
    | other h' _ => exact ih h'

/-- **Only authentic requests change the store or are answered.**  After any payloads on any
    connections the store is the one that the authentic puts and takes among them lead to,
    and no other; each authentic request was answered once, and nothing else was. -/
theorem authentic_only (hmac : Hmac) (hmacKey : Bytes) {s : Gate}
    (hr : Machine.Reachable (deliver hmac hmacKey) {} s) :
    (∀ store, Applied hmac hmacKey (s.served.map Prod.fst) store ↔ store = s.store) ∧
      ∀ x ∈ s.served, Answered hmac hmacKey x.1.payload x.2 := by
  have hgate : Applied hmac hmacKey (s.served.map Prod.fst) s.store ∧ Holds s.store ∧
      ∀ x ∈ s.served, Answered hmac hmacKey x.1.payload x.2 := by
    refine hr.invariant (I := fun s => Applied hmac hmacKey (s.served.map Prod.fst) s.store ∧
      Holds s.store ∧ ∀ x ∈ s.served, Answered hmac hmacKey x.1.payload x.2)
      ⟨.start, every_empty, nofun⟩ ?_
    rintro s d s' ⟨happlied, hholds, hanswered⟩ - hstep
    rw [deliver] at hstep
    split at hstep
    · next hit =>
      obtain rfl := Option.some.inj hstep
      refine ⟨happlied.deliver d, hholds.onMessage d.moment d.payload, fun x hx => ?_⟩
      rcases List.mem_cons.mp hx with rfl | hx
      · exact answered_onMessage hholds hit d.payload
      · exact hanswered x hx
    · cases hstep
  refine ⟨fun store => ⟨fun h => h.unique hgate.1, ?_⟩, hgate.2.2⟩
  rintro rfl
  exact hgate.1

open RemoteStore (zeroMac)

/-- A put, a payload that is cut short, and the take of what was put. -/
def threePayloads : List Delivery :=
  [{ conn := 0, moment := { now := 0, it := [] }, payload := encodePut zeroMac [] [1] [2] 60 },
    { conn := 1, moment := { now := 0, it := [⟨[1], [2], seconds 60⟩] }
      payload := (encodePut zeroMac [] [3] [4] 60).take 40 },
    { conn := 1, moment := { now := 0, it := [⟨[1], [2], seconds 60⟩] }
      payload := encodeGetOrTake zeroMac [] .take [1] }]

theorem authentic_only_three :
    ∃ s, Machine.run (deliver zeroMac []) {} threePayloads = some s ∧
      (s.served.map Prod.snd).map List.length = [1, 0, 1] ∧
      (∀ store, Applied zeroMac [] (s.served.map Prod.fst) store ↔ store = s.store) ∧
      ∀ x ∈ s.served, Answered zeroMac [] x.1.payload x.2 := by
  have hrun : ((Machine.run (deliver zeroMac []) {} threePayloads).map fun s =>
      (s.served.map Prod.snd).map List.length) = some [1, 0, 1] := by decide +kernel
  obtain ⟨s, hs, hlengths⟩ := Option.map_eq_some_iff.mp hrun
  exact ⟨s, hs, hlengths, authentic_only zeroMac [] (.of_run .init hs)⟩

end Netsrv.StoreHandler
