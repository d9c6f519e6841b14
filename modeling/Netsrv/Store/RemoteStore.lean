/-
  The store as Login and World see it, against the store itself.

  A call is `StoreClient` on one end of a faultless connection and `StoreHandler` under
  `Session::run` on the other, with the store's key on both.  The store refuses a frame
  over 4096 bytes, the client an answer over 1 MiB or a list over 100000 entries.

  What makes an over-long key harmless is an invariant on what can be stored: whatever got
  in came through a frame, or is a ticket, so it is short enough to fit a frame again.

  * `Reachable.bounded`: that invariant.
  * `remote_refines`: the four calls against `SharedStore`.
  * `put_wraps`: what the length field of a frame does to a request of `2 ^ 32` bytes.
-/
import Netsrv.Net.ServerRole
import Netsrv.Store.StoreClient
import Netsrv.Store.StoreHandler

namespace Netsrv.RemoteStore

open StoreWire StoreHandler

/-- The largest frame the store's sessions read. -/
def kReadBufferBytes : ℕ := ServerRole.internal.readBufferBytes

/-! ## A call over one connection -/

section Calls

variable (hmac : Hmac) (hmacKey : Bytes) (m : Moment)

/-- The store's end of a connection: what it does with all the client writes, and what it
    writes back. -/
def serve (s : SharedStore) (written : Bytes) : SharedStore × Bytes :=
  Session.run kReadBufferBytes (onMessage hmac hmacKey m) s written

/-- The connection as the client sees it. -/
def connection (s : SharedStore) (written : Bytes) : Bytes := (serve hmac hmacKey m s written).2

/-- The store after the connection that carried `request`. -/
def storeAfter (s : SharedStore) (request : Bytes) : SharedStore :=
  (serve hmac hmacKey m s (Session.send request)).1

def put (s : SharedStore) (key value : Bytes) (ttl : ℕ) : Bool × SharedStore :=
  (StoreClient.put hmac hmacKey (connection hmac hmacKey m s) key value ttl,
    storeAfter hmac hmacKey m s (StoreClient.putRequest hmac hmacKey key value ttl))

def get (s : SharedStore) (key : Bytes) : Option Bytes × SharedStore :=
  (StoreClient.get hmac hmacKey (connection hmac hmacKey m s) key,
    storeAfter hmac hmacKey m s (encodeGetOrTake hmac hmacKey .get key))

def take (s : SharedStore) (key : Bytes) : Option Bytes × SharedStore :=
  (StoreClient.take hmac hmacKey (connection hmac hmacKey m s) key,
    storeAfter hmac hmacKey m s (encodeGetOrTake hmac hmacKey .take key))

def listPrefix (s : SharedStore) (pre : Bytes) : List Entry × SharedStore :=
  (StoreClient.listPrefix hmac hmacKey (connection hmac hmacKey m s) pre,
    storeAfter hmac hmacKey m s (encodeListPrefix hmac hmacKey pre))

end Calls

/-! ## The stores that can come about -/

/-- A store that internal messages, Master's tickets and sweeps lead to. -/
inductive Reachable (hmac : Hmac) (hmacKey : Bytes) : SharedStore → Prop
  | empty : Reachable hmac hmacKey .empty
  | message {s : SharedStore} {payload : Bytes} (m : Moment) : Reachable hmac hmacKey s →
      payload.length ≤ kReadBufferBytes →
      Reachable hmac hmacKey (onMessage hmac hmacKey m s payload).state
  | ticket {s : SharedStore} (now : ℕ) (random : Vector UInt8 16) (ttl : ℕ) :
      Reachable hmac hmacKey s →
      Reachable hmac hmacKey (s.put now (generateTokenHex random) [] ttl)
  | sweep {s : SharedStore} {it : List SharedStore.Cell} (clk : Bytes → ℕ) :
      Reachable hmac hmacKey s → s.Walk it →
      Reachable hmac hmacKey (s.sweepExpired clk it).1

/-- Every entry fits the frame of a put. -/
def Bounded (s : SharedStore) : Prop :=
  ∀ key e, s.find key = some e → key.length + e.value.length + 44 ≤ kReadBufferBytes

/-- The bytes of all keys and values. -/
def content (s : SharedStore) : ℕ :=
  (s.entries.entries.map fun c => c.1.length + c.2.value.length).sum

theorem Bounded.every {s : SharedStore} (h : Bounded s) :
    s.Every fun key value => key.length + value.length + 44 ≤ kReadBufferBytes := h

theorem Bounded.put {s : SharedStore} (h : Bounded s) {key value : Bytes}
    (hfit : key.length + value.length + 44 ≤ kReadBufferBytes) (now ttl : ℕ) :
    Bounded (s.put now key value ttl) := h.every.put hfit now ttl

theorem Bounded.take {s : SharedStore} (h : Bounded s) (now : ℕ) (key : Bytes) :
    Bounded (s.take now key).2 := h.every.take now key

theorem Bounded.sweepExpired {s : SharedStore} (h : Bounded s) {it : List SharedStore.Cell}
    (hit : s.Walk it) (clk : Bytes → ℕ) : Bounded (s.sweepExpired clk it).1 :=
  h.every.sweepExpired hit clk

/-- The key and the value of a decoded `Put` were part of its payload. -/
theorem length_of_decode_put {hmac : Hmac} {hmacKey payload : Bytes} {d : Decoded}
    (h : decodeAndVerify hmac hmacKey payload = some d) (hop : d.op = .put) :
    d.key.length + d.value.length + 44 ≤ payload.length := by
  obtain ⟨-, rest, rfl⟩ := (decodeAndVerify_eq_some_iff hmac hmacKey payload d).mp h
  rw [length_sign, Decoded.encoding, Decoded.fields, hop]
  simp only [List.length_append, ByteWriter.length_u16, ByteWriter.length_str16,
    ByteWriter.length_bytes32, ByteWriter.length_u32]
  omega

theorem Bounded.onMessage {s : SharedStore} (h : Bounded s) {hmac : Hmac}
    {hmacKey payload : Bytes} (m : Moment) (hlen : payload.length ≤ kReadBufferBytes) :
    Bounded (onMessage hmac hmacKey m s payload).state := by
  cases hd : decodeAndVerify hmac hmacKey payload with
  | none => rwa [onMessage_of_none hd]
  | some d =>
    rw [onMessage_of_some hd]
    cases hop : d.op with
    | put =>
      have hfit := (length_of_decode_put hd hop).trans hlen
      simpa only [dispatch, hop] using h.put hfit m.now d.ttlSeconds.toNat
    | take => simpa only [dispatch, hop] using h.take m.now d.key
    | get | listPrefix | ok | value | notFound | err | list => simpa only [dispatch, hop] using h

/-- Whatever is in the store fits a frame. -/
theorem Reachable.bounded {hmac : Hmac} {hmacKey : Bytes} {s : SharedStore}
    (h : Reachable hmac hmacKey s) : Bounded s := by
  induction h with
  | empty => exact fun key e hfind => by cases hfind
  | message m _ hlen ih => exact ih.onMessage m hlen
  | ticket now random ttl _ ih =>
    refine ih.put ?_ now ttl
    rw [length_generateTokenHex]
    decide
  | sweep clk _ hit ih => exact ih.sweepExpired hit clk

/-- A key too long for its frame is not in the store. -/
theorem Bounded.get_of_too_long {s : SharedStore} (h : Bounded s) {key : Bytes}
    (hlong : kReadBufferBytes < key.length + 44) (now : ℕ) : s.get now key = none := by
  rw [SharedStore.get_eq]
  cases hfind : s.find key with
  | none => rfl
  | some e =>
    have := h key e hfind
    omega

theorem Bounded.length_value {s : SharedStore} (h : Bounded s) {now : ℕ} {key value : Bytes}
    (hget : s.get now key = some value) : value.length + 44 ≤ kReadBufferBytes := by
  have hfit : key.length + value.length + 44 ≤ kReadBufferBytes := h.every.get hget
  omega

/-! ## What one connection does with one request -/

section Serve

variable (hmac : Hmac) (hmacKey : Bytes) (m : Moment)

/-- A request that fits is one `on_message`. -/
theorem serve_of_fits (s : SharedStore) {request : Bytes} (hpos : 0 < request.length)
    (hfit : request.length ≤ kReadBufferBytes) :
    serve hmac hmacKey m s (Session.send request) =
      ((onMessage hmac hmacKey m s request).state,
        (onMessage hmac hmacKey m s request).sent.flatMap Session.send) := by
  have hfit' : request.length ≤ 4096 := hfit
  exact Session.run_send hpos hfit (by omega) (onMessage_ended hmac hmacKey m s request)

/-- A request that does not fit, but whose length the header can hold, is refused. -/
theorem serve_of_too_long (s : SharedStore) {request : Bytes}
    (hlong : kReadBufferBytes < request.length) (h32 : request.length < 2 ^ 32) :
    serve hmac hmacKey m s (Session.send request) = (s, []) := by
  refine Session.run_none _ s ?_
  rw [Session.send, Session.readFrame_header, Nat.mod_eq_of_lt h32, if_pos (Or.inr hlong)]

theorem call_of_too_long (s : SharedStore) {request : Bytes}
    (hlong : kReadBufferBytes < request.length) (h32 : request.length < 2 ^ 32) :
    StoreClient.roundtrip hmac hmacKey (connection hmac hmacKey m s) request = none ∧
      storeAfter hmac hmacKey m s request = s := by
  rw [StoreClient.roundtrip, connection, storeAfter, serve_of_too_long hmac hmacKey m s hlong h32]
  exact ⟨StoreClient.receive_nil hmac hmacKey, rfl⟩

end Serve

/-! ## Listings -/

theorem length_le_content_of_ne_nil {it : List SharedStore.Cell} (h : ∀ c ∈ it, c.1 ≠ []) :
    it.length ≤ (it.map fun c => c.1.length + c.2.value.length).sum := by
  induction it with
  | nil => exact Nat.le_refl 0
  | cons c it ih =>
    have hc : 0 < c.1.length := List.length_pos_of_ne_nil (h c List.mem_cons_self)
    have hrest := ih fun c' hc' => h c' (List.mem_cons_of_mem c hc')
    rw [List.length_cons, List.map_cons, List.sum_cons]
    omega

/-- Only one key is empty, so the entries are hardly more than the bytes they hold. -/
theorem length_le_content {it : List SharedStore.Cell} (h : (it.map Sigma.fst).Nodup) :
    it.length ≤ (it.map fun c => c.1.length + c.2.value.length).sum + 1 := by
  induction it with
  | nil => exact Nat.zero_le _
  | cons c it ih =>
    rw [List.map_cons, List.nodup_cons] at h
    rw [List.length_cons, List.map_cons, List.sum_cons]
    by_cases hc : c.1 = []
    · have hrest : it.length ≤ (it.map fun c => c.1.length + c.2.value.length).sum := by
        refine length_le_content_of_ne_nil fun c' hc' hnil => h.1 ?_
        rw [hc, ← hnil]
        exact List.mem_map_of_mem hc'
      omega
    · have hpos := List.length_pos_of_ne_nil hc
      have hrest := ih h.2
      omega

theorem length_listPrefix_le {s : SharedStore} {it : List SharedStore.Cell} (hit : s.Walk it)
    (clk : Bytes → ℕ) (pre : Bytes) :
    (SharedStore.listPrefix clk it pre).length ≤ content s + 1 := by
  have hsum : (it.map fun c => c.1.length + c.2.value.length).sum = content s :=
    (hit.map _).sum_nat
  rw [SharedStore.listPrefix_eq, ← hsum]
  exact (List.length_filterMap_le _ it).trans (length_le_content hit.nodup)

/-- Every listed entry fits the frame it came in. -/
theorem Bounded.listed {s : SharedStore} (h : Bounded s) {it : List SharedStore.Cell}
    (hit : s.Walk it) (clk : Bytes → ℕ) (pre : Bytes) :
    ∀ e ∈ SharedStore.listPrefix clk it pre,
      e.1.length + e.2.length + 44 ≤ kReadBufferBytes :=
  h.every.listed hit clk pre

theorem listLength_le {es : List Entry} {n : ℕ} (h : ∀ e ∈ es, e.1.length + e.2.length ≤ n) :
    listLength es ≤ 38 + es.length * (n + 6) := by
  have hentries : (es.flatMap encodeEntry).length ≤ es.length * (n + 6) := by
    induction es with
    | nil => exact Nat.zero_le _
    | cons e es ih =>
      have he := h e List.mem_cons_self
      have hrest := ih fun e' he' => h e' (List.mem_cons_of_mem e he')
      have hone : (encodeEntry e).length = e.1.length + e.2.length + 6 := by
        rw [encodeEntry, List.length_append, ByteWriter.length_str16, ByteWriter.length_bytes32]
        omega
      rw [List.flatMap_cons, List.length_append, hone, List.length_cons, Nat.succ_mul]
      omega
  exact Nat.add_le_add_left hentries 38

/-- A list over the cap does not decode, nor does any beginning of it: the count alone
    refuses it. -/
theorem decode_take_encodeList {hmac : Hmac} {hmacKey : Bytes} {es : List Entry}
    (hcap : kMaxListEntries < es.length) (h32 : es.length < 2 ^ 32) (n : ℕ) :
    decodeAndVerify hmac hmacKey ((encodeList hmac hmacKey es).take n) = none := by
  cases hd : decodeAndVerify hmac hmacKey ((encodeList hmac hmacKey es).take n) with
  | none => rfl
  | some d =>
    obtain ⟨hwf, rest, heq⟩ := (decodeAndVerify_eq_some_iff hmac hmacKey _ d).mp hd
    have hall := List.take_append_drop n (encodeList hmac hmacKey es)
    rw [heq, sign, encodeList, sign, Decoded.encoding] at hall
    simp only [List.append_assoc] at hall
    -- the first two bytes make it a list, the next four give its count
    obtain ⟨hcode, hall⟩ := List.append_inj hall (by simp)
    have hop : d.op = .list := Op.u16_code_inj hcode
    rw [Decoded.WellFormed, hop] at hwf
    have hcount : d.entries.length ≤ 100000 := hwf.1
    have hcap' : 100000 < es.length := hcap
    rw [Decoded.fields, hop] at hall
    simp only [List.append_assoc] at hall
    obtain ⟨hword, -⟩ := List.append_inj hall (by simp)
    have hlen := congrArg UInt32.toNat (ByteWriter.u32_inj hword)
    rw [UInt32.toNat_ofNat', UInt32.toNat_ofNat', Nat.mod_eq_of_lt (by omega),
      Nat.mod_eq_of_lt h32] at hlen
    omega

/-! ## Answers -/

/-- What a client gets of an answer: a list over one of its limits is lost. -/
def received : Answer → Option Decoded
  | .ok => some { op := .ok }
  | .value v => some { op := .value, value := v }
  | .notFound => some { op := .notFound }
  | .list es =>
    if es.length ≤ kMaxListEntries ∧ listLength es ≤ StoreClient.kMaxResponseBytes
    then some { op := .list, entries := es } else none

/-- An answer made of entries that came through frames. -/
def AnswerFits : Answer → Prop
  | .ok | .notFound => True
  | .value v => v.length + 44 ≤ kReadBufferBytes
  | .list es => (∀ e ∈ es, e.1.length + e.2.length + 44 ≤ kReadBufferBytes) ∧ es.length < 2 ^ 32

theorem Bounded.answerFits {s : SharedStore} (hs : Bounded s) {m : Moment} {d : Decoded}
    (hlist : d.op = .listPrefix → content s < 2 ^ 31 ∧ s.Walk m.it) {a : Answer}
    (ha : (dispatch m s d).2 = some a) : AnswerFits a := by
  have hfound {v : Option Bytes} (hv : v = s.get m.now d.key) : AnswerFits (.ofFound v) := by
    cases hget : v with
    | none => trivial
    | some value => exact hs.length_value (hv.symm.trans hget)
  unfold dispatch at ha
  split at ha
  · obtain rfl := Option.some.inj ha
    trivial
  · obtain rfl := Option.some.inj ha
    exact hfound rfl
  · obtain rfl := Option.some.inj ha
    exact hfound (by rw [SharedStore.take_eq])
  · next hop =>
    obtain rfl := Option.some.inj ha
    obtain ⟨hcontent, hit⟩ := hlist hop
    have hcount := length_listPrefix_le hit m.clk d.key
    exact ⟨hs.listed hit m.clk d.key, by omega⟩
  all_goals cases ha

/-- An answer crosses the wire as `received` says. -/
theorem receive_encode (hmac : Hmac) (hmacKey : Bytes) {a : Answer} (hfits : AnswerFits a) :
    StoreClient.receive hmac hmacKey (Session.send (a.encode hmac hmacKey)) = received a := by
  cases a with
  | ok =>
    have hlen := length_encodeOk hmac hmacKey
    rw [Answer.encode, StoreClient.receive_send hmac hmacKey (by omega) (by rw [hlen]; decide),
      decode_encodeOk]
    rfl
  | notFound =>
    have hlen := length_encodeNotFound hmac hmacKey
    rw [Answer.encode, StoreClient.receive_send hmac hmacKey (by omega) (by rw [hlen]; decide),
      decode_encodeNotFound]
    rfl
  | value v =>
    have hfits : v.length + 44 ≤ 4096 := hfits
    have hlen := length_encodeValue hmac hmacKey v
    have hmax : (encodeValue hmac hmacKey v).length ≤ 2 ^ 20 := by omega
    rw [Answer.encode, StoreClient.receive_send hmac hmacKey (by omega) hmax,
      decode_encodeValue hmac hmacKey (by omega)]
    rfl
  | list es =>
    obtain ⟨hentries, h32⟩ := hfits
    have hentries : ∀ e ∈ es, e.1.length + e.2.length + 44 ≤ 4096 := hentries
    have hlen := length_encodeList hmac hmacKey es
    have hpos : 0 < listLength es := by
      rw [listLength]
      omega
    rw [Answer.encode, received]
    by_cases hcap : es.length ≤ kMaxListEntries
    · by_cases hmax : listLength es ≤ StoreClient.kMaxResponseBytes
      · rw [if_pos ⟨hcap, hmax⟩,
          StoreClient.receive_send hmac hmacKey (hlen.symm ▸ hpos) (hlen.symm ▸ hmax)]
        refine decode_encodeList hmac hmacKey hcap fun e he => ?_
        have := hentries e he
        exact ⟨by omega, by omega⟩
      · -- within the cap the length does not wrap
        have hbound := listLength_le (n := 4052) fun e he => by have := hentries e he; omega
        have hcap' : es.length ≤ 100000 := hcap
        rw [if_neg fun h => hmax h.2]
        exact StoreClient.receive_send_of_too_long hmac hmacKey
          (hlen.symm ▸ Nat.lt_of_not_le hmax) (by omega)
    · rw [if_neg fun h => hcap h.1]
      rcases StoreClient.receive_send_prefix hmac hmacKey (encodeList hmac hmacKey es) with h | h
      · exact h
      · rw [h]
        exact decode_take_encodeList (Nat.lt_of_not_le hcap) h32 _

/-- **A call is a dispatch.**  What the client gets and what the store becomes, for a request
    that fits and decodes. -/
theorem call_of_fits (hmac : Hmac) (hmacKey : Bytes) (m : Moment) {s : SharedStore}
    (hs : Bounded s) {request : Bytes} {d : Decoded} (hfit : request.length ≤ kReadBufferBytes)
    (hd : decodeAndVerify hmac hmacKey request = some d)
    (hlist : d.op = .listPrefix → content s < 2 ^ 31 ∧ s.Walk m.it) :
    StoreClient.roundtrip hmac hmacKey (connection hmac hmacKey m s) request =
        (dispatch m s d).2.bind received ∧
      storeAfter hmac hmacKey m s request = (dispatch m s d).1 := by
  obtain ⟨body, -, hbody⟩ := decodeAndVerify_some_sign hmac hmacKey hd
  have hpos : 0 < request.length := by
    rw [hbody, length_sign]
    omega
  have hserve := serve_of_fits hmac hmacKey m s hpos hfit
  rw [onMessage_of_some hd] at hserve
  rw [StoreClient.roundtrip, connection, storeAfter, hserve]
  refine ⟨?_, rfl⟩
  cases ha : (dispatch m s d).2 with
  | none => exact StoreClient.receive_nil hmac hmacKey
  | some a =>
    rw [Option.bind_some, ← receive_encode hmac hmacKey (hs.answerFits hlist ha)]
    simp

/-! ## The four calls -/

section Refines

variable {hmac : Hmac} {hmacKey : Bytes} {m : Moment} {s : SharedStore}

theorem getOrTakeResult_ofFound (v : Option Bytes) :
    StoreClient.getOrTakeResult ((some (Answer.ofFound v)).bind received) = v := by
  cases v <;> rfl

/-- A `Get` or a `Take` over the wire is its dispatch, or finds nothing if the key is too long
    for a frame. -/
theorem getOrTake_call (hs : Bounded s) {op : Op} (hop : op = .get ∨ op = .take) {key : Bytes}
    (hkey : key.length < 2 ^ 31) :
    (StoreClient.roundtrip hmac hmacKey (connection hmac hmacKey m s)
        (encodeGetOrTake hmac hmacKey op key) = (dispatch m s { op, key }).2.bind received ∧
      storeAfter hmac hmacKey m s (encodeGetOrTake hmac hmacKey op key) =
        (dispatch m s { op, key }).1) ∨
    (StoreClient.roundtrip hmac hmacKey (connection hmac hmacKey m s)
        (encodeGetOrTake hmac hmacKey op key) = none ∧
      storeAfter hmac hmacKey m s (encodeGetOrTake hmac hmacKey op key) = s ∧
      s.get m.now key = none) := by
  have hlen := length_encodeGetOrTake hmac hmacKey op key
  by_cases hfit : key.length + 44 ≤ 4096
  · have hd := decode_encodeGetOrTake hmac hmacKey (hop.imp_right Or.inl)
      (show key.length < 2 ^ 16 by omega)
    refine Or.inl (call_of_fits hmac hmacKey m hs (hlen.trans_le hfit) hd fun hlist => ?_)
    rcases hop with rfl | rfl <;> cases hlist
  · obtain ⟨hresult, hafter⟩ := call_of_too_long hmac hmacKey m s
      (hlen.symm ▸ Nat.lt_of_not_le hfit) (by omega)
    exact Or.inr ⟨hresult, hafter, hs.get_of_too_long (Nat.lt_of_not_le hfit) m.now⟩

theorem get_refines (hs : Bounded s) {key : Bytes} (hkey : key.length < 2 ^ 31) :
    get hmac hmacKey m s key = (s.get m.now key, s) := by
  rw [get, StoreClient.get]
  rcases getOrTake_call hs (Or.inl rfl) hkey with ⟨hresult, hafter⟩ | ⟨hresult, hafter, hnone⟩
  · rw [hresult, hafter]
    exact Prod.ext (getOrTakeResult_ofFound _) rfl
  · rw [hresult, hafter, hnone]
    rfl

theorem take_refines (hs : Bounded s) {key : Bytes} (hkey : key.length < 2 ^ 31) :
    take hmac hmacKey m s key = s.take m.now key := by
  rw [take, StoreClient.take]
  rcases getOrTake_call hs (Or.inr rfl) hkey with ⟨hresult, hafter⟩ | ⟨hresult, hafter, hnone⟩
  · rw [hresult, hafter]
    exact Prod.ext (getOrTakeResult_ofFound _) rfl
  · rw [hresult, hafter, SharedStore.take_eq, hnone]
    rfl

theorem put_refines (hs : Bounded s) {key value : Bytes} {ttl : ℕ} (httl : ttl < 2 ^ 32)
    (h32 : key.length + value.length + 44 < 2 ^ 32) :
    put hmac hmacKey m s key value ttl =
      if key.length + value.length + 44 ≤ kReadBufferBytes then (true, s.put m.now key value ttl)
      else (false, s) := by
  have hlen : (StoreClient.putRequest hmac hmacKey key value ttl).length =
      key.length + value.length + 44 := length_encodePut hmac hmacKey key value _
  rw [put, StoreClient.put]
  by_cases hfit : key.length + value.length + 44 ≤ kReadBufferBytes
  · have hfit' : key.length + value.length + 44 ≤ 4096 := hfit
    have hd : decodeAndVerify hmac hmacKey (StoreClient.putRequest hmac hmacKey key value ttl) =
        some { op := .put, key, value, ttlSeconds := UInt32.ofNat ttl } :=
      decode_encodePut hmac hmacKey _ (by omega) (by omega)
    obtain ⟨hresult, hafter⟩ := call_of_fits hmac hmacKey m hs (hlen.trans_le hfit) hd nofun
    rw [hresult, hafter, if_pos hfit, dispatch, UInt32.toNat_ofNat', Nat.mod_eq_of_lt httl]
    rfl
  · obtain ⟨hresult, hafter⟩ := call_of_too_long hmac hmacKey m s
      (hlen.symm ▸ Nat.lt_of_not_le hfit) (by omega)
    rw [hresult, hafter, if_neg hfit]
    rfl

theorem listPrefix_refines (hs : Bounded s) (hcontent : content s < 2 ^ 31) (hit : s.Walk m.it)
    {pre : Bytes} (hpre : pre.length < 2 ^ 31) :
    listPrefix hmac hmacKey m s pre =
      (if pre.length + 44 ≤ kReadBufferBytes ∧
          (SharedStore.listPrefix m.clk m.it pre).length ≤ kMaxListEntries ∧
          (encodeList hmac hmacKey (SharedStore.listPrefix m.clk m.it pre)).length ≤
            StoreClient.kMaxResponseBytes
        then SharedStore.listPrefix m.clk m.it pre else [], s) := by
  have hlen : (encodeListPrefix hmac hmacKey pre).length = pre.length + 44 :=
    length_encodeGetOrTake hmac hmacKey .listPrefix pre
  rw [listPrefix, StoreClient.listPrefix, length_encodeList]
  by_cases hfit : pre.length + 44 ≤ kReadBufferBytes
  · have hfit' : pre.length + 44 ≤ 4096 := hfit
    have hd := decode_encodeListPrefix hmac hmacKey (show pre.length < 2 ^ 16 by omega)
    obtain ⟨hresult, hafter⟩ := call_of_fits hmac hmacKey m hs (hlen.trans_le hfit) hd
      fun _ => ⟨hcontent, hit⟩
    rw [hresult, hafter, dispatch, Option.bind_some, received]
    refine Prod.ext ?_ rfl
    by_cases hlimits : (SharedStore.listPrefix m.clk m.it pre).length ≤ kMaxListEntries ∧
        listLength (SharedStore.listPrefix m.clk m.it pre) ≤ StoreClient.kMaxResponseBytes
    · rw [if_pos hlimits, if_pos ⟨hfit, hlimits⟩]
      rfl
    · rw [if_neg hlimits, if_neg fun h => hlimits h.2]
      rfl
  · obtain ⟨hresult, hafter⟩ := call_of_too_long hmac hmacKey m s
      (hlen.symm ▸ Nat.lt_of_not_le hfit) (by omega)
    rw [hresult, hafter, if_neg fun h => hfit h.1]
    rfl

end Refines

/-- **The remote store refines the local one.**  Every call over a faultless connection has
    the local call's result and effect, or is refused without an effect; a put is measured
    by its frame, whose length field holds fewer than `2 ^ 32` bytes. -/
theorem remote_refines (hmac : Hmac) (hmacKey : Bytes) (m : Moment) {s : SharedStore}
    (hs : Reachable hmac hmacKey s) (hcontent : content s < 2 ^ 31) (hit : s.Walk m.it)
    {key : Bytes} (value : Bytes) {ttl : ℕ} (hkey : key.length < 2 ^ 31) (httl : ttl < 2 ^ 32) :
    get hmac hmacKey m s key = (s.get m.now key, s) ∧
    take hmac hmacKey m s key = s.take m.now key ∧
    (key.length + value.length + 44 < 2 ^ 32 →
      put hmac hmacKey m s key value ttl =
        if key.length + value.length + 44 ≤ kReadBufferBytes
        then (true, s.put m.now key value ttl) else (false, s)) ∧
    listPrefix hmac hmacKey m s key =
      (if key.length + 44 ≤ kReadBufferBytes ∧
          (SharedStore.listPrefix m.clk m.it key).length ≤ kMaxListEntries ∧
          (encodeList hmac hmacKey (SharedStore.listPrefix m.clk m.it key)).length ≤
            StoreClient.kMaxResponseBytes
        then SharedStore.listPrefix m.clk m.it key else [], s) :=
  ⟨get_refines hs.bounded hkey, take_refines hs.bounded hkey, put_refines hs.bounded httl,
    listPrefix_refines hs.bounded hcontent hit hkey⟩

/-- A MAC for concrete runs. -/
def zeroMac : Hmac := fun _ _ => Vector.replicate 32 0

/-- Taking a ticket Master has just put. -/
theorem remote_refines_ticket :
    let ticket := generateTokenHex (Vector.replicate 16 0)
    let s := SharedStore.empty.put 0 ticket [] 30
    let m : Moment := { now := 1, it := s.entries.entries }
    take zeroMac [] m s ticket = s.take 1 ticket ∧ (s.take 1 ticket).1 = some [] :=
  ⟨(remote_refines zeroMac [] { now := 1, it := _ }
    (.ticket 0 (Vector.replicate 16 0) 30 .empty) (by decide) (List.Perm.refl _) []
    (show (generateTokenHex (Vector.replicate 16 0)).length < 2 ^ 31 by
      rw [length_generateTokenHex]; decide) (show 0 < 2 ^ 32 by decide)).2.1, by decide⟩

/-! ## A put whose length wraps -/

/-- The first two bytes of an accepted message are its opcode. -/
theorem op_of_decode {hmac : Hmac} {hmacKey msg rest : Bytes} {d : Decoded} {op : Op}
    (hmsg : msg = ByteWriter.u16 op.code ++ rest)
    (hd : decodeAndVerify hmac hmacKey msg = some d) : d.op = op := by
  obtain ⟨-, tail, heq⟩ := (decodeAndVerify_eq_some_iff hmac hmacKey msg d).mp hd
  rw [hmsg, sign, Decoded.encoding] at heq
  simp only [List.append_assoc] at heq
  obtain ⟨hcode, -⟩ := List.append_inj heq (by simp)
  exact (Op.u16_code_inj hcode).symm

/-- A request of `2 ^ 32 + 42` bytes announces 42, which hold its opcode, the length of its
    key and the first 38 bytes of it.  That does not decode, so the store goes on to read
    the key itself as frames, and carries out what it finds there. -/
theorem put_wraps {hmac : Hmac} {hmacKey : Bytes} {m : Moment} (s : SharedStore)
    {first inner fill value : Bytes} {ttl : ℕ} {d : Decoded} (hfirst : first.length = 38)
    (hinner : decodeAndVerify hmac hmacKey inner = some d) (hop : d.op = .put)
    (hfit : inner.length ≤ kReadBufferBytes)
    (hlen : (first ++ (Session.send inner ++ fill)).length + value.length + 44 = 2 ^ 32 + 42) :
    (put hmac hmacKey m s (first ++ (Session.send inner ++ fill)) value ttl).1 = true := by
  generalize hkey : first ++ (Session.send inner ++ fill) = key at hlen
  have hfit' : inner.length ≤ 4096 := hfit
  have hrequest : (StoreClient.putRequest hmac hmacKey key value ttl).length % 2 ^ 32 = 42 := by
    rw [StoreClient.putRequest, length_encodePut, hlen]
    decide
  -- the request, cut where the store cuts it
  let head := ByteWriter.u16 Op.put.code ++ (ByteWriter.u16 (UInt16.ofNat key.length) ++ first)
  have hcut : ∃ rest, StoreClient.putRequest hmac hmacKey key value ttl =
      head ++ (Session.send inner ++ rest) := by
    rw [StoreClient.putRequest, encodePut, sign, ByteWriter.str16]
    nth_rewrite 2 [← hkey]
    simp only [head, List.append_assoc]
    exact ⟨_, rfl⟩
  obtain ⟨rest, hcut⟩ := hcut
  have hhead : head.length = 42 := by
    rw [List.length_append, List.length_append, ByteWriter.length_u16, ByteWriter.length_u16,
      hfirst]
  have hread : Session.readFrame kReadBufferBytes
      (Session.send (StoreClient.putRequest hmac hmacKey key value ttl)) =
        some (head, Session.send inner ++ rest) := by
    rw [Session.send, Session.readFrame_header, hrequest, if_neg (by decide), hcut, ← hhead,
      if_neg (by simp), List.take_left, List.drop_left]
  have hignored : onMessage hmac hmacKey m s head = { state := s } := by
    refine onMessage_of_none (Option.eq_none_iff_forall_ne_some.mpr fun d' hd' => ?_)
    have := length_of_decode_put hd' (op_of_decode rfl hd')
    omega
  have hpos : 0 < inner.length := by
    have := length_of_decode_put hinner hop
    omega
  have hanswer : (onMessage hmac hmacKey m s inner).sent = [encodeOk hmac hmacKey] := by
    rw [onMessage_of_some hinner, dispatch, hop]
    rfl
  have hok := length_encodeOk hmac hmacKey
  have hmax : (encodeOk hmac hmacKey).length ≤ StoreClient.kMaxResponseBytes := by
    rw [hok]
    decide
  rw [put, StoreClient.put, StoreClient.roundtrip, connection, serve,
    Session.run_some hread (onMessage_ended hmac hmacKey m s head), hignored,
    Session.run_some (Session.readFrame_send hpos hfit (by omega) rest)
      (onMessage_ended hmac hmacKey m s inner), hanswer]
  simp only [List.flatMap_nil, List.nil_append, List.flatMap_cons, List.append_nil]
  rw [StoreClient.receive_send_append hmac hmacKey (by omega) hmax, decode_encodeOk]
  rfl

/-- A put that fits no frame can be answered with `Ok`. -/
theorem put_not_refines : ¬ ∀ (hmac : Hmac) (hmacKey : Bytes) (m : Moment) (s : SharedStore),
    Reachable hmac hmacKey s → content s < 2 ^ 31 → s.Walk m.it →
    ∀ (key value : Bytes) (ttl : ℕ), key.length < 2 ^ 31 → value.length < 2 ^ 31 →
      ttl < 2 ^ 32 →
      put hmac hmacKey m s key value ttl =
        if key.length + value.length + 44 ≤ kReadBufferBytes
        then (true, s.put m.now key value ttl) else (false, s) := by
  intro h
  let inner := encodePut zeroMac [] [0x6b] [] 1
  have hinner : inner.length = 45 := length_encodePut zeroMac [] [0x6b] [] 1
  generalize hfill : List.replicate (2 ^ 31 - 88) (0 : UInt8) = fill
  generalize hvalue : List.replicate (2 ^ 31 - 1) (0 : UInt8) = value
  have hfill_len : fill.length = 2 ^ 31 - 88 := by rw [← hfill, List.length_replicate]
  have hvalue_len : value.length = 2 ^ 31 - 1 := by rw [← hvalue, List.length_replicate]
  have hkey_len : (List.replicate 38 0 ++ (Session.send inner ++ fill)).length = 2 ^ 31 - 1 := by
    rw [List.length_append, List.length_append, List.length_replicate, Session.length_send,
      hinner, hfill_len]
    decide
  have hput := h zeroMac [] { now := 0, it := [] } .empty .empty (by decide) (List.Perm.refl _)
    (List.replicate 38 0 ++ (Session.send inner ++ fill)) value 1 (by omega) (by omega) (by decide)
  rw [hkey_len, hvalue_len, if_neg (by decide)] at hput
  have hdecode : decodeAndVerify zeroMac [] inner =
      some { op := .put, key := [0x6b], value := [], ttlSeconds := 1 } :=
    decode_encodePut zeroMac [] 1 (by decide) (by decide)
  have hwraps : (put zeroMac [] { now := 0, it := [] } .empty
      (List.replicate 38 0 ++ (Session.send inner ++ fill)) value 1).1 = true :=
    put_wraps .empty List.length_replicate hdecode rfl (by rw [hinner]; decide) (by omega)
  rw [hput] at hwraps
  cases hwraps

end Netsrv.RemoteStore
