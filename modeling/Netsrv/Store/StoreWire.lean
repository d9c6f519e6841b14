/-
  `store/store_wire.hpp`: the messages between Login/World and the store in Master.

  A message is a body and 32 bytes of HMAC over it.  `Decoded.encoding` is the layout of a
  decoded value under its own opcode and `Decoded.WellFormed` what the layout can hold; both
  are read off the encoders.  `decodeAndVerify_eq_some_iff` says that the decoder accepts
  exactly those layouts, each followed by any bytes, under a correct HMAC, and the seven
  encoders decode back as instances of it.
-/
import Netsrv.Security.Crypto

namespace Netsrv.StoreWire

open ByteCodec PrefixParser

inductive Op where
  | put | get | take | listPrefix          -- requests
  | ok | value | notFound | err | list     -- responses
  deriving DecidableEq, Repr

/-- `static_cast<std::uint16_t>(op)`. -/
def Op.code : Op → UInt16
  | put => 1 | get => 2 | take => 3 | listPrefix => 4
  | ok => 100 | value => 101 | notFound => 102 | err => 103 | list => 104

/-- The labels of the decoder's `switch`: an opcode outside them falls through. -/
def Op.ofCode? (code : UInt16) : Option Op :=
  if code = 1 then some put else if code = 2 then some get else if code = 3 then some take
  else if code = 4 then some listPrefix else if code = 100 then some ok
  else if code = 101 then some value else if code = 102 then some notFound
  else if code = 103 then some err else if code = 104 then some list else none

/-- A key and its value in a listing. -/
abbrev Entry := Bytes × Bytes

/-! ## Encoding -/

section Encode

variable (hmac : Hmac) (hmacKey : Bytes)

/-- The last lines of every encoder: append the HMAC of what was written. -/
def sign (w : Bytes) : Bytes := w ++ (hmac hmacKey w).toList

def encodePut (key value : Bytes) (ttlSeconds : UInt32) : Bytes :=
  sign hmac hmacKey (ByteWriter.u16 Op.put.code ++ ByteWriter.str16 key ++
    ByteWriter.bytes32 value ++ ByteWriter.u32 ttlSeconds)

def encodeGetOrTake (op : Op) (key : Bytes) : Bytes :=
  sign hmac hmacKey (ByteWriter.u16 op.code ++ ByteWriter.str16 key ++
    ByteWriter.u32 0 ++ ByteWriter.u32 0)

def encodeOk : Bytes := sign hmac hmacKey (ByteWriter.u16 Op.ok.code)

def encodeNotFound : Bytes := sign hmac hmacKey (ByteWriter.u16 Op.notFound.code)

def encodeValue (value : Bytes) : Bytes :=
  sign hmac hmacKey (ByteWriter.u16 Op.value.code ++ ByteWriter.bytes32 value)

def encodeListPrefix (pre : Bytes) : Bytes := encodeGetOrTake hmac hmacKey .listPrefix pre

/-- One turn of the loop of `encode_list`. -/
def encodeEntry (e : Entry) : Bytes := ByteWriter.str16 e.1 ++ ByteWriter.bytes32 e.2

def encodeList (entries : List Entry) : Bytes :=
  sign hmac hmacKey (ByteWriter.u16 Op.list.code ++
    ByteWriter.u32 (UInt32.ofNat entries.length) ++ entries.flatMap encodeEntry)

/-- The length of a signed list. -/
def listLength (entries : List Entry) : ℕ := 38 + (entries.flatMap encodeEntry).length

@[simp] theorem length_sign (w : Bytes) : (sign hmac hmacKey w).length = w.length + 32 := by
  rw [sign, List.length_append, Vector.length_toList]

theorem length_encodePut (key value : Bytes) (ttl : UInt32) :
    (encodePut hmac hmacKey key value ttl).length = key.length + value.length + 44 := by
  simp only [encodePut, length_sign, List.length_append, ByteWriter.length_u16,
    ByteWriter.length_str16, ByteWriter.length_bytes32, ByteWriter.length_u32]
  omega

theorem length_encodeGetOrTake (op : Op) (key : Bytes) :
    (encodeGetOrTake hmac hmacKey op key).length = key.length + 44 := by
  simp only [encodeGetOrTake, length_sign, List.length_append, ByteWriter.length_u16,
    ByteWriter.length_str16, ByteWriter.length_u32]
  omega

theorem length_encodeOk : (encodeOk hmac hmacKey).length = 34 := by
  rw [encodeOk, length_sign, ByteWriter.length_u16]

theorem length_encodeNotFound : (encodeNotFound hmac hmacKey).length = 34 := by
  rw [encodeNotFound, length_sign, ByteWriter.length_u16]

theorem length_encodeValue (value : Bytes) :
    (encodeValue hmac hmacKey value).length = value.length + 38 := by
  rw [encodeValue, length_sign, List.length_append, ByteWriter.length_u16,
    ByteWriter.length_bytes32]
  omega

theorem length_encodeList (entries : List Entry) :
    (encodeList hmac hmacKey entries).length = listLength entries := by
  rw [encodeList, length_sign, listLength]
  simp only [List.length_append, ByteWriter.length_u16, ByteWriter.length_u32]
  omega

end Encode

/-! ## Decoding -/

structure Decoded where
  op : Op
  key : Bytes := []
  value : Bytes := []
  ttlSeconds : UInt32 := 0
  entries : List Entry := []
  deriving DecidableEq, Repr

/-- One turn of the loop of the `List` case. -/
def readEntry : ByteReader Entry := do
  let key ← ByteReader.str16
  let val ← ByteReader.bytes32
  pure (key, val)

def kMaxListEntries : ℕ := 100000

/-- The `switch` of `decode_and_verify`, on the bytes after the opcode. -/
def readFields (op : Op) : ByteReader Decoded :=
  match op with
  | .put => do
    let key ← ByteReader.str16
    let val ← ByteReader.bytes32
    let ttl ← ByteReader.u32
    pure { op, key, value := val, ttlSeconds := ttl }
  | .get | .take | .listPrefix => do
    let key ← ByteReader.str16
    pure { op, key }
  | .value => do
    let val ← ByteReader.bytes32
    pure { op, value := val }
  | .list => do
    let count ← ByteReader.u32
    if count.toNat > kMaxListEntries then failure
    else do
      let entries ← times readEntry count.toNat
      pure { op, entries }
  | .ok | .notFound | .err => pure { op }

def readBody : ByteReader Decoded := ByteReader.opcodeSwitch Op.ofCode? readFields

def decodeAndVerify (hmac : Hmac) (hmacKey msg : Bytes) : Option Decoded :=
  if msg.length < kHmacSize + 2 then none
  else
    let body := msg.take (msg.length - kHmacSize)
    let receivedMac := msg.drop (msg.length - kHmacSize)
    let expectedMac := (hmac hmacKey body).toList
    if !constantTimeEqual receivedMac expectedMac then none
    else (readBody.run body).map Prod.fst

/-! ## The grammar -/

/-- The fields of a message after its opcode. -/
def Decoded.fields (d : Decoded) : Bytes :=
  match d.op with
  | .put => ByteWriter.str16 d.key ++ ByteWriter.bytes32 d.value ++ ByteWriter.u32 d.ttlSeconds
  | .get | .take | .listPrefix => ByteWriter.str16 d.key
  | .value => ByteWriter.bytes32 d.value
  | .list => ByteWriter.u32 (UInt32.ofNat d.entries.length) ++ d.entries.flatMap encodeEntry
  | .ok | .notFound | .err => []

def Decoded.encoding (d : Decoded) : Bytes := ByteWriter.u16 d.op.code ++ d.fields

/-- A listing entry the length fields can hold. -/
def EntryFits (e : Entry) : Prop := e.1.length < 2 ^ 16 ∧ e.2.length < 2 ^ 32

/-- The used fields fit their length fields, the others are empty or 0. -/
def Decoded.WellFormed (d : Decoded) : Prop :=
  match d.op with
  | .put => d.key.length < 2 ^ 16 ∧ d.value.length < 2 ^ 32 ∧ d.entries = []
  | .get | .take | .listPrefix =>
    d.key.length < 2 ^ 16 ∧ d.value = [] ∧ d.ttlSeconds = 0 ∧ d.entries = []
  | .value => d.value.length < 2 ^ 32 ∧ d.key = [] ∧ d.ttlSeconds = 0 ∧ d.entries = []
  | .list => d.entries.length ≤ kMaxListEntries ∧ (∀ e ∈ d.entries, EntryFits e) ∧
      d.key = [] ∧ d.value = [] ∧ d.ttlSeconds = 0
  | .ok | .notFound | .err => d.key = [] ∧ d.value = [] ∧ d.ttlSeconds = 0 ∧ d.entries = []

theorem Op.ofCode?_eq_some (code : UInt16) (op : Op) :
    Op.ofCode? code = some op ↔ code = op.code := by
  constructor
  · intro h
    unfold Op.ofCode? at h
    repeat' split at h
    all_goals first | (obtain rfl := Option.some.inj h; assumption) | cases h
  · rintro rfl
    cases op <;> rfl

/-- Different opcodes are written differently. -/
theorem Op.u16_code_inj {op op' : Op} (h : ByteWriter.u16 op.code = ByteWriter.u16 op'.code) :
    op = op' := by
  have hop := (Op.ofCode?_eq_some _ op').mpr (ByteWriter.u16_inj h)
  rw [(Op.ofCode?_eq_some _ op).mpr rfl] at hop
  exact Option.some.inj hop

theorem exact_readEntry : Exact readEntry (Enc EntryFits encodeEntry) := by
  refine (exact_bind ByteReader.exact_str16 fun key =>
    exact_bind ByteReader.exact_bytes32 fun val => exact_pure (key, val)).congr fun e w => ?_
  constructor
  · rintro ⟨key, _, _, ⟨hkey, rfl⟩, ⟨val, _, _, ⟨hval, rfl⟩, ⟨rfl, rfl⟩, rfl⟩, rfl⟩
    exact ⟨⟨hkey, hval⟩, by rw [List.append_nil]; rfl⟩
  · rintro ⟨⟨hkey, hval⟩, rfl⟩
    exact ⟨e.1, _, _, ⟨hkey, rfl⟩, ⟨e.2, _, [], ⟨hval, rfl⟩, ⟨rfl, rfl⟩, rfl⟩,
      by rw [List.append_nil]; rfl⟩

/-! ## The decoder is exact -/

/-- Each case of the `switch` reads the fields of its own opcode, and nothing else. -/
theorem exact_readFields (op : Op) :
    Exact (readFields op) (Enc (fun d => d.op = op ∧ d.WellFormed) Decoded.fields) := by
  cases op with
  | put =>
    refine (exact_bind ByteReader.exact_str16 fun key => exact_bind ByteReader.exact_bytes32
      fun val => exact_bind ByteReader.exact_u32 fun ttl => exact_pure _).congr fun d w => ?_
    constructor
    · rintro ⟨key, _, _, ⟨hkey, rfl⟩, ⟨val, _, _, ⟨hval, rfl⟩, ⟨ttl, _, _, ⟨_, rfl⟩,
        ⟨rfl, rfl⟩, rfl⟩, rfl⟩, rfl⟩
      exact ⟨⟨rfl, hkey, hval, rfl⟩, by simp [Decoded.fields]⟩
    · rintro ⟨⟨hop, hwf⟩, rfl⟩
      obtain ⟨op, key, value, ttl, entries⟩ := d
      obtain rfl : op = .put := hop
      obtain ⟨hkey, hval, rfl⟩ := hwf
      exact ⟨key, _, _, ⟨hkey, rfl⟩, ⟨value, _, _, ⟨hval, rfl⟩, ⟨ttl, _, [], ⟨trivial, rfl⟩,
        ⟨rfl, rfl⟩, rfl⟩, rfl⟩, by simp [Decoded.fields]⟩
  | get | take | listPrefix =>
    refine (exact_bind ByteReader.exact_str16 fun key => exact_pure _).congr fun d w => ?_
    constructor
    · rintro ⟨key, _, _, ⟨hkey, rfl⟩, ⟨rfl, rfl⟩, rfl⟩
      exact ⟨⟨rfl, hkey, rfl, rfl, rfl⟩, by simp [Decoded.fields]⟩
    · rintro ⟨⟨hop, hwf⟩, rfl⟩
      obtain ⟨op, key, value, ttl, entries⟩ := d
      obtain rfl := hop
      obtain ⟨hkey, rfl, rfl, rfl⟩ := hwf
      exact ⟨key, _, [], ⟨hkey, rfl⟩, ⟨rfl, rfl⟩, by simp [Decoded.fields]⟩
  | value =>
    refine (exact_bind ByteReader.exact_bytes32 fun val => exact_pure _).congr fun d w => ?_
    constructor
    · rintro ⟨val, _, _, ⟨hval, rfl⟩, ⟨rfl, rfl⟩, rfl⟩
      exact ⟨⟨rfl, hval, rfl, rfl, rfl⟩, by simp [Decoded.fields]⟩
    · rintro ⟨⟨hop, hwf⟩, rfl⟩
      obtain ⟨op, key, value, ttl, entries⟩ := d
      obtain rfl : op = .value := hop
      obtain ⟨hval, rfl, rfl, rfl⟩ := hwf
      exact ⟨value, _, [], ⟨hval, rfl⟩, ⟨rfl, rfl⟩, by simp [Decoded.fields]⟩
  | list =>
    -- the cap is tested on the count as read, before the loop
    refine (exact_bind ByteReader.exact_u32 fun count =>
      exact_ite (fun _ => exact_failure) fun _ =>
        exact_bind (exact_times exact_readEntry count.toNat) fun es => exact_pure _).congr
      fun d w => ?_
    constructor
    · rintro ⟨count, _, _, ⟨_, rfl⟩, ⟨_, hfalse⟩ | ⟨hcap, es, _, _, ⟨⟨hlen, hfits⟩, rfl⟩,
        ⟨rfl, rfl⟩, rfl⟩, rfl⟩
      · exact hfalse.elim
      · have hcount : UInt32.ofNat es.length = count := by rw [hlen, UInt32.ofNat_toNat]
        refine ⟨⟨rfl, ?_, hfits, rfl, rfl, rfl⟩, by simp [Decoded.fields, hcount]⟩
        show es.length ≤ kMaxListEntries
        rw [hlen]
        exact Nat.le_of_not_gt hcap
    · rintro ⟨⟨hop, hwf⟩, rfl⟩
      obtain ⟨op, key, value, ttl, entries⟩ := d
      obtain rfl : op = .list := hop
      obtain ⟨hcap, hfits, rfl, rfl, rfl⟩ := hwf
      have hcount : (UInt32.ofNat entries.length).toNat = entries.length := by
        have hcap : entries.length ≤ 100000 := hcap
        rw [UInt32.toNat_ofNat', Nat.mod_eq_of_lt (by omega)]
      refine ⟨UInt32.ofNat entries.length, _, _, ⟨trivial, rfl⟩, Or.inr ⟨?_, entries, _, [],
        ⟨⟨hcount.symm, hfits⟩, rfl⟩, ⟨rfl, rfl⟩, rfl⟩, by simp [Decoded.fields]⟩
      rw [hcount]
      exact Nat.not_lt.mpr hcap
  | ok | notFound | err =>
    refine (exact_pure _).congr fun d w => ?_
    constructor
    · rintro ⟨rfl, rfl⟩
      exact ⟨⟨rfl, rfl, rfl, rfl, rfl⟩, rfl⟩
    · rintro ⟨⟨hop, hwf⟩, rfl⟩
      obtain ⟨op, key, value, ttl, entries⟩ := d
      obtain rfl := hop
      obtain ⟨rfl, rfl, rfl, rfl⟩ := hwf
      exact ⟨rfl, rfl⟩

theorem exact_readBody : Exact readBody (Enc Decoded.WellFormed Decoded.encoding) :=
  ByteReader.exact_opcodeSwitch Op.ofCode?_eq_some exact_readFields

section Decode

variable (hmac : Hmac) (hmacKey : Bytes)

/-- The two checks in front of the parser: a message is some body under its HMAC. -/
theorem decodeAndVerify_sign (body : Bytes) (hlen : 2 ≤ body.length) :
    decodeAndVerify hmac hmacKey (sign hmac hmacKey body) =
      (readBody.run body).map Prod.fst := by
  have hbody : (sign hmac hmacKey body).length - kHmacSize = body.length := by
    rw [length_sign, kHmacSize, Nat.add_sub_cancel]
  have htake : (sign hmac hmacKey body).take body.length = body := List.take_left
  have hdrop : (sign hmac hmacKey body).drop body.length = (hmac hmacKey body).toList :=
    List.drop_left
  have hmac_ok := (constantTimeEqual_iff (hmac hmacKey body).toList _).mpr rfl
  rw [decodeAndVerify, if_neg (by rw [length_sign, kHmacSize]; omega)]
  simp only [hbody, htake, hdrop, hmac_ok, Bool.not_true, Bool.false_eq_true, if_false]

theorem decodeAndVerify_some_sign {msg : Bytes} {d : Decoded}
    (h : decodeAndVerify hmac hmacKey msg = some d) :
    ∃ body, 2 ≤ body.length ∧ msg = sign hmac hmacKey body := by
  unfold decodeAndVerify at h
  split at h
  · cases h
  · next hlen =>
    dsimp only at h
    split at h
    · cases h
    · next hmac_ok =>
      rw [Bool.not_eq_true', Bool.not_eq_false, constantTimeEqual_iff] at hmac_ok
      refine ⟨msg.take (msg.length - kHmacSize), ?_, ?_⟩
      · rw [List.length_take]
        omega
      · rw [sign, ← hmac_ok, List.take_append_drop]

/-- **The decoder accepts exactly its grammar.** -/
theorem decodeAndVerify_eq_some_iff (msg : Bytes) (d : Decoded) :
    decodeAndVerify hmac hmacKey msg = some d ↔
      d.WellFormed ∧ ∃ rest, msg = sign hmac hmacKey (d.encoding ++ rest) := by
  have hanswer (body : Bytes) : (readBody.run body).map Prod.fst = some d ↔
      d.WellFormed ∧ ∃ rest, body = d.encoding ++ rest := exact_readBody.answer_enc_iff body d
  have hlen (rest : Bytes) : 2 ≤ (d.encoding ++ rest).length := by
    rw [List.length_append, Decoded.encoding, List.length_append, ByteWriter.length_u16]
    omega
  constructor
  · intro h
    obtain ⟨body, h2, rfl⟩ := decodeAndVerify_some_sign hmac hmacKey h
    rw [decodeAndVerify_sign hmac hmacKey body h2, hanswer] at h
    obtain ⟨hwf, rest, rfl⟩ := h
    exact ⟨hwf, rest, rfl⟩
  · rintro ⟨hwf, rest, rfl⟩
    rw [decodeAndVerify_sign hmac hmacKey _ (hlen rest), hanswer]
    exact ⟨hwf, rest, rfl⟩

/-! ## The encoders decode back -/

theorem decode_encodePut {key value : Bytes} (ttl : UInt32) (hkey : key.length < 2 ^ 16)
    (hvalue : value.length < 2 ^ 32) :
    decodeAndVerify hmac hmacKey (encodePut hmac hmacKey key value ttl) =
      some { op := .put, key, value, ttlSeconds := ttl } :=
  (decodeAndVerify_eq_some_iff hmac hmacKey _ _).mpr
    ⟨⟨hkey, hvalue, rfl⟩, [], by simp [encodePut, Decoded.encoding, Decoded.fields]⟩

/-- The two zero words after the key are trailing bytes to the decoder. -/
theorem decode_encodeGetOrTake {op : Op} (hop : op = .get ∨ op = .take ∨ op = .listPrefix)
    {key : Bytes} (hkey : key.length < 2 ^ 16) :
    decodeAndVerify hmac hmacKey (encodeGetOrTake hmac hmacKey op key) = some { op, key } := by
  rw [decodeAndVerify_eq_some_iff]
  rcases hop with rfl | rfl | rfl
  all_goals exact ⟨⟨hkey, rfl, rfl, rfl⟩, ByteWriter.u32 0 ++ ByteWriter.u32 0,
    by simp [encodeGetOrTake, Decoded.encoding, Decoded.fields]⟩

theorem decode_encodeListPrefix {pre : Bytes} (hpre : pre.length < 2 ^ 16) :
    decodeAndVerify hmac hmacKey (encodeListPrefix hmac hmacKey pre) =
      some { op := .listPrefix, key := pre } :=
  decode_encodeGetOrTake hmac hmacKey (Or.inr (Or.inr rfl)) hpre

theorem decode_encodeOk :
    decodeAndVerify hmac hmacKey (encodeOk hmac hmacKey) = some { op := .ok } :=
  (decodeAndVerify_eq_some_iff hmac hmacKey _ _).mpr
    ⟨⟨rfl, rfl, rfl, rfl⟩, [], by simp [encodeOk, Decoded.encoding, Decoded.fields]⟩

theorem decode_encodeNotFound :
    decodeAndVerify hmac hmacKey (encodeNotFound hmac hmacKey) = some { op := .notFound } :=
  (decodeAndVerify_eq_some_iff hmac hmacKey _ _).mpr
    ⟨⟨rfl, rfl, rfl, rfl⟩, [], by simp [encodeNotFound, Decoded.encoding, Decoded.fields]⟩

theorem decode_encodeValue {value : Bytes} (hvalue : value.length < 2 ^ 32) :
    decodeAndVerify hmac hmacKey (encodeValue hmac hmacKey value) =
      some { op := .value, value } :=
  (decodeAndVerify_eq_some_iff hmac hmacKey _ _).mpr
    ⟨⟨hvalue, rfl, rfl, rfl⟩, [], by simp [encodeValue, Decoded.encoding, Decoded.fields]⟩

theorem decode_encodeList {entries : List Entry} (hcap : entries.length ≤ kMaxListEntries)
    (hfits : ∀ e ∈ entries, EntryFits e) :
    decodeAndVerify hmac hmacKey (encodeList hmac hmacKey entries) =
      some { op := .list, entries } :=
  (decodeAndVerify_eq_some_iff hmac hmacKey _ _).mpr
    ⟨⟨hcap, hfits, rfl, rfl, rfl⟩, [], by simp [encodeList, Decoded.encoding, Decoded.fields]⟩

end Decode

/-- The decoder accepts exactly the layouts of its opcodes under a correct HMAC, whatever
    follows the layout inside the body; in particular every encoder decodes back. -/
theorem wire_exact (hmac : Hmac) (hmacKey : Bytes) :
    (∀ msg d, decodeAndVerify hmac hmacKey msg = some d ↔
      ∃ body, msg = body ++ (hmac hmacKey body).toList ∧ d.WellFormed ∧ d.encoding <+: body) ∧
    (∀ key value ttl, key.length ≤ 65535 → value.length < 2 ^ 32 →
      decodeAndVerify hmac hmacKey (encodePut hmac hmacKey key value ttl) =
        some { op := .put, key, value, ttlSeconds := ttl }) ∧
    (∀ op key, op = .get ∨ op = .take ∨ op = .listPrefix → key.length ≤ 65535 →
      decodeAndVerify hmac hmacKey (encodeGetOrTake hmac hmacKey op key) = some { op, key }) ∧
    (∀ pre, pre.length ≤ 65535 →
      decodeAndVerify hmac hmacKey (encodeListPrefix hmac hmacKey pre) =
        some { op := .listPrefix, key := pre }) ∧
    (∀ value, value.length < 2 ^ 32 →
      decodeAndVerify hmac hmacKey (encodeValue hmac hmacKey value) =
        some { op := .value, value }) ∧
    (∀ entries, entries.length ≤ kMaxListEntries →
      (∀ e ∈ entries, e.1.length ≤ 65535 ∧ e.2.length < 2 ^ 32) →
      decodeAndVerify hmac hmacKey (encodeList hmac hmacKey entries) =
        some { op := .list, entries }) ∧
    decodeAndVerify hmac hmacKey (encodeOk hmac hmacKey) = some { op := .ok } ∧
    decodeAndVerify hmac hmacKey (encodeNotFound hmac hmacKey) = some { op := .notFound } := by
  refine ⟨fun msg d => ?_, fun key value ttl hkey hvalue => ?_, fun op key hop hkey => ?_,
    fun pre hpre => ?_, fun value hvalue => ?_, fun entries hcap hfits => ?_, ?_, ?_⟩
  · rw [decodeAndVerify_eq_some_iff]
    constructor
    · rintro ⟨hwf, rest, rfl⟩
      exact ⟨_, rfl, hwf, List.prefix_append _ _⟩
    · rintro ⟨_, rfl, hwf, rest, rfl⟩
      exact ⟨hwf, rest, rfl⟩
  · exact decode_encodePut hmac hmacKey ttl (Nat.lt_succ_of_le hkey) hvalue
  · exact decode_encodeGetOrTake hmac hmacKey hop (Nat.lt_succ_of_le hkey)
  · exact decode_encodeListPrefix hmac hmacKey (Nat.lt_succ_of_le hpre)
  · exact decode_encodeValue hmac hmacKey hvalue
  · exact decode_encodeList hmac hmacKey hcap fun e he =>
      ⟨Nat.lt_succ_of_le (hfits e he).1, (hfits e he).2⟩
  · exact decode_encodeOk hmac hmacKey
  · exact decode_encodeNotFound hmac hmacKey

end Netsrv.StoreWire
