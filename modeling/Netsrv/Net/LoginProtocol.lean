/-
  `net/login_protocol.hpp`: the messages between the client and Login.

  Unlike the internal protocol there is no MAC; what protects the exchange is SRP itself.
  As in `Store/StoreWire.lean`, `Decoded.encoding` is the layout of a decoded message and
  `exact_readMessage` says that the decoder accepts that layout and nothing else.  M1 and
  M2 are 32 bytes in every decoded message, since the decoder reads them without a length.
-/
import Netsrv.Security.Crypto

namespace Netsrv.LoginProto

open ByteCodec PrefixParser

inductive Op where
  | clientHello | clientProof                                -- from the client
  | serverChallenge | serverProof | serverError | worldList  -- from Login
  deriving DecidableEq, Repr

/-- `static_cast<std::uint16_t>(op)`. -/
def Op.code : Op → UInt16
  | clientHello => 1 | clientProof => 2
  | serverChallenge => 100 | serverProof => 101 | serverError => 102 | worldList => 103

/-- The labels of the decoder's `switch`. -/
def Op.ofCode? (code : UInt16) : Option Op :=
  if code = 1 then some clientHello else if code = 2 then some clientProof
  else if code = 100 then some serverChallenge else if code = 101 then some serverProof
  else if code = 102 then some serverError else if code = 103 then some worldList else none

structure WorldEntry where
  name : Bytes
  host : Bytes
  port : UInt16 := 0
  population : UInt32 := 0
  deriving DecidableEq, Repr

/-! ## Encoding -/

def encodeClientHello (ticket username : Bytes) : Bytes :=
  ByteWriter.u16 Op.clientHello.code ++ ByteWriter.str16 ticket ++ ByteWriter.str16 username

/-- M1 goes without a length: it is always 32 bytes. -/
def encodeClientProof (a m1 : Bytes) : Bytes :=
  ByteWriter.u16 Op.clientProof.code ++ ByteWriter.bytes32 a ++ m1

def encodeServerChallenge (salt b : Bytes) : Bytes :=
  ByteWriter.u16 Op.serverChallenge.code ++ ByteWriter.str16 salt ++ ByteWriter.bytes32 b

def encodeServerProof (m2 sessionToken : Bytes) : Bytes :=
  ByteWriter.u16 Op.serverProof.code ++ m2 ++ ByteWriter.str16 sessionToken

def encodeError : Bytes := ByteWriter.u16 Op.serverError.code

/-- One turn of the loop of `encode_world_list`. -/
def encodeWorld (w : WorldEntry) : Bytes :=
  ByteWriter.str16 w.name ++ ByteWriter.str16 w.host ++ ByteWriter.u16 w.port ++
    ByteWriter.u32 w.population

def encodeWorldList (worlds : List WorldEntry) : Bytes :=
  ByteWriter.u16 Op.worldList.code ++ ByteWriter.u32 (UInt32.ofNat worlds.length) ++
    worlds.flatMap encodeWorld

/-! ## Decoding -/

structure Decoded where
  op : Op
  ticket : Bytes := []
  username : Bytes := []
  A : Bytes := []
  M1 : Digest := Vector.replicate 32 0
  salt : Bytes := []
  B : Bytes := []
  M2 : Digest := Vector.replicate 32 0
  sessionToken : Bytes := []
  worlds : List WorldEntry := []
  deriving DecidableEq

/-- `std::copy` of 32 bytes into an array. -/
def toDigest (bytes : Bytes) : Digest := Vector.ofFn fun i => bytes.getD i 0

/-- `auto m = r.bytes(32); std::copy(m->begin(), m->end(), …)`. -/
def readDigest : ByteReader Digest := do
  let m ← ByteReader.bytes 32
  pure (toDigest m)

/-- One turn of the loop of the `WorldList` case. -/
def readWorld : ByteReader WorldEntry := do
  let name ← ByteReader.str16
  let host ← ByteReader.str16
  let port ← ByteReader.u16
  let population ← ByteReader.u32
  pure { name, host, port, population }

def kMaxWorlds : ℕ := 10000

/-- The `switch` of `decode`, on the bytes after the opcode. -/
def readFields (op : Op) : ByteReader Decoded :=
  match op with
  | .clientHello => do
    let ticket ← ByteReader.str16
    let username ← ByteReader.str16
    pure { op, ticket, username }
  | .clientProof => do
    let a ← ByteReader.bytes32
    let m1 ← readDigest
    pure { op, A := a, M1 := m1 }
  | .serverChallenge => do
    let salt ← ByteReader.str16
    let b ← ByteReader.bytes32
    pure { op, salt, B := b }
  | .serverProof => do
    let m2 ← readDigest
    let sessionToken ← ByteReader.str16
    pure { op, M2 := m2, sessionToken }
  | .serverError => pure { op }
  | .worldList => do
    let count ← ByteReader.u32
    if count.toNat > kMaxWorlds then failure
    else do
      let worlds ← times readWorld count.toNat
      pure { op, worlds }

def readMessage : ByteReader Decoded := ByteReader.opcodeSwitch Op.ofCode? readFields

def decode (msg : Bytes) : Option Decoded := (readMessage.run msg).map Prod.fst

/-! ## The grammar -/

/-- The fields of a message after its opcode. -/
def Decoded.fields (d : Decoded) : Bytes :=
  match d.op with
  | .clientHello => ByteWriter.str16 d.ticket ++ ByteWriter.str16 d.username
  | .clientProof => ByteWriter.bytes32 d.A ++ d.M1.toList
  | .serverChallenge => ByteWriter.str16 d.salt ++ ByteWriter.bytes32 d.B
  | .serverProof => d.M2.toList ++ ByteWriter.str16 d.sessionToken
  | .serverError => []
  | .worldList => ByteWriter.u32 (UInt32.ofNat d.worlds.length) ++ d.worlds.flatMap encodeWorld

def Decoded.encoding (d : Decoded) : Bytes := ByteWriter.u16 d.op.code ++ d.fields

/-- What the encoder of the message's opcode writes for its fields. -/
def Decoded.encode (d : Decoded) : Bytes :=
  match d.op with
  | .clientHello => encodeClientHello d.ticket d.username
  | .clientProof => encodeClientProof d.A d.M1.toList
  | .serverChallenge => encodeServerChallenge d.salt d.B
  | .serverProof => encodeServerProof d.M2.toList d.sessionToken
  | .serverError => encodeError
  | .worldList => encodeWorldList d.worlds

/-- The strings of a world the length fields can hold. -/
def WorldFits (w : WorldEntry) : Prop := w.name.length < 2 ^ 16 ∧ w.host.length < 2 ^ 16

/-- The used fields fit their length fields, the others are as `Decoded d;` leaves them. -/
def Decoded.WellFormed (d : Decoded) : Prop :=
  match d.op with
  | .clientHello => d.ticket.length < 2 ^ 16 ∧ d.username.length < 2 ^ 16 ∧
      d = { op := .clientHello, ticket := d.ticket, username := d.username }
  | .clientProof => d.A.length < 2 ^ 32 ∧ d = { op := .clientProof, A := d.A, M1 := d.M1 }
  | .serverChallenge => d.salt.length < 2 ^ 16 ∧ d.B.length < 2 ^ 32 ∧
      d = { op := .serverChallenge, salt := d.salt, B := d.B }
  | .serverProof => d.sessionToken.length < 2 ^ 16 ∧
      d = { op := .serverProof, M2 := d.M2, sessionToken := d.sessionToken }
  | .serverError => d = { op := .serverError }
  | .worldList => d.worlds.length ≤ kMaxWorlds ∧ (∀ w ∈ d.worlds, WorldFits w) ∧
      d = { op := .worldList, worlds := d.worlds }

theorem Op.ofCode?_eq_some (code : UInt16) (op : Op) :
    Op.ofCode? code = some op ↔ code = op.code := by
  constructor
  · intro h
    unfold Op.ofCode? at h
    repeat' split at h
    all_goals first | (obtain rfl := Option.some.inj h; assumption) | cases h
  · rintro rfl
    cases op <;> rfl

theorem toList_toDigest {bytes : Bytes} (h : bytes.length = 32) :
    (toDigest bytes).toList = bytes := by
  refine List.ext_getElem (by rw [Vector.length_toList, h]) fun i h1 h2 => ?_
  simp [toDigest, h2]

theorem toDigest_toList (d : Digest) : toDigest d.toList = d := by
  refine Vector.toList_inj.mp ?_
  exact toList_toDigest Vector.length_toList

/-! ## The decoder is exact -/

theorem exact_readDigest : Exact readDigest (Enc (fun _ => True) Vector.toList) := by
  refine (exact_bind (ByteReader.exact_bytes 32) fun m => exact_pure (toDigest m)).congr
    fun d w => ?_
  constructor
  · rintro ⟨m, _, _, ⟨hlen, rfl⟩, ⟨rfl, rfl⟩, rfl⟩
    exact ⟨trivial, by rw [toList_toDigest hlen, List.append_nil]⟩
  · rintro ⟨_, rfl⟩
    exact ⟨d.toList, _, [], ⟨Vector.length_toList, rfl⟩, ⟨(toDigest_toList d).symm, rfl⟩,
      (List.append_nil _).symm⟩

theorem exact_readWorld : Exact readWorld (Enc WorldFits encodeWorld) := by
  refine (exact_bind ByteReader.exact_str16 fun name => exact_bind ByteReader.exact_str16
    fun host => exact_bind ByteReader.exact_u16 fun port => exact_bind ByteReader.exact_u32
      fun population => exact_pure _).congr fun wd w => ?_
  constructor
  · rintro ⟨name, _, _, ⟨hname, rfl⟩, ⟨host, _, _, ⟨hhost, rfl⟩, ⟨port, _, _, ⟨_, rfl⟩,
      ⟨population, _, _, ⟨_, rfl⟩, ⟨rfl, rfl⟩, rfl⟩, rfl⟩, rfl⟩, rfl⟩
    exact ⟨⟨hname, hhost⟩, by simp [encodeWorld]⟩
  · rintro ⟨⟨hname, hhost⟩, rfl⟩
    exact ⟨wd.name, _, _, ⟨hname, rfl⟩, ⟨wd.host, _, _, ⟨hhost, rfl⟩, ⟨wd.port, _, _,
      ⟨trivial, rfl⟩, ⟨wd.population, _, [], ⟨trivial, rfl⟩, ⟨rfl, rfl⟩, rfl⟩, rfl⟩, rfl⟩,
      by simp [encodeWorld]⟩

/-- Each case of the `switch` reads the fields of its own opcode, and nothing else. -/
theorem exact_readFields (op : Op) :
    Exact (readFields op) (Enc (fun d => d.op = op ∧ d.WellFormed) Decoded.fields) := by
  cases op with
  | clientHello =>
    refine (exact_bind ByteReader.exact_str16 fun ticket => exact_bind ByteReader.exact_str16
      fun username => exact_pure _).congr fun d w => ?_
    constructor
    · rintro ⟨ticket, _, _, ⟨ht, rfl⟩, ⟨username, _, _, ⟨hu, rfl⟩, ⟨rfl, rfl⟩, rfl⟩, rfl⟩
      exact ⟨⟨rfl, ht, hu, rfl⟩, by simp [Decoded.fields]⟩
    · rintro ⟨⟨hop, hwf⟩, rfl⟩
      rw [Decoded.WellFormed, hop] at hwf
      obtain ⟨ht, hu, hd⟩ := hwf
      exact ⟨d.ticket, _, _, ⟨ht, rfl⟩, ⟨d.username, _, [], ⟨hu, rfl⟩, ⟨hd, rfl⟩, rfl⟩,
        by simp [Decoded.fields, hop]⟩
  | clientProof =>
    refine (exact_bind ByteReader.exact_bytes32 fun a => exact_bind exact_readDigest
      fun m1 => exact_pure _).congr fun d w => ?_
    constructor
    · rintro ⟨a, _, _, ⟨ha, rfl⟩, ⟨m1, _, _, ⟨_, rfl⟩, ⟨rfl, rfl⟩, rfl⟩, rfl⟩
      exact ⟨⟨rfl, ha, rfl⟩, by simp [Decoded.fields]⟩
    · rintro ⟨⟨hop, hwf⟩, rfl⟩
      rw [Decoded.WellFormed, hop] at hwf
      obtain ⟨ha, hd⟩ := hwf
      exact ⟨d.A, _, _, ⟨ha, rfl⟩, ⟨d.M1, _, [], ⟨trivial, rfl⟩, ⟨hd, rfl⟩, rfl⟩,
        by simp [Decoded.fields, hop]⟩
  | serverChallenge =>
    refine (exact_bind ByteReader.exact_str16 fun salt => exact_bind ByteReader.exact_bytes32
      fun b => exact_pure _).congr fun d w => ?_
    constructor
    · rintro ⟨salt, _, _, ⟨hs, rfl⟩, ⟨b, _, _, ⟨hb, rfl⟩, ⟨rfl, rfl⟩, rfl⟩, rfl⟩
      exact ⟨⟨rfl, hs, hb, rfl⟩, by simp [Decoded.fields]⟩
    · rintro ⟨⟨hop, hwf⟩, rfl⟩
      rw [Decoded.WellFormed, hop] at hwf
      obtain ⟨hs, hb, hd⟩ := hwf
      exact ⟨d.salt, _, _, ⟨hs, rfl⟩, ⟨d.B, _, [], ⟨hb, rfl⟩, ⟨hd, rfl⟩, rfl⟩,
        by simp [Decoded.fields, hop]⟩
  | serverProof =>
    refine (exact_bind exact_readDigest fun m2 => exact_bind ByteReader.exact_str16
      fun sessionToken => exact_pure _).congr fun d w => ?_
    constructor
    · rintro ⟨m2, _, _, ⟨_, rfl⟩, ⟨sessionToken, _, _, ⟨ht, rfl⟩, ⟨rfl, rfl⟩, rfl⟩, rfl⟩
      exact ⟨⟨rfl, ht, rfl⟩, by simp [Decoded.fields]⟩
    · rintro ⟨⟨hop, hwf⟩, rfl⟩
      rw [Decoded.WellFormed, hop] at hwf
      obtain ⟨ht, hd⟩ := hwf
      exact ⟨d.M2, _, _, ⟨trivial, rfl⟩, ⟨d.sessionToken, _, [], ⟨ht, rfl⟩, ⟨hd, rfl⟩, rfl⟩,
        by simp [Decoded.fields, hop]⟩
  | serverError =>
    refine (exact_pure _).congr fun d w => ?_
    constructor
    · rintro ⟨rfl, rfl⟩
      exact ⟨⟨rfl, rfl⟩, rfl⟩
    · rintro ⟨⟨hop, hwf⟩, rfl⟩
      rw [Decoded.WellFormed, hop] at hwf
      exact ⟨hwf, by rw [Decoded.fields, hop]⟩
  | worldList =>
    refine (exact_bind ByteReader.exact_u32 fun count =>
      exact_ite (fun _ => exact_failure) fun _ =>
        exact_bind (exact_times exact_readWorld count.toNat) fun worlds => exact_pure _).congr
      fun d w => ?_
    constructor
    · rintro ⟨count, _, _, ⟨_, rfl⟩, ⟨_, hfalse⟩ | ⟨hcap, worlds, _, _, ⟨⟨hlen, hfits⟩, rfl⟩,
        ⟨rfl, rfl⟩, rfl⟩, rfl⟩
      · exact hfalse.elim
      · have hcount : UInt32.ofNat worlds.length = count := by rw [hlen, UInt32.ofNat_toNat]
        refine ⟨⟨rfl, ?_, hfits, rfl⟩, by simp [Decoded.fields, hcount]⟩
        show worlds.length ≤ kMaxWorlds
        rw [hlen]
        exact Nat.le_of_not_gt hcap
    · rintro ⟨⟨hop, hwf⟩, rfl⟩
      rw [Decoded.WellFormed, hop] at hwf
      obtain ⟨hcap, hfits, hd⟩ := hwf
      have hcap' : d.worlds.length ≤ 10000 := hcap
      have hcount : (UInt32.ofNat d.worlds.length).toNat = d.worlds.length := by
        rw [UInt32.toNat_ofNat', Nat.mod_eq_of_lt (by omega)]
      refine ⟨UInt32.ofNat d.worlds.length, _, _, ⟨trivial, rfl⟩, Or.inr ⟨?_, d.worlds, _, [],
        ⟨⟨hcount.symm, hfits⟩, rfl⟩, ⟨hd, rfl⟩, rfl⟩, by simp [Decoded.fields, hop]⟩
      rw [hcount]
      exact Nat.not_lt.mpr hcap

theorem exact_readMessage : Exact readMessage (Enc Decoded.WellFormed Decoded.encoding) :=
  ByteReader.exact_opcodeSwitch Op.ofCode?_eq_some exact_readFields

/-- **The decoder accepts exactly its grammar**, whatever follows the layout. -/
theorem decode_eq_some_iff (msg : Bytes) (d : Decoded) :
    decode msg = some d ↔ d.WellFormed ∧ ∃ rest, msg = d.encoding ++ rest :=
  exact_readMessage.answer_enc_iff msg d

theorem Decoded.encode_eq (d : Decoded) : d.encode = d.encoding := by
  unfold Decoded.encode Decoded.encoding Decoded.fields
  cases d.op with
  | clientHello => exact List.append_assoc _ _ _
  | clientProof => exact List.append_assoc _ _ _
  | serverChallenge => exact List.append_assoc _ _ _
  | serverProof => exact List.append_assoc _ _ _
  | serverError => exact (List.append_nil _).symm
  | worldList => exact List.append_assoc _ _ _

/-- The first two bytes of a message are its opcode. -/
theorem op_eq_of_code {msg : Bytes} {d : Decoded} {op : Op} (hmsg : ByteWriter.u16 op.code <+: msg)
    (hd : decode msg = some d) : d.op = op := by
  obtain ⟨-, rest, rfl⟩ := (decode_eq_some_iff msg d).mp hd
  obtain ⟨tail, htail⟩ := hmsg
  rw [Decoded.encoding, List.append_assoc] at htail
  obtain ⟨hcode, -⟩ := List.append_inj htail (by simp)
  have hop := (Op.ofCode?_eq_some _ op).mpr (ByteWriter.u16_inj hcode).symm
  rw [(Op.ofCode?_eq_some _ d.op).mpr rfl] at hop
  exact Option.some.inj hop

/-- The decoder answers `d` exactly on what the encoder of `d`'s opcode writes for `d`'s
    fields, whatever follows; it refuses a code without a label, and every truncation. -/
theorem decode_exact (msg : Bytes) :
    (∀ d : Decoded, decode msg = some d ↔ d.WellFormed ∧ ∃ rest, msg = d.encode ++ rest) ∧
      ((∀ op : Op, ¬ ByteWriter.u16 op.code <+: msg) → decode msg = none) ∧
      ∀ (d : Decoded) (k : ℕ), d.WellFormed → k < d.encode.length →
        decode (d.encode.take k) = none := by
  refine ⟨fun d => ?_, fun hop => ?_, fun d k hwf hk => ?_⟩
  · rw [decode_eq_some_iff, d.encode_eq]
  · cases hdec : decode msg with
    | none => rfl
    | some d =>
      obtain ⟨-, rest, rfl⟩ := (decode_eq_some_iff msg d).mp hdec
      refine absurd ?_ (hop d.op)
      rw [Decoded.encoding, List.append_assoc]
      exact List.prefix_append _ _
  · rw [d.encode_eq] at hk ⊢
    rw [decode, exact_readMessage.truncated ⟨hwf, rfl⟩ hk]
    rfl

/-! ## The messages of the proof decode back -/

theorem decode_encodeServerChallenge {salt b : Bytes} (hsalt : salt.length < 2 ^ 16)
    (hb : b.length < 2 ^ 32) :
    decode (encodeServerChallenge salt b) = some { op := .serverChallenge, salt, B := b } :=
  (decode_eq_some_iff _ _).mpr ⟨⟨hsalt, hb, rfl⟩, [],
    by simp [encodeServerChallenge, Decoded.encoding, Decoded.fields]⟩

theorem decode_encodeClientProof {a : Bytes} (m1 : Digest) (ha : a.length < 2 ^ 32) :
    decode (encodeClientProof a m1.toList) = some { op := .clientProof, A := a, M1 := m1 } :=
  (decode_eq_some_iff _ _).mpr ⟨⟨ha, rfl⟩, [],
    by simp [encodeClientProof, Decoded.encoding, Decoded.fields]⟩

theorem decode_encodeServerProof (m2 : Digest) {sessionToken : Bytes}
    (htoken : sessionToken.length < 2 ^ 16) :
    decode (encodeServerProof m2.toList sessionToken) =
      some { op := .serverProof, M2 := m2, sessionToken } :=
  (decode_eq_some_iff _ _).mpr ⟨⟨htoken, rfl⟩, [],
    by simp [encodeServerProof, Decoded.encoding, Decoded.fields]⟩

end Netsrv.LoginProto
