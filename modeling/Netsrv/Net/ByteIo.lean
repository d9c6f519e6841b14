/-
  `net/byte_io.hpp`: the bounded binary reader and writer every message format shares.

  A `ByteWriter` is the byte string it has accumulated, so writing two fields is `++`.
  Integers go through `memcpy`, i.e. in host order; the host is little-endian, as
  `store_wire.hpp` assumes of every machine this protocol runs between.
  A `ByteReader` is a parser on the unread bytes; a `nullopt` of any read is failure.

  Most formats write a string as its length followed by its bytes; `str16` and `bytes32`
  are that pair of calls, with the cast of `size()` to the width of the length field.
-/
import Netsrv.Lib.ByteCodec
import Netsrv.Lib.PrefixParser

namespace Netsrv

export ByteCodec (Bytes)

open ByteCodec PrefixParser

/-! ## Writing -/

namespace ByteWriter

def u16 (v : UInt16) : Bytes := toLE 2 v.toNat

def u32 (v : UInt32) : Bytes := toLE 4 v.toNat

/-- `w.u16(static_cast<std::uint16_t>(s.size())); w.str(s)`: the length is cut to 16 bits. -/
def str16 (s : Bytes) : Bytes := u16 (UInt16.ofNat s.length) ++ s

/-- `w.u32(static_cast<std::uint32_t>(b.size())); w.bytes(b)`: the length is cut to 32 bits. -/
def bytes32 (b : Bytes) : Bytes := u32 (UInt32.ofNat b.length) ++ b

@[simp] theorem length_u16 (v : UInt16) : (u16 v).length = 2 := length_toLE _ _

@[simp] theorem length_u32 (v : UInt32) : (u32 v).length = 4 := length_toLE _ _

@[simp] theorem length_str16 (s : Bytes) : (str16 s).length = 2 + s.length := by
  rw [str16, List.length_append, length_u16]

@[simp] theorem length_bytes32 (b : Bytes) : (bytes32 b).length = 4 + b.length := by
  rw [bytes32, List.length_append, length_u32]

theorem u16_inj {v w : UInt16} (h : u16 v = u16 w) : v = w :=
  UInt16.toNat_inj.mp (toLE_inj v.toNat_lt w.toNat_lt h)

theorem u32_inj {v w : UInt32} (h : u32 v = u32 w) : v = w :=
  UInt32.toNat_inj.mp (toLE_inj v.toNat_lt w.toNat_lt h)

end ByteWriter

/-! ## Reading -/

/-- `ByteReader`: the bytes not read yet, or a failed read. -/
abbrev ByteReader := Parser UInt8

namespace ByteReader

def bytes (n : ℕ) : ByteReader Bytes := takeN n

def str (n : ℕ) : ByteReader Bytes := bytes n

def u16 : ByteReader UInt16 := do
  let b ← takeN 2
  pure (UInt16.ofNat (ofLE b))

def u32 : ByteReader UInt32 := do
  let b ← takeN 4
  pure (UInt32.ofNat (ofLE b))

/-- `auto n = r.u16(); auto s = r.str(*n);` -/
def str16 : ByteReader Bytes := do
  let n ← u16
  str n.toNat

/-- `auto n = r.u32(); auto b = r.bytes(*n);` -/
def bytes32 : ByteReader Bytes := do
  let n ← u32
  bytes n.toNat

/-- `auto opcode = r.u16(); switch (*opcode) { … }`: `ofCode?` are the labels, `fields` the
    cases, and a code without a label is a failure. -/
def opcodeSwitch {ω δ : Type} (ofCode? : UInt16 → Option ω) (fields : ω → ByteReader δ) :
    ByteReader δ := do
  let opcode ← u16
  match ofCode? opcode with
  | none => failure
  | some op => fields op

/-! ## Reading is exact

  Each read accepts precisely what the write of the same name produces. -/

theorem exact_bytes (n : ℕ) : Exact (bytes n) (fun a e => a.length = n ∧ e = a) :=
  exact_takeN n

theorem exact_u16 : Exact u16 (Enc (fun _ => True) ByteWriter.u16) := by
  refine (exact_bind (exact_takeN 2) fun b => exact_pure (UInt16.ofNat (ofLE b))).congr
    fun v e => ?_
  constructor
  · rintro ⟨_, b, _, ⟨hb, rfl⟩, ⟨rfl, rfl⟩, rfl⟩
    have hlt : ofLE b < 2 ^ 16 := by have := ofLE_lt b; rwa [hb] at this
    refine ⟨trivial, ?_⟩
    rw [ByteWriter.u16, UInt16.toNat_ofNat', Nat.mod_eq_of_lt hlt, ← hb, toLE_ofLE,
      List.append_nil]
  · rintro ⟨_, rfl⟩
    refine ⟨ByteWriter.u16 v, _, [], ⟨ByteWriter.length_u16 v, rfl⟩, ⟨?_, rfl⟩, by simp⟩
    rw [ByteWriter.u16, ofLE_toLE v.toNat_lt, UInt16.ofNat_toNat]

theorem exact_u32 : Exact u32 (Enc (fun _ => True) ByteWriter.u32) := by
  refine (exact_bind (exact_takeN 4) fun b => exact_pure (UInt32.ofNat (ofLE b))).congr
    fun v e => ?_
  constructor
  · rintro ⟨_, b, _, ⟨hb, rfl⟩, ⟨rfl, rfl⟩, rfl⟩
    have hlt : ofLE b < 2 ^ 32 := by have := ofLE_lt b; rwa [hb] at this
    refine ⟨trivial, ?_⟩
    rw [ByteWriter.u32, UInt32.toNat_ofNat', Nat.mod_eq_of_lt hlt, ← hb, toLE_ofLE,
      List.append_nil]
  · rintro ⟨_, rfl⟩
    refine ⟨ByteWriter.u32 v, _, [], ⟨ByteWriter.length_u32 v, rfl⟩, ⟨?_, rfl⟩, by simp⟩
    rw [ByteWriter.u32, ofLE_toLE v.toNat_lt, UInt32.ofNat_toNat]

/-- A string field of fewer than `2 ^ 16` bytes is read back, and nothing else is read. -/
theorem exact_str16 : Exact str16 (Enc (fun s => s.length < 2 ^ 16) ByteWriter.str16) := by
  refine (exact_bind exact_u16 fun n => exact_bytes n.toNat).congr fun s e => ?_
  constructor
  · rintro ⟨n, _, _, ⟨_, rfl⟩, ⟨hlen, rfl⟩, rfl⟩
    refine ⟨hlen.trans_lt n.toNat_lt, ?_⟩
    rw [ByteWriter.str16, hlen, UInt16.ofNat_toNat]
  · rintro ⟨hlen, rfl⟩
    refine ⟨UInt16.ofNat s.length, _, _, ⟨trivial, rfl⟩, ⟨?_, rfl⟩, rfl⟩
    rw [UInt16.toNat_ofNat', Nat.mod_eq_of_lt hlen]

/-- A byte field of fewer than `2 ^ 32` bytes is read back, and nothing else is read. -/
theorem exact_bytes32 : Exact bytes32 (Enc (fun b => b.length < 2 ^ 32) ByteWriter.bytes32) := by
  refine (exact_bind exact_u32 fun n => exact_bytes n.toNat).congr fun b e => ?_
  constructor
  · rintro ⟨n, _, _, ⟨_, rfl⟩, ⟨hlen, rfl⟩, rfl⟩
    refine ⟨hlen.trans_lt n.toNat_lt, ?_⟩
    rw [ByteWriter.bytes32, hlen, UInt32.ofNat_toNat]
  · rintro ⟨hlen, rfl⟩
    refine ⟨UInt32.ofNat b.length, _, _, ⟨trivial, rfl⟩, ⟨?_, rfl⟩, rfl⟩
    rw [UInt32.toNat_ofNat', Nat.mod_eq_of_lt hlen]

/-- A message is its opcode and then, read by the case of that opcode, its fields. -/
theorem exact_opcodeSwitch {ω δ : Type} {ofCode? : UInt16 → Option ω} {code : ω → UInt16}
    (hcode : ∀ c op, ofCode? c = some op ↔ c = code op) {fields : ω → ByteReader δ}
    {opOf : δ → ω} {wf : δ → Prop} {enc : δ → Bytes}
    (hfields : ∀ op, Exact (fields op) (Enc (fun d => opOf d = op ∧ wf d) enc)) :
    Exact (opcodeSwitch ofCode? fields)
      (Enc wf fun d => ByteWriter.u16 (code (opOf d)) ++ enc d) := by
  have hinj {op op' : ω} (h : code op = code op') : op = op' := by
    have h1 := (hcode _ op).mpr rfl
    rw [h, (hcode _ op').mpr rfl] at h1
    exact (Option.some.inj h1).symm
  have hcase (c : UInt16) : Exact (match ofCode? c with
      | none => failure
      | some op => fields op) (Enc (fun d => code (opOf d) = c ∧ wf d) enc) := by
    cases hc : ofCode? c with
    | none =>
      refine exact_failure.congr fun d w => ⟨False.elim, ?_⟩
      rintro ⟨⟨rfl, _⟩, _⟩
      rw [(hcode _ (opOf d)).mpr rfl] at hc
      cases hc
    | some op =>
      obtain rfl := (hcode c op).mp hc
      refine (hfields op).congr fun d w => ?_
      rw [Enc, Enc, show opOf d = op ↔ code (opOf d) = code op from ⟨congrArg code, hinj⟩]
  refine (exact_bind exact_u16 hcase).congr fun d w => ?_
  constructor
  · rintro ⟨_, _, _, ⟨_, rfl⟩, ⟨⟨rfl, hwf⟩, rfl⟩, rfl⟩
    exact ⟨hwf, rfl⟩
  · rintro ⟨hwf, rfl⟩
    exact ⟨code (opOf d), _, _, ⟨trivial, rfl⟩, ⟨⟨rfl, hwf⟩, rfl⟩, rfl⟩

end ByteReader

end Netsrv
