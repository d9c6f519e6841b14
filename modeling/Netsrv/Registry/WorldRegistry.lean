/-
  `registry/world_registry.hpp` and the registration lines of `main.cpp`: the service
  registry, kept in the shared store under two prefixes.

  Each Login and World process writes one entry again and again (`heartbeat_loop`); Master
  reads the Logins directly, Login reads the Worlds through the store's protocol.
-/
import Netsrv.Store.SharedStore

namespace Netsrv.Registry

open PrefixParser

/-- `"registry:login:"`. -/
def kLoginPrefix : Bytes :=
  [0x72, 0x65, 0x67, 0x69, 0x73, 0x74, 0x72, 0x79, 0x3a, 0x6c, 0x6f, 0x67, 0x69, 0x6e, 0x3a]

/-- `"registry:world:"`. -/
def kWorldPrefix : Bytes :=
  [0x72, 0x65, 0x67, 0x69, 0x73, 0x74, 0x72, 0x79, 0x3a, 0x77, 0x6f, 0x72, 0x6c, 0x64, 0x3a]

structure LoginInfo where
  host : Bytes
  port : UInt16
  deriving DecidableEq, Repr

structure WorldInfo where
  host : Bytes
  port : UInt16
  name : Bytes
  population : UInt32
  deriving DecidableEq, Repr

def encodeLogin (i : LoginInfo) : Bytes := ByteWriter.str16 i.host ++ ByteWriter.u16 i.port

def readLogin : ByteReader LoginInfo := do
  let host ← ByteReader.str16
  let port ← ByteReader.u16
  pure { host, port }

def decodeLogin (data : Bytes) : Option LoginInfo := (readLogin.run data).map Prod.fst

def encodeWorld (i : WorldInfo) : Bytes :=
  ByteWriter.str16 i.host ++ ByteWriter.u16 i.port ++ ByteWriter.str16 i.name ++
    ByteWriter.u32 i.population

def readWorld : ByteReader WorldInfo := do
  let host ← ByteReader.str16
  let port ← ByteReader.u16
  let name ← ByteReader.str16
  let population ← ByteReader.u32
  pure { host, port, name, population }

def decodeWorld (data : Bytes) : Option WorldInfo := (readWorld.run data).map Prod.fst

/-! ## The codecs are exact -/

/-- The strings the length fields can hold. -/
def LoginFits (i : LoginInfo) : Prop := i.host.length < 2 ^ 16

def WorldFits (i : WorldInfo) : Prop := i.host.length < 2 ^ 16 ∧ i.name.length < 2 ^ 16

theorem exact_readLogin : Exact readLogin (Enc LoginFits encodeLogin) := by
  refine (exact_bind ByteReader.exact_str16 fun host => exact_bind ByteReader.exact_u16
    fun port => exact_pure _).congr fun i w => ?_
  constructor
  · rintro ⟨host, _, _, ⟨hhost, rfl⟩, ⟨port, _, _, ⟨_, rfl⟩, ⟨rfl, rfl⟩, rfl⟩, rfl⟩
    exact ⟨hhost, by simp [encodeLogin]⟩
  · rintro ⟨hhost, rfl⟩
    exact ⟨i.host, _, _, ⟨hhost, rfl⟩, ⟨i.port, _, [], ⟨trivial, rfl⟩, ⟨rfl, rfl⟩, rfl⟩,
      by simp [encodeLogin]⟩

theorem exact_readWorld : Exact readWorld (Enc WorldFits encodeWorld) := by
  refine (exact_bind ByteReader.exact_str16 fun host => exact_bind ByteReader.exact_u16
    fun port => exact_bind ByteReader.exact_str16 fun name => exact_bind ByteReader.exact_u32
      fun population => exact_pure _).congr fun i w => ?_
  constructor
  · rintro ⟨host, _, _, ⟨hhost, rfl⟩, ⟨port, _, _, ⟨_, rfl⟩, ⟨name, _, _, ⟨hname, rfl⟩,
      ⟨population, _, _, ⟨_, rfl⟩, ⟨rfl, rfl⟩, rfl⟩, rfl⟩, rfl⟩, rfl⟩
    exact ⟨⟨hhost, hname⟩, by simp [encodeWorld]⟩
  · rintro ⟨⟨hhost, hname⟩, rfl⟩
    exact ⟨i.host, _, _, ⟨hhost, rfl⟩, ⟨i.port, _, _, ⟨trivial, rfl⟩, ⟨i.name, _, _,
      ⟨hname, rfl⟩, ⟨i.population, _, [], ⟨trivial, rfl⟩, ⟨rfl, rfl⟩, rfl⟩, rfl⟩, rfl⟩,
      by simp [encodeWorld]⟩

theorem decodeLogin_eq_some_iff (data : Bytes) (i : LoginInfo) :
    decodeLogin data = some i ↔ LoginFits i ∧ ∃ rest, data = encodeLogin i ++ rest :=
  exact_readLogin.answer_enc_iff data i

theorem decodeWorld_eq_some_iff (data : Bytes) (i : WorldInfo) :
    decodeWorld data = some i ↔ WorldFits i ∧ ∃ rest, data = encodeWorld i ++ rest :=
  exact_readWorld.answer_enc_iff data i

/-! ## Reading the registry -/

/-- `list_worlds`, on what `list_prefix` returned. -/
def listWorlds (entries : List (Bytes × Bytes)) : List WorldInfo :=
  entries.filterMap fun e => decodeWorld e.2

/-- `pick_login`: the first Login of the walk. -/
def pickLogin (clk : Bytes → ℕ) (it : List SharedStore.Cell) : Option LoginInfo :=
  match SharedStore.listPrefix clk it kLoginPrefix with
  | [] => none
  | e :: _ => decodeLogin e.2

/-! ## Writing it -/

/-- Who writes an entry: a Login at its address, a World with its name and population. -/
inductive Registrant where
  | login (host : Bytes)
  | world (host name : Bytes) (population : UInt32)
  deriving DecidableEq, Repr

def kLoginPort : UInt16 := 3726

def kTcpPort : UInt16 := 8085

/-- `registry_key`; the port is in decimal. -/
def Registrant.key : Registrant → Bytes
  | login host => kLoginPrefix ++ host ++ [0x3a, 0x33, 0x37, 0x32, 0x36]
  | world host _ _ => kWorldPrefix ++ host ++ [0x3a, 0x38, 0x30, 0x38, 0x35]

/-- `value_provider()`. -/
def Registrant.value : Registrant → Bytes
  | login host => encodeLogin { host, port := kLoginPort }
  | world host name population => encodeWorld { host, port := kTcpPort, name, population }

/-- `heartbeat_loop`'s `ttl`. -/
def heartbeatTtl : ℕ := 15

/-- A key of the registry. -/
def IsRegistry (key : Bytes) : Prop := kLoginPrefix <+: key ∨ kWorldPrefix <+: key

instance (key : Bytes) : Decidable (IsRegistry key) :=
  inferInstanceAs (Decidable (kLoginPrefix <+: key ∨ kWorldPrefix <+: key))

theorem Registrant.isRegistry_key (r : Registrant) : IsRegistry r.key := by
  cases r with
  | login host =>
    rw [Registrant.key, List.append_assoc]
    exact Or.inl (List.prefix_append _ _)
  | world host name population =>
    rw [Registrant.key, List.append_assoc]
    exact Or.inr (List.prefix_append _ _)

/-- Registry keys start with `r`. -/
theorem IsRegistry.head {key : Bytes} (h : IsRegistry key) : (0x72 : UInt8) ∈ key := by
  rcases h with h | h
  · exact h.subset (by decide)
  · exact h.subset (by decide)

end Netsrv.Registry
