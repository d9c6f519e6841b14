/-
  The list of worlds on its way from the store, through Login, to the client.

  Three formats carry the same data, each with limits of its own: a registry value, the
  store's `List` (1 MiB, 100000 entries) and the client's `WorldList` (1 MiB, 10000 worlds).
  A world takes fewer bytes in the last than its entry took in the second, so the sizes are
  compatible; the counts are not.
-/
import Netsrv.Handlers.LoginHandler
import Netsrv.Store.RemoteStore

namespace Netsrv.WorldListing

open ByteCodec StoreWire StoreHandler LoginHandler

/-- A world as the client gets it. -/
def toEntry (w : Registry.WorldInfo) : LoginProto.WorldEntry :=
  { name := w.name, host := w.host, port := w.port, population := w.population }

/-- The worlds among the entries, as the client is meant to get them. -/
def worlds (entries : List Entry) : List LoginProto.WorldEntry :=
  (Registry.listWorlds entries).map toEntry

theorem worldList_eq (entries : List Entry) :
    worldList entries = LoginProto.encodeWorldList (worlds entries) := rfl

/-! ## Sizes -/

/-- A world is shorter in the client's list than in the registry. -/
theorem length_encodeWorld_le {value : Bytes} {w : Registry.WorldInfo}
    (h : Registry.decodeWorld value = some w) :
    (LoginProto.encodeWorld (toEntry w)).length ≤ value.length := by
  obtain ⟨-, rest, rfl⟩ := (Registry.decodeWorld_eq_some_iff value w).mp h
  simp only [LoginProto.encodeWorld, toEntry, Registry.encodeWorld, List.length_append,
    ByteWriter.length_str16, ByteWriter.length_u16, ByteWriter.length_u32]
  omega

theorem length_worlds_le (entries : List Entry) : (worlds entries).length ≤ entries.length := by
  rw [worlds, List.length_map]
  exact List.length_filterMap_le _ _

/-- An entry adds the world it decodes to, if any. -/
theorem worlds_cons (e : Entry) (es : List Entry) :
    worlds (e :: es) = ((Registry.decodeWorld e.2).map toEntry).toList ++ worlds es := by
  rw [worlds, worlds, Registry.listWorlds, Registry.listWorlds, List.filterMap_cons]
  cases Registry.decodeWorld e.2 with
  | none => rfl
  | some w => rfl

theorem length_flatMap_worlds_le (entries : List Entry) :
    ((worlds entries).flatMap LoginProto.encodeWorld).length ≤
      (entries.flatMap encodeEntry).length := by
  induction entries with
  | nil => exact Nat.zero_le _
  | cons e es ih =>
    have hentry : (encodeEntry e).length = e.1.length + e.2.length + 6 := by
      rw [encodeEntry, List.length_append, ByteWriter.length_str16, ByteWriter.length_bytes32]
      omega
    rw [worlds_cons, List.flatMap_append, List.length_append, List.flatMap_cons,
      List.length_append, hentry]
    cases hdec : Registry.decodeWorld e.2 with
    | none =>
      simp only [Option.map_none, Option.toList_none, List.flatMap_nil, List.length_nil]
      omega
    | some w =>
      have hone := length_encodeWorld_le hdec
      rw [Option.map_some, Option.toList_some, List.flatMap_singleton]
      omega

/-- The client's list is shorter than the store's. -/
theorem length_worldList_le (entries : List Entry) :
    (worldList entries).length ≤ listLength entries := by
  have hle := length_flatMap_worlds_le entries
  rw [worldList_eq, LoginProto.encodeWorldList, listLength]
  simp only [List.length_append, ByteWriter.length_u16, ByteWriter.length_u32]
  omega

/-! ## What the client decodes -/

theorem worldFits_of_mem {entries : List Entry} {w : LoginProto.WorldEntry}
    (hw : w ∈ worlds entries) : LoginProto.WorldFits w := by
  obtain ⟨info, hinfo, rfl⟩ := List.mem_map.mp hw
  obtain ⟨e, -, hdec⟩ := List.mem_filterMap.mp hinfo
  obtain ⟨⟨hhost, hname⟩, -⟩ := (Registry.decodeWorld_eq_some_iff _ _).mp hdec
  exact ⟨hname, hhost⟩

/-- A list within the cap comes out as it went in. -/
theorem decode_encodeWorldList {ws : List LoginProto.WorldEntry}
    (hcap : ws.length ≤ LoginProto.kMaxWorlds) (hfits : ∀ w ∈ ws, LoginProto.WorldFits w) :
    LoginProto.decode (LoginProto.encodeWorldList ws) =
      some { op := .worldList, worlds := ws } :=
  (LoginProto.decode_eq_some_iff _ _).mpr ⟨⟨hcap, hfits, rfl⟩, [],
    by simp [LoginProto.encodeWorldList, LoginProto.Decoded.encoding, LoginProto.Decoded.fields]⟩

/-- A list over the cap is refused, by its count. -/
theorem decode_encodeWorldList_of_too_many {ws : List LoginProto.WorldEntry}
    (hcap : LoginProto.kMaxWorlds < ws.length) (h32 : ws.length < 2 ^ 32) :
    LoginProto.decode (LoginProto.encodeWorldList ws) = none := by
  cases hdec : LoginProto.decode (LoginProto.encodeWorldList ws) with
  | none => rfl
  | some d =>
    have hop : d.op = .worldList := by
      refine LoginProto.op_eq_of_code ?_ hdec
      rw [LoginProto.encodeWorldList, List.append_assoc]
      exact List.prefix_append _ _
    obtain ⟨hwf, rest, heq⟩ := (LoginProto.decode_eq_some_iff _ d).mp hdec
    rw [LoginProto.Decoded.WellFormed, hop] at hwf
    -- after the opcode comes the count, which the decoder has checked
    rw [LoginProto.encodeWorldList, LoginProto.Decoded.encoding, LoginProto.Decoded.fields,
      hop] at heq
    simp only [List.append_assoc] at heq
    obtain ⟨hword, -⟩ := List.append_inj (List.append_cancel_left heq) (by simp)
    have hlen := congrArg UInt32.toNat (ByteWriter.u32_inj hword)
    have hmax : d.worlds.length ≤ 10000 := hwf.1
    have hover : 10000 < ws.length := hcap
    rw [UInt32.toNat_ofNat', UInt32.toNat_ofNat', Nat.mod_eq_of_lt h32,
      Nat.mod_eq_of_lt (by omega)] at hlen
    omega

/-! ## From the store's answer to the client -/

variable {hmac : Hmac} {hmacKey : Bytes}

/-- An accepted list had its size and its count checked. -/
theorem limits_of_receive {incoming : Bytes} {d : Decoded}
    (h : StoreClient.receive hmac hmacKey incoming = some d) (hop : d.op = .list) :
    listLength d.entries ≤ StoreClient.kMaxResponseBytes ∧
      d.entries.length ≤ kMaxListEntries := by
  rw [StoreClient.receive, Option.bind_eq_some_iff] at h
  obtain ⟨⟨payload, rest⟩, hread, hdec⟩ := h
  obtain ⟨-, hmax, -⟩ := Session.readFrame_some hread
  obtain ⟨hwf, extra, rfl⟩ := (decodeAndVerify_eq_some_iff hmac hmacKey payload d).mp hdec
  rw [Decoded.WellFormed, hop] at hwf
  refine ⟨le_trans ?_ hmax, hwf.1⟩
  rw [length_sign, Decoded.encoding, Decoded.fields, hop, listLength]
  simp only [List.length_append, ByteWriter.length_u16, ByteWriter.length_u32]
  omega

/-! ## A store with many small worlds -/

/-- A World whose name and address are empty, the `i`-th one. -/
def smallWorld (i : ℕ) : SharedStore.Cell :=
  ⟨Registry.kWorldPrefix ++ toBE 2 i,
    ⟨Registry.encodeWorld { host := [], port := 0, name := [], population := 0 }, 1⟩⟩

theorem nodup_smallWorlds {n : ℕ} (hn : n ≤ 65536) :
    (((List.range n).map smallWorld).map Sigma.fst).Nodup := by
  rw [List.map_map]
  refine List.Nodup.map_on (fun i hi j hj hij => ?_) List.nodup_range
  rw [List.mem_range] at hi hj
  have hkey := congrArg ofBE (List.append_cancel_left hij)
  rwa [ofBE_toBE (show i < 256 ^ 2 by omega), ofBE_toBE (show j < 256 ^ 2 by omega)] at hkey

/-- `n` Worlds of the smallest kind, and nothing else. -/
def crowded (n : ℕ) (hn : n ≤ 65536) : SharedStore :=
  ⟨⟨(List.range n).map smallWorld, nodup_smallWorlds hn⟩⟩

/-- The walk in the order of the entries, at time 0. -/
def crowdedMoment (n : ℕ) : Moment := { now := 0, it := (List.range n).map smallWorld }

/-- What that walk lists. -/
def crowdedList (n : ℕ) : List Entry :=
  (List.range n).map fun i => ((smallWorld i).1, (smallWorld i).2.value)

theorem length_crowdedList (n : ℕ) : (crowdedList n).length = n := by
  rw [crowdedList, List.length_map, List.length_range]

theorem length_smallWorld (i : ℕ) :
    (smallWorld i).1.length = 17 ∧ (smallWorld i).2.value.length = 10 := by
  constructor
  · rw [smallWorld, List.length_append, length_toBE]
    rfl
  · rfl

theorem bounded_crowded {n : ℕ} (hn : n ≤ 65536) : RemoteStore.Bounded (crowded n hn) := by
  intro key e hfind
  obtain ⟨i, -, hi⟩ := List.mem_map.mp ((SharedStore.find_eq_some_iff _ _ _).mp hfind)
  obtain ⟨hkey, hvalue⟩ := length_smallWorld i
  rw [hi] at hkey hvalue
  have hfit : 17 + 10 + 44 ≤ RemoteStore.kReadBufferBytes := by decide
  rw [hkey, hvalue]
  exact hfit

theorem content_crowded {n : ℕ} (hn : n ≤ 65536) :
    RemoteStore.content (crowded n hn) = n * 27 := by
  rw [RemoteStore.content, crowded, List.map_map]
  have hone : ((fun c : SharedStore.Cell => c.1.length + c.2.value.length) ∘ smallWorld) =
      fun _ => 27 := by
    funext i
    rw [Function.comp_apply, (length_smallWorld i).1, (length_smallWorld i).2]
  rw [hone, List.map_const', List.sum_replicate_nat, List.length_range]

theorem listPrefix_crowded (n : ℕ) :
    SharedStore.listPrefix (crowdedMoment n).clk (crowdedMoment n).it Registry.kWorldPrefix =
      crowdedList n := by
  -- every entry is live and under the prefix
  have hall (i : ℕ) : SharedStore.expiredCell (crowdedMoment n).clk (smallWorld i) = false ∧
      (smallWorld i).1.take Registry.kWorldPrefix.length = Registry.kWorldPrefix :=
    ⟨rfl, List.take_left⟩
  rw [SharedStore.listPrefix_eq, crowdedList, ← List.filterMap_eq_map,
    show (crowdedMoment n).it = (List.range n).map smallWorld from rfl, List.filterMap_map]
  refine List.filterMap_congr fun i _ => ?_
  rw [Function.comp_apply, if_pos (hall i), Function.comp_apply]

theorem listLength_crowdedList (n : ℕ) : listLength (crowdedList n) ≤ 38 + n * 33 := by
  have hentry : ∀ e ∈ crowdedList n, e.1.length + e.2.length ≤ 27 := by
    intro e he
    obtain ⟨i, -, rfl⟩ := List.mem_map.mp he
    rw [(length_smallWorld i).1, (length_smallWorld i).2]
  have hle := RemoteStore.listLength_le hentry
  rwa [length_crowdedList] at hle

/-- Login gets the whole list while it is within the store's limits. -/
theorem roundtrip_crowded (hmac : Hmac) (hmacKey : Bytes) {n : ℕ} (hn : n ≤ 31000) :
    StoreClient.roundtrip hmac hmacKey
        (RemoteStore.connection hmac hmacKey (crowdedMoment n) (crowded n (by omega)))
        (encodeListPrefix hmac hmacKey Registry.kWorldPrefix) =
      some { op := .list, entries := crowdedList n } := by
  have hn' : n ≤ 65536 := by omega
  have hlen : (encodeListPrefix hmac hmacKey Registry.kWorldPrefix).length = 59 :=
    length_encodeGetOrTake hmac hmacKey .listPrefix Registry.kWorldPrefix
  have hd := decode_encodeListPrefix hmac hmacKey
    (show Registry.kWorldPrefix.length < 2 ^ 16 by decide)
  have hcontent := content_crowded hn'
  have hit : (crowded n hn').Walk (crowdedMoment n).it := List.Perm.refl _
  obtain ⟨hcall, -⟩ := RemoteStore.call_of_fits hmac hmacKey (crowdedMoment n)
    (bounded_crowded hn') (hlen.trans_le (show 59 ≤ RemoteStore.kReadBufferBytes by decide)) hd
    fun _ => ⟨by omega, hit⟩
  have hsize := listLength_crowdedList n
  have hlimits : (crowdedList n).length ≤ kMaxListEntries ∧
      listLength (crowdedList n) ≤ StoreClient.kMaxResponseBytes := by
    rw [length_crowdedList]
    exact ⟨show n ≤ 100000 by omega, show _ ≤ 1048576 by omega⟩
  rw [hcall, dispatch, Option.bind_some, listPrefix_crowded, RemoteStore.received,
    if_pos hlimits]

theorem length_worlds_crowdedList (n : ℕ) : (worlds (crowdedList n)).length = n := by
  have hdec (i : ℕ) : Registry.decodeWorld (smallWorld i).2.value =
      some { host := [], port := 0, name := [], population := 0 } := rfl
  rw [worlds, Registry.listWorlds, crowdedList, List.filterMap_map, List.length_map]
  simp [hdec]

/-! ## What the client reads -/

/-- Every list Login builds of an answer it accepted is at most 1 MiB long.  The client reads
    exactly the readable worlds, in order, when there are at most 10000 of them; it refuses
    a longer list. -/
theorem worldList_read (hmac : Hmac) (hmacKey : Bytes) (connection : Bytes → Bytes)
    {d : Decoded}
    (h : StoreClient.roundtrip hmac hmacKey connection
      (encodeListPrefix hmac hmacKey Registry.kWorldPrefix) = some d) (hop : d.op = .list) :
    (worldList d.entries).length ≤ 2 ^ 20 ∧
      LoginProto.decode (worldList d.entries) =
        if (Registry.listWorlds d.entries).length ≤ LoginProto.kMaxWorlds
        then some { op := .worldList, worlds := worlds d.entries } else none := by
  obtain ⟨hlen, hcount⟩ := limits_of_receive h hop
  have hcount' : d.entries.length ≤ 100000 := hcount
  have hworlds := length_worlds_le d.entries
  refine ⟨(length_worldList_le d.entries).trans hlen, ?_⟩
  rw [worldList_eq, ← List.length_map (f := toEntry), ← worlds]
  by_cases hcap : (worlds d.entries).length ≤ LoginProto.kMaxWorlds
  · rw [if_pos hcap, decode_encodeWorldList hcap fun w hw => worldFits_of_mem hw]
  · rw [if_neg hcap]
    exact decode_encodeWorldList_of_too_many (Nat.lt_of_not_le hcap) (by omega)

theorem worldList_read_one :
    (worldList (crowdedList 1)).length ≤ 2 ^ 20 ∧
      LoginProto.decode (worldList (crowdedList 1)) =
        some { op := .worldList, worlds := worlds (crowdedList 1) } := by
  obtain ⟨hlen, hdec⟩ := worldList_read RemoteStore.zeroMac [] _
    (roundtrip_crowded RemoteStore.zeroMac [] (show 1 ≤ 31000 by decide)) rfl
  exact ⟨hlen, hdec.trans (if_pos (by decide))⟩

/-- 10001 Worlds are within the limits of the store's list and over the client's cap. -/
theorem worldList_too_many : ¬ ∀ (hmac : Hmac) (hmacKey : Bytes) (m : Moment) (s : SharedStore)
    (d : Decoded), s.Walk m.it →
      StoreClient.roundtrip hmac hmacKey (RemoteStore.connection hmac hmacKey m s)
        (encodeListPrefix hmac hmacKey Registry.kWorldPrefix) = some d → d.op = .list →
      (worldList d.entries).length ≤ 2 ^ 20 ∧ LoginProto.decode (worldList d.entries) =
        some { op := .worldList, worlds := worlds d.entries } := by
  intro hall
  have hcount := length_worlds_crowdedList 10001
  have hread := (hall RemoteStore.zeroMac [] (crowdedMoment 10001) (crowded 10001 (by omega)) _
    (List.Perm.refl _) (roundtrip_crowded RemoteStore.zeroMac [] (by omega)) rfl).2
  rw [worldList_eq, decode_encodeWorldList_of_too_many (by rw [hcount]; decide)
    (by rw [hcount]; decide)] at hread
  cases hread

end Netsrv.WorldListing
