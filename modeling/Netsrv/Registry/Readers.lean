/-
  The readers of the registry: Master, which sends a client to a Login, and the client,
  which reads where it is sent.

  `pick_login` decodes the first entry it is given and no other; `list_worlds` skips the
  entries it cannot decode.  So what an unreadable Login entry does depends on where the
  walk of the map meets it.
-/
import Netsrv.Net.MasterProtocol
import Netsrv.Registry.WorldRegistry

namespace Netsrv.Registry

open SharedStore MasterProto

/-! ## Which Login is picked -/

/-- A live entry under the prefix of the Logins. -/
def loginCell (clk : Bytes → ℕ) (c : Cell) : Bool :=
  !expiredCell clk c && kLoginPrefix.isPrefixOf c.1

theorem loginCell_iff (clk : Bytes → ℕ) (c : Cell) : loginCell clk c = true ↔
    expiredCell clk c = false ∧ c.1.take kLoginPrefix.length = kLoginPrefix := by
  rw [loginCell, Bool.and_eq_true, Bool.not_eq_true', List.isPrefixOf_iff_prefix,
    List.prefix_iff_eq_take, eq_comm (a := kLoginPrefix)]

/-- What `pick_login` is given: the live Login entries, in the order of the walk. -/
theorem listPrefix_logins (clk : Bytes → ℕ) (it : List Cell) :
    listPrefix clk it kLoginPrefix =
      (it.filter (loginCell clk)).map fun c => (c.1, c.2.value) := by
  rw [listPrefix_eq, ← List.filterMap_eq_map, List.filterMap_filter]
  refine List.filterMap_congr fun c _ => ?_
  by_cases hc : loginCell clk c = true
  · rw [if_pos ((loginCell_iff clk c).mp hc), if_pos hc, Function.comp_apply]
  · rw [if_neg (fun h => hc ((loginCell_iff clk c).mpr h)), if_neg hc]

/-- `pick_login` is the decoding of the first of them. -/
theorem pickLogin_eq (clk : Bytes → ℕ) (it : List Cell) :
    pickLogin clk it = (it.find? (loginCell clk)).bind fun c => decodeLogin c.2.value := by
  rw [pickLogin, listPrefix_logins, ← List.head?_filter]
  cases it.filter (loginCell clk) with
  | nil => rfl
  | cons c cs => rfl

/-- A Login is registered under `key`, not expired, with `value`. -/
def LoginEntry (s : SharedStore) (clk : Bytes → ℕ) (key value : Bytes) : Prop :=
  kLoginPrefix <+: key ∧ s.get (clk key) key = some value

/-- `picked` is a registered Login, and there is one whenever some entry can be read. -/
def FindsLogin (s : SharedStore) (clk : Bytes → ℕ) (picked : Option LoginInfo) : Prop :=
  (picked.isSome ↔ ∃ key value, LoginEntry s clk key value ∧ (decodeLogin value).isSome) ∧
    ∀ info, picked = some info →
      ∃ key value, LoginEntry s clk key value ∧ decodeLogin value = some info

/-- The first live Login entry the walk meets can be read, or none can. -/
def FirstReadable (clk : Bytes → ℕ) (it : List Cell) : Prop :=
  ∀ c, it.find? (loginCell clk) = some c →
    (decodeLogin c.2.value).isSome ∨
      ∀ d ∈ it, loginCell clk d → decodeLogin d.2.value = none

/-- The live Login entries of a walk are those of the store. -/
theorem loginEntry_iff {s : SharedStore} {it : List Cell} (hit : s.Walk it) (clk : Bytes → ℕ)
    (key value : Bytes) :
    LoginEntry s clk key value ↔ ∃ c ∈ it, loginCell clk c ∧ c.1 = key ∧ c.2.value = value := by
  rw [LoginEntry, ← mem_listPrefix hit, listPrefix_logins, List.mem_map]
  constructor
  · rintro ⟨c, hc, heq⟩
    obtain ⟨hmem, hlive⟩ := List.mem_filter.mp hc
    exact ⟨c, hmem, hlive, Prod.mk.inj heq⟩
  · rintro ⟨c, hmem, hlive, rfl, rfl⟩
    exact ⟨c, List.mem_filter.mpr ⟨hmem, hlive⟩, rfl⟩

/-- Whatever is picked is registered. -/
theorem pickLogin_registered {s : SharedStore} {it : List Cell} (hit : s.Walk it)
    {clk : Bytes → ℕ} {info : LoginInfo} (h : pickLogin clk it = some info) :
    ∃ key value, LoginEntry s clk key value ∧ decodeLogin value = some info := by
  rw [pickLogin_eq, Option.bind_eq_some_iff] at h
  obtain ⟨c, hfind, hdec⟩ := h
  refine ⟨c.1, c.2.value, (loginEntry_iff hit clk _ _).mpr ⟨c, ?_, ?_, rfl, rfl⟩, hdec⟩
  · exact List.mem_of_find?_eq_some hfind
  · exact List.find?_some hfind

theorem findsLogin_pickLogin {s : SharedStore} {it : List Cell} (hit : s.Walk it)
    (clk : Bytes → ℕ) : FindsLogin s clk (pickLogin clk it) ↔ FirstReadable clk it := by
  constructor
  · rintro ⟨hsome, -⟩ c hfind
    have hpick : pickLogin clk it = decodeLogin c.2.value := by
      rw [pickLogin_eq, hfind, Option.bind_some]
    by_cases hc : (decodeLogin c.2.value).isSome
    · exact Or.inl hc
    · refine Or.inr fun d hd hlive => ?_
      by_contra hread
      have hex := hsome.mpr ⟨d.1, d.2.value, (loginEntry_iff hit clk _ _).mpr
        ⟨d, hd, hlive, rfl, rfl⟩, Option.isSome_iff_ne_none.mpr hread⟩
      rw [hpick] at hex
      exact hc hex
  · intro hfirst
    refine ⟨⟨fun hsome => ?_, ?_⟩, fun info h => pickLogin_registered hit h⟩
    · obtain ⟨info, h⟩ := Option.isSome_iff_exists.mp hsome
      obtain ⟨key, value, hentry, hdec⟩ := pickLogin_registered hit h
      exact ⟨key, value, hentry, by rw [hdec]; rfl⟩
    · rintro ⟨key, value, hentry, hdec⟩
      obtain ⟨d, hd, hlive, -, rfl⟩ := (loginEntry_iff hit clk key value).mp hentry
      cases hfind : it.find? (loginCell clk) with
      | none => exact absurd hlive (List.find?_eq_none.mp hfind d hd)
      | some c =>
        rw [pickLogin_eq, hfind, Option.bind_some]
        rcases hfirst c hfind with hc | hnone
        · exact hc
        · rw [hnone d hd hlive] at hdec
          cases hdec

/-- Any entry of the store is the first one of some walk. -/
theorem exists_walk_cons {s : SharedStore} {c : Cell} (hc : c ∈ s.entries.entries) :
    ∃ it, s.Walk (c :: it) :=
  ⟨s.entries.entries.erase c, (List.perm_cons_erase hc).symm⟩

/-- Master finds a Login whenever one is registered exactly when the first entry its walk
    meets can be read, unless none can.  It does so in every order of the walk exactly
    when all the registered Logins can be read, or none. -/
theorem pickLogin_complete_iff (s : SharedStore) (clk : Bytes → ℕ) :
    (∀ it, s.Walk it → (FindsLogin s clk (pickLogin clk it) ↔ FirstReadable clk it)) ∧
      ((∀ it, s.Walk it → FindsLogin s clk (pickLogin clk it)) ↔
        (∀ key value, LoginEntry s clk key value → (decodeLogin value).isSome) ∨
          ∀ key value, LoginEntry s clk key value → decodeLogin value = none) := by
  refine ⟨fun it hit => findsLogin_pickLogin hit clk, fun hall => ?_, fun hreg it hit => ?_⟩
  · by_contra hmixed
    rw [not_or] at hmixed
    obtain ⟨hbad, hgood⟩ := hmixed
    simp only [Classical.not_forall, exists_prop] at hbad hgood
    obtain ⟨key, value, hentry, hnone⟩ := hbad
    obtain ⟨key', value', hentry', hsome⟩ := hgood
    -- the walk that meets the unreadable entry first
    have hself : s.Walk s.entries.entries := List.Perm.refl _
    obtain ⟨c, hc, hlive, rfl, rfl⟩ := (loginEntry_iff hself clk key value).mp hentry
    obtain ⟨it, hit⟩ := exists_walk_cons hc
    have hfirst := (findsLogin_pickLogin hit clk).mp (hall _ hit) c
      (List.find?_cons_of_pos hlive)
    obtain ⟨d, hd, hdlive, -, rfl⟩ := (loginEntry_iff hit clk key' value').mp hentry'
    rcases hfirst with hread | hnone'
    · exact hnone hread
    · exact hsome (hnone' d hd hdlive)
  · refine (findsLogin_pickLogin hit clk).mpr fun c hfind => ?_
    have hentry {d : Cell} (hd : d ∈ it) (hlive : loginCell clk d = true) :
        LoginEntry s clk d.1 d.2.value :=
      (loginEntry_iff hit clk _ _).mpr ⟨d, hd, hlive, rfl, rfl⟩
    rcases hreg with hread | hnone
    · exact Or.inl (hread _ _ (hentry (List.mem_of_find?_eq_some hfind) (List.find?_some hfind)))
    · exact Or.inr fun d hd hlive => hnone _ _ (hentry hd hlive)

/-- One entry without a value hides the Login registered beside it. -/
theorem pickLogin_blinded : ¬ ∀ (s : SharedStore) (clk : Bytes → ℕ) (it : List Cell),
    s.Walk it → FindsLogin s clk (pickLogin clk it) := by
  intro hall
  have hfinds := hall
    ((empty.put 0 (Registrant.login [0x61]).key (Registrant.login [0x61]).value heartbeatTtl).put
      0 (Registrant.login [0x62]).key [] heartbeatTtl) (fun _ => 0)
    [⟨(Registrant.login [0x62]).key, ⟨[], seconds heartbeatTtl⟩⟩,
      ⟨(Registrant.login [0x61]).key, ⟨(Registrant.login [0x61]).value, seconds heartbeatTtl⟩⟩]
    (by decide)
  have hsome := hfinds.1.mpr ⟨(Registrant.login [0x61]).key, (Registrant.login [0x61]).value,
    ⟨by decide, by decide⟩, by decide⟩
  revert hsome
  decide

/-! ## What the encoders write is what the readers read -/

/-- The three readers accept exactly what the encoders write, whatever follows; the client
    gets back every redirect but one whose ticket has the length of the error mark. -/
theorem registry_codecs_exact :
    (∀ data i, decodeLogin data = some i ↔
      i.host.length ≤ 65535 ∧ ∃ rest, data = encodeLogin i ++ rest) ∧
    (∀ data i, decodeWorld data = some i ↔
      (i.host.length ≤ 65535 ∧ i.name.length ≤ 65535) ∧ ∃ rest, data = encodeWorld i ++ rest) ∧
    (∀ msg r, decodeRedirect msg = some r ↔
      (r.ticket.length ≤ 65535 ∧ r.loginHost.length ≤ 65535) ∧
        ∃ rest, msg = encodeRedirect r.ticket r.loginHost r.loginPort ++ rest) ∧
    (∀ ticket loginHost loginPort, ticket.length ≤ 65535 → loginHost.length ≤ 65535 →
      (ticket.length < 65535 →
        clientAnswer (encodeRedirect ticket loginHost loginPort) =
          .redirect { ticket, loginHost, loginPort }) ∧
      (isError (encodeRedirect ticket loginHost loginPort) = true ↔ ticket.length = 65535)) ∧
    isError encodeError = true ∧ decodeRedirect encodeError = none := by
  have hfits (n : ℕ) : n < 2 ^ 16 ↔ n ≤ 65535 := Nat.lt_succ_iff
  refine ⟨fun data i => ?_, fun data i => ?_, fun msg r => ?_,
    fun ticket host port hticket hhost => ⟨fun hshort => ?_, ?_⟩, isError_encodeError,
    decodeRedirect_encodeError⟩
  · rw [decodeLogin_eq_some_iff, LoginFits, hfits]
  · rw [decodeWorld_eq_some_iff, WorldFits, hfits, hfits]
  · rw [decodeRedirect_eq_some_iff, RedirectFits, hfits, hfits]
    rfl
  · exact clientAnswer_encodeRedirect (r := ⟨ticket, host, port⟩)
      ⟨Nat.lt_succ_of_le hticket, Nat.lt_succ_of_le hhost⟩ hshort
  · exact isError_encodeRedirect (Nat.lt_succ_of_le hticket) host port

end Netsrv.Registry
