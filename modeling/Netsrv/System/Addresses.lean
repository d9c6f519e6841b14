/-
  Where clients are sent.

  Master sends a client to a Login, Login tells it the Worlds.  Both read a store in which
  clients have a say as well: what they make the servers put lies beside the registry, and
  what they make them take may be the registry's.  All the same every address a client reads
  is that of a process that registered itself, by a heartbeat less than 15 seconds old when
  the store was read (`addresses_registered`).

  Master reads the store a while before it sends the redirect, and the store answers Login a
  while before Login sends the list, so the entry may be gone when the client reads the
  frame: the result is about a state that the run has passed.
-/
import Netsrv.System.Lifetimes
import Netsrv.System.RegistryFrame
import Netsrv.System.SentFrames
import Netsrv.Registry.Readers

namespace Netsrv.System

open StoreWire StoreHandler RemoteStore Custody Custody.History LoginHandler Registry Backend
open Machine (run Passed)

variable {env : Env} {s s' : Sys} {l : Label}

/-! ## What is read in the registry -/

/-- The entry of a process is visible: its last heartbeat, which is not 15 seconds old. -/
def Sys.Live (s : Sys) (r : Registrant) : Prop :=
  s.backend.store.get s.backend.now r.key = some r.value ∧
    ∃ n t, History.issue s.backend.history n =
        some (r.key, ⟨.registrant, r.value, t + seconds heartbeatTtl⟩) ∧
      t ≤ s.backend.now ∧ s.backend.now < t + seconds heartbeatTtl

/-- What is visible under a key of the registry is a heartbeat. -/
theorem live_of_visible (hr : Machine.Reachable (step env) {} s) {key value : Bytes}
    (hkey : IsRegistry key) (hget : s.backend.store.get s.backend.now key = some value) :
    ∃ r : Registrant, r.key = key ∧ r.value = value ∧ s.Live r ∧
      requestLength (heartbeatRequest r) ≤ kReadBufferBytes := by
  have hdated := dated_of_reachable hr
  obtain ⟨n, i, -, hi, hval, hlt⟩ := (gated_of_reachable hr).sound.agrees.visible hget
  have horigin : i.origin = .registrant :=
    ((traced_of_reachable hr).issues n key i hi).2.resolve_right fun h => h.not_registry hkey
  obtain ⟨r, hrkey, hrval, hfit⟩ := hdated.heartbeats n key i hi horigin
  obtain ⟨t, ht, hexp⟩ := hdated.issues n key i hi
  rw [horigin] at hexp
  have hexp : i.expiresAt = t + seconds heartbeatTtl := hexp
  refine ⟨r, hrkey, hrval.trans hval, ⟨?_, n, t, ?_, ht, hexp ▸ hlt⟩, hfit⟩
  · rw [hrkey, hrval, hval, hget]
  · rw [hi, hrkey, hrval, ← horigin, ← hexp]

/-- The two prefixes have one length, so no key has both. -/
theorem not_both_prefixes {key : Bytes} (hlogin : kLoginPrefix <+: key)
    (hworld : kWorldPrefix <+: key) : False := by
  have heq := List.prefix_of_prefix_length_le hlogin hworld (by decide)
  exact absurd (heq.eq_of_length (by decide)) (by decide)

theorem prefix_key_login (host : Bytes) : kLoginPrefix <+: (Registrant.login host).key := by
  rw [Registrant.key, List.append_assoc]
  exact List.prefix_append _ _

theorem prefix_key_world (host name : Bytes) (population : UInt32) :
    kWorldPrefix <+: (Registrant.world host name population).key := by
  rw [Registrant.key, List.append_assoc]
  exact List.prefix_append _ _

/-- A heartbeat that fits into a frame is read as it was written. -/
theorem decodeLogin_value {host : Bytes}
    (hfit : requestLength (heartbeatRequest (.login host)) ≤ kReadBufferBytes) :
    decodeLogin (Registrant.login host).value = some ⟨host, kLoginPort⟩ := by
  refine (decodeLogin_eq_some_iff _ _).mpr ⟨?_, [], (List.append_nil _).symm⟩
  have hfit : (Registrant.login host).key.length + (Registrant.login host).value.length + 44 ≤
      4096 := hfit
  simp only [Registrant.key, List.length_append] at hfit
  show host.length < 65536
  omega

theorem decodeWorld_value {host name : Bytes} {population : UInt32}
    (hfit : requestLength (heartbeatRequest (.world host name population)) ≤ kReadBufferBytes) :
    decodeWorld (Registrant.world host name population).value =
      some ⟨host, kTcpPort, name, population⟩ := by
  refine (decodeWorld_eq_some_iff _ _).mpr ⟨?_, [], (List.append_nil _).symm⟩
  have hfit : (Registrant.world host name population).key.length +
      (Registrant.world host name population).value.length + 44 ≤ 4096 := hfit
  simp only [Registrant.key, Registrant.value, encodeWorld, ByteWriter.length_str16,
    List.length_append] at hfit
  show host.length < 65536 ∧ name.length < 65536
  omega

/-- What Master picks is a Login that is registered. -/
theorem live_of_pickLogin (hr : Machine.Reachable (step env) {} s) {it : List SharedStore.Cell}
    (hit : s.backend.store.Walk it) {info : LoginInfo}
    (h : pickLogin (fun _ => s.backend.now) it = some info) :
    ∃ host, info = ⟨host, kLoginPort⟩ ∧ s.Live (.login host) := by
  obtain ⟨key, value, ⟨hpre, hget⟩, hdec⟩ := pickLogin_registered hit h
  obtain ⟨r, rfl, rfl, hlive, hfit⟩ := live_of_visible hr (Or.inl hpre) hget
  cases r with
  | login host =>
    rw [decodeLogin_value hfit] at hdec
    exact ⟨host, (Option.some.inj hdec).symm, hlive⟩
  | world host name population =>
    exact (not_both_prefixes hpre (prefix_key_world host name population)).elim

/-- The address of a World that is registered. -/
def Sys.Serves (s : Sys) (w : LoginProto.WorldEntry) : Prop :=
  w.port = kTcpPort ∧ s.Live (.world w.host w.name w.population)

/-- The store lists Worlds that are registered. -/
theorem serves_of_listPrefix (hr : Machine.Reachable (step env) {} s)
    {it : List SharedStore.Cell} (hit : s.backend.store.Walk it) :
    ∀ w ∈ WorldListing.worlds (SharedStore.listPrefix (fun _ => s.backend.now) it kWorldPrefix),
      s.Serves w := by
  intro w hw
  obtain ⟨info, hinfo, rfl⟩ := List.mem_map.mp hw
  obtain ⟨⟨key, value⟩, he, hdec⟩ := List.mem_filterMap.mp hinfo
  obtain ⟨hpre, hget⟩ := (SharedStore.mem_listPrefix hit _ _ _ _).mp he
  obtain ⟨r, rfl, rfl, hlive, hfit⟩ := live_of_visible hr (Or.inr hpre) hget
  cases r with
  | login host => exact (not_both_prefixes (prefix_key_login host) hpre).elim
  | world host name population =>
    obtain rfl := Option.some.inj ((decodeWorld_value hfit).symm.trans hdec)
    exact ⟨rfl, hlive⟩

/-! ## What a step adds -/

/-- An answer after a step is an old one, or the store has just given it. -/
theorem Step.answered (h : Step env s l s') {cid t : ℕ} {c : Call} {a : Option Answer}
    (hc : s'.backend.calls cid = some c) (hans : c.answer = some (t, a)) :
    s.backend.calls cid = some c ∨ ∃ it, s.backend.store.Walk it ∧ t = s.backend.now ∧
      a = (dispatch { now := s.backend.now, it } s.backend.store c.request).2 := by
  have hissue {cid' : ℕ} {party : Party} {request : Decoded}
      (hb : (s.backend.issue cid' party request).calls cid = some c) :
      s.backend.calls cid = some c := by
    rcases Slots.update_cases hb with ⟨-, rfl⟩ | ⟨-, hb⟩
    · cases hans
    · exact hb
  cases h with
  | heartbeat r _ => exact Or.inl (hissue hc)
  | get key _ => exact Or.inl (hissue hc)
  | @exec cid' it b hb =>
    obtain ⟨c', a', hc', -, -, hit, ha, rfl⟩ := exec_cases hb
    rcases Slots.update_cases hc with ⟨rfl, rfl⟩ | ⟨-, hc⟩
    · obtain ⟨rfl, rfl⟩ := Prod.mk.inj (Option.some.inj hans)
      exact Or.inr ⟨it, hit, rfl, ha.symm⟩
    · exact Or.inl hc
  | loginTakes _ _ => exact Or.inl (hissue hc)
  | loginAccepts _ _ _ _ _ => exact Or.inl (hissue hc)
  | loginSendsProof _ _ => exact Or.inl (hissue hc)
  | worldTakes _ _ => exact Or.inl (hissue hc)
  | _ => exact Or.inl hc

/-- A Login session that begins to wait for a list has asked for the Worlds. -/
theorem Step.listing (h : Step env s l s') {sid cid : ℕ}
    (hpoint : (s'.login sid).point = .listing cid) :
    (s.login sid).point = .listing cid ∨
      ∃ c, s'.backend.calls cid = some c ∧ c.request = listRequest kWorldPrefix := by
  have hset {sid' : ℕ} {x : LoginSession} {t : Sys} {G : Prop} (ht : t.login = s.login)
      (hp : ((t.setLogin sid' x).login sid).point = .listing cid)
      (hx : x.point = .listing cid → (s.login sid').point = .listing cid ∨ G) :
      (s.login sid).point = .listing cid ∨ G := by
    by_cases hsid : sid = sid'
    · obtain rfl := hsid
      rw [Sys.login_setLogin_self] at hp
      exact hx hp
    · rw [Sys.login_setLogin_of_ne _ hsid, ht] at hp
      exact Or.inl hp
  cases h with
  | loginCloses frames _ => exact hset rfl hpoint nofun
  | loginTakes _ _ => exact hset rfl hpoint nofun
  | loginAccepts _ _ _ _ _ => exact hset rfl hpoint nofun
  | loginChallenges _ _ _ _ _ => exact hset rfl hpoint nofun
  | loginSendsProof _ _ =>
    refine hset rfl hpoint fun heq => Or.inr ?_
    obtain rfl := LoginPoint.listing.inj heq
    exact ⟨_, Function.update_self _ _ _, rfl⟩
  | loginSendsWorlds frame _ => exact hset rfl hpoint nofun
  | loginLeaves sid' => exact hset rfl hpoint Or.inl
  | _ => exact Or.inl hpoint

/-- What Master has in hand after a step it had before, or has just picked. -/
theorem Step.pending (h : Step env s l s') {sid : ℕ} {info : LoginInfo}
    (hinfo : (s'.master sid).pending = some info) : (s.master sid).pending = some info ∨
      ∃ it, s.backend.store.Walk it ∧ pickLogin (fun _ => s.backend.now) it = some info := by
  have hset {sid' : ℕ} {m : MasterSession} {G : Prop}
      (hp : (Function.update s.master sid' m sid).pending = some info)
      (hm : m.pending = some info → (s.master sid').pending = some info ∨ G) :
      (s.master sid).pending = some info ∨ G := by
    by_cases hsid : sid = sid'
    · obtain rfl := hsid
      rw [Function.update_self] at hp
      exact hm hp
    · rw [Function.update_of_ne hsid] at hp
      exact Or.inl hp
  cases h with
  | masterPicks hit hpick =>
    exact hset hinfo fun heq => Or.inr ⟨_, hit, Option.some.inj heq ▸ hpick⟩
  | masterIssues random _ => exact hset hinfo nofun
  | masterLeaves sid' => exact hset hinfo Or.inl
  | _ => exact Or.inl hinfo

/-- A frame that reads as a redirect carries the Login that was picked. -/
theorem sent_redirect (h : step env s l = some s')
    (hfits : ∀ sid info, (s.master sid).pending = some info → LoginFits info) {sid : ℕ}
    {frame : Bytes} (hm : (.master sid, frame) ∈ s'.messages) {r : MasterProto.Redirect}
    (hread : MasterProto.clientAnswer frame = .redirect r) :
    (.master sid, frame) ∈ s.messages ∨
      (s.master sid).pending = some ⟨r.loginHost, r.loginPort⟩ := by
  cases step_messages h with
  | silent hsame => exact Or.inl (hsame ▸ hm)
  | sends hmsg hnew =>
    rw [hnew] at hm
    rcases List.mem_cons.mp hm with heq | hm
    · obtain ⟨rfl, rfl⟩ := Prod.mk.inj heq
      cases hmsg with
      | masterError =>
        rw [MasterProto.clientAnswer, if_pos MasterProto.isError_encodeError] at hread
        cases hread
      | @redirect sid info random hpending =>
        have hticket := length_generateTokenHex random
        have hanswer := MasterProto.clientAnswer_encodeRedirect
          (r := ⟨generateTokenHex random, info.host, info.port⟩)
          ⟨hticket.trans_lt (by decide), hfits sid info hpending⟩
          (hticket.trans_lt (by decide))
        obtain rfl := MasterProto.MasterAnswer.redirect.inj (hanswer.symm.trans hread)
        exact Or.inr hpending
    · exact Or.inl hm

/-- A frame that reads as a list of Worlds is what the session made of the store's answer. -/
theorem sent_worldList (h : step env s l = some s') {sid : ℕ} {frame : Bytes}
    (hm : (.login sid, frame) ∈ s'.messages) {d : LoginProto.Decoded}
    (hd : LoginProto.decode frame = some d) (hop : d.op = .worldList) :
    (.login sid, frame) ∈ s.messages ∨ ∃ cid lost outcome,
      (s.login sid).point = .listing cid ∧ s.awaited cid lost = some outcome ∧
        frame = worldList (StoreClient.listPrefixResult outcome) := by
  cases step_messages h with
  | silent hsame => exact Or.inl (hsame ▸ hm)
  | sends hmsg hnew =>
    rw [hnew] at hm
    rcases List.mem_cons.mp hm with heq | hold
    · obtain ⟨rfl, rfl⟩ := Prod.mk.inj heq
      have hother (op : LoginProto.Op) (hcode : ByteWriter.u16 op.code <+: frame)
          (hne : op ≠ .worldList) : False :=
        hne ((LoginProto.op_eq_of_code hcode hd).symm.trans hop)
      cases hmsg with
      | loginError _ => exact (hother .serverError List.prefix_rfl (by decide)).elim
      | challenge _ _ =>
        refine (hother .serverChallenge ?_ (by decide)).elim
        rw [LoginProto.encodeServerChallenge, List.append_assoc]
        exact List.prefix_append _ _
      | proof _ _ =>
        refine (hother .serverProof ?_ (by decide)).elim
        rw [LoginProto.encodeServerProof, List.append_assoc]
        exact List.prefix_append _ _
      | @worlds _ cid lost outcome _ =>
        -- the session's own call, which the message does not name
        rw [step] at h
        split at h
        · next cid' hpoint =>
          obtain ⟨outcome', hout', rfl⟩ := Option.map_eq_some_iff.mp h
          obtain ⟨heq, -⟩ := List.cons.inj hnew
          exact Or.inr ⟨cid', lost, outcome', hpoint, hout', (Prod.mk.inj heq).2.symm⟩
        · cases h
    · exact Or.inl hold

/-- What Login makes its list of came in an answer of the store, within the limits, or there
    was none. -/
theorem listPrefixResult_of_awaited {cid : ℕ} {lost : Bool} {outcome : Option Decoded}
    (h : s.awaited cid lost = some outcome) :
    StoreClient.listPrefixResult outcome = [] ∨ ∃ c t es, s.backend.calls cid = some c ∧
      c.answer = some (t, some (.list es)) ∧ es.length ≤ kMaxListEntries ∧
      StoreClient.listPrefixResult outcome = es := by
  cases lost with
  | true =>
    obtain rfl := Option.some.inj h
    exact Or.inl rfl
  | false =>
    obtain ⟨c, t, a, hc, hans, rfl⟩ := Sys.answered_of_awaited h
    cases a with
    | none => exact Or.inl rfl
    | some a =>
      cases a with
      | list es =>
        rw [Option.bind_some, received]
        split
        · next hlimits => exact Or.inr ⟨c, t, es, hc, hans, hlimits.1, rfl⟩
        · exact Or.inl rfl
      | ok => exact Or.inl rfl
      | value v => exact Or.inl rfl
      | notFound => exact Or.inl rfl

/-- The client reads the Worlds that Login made the list of, or none of them. -/
theorem worlds_of_decode {entries : List StoreWire.Entry}
    (hcount : entries.length ≤ kMaxListEntries) {d : LoginProto.Decoded}
    (hd : LoginProto.decode (worldList entries) = some d) :
    d.worlds = WorldListing.worlds entries := by
  rw [WorldListing.worldList_eq] at hd
  by_cases hcap : (WorldListing.worlds entries).length ≤ LoginProto.kMaxWorlds
  · rw [WorldListing.decode_encodeWorldList hcap fun w hw => WorldListing.worldFits_of_mem hw] at hd
    obtain rfl := Option.some.inj hd
    rfl
  · have hle := WorldListing.length_worlds_le entries
    have hmax : entries.length ≤ 100000 := hcount
    rw [WorldListing.decode_encodeWorldList_of_too_many (Nat.lt_of_not_le hcap) (by omega)] at hd
    cases hd

/-! ## Every run -/

/-- What Master has picked and what the store has listed was registered then, and so is what
    the clients read. -/
structure Guided (env : Env) (ls : List Label) (s : Sys) : Prop where
  picked : ∀ sid info, (s.master sid).pending = some info → LoginFits info ∧
    ∃ host, info = ⟨host, kLoginPort⟩ ∧ Passed (step env) {} (Sys.Live · (.login host)) ls
  answers : ∀ cid c t es, s.backend.calls cid = some c → c.request = listRequest kWorldPrefix →
    c.answer = some (t, some (.list es)) →
    Passed (step env) {} (fun s₁ => ∀ w ∈ WorldListing.worlds es, s₁.Serves w) ls
  listing : ∀ sid cid, (s.login sid).point = .listing cid →
    ∃ c, s.backend.calls cid = some c ∧ c.request = listRequest kWorldPrefix
  redirects : ∀ sid frame r, (.master sid, frame) ∈ s.messages →
    MasterProto.clientAnswer frame = .redirect r → r.loginPort = kLoginPort ∧
      Passed (step env) {} (Sys.Live · (.login r.loginHost)) ls
  worlds : ∀ sid frame d, (.login sid, frame) ∈ s.messages →
    LoginProto.decode frame = some d → d.op = .worldList →
    Passed (step env) {} (fun s₁ => ∀ w ∈ d.worlds, s₁.Serves w) ls

theorem guided_init : Guided env [] {} where
  picked := nofun
  answers := nofun
  listing := nofun
  redirects := nofun
  worlds := nofun

theorem Guided.step {ls : List Label} (hs : Guided env ls s) (hrun : run (step env) {} ls = some s)
    (hstep : System.step env s l = some s') : Guided env (ls ++ [l]) s' := by
  have hr : Machine.Reachable (System.step env) {} s := Machine.Reachable.of_run .init hrun
  have h := step_cases hstep
  refine ⟨fun sid info hinfo => ?_, fun cid c t es hc hreq hans => ?_, fun sid cid hpoint => ?_,
    fun sid frame r hm hread => ?_, fun sid frame d hm hd hop => ?_⟩
  · rcases h.pending hinfo with hold | ⟨it, hit, hpick⟩
    · obtain ⟨hfits, host, heq, hpassed⟩ := hs.picked sid info hold
      exact ⟨hfits, host, heq, hpassed.concat l⟩
    · obtain ⟨host, heq, hlive⟩ := live_of_pickLogin hr hit hpick
      exact ⟨loginFits_of_pickLogin hpick, host, heq, (Passed.last hrun hlive).concat l⟩
  · rcases h.answered hc hans with hold | ⟨it, hit, -, ha⟩
    · exact (hs.answers cid c t es hold hreq hans).concat l
    · rw [hreq] at ha
      have hes : Answer.list es = .list _ := Option.some.inj ha
      obtain rfl := StoreHandler.Answer.list.inj hes
      exact (Passed.last hrun (serves_of_listPrefix hr hit)).concat l
  · rcases h.listing hpoint with hold | hnew
    · obtain ⟨c, hc, hreq⟩ := hs.listing sid cid hold
      obtain ⟨c', hc', -, hreq', -⟩ := h.grows.calls cid c hc
      exact ⟨c', hc', hreq'.trans hreq⟩
    · exact hnew
  · rcases sent_redirect hstep (fun sid info hp => (hs.picked sid info hp).1) hm hread with
      hold | hpending
    · obtain ⟨hport, hpassed⟩ := hs.redirects sid frame r hold hread
      exact ⟨hport, hpassed.concat l⟩
    · obtain ⟨-, host, heq, hpassed⟩ := hs.picked sid _ hpending
      obtain ⟨hhost, hport⟩ := LoginInfo.mk.inj heq
      exact ⟨hport, (hhost ▸ hpassed).concat l⟩
  · rcases sent_worldList hstep hm hd hop with hold | ⟨cid, lost, outcome, hpoint, hout, rfl⟩
    · exact (hs.worlds sid frame d hold hd hop).concat l
    · obtain ⟨c, hc, hreq⟩ := hs.listing sid cid hpoint
      rcases listPrefixResult_of_awaited hout with hnil | ⟨c', t, es, hc', hans, hcount, hes⟩
      · rw [hnil] at hd
        have hnone := worlds_of_decode (Nat.zero_le _) hd
        refine (Passed.last hrun fun w hw => ?_).concat l
        rw [hnone] at hw
        cases hw
      · obtain rfl : c = c' := Option.some.inj (hc.symm.trans hc')
        rw [hes] at hd
        rw [worlds_of_decode hcount hd]
        exact (hs.answers cid c t es hc hreq hans).concat l

/-- **Clients are sent to processes that registered themselves.**  In every run, the address
    that a client reads in a redirect of Master is that of a Login, and those it reads in a
    list of Worlds are those of Worlds with their names and populations, whose entries the
    run has passed visible, by a heartbeat of their own that was less than 15 seconds old. -/
theorem addresses_registered (env : Env) {ls : List Label} {s : Sys}
    (hrun : run (step env) {} ls = some s) :
    (∀ sid frame r, (.master sid, frame) ∈ s.messages →
      MasterProto.clientAnswer frame = .redirect r → r.loginPort = kLoginPort ∧
        Passed (step env) {} (Sys.Live · (.login r.loginHost)) ls) ∧
    ∀ sid frame d, (.login sid, frame) ∈ s.messages → LoginProto.decode frame = some d →
      d.op = .worldList → Passed (step env) {} (fun s₁ => ∀ w ∈ d.worlds, s₁.Serves w) ls := by
  have hguided : Guided env ls s := Machine.run_induction (I := Guided env) guided_init
    (fun _ _ _ _ hrun hs hstep => hs.step hrun hstep) hrun
  exact ⟨hguided.redirects, hguided.worlds⟩

def worldHost : Registrant := .world [0x77] [0x41] 3

def worldCell : SharedStore.Cell := ⟨worldHost.key, worldHost.value, seconds heartbeatTtl⟩

/-- A client that is told where the one World is. -/
def listedRun : List Label :=
  [.heartbeat 0 loginHost, .exec 0 [], .heartbeat 1 worldHost, .exec 1 [hostCell],
    .masterFrame 0 [1] [worldCell, hostCell], .masterIssue 0 firstDraw,
    .loginFrame 0 (LoginProto.encodeClientHello (generateTokenHex firstDraw) [0x75]) 2 secondDraw,
    .exec 2 [ticketCell, worldCell, hostCell], .loginTaken 0 false false secondDraw 0,
    .loginFrame 0 (LoginProto.encodeClientProof [1] (Srp6.unitHash []).toList) 3 secondDraw,
    .exec 3 [worldCell, hostCell], .loginPut 0 false 4,
    .exec 4 [tokenCell, worldCell, hostCell], .loginListed 0 false]

theorem addresses_registered_listed : ∃ s, run (step plainEnv) {} listedRun = some s ∧
    Passed (step plainEnv) {} (Sys.Live · (.login [0x6c])) listedRun ∧
    Passed (step plainEnv) {} (Sys.Live · worldHost) listedRun := by
  have hlast : (run (step plainEnv) {} listedRun).map (fun s =>
      (s.messages.getLast?, s.messages.head?)) = some
        (some (.master 0, MasterHandler.redirect (generateTokenHex firstDraw) ⟨[0x6c], 3726⟩),
          some (.login 0, LoginProto.encodeWorldList [⟨[0x41], [0x77], 8085, 3⟩])) := by
    decide +kernel
  obtain ⟨s, hs, heq⟩ := Option.map_eq_some_iff.mp hlast
  obtain ⟨hredirect, hlist⟩ := Prod.mk.inj heq
  obtain ⟨hmaster, hlogin⟩ := addresses_registered plainEnv hs
  refine ⟨s, hs, (hmaster 0 _ ⟨generateTokenHex firstDraw, [0x6c], 3726⟩
    (List.mem_of_getLast? hredirect) (by decide +kernel)).2, ?_⟩
  refine (hlogin 0 _ { op := .worldList, worlds := [⟨[0x41], [0x77], 8085, 3⟩] }
    (List.mem_of_head? hlist) (by decide +kernel) rfl).mono fun s₁ hall => ?_
  exact (hall _ List.mem_cons_self).2

end Netsrv.System
