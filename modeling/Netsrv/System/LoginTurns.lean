/-
  One Login session of the system, as a client sees it.

  `Sys.framesOf` are the frames that a party has sent, in order.  `Turn` is what a step can
  do to the session: it reads a frame and answers, or goes on after one of its three waits,
  or does nothing; with each case come the frames that it sends.  `turn_of_step` is that a
  step of the system is a turn of every Login session.
-/
import Netsrv.System.SentFrames

namespace Netsrv.System

open StoreWire LoginHandler Registry Srp6

/-! ## What a party has sent -/

/-- The frames that a party has sent, the oldest first. -/
def Sys.framesOf (s : Sys) (party : Party) : List Bytes :=
  (s.messages.filterMap fun m => if m.1 = party then some m.2 else none).reverse

theorem Sys.mem_framesOf {s : Sys} {party : Party} {frame : Bytes}
    (h : frame ∈ s.framesOf party) : (party, frame) ∈ s.messages := by
  rw [Sys.framesOf, List.mem_reverse, List.mem_filterMap] at h
  obtain ⟨⟨p, f⟩, hm, hf⟩ := h
  split at hf
  · next hp =>
    obtain rfl := Option.some.inj hf
    exact hp ▸ hm
  · cases hf

theorem Sys.messages_send (s : Sys) (party : Party) (frames : List Bytes) :
    (s.send party frames).messages = (frames.map (party, ·)).reverse ++ s.messages := by
  rw [messages, messages, send, List.filterMap_append, List.filterMap_reverse, List.filterMap_map,
    ← List.filterMap_eq_map]
  rfl

/-- A party says something, and the others do not. -/
theorem Sys.framesOf_send (s : Sys) (party other : Party) (frames : List Bytes) :
    (s.send other frames).framesOf party =
      s.framesOf party ++ if other = party then frames else [] := by
  rw [framesOf, framesOf, messages_send, List.filterMap_append, List.reverse_append,
    List.filterMap_reverse, List.reverse_reverse, List.filterMap_map]
  congr 1
  by_cases h : other = party
  · rw [if_pos h]
    simp [h]
  · rw [if_neg h]
    simp [h]

/-! ## The turns of a session -/

/-- What a step can do to the Login session `sid`, whose state is `st` and which stands at
    `pt`: the frame it reads, what it becomes, and the frames it sends.  `accounts` is what
    the step finds in the database, `log` the log after it. -/
inductive Turn (env : Env) (accounts : Bytes → Option AccountRecord) (log : List Event) (sid : ℕ)
    (st : LoginHandler.SessionState) (pt : LoginPoint) :
    Option Bytes → LoginHandler.SessionState → LoginPoint → List Bytes → Prop
  | rests : Turn env accounts log sid st pt none st pt []
  | closes {payload : Bytes} : pt = .reading → onMessage st payload = .close →
      Turn env accounts log sid st pt (some payload) st .reading []
  | hello {payload ticket username : Bytes} (cid : ℕ) : pt = .reading →
      onMessage st payload = .hello ticket username →
      Turn env accounts log sid st pt (some payload) st (.taking cid ticket username) []
  | refuses {payload a m1 : Bytes} {frames : List Bytes} : pt = .reading →
      onMessage st payload = .proof a m1 → proved env st a m1 = .closed frames →
      Turn env accounts log sid st pt (some payload) st .reading frames
  | accepts {payload a m1 : Bytes} {ch : ServerChallenge} {result : ServerResult} (cid : ℕ)
      (random : Vector UInt8 16) : pt = .reading → onMessage st payload = .proof a m1 →
      st.challenge = some ch → serverVerify env.H kGroup ch a m1 = some result →
      result.ok = true → .verified sid st.username ch a m1 (generateTokenHex random) ∈ log →
      Turn env accounts log sid st pt (some payload) st
        (.putting cid result (generateTokenHex random)) []
  | turnsAway {cid : ℕ} {ticket username : Bytes} {frames : List Bytes} :
      pt = .taking cid ticket username → frames = [] ∨ frames = [LoginProto.encodeError] →
      Turn env accounts log sid st pt none st .reading frames
  | challenges {cid b : ℕ} {ticket username : Bytes} {random : Vector UInt8 16}
      {reg : Registration} {ch : ServerChallenge} : pt = .taking cid ticket username →
      registrationFor env (accounts username) username (generateTokenHex random) = some reg →
      serverBegin env.H kGroup reg.verifier b = some ch →
      Turn env accounts log sid st pt none
        { stage := .awaitingProof, username, challenge := some ch } .reading
        [LoginProto.encodeServerChallenge reg.salt ch.bBytes]
  | sendsProof {waited : ℕ} {result : ServerResult} {token : Bytes} (cid : ℕ) :
      pt = .putting waited result token →
      Turn env accounts log sid st pt none st (.listing cid)
        [LoginProto.encodeServerProof result.M2 token]
  | sendsWorlds {cid : ℕ} (answer : Option StoreHandler.Answer) : pt = .listing cid →
      Turn env accounts log sid st pt none { st with stage := .done } .reading
        [worldList (StoreClient.listPrefixResult (answer.bind RemoteStore.received))]

/-- What the step of this label has a Login session read. -/
def Label.readBy (sid : ℕ) : Label → Option Bytes
  | .loginFrame sid' payload _ _ => if sid' = sid then some payload else none
  | _ => none

/-- A step is a turn of the session, which sends these frames. -/
def Turned (env : Env) (s : Sys) (l : Label) (s' : Sys) (sid : ℕ) : Prop :=
  ∃ frames, Turn env s.accounts s'.log sid (s.login sid).state (s.login sid).point
      (l.readBy sid) (s'.login sid).state (s'.login sid).point frames ∧
    s'.framesOf (.login sid) = s.framesOf (.login sid) ++ frames

variable {env : Env} {s s' : Sys} {l : Label} {sid : ℕ}

/-- Where another session is at work, this one rests. -/
theorem turned_of_other (hread : l.readBy sid = none)
    (hstate : (s'.login sid).state = (s.login sid).state)
    (hpoint : (s'.login sid).point = (s.login sid).point)
    (hframes : s'.framesOf (.login sid) = s.framesOf (.login sid)) : Turned env s l s' sid := by
  refine ⟨[], ?_, by rw [hframes, List.append_nil]⟩
  rw [hread, hstate, hpoint]
  exact .rests

/-- A step that sets another Login session, after that one has sent something. -/
theorem turned_of_ne {sid' : ℕ} (hsid : sid ≠ sid') (hread : l.readBy sid = none) {t : Sys}
    {x : LoginSession} (hlogin : t.login = s.login)
    (hframes : t.framesOf (.login sid) = s.framesOf (.login sid)) :
    Turned env s l (t.setLogin sid' x) sid := by
  refine turned_of_other hread ?_ ?_ hframes
  · rw [Sys.login_setLogin_of_ne _ hsid, hlogin]
  · rw [Sys.login_setLogin_of_ne _ hsid, hlogin]

/-- Another party's frames are not this session's. -/
theorem framesOf_send_of_ne {t : Sys} {party other : Party} (hother : other ≠ party)
    (frames : List Bytes) (ht : t.framesOf party = s.framesOf party) :
    (t.send other frames).framesOf party = s.framesOf party := by
  rw [Sys.framesOf_send, if_neg hother, List.append_nil, ht]

/-- A step of the session itself. -/
theorem turned_of_self {t : Sys} {x : LoginSession} {frames : List Bytes}
    (hturn : Turn env s.accounts t.log sid (s.login sid).state (s.login sid).point
      (l.readBy sid) x.state x.point frames)
    (hframes : t.framesOf (.login sid) = s.framesOf (.login sid) ++ frames) :
    Turned env s l (t.setLogin sid x) sid := by
  refine ⟨frames, ?_, hframes⟩
  rw [Sys.login_setLogin_self]
  exact hturn

/-- The session's own frames. -/
theorem framesOf_send_self {t : Sys} (frames : List Bytes)
    (ht : t.framesOf (.login sid) = s.framesOf (.login sid)) :
    (t.send (.login sid) frames).framesOf (.login sid) = s.framesOf (.login sid) ++ frames := by
  rw [Sys.framesOf_send, if_pos rfl, ht]

theorem login_ne {sid' : ℕ} (h : sid ≠ sid') : Party.login sid' ≠ .login sid := by
  intro heq
  exact h (Party.login.inj heq).symm

theorem turned_closeLogin {sid' : ℕ} {frames : List Bytes} (hother : sid ≠ sid' →
      l.readBy sid = none)
    (hturn : sid = sid' → Turn env s.accounts (s.send (.login sid) frames).log sid
      (s.login sid).state (s.login sid).point (l.readBy sid) (s.login sid).state .reading frames) :
    Turned env s l (s.closeLogin sid' frames) sid := by
  by_cases hsid : sid = sid'
  · obtain rfl := hsid
    exact turned_of_self (hturn rfl) (framesOf_send_self frames rfl)
  · exact turned_of_ne hsid (hother hsid) rfl (framesOf_send_of_ne (login_ne hsid) frames rfl)

theorem turned_of_loginFrame {sid' cid : ℕ} {payload : Bytes} {random : Vector UInt8 16}
    (h : step env s (.loginFrame sid' payload cid random) = some s') :
    Turned env s (.loginFrame sid' payload cid random) s' sid := by
  have hother (hsid : sid ≠ sid') :
      (Label.loginFrame sid' payload cid random).readBy sid = none := if_neg hsid.symm
  have hself (hsid : sid = sid') :
      (Label.loginFrame sid' payload cid random).readBy sid = some payload := if_pos hsid.symm
  rw [step] at h
  split at h
  · next hreading =>
    split at h
    · split at h
      · next hmsg =>
        obtain rfl := Option.some.inj h
        refine turned_closeLogin hother fun hsid => ?_
        obtain rfl := hsid
        rw [hself rfl]
        exact .closes hreading hmsg
      · next ticket username hmsg =>
        obtain ⟨t, ht, rfl⟩ := Option.map_eq_some_iff.mp h
        obtain ⟨-, rfl⟩ := Sys.issue_some ht
        by_cases hsid : sid = sid'
        · obtain rfl := hsid
          refine turned_of_self ?_ (List.append_nil _).symm
          rw [hself rfl]
          exact .hello cid hreading hmsg
        · exact turned_of_ne hsid (hother hsid) rfl rfl
      · next a m1 hmsg =>
        split at h
        · next result ch hproved hch =>
          obtain ⟨t, ht, rfl⟩ := Option.map_eq_some_iff.mp h
          obtain ⟨-, rfl⟩ := Sys.issue_some ht
          by_cases hsid : sid = sid'
          · obtain rfl := hsid
            obtain ⟨ch', hch', hverify, hok⟩ := proved_accepted hproved
            obtain rfl : ch = ch' := Option.some.inj (hch.symm.trans hch')
            refine turned_of_self ?_ (List.append_nil _).symm
            rw [hself rfl]
            exact .accepts cid random hreading hmsg hch hverify hok List.mem_cons_self
          · exact turned_of_ne hsid (hother hsid) rfl rfl
        · next frames hproved =>
          obtain rfl := Option.some.inj h
          refine turned_closeLogin hother fun hsid => ?_
          obtain rfl := hsid
          rw [hself rfl]
          exact .refuses hreading hmsg hproved
        · cases h
    · cases h
  · cases h

theorem turned_of_loginTaken {sid' b : ℕ} {lost lookupFails : Bool} {random : Vector UInt8 16}
    (h : step env s (.loginTaken sid' lost lookupFails random b) = some s') :
    Turned env s (.loginTaken sid' lost lookupFails random b) s' sid := by
  rw [step] at h
  split at h
  · next cid ticket username hpoint =>
    obtain ⟨outcome, -, rfl⟩ := Option.map_eq_some_iff.mp h
    split
    · next frames hclosed =>
      refine turned_closeLogin (fun _ => rfl) fun hsid => ?_
      obtain rfl := hsid
      exact .turnsAway hpoint ((ticketTaken_closed hclosed).imp_right And.left)
    · next ch response hres =>
      obtain ⟨-, account, reg, hlookup, hreg, hbegin, rfl⟩ := ticketTaken_challenge hres
      split at hlookup
      · cases hlookup
      · obtain rfl := Option.some.inj hlookup
        by_cases hsid : sid = sid'
        · obtain rfl := hsid
          exact turned_of_self (.challenges hpoint hreg hbegin) (framesOf_send_self _ rfl)
        · exact turned_of_ne hsid rfl rfl (framesOf_send_of_ne (login_ne hsid) _ rfl)
  · cases h

theorem turned_of_loginPut {sid' cid : ℕ} {lost : Bool}
    (h : step env s (.loginPut sid' lost cid) = some s') :
    Turned env s (.loginPut sid' lost cid) s' sid := by
  rw [step] at h
  split at h
  · next waited result token hpoint =>
    obtain ⟨outcome, -, h⟩ := Option.bind_eq_some_iff.mp h
    obtain ⟨t, ht, rfl⟩ := Option.map_eq_some_iff.mp h
    obtain ⟨-, rfl⟩ := Sys.issue_some ht
    by_cases hsid : sid = sid'
    · obtain rfl := hsid
      exact turned_of_self (.sendsProof cid hpoint) (framesOf_send_self _ rfl)
    · exact turned_of_ne hsid rfl rfl (framesOf_send_of_ne (login_ne hsid) _ rfl)
  · cases h

theorem turned_of_loginListed {sid' : ℕ} {lost : Bool}
    (h : step env s (.loginListed sid' lost) = some s') :
    Turned env s (.loginListed sid' lost) s' sid := by
  rw [step] at h
  split at h
  · next cid hpoint =>
    obtain ⟨outcome, hout, rfl⟩ := Option.map_eq_some_iff.mp h
    by_cases hsid : sid = sid'
    · obtain rfl := hsid
      obtain ⟨answer, rfl⟩ := Sys.received_of_awaited hout
      exact turned_of_self (.sendsWorlds answer hpoint) (framesOf_send_self _ rfl)
    · exact turned_of_ne hsid rfl rfl (framesOf_send_of_ne (login_ne hsid) _ rfl)
  · cases h

/-- A step of the system is a turn of every Login session. -/
theorem turn_of_step (h : step env s l = some s') (sid : ℕ) : Turned env s l s' sid := by
  cases l with
  | loginFrame sid' payload cid random => exact turned_of_loginFrame h
  | loginTaken sid' lost lookupFails random b => exact turned_of_loginTaken h
  | loginPut sid' lost cid => exact turned_of_loginPut h
  | loginListed sid' lost => exact turned_of_loginListed h
  | disconnect party =>
    cases party with
    | login sid' =>
      obtain rfl := Option.some.inj h
      by_cases hsid : sid = sid'
      · obtain rfl := hsid
        exact turned_of_self .rests (List.append_nil _).symm
      · exact turned_of_ne hsid rfl rfl rfl
    | master sid' =>
      obtain rfl := Option.some.inj h
      exact turned_of_other rfl rfl rfl rfl
    | world sid' =>
      obtain rfl := Option.some.inj h
      exact turned_of_other rfl rfl rfl rfl
    | registrant => cases h
  | masterFrame sid' payload it =>
    cases step_cases h with
    | loginCloses frames hl => cases hl
    | masterRefuses _ =>
      exact turned_of_other rfl rfl rfl (framesOf_send_of_ne (by nofun) _ rfl)
    | masterPicks _ _ => exact turned_of_other rfl rfl rfl rfl
  | masterIssue sid' random =>
    cases step_cases h with
    | loginCloses frames hl => cases hl
    | masterIssues _ hpending =>
      refine turned_of_other rfl rfl rfl ?_
      exact framesOf_send_of_ne (t := { s with backend := _ }) (by nofun) _ rfl
  | worldFrame sid' payload cid =>
    cases step_cases h with
    | loginCloses frames hl => cases hl
    | worldTakes _ _ => exact turned_of_other rfl rfl rfl rfl
    | worldIgnores => exact turned_of_other rfl rfl rfl rfl
    | worldDispatches _ =>
      exact turned_of_other rfl rfl rfl (framesOf_send_of_ne (by nofun) _ rfl)
  | tick _ | sweep _ | createAccount _ | heartbeat _ _ | get _ _ | exec _ _ | worldTaken _ _ =>
    cases step_cases h with
    | loginCloses frames hl => cases hl
    | _ => exact turned_of_other rfl rfl rfl rfl

end Netsrv.System
