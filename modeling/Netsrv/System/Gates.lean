/-
  Every credential is single use across the whole system.

  A pass is a Login session that sent a challenge or a World session that became
  authenticated, with the call that let it through.  A call is made by one session and
  waited for once, so passes have different calls (`Gated.nodup`), each of which took
  (`Gated.took`); what is taken was put and is not taken twice (`Custody`).
-/
import Netsrv.System.Cluster
import Mathlib.Data.Finset.Card

namespace Netsrv.System

open StoreWire Custody Custody.History LoginHandler Backend

/-- A session past its gate: the call it made and the key it took. -/
structure Pass where
  party : Party
  cid : ℕ
  key : Bytes
  deriving DecidableEq

def Event.pass? : Event → Option Pass
  | .challenged sid cid ticket _ _ => some ⟨.login sid, cid, ticket⟩
  | .authenticated sid cid token _ => some ⟨.world sid, cid, token⟩
  | .sent .. | .verified .. | .dispatched .. => none

namespace Sys

def passes (s : Sys) : List Pass := s.log.filterMap Event.pass?

/-- A session stands at its gate, waiting for the call `cid` that takes `key`. -/
def Waiting (s : Sys) (party : Party) (cid : ℕ) (key : Bytes) : Prop :=
  match party with
  | .login sid => ∃ username, (s.login sid).point = .taking cid key username
  | .world sid => (s.world sid).waiting = some (cid, key)
  | .master _ | .registrant => False

/-- The call is this session's `Take` of the key. -/
def TakeBy (s : Sys) (party : Party) (cid : ℕ) (key : Bytes) : Prop :=
  ∃ c, s.backend.calls cid = some c ∧ c.party = party ∧ c.request = takeRequest key

@[simp] theorem passes_send (s : Sys) (party : Party) (frames : List Bytes) :
    (s.send party frames).passes = s.passes := filterMap_send s party fun _ _ => rfl

@[simp] theorem passes_setLogin (s : Sys) (sid : ℕ) (l : LoginSession) :
    (s.setLogin sid l).passes = s.passes := rfl

/-- A session that is set to something else than its gate does not wait there. -/
theorem Waiting.of_setLogin {s : Sys} {sid : ℕ} {l : LoginSession}
    (hl : ∀ cid ticket username, l.point ≠ .taking cid ticket username) {party : Party} {cid : ℕ}
    {key : Bytes} (hw : (s.setLogin sid l).Waiting party cid key) :
    s.Waiting party cid key ∧ party ≠ .login sid := by
  cases party with
  | login sid' =>
    obtain ⟨username, hpoint⟩ := hw
    by_cases hsid : sid' = sid
    · rw [hsid, login_setLogin_self] at hpoint
      exact absurd hpoint (hl cid key username)
    · rw [login_setLogin_of_ne s hsid] at hpoint
      exact ⟨⟨username, hpoint⟩, fun heq => hsid (Party.login.inj heq)⟩
  | world sid' => exact ⟨hw, nofun⟩
  | master _ => exact hw.elim
  | registrant => exact hw.elim

theorem Waiting.of_setWorld {s : Sys} {sid : ℕ} {w : WorldSession} (hnone : w.waiting = none)
    {party : Party} {cid : ℕ} {key : Bytes} (hw : (s.setWorld sid w).Waiting party cid key) :
    s.Waiting party cid key ∧ party ≠ .world sid := by
  cases party with
  | world sid' =>
    by_cases hsid : sid' = sid
    · rw [Waiting, hsid, world_setWorld_self, hnone] at hw
      cases hw
    · rw [Waiting, world_setWorld_of_ne s hsid] at hw
      exact ⟨hw, fun heq => hsid (Party.world.inj heq)⟩
  | login sid' => exact ⟨hw, nofun⟩
  | master _ => exact hw.elim
  | registrant => exact hw.elim

/-- Only the point of a Login session and the call of a World session matter. -/
theorem Waiting.congr {s s' : Sys} {party : Party} {cid : ℕ} {key : Bytes}
    (hw : s'.Waiting party cid key) (hlogin : ∀ sid, (s'.login sid).point = (s.login sid).point)
    (hworld : ∀ sid, (s'.world sid).waiting = (s.world sid).waiting) :
    s.Waiting party cid key := by
  cases party with
  | login sid => exact hw.imp fun _ h => (hlogin sid).symm.trans h
  | world sid => exact (hworld sid).symm.trans hw
  | master _ => exact hw.elim
  | registrant => exact hw.elim

end Sys

variable {env : Env} {s s' : Sys} {l : Label}

/-! ## What a step does to the store, to those who wait and to those who passed -/

theorem Step.sound (h : Step env s l s') (hs : s.backend.Sound) : s'.backend.Sound := by
  cases h with
  | tick d => exact hs.tick d
  | sweep hit => exact hs.sweep hit
  | heartbeat r hnew => exact hs.issue hnew _ _
  | get key hnew => exact hs.issue hnew _ _
  | exec hb => exact hs.exec hb
  | masterIssues random _ =>
    refine hs.put _ ?_ _
    rw [length_generateTokenHex]
    decide
  | loginTakes _ hnew => exact hs.issue hnew _ _
  | loginAccepts _ _ _ _ hnew => exact hs.issue hnew _ _
  | loginSendsProof _ hnew => exact hs.issue hnew _ _
  | worldTakes _ hnew => exact hs.issue hnew _ _
  | _ => exact hs

theorem Step.grows (h : Step env s l s') : s.backend.Grows s'.backend := by
  cases h with
  | tick d => exact grows_tick _ d
  | sweep hit => exact grows_sweep _ _
  | heartbeat r hnew => exact grows_issue _ hnew _ _
  | get key hnew => exact grows_issue _ hnew _ _
  | exec hb => exact grows_exec hb
  | masterIssues random _ => exact grows_put _ _ _ _ _
  | loginTakes _ hnew => exact grows_issue _ hnew _ _
  | loginAccepts _ _ _ _ hnew => exact grows_issue _ hnew _ _
  | loginSendsProof _ hnew => exact grows_issue _ hnew _ _
  | worldTakes _ hnew => exact grows_issue _ hnew _ _
  | _ => exact Grows.refl _

/-- Whoever waits after a step waited before it, or has just made the call. -/
theorem Step.waiting (h : Step env s l s') {party : Party} {cid : ℕ} {key : Bytes}
    (hw : s'.Waiting party cid key) :
    s.Waiting party cid key ∨ (s.backend.calls cid = none ∧ s'.TakeBy party cid key) := by
  cases h with
  | loginCloses frames _ => exact Or.inl (hw.of_setLogin fun _ _ _ h => by cases h).1
  | @loginTakes sid cid' payload ticket username random _ hnew =>
    cases party with
    | login sid' =>
      obtain ⟨u, hpoint⟩ := hw
      by_cases hsid : sid' = sid
      · rw [hsid, Sys.login_setLogin_self] at hpoint
        obtain ⟨rfl, rfl, rfl⟩ := LoginPoint.taking.inj hpoint
        exact Or.inr ⟨hnew, _, Function.update_self _ _ _, by rw [hsid], rfl⟩
      · rw [Sys.login_setLogin_of_ne _ hsid] at hpoint
        exact Or.inl ⟨u, hpoint⟩
    | world _ => exact Or.inl hw
    | master _ => exact hw.elim
    | registrant => exact hw.elim
  | loginAccepts _ _ _ _ _ => exact Or.inl (hw.of_setLogin fun _ _ _ h => by cases h).1
  | loginChallenges _ _ _ _ _ => exact Or.inl (hw.of_setLogin fun _ _ _ h => by cases h).1
  | loginSendsProof _ _ => exact Or.inl (hw.of_setLogin fun _ _ _ h => by cases h).1
  | loginSendsWorlds frame _ => exact Or.inl (hw.of_setLogin fun _ _ _ h => by cases h).1
  | @worldTakes sid cid' payload _ hnew =>
    cases party with
    | world sid' =>
      by_cases hsid : sid' = sid
      · rw [Sys.Waiting, hsid, Sys.world_setWorld_self] at hw
        obtain ⟨rfl, rfl⟩ := Prod.mk.inj (Option.some.inj hw)
        exact Or.inr ⟨hnew, _, Function.update_self _ _ _, by rw [hsid], rfl⟩
      · rw [Sys.Waiting, Sys.world_setWorld_of_ne _ hsid] at hw
        exact Or.inl hw
    | login _ => exact Or.inl hw
    | master _ => exact hw.elim
    | registrant => exact hw.elim
  | worldRefuses => exact Or.inl (hw.of_setWorld rfl).1
  | worldAuthenticates _ _ _ => exact Or.inl (hw.of_setWorld rfl).1
  | loginLeaves sid =>
    refine Or.inl (hw.congr (fun sid' => ?_) fun _ => rfl)
    by_cases hsid : sid' = sid
    · rw [hsid, Sys.login_setLogin_self]
    · rw [Sys.login_setLogin_of_ne _ hsid]
  | worldLeaves sid =>
    refine Or.inl (hw.congr (fun _ => rfl) fun sid' => ?_)
    by_cases hsid : sid' = sid
    · rw [hsid, Sys.world_setWorld_self]
    · rw [Sys.world_setWorld_of_ne _ hsid]
  | _ => exact Or.inl (hw.congr (fun _ => rfl) fun _ => rfl)

/-- A step lets nobody pass, or one session that waited and reads a value; it does not wait
    any more. -/
theorem Step.passes (h : Step env s l s') : s'.passes = s.passes ∨
    ∃ p lost outcome value, s'.passes = p :: s.passes ∧ s.Waiting p.party p.cid p.key ∧
      s.awaited p.cid lost = some outcome ∧
      StoreClient.getOrTakeResult outcome = some value ∧ s'.backend = s.backend ∧
      ∀ party cid key, s'.Waiting party cid key →
        s.Waiting party cid key ∧ party ≠ p.party := by
  cases h with
  | @loginChallenges sid cid b lost lookupFails random ticket username response outcome reg
      ch hpoint hout hfound hreg hbegin =>
    obtain ⟨value, hvalue⟩ := Option.isSome_iff_exists.mp hfound
    refine Or.inr ⟨⟨.login sid, cid, ticket⟩, lost, outcome, value, ?_, ⟨username, hpoint⟩, hout,
      hvalue, rfl, fun party cid' key hw => hw.of_setLogin fun _ _ _ h => by cases h⟩
    rw [Sys.challenge, Sys.passes_setLogin]
    exact congrArg (_ :: ·) (Sys.passes_send s _ _)
  | @worldAuthenticates sid cid lost token value outcome hwait hout hvalue =>
    exact Or.inr ⟨⟨.world sid, cid, token⟩, lost, outcome, value, rfl, hwait, hout, hvalue, rfl,
      fun party cid' key hw => hw.of_setWorld rfl⟩
  | masterRefuses _ => exact Or.inl (Sys.passes_send s _ _)
  | masterIssues random _ => exact Or.inl (Sys.passes_send _ _ _)
  | loginCloses frames _ => exact Or.inl (Sys.passes_send s _ _)
  | loginSendsProof _ _ => exact Or.inl (Sys.passes_send _ _ _)
  | loginSendsWorlds frame _ => exact Or.inl (Sys.passes_send s _ _)
  | worldDispatches _ => exact Or.inl (Sys.passes_send _ _ _)
  | _ => exact Or.inl rfl

/-! ## The invariant -/

structure Gated (s : Sys) : Prop where
  sound : s.backend.Sound
  /-- Who waits made the call, and nobody has passed with it. -/
  waits : ∀ party cid key, s.Waiting party cid key →
    s.TakeBy party cid key ∧ ∀ p ∈ s.passes, p.cid ≠ cid
  nodup : (s.passes.map Pass.cid).Nodup
  took : ∀ p ∈ s.passes, s.TakeBy p.party p.cid p.key ∧
    ∃ n, .took p.cid n ∈ s.backend.history

theorem Sys.TakeBy.grows {party : Party} {cid : ℕ} {key : Bytes} (h : s.TakeBy party cid key)
    (hg : s.backend.Grows s'.backend) : s'.TakeBy party cid key := by
  obtain ⟨c, hc, hparty, hreq⟩ := h
  obtain ⟨c', hc', hparty', hreq', -⟩ := hg.calls cid c hc
  exact ⟨c', hc', hparty'.trans hparty, hreq'.trans hreq⟩

/-- Whoever reads a value after a wait took it. -/
theorem Gated.took_of_awaited (hs : Gated s) {party : Party} {cid : ℕ} {key : Bytes}
    (hw : s.Waiting party cid key) {lost : Bool} {outcome : Option Decoded}
    (hout : s.awaited cid lost = some outcome) {value : Bytes}
    (hvalue : StoreClient.getOrTakeResult outcome = some value) :
    ∃ n, .took cid n ∈ s.backend.history ∧ ∃ t i,
      issue s.backend.history n = some (key, i) ∧ i.value = value ∧ t < i.expiresAt := by
  obtain ⟨⟨c, hc, -, hreq⟩, -⟩ := hs.waits party cid key hw
  have hanswer : StoreClient.getOrTakeResult (s.backend.answerOf cid) = some value := by
    unfold Sys.awaited at hout
    split at hout
    · obtain rfl := Option.some.inj hout
      cases hvalue
    · split at hout
      · rwa [Option.some.inj hout]
      · cases hout
  obtain ⟨n, hn, ⟨c', t, i, hc', -, hans, hissue, hlt⟩, t', hans'⟩ :=
    hs.sound.took_of_answer hc (by rw [hreq]; rfl) hanswer
  obtain rfl : c = c' := Option.some.inj (hc.symm.trans hc')
  rw [hreq] at hissue
  rw [hans] at hans'
  obtain ⟨-, hval⟩ := Prod.mk.inj (Option.some.inj hans')
  exact ⟨n, hn, t, i, hissue, StoreHandler.Answer.value.inj (Option.some.inj hval), hlt⟩

theorem gated_init : Gated {} where
  sound := sound_init
  waits := fun party cid key hw => by
    cases party with
    | login sid => obtain ⟨_, h⟩ := hw; cases h
    | world sid => cases hw
    | master _ => exact hw.elim
    | registrant => exact hw.elim
  nodup := List.nodup_nil
  took := fun p hp => by cases hp

theorem Gated.step (hs : Gated s) (h : Step env s l s') : Gated s' := by
  have hg := h.grows
  have htook : ∀ p ∈ s.passes, s'.TakeBy p.party p.cid p.key ∧
      ∃ n, .took p.cid n ∈ s'.backend.history := fun p hp =>
    ⟨(hs.took p hp).1.grows hg, (hs.took p hp).2.imp fun _ hn => hg.history.subset hn⟩
  have hfresh {cid : ℕ} (hnew : s.backend.calls cid = none) : ∀ p ∈ s.passes, p.cid ≠ cid := by
    rintro p hp rfl
    obtain ⟨⟨c, hc, -⟩, -⟩ := hs.took p hp
    rw [hnew] at hc
    cases hc
  rcases h.passes with hpasses | ⟨p, lost, outcome, value, hpasses, hw, hout, hvalue, hback, hrest⟩
  · refine ⟨h.sound hs.sound, fun party cid key hwait => ?_, hpasses ▸ hs.nodup,
      hpasses ▸ htook⟩
    rw [hpasses]
    rcases h.waiting hwait with hold | ⟨hnew, htake⟩
    · obtain ⟨htake, hne⟩ := hs.waits party cid key hold
      exact ⟨htake.grows hg, hne⟩
    · exact ⟨htake, hfresh hnew⟩
  · obtain ⟨htake, hne⟩ := hs.waits p.party p.cid p.key hw
    obtain ⟨n, hn, -⟩ := hs.took_of_awaited hw hout hvalue
    refine ⟨h.sound hs.sound, fun party cid key hwait => ?_, ?_, ?_⟩
    · obtain ⟨hold, hother⟩ := hrest party cid key hwait
      obtain ⟨htake', hne'⟩ := hs.waits party cid key hold
      refine ⟨htake'.grows hg, fun q hq => ?_⟩
      rw [hpasses] at hq
      rcases List.mem_cons.mp hq with rfl | hq
      · -- one call has one owner
        rintro rfl
        obtain ⟨c, hc, hparty, -⟩ := htake
        obtain ⟨c', hc', hparty', -⟩ := htake'
        obtain rfl : c = c' := Option.some.inj (hc.symm.trans hc')
        exact hother (hparty'.symm.trans hparty)
      · exact hne' q hq
    · rw [hpasses, List.map_cons, List.nodup_cons]
      refine ⟨fun hmem => ?_, hs.nodup⟩
      obtain ⟨q, hq, hcid⟩ := List.mem_map.mp hmem
      exact hne q hq hcid
    · rw [hpasses]
      intro q hq
      rcases List.mem_cons.mp hq with rfl | hq
      · exact ⟨htake.grows hg, n, hg.history.subset hn⟩
      · exact htook q hq

theorem gated_of_reachable (hr : Machine.Reachable (step env) {} s) : Gated s :=
  hr.invariant gated_init fun _ _ _ hs _ hstep => hs.step (step_cases hstep)

/-! ## World sessions dispatch after their gate -/

/-- What a World session knows changes at its gate only. -/
theorem Step.world (h : Step env s l s') (sid : ℕ) :
    (s'.world sid).state = (s.world sid).state ∨
      ∃ cid token value, .authenticated sid cid token value ∈ s'.log ∧
        (s'.world sid).state = { authenticated := true, username := value } := by
  have hsame (sid' : ℕ) (w : WorldSession) (t : Sys) (ht : t.world = s.world)
      (hw : w.state = (s.world sid').state) :
      ((t.setWorld sid' w).world sid).state = (s.world sid).state := by
    by_cases hsid : sid = sid'
    · rw [hsid, Sys.world_setWorld_self, hw]
    · rw [Sys.world_setWorld_of_ne _ hsid, ht]
  cases h with
  | worldTakes _ _ => exact Or.inl (hsame _ _ _ rfl rfl)
  | worldRefuses => exact Or.inl (hsame _ _ _ rfl rfl)
  | worldLeaves sid' => exact Or.inl (hsame _ _ _ rfl rfl)
  | @worldAuthenticates sid' cid lost token value outcome _ _ _ =>
    by_cases hsid : sid = sid'
    · obtain rfl := hsid
      refine Or.inr ⟨cid, token, value, List.mem_cons_self, ?_⟩
      rw [Sys.authenticate, Sys.world_setWorld_self]
    · exact Or.inl (by rw [Sys.authenticate, Sys.world_setWorld_of_ne _ hsid]; rfl)
  | _ => exact Or.inl rfl

/-- Whatever a World session does as an authenticated one follows its gate. -/
structure Opened (s : Sys) : Prop where
  authenticated : ∀ sid, (s.world sid).state.authenticated = true →
    ∃ cid token, .authenticated sid cid token (s.world sid).state.username ∈ s.log
  dispatched : ∀ sid opcode body, .dispatched sid opcode body ∈ s.log →
    ∃ cid token username, .authenticated sid cid token username ∈ s.log

theorem Opened.step (hs : Opened s) (h : Step env s l s') : Opened s' where
  authenticated := fun sid hauth => by
    rcases h.world sid with hsame | ⟨cid, token, value, hlog, hstate⟩
    · rw [hsame] at hauth ⊢
      obtain ⟨cid, token, hlog⟩ := hs.authenticated sid hauth
      exact ⟨cid, token, h.log hlog⟩
    · exact ⟨cid, token, by rw [hstate]; exact hlog⟩
  dispatched := fun sid opcode body hd => by
    rcases h.event hd with hold | hnew
    · obtain ⟨cid, token, username, hlog⟩ := hs.dispatched sid opcode body hold
      exact ⟨cid, token, username, h.log hlog⟩
    · cases hnew with
      | dispatched hauth =>
        obtain ⟨cid, token, hlog⟩ := hs.authenticated sid hauth
        exact ⟨cid, token, _, h.log hlog⟩

theorem opened_of_reachable (hr : Machine.Reachable (step env) {} s) : Opened s :=
  hr.invariant ⟨nofun, nofun⟩ fun _ _ _ hs _ hstep => hs.step (step_cases hstep)

/-! ## Single use -/

/-- The sessions that got past their gate on a key. -/
def Sys.pastGate (s : Sys) (key : Bytes) : Finset Party :=
  ((s.passes.filter fun p => p.key = key).map Pass.party).toFinset

theorem Sys.mem_pastGate {party : Party} {key : Bytes} :
    party ∈ s.pastGate key ↔ ∃ cid, ⟨party, cid, key⟩ ∈ s.passes := by
  simp only [pastGate, List.mem_toFinset, List.mem_map, List.mem_filter, decide_eq_true_eq]
  constructor
  · rintro ⟨⟨party, cid, key⟩, ⟨hp, rfl⟩, rfl⟩
    exact ⟨cid, hp⟩
  · rintro ⟨cid, hp⟩
    exact ⟨_, ⟨hp, rfl⟩, rfl⟩

theorem Gated.card_pastGate_le (hs : Gated s) (key : Bytes) :
    (s.pastGate key).card ≤ (puts s.backend.history key).length := by
  let cids := (s.passes.filter fun p => p.key = key).map Pass.cid
  have hnodup : cids.Nodup := hs.nodup.sublist (List.filter_sublist.map _)
  have htook : ∀ cid ∈ cids, ∃ n, .took cid n ∈ s.backend.history ∧
      ∃ i, issue s.backend.history n = some (key, i) := by
    intro cid hcid
    obtain ⟨p, hp, rfl⟩ := List.mem_map.mp hcid
    simp only [List.mem_filter, decide_eq_true_eq] at hp
    obtain ⟨⟨c, hc, -, hreq⟩, n, hn⟩ := hs.took p hp.1
    obtain ⟨c', t, i, hc', -, -, hissue, -⟩ := hs.sound.took _ _ hn
    obtain rfl : c = c' := Option.some.inj (hc.symm.trans hc')
    rw [hreq] at hissue
    rw [← hp.2]
    exact ⟨n, hn, i, hissue⟩
  calc (s.pastGate key).card ≤ ((s.passes.filter fun p => p.key = key).map Pass.party).length :=
        List.toFinset_card_le _
    _ = cids.length := by rw [List.length_map, List.length_map]
    _ ≤ (puts s.backend.history key).length := hs.sound.valid.length_le_puts hnodup htook

/-- **Every credential is single use.**  In every reachable state and for every key, no more
    sessions got past their gate on it than there were puts of it; an authenticated World
    session and a Login session that sent a challenge are past their gate; and a World
    session that dispatched anything had made a `Take` before that the store executed. -/
theorem credentials_single_use (env : Env) {s : Sys} (hr : Machine.Reachable (step env) {} s) :
    (∀ key, (s.pastGate key).card ≤ (puts s.backend.history key).length) ∧
    (∀ sid, (s.world sid).state.authenticated = true → ∃ key, .world sid ∈ s.pastGate key) ∧
    (∀ sid cid ticket username ch, .challenged sid cid ticket username ch ∈ s.log →
      .login sid ∈ s.pastGate ticket) ∧
    (∀ sid opcode body, .dispatched sid opcode body ∈ s.log →
      ∃ cid token n, s.TakeBy (.world sid) cid token ∧ .took cid n ∈ s.backend.history) := by
  have hgated := gated_of_reachable hr
  have hopened := opened_of_reachable hr
  have hpass {e : Event} {p : Pass} (he : e ∈ s.log) (hp : e.pass? = some p) : p ∈ s.passes :=
    List.mem_filterMap.mpr ⟨e, he, hp⟩
  refine ⟨hgated.card_pastGate_le, fun sid hauth => ?_, fun sid cid ticket username ch hlog => ?_,
    fun sid opcode body hd => ?_⟩
  · obtain ⟨cid, token, hlog⟩ := hopened.authenticated sid hauth
    exact ⟨token, Sys.mem_pastGate.mpr ⟨cid, hpass hlog rfl⟩⟩
  · exact Sys.mem_pastGate.mpr ⟨cid, hpass hlog rfl⟩
  · obtain ⟨cid, token, username, hlog⟩ := hopened.dispatched sid opcode body hd
    obtain ⟨htake, n, hn⟩ := hgated.took _ (hpass hlog rfl)
    exact ⟨cid, token, n, htake, hn⟩

/-! ## A client that gets all the way -/

def plainEnv : Env := { H := Srp6.unitHash, hmac := RemoteStore.zeroMac, enumKey := [] }

def loginHost : Registry.Registrant := .login [0x6c]

def hostCell : SharedStore.Cell :=
  ⟨loginHost.key, loginHost.value, seconds Registry.heartbeatTtl⟩

def firstDraw : Vector UInt8 16 := Vector.replicate 16 0

def secondDraw : Vector UInt8 16 := Vector.replicate 16 1

def ticketCell : SharedStore.Cell :=
  ⟨generateTokenHex firstDraw, MasterHandler.ticketValue, seconds MasterHandler.ticketTtl⟩

def tokenCell : SharedStore.Cell := ⟨generateTokenHex secondDraw, [0x75], seconds sessionTtl⟩

/-- From Master over Login to World, with one move there; the proof fits `plainEnv`. -/
def walkthrough : List Label :=
  [.heartbeat 0 loginHost, .exec 0 [], .masterFrame 0 [1] [hostCell], .masterIssue 0 firstDraw,
    .loginFrame 0 (LoginProto.encodeClientHello (generateTokenHex firstDraw) [0x75]) 1 secondDraw,
    .exec 1 [ticketCell, hostCell], .loginTaken 0 false false secondDraw 0,
    .loginFrame 0 (LoginProto.encodeClientProof [1] (Srp6.unitHash []).toList) 2 secondDraw,
    .exec 2 [hostCell], .loginPut 0 false 3, .worldFrame 0 (generateTokenHex secondDraw) 4,
    .exec 4 [tokenCell, hostCell], .worldTaken 0 false, .worldFrame 0 [2, 0, 7] 5]

theorem credentials_single_use_walkthrough :
    ∃ s, Machine.run (step plainEnv) {} walkthrough = some s ∧
      (∃ key, .world 0 ∈ s.pastGate key) ∧
      ∀ key, (s.pastGate key).card ≤ (puts s.backend.history key).length := by
  have hrun : ((Machine.run (step plainEnv) {} walkthrough).map fun s =>
      (s.world 0).state.authenticated) = some true := by decide +kernel
  obtain ⟨s, hs, hauth⟩ := Option.map_eq_some_iff.mp hrun
  obtain ⟨hcard, hworld, -⟩ := credentials_single_use plainEnv (Machine.Reachable.of_run .init hs)
  exact ⟨s, hs, hworld 0 hauth, hcard⟩

end Netsrv.System
