/-
  One accepted proof, one World session.

  A Login session accepts at most one proof, and puts at most one token for it
  (`PutOnce`).  A token is taken at most once (`Custody`), so the World sessions that are
  authenticated have accepted proofs of their own, and these challenges and tickets of their
  own: the chain from Master to World splits nowhere (`worlds_agree_with_logins`).
-/
import Netsrv.System.Admission
import Netsrv.System.Authentication
import Netsrv.System.Lifetimes
import Netsrv.System.LoginTurns

namespace Netsrv.System

open StoreWire Custody Custody.History LoginHandler Srp6 Backend

variable {env : Env} {s s' : Sys} {l : Label}

/-! ## A session that has accepted a proof -/

/-- The coroutine is past a proof, with the token or the Worlds to come. -/
def LoginPoint.proved : LoginPoint → Bool
  | .putting .. | .listing _ => true
  | .reading | .taking .. => false

/-- The session has accepted a proof. -/
def Spent (st : LoginHandler.SessionState) (pt : LoginPoint) : Prop :=
  pt.proved = true ∨ st.stage = .done

/-- Whoever reads stands at its reading. -/
theorem Turn.reading {accounts : Bytes → Option AccountRecord} {log : List Event} {sid : ℕ}
    {st st' : LoginHandler.SessionState} {pt pt' : LoginPoint} {payload : Bytes}
    {frames : List Bytes} (h : Turn env accounts log sid st pt (some payload) st' pt' frames) :
    pt = .reading := by
  cases h with
  | closes hpt _ => exact hpt
  | hello cid hpt _ => exact hpt
  | refuses hpt _ _ => exact hpt
  | accepts cid random hpt _ _ _ _ _ => exact hpt

/-- There is no way back. -/
theorem Turn.spent {accounts : Bytes → Option AccountRecord} {log : List Event} {sid : ℕ}
    {st st' : LoginHandler.SessionState} {pt pt' : LoginPoint} {payload : Option Bytes}
    {frames : List Bytes} (h : Turn env accounts log sid st pt payload st' pt' frames)
    (htaking : ∀ cid ticket username, pt = .taking cid ticket username →
      st.stage = .awaitingHello) (hs : Spent st pt) : Spent st' pt' := by
  have hdone (hpt : pt = .reading) : st.stage = .done := by
    rw [hpt] at hs
    exact hs.resolve_left Bool.false_ne_true
  have hnever {stage : Stage} (hne : stage ≠ .done) (hpt : pt = .reading)
      (hstage : st.stage = stage) : Spent st' pt' :=
    absurd (hstage.symm.trans (hdone hpt)) hne
  cases h with
  | rests => exact hs
  | closes hpt _ => exact Or.inr (hdone hpt)
  | hello cid hpt hmsg => exact hnever (by decide) hpt (onMessage_hello hmsg)
  | refuses hpt hmsg _ => exact Or.inr (hdone hpt)
  | accepts cid random hpt hmsg _ _ _ _ => exact Or.inl rfl
  | turnsAway hpt _ =>
    rw [hpt] at hs
    exact Or.inr (hs.resolve_left Bool.false_ne_true)
  | challenges hpt _ _ =>
    have hhello := htaking _ _ _ hpt
    rw [hpt] at hs
    rcases hs with hproved | hdone
    · cases hproved
    · rw [hhello] at hdone
      cases hdone
  | sendsProof cid _ => exact Or.inl rfl
  | sendsWorlds answer _ => exact Or.inr rfl

/-! ## What a Login session puts -/

/-- Call `cid` is a put of this Login session. -/
def Sys.PutOf (s : Sys) (sid cid : ℕ) : Prop :=
  ∃ c, s.backend.calls cid = some c ∧ c.party = .login sid ∧ c.request.op = .put

/-- A put after a step was called before, or is called for a proof that the session has just
    accepted, its first. -/
theorem putOf_of_step (h : step env s l = some s') {sid cid : ℕ} (hput : s'.PutOf sid cid) :
    s.PutOf sid cid ∨
      (∃ payload random, l = .loginFrame sid payload cid random) ∧
        s.backend.calls cid = none ∧ ¬ Spent (s.login sid).state (s.login sid).point ∧
        Spent (s'.login sid).state (s'.login sid).point := by
  obtain ⟨c, hc, hparty, hop⟩ := hput
  have hissue {cid' : ℕ} {party : Party} {request : Decoded}
      (hb : (s.backend.issue cid' party request).calls cid = some c) (hne : request.op ≠ .put) :
      s.PutOf sid cid := by
    rcases Slots.update_cases hb with ⟨-, rfl⟩ | ⟨-, hb⟩
    · exact absurd hop hne
    · exact ⟨c, hb, hparty, hop⟩
  obtain ⟨frames, hturn, -⟩ := turn_of_step h sid
  have hstep := step_cases h
  cases hstep with
  | heartbeat r hnew =>
    rcases Slots.update_cases hc with ⟨-, rfl⟩ | ⟨-, hb⟩
    · cases hparty
    · exact Or.inl ⟨c, hb, hparty, hop⟩
  | get key _ => exact Or.inl (hissue hc nofun)
  | exec hb =>
    obtain ⟨c', a, hc', -, -, -, -, rfl⟩ := exec_cases hb
    rcases Slots.update_cases hc with ⟨rfl, rfl⟩ | ⟨-, hc⟩
    · exact Or.inl ⟨c', hc', hparty, hop⟩
    · exact Or.inl ⟨c, hc, hparty, hop⟩
  | loginTakes _ _ => exact Or.inl (hissue hc nofun)
  | @loginAccepts sid' cid' payload a m1 random ch result hstage hch _ _ hnew =>
    rcases Slots.update_cases hc with ⟨rfl, rfl⟩ | ⟨-, hb⟩
    · obtain rfl := Party.login.inj hparty
      refine Or.inr ⟨⟨payload, random, rfl⟩, hnew, ?_, ?_⟩
      · have hreading : (s.login sid').point = .reading := by
          rw [Label.readBy, if_pos rfl] at hturn
          exact hturn.reading
        rintro (hproved | hdone)
        · rw [hreading] at hproved
          cases hproved
        · rw [hstage] at hdone
          cases hdone
      · rw [Sys.login_setLogin_self]
        exact Or.inl rfl
    · exact Or.inl ⟨c, hb, hparty, hop⟩
  | loginSendsProof _ _ => exact Or.inl (hissue hc nofun)
  | worldTakes _ _ => exact Or.inl (hissue hc nofun)
  | _ => exact Or.inl ⟨c, hc, hparty, hop⟩

/-- Put number `n` was this session's call `cid`, which the store executed at time `t`. -/
structure Sys.PutAs (s : Sys) (sid cid n t : ℕ) : Prop where
  call : s.PutOf sid cid
  answer : ∃ c a, s.backend.calls cid = some c ∧ c.answer = some (t, a)
  issue : ∃ key i, History.issue s.backend.history n = some (key, i) ∧
    i.origin = .login sid ∧ i.expiresAt = t + seconds sessionTtl

/-- A put of a Login session in the history after a step was there before it, or it is a call
    that the step executes, the next number in the history. -/
theorem Step.putAs (h : Step env s l s') (hdated : Dated s) {n sid : ℕ} {key : Bytes} {i : Issue}
    (hi : History.issue s'.backend.history n = some (key, i)) (horigin : i.origin = .login sid) :
    History.issue s.backend.history n = some (key, i) ∨
      ∃ cid c, s.PutOf sid cid ∧ s.backend.calls cid = some c ∧ c.answer = none ∧
        n = count s.backend.history ∧ s'.PutAs sid cid n s.backend.now := by
  have hi₀ := hi
  cases h with
  | @exec cid it b hb =>
    obtain ⟨c, a, hc, hnone, -, -, -, rfl⟩ := exec_cases hb
    dsimp only at hi
    unfold recorded at hi
    split at hi
    · next hop =>
      rw [History.issue] at hi
      split at hi
      · next hn =>
        obtain ⟨rfl, rfl⟩ := Prod.mk.inj (Option.some.inj hi)
        refine Or.inr ⟨cid, c, ⟨c, hc, horigin, hop⟩, hc, hnone, hn, ?_⟩
        have hupdate : Function.update s.backend.calls cid
            (some { c with answer := some (s.backend.now, a) }) cid =
              some { c with answer := some (s.backend.now, a) } := Function.update_self _ _ _
        have httl : c.request.ttlSeconds.toNat = sessionTtl := by
          have horigin : c.party = .login sid := horigin
          rw [(hdated.calls cid c hc hop).1.1, horigin]
          rfl
        exact ⟨⟨_, hupdate, horigin, hop⟩, ⟨_, a, hupdate, rfl⟩, _, _, hi₀, horigin, by rw [httl]⟩
      · exact Or.inl hi
    · split at hi
      · exact Or.inl hi
      · exact Or.inl hi
    · exact Or.inl hi
  | @masterIssues sid' info random _ =>
    have hi : History.issue (.put (generateTokenHex random) _ :: s.backend.history) n =
        some (key, i) := hi
    rw [History.issue] at hi
    split at hi
    · obtain ⟨rfl, rfl⟩ := Prod.mk.inj (Option.some.inj hi)
      cases horigin
    · exact Or.inl hi
  | _ => exact Or.inl hi

/-! ## The invariant -/

/-- A Login session puts once, after which it accepts no proof, and the call is executed once. -/
structure PutOnce (s : Sys) : Prop where
  spent : ∀ sid cid, s.PutOf sid cid → Spent (s.login sid).state (s.login sid).point
  one : ∀ sid cid cid', s.PutOf sid cid → s.PutOf sid cid' → cid = cid'
  issued : ∀ sid n key i, History.issue s.backend.history n = some (key, i) →
    i.origin = .login sid → ∃ cid t, s.PutAs sid cid n t
  once : ∀ sid n n' key key' i i', History.issue s.backend.history n = some (key, i) →
    History.issue s.backend.history n' = some (key', i') → i.origin = .login sid →
    i'.origin = .login sid → n = n'

theorem putOnce_init : PutOnce {} where
  spent := fun _ _ ⟨_, hc, _⟩ => by cases hc
  one := fun _ _ _ ⟨_, hc, _⟩ => by cases hc
  issued := nofun
  once := nofun

theorem Sys.PutOf.grows {sid cid : ℕ} (h : s.PutOf sid cid) (hg : s.backend.Grows s'.backend) :
    s'.PutOf sid cid := by
  obtain ⟨c, hc, hparty, hop⟩ := h
  obtain ⟨c', hc', hparty', hreq', -⟩ := hg.calls cid c hc
  exact ⟨c', hc', hparty'.trans hparty, by rw [hreq', hop]⟩

theorem Sys.PutAs.grows {sid cid n t : ℕ} (h : s.PutAs sid cid n t)
    (hg : s.backend.Grows s'.backend) : s'.PutAs sid cid n t := by
  obtain ⟨hcall, ⟨c, a, hc, hans⟩, key, i, hi, horigin, hexp⟩ := h
  obtain ⟨c', hc', -, -, hans'⟩ := hg.calls cid c hc
  exact ⟨hcall.grows hg, ⟨c', a, hc', hans' _ hans⟩, key, i, issue_of_suffix hg.history hi,
    horigin, hexp⟩

theorem PutOnce.step (hs : PutOnce s) (hpoised : Poised s) (hdated : Dated s)
    (h : step env s l = some s') : PutOnce s' := by
  have hstep := step_cases h
  have hgrows := hstep.grows
  refine ⟨fun sid cid hput => ?_, fun sid cid cid' hput hput' => ?_,
    fun sid n key i hi horigin => ?_, fun sid n n' key key' i i' hi hi' horigin horigin' => ?_⟩
  · rcases putOf_of_step h hput with hold | ⟨-, -, -, hspent⟩
    · obtain ⟨frames, hturn, -⟩ := turn_of_step h sid
      exact hturn.spent (fun cid' ticket username => hpoised.taking sid cid' ticket username)
        (hs.spent sid cid hold)
    · exact hspent
  · rcases putOf_of_step h hput with hold | ⟨⟨payload, random, rfl⟩, -, hunspent, -⟩
    · rcases putOf_of_step h hput' with hold' | ⟨-, -, hunspent, -⟩
      · exact hs.one sid cid cid' hold hold'
      · exact absurd (hs.spent sid cid hold) hunspent
    · rcases putOf_of_step h hput' with hold' | ⟨⟨payload', random', heq⟩, -, -, -⟩
      · exact absurd (hs.spent sid cid' hold') hunspent
      · obtain ⟨-, -, rfl, -⟩ := Label.loginFrame.inj heq
        rfl
  · rcases hstep.putAs hdated hi horigin with hold | ⟨cid, c, -, -, -, -, hnew⟩
    · obtain ⟨cid, t, hput⟩ := hs.issued sid n key i hold horigin
      exact ⟨cid, t, hput.grows hgrows⟩
    · exact ⟨cid, _, hnew⟩
  · -- an executed put is not executed again, and there is no other
    have hclash {m : ℕ} {k : Bytes} {j : Issue} {cid : ℕ} {c : Call}
        (hj : History.issue s.backend.history m = some (k, j)) (horigin : j.origin = .login sid)
        (hput : s.PutOf sid cid) (hc : s.backend.calls cid = some c) : c.answer ≠ none := by
      obtain ⟨cid₀, t, hcall, ⟨c₀, a, hc₀, hans⟩, -⟩ := hs.issued sid m k j hj horigin
      obtain rfl := hs.one sid cid cid₀ hput hcall
      obtain rfl : c = c₀ := Option.some.inj (hc.symm.trans hc₀)
      rw [hans]
      exact Option.some_ne_none _
    rcases hstep.putAs hdated hi horigin with hold | ⟨cid, c, hput, hc, hnone, hn, -⟩
    · rcases hstep.putAs hdated hi' horigin' with hold' | ⟨cid, c, hput, hc, hnone, -, -⟩
      · exact hs.once sid n n' key key' i i' hold hold' horigin horigin'
      · exact absurd hnone (hclash hold horigin hput hc)
    · rcases hstep.putAs hdated hi' horigin' with hold' | ⟨-, -, -, -, -, hn', -⟩
      · exact absurd hnone (hclash hold' horigin' hput hc)
      · exact hn.trans hn'.symm

theorem putOnce_of_reachable (hr : Machine.Reachable (step env) {} s) : PutOnce s := by
  refine (hr.invariant (I := fun s => (Gated s ∧ Poised s) ∧ Dated s ∧ PutOnce s)
    ⟨⟨gated_init, poised_init⟩, dated_init, putOnce_init⟩ ?_).2.2
  intro s l s' ⟨⟨hgated, hpoised⟩, hdated, hput⟩ _ hstep
  exact ⟨⟨hgated.step (step_cases hstep), hpoised.step hgated (step_cases hstep)⟩,
    hdated.step (step_cases hstep), hput.step hpoised hdated hstep⟩

/-! ## From World back to Master -/

/-- The World session is in on the token that this Login session put for a proof it accepted
    of the same user: it took the put, number `n`, before the token's lifetime was over. -/
structure Sys.EnteredBy (env : Env) (s : Sys) (wsid lsid n : ℕ) : Prop where
  took : ∃ cid token v t t', s.TakeBy (.world wsid) cid token ∧ .took cid n ∈ s.backend.history ∧
    (∃ c, s.backend.calls cid = some c ∧ c.answer = some (t', some (.value v))) ∧
    v = (s.world wsid).state.username ∧ (∃ pid, s.PutAs lsid pid n t) ∧
    t' < t + seconds sessionTtl
  proof : ∃ token i ch a m1, History.issue s.backend.history n = some (token, i) ∧
    .verified lsid (s.world wsid).state.username ch a m1 token ∈ s.log ∧
    ∃ result, serverVerify env.H kGroup ch a m1 = some result ∧ result.ok = true

/-- One call has one owner. -/
theorem Sys.TakeBy.party_eq {party party' : Party} {cid : ℕ} {key key' : Bytes}
    (h : s.TakeBy party cid key) (h' : s.TakeBy party' cid key') : party = party' := by
  obtain ⟨c, hc, hparty, -⟩ := h
  obtain ⟨c', hc', hparty', -⟩ := h'
  obtain rfl : c = c' := Option.some.inj (hc.symm.trans hc')
  exact hparty.symm.trans hparty'

theorem entered_of_authenticated
    (hr : Machine.Reach (step env)
      (fun s l => admits Party.isWorld Party.putsNoTicketNorRegistry s l = true) {} s)
    {wsid : ℕ} (hauth : (s.world wsid).state.authenticated = true) :
    ∃ lsid n, s.EnteredBy env wsid lsid n := by
  have hgated := gated_of_reachable hr.reachable
  have htraced := traced_of_reachable hr.reachable
  obtain ⟨cid, token, hlog⟩ := (opened_of_reachable hr.reachable).authenticated wsid hauth
  obtain ⟨htake, -⟩ :=
    hgated.took ⟨.world wsid, cid, token⟩ (List.mem_filterMap.mpr ⟨_, hlog, rfl⟩)
  obtain ⟨n, i, hn, hi, hvalue⟩ := htraced.authenticated _ _ _ _ hlog
  obtain ⟨c, hc, hparty, hreq⟩ := htake
  have hkind := tookFrom_of_reach hr cid n c token i hn hc (by rw [hparty]; rfl) hi
  obtain ⟨hreason, -⟩ := htraced.issues n token i hi
  cases horigin : i.origin with
  | world _ =>
    rw [horigin] at hreason
    exact hreason.elim
  | master _ => rw [horigin] at hkind; cases hkind
  | registrant => rw [horigin] at hkind; cases hkind
  | login lsid =>
    rw [horigin] at hreason
    obtain ⟨ch, a, m1, hverified⟩ := hreason
    obtain ⟨hok, -⟩ := htraced.verified _ _ _ _ _ _ hverified
    obtain ⟨pid, t, hput⟩ := (putOnce_of_reachable hr.reachable).issued lsid n token i hi horigin
    -- the put is the one that was answered to the take
    obtain ⟨key, j, hj, -, hexp⟩ := hput.issue
    obtain ⟨rfl, rfl⟩ := Prod.mk.inj (Option.some.inj (hi.symm.trans hj))
    obtain ⟨c', t', x, hc', -, hans, hx, hlt⟩ := hgated.sound.took cid n hn
    obtain ⟨-, rfl⟩ := Prod.mk.inj (Option.some.inj (hi.symm.trans hx))
    refine ⟨lsid, n, ⟨cid, token, i.value, t, t', ⟨c, hc, hparty, hreq⟩, hn, ⟨c', hc', hans⟩,
      hvalue, ⟨pid, hput⟩, hexp ▸ hlt⟩, token, i, ch, a, m1, hi, hvalue ▸ hverified, hok⟩

/-- A Login session lets one World session in. -/
theorem Sys.EnteredBy.inj (hput : PutOnce s) (hvalid : s.backend.history.Valid)
    {wsid wsid' lsid n n' : ℕ} (h : s.EnteredBy env wsid lsid n)
    (h' : s.EnteredBy env wsid' lsid n') : wsid = wsid' := by
  obtain ⟨cid, token, v, t, t₁, htake, hn, -, -, ⟨pid, hp⟩, -⟩ := h.took
  obtain ⟨cid', token', v', t', t₁', htake', hn', -, -, ⟨pid', hp'⟩, -⟩ := h'.took
  obtain ⟨key, i, hi, horigin, -⟩ := hp.issue
  obtain ⟨key', i', hi', horigin', -⟩ := hp'.issue
  obtain rfl := hput.once lsid n n' key key' i i' hi hi' horigin horigin'
  obtain rfl := hvalid.taker_unique hn hn'
  exact Party.world.inj (htake.party_eq htake')

/-- **The chain from Master to World splits nowhere.**  In every run in which no World takes a
    ticket or a registry entry, the authenticated World sessions have Login sessions of their
    own, each of which put the token after a proof of that user; and if no Login takes a
    token or a registry entry either, these have tickets of their own from Master. -/
theorem worlds_agree_with_logins (env : Env) {s : Sys}
    (hr : Machine.Reach (step env)
      (fun s l => admits Party.isWorld Party.putsNoTicketNorRegistry s l = true) {} s) :
    ∃ f n : ℕ → ℕ, Set.InjOn f {sid | (s.world sid).state.authenticated = true} ∧
      (∀ sid, (s.world sid).state.authenticated = true → s.EnteredBy env sid (f sid) (n sid)) ∧
      (Machine.Reach (step env)
          (fun s l => admits Party.isLogin Party.putsNoTokenNorRegistry s l = true) {} s →
        ∃ g : ℕ → ℕ, Set.InjOn g {sid | (s.world sid).state.authenticated = true} ∧
          ∀ sid, (s.world sid).state.authenticated = true →
            ∃ cid ticket, s.Ticketed ⟨.login (f sid), cid, ticket⟩ (g sid)) := by
  have hgated := gated_of_reachable hr.reachable
  have htraced := traced_of_reachable hr.reachable
  have hput := putOnce_of_reachable hr.reachable
  have hall (sid : ℕ) (hauth : (s.world sid).state.authenticated = true) :
      ∃ lsid n, s.EnteredBy env sid lsid n := entered_of_authenticated hr hauth
  choose! f n hf using hall
  have hinj : Set.InjOn f {sid | (s.world sid).state.authenticated = true} := by
    intro sid hsid sid' hsid' heq
    have h' := hf sid' hsid'
    rw [← heq] at h'
    exact (hf sid hsid).inj hput hgated.sound.valid h'
  refine ⟨f, n, hinj, hf, fun hlogin => ?_⟩
  have hticket (sid : ℕ) (hauth : (s.world sid).state.authenticated = true) :
      ∃ m cid ticket, s.Ticketed ⟨.login (f sid), cid, ticket⟩ m := by
    obtain ⟨token, i, ch, a, m1, -, hverified, -⟩ := (hf sid hauth).proof
    obtain ⟨-, cid, ticket, hch⟩ := htraced.verified _ _ _ _ _ _ hverified
    have hpass : (⟨.login (f sid), cid, ticket⟩ : Pass) ∈ s.challenges :=
      List.mem_filter.mpr ⟨List.mem_filterMap.mpr ⟨_, hch, rfl⟩, rfl⟩
    obtain ⟨m, hm⟩ := Sys.ticketed_of_took hgated htraced (tookFrom_of_reach hlogin) hpass
    exact ⟨m, cid, ticket, hm⟩
  choose! g hg using hticket
  refine ⟨g, fun sid hsid sid' hsid' heq => ?_, hg⟩
  obtain ⟨cid, ticket, ht⟩ := hg sid hsid
  obtain ⟨cid', ticket', ht'⟩ := hg sid' hsid'
  rw [← heq] at ht'
  obtain rfl : cid = cid' := hgated.sound.valid.taker_unique ht.consumed.2 ht'.consumed.2
  exact hinj hsid hsid' (Party.login.inj (ht.consumed.1.party_eq ht'.consumed.1))

/-- Neither Login nor World takes what is not meant for it. -/
def admitsBoth (s : Sys) (l : Label) : Bool :=
  admits Party.isWorld Party.putsNoTicketNorRegistry s l &&
    admits Party.isLogin Party.putsNoTokenNorRegistry s l

/-- The client of `walkthrough` has its Login session and its ticket. -/
theorem worlds_agree_with_logins_walkthrough :
    ∃ s, Machine.run (Machine.guarded (step plainEnv) admitsBoth) {} walkthrough = some s ∧
      (s.world 0).state.authenticated = true ∧
      ∃ lsid cid ticket n m, s.EnteredBy plainEnv 0 lsid n ∧
        s.Ticketed ⟨.login lsid, cid, ticket⟩ m := by
  have hrun : ((Machine.run (Machine.guarded (step plainEnv) admitsBoth) {} walkthrough).map
      fun s => (s.world 0).state.authenticated) = some true := by decide +kernel
  obtain ⟨s, hs, hauth⟩ := Option.map_eq_some_iff.mp hrun
  have hr := Machine.Reach.of_run .init hs
  obtain ⟨f, n, -, hentered, hticketed⟩ := worlds_agree_with_logins plainEnv
    (hr.mono fun s l hok => ((Bool.and_eq_true _ _).mp hok).1)
  obtain ⟨g, -, hg⟩ := hticketed (hr.mono fun s l hok => ((Bool.and_eq_true _ _).mp hok).2)
  obtain ⟨cid, ticket, ht⟩ := hg 0 hauth
  exact ⟨s, hs, hauth, f 0, cid, ticket, n 0, g 0, hentered 0 hauth, ht⟩

end Netsrv.System
