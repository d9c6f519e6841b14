/-
  Where everything in the store comes from.

  Three kinds of keys share the store: Master's tickets, Login's session tokens and the
  registry.  `Traced` follows each put back to its reason: a redirect that Master sent, a
  proof that a Login session accepted, or a process that registers itself; and each accepted
  proof back to the challenge it answers.
-/
import Netsrv.System.Gates

namespace Netsrv.System

open StoreWire Custody Custody.History LoginHandler Registry Srp6 Backend

variable {env : Env} {s s' : Sys} {l : Label}

/-- A Login session accepted a proof of this user, and drew this token for it. -/
def Sys.Verified (s : Sys) (sid : ℕ) (username token : Bytes) : Prop :=
  ∃ ch a m1, .verified sid username ch a m1 token ∈ s.log

/-- The reason of a put. -/
def Sys.Reason (s : Sys) (origin : Party) (key value : Bytes) : Prop :=
  match origin with
  | .master sid => ∃ info, .sent (.master sid) (MasterHandler.redirect key info) ∈ s.log
  | .login sid => s.Verified sid value key
  | .registrant => IsRegistry key
  | .world _ => False

/-- A token that was drawn, and not chosen by a client. -/
def IsDrawn (key : Bytes) : Prop := ∃ random, key = generateTokenHex random

/-- A put has its reason, and its key is a drawn token unless a process registers itself. -/
def Sys.PutOk (s : Sys) (origin : Party) (key value : Bytes) : Prop :=
  s.Reason origin key value ∧ (origin = .registrant ∨ IsDrawn key)

/-- A challenge made for this user: on the record of the account, or on a made-up one if there
    was no account then. -/
def Sys.BuiltFor (env : Env) (s : Sys) (username : Bytes) (ch : ServerChallenge) : Prop :=
  ∃ account fakePassword reg b, (account = none ∨ account = s.accounts username) ∧
    registrationFor env account username fakePassword = some reg ∧
    serverBegin env.H kGroup reg.verifier b = some ch

/-- A call puts with a reason or does not put; what a process puts is its heartbeat. -/
structure Sys.CallOk (s : Sys) (c : Call) : Prop where
  put : c.request.op = .put → s.PutOk c.party c.request.key c.request.value
  heartbeat : c.party = .registrant → c.request.op = .put →
    ∃ r, c.request = heartbeatRequest r

/-- A call that does not put needs no reason. -/
theorem Sys.CallOk.of_ne_put {c : Call} (hop : c.request.op ≠ .put) : s.CallOk c :=
  ⟨fun h => absurd h hop, fun _ h => absurd h hop⟩

theorem Sys.Reason.mono (hlog : s.log ⊆ s'.log) {origin : Party} {key value : Bytes}
    (h : s.Reason origin key value) : s'.Reason origin key value := by
  cases origin with
  | master sid => exact h.imp fun _ he => hlog he
  | login sid =>
    obtain ⟨ch, a, m1, he⟩ := h
    exact ⟨ch, a, m1, hlog he⟩
  | registrant => exact h
  | world _ => exact h

theorem Sys.PutOk.mono (hlog : s.log ⊆ s'.log) {origin : Party} {key value : Bytes}
    (h : s.PutOk origin key value) : s'.PutOk origin key value := ⟨h.1.mono hlog, h.2⟩

/-! ## What a step adds -/

/-- A call after a step is a call from before it, or a new one that is all right. -/
theorem Step.call (h : Step env s l s') {cid : ℕ} {c : Call}
    (hc : s'.backend.calls cid = some c) :
    (∃ c₀, s.backend.calls cid = some c₀ ∧ c₀.party = c.party ∧ c₀.request = c.request) ∨
      s'.CallOk c := by
  have hold {c₀ : Call} (hc₀ : s.backend.calls cid = some c₀) (heq : c₀ = c) :
      ∃ c₀, s.backend.calls cid = some c₀ ∧ c₀.party = c.party ∧ c₀.request = c.request :=
    ⟨c₀, hc₀, by rw [heq], by rw [heq]⟩
  have hissue {b : Backend} {cid' : ℕ} {party : Party} {request : Decoded}
      (hb : (s.backend.issue cid' party request).calls cid = some c)
      (hok : cid = cid' → s'.CallOk { party, request }) :
      (∃ c₀, s.backend.calls cid = some c₀ ∧ c₀.party = c.party ∧ c₀.request = c.request) ∨
        s'.CallOk c := by
    rcases Slots.update_cases hb with ⟨hcid, rfl⟩ | ⟨-, hb⟩
    · exact Or.inr (hok hcid)
    · exact Or.inl (hold hb rfl)
  cases h with
  | heartbeat r _ =>
    exact hissue (b := s.backend) hc fun _ =>
      ⟨fun _ => ⟨r.isRegistry_key, Or.inl rfl⟩, fun _ _ => ⟨r, rfl⟩⟩
  | get key _ => exact hissue (b := s.backend) hc fun _ => .of_ne_put fun h => Op.noConfusion h
  | @exec cid' it b hb =>
    obtain ⟨c', a, hc', -, -, -, -, rfl⟩ := exec_cases hb
    rcases Slots.update_cases hc with ⟨rfl, rfl⟩ | ⟨-, hc⟩
    · exact Or.inl ⟨c', hc', rfl, rfl⟩
    · exact Or.inl (hold hc rfl)
  | loginTakes _ _ => exact hissue (b := s.backend) hc fun _ => .of_ne_put fun h => Op.noConfusion h
  | loginAccepts _ _ _ _ _ =>
    exact hissue (b := s.backend) hc fun _ =>
      ⟨fun _ => ⟨⟨_, _, _, List.mem_cons_self⟩, Or.inr ⟨_, rfl⟩⟩, fun h => Party.noConfusion h⟩
  | loginSendsProof _ _ =>
    exact hissue (b := s.backend) hc fun _ => .of_ne_put fun h => Op.noConfusion h
  | worldTakes _ _ => exact hissue (b := s.backend) hc fun _ => .of_ne_put fun h => Op.noConfusion h
  | _ => exact Or.inl (hold hc rfl)

/-- A put in the history after a step was there before it, or has its reason now. -/
theorem Step.issue (h : Step env s l s') (hcalls : ∀ cid c, s.backend.calls cid = some c →
    s.CallOk c) {n : ℕ} {key : Bytes} {i : Issue}
    (hi : History.issue s'.backend.history n = some (key, i)) :
    History.issue s.backend.history n = some (key, i) ∨ s'.PutOk i.origin key i.value := by
  cases h with
  | exec hb =>
    obtain ⟨c, a, hc, -, -, -, -, rfl⟩ := exec_cases hb
    dsimp only at hi
    unfold recorded at hi
    split at hi
    · next hop =>
      rw [History.issue] at hi
      split at hi
      · obtain ⟨rfl, rfl⟩ := Prod.mk.inj (Option.some.inj hi)
        exact Or.inr ((hcalls _ c hc).put hop)
      · exact Or.inl hi
    · split at hi
      · exact Or.inl hi
      · exact Or.inl hi
    · exact Or.inl hi
  | @masterIssues sid info random _ =>
    have hi : History.issue (.put (generateTokenHex random) _ :: s.backend.history) n =
        some (key, i) := hi
    rw [History.issue] at hi
    split at hi
    · obtain ⟨rfl, rfl⟩ := Prod.mk.inj (Option.some.inj hi)
      refine Or.inr ⟨⟨info, ?_⟩, Or.inr ⟨random, rfl⟩⟩
      exact (Sys.mem_log_send _ _ _ _).mpr (Or.inl ⟨_, List.mem_singleton_self _, rfl⟩)
    · exact Or.inl hi
  | _ => exact Or.inl hi

/-- An account stays as it was created. -/
theorem Step.account (h : Step env s l s') (username : Bytes) :
    s.accounts username = none ∨ s'.accounts username = s.accounts username := by
  cases h with
  | createAccount r hnew =>
    by_cases hname : username = r.username
    · exact Or.inl (Option.isNone_iff_eq_none.mp (by simpa [hname] using hnew))
    · exact Or.inr (Function.update_of_ne hname _ _)
  | _ => exact Or.inr rfl

theorem Sys.BuiltFor.step {username : Bytes} {ch : ServerChallenge}
    (hb : s.BuiltFor env username ch) (h : Step env s l s') : s'.BuiltFor env username ch := by
  obtain ⟨account, fakePassword, reg, b, haccount, hreg, hbegin⟩ := hb
  refine ⟨account, fakePassword, reg, b, ?_, hreg, hbegin⟩
  rcases haccount with hnone | hown
  · exact Or.inl hnone
  · exact (h.account username).imp (hown.trans ·) fun hsame => hown.trans hsame.symm

/-- What a Login session waits to have proved changes at its gate only. -/
theorem Step.login (h : Step env s l s') {sid : ℕ}
    (hstage : (s'.login sid).state.stage = .awaitingProof) :
    (s'.login sid).state = (s.login sid).state ∨
      ∃ cid ticket ch, (s'.login sid).state.challenge = some ch ∧
        .challenged sid cid ticket (s'.login sid).state.username ch ∈ s'.log := by
  have hset (sid' : ℕ) (x : LoginSession) (t : Sys) (ht : t.login = s.login)
      (hs' : s'.login = (t.setLogin sid' x).login)
      (hx : x.state = (s.login sid').state ∨ x.state.stage ≠ .awaitingProof) :
      (s'.login sid).state = (s.login sid).state := by
    rw [hs'] at hstage ⊢
    by_cases hsid : sid = sid'
    · rw [hsid, Sys.login_setLogin_self] at hstage ⊢
      exact hx.resolve_right fun hne => hne hstage
    · rw [Sys.login_setLogin_of_ne _ hsid, ht]
  cases h with
  | loginCloses frames _ => exact Or.inl (hset _ _ _ rfl rfl (Or.inl rfl))
  | loginTakes _ _ => exact Or.inl (hset _ _ _ rfl rfl (Or.inl rfl))
  | loginAccepts _ _ _ _ _ => exact Or.inl (hset _ _ _ rfl rfl (Or.inl rfl))
  | @loginChallenges sid' cid b lost lookupFails random ticket username response outcome reg
      ch _ _ _ _ _ =>
    by_cases hsid : sid = sid'
    · obtain rfl := hsid
      refine Or.inr ⟨cid, ticket, ch, ?_, ?_⟩
      · rw [Sys.challenge, Sys.login_setLogin_self]
      · rw [Sys.challenge, Sys.login_setLogin_self]
        exact List.mem_cons_self
    · exact Or.inl (by rw [Sys.challenge, Sys.login_setLogin_of_ne _ hsid]; rfl)
  | loginSendsProof _ _ => exact Or.inl (hset _ _ _ rfl rfl (Or.inl rfl))
  | loginSendsWorlds frame _ =>
    exact Or.inl (hset _ _ _ rfl rfl (Or.inr (by decide : Stage.done ≠ .awaitingProof)))
  | loginLeaves sid' => exact Or.inl (hset _ _ s rfl rfl (Or.inl rfl))
  | _ => exact Or.inl rfl

/-! ## The invariant -/

/-- Every call, every put, every accepted proof and every pass has its reason. -/
structure Traced (env : Env) (s : Sys) : Prop where
  calls : ∀ cid c, s.backend.calls cid = some c → s.CallOk c
  issues : ∀ n key i, History.issue s.backend.history n = some (key, i) →
    s.PutOk i.origin key i.value
  stage : ∀ sid, (s.login sid).state.stage = .awaitingProof → ∃ cid ticket ch,
    (s.login sid).state.challenge = some ch ∧
      .challenged sid cid ticket (s.login sid).state.username ch ∈ s.log
  challenged : ∀ sid cid ticket username ch, .challenged sid cid ticket username ch ∈ s.log →
    s.BuiltFor env username ch
  verified : ∀ sid username ch a m1 token, .verified sid username ch a m1 token ∈ s.log →
    (∃ result, serverVerify env.H kGroup ch a m1 = some result ∧ result.ok = true) ∧
      ∃ cid ticket, .challenged sid cid ticket username ch ∈ s.log
  authenticated : ∀ sid cid token username, .authenticated sid cid token username ∈ s.log →
    ∃ n i, .took cid n ∈ s.backend.history ∧
      History.issue s.backend.history n = some (token, i) ∧ i.value = username

theorem traced_init : Traced env {} where
  calls := nofun
  issues := nofun
  stage := nofun
  challenged := nofun
  verified := nofun
  authenticated := nofun

theorem Traced.step (hs : Traced env s) (hgated : Gated s) (h : Step env s l s') :
    Traced env s' where
  calls := fun cid c hc => by
    rcases h.call hc with ⟨c₀, hc₀, hparty, hreq⟩ | hok
    · have hok := hs.calls cid c₀ hc₀
      refine ⟨fun hop => ?_, fun hreg hop => ?_⟩
      · rw [← hparty, ← hreq]
        exact (hok.put (hreq ▸ hop)).mono h.log
      · rw [← hreq]
        exact hok.heartbeat (hparty.trans hreg) (hreq ▸ hop)
    · exact hok
  issues := fun n key i hi => by
    rcases h.issue hs.calls hi with hold | hok
    · exact (hs.issues n key i hold).mono h.log
    · exact hok
  stage := fun sid hstage => by
    rcases h.login hstage with hsame | ⟨cid, ticket, ch, hch, hlog⟩
    · rw [hsame] at hstage ⊢
      obtain ⟨cid, ticket, ch, hch, hlog⟩ := hs.stage sid hstage
      exact ⟨cid, ticket, ch, hch, h.log hlog⟩
    · exact ⟨cid, ticket, ch, hch, hlog⟩
  challenged := fun sid cid ticket username ch he => by
    rcases h.event he with hold | hnew
    · exact (hs.challenged sid cid ticket username ch hold).step h
    · cases hnew with
      | challenged _ hreg hbegin =>
        have hbuilt : s.BuiltFor env username ch := ⟨_, _, _, _, Or.inr rfl, hreg, hbegin⟩
        exact hbuilt.step h
  verified := fun sid username ch a m1 token he => by
    rcases h.event he with hold | hnew
    · obtain ⟨hok, cid, ticket, hlog⟩ := hs.verified sid username ch a m1 token hold
      exact ⟨hok, cid, ticket, h.log hlog⟩
    · cases hnew with
      | verified random hstage hch hverify hok =>
        obtain ⟨cid, ticket, ch', hch', hlog⟩ := hs.stage sid hstage
        obtain rfl : ch = ch' := Option.some.inj (hch.symm.trans hch')
        exact ⟨⟨_, hverify, hok⟩, cid, ticket, h.log hlog⟩
  authenticated := fun sid cid token username he => by
    rcases h.event he with hold | hnew
    · obtain ⟨n, i, hn, hi, hval⟩ := hs.authenticated sid cid token username hold
      exact ⟨n, i, h.grows.history.subset hn, issue_of_suffix h.grows.history hi, hval⟩
    · cases hnew with
      | authenticated hwait hout hvalue =>
        have hw : s.Waiting (.world sid) cid token := hwait
        obtain ⟨n, hn, t, i, hi, hval, -⟩ := hgated.took_of_awaited hw hout hvalue
        exact ⟨n, i, h.grows.history.subset hn, issue_of_suffix h.grows.history hi, hval⟩

theorem traced_of_reachable (hr : Machine.Reachable (step env) {} s) : Traced env s := by
  refine (hr.invariant (I := fun s => Gated s ∧ Traced env s) ⟨gated_init, traced_init⟩ ?_).2
  rintro s l s' ⟨hgated, htraced⟩ - hstep
  exact ⟨hgated.step (step_cases hstep), htraced.step hgated (step_cases hstep)⟩

/-- The tokens that a step draws are no keys of the store. -/
def drawsFresh (s : Sys) : Label → Bool
  | .masterIssue _ random | .loginFrame _ _ _ random =>
    (s.backend.store.find (generateTokenHex random)).isNone
  | _ => true

/-! ## Who takes whose puts -/

/-- Who put the entry that is visible under a key. -/
def Backend.originOf (b : Backend) (key : Bytes) : Option Party :=
  if (b.store.get b.now key).isSome then
    ((holds b.history key).bind (History.issue b.history)).map fun x => x.2.origin
  else none

def Party.isLogin : Party → Bool
  | .login _ => true
  | _ => false

def Party.isWorld : Party → Bool
  | .world _ => true
  | _ => false

/-- The step does not execute a call of one of `who` on a key whose visible entry was put by
    somebody else than `ok` allows. -/
def admits (who ok : Party → Bool) (s : Sys) : Label → Bool
  | .exec cid _ =>
    match s.backend.calls cid with
    | none => true
    | some c => !who c.party || (s.backend.originOf c.request.key).all ok
  | _ => true

/-- What one of `who` took was put by somebody `ok` allows. -/
def TookFrom (who ok : Party → Bool) (s : Sys) : Prop :=
  ∀ cid n c key i, .took cid n ∈ s.backend.history → s.backend.calls cid = some c →
    who c.party = true → History.issue s.backend.history n = some (key, i) → ok i.origin = true

/-- A take is an old one, or the call that is executed takes what its key stands for. -/
theorem Step.took (h : Step env s l s') (hs : s.backend.Sound) {cid n : ℕ}
    (ht : .took cid n ∈ s'.backend.history) : .took cid n ∈ s.backend.history ∨
      ∃ it c, l = .exec cid it ∧ s.backend.calls cid = some c ∧
        (s.backend.store.get s.backend.now c.request.key).isSome ∧
        holds s.backend.history c.request.key = some n := by
  cases h with
  | @exec cid' it b hb =>
    obtain ⟨c, a, hc, -, -, -, -, rfl⟩ := exec_cases hb
    have ht : .took cid n ∈ s.backend.recorded cid' c := ht
    rcases hs.effect cid' c it with ⟨-, -, hrec⟩ | ⟨-, hlive, m, i, hm, -, -, -, hrec⟩ |
      ⟨-, -, hrec, -⟩
    · rw [hrec] at ht
      exact Or.inl ((List.mem_cons.mp ht).resolve_left nofun)
    · rw [hrec] at ht
      rcases List.mem_cons.mp ht with heq | ht
      · obtain ⟨rfl, rfl⟩ := Event.took.inj heq
        exact Or.inr ⟨it, c, rfl, hc, hlive, hm⟩
      · exact Or.inl ht
    · rw [hrec] at ht
      exact Or.inl ht
  | masterIssues random _ => exact Or.inl ((List.mem_cons.mp ht).resolve_left nofun)
  | _ => exact Or.inl ht

theorem tookFrom_init (who ok : Party → Bool) : TookFrom who ok {} :=
  fun _ _ _ _ _ ht => absurd ht List.not_mem_nil

theorem TookFrom.step {who ok : Party → Bool} (hs : TookFrom who ok s) (hsound : s.backend.Sound)
    (h : Step env s l s') (hok : admits who ok s l = true) : TookFrom who ok s' := by
  intro cid n c key i ht hc hwho hi
  rcases h.took hsound ht with hold | ⟨it, c₀, rfl, hc₀, hlive, hholds⟩
  · obtain ⟨c₀, t, i₀, hc₀, -, -, hi₀, -⟩ := hsound.took cid n hold
    obtain ⟨c₁, hc₁, hparty, -⟩ := h.grows.calls cid c₀ hc₀
    obtain rfl : c = c₁ := Option.some.inj (hc.symm.trans hc₁)
    obtain ⟨-, rfl⟩ := Prod.mk.inj
      (Option.some.inj ((issue_of_suffix h.grows.history hi₀).symm.trans hi))
    exact hs cid n c₀ _ i₀ hold hc₀ (hparty ▸ hwho) hi₀
  · obtain ⟨c₁, hc₁, hparty, -⟩ := h.grows.calls cid c₀ hc₀
    obtain rfl : c = c₁ := Option.some.inj (hc.symm.trans hc₁)
    obtain ⟨i₀, hi₀⟩ := issue_of_holds hholds
    obtain ⟨-, rfl⟩ := Prod.mk.inj
      (Option.some.inj ((issue_of_suffix h.grows.history hi₀).symm.trans hi))
    rw [admits, hc₀] at hok
    simp only [← hparty, hwho, Backend.originOf, hlive, if_true, hholds, Option.bind_some, hi₀,
      Option.map_some, Option.all_some, Bool.not_true, Bool.false_or] at hok
    exact hok

theorem tookFrom_of_reach {who ok : Party → Bool}
    (hr : Machine.Reach (step env) (fun s l => admits who ok s l = true) {} s) :
    TookFrom who ok s := by
  refine (hr.invariant (I := fun s => Gated s ∧ TookFrom who ok s)
    ⟨gated_init, tookFrom_init who ok⟩ ?_).2
  rintro s l s' ⟨hgated, htook⟩ hok hstep
  exact ⟨hgated.step (step_cases hstep), htook.step hgated.sound (step_cases hstep) hok⟩

end Netsrv.System
