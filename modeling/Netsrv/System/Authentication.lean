/-
  Whom World takes for authenticated.

  `WorldHandler::on_message` takes the first message as a key and believes the value it gets
  to be a user name.  A ticket that Master gives to anybody is such a key, and so is a key of
  the registry: a client that has proved nothing becomes authenticated, as a user with an
  empty name (`not_authenticated_by_proof`).  In a run in which no World takes a ticket or a
  registry entry, the name is that of a user whose password Login had proved
  (`authenticated_by_proof`).
-/
import Netsrv.System.Provenance

namespace Netsrv.System

open Custody Custody.History LoginHandler Srp6

variable {env : Env} {s : Sys}

/-- What this party puts is no ticket and no entry of the registry. -/
def Party.putsNoTicketNorRegistry : Party → Bool
  | .master _ | .registrant => false
  | .login _ | .world _ => true

/-- A Login session accepted a proof on a challenge built for this user, and put the token. -/
structure Sys.ProvedFor (env : Env) (s : Sys) (username token : Bytes) (i : Issue) : Prop where
  named : i.value = username
  proof : ∃ sid ch a m1 result, i.origin = .login sid ∧
    .verified sid username ch a m1 token ∈ s.log ∧
    serverVerify env.H kGroup ch a m1 = some result ∧ result.ok = true ∧
    (∃ cid ticket, .challenged sid cid ticket username ch ∈ s.log) ∧ s.BuiltFor env username ch

theorem Traced.provedFor (hs : Traced env s) {n sid : ℕ} {token : Bytes} {i : Issue}
    (hi : issue s.backend.history n = some (token, i)) (horigin : i.origin = .login sid) :
    s.ProvedFor env i.value token i := by
  obtain ⟨hreason, -⟩ := hs.issues n token i hi
  rw [horigin] at hreason
  obtain ⟨ch, a, m1, hlog⟩ := hreason
  obtain ⟨⟨result, hverify, hok⟩, cid, ticket, hch⟩ := hs.verified _ _ _ _ _ _ hlog
  exact ⟨rfl, sid, ch, a, m1, result, horigin, hlog, hverify, hok, ⟨cid, ticket, hch⟩,
    hs.challenged _ _ _ _ _ hch⟩

/-- The token that a World session presented, its own `Take` of it, and the proof behind it. -/
def Sys.AuthenticatedByProof (env : Env) (s : Sys) (sid : ℕ) : Prop :=
  ∃ token cid n i, s.TakeBy (.world sid) cid token ∧ .took cid n ∈ s.backend.history ∧
    History.issue s.backend.history n = some (token, i) ∧
    s.ProvedFor env (s.world sid).state.username token i

/-- **World authenticates those whom Login verified.**  In every run in which no `Take` of a
    World session is executed on a key under which a ticket or an entry of the registry is
    visible, an authenticated World session presented a token that a Login session put after
    it had accepted a proof for the same user name. -/
theorem authenticated_by_proof (env : Env) {s : Sys}
    (hr : Machine.Reach (step env)
      (fun s l => admits Party.isWorld Party.putsNoTicketNorRegistry s l = true) {} s)
    (sid : ℕ) (hauth : (s.world sid).state.authenticated = true) :
    s.AuthenticatedByProof env sid := by
  have hgated := gated_of_reachable hr.reachable
  have htraced := traced_of_reachable hr.reachable
  obtain ⟨cid, token, hlog⟩ := (opened_of_reachable hr.reachable).authenticated sid hauth
  obtain ⟨htake, -⟩ := hgated.took ⟨.world sid, cid, token⟩ (List.mem_filterMap.mpr ⟨_, hlog, rfl⟩)
  obtain ⟨n, i, hn, hi, hvalue⟩ := htraced.authenticated _ _ _ _ hlog
  obtain ⟨c, hc, hparty, hreq⟩ := htake
  have hkind := tookFrom_of_reach hr cid n c token i hn hc (by rw [hparty]; rfl) hi
  refine ⟨token, cid, n, i, ⟨c, hc, hparty, hreq⟩, hn, hi, ?_⟩
  rw [← hvalue]
  cases horigin : i.origin with
  | login lsid => exact htraced.provedFor hi horigin
  | world _ =>
    obtain ⟨hreason, -⟩ := htraced.issues n token i hi
    rw [horigin] at hreason
    exact hreason.elim
  | master _ => rw [horigin] at hkind; cases hkind
  | registrant => rw [horigin] at hkind; cases hkind

/-- The client of `walkthrough` has proved its password. -/
theorem authenticated_by_proof_walkthrough :
    ∃ s, Machine.run (Machine.guarded (step plainEnv)
        (admits Party.isWorld Party.putsNoTicketNorRegistry)) {} walkthrough = some s ∧
      s.AuthenticatedByProof plainEnv 0 := by
  have hrun : ((Machine.run (Machine.guarded (step plainEnv)
      (admits Party.isWorld Party.putsNoTicketNorRegistry)) {} walkthrough).map fun s =>
        (s.world 0).state.authenticated) = some true := by decide +kernel
  obtain ⟨s, hs, hauth⟩ := Option.map_eq_some_iff.mp hrun
  exact ⟨s, hs, authenticated_by_proof plainEnv (Machine.Reach.of_run .init hs) 0 hauth⟩

/-- A client that goes from Master straight to World. -/
def ticketRun : List Label :=
  [.heartbeat 0 loginHost, .exec 0 [], .masterFrame 0 [1] [hostCell], .masterIssue 0 firstDraw,
    .worldFrame 0 (generateTokenHex firstDraw) 1, .exec 1 [ticketCell, hostCell],
    .worldTaken 0 false]

/-- Its ticket makes it authenticated, and nobody was verified. -/
theorem not_authenticated_by_proof :
    ¬ ∀ (env : Env) (s : Sys), Machine.Reach (step env) (fun s l => drawsFresh s l = true) {} s →
      ∀ sid, (s.world sid).state.authenticated = true → s.AuthenticatedByProof env sid := by
  intro h
  have hrun : ((Machine.run (Machine.guarded (step plainEnv) drawsFresh) {} ticketRun).map fun s =>
      ((s.world 0).state.authenticated, s.log.all fun e => !e matches .verified ..)) =
        some (true, true) := by decide +kernel
  obtain ⟨s, hs, heq⟩ := Option.map_eq_some_iff.mp hrun
  obtain ⟨hauth, hnobody⟩ := Prod.mk.inj heq
  obtain ⟨token, cid, n, i, -, -, -, hproved⟩ :=
    h plainEnv s (Machine.Reach.of_run .init hs) 0 hauth
  obtain ⟨sid, ch, a, m1, result, -, hverified, -⟩ := hproved.proof
  cases List.all_eq_true.mp hnobody _ hverified

end Netsrv.System
