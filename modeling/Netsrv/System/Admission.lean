/-
  Whom Login admits.

  `handle_hello` sends a challenge for any key whose `Take` finds something.  The store holds
  Master's tickets, but under other keys Login's own session tokens and the registry, which
  is refreshed for ever: whoever sends a registry key as a ticket is admitted without Master
  (`not_admitted_by_ticket`).  In a run in which no Login takes a session token or a registry
  entry, every challenge has a ticket of its own (`admitted_by_ticket`).
-/
import Netsrv.System.Provenance

namespace Netsrv.System

open Custody Custody.History LoginHandler

variable {env : Env} {s : Sys}

/-- What this party puts is no session token and no entry of the registry. -/
def Party.putsNoTokenNorRegistry : Party → Bool
  | .login _ | .registrant => false
  | .master _ | .world _ => true

/-- The Login sessions that sent a challenge, one pass for each. -/
def Sys.challenges (s : Sys) : List Pass := s.passes.filter fun p => p.party.isLogin

/-- Put number `n` is the ticket of this pass: Master put it and sent it in a redirect, and
    the session's own `Take` consumed it before it expired. -/
structure Sys.Ticketed (s : Sys) (p : Pass) (n : ℕ) : Prop where
  byMaster : ∃ sid info i, History.issue s.backend.history n = some (p.key, i) ∧
    i.origin = .master sid ∧ .sent (.master sid) (MasterHandler.redirect p.key info) ∈ s.log
  consumed : s.TakeBy p.party p.cid p.key ∧ .took p.cid n ∈ s.backend.history
  inTime : ∃ c t v i, s.backend.calls p.cid = some c ∧ c.answer = some (t, some (.value v)) ∧
    History.issue s.backend.history n = some (p.key, i) ∧ t < i.expiresAt

theorem Sys.ticketed_of_took (hgated : Gated s) (htraced : Traced env s)
    (htook : TookFrom Party.isLogin Party.putsNoTokenNorRegistry s) {p : Pass}
    (hp : p ∈ s.challenges) :
    ∃ n, s.Ticketed p n := by
  obtain ⟨hpass, hlogin⟩ := List.mem_filter.mp hp
  obtain ⟨htake, n, hn⟩ := hgated.took p hpass
  obtain ⟨c, hc, hparty, hreq⟩ := htake
  obtain ⟨c', t, i, hc', -, hans, hissue, hlt⟩ := hgated.sound.took _ _ hn
  obtain rfl : c = c' := Option.some.inj (hc.symm.trans hc')
  have hkind := htook p.cid n c _ i hn hc (hparty ▸ hlogin) hissue
  rw [hreq] at hissue
  obtain ⟨hreason, -⟩ := htraced.issues n p.key i hissue
  refine ⟨n, ⟨?_, ⟨⟨c, hc, hparty, hreq⟩, hn⟩, ⟨c, t, _, i, hc, hans, hissue, hlt⟩⟩⟩
  cases horigin : i.origin with
  | master sid =>
    rw [horigin] at hreason
    obtain ⟨info, hsent⟩ := hreason
    exact ⟨sid, info, i, hissue, horigin, hsent⟩
  | world _ => rw [horigin] at hreason; exact hreason.elim
  | login _ => rw [horigin] at hkind; cases hkind
  | registrant => rw [horigin] at hkind; cases hkind

/-- **Login admits only holders of a ticket.**  In every run in which no `Take` of a Login
    session is executed on a key under which a session token or an entry of the registry is
    visible, the challenges sent have tickets, all different. -/
theorem admitted_by_ticket (env : Env) {s : Sys}
    (hr : Machine.Reach (step env)
      (fun s l => admits Party.isLogin Party.putsNoTokenNorRegistry s l = true) {} s) :
    ∃ ns, List.Forall₂ s.Ticketed s.challenges ns ∧ ns.Nodup := by
  have hgated := gated_of_reachable hr.reachable
  have htraced := traced_of_reachable hr.reachable
  have hnodup : (s.challenges.map Pass.cid).Nodup :=
    hgated.nodup.sublist (List.filter_sublist.map _)
  exact hgated.sound.valid.exists_numbers (fun p n hR => hR.consumed.2) hnodup
    fun p hp => Sys.ticketed_of_took hgated htraced (tookFrom_of_reach hr) hp

/-- The client of `walkthrough` has its ticket. -/
theorem admitted_by_ticket_walkthrough :
    ∃ s, Machine.run (Machine.guarded (step plainEnv)
        (admits Party.isLogin Party.putsNoTokenNorRegistry)) {} walkthrough = some s ∧
      s.challenges.map Pass.cid = [1] ∧
      ∃ ns, List.Forall₂ s.Ticketed s.challenges ns ∧ ns.Nodup := by
  have hrun : ((Machine.run (Machine.guarded (step plainEnv)
      (admits Party.isLogin Party.putsNoTokenNorRegistry)) {} walkthrough).map fun s =>
        s.challenges.map Pass.cid) = some [1] := by decide +kernel
  obtain ⟨s, hs, hone⟩ := Option.map_eq_some_iff.mp hrun
  exact ⟨s, hs, hone, admitted_by_ticket plainEnv (Machine.Reach.of_run .init hs)⟩

/-- A client that has only read the address of a Login, and never talked to Master. -/
def registryKeyRun : List Label :=
  [.heartbeat 0 loginHost, .exec 0 [],
    .loginFrame 0 (LoginProto.encodeClientHello loginHost.key [0x75]) 1 firstDraw,
    .exec 1 [hostCell], .loginTaken 0 false false firstDraw 0]

/-- It is sent a challenge. -/
theorem not_admitted_by_ticket :
    ¬ ∀ (env : Env) (s : Sys), Machine.Reach (step env) (fun s l => drawsFresh s l = true) {} s →
      ∃ ns, List.Forall₂ s.Ticketed s.challenges ns ∧ ns.Nodup := by
  intro h
  have hrun : ((Machine.run (Machine.guarded (step plainEnv) drawsFresh) {}
      registryKeyRun).map fun s =>
        (s.challenges.map Pass.cid, s.log.all fun e => !e matches .sent (.master _) _)) =
          some ([1], true) := by decide +kernel
  obtain ⟨s, hs, heq⟩ := Option.map_eq_some_iff.mp hrun
  obtain ⟨hone, hsilent⟩ := Prod.mk.inj heq
  obtain ⟨ns, hall, -⟩ := h plainEnv s (Machine.Reach.of_run .init hs)
  generalize s.challenges = challenges at hone hall
  cases hall with
  | nil => cases hone
  | cons hticket _ =>
    -- Master has said nothing, and no redirect either
    obtain ⟨sid, info, i, -, -, hsent⟩ := hticket.byMaster
    cases List.all_eq_true.mp hsilent _ hsent

end Netsrv.System
