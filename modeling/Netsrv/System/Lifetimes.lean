/-
  How long what was put lives, and how much the store holds.

  A ticket is put for 30 seconds, a session token for 60, a registry entry for 15.  `Dated`
  keeps for every put when it was made, and what a process that registers itself has put.

  * `visible_iff`: a key shows the last put of it, if that is not expired and was not taken.
  * `store_bounded`: after a sweep the store holds no more entries than there were puts in the
    minute before it and since.
-/
import Netsrv.System.TokenPut

namespace Netsrv.System

open StoreWire RemoteStore Custody Custody.History LoginHandler Registry Backend

variable {env : Env} {s s' : Sys} {l : Label}

/-- The `ttl` of what a party puts, in seconds. -/
def Party.lifetime : Party → ℕ
  | .master _ => MasterHandler.ticketTtl
  | .login _ => sessionTtl
  | .registrant => heartbeatTtl
  | .world _ => 0

theorem Party.lifetime_le (party : Party) : party.lifetime ≤ 60 := by
  cases party with
  | master _ => exact (by decide : MasterHandler.ticketTtl ≤ 60)
  | login _ => exact Nat.le_refl _
  | registrant => exact (by decide : heartbeatTtl ≤ 60)
  | world _ => exact Nat.zero_le _

/-! ## What a step puts -/

/-- A put that a step makes: Master's, or that of a call. -/
inductive NewPut (s : Sys) : Bytes → Issue → Prop
  | ticket (sid : ℕ) (random : Vector UInt8 16) : NewPut s (generateTokenHex random)
      ⟨.master sid, MasterHandler.ticketValue, s.backend.now + seconds MasterHandler.ticketTtl⟩
  | executed {cid : ℕ} {c : Call} : s.backend.calls cid = some c → c.request.op = .put →
      requestLength c.request ≤ kReadBufferBytes → NewPut s c.request.key
        ⟨c.party, c.request.value, s.backend.now + seconds c.request.ttlSeconds.toNat⟩

theorem Step.newPut (h : Step env s l s') {n : ℕ} {key : Bytes} {i : Issue}
    (hi : History.issue s'.backend.history n = some (key, i)) :
    History.issue s.backend.history n = some (key, i) ∨ NewPut s key i := by
  cases h with
  | exec hb =>
    obtain ⟨c, a, hc, -, hfit, -, -, rfl⟩ := exec_cases hb
    dsimp only at hi
    unfold recorded at hi
    split at hi
    · next hop =>
      rw [History.issue] at hi
      split at hi
      · obtain ⟨rfl, rfl⟩ := Prod.mk.inj (Option.some.inj hi)
        exact Or.inr (.executed hc hop hfit)
      · exact Or.inl hi
    · split at hi
      · exact Or.inl hi
      · exact Or.inl hi
    · exact Or.inl hi
  | @masterIssues sid info random _ =>
    have hi : History.issue (.put (generateTokenHex random) _ :: s.backend.history) n =
        some (key, i) := hi
    rw [History.issue] at hi
    split at hi
    · obtain ⟨rfl, rfl⟩ := Prod.mk.inj (Option.some.inj hi)
      exact Or.inr (.ticket sid random)
    · exact Or.inl hi
  | _ => exact Or.inl hi

/-- A call that puts. -/
inductive PutCall : Call → Prop
  | heartbeat (r : Registrant) : PutCall { party := .registrant, request := heartbeatRequest r }
  | token (sid : ℕ) (token username : Bytes) :
      PutCall { party := .login sid, request := putRequest token username sessionTtl }

theorem PutCall.lifetime {c : Call} (h : PutCall c) :
    c.request.ttlSeconds.toNat = c.party.lifetime ∧ 0 < c.party.lifetime := by
  cases h with
  | heartbeat r => exact ⟨rfl, (by decide : 0 < heartbeatTtl)⟩
  | token sid token username => exact ⟨rfl, (by decide : 0 < sessionTtl)⟩

theorem Step.putCall (h : Step env s l s') {cid : ℕ} {c : Call}
    (hc : s'.backend.calls cid = some c) (hop : c.request.op = .put) :
    (∃ c₀, s.backend.calls cid = some c₀ ∧ c₀.party = c.party ∧ c₀.request = c.request) ∨
      PutCall c := by
  have hissue {cid' : ℕ} {party : Party} {request : Decoded}
      (hb : (s.backend.issue cid' party request).calls cid = some c)
      (hput : request.op = .put → PutCall { party, request }) :
      (∃ c₀, s.backend.calls cid = some c₀ ∧ c₀.party = c.party ∧ c₀.request = c.request) ∨
        PutCall c := by
    rcases Slots.update_cases hb with ⟨-, rfl⟩ | ⟨-, hb⟩
    · exact Or.inr (hput hop)
    · exact Or.inl ⟨c, hb, rfl, rfl⟩
  cases h with
  | heartbeat r _ => exact hissue hc fun _ => .heartbeat r
  | get key _ => exact hissue hc nofun
  | exec hb =>
    obtain ⟨c', a, hc', -, -, -, -, rfl⟩ := exec_cases hb
    rcases Slots.update_cases hc with ⟨rfl, rfl⟩ | ⟨-, hc⟩
    · exact Or.inl ⟨c', hc', rfl, rfl⟩
    · exact Or.inl ⟨c, hc, rfl, rfl⟩
  | loginTakes _ _ => exact hissue hc nofun
  | loginAccepts _ _ _ _ _ => exact hissue hc fun _ => .token _ _ _
  | loginSendsProof _ _ => exact hissue hc nofun
  | worldTakes _ _ => exact hissue hc nofun
  | _ => exact Or.inl ⟨c, hc, rfl, rfl⟩

/-! ## The invariant -/

/-- Every put was made for the lifetime of what its party puts; a process that registers itself
    put its heartbeat. -/
structure Dated (s : Sys) : Prop where
  calls : ∀ cid c, s.backend.calls cid = some c → c.request.op = .put →
    (c.request.ttlSeconds.toNat = c.party.lifetime ∧ 0 < c.party.lifetime) ∧
      (c.party = .registrant → ∃ r, c.request = heartbeatRequest r)
  issues : ∀ n key i, History.issue s.backend.history n = some (key, i) →
    ∃ t ≤ s.backend.now, i.expiresAt = t + seconds i.origin.lifetime
  heartbeats : ∀ n key i, History.issue s.backend.history n = some (key, i) →
    i.origin = .registrant → ∃ r : Registrant, r.key = key ∧ r.value = i.value ∧
      requestLength (heartbeatRequest r) ≤ kReadBufferBytes

theorem dated_init : Dated {} where
  calls := nofun
  issues := nofun
  heartbeats := nofun

theorem Dated.step (hs : Dated s) (h : Step env s l s') : Dated s' where
  calls := fun cid c hc hop => by
    rcases h.putCall hc hop with ⟨c₀, hc₀, hparty, hreq⟩ | hput
    · rw [← hparty, ← hreq]
      exact hs.calls cid c₀ hc₀ (hreq ▸ hop)
    · refine ⟨hput.lifetime, fun hreg => ?_⟩
      cases hput with
      | heartbeat r => exact ⟨r, rfl⟩
      | token sid token username => cases hreg
  issues := fun n key i hi => by
    rcases h.newPut hi with hold | hnew
    · obtain ⟨t, ht, hexp⟩ := hs.issues n key i hold
      exact ⟨t, Nat.le_trans ht h.grows.now, hexp⟩
    · refine ⟨s.backend.now, h.grows.now, ?_⟩
      cases hnew with
      | ticket sid random => rfl
      | @executed cid c hc hop _ =>
        dsimp only
        rw [(hs.calls cid c hc hop).1.1]
  heartbeats := fun n key i hi hreg => by
    rcases h.newPut hi with hold | hnew
    · exact hs.heartbeats n key i hold hreg
    · cases hnew with
      | ticket sid random => cases hreg
      | @executed cid c hc hop hfit =>
        obtain ⟨r, hr⟩ := (hs.calls cid c hc hop).2 hreg
        rw [hr] at hfit
        refine ⟨r, ?_, ?_, hfit⟩
        · rw [hr]
          rfl
        · dsimp only
          rw [hr]
          rfl

theorem dated_of_reachable (hr : Machine.Reachable (step env) {} s) : Dated s :=
  hr.invariant dated_init fun _ _ _ hs _ hstep => hs.step (step_cases hstep)

/-! ## What a key shows -/

/-- **The store is its history.**  In every reachable state a key shows a value exactly if
    that was its last put, the put was not taken, and its time is not over. -/
theorem visible_iff (env : Env) {s : Sys} (hr : Machine.Reachable (step env) {} s)
    (key value : Bytes) : s.backend.store.get s.backend.now key = some value ↔
      ∃ n i t, History.issue s.backend.history n = some (key, i) ∧ i.value = value ∧
        (∀ m ∈ puts s.backend.history key, m ≤ n) ∧ n ∉ taken s.backend.history ∧
        i.expiresAt = t + seconds i.origin.lifetime ∧ t ≤ s.backend.now ∧
        s.backend.now < t + seconds i.origin.lifetime := by
  obtain ⟨hgated, hpoised⟩ := poised_of_reachable hr
  have hdated := dated_of_reachable hr
  constructor
  · intro hget
    obtain ⟨n, i, hn, hi, hval, hlt⟩ := hgated.sound.agrees.visible hget
    obtain ⟨t, ht, hexp⟩ := hdated.issues n key i hi
    obtain ⟨hlast, hleft⟩ := hgated.sound.valid.last_of_holds hn
    exact ⟨n, i, t, hi, hval, hlast, hleft, hexp, ht, hexp ▸ hlt⟩
  · rintro ⟨n, i, t, hi, hval, hlast, hleft, hexp, -, hlt⟩
    rw [← hexp] at hlt
    have hget := hpoised.keeps.take_of_last hi hlast hleft hlt
    rw [SharedStore.take_eq, hval] at hget
    exact hget

/-- A Login that has registered itself is visible, by its heartbeat. -/
theorem visible_iff_heartbeat : ∃ s,
    Machine.run (step plainEnv) {} [.heartbeat 0 loginHost, .exec 0 []] = some s ∧
    ∃ n i t, History.issue s.backend.history n = some (loginHost.key, i) ∧
      i.value = loginHost.value ∧ (∀ m ∈ puts s.backend.history loginHost.key, m ≤ n) ∧
      n ∉ taken s.backend.history ∧ i.expiresAt = t + seconds i.origin.lifetime ∧
      t ≤ s.backend.now ∧ s.backend.now < t + seconds i.origin.lifetime := by
  have hrun : (Machine.run (step plainEnv) {} [.heartbeat 0 loginHost, .exec 0 []]).map
      (fun s => s.backend.store.get s.backend.now loginHost.key) =
        some (some loginHost.value) := by decide +kernel
  obtain ⟨s, hs, hget⟩ := Option.map_eq_some_iff.mp hrun
  exact ⟨s, hs, (visible_iff plainEnv (Machine.Reachable.of_run .init hs) _ _).mp hget⟩

/-! ## How much the store holds -/

/-- An entry after a step was there before it, or is a put of the step. -/
theorem Step.find (h : Step env s l s') (hs : s.backend.Sound) {key : Bytes}
    {e : SharedStore.Entry} (hfind : s'.backend.store.find key = some e) :
    s.backend.store.find key = some e ∨ ∃ i, NewPut s key i ∧ i.expiresAt = e.expiresAt := by
  have hput {k : Bytes} {i : Issue} {value : Bytes} {ttl : ℕ} (hnew : NewPut s k i)
      (hexp : i.expiresAt = s.backend.now + seconds ttl)
      (hfind : (s.backend.store.put s.backend.now k value ttl).find key = some e) :
      s.backend.store.find key = some e ∨ ∃ i, NewPut s key i ∧ i.expiresAt = e.expiresAt := by
    rw [SharedStore.find_put] at hfind
    by_cases hk : key = k
    · rw [if_pos hk] at hfind
      obtain rfl := Option.some.inj hfind
      exact Or.inr ⟨i, hk ▸ hnew, hexp⟩
    · rw [if_neg hk] at hfind
      exact Or.inl hfind
  cases h with
  | @sweep it hit =>
    refine Or.inl ?_
    have hfind : (s.backend.store.sweepExpired _ it).1.find key = some e := hfind
    rw [SharedStore.find_sweepExpired hit, Option.bind_eq_some_iff] at hfind
    obtain ⟨e', hold, hlive⟩ := hfind
    split at hlive
    · obtain rfl := Option.some.inj hlive
      exact hold
    · cases hlive
  | @exec cid it b hb =>
    obtain ⟨c, a, hc, -, hfit, -, -, rfl⟩ := exec_cases hb
    dsimp only at hfind
    rcases hs.effect cid c it with ⟨hop, hdispatch, -⟩ | ⟨-, -, _, x, -, -, -, htake, -⟩ |
      ⟨-, hstore, -⟩
    · rw [hdispatch] at hfind
      exact hput (.executed hc hop hfit) rfl hfind
    · rw [htake, SharedStore.find_take] at hfind
      split at hfind
      · cases hfind
      · exact Or.inl hfind
    · rw [hstore] at hfind
      exact Or.inl hfind
  | @masterIssues sid info random _ => exact hput (.ticket sid random) rfl hfind
  | _ => exact Or.inl hfind

/-- The puts that are not expired at `t`. -/
def putsAfter (h : History Bytes Issue ℕ) (t : ℕ) : List ℕ :=
  (List.range (count h)).filter fun n => (History.issue h n).any fun x => t < x.2.expiresAt

theorem mem_putsAfter {h : History Bytes Issue ℕ} {t n : ℕ} :
    n ∈ putsAfter h t ↔ ∃ key i, History.issue h n = some (key, i) ∧ t < i.expiresAt := by
  unfold putsAfter
  rw [List.mem_filter, List.mem_range, Option.any_eq_true]
  constructor
  · rintro ⟨-, ⟨key, i⟩, hi, hlt⟩
    exact ⟨key, i, hi, of_decide_eq_true hlt⟩
  · rintro ⟨key, i, hi, hlt⟩
    exact ⟨issue_lt hi, (key, i), hi, decide_eq_true hlt⟩

/-- No entry is expired at `t`, which is past. -/
def KeptSince (t : ℕ) (s : Sys) : Prop :=
  t ≤ s.backend.now ∧ ∀ key e, s.backend.store.find key = some e → t < e.expiresAt

theorem KeptSince.step {t : ℕ} (hs : KeptSince t s) (hsound : s.backend.Sound)
    (hdated : Dated s) (h : Step env s l s') : KeptSince t s' := by
  obtain ⟨hnow, hkept⟩ := hs
  refine ⟨Nat.le_trans hnow h.grows.now, fun key e hfind => ?_⟩
  rcases h.find hsound hfind with hold | ⟨i, hnew, hexp⟩
  · exact hkept key e hold
  · rw [← hexp]
    have hpos {n : ℕ} (hn : 0 < n) : s.backend.now < s.backend.now + seconds n :=
      Nat.lt_add_of_pos_right (Nat.mul_pos hn (by decide))
    cases hnew with
    | ticket sid random => exact Nat.lt_of_le_of_lt hnow (hpos (by decide))
    | @executed cid c hc hop _ =>
      obtain ⟨⟨httl, hlife⟩, -⟩ := hdated.calls cid c hc hop
      exact Nat.lt_of_le_of_lt hnow (hpos (httl ▸ hlife))

theorem keptSince_sweep {it : List SharedStore.Cell} (hit : s.backend.store.Walk it) :
    KeptSince s.backend.now { s with backend := s.backend.sweep it } := by
  refine ⟨Nat.le_refl _, fun key e hfind => ?_⟩
  have hfind : (s.backend.store.sweepExpired _ it).1.find key = some e := hfind
  rw [SharedStore.find_sweepExpired hit, Option.bind_eq_some_iff] at hfind
  obtain ⟨e', -, hlive⟩ := hfind
  split at hlive
  · next hlt =>
    obtain rfl := Option.some.inj hlive
    exact hlt
  · cases hlive

/-- There are no more entries than puts that can be behind them. -/
theorem size_le_putsAfter {store : SharedStore} {h : History Bytes Issue ℕ} {t : ℕ}
    (hag : Agrees store h) (hkept : ∀ key e, store.find key = some e → t < e.expiresAt) :
    store.size ≤ (putsAfter h t).length := by
  let number (key : Bytes) : ℕ := (holds h key).getD 0
  have hnumber : ∀ key ∈ store.entries.keys, ∃ i, History.issue h (number key) = some (key, i) ∧
      t < i.expiresAt := by
    intro key hkey
    obtain ⟨e, hfind⟩ := Option.isSome_iff_exists.mp (AList.lookup_isSome.mpr hkey)
    obtain ⟨n, origin, hn, hi⟩ := hag key e hfind
    have hnum : number key = n := by
      show (holds h key).getD 0 = n
      rw [hn, Option.getD_some]
    exact ⟨_, hnum ▸ hi, hkept key e hfind⟩
  -- different keys stand for different puts
  have hnodup : (store.entries.keys.map number).Nodup := by
    refine store.entries.keys_nodup.map_on fun key hkey key' hkey' heq => ?_
    obtain ⟨i, hi, -⟩ := hnumber key hkey
    obtain ⟨i', hi', -⟩ := hnumber key' hkey'
    rw [heq, hi'] at hi
    exact (Prod.mk.inj (Option.some.inj hi)).1.symm
  have hsub : store.entries.keys.map number ⊆ putsAfter h t := by
    intro n hn
    obtain ⟨key, hkey, rfl⟩ := List.mem_map.mp hn
    obtain ⟨i, hi, hlt⟩ := hnumber key hkey
    exact mem_putsAfter.mpr ⟨key, i, hi, hlt⟩
  calc store.size = (store.entries.keys.map number).length := by
        rw [List.length_map, AList.keys, List.keys, List.length_map]
        rfl
    _ ≤ (putsAfter h t).length := (List.subperm_of_subset hnodup hsub).length_le

/-- **The store forgets.**  After a sweep at `t`, and at any time later, every entry expires
    after `t`; there are no more entries than puts that do; and each of these puts was made
    less than 60 seconds before `t`, or later. -/
theorem store_bounded (env : Env) {s₀ s₁ s : Sys} {it : List SharedStore.Cell}
    (h₀ : Machine.Reachable (step env) {} s₀) (hsweep : step env s₀ (.sweep it) = some s₁)
    (hr : Machine.Reachable (step env) s₁ s) :
    (∀ key e, s.backend.store.find key = some e → s₀.backend.now < e.expiresAt) ∧
    s.backend.store.size ≤ (putsAfter s.backend.history s₀.backend.now).length ∧
    ∀ n ∈ putsAfter s.backend.history s₀.backend.now, ∃ key i t,
      History.issue s.backend.history n = some (key, i) ∧
        i.expiresAt = t + seconds i.origin.lifetime ∧ t ≤ s.backend.now ∧
        s₀.backend.now < t + seconds 60 := by
  have h₁ : Machine.Reachable (step env) {} s₁ := .step _ h₀ trivial hsweep
  have hkept₁ : KeptSince s₀.backend.now s₁ := by
    cases step_cases hsweep with
    | sweep hit => exact keptSince_sweep hit
    | loginCloses frames hl => cases hl
  have hall : Machine.Reachable (step env) {} s ∧ KeptSince s₀.backend.now s :=
    hr.invariant (I := fun s => Machine.Reachable (step env) {} s ∧ KeptSince s₀.backend.now s)
      ⟨h₁, hkept₁⟩ fun s l s' ⟨hreach, hkept⟩ _ hstep =>
        ⟨.step l hreach trivial hstep, hkept.step (gated_of_reachable hreach).sound
          (dated_of_reachable hreach) (step_cases hstep)⟩
  obtain ⟨hreach, -, hkept⟩ := hall
  have hsound := (gated_of_reachable hreach).sound
  refine ⟨hkept, size_le_putsAfter hsound.agrees hkept, fun n hn => ?_⟩
  obtain ⟨key, i, hi, hlt⟩ := mem_putsAfter.mp hn
  obtain ⟨t, ht, hexp⟩ := (dated_of_reachable hreach).issues n key i hi
  have hlife : seconds i.origin.lifetime ≤ seconds 60 :=
    Nat.mul_le_mul_right _ i.origin.lifetime_le
  exact ⟨key, i, t, hi, hexp, ht, by omega⟩

/-- A Login that died is swept out before it registers itself again. -/
theorem store_bounded_restart : ∃ s₀ s₁ s,
    Machine.run (step plainEnv) {}
      [.heartbeat 0 loginHost, .exec 0 [], .tick (seconds 20)] = some s₀ ∧
    step plainEnv s₀ (.sweep [hostCell]) = some s₁ ∧
    Machine.run (step plainEnv) s₁ [.heartbeat 1 loginHost, .exec 1 []] = some s ∧
    (putsAfter s.backend.history s₀.backend.now).length = 1 ∧
    s.backend.store.size ≤ (putsAfter s.backend.history s₀.backend.now).length := by
  have hrun : ((Machine.run (step plainEnv) {}
      [.heartbeat 0 loginHost, .exec 0 [], .tick (seconds 20)]).bind fun s₀ =>
        (step plainEnv s₀ (.sweep [hostCell])).bind fun s₁ =>
          (Machine.run (step plainEnv) s₁ [.heartbeat 1 loginHost, .exec 1 []]).map fun s =>
            (putsAfter s.backend.history s₀.backend.now).length) = some 1 := by decide +kernel
  obtain ⟨s₀, h₀, hrun⟩ := Option.bind_eq_some_iff.mp hrun
  obtain ⟨s₁, h₁, hrun⟩ := Option.bind_eq_some_iff.mp hrun
  obtain ⟨s, hs, hone⟩ := Option.map_eq_some_iff.mp hrun
  exact ⟨s₀, s₁, s, h₀, h₁, hs, hone, (store_bounded plainEnv
    (Machine.Reachable.of_run .init h₀) h₁ (Machine.Reachable.of_run .init hs)).2.1⟩

end Netsrv.System
