/-
  What clients do to the service registry.

  The registry shares the store with tickets and tokens.  What clients make the servers put
  there has drawn keys, which are hexadecimal and so never keys of the registry; but what
  they make them take has any key.  A client that sends the key of a Login as its token
  removes that Login (`registry_touched`).  In a run in which no registry key is taken while
  it is visible, the registry is a function of time, heartbeats and sweeps alone
  (`Step.registryView`), and so the same with and without clients
  (`registry_left_alone`).

  `service` is what a step does to the registry of its own accord; two runs with the same
  services have the same registry (`Machine.Trace.view_eq`).
-/
import Netsrv.System.Provenance

namespace Netsrv.System

open StoreWire RemoteStore LoginHandler Custody Registry Backend

variable {env : Env} {s s' t : Sys} {l : Label}

/-! ## Who causes a step -/

/-- A step caused by the frames or the leaving of a client: a handler that runs for one, or
    the execution of a call that a session made. -/
def byClient (s : Sys) : Label → Bool
  | .exec cid _ => (s.backend.calls cid).any fun c => decide (c.party ≠ .registrant)
  | .tick _ | .sweep _ | .createAccount _ | .heartbeat .. | .get .. => false
  | .masterFrame .. | .masterIssue .. | .loginFrame .. | .loginTaken .. | .loginPut ..
  | .loginListed .. | .worldFrame .. | .worldTaken .. | .disconnect _ => true

/-- The step does not take a registry key that is visible. -/
def sparesRegistry (s : Sys) : Label → Bool
  | .exec cid _ => (s.backend.calls cid).all fun c =>
      decide ¬(c.request.op = .take ∧ IsRegistry c.request.key ∧
        (s.backend.store.get s.backend.now c.request.key).isSome)
  | _ => true

/-- What happens to the registry of its own accord. -/
inductive Service where
  | tick (d : ℕ)
  | heartbeat (request : Decoded)
  | sweep

/-- The heartbeat that a call is. -/
def Call.heartbeat? (c : Call) : Option Decoded :=
  if c.party = .registrant ∧ c.request.op = .put then some c.request else none

def service (s : Sys) : Label → Option Service
  | .tick d => some (.tick d)
  | .sweep _ => some .sweep
  | .exec cid _ => ((s.backend.calls cid).bind Call.heartbeat?).map .heartbeat
  | _ => none

theorem service_of_byClient (h : byClient s l = true) : service s l = none := by
  cases l with
  | exec cid it =>
    obtain ⟨c, hc, hparty⟩ := (Option.any_eq_true _ _).mp h
    rw [service, hc, Option.bind_some, Call.heartbeat?,
      if_neg fun hbeat => of_decide_eq_true hparty hbeat.1]
    rfl
  | tick | sweep | createAccount | heartbeat | get => cases h
  | _ => rfl

/-! ## The registry alone -/

/-- The clock and the entries under the keys of the registry. -/
structure RegistryView where
  now : ℕ
  find : Bytes → Option SharedStore.Entry

def RegistryView.apply (v : RegistryView) : Service → RegistryView
  | .tick d => { v with now := v.now + d }
  | .heartbeat d => { v with
      find := Function.update v.find d.key (some ⟨d.value, v.now + seconds d.ttlSeconds.toNat⟩) }
  | .sweep => { v with
      find := fun key => (v.find key).bind fun e => if v.now < e.expiresAt then some e else none }

def Sys.registryView (s : Sys) : RegistryView where
  now := s.backend.now
  find := fun key => if IsRegistry key then s.backend.store.find key else none

theorem Sys.find_registryView {key : Bytes} (hkey : IsRegistry key) :
    s.registryView.find key = s.backend.store.find key := if_pos hkey

theorem Sys.registryView_congr (hnow : s'.backend.now = s.backend.now)
    (hfind : ∀ key, IsRegistry key → s'.backend.store.find key = s.backend.store.find key) :
    s'.registryView = s.registryView := by
  unfold registryView
  rw [hnow]
  congr 1
  funext key
  by_cases hkey : IsRegistry key
  · rw [if_pos hkey, if_pos hkey, hfind key hkey]
  · rw [if_neg hkey, if_neg hkey]

/-- No drawn token is a key of the registry: there is no `r` among the hexadecimal digits. -/
theorem IsDrawn.not_registry {key : Bytes} (h : IsDrawn key) : ¬ IsRegistry key := by
  obtain ⟨random, rfl⟩ := h
  intro hkey
  exact absurd (mem_toHex hkey.head) (by decide)

/-- The put of a token leaves the registry alone. -/
theorem IsDrawn.find_put {key k : Bytes} (h : IsDrawn key) (hk : IsRegistry k)
    (store : SharedStore) (now : ℕ) (value : Bytes) (ttl : ℕ) :
    (store.put now key value ttl).find k = store.find k := by
  rw [SharedStore.find_put, if_neg fun heq : k = key => h.not_registry (heq ▸ hk)]

/-- **The registry changes by its own services only.** -/
theorem Step.registryView (h : Step env s l s') (hsound : s.backend.Sound)
    (htraced : Traced env s) (hok : sparesRegistry s l = true) :
    s'.registryView = (service s l).elim s.registryView s.registryView.apply := by
  cases h with
  | tick d => rfl
  | @sweep it hit =>
    show _ = s.registryView.apply .sweep
    unfold Sys.registryView RegistryView.apply
    congr 1
    funext key
    dsimp only
    by_cases hkey : IsRegistry key
    · rw [if_pos hkey, if_pos hkey]
      exact SharedStore.find_sweepExpired hit _ key
    · rw [if_neg hkey, if_neg hkey]
      rfl
  | @exec cid it b hb =>
    obtain ⟨c, a, hc, -, -, -, -, rfl⟩ := exec_cases hb
    rw [service, hc, Option.bind_some]
    rw [sparesRegistry, hc, Option.all_some, decide_eq_true_eq] at hok
    rcases hsound.effect cid c it with ⟨hop, hput, -⟩ | ⟨hop, hlive, _, v, -, -, -, htake, -⟩ |
      ⟨hput, hstore, -⟩
    · have hcall := (htraced.calls cid c hc).put hop
      by_cases hparty : c.party = .registrant
      · have hkey : IsRegistry c.request.key := by
          have hreason := hcall.1
          rwa [hparty] at hreason
        rw [Call.heartbeat?, if_pos ⟨hparty, hop⟩]
        show _ = s.registryView.apply (.heartbeat c.request)
        unfold Sys.registryView RegistryView.apply
        congr 1
        funext key
        dsimp only
        rw [hput, SharedStore.find_put]
        by_cases heq : key = c.request.key
        · rw [heq, if_pos hkey, if_pos rfl, Function.update_self]
        · rw [Function.update_of_ne heq, if_neg heq]
      · rw [Call.heartbeat?, if_neg fun hbeat => hparty hbeat.1]
        refine Sys.registryView_congr rfl fun key hkey => ?_
        dsimp only
        rw [hput]
        exact (hcall.2.resolve_left hparty).find_put hkey _ _ _ _
    · rw [Call.heartbeat?, if_neg fun hbeat => by rw [hop] at hbeat; cases hbeat.2]
      refine Sys.registryView_congr rfl fun key hkey => ?_
      dsimp only
      rw [htake, SharedStore.find_take]
      exact if_neg fun ⟨heq, _⟩ => hok ⟨hop, heq ▸ hkey, hlive⟩
    · rw [Call.heartbeat?, if_neg fun hbeat => hput hbeat.2]
      refine Sys.registryView_congr rfl fun key _ => ?_
      dsimp only
      rw [hstore]
  | masterIssues random _ =>
    exact Sys.registryView_congr rfl fun key hkey => IsDrawn.find_put ⟨random, rfl⟩ hkey _ _ _ _
  | loginCloses frames hl =>
    cases l with
    | loginFrame | loginTaken => rfl
    | _ => cases hl
  | _ => rfl

/-! ## What is read in it -/

/-- What `pick_login` and `list_worlds` can give: it depends on the order of the walk. -/
def Sys.Reads (s : Sys) (picked : Option LoginInfo) (worlds : List WorldInfo) : Prop :=
  ∃ it, s.backend.store.Walk it ∧ pickLogin (fun _ => s.backend.now) it = picked ∧
    listWorlds (SharedStore.listPrefix (fun _ => s.backend.now) it kWorldPrefix) = worlds

/-- The cells of a walk that belong to the registry. -/
def registryCells (it : List SharedStore.Cell) : List SharedStore.Cell :=
  it.filter fun c => decide (IsRegistry c.1)

theorem listPrefix_registryCells {pre : Bytes} (hpre : ∀ key, pre <+: key → IsRegistry key)
    (clk : Bytes → ℕ) (it : List SharedStore.Cell) :
    SharedStore.listPrefix clk (registryCells it) pre = SharedStore.listPrefix clk it pre := by
  rw [SharedStore.listPrefix_eq, SharedStore.listPrefix_eq, registryCells, List.filterMap_filter]
  congr 1
  funext c
  by_cases hkey : IsRegistry c.1
  · rw [if_pos (decide_eq_true hkey)]
  · rw [if_neg (by simpa using hkey), if_neg fun hc => hkey (hpre c.1 ?_)]
    exact List.prefix_iff_eq_take.mpr hc.2.symm

/-- The same registry can be walked in the same order. -/
theorem Sys.exists_walk (hview : s.registryView = t.registryView) {it : List SharedStore.Cell}
    (hit : s.backend.store.Walk it) :
    ∃ it', t.backend.store.Walk it' ∧ registryCells it' = registryCells it := by
  let cells := t.backend.store.entries.entries
  have hwalk : t.backend.store.Walk cells := List.Perm.refl _
  have hnodup {u : Sys} {it : List SharedStore.Cell} (h : u.backend.store.Walk it) :
      (registryCells it).Nodup := (h.nodup.of_map _).filter _
  have hperm : (registryCells it).Perm (registryCells cells) := by
    rw [List.perm_ext_iff_of_nodup (hnodup hit) (hnodup hwalk)]
    rintro ⟨key, e⟩
    simp only [registryCells, List.mem_filter, decide_eq_true_eq, hit.mem_iff, hwalk.mem_iff]
    refine and_congr_left fun hkey => ?_
    rw [← Sys.find_registryView hkey, ← Sys.find_registryView hkey, hview]
  refine ⟨registryCells it ++ cells.filter fun c => !decide (IsRegistry c.1), ?_, ?_⟩
  · exact (hperm.append_right _).trans (List.filter_append_perm _ _)
  · simp [registryCells, List.filter_append, List.filter_filter]

theorem Sys.Reads.of_view (hview : s.registryView = t.registryView) {picked : Option LoginInfo}
    {worlds : List WorldInfo} (h : s.Reads picked worlds) : t.Reads picked worlds := by
  obtain ⟨it, hit, rfl, rfl⟩ := h
  obtain ⟨it', hit', hcells⟩ := Sys.exists_walk hview hit
  have hnow : t.backend.now = s.backend.now := congrArg RegistryView.now hview.symm
  have hsame {pre : Bytes} (hpre : ∀ key, pre <+: key → IsRegistry key) :
      SharedStore.listPrefix (fun _ => t.backend.now) it' pre =
        SharedStore.listPrefix (fun _ => s.backend.now) it pre := by
    rw [← listPrefix_registryCells hpre, hcells, listPrefix_registryCells hpre, hnow]
  refine ⟨it', hit', ?_, ?_⟩
  · rw [pickLogin, pickLogin, hsame fun key => Or.inl]
  · rw [hsame fun key => Or.inr]

/-! ## A run without clients -/

/-- The steps of a run without clients. -/
def quiet (s : Sys) (l : Label) : Prop := byClient s l = false ∧ sparesRegistry s l = true

/-- A heartbeat that was executed can be made and executed again, elsewhere. -/
theorem quiet_heartbeat {seen : List Service} {m : ℕ}
    (ht : Machine.Trace (step env) service quiet {} seen t)
    (hfree : ∀ cid, m ≤ cid → t.backend.calls cid = none) (r : Registrant)
    (hfit : requestLength (heartbeatRequest r) ≤ kReadBufferBytes) :
    ∃ t', Machine.Trace (step env) service quiet {}
        (.heartbeat (heartbeatRequest r) :: seen) t' ∧
      ∀ cid, m + 1 ≤ cid → t'.backend.calls cid = none := by
  let called : Sys :=
    { t with backend := t.backend.issue m .registrant (heartbeatRequest r) }
  let cells := t.backend.store.entries.entries
  have hissue : step env t (.heartbeat m r) = some called := by
    rw [step, Sys.issue, hfree m (Nat.le_refl _)]
    rfl
  have hcalled : called.backend.calls m =
      some { party := .registrant, request := heartbeatRequest r } := Function.update_self _ _ _
  have hexec : ∃ b, called.backend.exec m cells = some b := by
    rw [exec, hcalled]
    have hwalk : called.backend.store.Walk cells := List.Perm.refl _
    refine ⟨_, if_neg ?_⟩
    simp only [Option.isSome_none, Bool.false_eq_true, false_or, hwalk, not_true_eq_false,
      or_false, not_lt]
    exact hfit
  obtain ⟨b, hb⟩ := hexec
  have hquiet : quiet called (.exec m cells) := by
    rw [quiet, byClient, sparesRegistry, hcalled]
    exact ⟨rfl, by simp [heartbeatRequest, putRequest]⟩
  have hbeat : service called (.exec m cells) = some (.heartbeat (heartbeatRequest r)) := by
    rw [service, hcalled]
    rfl
  have htrace : Machine.Trace (step env) service quiet {} seen called :=
    ht.silent (.heartbeat m r) ⟨rfl, rfl⟩ hissue rfl
  refine ⟨{ called with backend := b }, htrace.seen (.exec m cells) hquiet ?_ hbeat,
    fun cid hcid => ?_⟩
  · rw [step, hb]
    rfl
  · obtain ⟨c, a, hc, -, -, -, -, rfl⟩ := exec_cases hb
    have hne : cid ≠ m := by omega
    show Function.update called.backend.calls m _ cid = none
    rw [Function.update_of_ne hne]
    exact (Function.update_of_ne hne _ _).trans (hfree cid (by omega))

/-- The clients can be taken out of a run. -/
theorem exists_quiet_run {seen : List Service}
    (hs : Machine.Trace (step env) service (fun s l => sparesRegistry s l = true) {} seen s) :
    ∃ t m, Machine.Trace (step env) service quiet {} seen t ∧
      ∀ cid, m ≤ cid → t.backend.calls cid = none := by
  induction hs with
  | init => exact ⟨{}, 0, .init, fun _ _ => rfl⟩
  | @step seen s s' l hs _ hstep ih =>
    obtain ⟨t, m, ht, hfree⟩ := ih
    cases l with
    | tick d => exact ⟨_, m, ht.seen (.tick d) ⟨rfl, rfl⟩ rfl rfl, hfree⟩
    | sweep it =>
      have hwalk : t.backend.store.Walk t.backend.store.entries.entries := List.Perm.refl _
      exact ⟨_, m, ht.seen (.sweep _) ⟨rfl, rfl⟩ (if_pos hwalk) rfl, hfree⟩
    | exec cid it =>
      obtain ⟨b, hb, rfl⟩ := Option.map_eq_some_iff.mp hstep
      obtain ⟨c, a, hc, -, hfit, -, -, rfl⟩ := exec_cases hb
      rw [service, hc, Option.bind_some, Call.heartbeat?]
      by_cases hbeat : c.party = .registrant ∧ c.request.op = .put
      · rw [if_pos hbeat]
        obtain ⟨r, hr⟩ :=
          ((traced_of_reachable hs.reach.reachable).calls cid c hc).heartbeat hbeat.1 hbeat.2
        rw [hr] at hfit ⊢
        obtain ⟨t', ht', hfree'⟩ := quiet_heartbeat ht hfree r hfit
        exact ⟨t', m + 1, ht', hfree'⟩
      · rw [if_neg hbeat]
        exact ⟨t, m, ht, hfree⟩
    | _ => exact ⟨t, m, ht, hfree⟩

/-! ## With and without clients -/

theorem registryView_of_trace {seen : List Service}
    (hs : Machine.Trace (step env) service (fun s l => sparesRegistry s l = true) {} seen s) :
    s.registryView = seen.foldr (fun e v => v.apply e) (Sys.registryView {}) :=
  hs.view_eq fun _ _ _ hr hok hstep =>
    (step_cases hstep).registryView (gated_of_reachable hr.reachable).sound
      (traced_of_reachable hr.reachable) hok

/-- A client of World whose token is the key of a Login. -/
def registryTakeRun : List Label :=
  [.heartbeat 0 loginHost, .exec 0 [], .worldFrame 0 loginHost.key 1]

end Netsrv.System
