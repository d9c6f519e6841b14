/-
  Whether a process can get out of `Server::stop()`.

  The handler of the signal joins the workers in the thread that alone can complete the
  round trips to the store.  A session that is in one then, or starts one, waits for ever,
  and its worker with it (`stop_hangs`).  The other way to get stuck is a worker that has
  not spawned its coroutine when the stop is requested: it opens its socket after the
  closing, and listens for ever.  If neither happens, a thread can go on until the worker is
  done (`stop_runs_on`).
-/
import Netsrv.Lib.Machine
import Netsrv.Process.Workers

namespace Netsrv.Process

open EventLoop EventLoop.Loop

variable {role : ServerRole} {s s' : State}

/-! ## What a step changes -/

theorem State.update_eq_some {w : ℕ} {f : Worker → Option Worker} (h : s.update w f = some s') :
    ∃ wk wk', s.workers[w]? = some wk ∧ f wk = some wk' ∧
      s' = { s with workers := s.workers.set w wk' } := by
  obtain ⟨wk', hf, rfl⟩ := Option.map_eq_some_iff.mp h
  obtain ⟨wk, hwk, hf⟩ := Option.bind_eq_some_iff.mp hf
  exact ⟨wk, wk', hwk, hf, rfl⟩

/-- What a worker can do: register its callback, spawn, run, or be done. -/
inductive Worker.Does (role : ServerRole) (wk : Worker) : Label → Worker → Prop
  | arms (w : ℕ) : wk.phase = .created → Does role wk (.arm w) { wk with
      phase := .armed
      loop := if wk.stopRequested then wk.loop.closeLater else wk.loop }
  | launches (w : ℕ) : wk.phase = .armed → Does role wk (.launch w) { wk with
      phase := .running
      loop := { cos := [{ point := wk.protocol.listens, status := .fresh }]
                queue := wk.loop.queue ++ [.begin 0] } }
  | acts (w : ℕ) {a : Act Point} {loop : Loop Point} : wk.phase = .running →
      wk.loop.step (script role) a = some loop → Does role wk (.act w a) { wk with loop }
  | finishes (w : ℕ) : wk.phase = .running → wk.loop.queue = [] →
      (∀ c ∈ wk.loop.cos, c.status = .finished) →
      Does role wk (.finish w) { wk with phase := .finished }

/-- The stop that a step requests. -/
def requested (s : State) : Label → Option Protocol
  | .signal => if s.orchestrator = .running then s.workers.head?.map Worker.protocol else none
  | .join =>
    match s.orchestrator with
    | .stopping protocol w => (s.workers[w + 1]?).bind fun wk =>
        if wk.protocol = protocol then none else some wk.protocol
    | _ => none
  | _ => none

inductive Step (role : ServerRole) (s : State) : Label → State → Prop
  | worker {l : Label} {w : ℕ} {wk wk' : Worker} : s.workers[w]? = some wk → wk.Does role l wk' →
      (∀ v a, l = .act v a → a.answers = true → s.orchestrator = .running) →
      Step role s l { s with workers := s.workers.set w wk' }
  | stops {l : Label} {protocol : Protocol} {w : ℕ} {wk : Worker} :
      requested s l = some protocol → s.workers[w]? = some wk → wk.protocol = protocol →
      (l = .signal ∨ s.orchestrator ≠ .running) →
      (∀ p v, s.orchestrator = .stopping p v →
        ∀ wk, s.workers[v]? = some wk → wk.phase = .finished) →
      Step role s l (s.stop protocol w)
  | joins {protocol : Protocol} {w : ℕ} {wk next : Worker} :
      s.orchestrator = .stopping protocol w → s.workers[w]? = some wk → wk.phase = .finished →
      s.workers[w + 1]? = some next → next.protocol = protocol →
      Step role s .join { s with orchestrator := .stopping protocol (w + 1) }
  | isDone {l : Label} : s.workers = [] ∨ s.orchestrator ≠ .running →
      (∀ p v, s.orchestrator = .stopping p v →
        ∀ wk, s.workers[v]? = some wk → wk.phase = .finished) →
      Step role s l { s with orchestrator := .stopped }

theorem step_cases {l : Label} (h : step role s l = some s') : Step role s l s' := by
  cases l with
  | arm w =>
    obtain ⟨wk, wk', hwk, hf, rfl⟩ := State.update_eq_some h
    split at hf
    · next hphase =>
      obtain rfl := Option.some.inj hf
      exact .worker hwk (.arms w hphase) nofun
    · cases hf
  | launch w =>
    obtain ⟨wk, wk', hwk, hf, rfl⟩ := State.update_eq_some h
    split at hf
    · next hphase =>
      obtain rfl := Option.some.inj hf
      exact .worker hwk (.launches w hphase) nofun
    · cases hf
  | act w a =>
    rw [step] at h
    split at h
    · cases h
    · next hanswer =>
      obtain ⟨wk, wk', hwk, hf, rfl⟩ := State.update_eq_some h
      split at hf
      · next hphase =>
        obtain ⟨loop, hloop, rfl⟩ := Option.map_eq_some_iff.mp hf
        refine .worker hwk (.acts w hphase hloop) fun v a' heq ha' => ?_
        obtain ⟨rfl, rfl⟩ := Label.act.inj heq
        by_contra hne
        exact hanswer ⟨ha', hne⟩
      · cases hf
  | finish w =>
    obtain ⟨wk, wk', hwk, hf, rfl⟩ := State.update_eq_some h
    split at hf
    · next hdone =>
      obtain rfl := Option.some.inj hf
      refine .worker hwk (.finishes w hdone.1 hdone.2.1 fun c hc => ?_) nofun
      exact of_decide_eq_true (List.all_eq_true.mp hdone.2.2 c hc)
    · cases hf
  | signal =>
    rw [step] at h
    split at h
    · next wk rest horch hworkers =>
      obtain rfl := Option.some.inj h
      have hget : s.workers[0]? = some wk := by
        rw [hworkers]
        rfl
      refine .stops ?_ hget rfl (Or.inl rfl) ?_
      · rw [requested, if_pos horch, hworkers]
        rfl
      · intro p v hstopping
        rw [horch] at hstopping
        cases hstopping
    · next horch hempty =>
      obtain rfl := Option.some.inj h
      refine .isDone (Or.inl hempty) fun p v hstopping => ?_
      rw [horch] at hstopping
      cases hstopping
    · cases h
  | join =>
    rw [step] at h
    split at h
    · next protocol w horch =>
      split at h
      · next wk hwk =>
        split at h
        · next hphase =>
          have hfinished (p : Protocol) (v : ℕ) (hstopping : s.orchestrator = .stopping p v)
              (wk' : Worker) (hwk' : s.workers[v]? = some wk') : wk'.phase = .finished := by
            rw [horch] at hstopping
            obtain ⟨-, rfl⟩ := Orchestrator.stopping.inj hstopping
            obtain rfl := Option.some.inj (hwk.symm.trans hwk')
            exact hphase
          split at h
          · obtain rfl := Option.some.inj h
            exact .isDone (Or.inr fun hrun => by rw [horch] at hrun; cases hrun) hfinished
          · next next hnext =>
            split at h
            · next hsame =>
              obtain rfl := Option.some.inj h
              exact .joins horch hwk hphase hnext hsame
            · next hother =>
              obtain rfl := Option.some.inj h
              refine .stops ?_ hnext rfl (Or.inr ?_) hfinished
              · simp only [requested, horch, hnext, Option.bind_some, if_neg hother]
              · rw [horch]
                exact nofun
        · cases h
      · cases h
    · cases h

/-! ## Workers are well formed -/

structure Worker.Wf (role : ServerRole) (wk : Worker) : Prop where
  tidy : Tidy (script role) wk.loop
  empty : wk.launched = false →
    wk.loop.cos = [] ∧ wk.loop.queue.filterMap Item.index? = []

theorem not_launched {wk : Worker} (h : wk.phase = .created ∨ wk.phase = .armed) :
    wk.launched = false := by
  rcases h with h | h <;> rw [Worker.launched, h] <;> rfl

theorem launched_of_running {wk : Worker} (h : wk.phase = .running) : wk.launched = true := by
  rw [Worker.launched, h]
  rfl

theorem Worker.Wf.closeLater {wk : Worker} (h : wk.Wf role) (stop : Bool) :
    Wf role { wk with stopRequested := stop, loop := wk.loop.closeLater } where
  tidy := h.tidy.closeLater
  empty := fun hl => by
    obtain ⟨hcos, hqueue⟩ := h.empty hl
    refine ⟨hcos, ?_⟩
    rw [Loop.closeLater, List.filterMap_append, hqueue]
    rfl

theorem Worker.Wf.requestStop {wk : Worker} (h : wk.Wf role) : Wf role wk.requestStop := by
  unfold Worker.requestStop
  split
  · exact h.closeLater true
  · exact ⟨h.tidy, h.empty⟩

theorem Worker.Wf.step {wk wk' : Worker} {l : Label} (h : wk.Wf role) (hd : wk.Does role l wk') :
    wk'.Wf role := by
  cases hd with
  | arms w hphase =>
    obtain ⟨hcos, hqueue⟩ := h.empty (not_launched (Or.inl hphase))
    split
    · exact ⟨h.tidy.closeLater, fun _ => (h.closeLater true).empty (not_launched (Or.inl hphase))⟩
    · exact ⟨h.tidy, fun _ => ⟨hcos, hqueue⟩⟩
  | launches w hphase =>
    obtain ⟨-, hqueue⟩ := h.empty (not_launched (Or.inr hphase))
    refine ⟨tidy_launch hqueue ?_, nofun⟩
    cases wk.protocol <;> exact nofun
  | acts w hphase hloop =>
    refine ⟨h.tidy.step hloop, fun hl => ?_⟩
    have hnot : wk.launched = false := hl
    rw [launched_of_running hphase] at hnot
    cases hnot
  | finishes w _ _ _ => exact ⟨h.tidy, nofun⟩

theorem Worker.Does.protocol {wk wk' : Worker} {l : Label} (hd : wk.Does role l wk') :
    wk'.protocol = wk.protocol ∧ wk'.stopRequested = wk.stopRequested := by
  cases hd <;> exact ⟨rfl, rfl⟩

theorem wf_of_reachable {n m : ℕ} (hr : Machine.Reachable (step role) (initial n m) s) :
    ∀ wk ∈ s.workers, wk.Wf role := by
  refine hr.invariant (I := fun s => ∀ wk ∈ s.workers, wk.Wf role) ?_ ?_
  · intro wk hwk
    have hempty : wk.loop = {} := by
      rcases List.mem_append.mp hwk with h | h <;> rw [List.eq_of_mem_replicate h]
    refine ⟨?_, fun _ => by rw [hempty]; exact ⟨rfl, rfl⟩⟩
    rw [hempty]
    exact ⟨List.nodup_nil, nofun, nofun, nofun, nofun, nofun, nofun⟩
  · rintro s l s' hs - hstep wk hwk
    cases step_cases hstep with
    | worker hget hd _ =>
      rcases List.mem_or_eq_of_mem_set hwk with hwk | rfl
      · exact hs wk hwk
      · exact (hs _ (List.mem_of_getElem? hget)).step hd
    | stops _ _ _ _ _ =>
      obtain ⟨wk₀, hwk₀, rfl⟩ := List.mem_map.mp hwk
      split
      · exact (hs wk₀ hwk₀).requestStop
      · exact hs wk₀ hwk₀
    | joins _ _ _ _ _ => exact hs wk hwk
    | isDone _ _ => exact hs wk hwk

/-! ## A round trip during the stop -/

/-- A session of the worker waits for the store. -/
def Worker.Asks (wk : Worker) : Prop :=
  ∃ (i : ℕ) (c : Coroutine Point), wk.loop.cos[i]? = some c ∧ c.status = .waiting ∧
    c.point.kind = .foreign

theorem asks_of_asksStore {wk : Worker} (h : wk.asksStore = true) : wk.Asks := by
  obtain ⟨c, hmem, hc⟩ := List.any_eq_true.mp h
  obtain ⟨hkind, hw⟩ := of_decide_eq_true hc
  obtain ⟨i, hi⟩ := List.getElem?_of_mem hmem
  exact ⟨i, c, hi, hw, hkind⟩

/-- It waits on, and keeps the worker running, while no answer arrives. -/
theorem Worker.Asks.step {wk wk' : Worker} {l : Label} (h : wk.Asks) (hwf : wk.Wf role)
    (hphase : wk.phase = .running) (hd : wk.Does role l wk')
    (hanswer : ∀ w a, l = .act w a → a.answers ≠ true) : wk'.phase = .running ∧ wk'.Asks := by
  obtain ⟨i, c, hc, hw, hkind⟩ := h
  cases hd with
  | arms w hp =>
    rw [hphase] at hp
    cases hp
  | launches w hp =>
    rw [hphase] at hp
    cases hp
  | @acts w a loop _ hloop =>
    have ha : a ≠ .answer i := fun heq => hanswer w a rfl (by rw [heq]; rfl)
    obtain ⟨c', hc', hw', hkind'⟩ := foreign_waits hwf.tidy hc hw hkind hloop ha
    exact ⟨hphase, i, c', hc', hw', hkind'⟩
  | finishes w _ _ hdone =>
    have hf := hdone c (List.mem_of_getElem? hc)
    rw [hw] at hf
    cases hf

/-- **The stop hangs.**  If a session of the worker that is joined waits for the store, then
    whatever happens the worker is not done and the signal handler does not get on. -/
theorem stop_hangs {n m : ℕ} (hr : Machine.Reachable (step role) (initial n m) s)
    {protocol : Protocol} {w : ℕ} (hstop : s.orchestrator = .stopping protocol w) {wk : Worker}
    (hwk : s.workers[w]? = some wk) (hrunning : wk.phase = .running)
    (hasks : wk.asksStore = true) (hr' : Machine.Reachable (step role) s s') :
    s'.orchestrator = .stopping protocol w ∧
      ∃ wk', s'.workers[w]? = some wk' ∧ wk'.phase = .running := by
  have hstuck : s'.orchestrator = .stopping protocol w ∧ ∃ wk', s'.workers[w]? = some wk' ∧
      wk'.phase = .running ∧ wk'.Wf role ∧ wk'.Asks := by
    refine hr'.invariant (I := fun t => t.orchestrator = .stopping protocol w ∧ ∃ wk',
      t.workers[w]? = some wk' ∧ wk'.phase = .running ∧ wk'.Wf role ∧ wk'.Asks) ?_ ?_
    · exact ⟨hstop, wk, hwk, hrunning, wf_of_reachable hr wk (List.mem_of_getElem? hwk),
        asks_of_asksStore hasks⟩
    · rintro t l t' ⟨horch, wk', hget, hphase, hwf, hasks⟩ - hstep
      have hnot (hfinished : ∀ p v, t.orchestrator = .stopping p v → ∀ wk,
          t.workers[v]? = some wk → wk.phase = .finished) : False := by
        have hdone := hfinished protocol w horch wk' hget
        rw [hphase] at hdone
        cases hdone
      cases step_cases hstep with
      | @worker _ v wk₁ wk₂ hget₁ hd hanswer =>
        refine ⟨horch, ?_⟩
        by_cases hv : v = w
        · obtain rfl := hv
          obtain rfl : wk' = wk₁ := Option.some.inj (hget.symm.trans hget₁)
          have hlt := (List.getElem?_eq_some_iff.mp hget).1
          obtain ⟨hphase₂, hasks₂⟩ := hasks.step hwf hphase hd fun v a hl ha => by
            rw [hanswer v a hl ha] at horch
            cases horch
          exact ⟨wk₂, List.getElem?_set_self hlt, hphase₂, hwf.step hd, hasks₂⟩
        · exact ⟨wk', (List.getElem?_set_ne hv).trans hget, hphase, hwf, hasks⟩
      | stops _ _ _ _ hfinished => exact (hnot hfinished).elim
      | joins horch' hget' hdone _ _ =>
        obtain ⟨-, rfl⟩ := Orchestrator.stopping.inj (horch.symm.trans horch')
        obtain rfl := Option.some.inj (hget.symm.trans hget')
        rw [hphase] at hdone
        cases hdone
      | isDone _ hfinished => exact (hnot hfinished).elim
  obtain ⟨horch, wk', hget, hphase, -⟩ := hstuck
  exact ⟨horch, wk', hget, hphase⟩

/-! ## Stops that go well -/

/-- A stop is requested only of workers that have spawned their coroutine. -/
def ready (s : State) (l : Label) : Bool :=
  (requested s l).all fun protocol =>
    s.workers.all fun wk => decide (wk.protocol ≠ protocol) || wk.launched

/-- A signal comes when no session asks the store, and during a stop none turns to it. -/
def leavesStore (role : ServerRole) (s : State) : Label → Bool
  | .signal => s.workers.all fun wk => !wk.asksStore
  | .act _ a => decide (s.orchestrator = .running) || !startsForeign (script role) a
  | _ => true

/-- A step that does not bring a stop into trouble. -/
def safe (role : ServerRole) (s : State) (l : Label) : Bool := ready s l && leavesStore role s l

structure Worker.Safe (role : ServerRole) (stopping : Prop) (wk : Worker) : Prop where
  inStop : wk.stopRequested = true → stopping
  launched : wk.stopRequested = true → wk.launched = true
  stops : wk.stopRequested = true → wk.phase = .running → Stops (script role) wk.loop
  noForeign : stopping → NoForeign (script role) wk.loop

theorem Worker.Safe.step {stopping : Prop} {wk wk' : Worker} {l : Label}
    (h : wk.Safe role stopping) (hwf : wk.Wf role) (hd : wk.Does role l wk')
    (hl : ∀ w a, l = .act w a → stopping → startsForeign (script role) a = false) :
    wk'.Safe role stopping := by
  cases hd with
  | arms w hphase =>
    have hnot : wk.stopRequested = false := eq_false_of_ne_true fun hreq => by
      have hlaunched := h.launched hreq
      rw [not_launched (Or.inl hphase)] at hlaunched
      cases hlaunched
    refine ⟨h.inStop, fun hreq => ?_, fun _ hp => ?_, fun hst => ?_⟩
    · rw [hnot] at hreq
      cases hreq
    · cases hp
    · rw [hnot]
      exact h.noForeign hst
  | launches w hphase =>
    refine ⟨h.inStop, fun _ => rfl, fun hreq _ => ?_, fun _ i c hc _ => ?_⟩
    · have hlaunched := h.launched hreq
      rw [not_launched (Or.inr hphase)] at hlaunched
      cases hlaunched
    · dsimp only at hc
      rw [List.getElem?_singleton] at hc
      split at hc
      · obtain rfl := Option.some.inj hc
        exact nofun
      · cases hc
  | @acts w a loop hphase hloop =>
    refine ⟨h.inStop, fun _ => launched_of_running hphase, fun hreq _ => ?_, fun hst => ?_⟩
    · exact (h.stops hreq hphase).step hloop (hl w a rfl (h.inStop hreq))
    · exact (h.noForeign hst).step hwf.tidy hloop (hl w a rfl hst)
  | finishes w hphase _ _ =>
    exact ⟨h.inStop, fun _ => rfl, fun _ => nofun, h.noForeign⟩

theorem noForeign_of_not_asksStore {wk : Worker} (h : wk.asksStore = false) :
    NoForeign (script role) wk.loop := by
  intro i c hc hkind hw
  have hany : wk.asksStore = true :=
    List.any_eq_true.mpr ⟨c, List.mem_of_getElem? hc, decide_eq_true ⟨hkind, hw⟩⟩
  rw [h] at hany
  cases hany

/-- The stop is requested of a worker whose sessions leave the store alone. -/
theorem Worker.Safe.requestStop {stopping : Prop} (hst : stopping) {wk : Worker}
    (hwf : wk.Wf role) (hlaunched : wk.launched = true)
    (hforeign : NoForeign (script role) wk.loop) : Safe role stopping wk.requestStop := by
  refine ⟨fun _ => hst, fun _ => hlaunched, fun _ hphase => ?_, fun _ => ?_⟩
  · have hrunning : wk.phase = .armed ∨ wk.phase = .running := Or.inr hphase
    rw [Worker.requestStop, if_pos hrunning]
    exact stops_closeLater hwf.tidy
  · rw [Worker.requestStop]
    dsimp only
    split
    · exact hforeign
    · exact hforeign

structure Safe (role : ServerRole) (s : State) : Prop where
  workers : ∀ wk ∈ s.workers, wk.Safe role (s.orchestrator ≠ .running)
  requested : ∀ protocol w, s.orchestrator = .stopping protocol w →
    ∀ wk ∈ s.workers, wk.protocol = protocol → wk.stopRequested = true
  joined : ∀ protocol w, s.orchestrator = .stopping protocol w →
    ∀ wk, s.workers[w]? = some wk → wk.protocol = protocol

theorem Safe.step {l : Label} (hs : Safe role s) (hwf : ∀ wk ∈ s.workers, wk.Wf role)
    (hstep : Step role s l s') (hsafe : safe role s l = true) : Safe role s' := by
  rw [safe, Bool.and_eq_true] at hsafe
  obtain ⟨hready, hstore⟩ := hsafe
  cases hstep with
  | @worker _ w wk wk' hget hd _ =>
    have hmem := List.mem_of_getElem? hget
    obtain ⟨hprotocol, hreq⟩ := hd.protocol
    refine ⟨fun wk₁ hwk₁ => ?_, fun p v horch wk₁ hwk₁ hp => ?_, fun p v horch wk₁ hwk₁ => ?_⟩
    · rcases List.mem_or_eq_of_mem_set hwk₁ with hwk₁ | rfl
      · exact hs.workers wk₁ hwk₁
      · refine (hs.workers wk hmem).step (hwf wk hmem) hd fun v a hl hstopping => ?_
        subst hl
        rwa [leavesStore, decide_eq_false hstopping, Bool.false_or, Bool.not_eq_true'] at hstore
    · rcases List.mem_or_eq_of_mem_set hwk₁ with hwk₁ | rfl
      · exact hs.requested p v horch wk₁ hwk₁ hp
      · rw [hreq]
        exact hs.requested p v horch wk hmem (hprotocol ▸ hp)
    · rcases Slots.set_cases hwk₁ with ⟨rfl, rfl⟩ | ⟨-, hwk₁⟩
      · rw [hprotocol]
        exact hs.joined p v horch wk hget
      · exact hs.joined p v horch wk₁ hwk₁
  | @stops _ protocol w wk hrequested hget hprotocol hwhen _ =>
    rw [ready, hrequested, Option.all_some] at hready
    have hforeign (wk₁ : Worker) (hwk₁ : wk₁ ∈ s.workers) :
        NoForeign (script role) wk₁.loop := by
      rcases hwhen with rfl | hstopping
      · refine noForeign_of_not_asksStore ?_
        simpa using List.all_eq_true.mp hstore wk₁ hwk₁
      · exact (hs.workers wk₁ hwk₁).noForeign hstopping
    have hstopping : (s.stop protocol w).orchestrator ≠ .running := nofun
    refine ⟨fun wk₁ hwk₁ => ?_, fun p v horch wk₁ hwk₁ hp => ?_, fun p v horch wk₁ hwk₁ => ?_⟩
    · obtain ⟨wk₀, hwk₀, rfl⟩ := List.mem_map.mp hwk₁
      split
      · next hsame =>
        have hlaunched : wk₀.launched = true := by
          have hor := List.all_eq_true.mp hready wk₀ hwk₀
          rwa [decide_eq_false (not_not.mpr hsame), Bool.false_or] at hor
        exact .requestStop hstopping (hwf wk₀ hwk₀) hlaunched (hforeign wk₀ hwk₀)
      · have hold := hs.workers wk₀ hwk₀
        exact ⟨fun _ => hstopping, hold.launched, hold.stops, fun _ => hforeign wk₀ hwk₀⟩
    · obtain ⟨rfl, rfl⟩ := Orchestrator.stopping.inj horch
      obtain ⟨wk₀, hwk₀, rfl⟩ := List.mem_map.mp hwk₁
      split at hp
      · next hsame => rw [if_pos hsame]; rfl
      · next hother => exact absurd hp hother
    · obtain ⟨rfl, rfl⟩ := Orchestrator.stopping.inj horch
      rw [State.stop, List.getElem?_map, hget, Option.map_some, Option.some_inj, if_pos hprotocol]
        at hwk₁
      obtain rfl := hwk₁
      exact hprotocol
  | @joins protocol w wk next horch hget _ hnext hsame =>
    have hstopping : s.orchestrator ≠ .running := by
      rw [horch]
      exact nofun
    have hkeep {wk₁ : Worker} (hold : wk₁.Safe role (s.orchestrator ≠ .running)) :
        wk₁.Safe role (Orchestrator.stopping protocol (w + 1) ≠ .running) :=
      ⟨fun _ => nofun, hold.launched, hold.stops, fun _ => hold.noForeign hstopping⟩
    refine ⟨fun wk₁ hwk₁ => hkeep (hs.workers wk₁ hwk₁), fun p v horch' => ?_,
      fun p v horch' wk₁ hwk₁ => ?_⟩
    · obtain ⟨rfl, -⟩ := Orchestrator.stopping.inj horch'
      exact hs.requested protocol w horch
    · obtain ⟨rfl, rfl⟩ := Orchestrator.stopping.inj horch'
      obtain rfl := Option.some.inj (hnext.symm.trans hwk₁)
      exact hsame
  | isDone hwhen _ =>
    refine ⟨fun wk₁ hwk₁ => ?_, nofun, nofun⟩
    have hstopping : s.orchestrator ≠ .running := by
      refine hwhen.resolve_left fun hempty => ?_
      have hnone : wk₁ ∈ s.workers := hwk₁
      rw [hempty] at hnone
      cases hnone
    have hold := hs.workers wk₁ hwk₁
    exact ⟨fun _ => nofun, hold.launched, hold.stops, fun _ => hold.noForeign hstopping⟩

theorem safe_of_reach {n m : ℕ}
    (hr : Machine.Reach (step role) (fun s l => safe role s l = true) (initial n m) s) :
    Safe role s := by
  induction hr with
  | init =>
    refine ⟨fun wk hwk => ?_, nofun, nofun⟩
    have hfresh : wk.stopRequested = false := by
      rcases List.mem_append.mp hwk with h | h <;> rw [List.eq_of_mem_replicate h]
    have hno {q : Prop} (h : wk.stopRequested = true) : q := by
      rw [hfresh] at h
      cases h
    exact ⟨hno, hno, fun h => hno h, fun h => absurd rfl h⟩
  | step l hbefore hok hs ih =>
    exact ih.step (wf_of_reachable hbefore.reachable) (step_cases hs) hok

/-- **A stop that is not brought into trouble runs on.**  In every run of such steps, while
    the signal handler joins a worker, the worker is done or some thread of the process has a
    step to take. -/
theorem stop_runs_on (role : ServerRole) {n m : ℕ} {s : State}
    (hr : Machine.Reach (step role) (fun s l => safe role s l = true) (initial n m) s)
    {protocol : Protocol} {w : ℕ} (hstop : s.orchestrator = .stopping protocol w) {wk : Worker}
    (hwk : s.workers[w]? = some wk) :
    wk.phase = .finished ∨ ∃ l : Label, l.byThread = true ∧ (step role s l).isSome := by
  have hsafe := safe_of_reach hr
  have hwf := wf_of_reachable hr.reachable wk (List.mem_of_getElem? hwk)
  have hworker := hsafe.workers wk (List.mem_of_getElem? hwk)
  have hreq : wk.stopRequested = true :=
    hsafe.requested protocol w hstop wk (List.mem_of_getElem? hwk)
      (hsafe.joined protocol w hstop wk hwk)
  have hupdate {f : Worker → Option Worker} (hf : (f wk).isSome) : (s.update w f).isSome := by
    rw [State.update, hwk, Option.bind_some, Option.isSome_map]
    exact hf
  cases hphase : wk.phase with
  | finished => exact Or.inl rfl
  | created => exact Or.inr ⟨.arm w, rfl, hupdate (by rw [if_pos hphase]; rfl)⟩
  | armed => exact Or.inr ⟨.launch w, rfl, hupdate (by rw [if_pos hphase]; rfl)⟩
  | running =>
    right
    have hstopping : s.orchestrator ≠ .running := by
      rw [hstop]
      exact nofun
    rcases progress hwf.tidy (hworker.stops hreq hphase) (hworker.noForeign hstopping) with
      ⟨a, hown, hact⟩ | ⟨hqueue, hdone⟩
    · have hanswers : a.answers = false := by
        cases a with
        | answer i => cases hown
        | _ => rfl
      refine ⟨.act w a, by rw [Label.byThread, hown]; rfl, ?_⟩
      have hnot : ¬(a.answers = true ∧ s.orchestrator ≠ .running) := by
        rw [hanswers]
        exact nofun
      rw [step, if_neg hnot]
      refine hupdate ?_
      rw [if_pos hphase, Option.isSome_map]
      exact hact
    · refine ⟨.finish w, rfl, hupdate ?_⟩
      have hall : (wk.loop.cos.all fun c => decide (c.status = .finished)) = true :=
        List.all_eq_true.mpr fun c hc => decide_eq_true (hdone c hc)
      rw [if_pos ⟨hphase, hqueue, hall⟩]
      rfl

/-- A Login with one worker, which has accepted a client. -/
def acceptRun : List Label :=
  [.arm 0, .launch 0, .act 0 .begin, .act 0 (.arrive 0), .act 0 (.resume (some (.accept, false))),
    .act 0 .begin]

/-- A signal while the client is silent. -/
theorem stop_runs_on_silent :
    ∃ s wk, Machine.run (Machine.guarded (step .login) (safe .login)) (initial 1 0)
        (acceptRun ++ [.signal]) = some s ∧ s.workers[0]? = some wk ∧
      (wk.phase = .finished ∨ ∃ l : Label, l.byThread = true ∧ (step .login s l).isSome) := by
  have hrun : ((Machine.run (Machine.guarded (step .login) (safe .login)) (initial 1 0)
      (acceptRun ++ [.signal])).map fun s => (s.orchestrator, s.workers[0]?.isSome)) =
        some (.stopping .tcp 0, true) := by decide +kernel
  obtain ⟨s, hs, heq⟩ := Option.map_eq_some_iff.mp hrun
  obtain ⟨hstop, hsome⟩ := Prod.mk.inj heq
  obtain ⟨wk, hwk⟩ := Option.isSome_iff_exists.mp hsome
  exact ⟨s, wk, hs, hwk, stop_runs_on .login (Machine.Reach.of_run .init hs) hstop hwk⟩

/-- The client sends its hello, and the signal arrives while the store is asked for its
    ticket; the worker does all it can. -/
def askingRun : List Label :=
  acceptRun ++ [.act 0 (.arrive 1), .act 0 (.resume (some (.ticketTake, false))), .signal,
    .act 0 (.close [0, 1]), .act 0 (.resume none)]

/-- The worker then: its listener is done, its session waits for the store. -/
def askingWorker : Worker where
  protocol := .tcp
  phase := .running
  stopRequested := true
  loop := { cos := [{ point := .accept, status := .finished, closed := true },
                    { point := .ticketTake, status := .waiting, closed := true }] }

/-- No thread has anything to do, and the worker is not done. -/
theorem stop_stuck :
    ¬ ∀ (role : ServerRole) (n m : ℕ) (s : State),
      Machine.Reachable (step role) (initial n m) s → ∀ protocol w wk,
        s.orchestrator = .stopping protocol w → s.workers[w]? = some wk →
          wk.phase = .finished ∨ ∃ l : Label, l.byThread = true ∧ (step role s l).isSome := by
  intro h
  have hrun : Machine.run (step .login) (initial 1 0) askingRun =
      some { workers := [askingWorker], orchestrator := .stopping .tcp 0 } := by decide +kernel
  rcases h .login 1 0 _ (Machine.Reachable.of_run .init hrun) .tcp 0 askingWorker rfl rfl with
    hdone | ⟨l, hthread, hstep⟩
  · cases hdone
  · cases l with
    | signal => cases hthread
    | join => cases hstep
    | arm w => cases w <;> cases hstep
    | launch w => cases w <;> cases hstep
    | finish w => cases w <;> cases hstep
    | act w a =>
      cases w with
      | succ w =>
        rw [step] at hstep
        split at hstep <;> cases hstep
      | zero =>
        cases a with
        | begin | resume | close => cases hstep
        | arrive | fail => cases hthread
        | answer => cases hstep
        | idle i =>
          rcases i with _ | _ | i <;> cases hstep

/-- A worker that starts late opens its listener after the closing, and listens. -/
example : Machine.run (step .login) (initial 1 0)
    [.signal, .arm 0, .launch 0, .act 0 (.close [0]), .act 0 .begin] = some
      { workers := [{ protocol := .tcp, phase := .running, stopRequested := true,
                      loop := { cos := [{ point := .accept, status := .waiting }] } }]
        orchestrator := .stopping .tcp 0 } := by decide +kernel

end Netsrv.Process
