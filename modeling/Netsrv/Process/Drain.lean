/-
  `wait_drained` of `server.hpp` beside the workers that open and close sessions.

  Each atomic operation is a step: the load, the comparison inside `wait`, the `fetch_add`,
  the `fetch_sub` and the `notify_all` after it.  Between the last two a worker does nothing
  else, so `notifying` lists the workers that have one to come.  `wait(old)` sleeps only
  while the value is `old`, and compares again when it is notified.  The clock moves at any
  time.

  * `no_lost_wakeup`: whoever sleeps on a drained server is about to be notified.
  * `wait_drained_timeout`: but nobody wakes it for the deadline.
-/
import Netsrv.Process.Connections

namespace Netsrv.Drain

/-- Where the caller of `wait_drained` is. -/
inductive Waiter where
  | idle
  /-- Before the load of the loop's condition. -/
  | loading (deadline : ℤ)
  /-- The load found `current`; the clock comes next. -/
  | loaded (deadline : ℤ) (current : ℕ)
  /-- In `wait(current)`, before it compares. -/
  | comparing (deadline : ℤ) (current : ℕ)
  /-- In `wait(current)`, asleep. -/
  | blocked (deadline : ℤ) (current : ℕ)
  | returned
  deriving DecidableEq, Repr

structure State where
  conns : Connections.State
  /-- The workers whose `fetch_sub` returned 1 and who have not called `notify_all` yet. -/
  notifying : List ℕ := []
  /-- `steady_clock`, in nanoseconds. -/
  now : ℤ := 0
  waiter : Waiter := .idle
  deriving DecidableEq, Repr

def initial (threads : ℕ) : State where
  conns := Connections.initial threads

def milliseconds (n : ℤ) : ℤ := n * 1000000

inductive Label where
  | conn (l : Connections.Label)
  /-- `notify_all`. -/
  | notify (w : ℕ)
  /-- The call: the deadline is taken from the clock. -/
  | call (timeout : ℤ)
  /-- The loop's condition. -/
  | load
  /-- `if (now() >= deadline) return;`. -/
  | check
  /-- The comparison in `wait`. -/
  | wait
  | tick (elapsed : ℕ)
  deriving DecidableEq, Repr

/-- The worker that takes a step. -/
def worker (s : State) : Connections.Label → Option ℕ
  | .accept w | .opened w => some w
  | .closed i => s.conns.sessions[i]?

/-- The worker that has to notify after a step: its `fetch_sub` returns 1. -/
def drains (s : State) : Connections.Label → List ℕ
  | .accept _ | .opened _ => []
  | .closed i => if s.conns.active = 1 then s.conns.sessions[i]?.toList else []

/-- A worker in the middle of `on_connection_closed` does nothing else. -/
def busy (s : State) (l : Connections.Label) : Bool :=
  match worker s l with
  | none => false
  | some w => w ∈ s.notifying

/-- What a notification does to the waiter. -/
def Waiter.wake : Waiter → Waiter
  | .blocked deadline current => .comparing deadline current
  | w => w

def step (maxConnections : ℕ) (s : State) : Label → Option State
  | .conn l =>
    if busy s l then none
    else (Connections.step maxConnections s.conns l).map fun conns =>
      { s with conns, notifying := drains s l ++ s.notifying }
  | .notify w =>
    if w ∈ s.notifying then
      some { s with notifying := s.notifying.erase w, waiter := s.waiter.wake }
    else none
  | .call timeout =>
    match s.waiter with
    | .idle | .returned => some { s with waiter := .loading (s.now + milliseconds timeout) }
    | _ => none
  | .load =>
    match s.waiter with
    | .loading deadline =>
      if s.conns.active = 0 then some { s with waiter := .returned }
      else some { s with waiter := .loaded deadline s.conns.active }
    | _ => none
  | .check =>
    match s.waiter with
    | .loaded deadline current =>
      if s.now ≥ deadline then some { s with waiter := .returned }
      else some { s with waiter := .comparing deadline current }
    | _ => none
  | .wait =>
    match s.waiter with
    | .comparing deadline current =>
      if s.conns.active = current then some { s with waiter := .blocked deadline current }
      else some { s with waiter := .loading deadline }
    | _ => none
  | .tick elapsed => some { s with now := s.now + elapsed }

/-! ## What a step can do -/

inductive Step (maxConnections : ℕ) (s : State) : Label → State → Prop
  | conn {l : Connections.Label} {conns : Connections.State} :
      Connections.step maxConnections s.conns l = some conns →
      Step maxConnections s (.conn l) { s with conns, notifying := drains s l ++ s.notifying }
  | notify {w : ℕ} : w ∈ s.notifying → Step maxConnections s (.notify w)
      { s with notifying := s.notifying.erase w, waiter := s.waiter.wake }
  | call (timeout : ℤ) : s.waiter = .idle ∨ s.waiter = .returned →
      Step maxConnections s (.call timeout)
        { s with waiter := .loading (s.now + milliseconds timeout) }
  | drained {deadline : ℤ} : s.waiter = .loading deadline → s.conns.active = 0 →
      Step maxConnections s .load { s with waiter := .returned }
  | loads {deadline : ℤ} : s.waiter = .loading deadline → s.conns.active ≠ 0 →
      Step maxConnections s .load { s with waiter := .loaded deadline s.conns.active }
  | expires {deadline : ℤ} {current : ℕ} : s.waiter = .loaded deadline current →
      deadline ≤ s.now → Step maxConnections s .check { s with waiter := .returned }
  | goesOn {deadline : ℤ} {current : ℕ} : s.waiter = .loaded deadline current →
      s.now < deadline → Step maxConnections s .check
        { s with waiter := .comparing deadline current }
  | sleeps {deadline : ℤ} {current : ℕ} : s.waiter = .comparing deadline current →
      s.conns.active = current → Step maxConnections s .wait
        { s with waiter := .blocked deadline current }
  | wakes {deadline : ℤ} {current : ℕ} : s.waiter = .comparing deadline current →
      s.conns.active ≠ current → Step maxConnections s .wait { s with waiter := .loading deadline }
  | tick (elapsed : ℕ) : Step maxConnections s (.tick elapsed) { s with now := s.now + elapsed }

variable {maxConnections threads : ℕ} {s s' : State}

theorem step_cases {l : Label} (h : step maxConnections s l = some s') :
    Step maxConnections s l s' := by
  cases l with
  | conn l =>
    simp only [step] at h
    split at h
    · cases h
    · obtain ⟨conns, hconns, rfl⟩ := Option.map_eq_some_iff.mp h
      exact .conn hconns
  | notify w =>
    simp only [step] at h
    split at h
    · next hw =>
      obtain rfl := Option.some.inj h
      exact .notify hw
    · cases h
  | call timeout =>
    simp only [step] at h
    split at h
    · next hw =>
      obtain rfl := Option.some.inj h
      exact .call timeout (Or.inl hw)
    · next hw =>
      obtain rfl := Option.some.inj h
      exact .call timeout (Or.inr hw)
    · cases h
  | load =>
    simp only [step] at h
    split at h
    · next hw =>
      split at h
      · next hzero =>
        obtain rfl := Option.some.inj h
        exact .drained hw hzero
      · next hne =>
        obtain rfl := Option.some.inj h
        exact .loads hw hne
    · cases h
  | check =>
    simp only [step] at h
    split at h
    · next hw =>
      split at h
      · next hlate =>
        obtain rfl := Option.some.inj h
        exact .expires hw hlate
      · next hearly =>
        obtain rfl := Option.some.inj h
        exact .goesOn hw (Int.not_le.mp hearly)
    · cases h
  | wait =>
    simp only [step] at h
    split at h
    · next hw =>
      split at h
      · next heq =>
        obtain rfl := Option.some.inj h
        exact .sleeps hw heq
      · next hne =>
        obtain rfl := Option.some.inj h
        exact .wakes hw hne
    · cases h
  | tick elapsed =>
    obtain rfl := Option.some.inj h
    exact .tick elapsed

/-! ## No wake-up is lost -/

/-- The value the waiter has loaded. -/
def Waiter.current? : Waiter → Option ℕ
  | .loaded _ current | .comparing _ current | .blocked _ current => some current
  | .idle | .loading _ | .returned => none

/-- Asleep in `wait`. -/
def Waiter.Asleep (w : Waiter) : Prop := ∃ deadline current, w = .blocked deadline current

theorem Waiter.current?_wake (w : Waiter) : w.wake.current? = w.current? := by
  cases w <;> rfl

theorem Waiter.not_asleep_wake (w : Waiter) : ¬ w.wake.Asleep := by
  rintro ⟨deadline, current, h⟩
  cases w <;> cases h

/-- Whoever has loaded a value did not load 0, and whoever sleeps although the counter is 0
    has a notification coming. -/
structure Sound (s : State) : Prop where
  current : ∀ n ∈ s.waiter.current?, n ≠ 0
  notified : s.waiter.Asleep → s.conns.active = 0 → s.notifying ≠ []

/-- A waiter that has loaded nothing is not asleep. -/
theorem sound_of_none (h : s.waiter.current? = none) : Sound s where
  current := fun n hn => by rw [h] at hn; cases hn
  notified := by
    rintro ⟨deadline, current, hw⟩
    rw [hw] at h
    cases h

/-- Only a `fetch_sub` that returns 1 brings the counter to 0. -/
theorem drains_ne_nil {l : Connections.Label} {conns : Connections.State}
    (h : Connections.step maxConnections s.conns l = some conns) (hpos : s.conns.active ≠ 0)
    (hzero : conns.active = 0) : drains s l ≠ [] := by
  cases Connections.step_cases h with
  | refuses w _ => exact absurd hzero hpos
  | admits _ _ => exact absurd hzero hpos
  | opens _ => cases hzero
  | closes hi _ =>
    have hone : s.conns.active = 1 := by
      have hsub : Connections.fetchSub s.conns.active = 0 := hzero
      rw [Connections.fetchSub, if_neg hpos] at hsub
      omega
    rw [drains, if_pos hone, hi]
    exact List.cons_ne_nil _ _

theorem Sound.step (hs : Sound s) {l : Label} (h : Step maxConnections s l s') : Sound s' := by
  cases h with
  | @conn l conns hconns =>
    refine ⟨hs.current, fun hasleep hzero hnil => ?_⟩
    obtain ⟨hdrains, hnil⟩ := List.append_eq_nil_iff.mp hnil
    by_cases hpos : s.conns.active = 0
    · exact hs.notified hasleep hpos hnil
    · exact drains_ne_nil hconns hpos hzero hdrains
  | notify hw =>
    refine ⟨fun n hn => hs.current n ?_, fun hasleep => absurd hasleep s.waiter.not_asleep_wake⟩
    rwa [Waiter.current?_wake] at hn
  | call _ _ | drained _ _ | expires _ _ | wakes _ _ => exact sound_of_none rfl
  | loads _ hne =>
    refine ⟨fun n hn => ?_, fun ⟨_, _, hw⟩ => by cases hw⟩
    obtain rfl := Option.some.inj hn
    exact hne
  | goesOn hw _ =>
    refine ⟨fun n hn => hs.current n ?_, fun ⟨_, _, hw⟩ => by cases hw⟩
    rw [hw]
    exact hn
  | @sleeps deadline current hw heq =>
    -- the value it compares with was not 0
    have hne : current ≠ 0 := hs.current current (by rw [hw]; rfl)
    refine ⟨fun n hn => ?_, fun _ hzero => absurd (heq.symm.trans hzero) hne⟩
    obtain rfl := Option.some.inj hn
    exact hne
  | tick elapsed => exact ⟨hs.current, hs.notified⟩

theorem sound (hr : Machine.Reachable (step maxConnections) (initial threads) s) : Sound s :=
  hr.invariant (sound_of_none rfl) fun _ _ _ hs _ hstep => hs.step (step_cases hstep)

/-- While the counter is 0 nobody falls asleep. -/
theorem Sound.not_asleep_step (hs : Sound s) (hawake : ¬ s.waiter.Asleep)
    (hzero : s.conns.active = 0) {l : Label} (h : Step maxConnections s l s') :
    ¬ s'.waiter.Asleep := by
  cases h with
  | conn _ => exact hawake
  | notify _ => exact s.waiter.not_asleep_wake
  | sleeps hw heq => exact absurd (heq.symm.trans hzero) (hs.current _ (by rw [hw]; rfl))
  | tick _ => exact hawake
  | call _ _ | drained _ _ | loads _ _ | expires _ _ | goesOn _ _ | wakes _ _ =>
    rintro ⟨_, _, h⟩
    cases h

/-- **No wake-up is lost.**  If the waiter sleeps while the counter is 0, some worker that
    brought it to 0 has its `notify_all` to come.  After it the waiter is awake and stays so
    as long as the counter is 0, and its next two steps take it out of `wait_drained`. -/
theorem no_lost_wakeup (hr : Machine.Reachable (step maxConnections) (initial threads) s)
    (hasleep : s.waiter.Asleep) (hzero : s.conns.active = 0) :
    s.notifying ≠ [] ∧ ∀ w ∈ s.notifying, ∃ s', step maxConnections s (.notify w) = some s' ∧
      (∀ t, Machine.Reach (step maxConnections) (fun u _ => u.conns.active = 0) s' t →
        ¬ t.waiter.Asleep) ∧
      (Machine.run (step maxConnections) s' [.wait, .load]).map State.waiter =
        some .returned := by
  have hs := sound hr
  refine ⟨hs.notified hasleep hzero, fun w hw => ?_⟩
  have hstep : step maxConnections s (.notify w) =
      some { s with notifying := s.notifying.erase w, waiter := s.waiter.wake } := if_pos hw
  refine ⟨_, hstep, fun t ht => ?_, ?_⟩
  · have hboth := ht.invariant (I := fun u => Sound u ∧ ¬ u.waiter.Asleep)
      ⟨hs.step (step_cases hstep), s.waiter.not_asleep_wake⟩ fun u l u' hu hzero hstep =>
        ⟨hu.1.step (step_cases hstep), hu.1.not_asleep_step hu.2 hzero (step_cases hstep)⟩
    exact hboth.2
  · obtain ⟨deadline, current, hw⟩ := hasleep
    have hne : 0 ≠ current := (hs.current current (by rw [hw]; rfl)).symm
    simp [Machine.run, step, hw, Waiter.wake, hne, hzero]

/-- One session, and a waiter that went to sleep before it closed. -/
def lastCloseRun : List Label :=
  [.conn (.accept 0), .conn (.opened 0), .call 30000, .load, .check, .wait, .conn (.closed 0)]

theorem no_lost_wakeup_lastClose : ∃ s, Machine.Reachable (step 500) (initial 1) s ∧
    s.waiter.Asleep ∧ s.conns.active = 0 ∧ s.notifying ≠ [] := by
  let s : State := { conns := { workers := [.waiting] }, notifying := [0]
                     waiter := .blocked (milliseconds 30000) 1 }
  have hrun : Machine.run (step 500) (initial 1) lastCloseRun = some s := by decide
  have hr : Machine.Reachable (step 500) (initial 1) s := .of_run .init hrun
  have hasleep : s.waiter.Asleep := ⟨_, _, rfl⟩
  exact ⟨s, hr, hasleep, rfl, (no_lost_wakeup hr hasleep rfl).1⟩

/-! ## The deadline

  Only a notification wakes the waiter, and only a counter of 0 sends one.  So the deadline
  is not looked at again while the waiter sleeps and none is on its way. -/

/-- A session closes. -/
def Label.closes : Label → Bool
  | .conn (.closed _) => true
  | _ => false

/-- The thread in `wait_drained` can take a step. -/
def Enabled (maxConnections : ℕ) (s : State) : Prop :=
  (step maxConnections s .load).isSome ∨ (step maxConnections s .check).isSome ∨
    (step maxConnections s .wait).isSome

/-- Past the deadline the waiter sleeps, and will as long as no session closes. -/
def Stuck (maxConnections : ℕ) (s : State) : Prop :=
  (∃ deadline current, s.waiter = .blocked deadline current ∧ deadline < s.now) ∧
    ∀ t, Machine.Reach (step maxConnections) (fun _ l => l.closes = false) s t →
      ¬ Enabled maxConnections t

theorem not_enabled_iff : ¬ Enabled maxConnections s ↔
    s.waiter = .idle ∨ s.waiter = .returned ∨ s.waiter.Asleep := by
  unfold Enabled step Waiter.Asleep
  cases s.waiter with
  | loading deadline => dsimp only; split <;> simp
  | loaded deadline current => dsimp only; split <;> simp
  | comparing deadline current => dsimp only; split <;> simp
  | idle => simp
  | blocked deadline current => simp
  | returned => simp

/-- Asleep past the deadline, with no notification on its way. -/
def Overslept (s : State) : Prop :=
  (∃ deadline current, s.waiter = .blocked deadline current ∧ deadline < s.now) ∧
    s.notifying = []

theorem drains_of_not_closes {l : Connections.Label} (h : (Label.conn l).closes = false) :
    drains s l = [] := by
  cases l with
  | accept w => rfl
  | opened w => rfl
  | closed i => cases h

/-- It lasts until a session closes. -/
theorem Overslept.step (hs : Overslept s) {l : Label} (hl : l.closes = false)
    (h : Step maxConnections s l s') : Overslept s' := by
  obtain ⟨⟨deadline, current, hblocked, hlate⟩, hnil⟩ := hs
  cases h with
  | conn _ =>
    refine ⟨⟨deadline, current, hblocked, hlate⟩, ?_⟩
    rw [drains_of_not_closes hl, hnil]
    rfl
  | notify hw =>
    rw [hnil] at hw
    cases hw
  | tick elapsed =>
    refine ⟨⟨deadline, current, hblocked, ?_⟩, hnil⟩
    dsimp only
    omega
  | call _ hw =>
    rw [hblocked] at hw
    rcases hw with hw | hw <;> cases hw
  | drained hw _ | loads hw _ | expires hw _ | goesOn hw _ | sleeps hw _ | wakes hw _ =>
    rw [hblocked] at hw
    cases hw

theorem stuck_iff_overslept : Stuck maxConnections s ↔ Overslept s := by
  constructor
  · rintro ⟨hlate, hall⟩
    refine ⟨hlate, ?_⟩
    obtain ⟨deadline, current, hblocked, -⟩ := hlate
    by_contra hne
    -- a worker that has to notify can do so at once
    obtain ⟨w, hw⟩ := List.exists_mem_of_ne_nil _ hne
    have hstep : Drain.step maxConnections s (.notify w) =
        some { s with notifying := s.notifying.erase w, waiter := s.waiter.wake } := if_pos hw
    refine hall _ (.step (.notify w) .init rfl hstep) (Or.inr (Or.inr ?_))
    simp only [Drain.step, hblocked, Waiter.wake]
    split <;> rfl
  · intro hs
    refine ⟨hs.1, fun t ht => not_enabled_iff.mpr (Or.inr (Or.inr ?_))⟩
    have hover := ht.invariant hs fun _ _ _ hu hl hstep => hu.step hl (step_cases hstep)
    obtain ⟨deadline, current, hblocked, -⟩ := hover.1
    exact ⟨deadline, current, hblocked⟩

/-- The clock does not pass the deadline of a waiter that sleeps with no notification on its
    way, and past its deadline the waiter does not go to sleep so. -/
def timely (s : State) : Label → Bool
  | .tick elapsed =>
    match s.waiter with
    | .blocked deadline _ => s.notifying ≠ [] ∨ s.now + elapsed ≤ deadline
    | _ => true
  | .wait =>
    match s.waiter with
    | .comparing deadline current =>
      s.conns.active ≠ current ∨ s.notifying ≠ [] ∨ s.now ≤ deadline
    | _ => true
  | .conn _ | .notify _ | .call _ | .load | .check => true

theorem timely_tick_iff (elapsed : ℕ) : timely s (.tick elapsed) = true ↔
    ∀ deadline current, s.waiter = .blocked deadline current → s.notifying = [] →
      s.now + elapsed ≤ deadline := by
  unfold timely
  cases hw : s.waiter with
  | blocked deadline current =>
    by_cases hnil : s.notifying = []
    · simp [hnil]
    · simp [hnil]
  | idle | loading _ | loaded _ _ | comparing _ _ | returned => simp

theorem timely_wait_iff : timely s .wait = true ↔
    ∀ deadline, s.waiter = .comparing deadline s.conns.active → s.notifying = [] →
      s.now ≤ deadline := by
  unfold timely
  cases hw : s.waiter with
  | comparing deadline current =>
    by_cases heq : s.conns.active = current
    · by_cases hnil : s.notifying = []
      · simp [hnil, heq]
      · simp [hnil]
    · simp [heq, Ne.symm heq]
  | idle | loading _ | loaded _ _ | blocked _ _ | returned => simp

/-- Only an untimely step lets the waiter oversleep. -/
theorem not_overslept_step (hs : ¬ Overslept s) {l : Label} (hl : timely s l = true)
    (h : Step maxConnections s l s') : ¬ Overslept s' := by
  rintro ⟨⟨deadline, current, hblocked, hlate⟩, hnil⟩
  cases h with
  | conn _ =>
    exact hs ⟨⟨deadline, current, hblocked, hlate⟩, (List.append_eq_nil_iff.mp hnil).2⟩
  | notify _ => exact s.waiter.not_asleep_wake ⟨deadline, current, hblocked⟩
  | sleeps hw heq =>
    obtain ⟨rfl, rfl⟩ := Waiter.blocked.inj hblocked
    rw [← heq] at hw
    exact absurd hlate (Int.not_lt.mpr (timely_wait_iff.mp hl _ hw hnil))
  | tick elapsed =>
    exact absurd hlate (Int.not_lt.mpr ((timely_tick_iff elapsed).mp hl _ _ hblocked hnil))
  | call _ _ | drained _ _ | loads _ _ | expires _ _ | goesOn _ _ | wakes _ _ => cases hblocked

/-- Each untimely step does. -/
theorem overslept_of_untimely {l : Label} (hl : timely s l = false)
    (h : Step maxConnections s l s') : Overslept s' := by
  rw [← Bool.not_eq_true] at hl
  cases h with
  | tick elapsed =>
    rw [timely_tick_iff] at hl
    simp only [Classical.not_forall, exists_prop] at hl
    obtain ⟨deadline, current, hblocked, hnil, hlate⟩ := hl
    exact ⟨⟨deadline, current, hblocked, Int.not_le.mp hlate⟩, hnil⟩
  | sleeps hw heq =>
    rw [timely_wait_iff] at hl
    simp only [Classical.not_forall, exists_prop] at hl
    obtain ⟨deadline, hw', hnil, hlate⟩ := hl
    obtain ⟨rfl, -⟩ := Waiter.comparing.inj (hw.symm.trans hw')
    exact ⟨⟨_, _, rfl, Int.not_le.mp hlate⟩, hnil⟩
  | wakes hw hne =>
    rw [timely_wait_iff] at hl
    simp only [Classical.not_forall, exists_prop] at hl
    obtain ⟨deadline, hw', -, -⟩ := hl
    exact absurd (Waiter.comparing.inj (hw.symm.trans hw')).2.symm hne
  | conn _ | notify _ | call _ _ | drained _ _ | loads _ _ | expires _ _ | goesOn _ _ =>
    exact absurd rfl hl

/-- The session closes in time, and its notification comes after the deadline. -/
def closedInTimeRun : List Label :=
  [.conn (.accept 0), .conn (.opened 0), .call 1, .load, .check, .wait, .conn (.closed 0),
    .tick 2000000, .notify 0, .wait, .load]

/-- The session stays open, and 1 ms is over. -/
def overdueRun : List Label :=
  [.conn (.accept 0), .conn (.opened 0), .call 1, .load, .check, .wait, .tick 2000000]

end Netsrv.Drain
