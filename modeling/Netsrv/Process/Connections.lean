/-
  The connection count of `server.hpp`: `active_connections_`, which all workers share.

  `accept_loop` loads the counter, compares it with `max_connections`, and counts the
  connection later in the same handler, by an atomic step of its own; in between the other
  workers go on.  The coroutine of a session counts it out when `Session::run` is over.  A
  worker runs one handler at a time, so it closes no session between its load and its
  `fetch_add`.

  * `counted`: the counter is the number of open sessions, and together with the workers
    between their two steps it stays below the limit plus one for each worker.
  * `accounting`: the worst case is reached, so the limit itself is kept by one worker only.
-/
import Netsrv.Lib.Machine
import Mathlib.Data.List.Count
import Mathlib.Algebra.Group.Nat.Defs

namespace Netsrv.Connections

/-- Where the accept loop of a worker is: it waits for a connection, or has found room for
    one and not counted it yet. -/
inductive AcceptPoint where
  | waiting | admitted
  deriving DecidableEq, Repr

structure State where
  /-- `active_connections_`. -/
  active : ℕ := 0
  workers : List AcceptPoint
  /-- The worker of each session that is open. -/
  sessions : List ℕ := []
  deriving DecidableEq, Repr

/-- `start()` with `threads` workers. -/
def initial (threads : ℕ) : State where
  workers := List.replicate threads .waiting

/-- `fetch_add(1)`. -/
def fetchAdd (active : ℕ) : ℕ := active + 1

/-- `fetch_sub(1)` on a `size_t`, which has no number below 0. -/
def fetchSub (active : ℕ) : ℕ := if active = 0 then 2 ^ 64 - 1 else active - 1

inductive Label where
  /-- An accept completes: the load and the comparison. -/
  | accept (w : ℕ)
  /-- `on_connection_opened`, and the new session. -/
  | opened (w : ℕ)
  /-- A session is over: `on_connection_closed`. -/
  | closed (i : ℕ)
  deriving DecidableEq, Repr

def step (maxConnections : ℕ) (s : State) : Label → Option State
  | .accept w =>
    if s.workers[w]? = some .waiting then
      -- one connection too many is closed at once
      if s.active ≥ maxConnections then some s
      else some { s with workers := s.workers.set w .admitted }
    else none
  | .opened w =>
    if s.workers[w]? = some .admitted then
      some { active := fetchAdd s.active
             workers := s.workers.set w .waiting
             sessions := w :: s.sessions }
    else none
  | .closed i =>
    match s.sessions[i]? with
    | none => none
    | some w =>
      if s.workers[w]? = some .waiting then
        some { s with active := fetchSub s.active, sessions := s.sessions.eraseIdx i }
      else none

/-! ## What a step can do -/

inductive Step (maxConnections : ℕ) (s : State) : Label → State → Prop
  | refuses (w : ℕ) : s.active ≥ maxConnections → Step maxConnections s (.accept w) s
  | admits {w : ℕ} : s.workers[w]? = some .waiting → s.active < maxConnections →
      Step maxConnections s (.accept w) { s with workers := s.workers.set w .admitted }
  | opens {w : ℕ} : s.workers[w]? = some .admitted → Step maxConnections s (.opened w)
      { active := fetchAdd s.active
        workers := s.workers.set w .waiting
        sessions := w :: s.sessions }
  | closes {i w : ℕ} : s.sessions[i]? = some w → s.workers[w]? = some .waiting →
      Step maxConnections s (.closed i)
        { s with active := fetchSub s.active, sessions := s.sessions.eraseIdx i }

variable {maxConnections threads : ℕ} {s s' : State}

theorem step_cases {l : Label} (h : step maxConnections s l = some s') :
    Step maxConnections s l s' := by
  cases l with
  | accept w =>
    simp only [step] at h
    split at h
    · next hw =>
      split at h
      · next hfull =>
        obtain rfl := Option.some.inj h
        exact .refuses w hfull
      · next hroom =>
        obtain rfl := Option.some.inj h
        exact .admits hw (Nat.lt_of_not_le hroom)
    · cases h
  | opened w =>
    simp only [step] at h
    split at h
    · next hw =>
      obtain rfl := Option.some.inj h
      exact .opens hw
    · cases h
  | closed i =>
    simp only [step] at h
    split at h
    · cases h
    · next w hi =>
      split at h
      · next hw =>
        obtain rfl := Option.some.inj h
        exact .closes hi hw
      · cases h

/-! ## The count -/

/-- The workers between their load and their `fetch_add`. -/
def State.admitted (s : State) : ℕ := s.workers.count .admitted

structure Counted (maxConnections threads : ℕ) (s : State) : Prop where
  length : s.workers.length = threads
  active : s.active = s.sessions.length
  room : s.active + s.admitted ≤ maxConnections + threads - 1

/-- A worker that changes its point changes the number of those admitted by one. -/
theorem count_set_admitted {ws : List AcceptPoint} {w : ℕ} (h : ws[w]? = some .waiting) :
    (ws.set w .admitted).count .admitted = ws.count .admitted + 1 := by
  obtain ⟨hw, hget⟩ := List.getElem?_eq_some_iff.mp h
  rw [List.count_set hw, hget]
  simp

theorem count_set_waiting {ws : List AcceptPoint} {w : ℕ} (h : ws[w]? = some .admitted) :
    (ws.set w .waiting).count .admitted + 1 = ws.count .admitted := by
  obtain ⟨hw, hget⟩ := List.getElem?_eq_some_iff.mp h
  have hpos : 0 < ws.count .admitted := List.count_pos_iff.mpr (List.mem_of_getElem? h)
  rw [List.count_set hw, hget]
  simp
  omega

theorem Counted.step (hs : Counted maxConnections threads s) {l : Label}
    (h : Step maxConnections s l s') : Counted maxConnections threads s' := by
  obtain ⟨hthreads, hactive, hroom⟩ := hs
  unfold State.admitted at hroom
  cases h with
  | refuses w _ => exact ⟨hthreads, hactive, hroom⟩
  | @admits w hw hlt =>
    have hcount := count_set_admitted hw
    have hle := List.count_le_length (a := AcceptPoint.admitted) (l := s.workers.set w .admitted)
    rw [List.length_set] at hle
    refine ⟨by rw [List.length_set, hthreads], hactive, ?_⟩
    -- it found room, so all the others may be where it is now
    unfold State.admitted
    dsimp only
    omega
  | opens hw =>
    have hcount := count_set_waiting hw
    refine ⟨by rw [List.length_set, hthreads], by rw [fetchAdd, hactive, List.length_cons], ?_⟩
    unfold State.admitted fetchAdd
    dsimp only
    omega
  | @closes i w hi hw =>
    have hlt := (List.getElem?_eq_some_iff.mp hi).1
    have hsub : fetchSub s.active = s.active - 1 := if_neg (by omega)
    refine ⟨hthreads, ?_, ?_⟩
    · rw [hsub, List.length_eraseIdx_of_lt hlt, hactive]
    · unfold State.admitted
      rw [hsub]
      dsimp only
      omega

theorem counted (hr : Machine.Reachable (step maxConnections) (initial threads) s) :
    Counted maxConnections threads s := by
  refine hr.invariant ⟨List.length_replicate, rfl, ?_⟩ fun _ _ _ hs _ hstep =>
    hs.step (step_cases hstep)
  have hnone : (initial threads).admitted = 0 :=
    List.count_eq_zero.mpr fun hmem => by
      have := List.eq_of_mem_replicate hmem
      cases this
  rw [hnone]
  exact Nat.zero_le _

/-! ## The worst case

  One worker fills the server up to one below the limit.  Then all workers load the counter
  before any of them counts its connection. -/

/-- Where the `k`-th worker is, when those before it are at `p` and those after it at `q`. -/
theorem getElem?_row (p q : AcceptPoint) (k n : ℕ) :
    (List.replicate k p ++ List.replicate (n + 1) q)[k]? = some q := by
  rw [List.getElem?_append_right (by simp), List.length_replicate, Nat.sub_self]
  rfl

theorem set_row (p q : AcceptPoint) (k n : ℕ) :
    (List.replicate k p ++ List.replicate (n + 1) q).set k p =
      List.replicate (k + 1) p ++ List.replicate n q := by
  rw [List.set_append_right _ _ (by simp), List.length_replicate, Nat.sub_self,
    List.replicate_succ, List.set_cons_zero, List.replicate_succ', List.append_assoc,
    List.singleton_append]

theorem reachable_filled (hthreads : 1 ≤ threads) {k : ℕ} (hk : k < maxConnections) :
    Machine.Reachable (step maxConnections) (initial threads)
      { active := k, workers := List.replicate threads .waiting
        sessions := List.replicate k 0 } := by
  induction k with
  | zero => exact .init
  | succ k ih =>
    obtain ⟨n, rfl⟩ := Nat.exists_eq_add_of_le' hthreads
    have hadmitted : Machine.Reachable (step maxConnections) (initial (n + 1))
        { active := k
          workers := .admitted :: List.replicate n .waiting
          sessions := List.replicate k 0 } := by
      refine .step (.accept 0) (ih (by omega)) trivial ?_
      exact if_neg (show ¬ k ≥ maxConnections by omega)
    exact .step (.opened 0) hadmitted trivial rfl

theorem reachable_admitted (hthreads : 1 ≤ threads) (hmax : 1 ≤ maxConnections) {k n : ℕ}
    (hk : k + n = threads) :
    Machine.Reachable (step maxConnections) (initial threads)
      { active := maxConnections - 1
        workers := List.replicate k .admitted ++ List.replicate n .waiting
        sessions := List.replicate (maxConnections - 1) 0 } := by
  induction k generalizing n with
  | zero =>
    obtain rfl : n = threads := by omega
    exact reachable_filled hthreads (by omega)
  | succ k ih =>
    refine .step (.accept k) (ih (show k + (n + 1) = threads by omega)) trivial ?_
    simp only [step, getElem?_row, if_true, set_row,
      if_neg (show ¬ maxConnections - 1 ≥ maxConnections by omega)]

theorem reachable_opened (hthreads : 1 ≤ threads) (hmax : 1 ≤ maxConnections) {k n : ℕ}
    (hk : k + n = threads) : ∃ sessions,
    Machine.Reachable (step maxConnections) (initial threads)
      { active := maxConnections - 1 + k
        workers := List.replicate k .waiting ++ List.replicate n .admitted
        sessions } := by
  induction k generalizing n with
  | zero =>
    obtain rfl : n = threads := by omega
    have hall := reachable_admitted hthreads hmax (Nat.add_zero n)
    rw [List.replicate_zero, List.append_nil] at hall
    exact ⟨_, hall⟩
  | succ k ih =>
    obtain ⟨sessions, hr⟩ := ih (show k + (n + 1) = threads by omega)
    refine ⟨k :: sessions, .step (.opened k) hr trivial ?_⟩
    simp only [step, getElem?_row, if_true, set_row]
    rfl

/-- In every run the counter is the number of sessions opened and not yet closed, and no
    `fetch_sub` meets a 0; it never exceeds the limit by as much as there are workers, which
    some run almost does; so the limit is kept in all runs by one worker only. -/
theorem accounting (threads maxConnections : ℕ) (hthreads : 1 ≤ threads)
    (hmax : 1 ≤ maxConnections) :
    (∀ s, Machine.Reachable (step maxConnections) (initial threads) s →
      s.active = s.sessions.length ∧ s.active ≤ maxConnections + threads - 1 ∧
        ∀ i s', step maxConnections s (.closed i) = some s' → 0 < s.active) ∧
    (∃ s, Machine.Reachable (step maxConnections) (initial threads) s ∧
      s.active = maxConnections + threads - 1) ∧
    ((∀ s, Machine.Reachable (step maxConnections) (initial threads) s →
      s.active ≤ maxConnections) ↔ threads = 1) := by
  have hworst : ∃ s, Machine.Reachable (step maxConnections) (initial threads) s ∧
      s.active = maxConnections + threads - 1 := by
    obtain ⟨sessions, hr⟩ := reachable_opened hthreads hmax (Nat.add_zero threads)
    refine ⟨_, hr, ?_⟩
    dsimp only
    omega
  refine ⟨fun s hr => ?_, hworst, fun hkept => ?_, fun hone s hr => ?_⟩
  · obtain ⟨-, hactive, hroom⟩ := counted hr
    refine ⟨hactive, by omega, fun i s' hstep => ?_⟩
    cases step_cases hstep with
    | closes hi _ =>
      have hlt := (List.getElem?_eq_some_iff.mp hi).1
      omega
  · obtain ⟨s, hr, hs⟩ := hworst
    have hle := hkept s hr
    omega
  · have hroom := (counted hr).room
    omega

/-- Two workers and a limit of 1: both load the counter before either counts. -/
theorem accounting_two : ∃ s, Machine.Reachable (step 1) (initial 2) s ∧ s.active = 2 :=
  (accounting 2 1 (by decide) (by decide)).2.1

end Netsrv.Connections
