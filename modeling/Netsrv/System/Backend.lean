/-
  The shared store with everything that is on its way to it and back.

  A call of `StoreClient` is on its way (`Backend.issue`), is executed by the store at one
  instant (`Backend.exec`) or never, and its answer waits until the caller reads it or gives
  up.  A connection lost before the store executed is a call that is never executed, one
  lost afterwards an answer that is never read.  Master puts its tickets without a call.

  Requests and answers are those of `StoreHandler.dispatch`; `RemoteStore.call_of_fits` is
  that a call over the wire is one dispatch.  `history` is not in the program: it is the
  record of all puts and takes, with who made them, that the results are stated with.

  * `Backend.Sound`: every entry of the store is the one its key stands for in the history,
    and a `Take` was answered with a value exactly if it is in the history.
  * `exec_cases`: what the execution of a call can do.
-/
import Netsrv.Lib.Custody
import Netsrv.Lib.Slots
import Netsrv.Store.RemoteStore
import Mathlib.Logic.Function.Basic

namespace Netsrv.System

open StoreWire StoreHandler RemoteStore Custody Custody.History

/-- Who reaches the store: a session, or a process that registers itself. -/
inductive Party where
  | master (sid : ℕ)
  | login (sid : ℕ)
  | world (sid : ℕ)
  | registrant
  deriving DecidableEq, Repr

/-- What the history keeps of a put. -/
structure Issue where
  origin : Party
  value : Bytes
  expiresAt : ℕ

structure Call where
  party : Party
  request : Decoded
  /-- When the store executed the request, and its answer. -/
  answer : Option (ℕ × Option Answer) := none

structure Backend where
  now : ℕ := 0
  store : SharedStore := .empty
  calls : ℕ → Option Call := fun _ => none
  history : History Bytes Issue ℕ := []

/-- The length of the frame a request goes in; only a `Put` has a value. -/
def requestLength (d : Decoded) : ℕ := d.key.length + d.value.length + 44

namespace Backend

/-! ## What happens to it -/

def tick (b : Backend) (d : ℕ) : Backend := { b with now := b.now + d }

/-- `sweep_loop`, at one instant. -/
def sweep (b : Backend) (it : List SharedStore.Cell) : Backend :=
  { b with store := (b.store.sweepExpired (fun _ => b.now) it).1 }

/-- A call sets out. -/
def issue (b : Backend) (cid : ℕ) (party : Party) (request : Decoded) : Backend :=
  { b with calls := Function.update b.calls cid (some { party, request }) }

def put (b : Backend) (origin : Party) (key value : Bytes) (ttl : ℕ) : Backend :=
  { b with
    store := b.store.put b.now key value ttl
    history := .put key { origin, value, expiresAt := b.now + seconds ttl } :: b.history }

/-- The history after a call: a `Put` is a put, a `Take` that finds something a take. -/
def recorded (b : Backend) (cid : ℕ) (c : Call) : History Bytes Issue ℕ :=
  match c.request.op with
  | .put => .put c.request.key
      { origin := c.party, value := c.request.value
        expiresAt := b.now + seconds c.request.ttlSeconds.toNat } :: b.history
  | .take =>
    match b.store.get b.now c.request.key, holds b.history c.request.key with
    | some _, some n => .took cid n :: b.history
    | _, _ => b.history
  | _ => b.history

/-- The store executes a call: once, and only if its frame is within the limit. -/
def exec (b : Backend) (cid : ℕ) (it : List SharedStore.Cell) : Option Backend :=
  match b.calls cid with
  | none => none
  | some c =>
    if c.answer.isSome ∨ requestLength c.request > kReadBufferBytes ∨ ¬ b.store.Walk it then none
    else
      let result := dispatch { now := b.now, it } b.store c.request
      some { b with
        store := result.1
        calls := Function.update b.calls cid (some { c with answer := some (b.now, result.2) })
        history := b.recorded cid c }

/-- What a caller that still waits for `cid` reads, once there is an answer to read. -/
def answerOf (b : Backend) (cid : ℕ) : Option Decoded :=
  (b.calls cid).bind fun c => c.answer.bind fun a => a.2.bind received

/-! ## Time, calls and the history only grow -/

/-- A call that was made stays made, with the answer it got. -/
structure Grows (b b' : Backend) : Prop where
  now : b.now ≤ b'.now
  history : b.history <:+ b'.history
  calls : ∀ cid c, b.calls cid = some c → ∃ c', b'.calls cid = some c' ∧ c'.party = c.party ∧
    c'.request = c.request ∧ ∀ a, c.answer = some a → c'.answer = some a

theorem Grows.refl (b : Backend) : Grows b b :=
  ⟨Nat.le_refl _, List.suffix_rfl, fun _ c hc => ⟨c, hc, rfl, rfl, fun _ h => h⟩⟩

theorem grows_tick (b : Backend) (d : ℕ) : Grows b (b.tick d) :=
  ⟨Nat.le_add_right _ _, List.suffix_rfl, fun _ c hc => ⟨c, hc, rfl, rfl, fun _ h => h⟩⟩

theorem grows_sweep (b : Backend) (it : List SharedStore.Cell) : Grows b (b.sweep it) :=
  ⟨Nat.le_refl _, List.suffix_rfl, fun _ c hc => ⟨c, hc, rfl, rfl, fun _ h => h⟩⟩

theorem grows_put (b : Backend) (origin : Party) (key value : Bytes) (ttl : ℕ) :
    Grows b (b.put origin key value ttl) :=
  ⟨Nat.le_refl _, List.suffix_cons _ _, fun _ c hc => ⟨c, hc, rfl, rfl, fun _ h => h⟩⟩

theorem grows_issue (b : Backend) {cid : ℕ} (hnew : b.calls cid = none) (party : Party)
    (request : Decoded) : Grows b (b.issue cid party request) := by
  refine ⟨Nat.le_refl _, List.suffix_rfl, fun cid' c hc => ⟨c, ?_, rfl, rfl, fun _ h => h⟩⟩
  have hne : cid' ≠ cid := by
    rintro rfl
    rw [hnew] at hc
    cases hc
  simp only [issue, Function.update_of_ne hne, hc]

theorem recorded_suffix (b : Backend) (cid : ℕ) (c : Call) : b.history <:+ b.recorded cid c := by
  unfold recorded
  split
  · exact List.suffix_cons _ _
  · split
    · exact List.suffix_cons _ _
    · exact List.suffix_rfl
  · exact List.suffix_rfl

/-- What the execution of a call can do: it was not executed before, it fits, and it leaves
    its answer; the store and the history change with its request. -/
theorem exec_cases {b b' : Backend} {cid : ℕ} {it : List SharedStore.Cell}
    (h : b.exec cid it = some b') :
    ∃ c a, b.calls cid = some c ∧ c.answer = none ∧
      requestLength c.request ≤ kReadBufferBytes ∧ b.store.Walk it ∧
      (dispatch { now := b.now, it } b.store c.request).2 = a ∧ b' =
        { now := b.now
          store := (dispatch { now := b.now, it } b.store c.request).1
          calls := Function.update b.calls cid (some { c with answer := some (b.now, a) })
          history := b.recorded cid c } := by
  unfold exec at h
  split at h
  · cases h
  · next c hc =>
    split at h
    · cases h
    · next hguard =>
      simp only [not_or, Option.isSome_iff_ne_none, not_not, Nat.not_lt] at hguard
      exact ⟨c, _, hc, hguard.1, hguard.2.1, hguard.2.2, rfl, (Option.some.inj h).symm⟩

theorem grows_exec {b b' : Backend} {cid : ℕ} {it : List SharedStore.Cell}
    (h : b.exec cid it = some b') : Grows b b' := by
  obtain ⟨c, a, hc, hnone, -, -, -, rfl⟩ := exec_cases h
  refine ⟨Nat.le_refl _, recorded_suffix b cid c, fun cid' c' hc' => ?_⟩
  by_cases hcid : cid' = cid
  · obtain rfl := hcid
    obtain rfl := Option.some.inj (hc.symm.trans hc')
    refine ⟨_, Function.update_self _ _ _, rfl, rfl, fun a' ha' => ?_⟩
    rw [hnone] at ha'
    cases ha'
  · exact ⟨c', by simp only [Function.update_of_ne hcid, hc'], rfl, rfl, fun _ h => h⟩

/-! ## The store and its history agree -/

/-- Every entry is the put its key stands for. -/
def Agrees (store : SharedStore) (h : History Bytes Issue ℕ) : Prop :=
  ∀ key e, store.find key = some e → ∃ n origin, holds h key = some n ∧
    History.issue h n = some (key, ⟨origin, e.value, e.expiresAt⟩)

theorem Agrees.put {store : SharedStore} {h : History Bytes Issue ℕ} (hag : Agrees store h)
    (now : ℕ) (origin : Party) (key value : Bytes) (ttl : ℕ) :
    Agrees (store.put now key value ttl)
      (.put key { origin, value, expiresAt := now + seconds ttl } :: h) := by
  intro k e hfind
  rw [SharedStore.find_put] at hfind
  by_cases hk : k = key
  · rw [if_pos hk] at hfind
    obtain rfl := Option.some.inj hfind
    refine ⟨count h, origin, by rw [holds, if_pos hk], ?_⟩
    rw [issue_put, hk]
  · rw [if_neg hk] at hfind
    obtain ⟨n, o, hn, hissue⟩ := hag k e hfind
    exact ⟨n, o, by rw [holds, if_neg hk, hn], issue_cons hissue _⟩

theorem Agrees.take {store : SharedStore} {h : History Bytes Issue ℕ} (hag : Agrees store h)
    {now : ℕ} {key : Bytes} (hlive : (store.get now key).isSome) {n : ℕ}
    (hn : holds h key = some n) (cid : ℕ) :
    Agrees (store.take now key).2 (.took cid n :: h) := by
  intro k e hfind
  rw [SharedStore.find_take] at hfind
  split at hfind
  · cases hfind
  · next hne =>
    have hk : k ≠ key := fun heq => hne ⟨heq, hlive⟩
    obtain ⟨m, o, hm, hissue⟩ := hag k e hfind
    refine ⟨m, o, ?_, issue_cons hissue _⟩
    -- another key stands for a put of its own
    have hmn : m ≠ n := by
      rintro rfl
      obtain ⟨a, ha⟩ := issue_of_holds hn
      rw [hissue] at ha
      exact hk (congrArg Prod.fst (Option.some.inj ha))
    rw [holds, if_neg fun heq => hmn (Option.some.inj (hm.symm.trans heq)), hm]

theorem Agrees.sweepExpired {store : SharedStore} {h : History Bytes Issue ℕ}
    (hag : Agrees store h) {it : List SharedStore.Cell} (hit : store.Walk it)
    (clk : Bytes → ℕ) : Agrees (store.sweepExpired clk it).1 h := by
  intro key e hfind
  rw [SharedStore.find_sweepExpired hit, Option.bind_eq_some_iff] at hfind
  obtain ⟨e', hfind, hlive⟩ := hfind
  split at hlive
  · obtain rfl := Option.some.inj hlive
    exact hag key e' hfind
  · cases hlive

/-- What a visible key stands for: a put that is not expired, with the value visible. -/
theorem Agrees.visible {store : SharedStore} {h : History Bytes Issue ℕ} (hag : Agrees store h)
    {now : ℕ} {key v : Bytes} (hget : store.get now key = some v) :
    ∃ n a, holds h key = some n ∧ History.issue h n = some (key, a) ∧ a.value = v ∧
      now < a.expiresAt := by
  rw [SharedStore.get_eq, Option.bind_eq_some_iff] at hget
  obtain ⟨e, hfind, hlive⟩ := hget
  split at hlive
  · next hlt =>
    obtain rfl := Option.some.inj hlive
    obtain ⟨n, o, hn, hissue⟩ := hag key e hfind
    exact ⟨n, _, hn, hissue, rfl, hlt⟩
  · cases hlive

/-! ## The invariant -/

/-- Call `cid` took put number `n`, and its answer was the value. -/
def TookFor (b : Backend) (cid n : ℕ) : Prop :=
  ∃ c t a, b.calls cid = some c ∧ c.request.op = .take ∧
    c.answer = some (t, some (.value a.value)) ∧
    History.issue b.history n = some (c.request.key, a) ∧ t < a.expiresAt

structure Sound (b : Backend) : Prop where
  valid : b.history.Valid
  agrees : Agrees b.store b.history
  bounded : Bounded b.store
  took : ∀ cid n, .took cid n ∈ b.history → TookFor b cid n
  answered : ∀ cid c t v, b.calls cid = some c → c.request.op = .take →
    c.answer = some (t, some (.value v)) → ∃ n, .took cid n ∈ b.history

theorem TookFor.grows {b b' : Backend} {cid n : ℕ} (h : TookFor b cid n) (hg : Grows b b') :
    TookFor b' cid n := by
  obtain ⟨c, t, a, hc, hop, hans, hissue, hlt⟩ := h
  obtain ⟨c', hc', -, hreq, hans'⟩ := hg.calls cid c hc
  refine ⟨c', t, a, hc', by rw [hreq, hop], hans' _ hans, ?_, hlt⟩
  rw [hreq]
  exact issue_of_suffix hg.history hissue

theorem sound_init : Sound {} where
  valid := .nil
  agrees := fun _ _ h => by cases h
  bounded := fun _ _ h => by cases h
  took := fun _ _ h => by cases h
  answered := fun _ _ _ _ h => by cases h

theorem Sound.tick {b : Backend} (h : Sound b) (d : ℕ) : Sound (b.tick d) :=
  { h with took := fun cid n ht => (h.took cid n ht).grows (grows_tick b d) }

theorem Sound.sweep {b : Backend} (h : Sound b) {it : List SharedStore.Cell}
    (hit : b.store.Walk it) : Sound (b.sweep it) :=
  { h with
    agrees := h.agrees.sweepExpired hit _
    bounded := h.bounded.sweepExpired hit _
    took := fun cid n ht => (h.took cid n ht).grows (grows_sweep b it) }

theorem Sound.issue {b : Backend} (h : Sound b) {cid : ℕ} (hnew : b.calls cid = none)
    (party : Party) (request : Decoded) : Sound (b.issue cid party request) :=
  { h with
    took := fun cid' n ht => (h.took cid' n ht).grows (grows_issue b hnew party request)
    answered := fun cid' c t v hc hop hans => by
      rcases Slots.update_cases hc with ⟨rfl, rfl⟩ | ⟨-, hc⟩
      · cases hans
      · exact h.answered cid' c t v hc hop hans }

theorem Sound.put {b : Backend} (h : Sound b) (origin : Party) {key value : Bytes}
    (hfit : key.length + value.length + 44 ≤ kReadBufferBytes) (ttl : ℕ) :
    Sound (b.put origin key value ttl) where
  valid := h.valid.put _ _
  agrees := h.agrees.put _ _ _ _ _
  bounded := h.bounded.put hfit _ _
  took := fun cid n ht => (h.took cid n ((List.mem_cons.mp ht).resolve_left (by simp))).grows
    (grows_put b origin key value ttl)
  answered := fun cid c t v hc hop hans =>
    (h.answered cid c t v hc hop hans).imp fun _ => List.mem_cons_of_mem _

/-- The three things a request can do: put, take what its key stands for, or nothing. -/
theorem Sound.effect {b : Backend} (h : Sound b) (cid : ℕ) (c : Call)
    (it : List SharedStore.Cell) :
    (c.request.op = .put ∧
      dispatch { now := b.now, it } b.store c.request =
        (b.store.put b.now c.request.key c.request.value c.request.ttlSeconds.toNat, some .ok) ∧
      b.recorded cid c = .put c.request.key
        { origin := c.party, value := c.request.value
          expiresAt := b.now + seconds c.request.ttlSeconds.toNat } :: b.history) ∨
    (c.request.op = .take ∧ (b.store.get b.now c.request.key).isSome ∧
      ∃ n a, holds b.history c.request.key = some n ∧
        History.issue b.history n = some (c.request.key, a) ∧ b.now < a.expiresAt ∧
        dispatch { now := b.now, it } b.store c.request =
          ((b.store.take b.now c.request.key).2, some (.value a.value)) ∧
        b.recorded cid c = .took cid n :: b.history) ∨
    (c.request.op ≠ .put ∧ (dispatch { now := b.now, it } b.store c.request).1 = b.store ∧
      b.recorded cid c = b.history ∧
      (c.request.op = .take →
        (dispatch { now := b.now, it } b.store c.request).2 = some .notFound)) := by
  cases hop : c.request.op with
  | put => exact Or.inl ⟨rfl, by rw [dispatch, hop], by rw [recorded, hop]⟩
  | take =>
    cases hget : b.store.get b.now c.request.key with
    | none =>
      refine Or.inr (Or.inr ⟨by decide, ?_, by rw [recorded, hop, hget], fun _ => ?_⟩)
      · rw [dispatch, hop, SharedStore.take_eq, hget]
        rfl
      · rw [dispatch, hop, SharedStore.take_eq, hget]
        rfl
    | some v =>
      obtain ⟨n, a, hn, hissue, rfl, hlt⟩ := h.agrees.visible hget
      refine Or.inr (Or.inl ⟨rfl, rfl, n, a, hn, hissue, hlt, ?_, by rw [recorded, hop, hget, hn]⟩)
      rw [dispatch, hop, SharedStore.take_eq, hget]
      rfl
  | get | listPrefix | ok | value | notFound | err | list =>
    exact Or.inr (Or.inr ⟨by decide, by rw [dispatch, hop], by rw [recorded, hop],
      fun h => absurd h (by decide)⟩)

theorem Sound.exec {b b' : Backend} (h : Sound b) {cid : ℕ} {it : List SharedStore.Cell}
    (hexec : b.exec cid it = some b') : Sound b' := by
  have hgrows := grows_exec hexec
  obtain ⟨c, a, hc, hnone, hfit, -, ha, rfl⟩ := exec_cases hexec
  -- whoever took before has an answer, so it is not this call
  have hfresh : cid ∉ takers b.history := by
    intro hmem
    obtain ⟨e, he, hcid⟩ := List.mem_filterMap.mp hmem
    cases e with
    | put k x => cases hcid
    | took cid' n =>
      obtain rfl := Option.some.inj hcid
      obtain ⟨c', t, x, hc', -, hans, -⟩ := h.took _ n he
      obtain rfl := Option.some.inj (hc.symm.trans hc')
      rw [hnone] at hans
      cases hans
  rcases h.effect cid c it with ⟨hop, hdispatch, hrec⟩ |
    ⟨hop, hlive, n, x, hn, hissue, hlt, hdispatch, hrec⟩ | ⟨-, hstore, hrec, hnot⟩
  · rw [hdispatch] at ha hgrows ⊢
    obtain rfl := ha
    rw [hrec] at hgrows ⊢
    refine ⟨h.valid.put _ _, h.agrees.put _ _ _ _ _, h.bounded.put hfit _ _, fun cid' n ht => ?_,
      fun cid' c' t v hc' hop' hans => ?_⟩
    · exact (h.took cid' n ((List.mem_cons.mp ht).resolve_left (by simp))).grows hgrows
    · rcases Slots.update_cases hc' with ⟨-, rfl⟩ | ⟨-, hc'⟩
      · rw [hop] at hop'
        cases hop'
      · exact (h.answered cid' c' t v hc' hop' hans).imp fun _ => List.mem_cons_of_mem _
  · rw [hdispatch] at ha hgrows ⊢
    obtain rfl := ha
    rw [hrec] at hgrows ⊢
    refine ⟨h.valid.took hn hfresh, h.agrees.take hlive hn cid, h.bounded.take _ _,
      fun cid' m ht => ?_, fun cid' c' t v hc' hop' hans => ?_⟩
    · rcases List.mem_cons.mp ht with heq | ht
      · obtain ⟨rfl, rfl⟩ := Event.took.inj heq
        exact ⟨_, b.now, x, Function.update_self _ _ _, hop, rfl, issue_cons hissue _, hlt⟩
      · exact (h.took cid' m ht).grows hgrows
    · rcases Slots.update_cases hc' with ⟨rfl, -⟩ | ⟨-, hc'⟩
      · exact ⟨n, List.mem_cons_self⟩
      · exact (h.answered cid' c' t v hc' hop' hans).imp fun _ => List.mem_cons_of_mem _
  · rw [hstore]
    rw [hrec] at hgrows ⊢
    rw [hstore] at hgrows
    refine ⟨h.valid, h.agrees, h.bounded, fun cid' n ht => (h.took cid' n ht).grows hgrows,
      fun cid' c' t v hc' hop' hans => ?_⟩
    rcases Slots.update_cases hc' with ⟨-, rfl⟩ | ⟨-, hc'⟩
    · rw [← ha, hnot hop'] at hans
      cases hans
    · exact h.answered cid' c' t v hc' hop' hans

/-- A caller that reads a value took it. -/
theorem Sound.took_of_answer {b : Backend} (h : Sound b) {cid : ℕ} {c : Call} {v : Bytes}
    (hc : b.calls cid = some c) (hop : c.request.op = .take)
    (hfound : StoreClient.getOrTakeResult (b.answerOf cid) = some v) :
    ∃ n, .took cid n ∈ b.history ∧ TookFor b cid n ∧
      ∃ t, c.answer = some (t, some (.value v)) := by
  rw [answerOf, hc, Option.bind_some] at hfound
  cases hans : c.answer with
  | none =>
    rw [hans] at hfound
    cases hfound
  | some ta =>
    obtain ⟨t, a⟩ := ta
    rw [hans, Option.bind_some] at hfound
    -- only a value is read as one
    have hv : a = some (.value v) := by
      cases a with
      | none => cases hfound
      | some a =>
        cases a with
        | value w => exact congrArg (fun w => some (Answer.value w)) (Option.some.inj hfound)
        | ok => cases hfound
        | notFound => cases hfound
        | list es =>
          rw [Option.bind_some, received] at hfound
          split at hfound <;> cases hfound
    subst hv
    obtain ⟨n, hn⟩ := h.answered cid c t v hc hop hans
    exact ⟨n, hn, h.took cid n hn, t, rfl⟩

end Backend

end Netsrv.System
