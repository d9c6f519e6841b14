/-
  One thread that runs coroutines from a queue of handlers.

  Each coroutine is at a point of a script and waits for the operation of that point: on its
  own socket, or a foreign one that another thread completes.  A completed operation queues
  the coroutine; the thread runs what is at the head of the queue up to the next wait.  To
  close all sockets is a handler too: it interrupts operations on the coroutines' own
  sockets, and no foreign ones.  A socket that is not open yet is not closed by it.

  * `Tidy`: the queue and the coroutines agree.
  * `Stops`: the sockets will all be closed, or are, but for coroutines at their first point.
  * `progress`: a loop that stops, with no coroutine that waits for a foreign operation, can
    run on or is done.
-/
import Netsrv.Lib.Slots
import Mathlib.Data.List.Perm.Basic
import Mathlib.Data.List.Range
import Mathlib.Data.List.Nodup

namespace EventLoop

/-- What an operation is on: the own socket, to be found by others, to read with a time limit
    or to send; or foreign. -/
inductive Kind where
  | listen | read | send | foreign
  deriving DecidableEq, Repr

structure Script (P : Type) where
  kind : P → Kind
  /-- Where a coroutine can go after the operation.  The flag closes its own socket first; at a
      point that accepts it refuses what arrived instead. -/
  next : P → List (P × Bool)
  /-- What arrives at this point becomes a coroutine. -/
  accepts : P → Bool
  /-- A failed operation makes the coroutine close its socket. -/
  closes : P → Bool
  /-- An exception can end the coroutine after this operation. -/
  throws : P → Bool
  /-- Where a coroutine that was accepted starts. -/
  first : P
  next_ne_nil : ∀ p, next p ≠ []
  kind_of_accepts : ∀ p, accepts p = true → kind p = .listen
  kind_first : kind first = .read
  next_first : ∀ x ∈ next first, kind x.1 = .foreign ∨ x.2 = true

inductive Status where
  | fresh | waiting | queued | finished
  deriving DecidableEq, Repr

structure Coroutine (P : Type) where
  point : P
  status : Status
  closed : Bool := false
  deriving DecidableEq, Repr

/-- A handler in the queue. -/
inductive Item where
  | closeAll
  | begin (i : ℕ)
  | resume (i : ℕ) (ok : Bool)
  deriving DecidableEq, Repr

/-- The coroutine that a handler runs. -/
def Item.index? : Item → Option ℕ
  | closeAll => none
  | begin i | resume i _ => some i

structure Loop (P : Type) where
  queue : List Item := []
  cos : List (Coroutine P) := []
  deriving DecidableEq, Repr

inductive Act (P : Type) where
  | begin
  | resume (next : Option (P × Bool))
  | close (order : List ℕ)
  /-- The time limit of a read is over. -/
  | idle (i : ℕ)
  | arrive (i : ℕ)
  | fail (i : ℕ)
  /-- A foreign operation completes. -/
  | answer (i : ℕ)

/-- The thread does these by itself. -/
def Act.own {P : Type} : Act P → Bool
  | begin | resume _ | close _ | idle _ => true
  | arrive _ | fail _ | answer _ => false

/-- A foreign operation completes. -/
def Act.answers {P : Type} : Act P → Bool
  | answer _ => true
  | _ => false

variable {P : Type}

/-- What closing its socket does to a coroutine. -/
def Coroutine.close (S : Script P) (c : Coroutine P) : Coroutine P :=
  if c.status = .fresh ∧ S.kind c.point = .listen then c
  else if c.status = .waiting ∧ S.kind c.point ≠ .foreign then
    { c with status := .queued, closed := true }
  else { c with closed := true }

@[simp] theorem Coroutine.point_close (S : Script P) (c : Coroutine P) :
    (c.close S).point = c.point := by
  unfold close
  split
  · rfl
  · split <;> rfl

theorem Coroutine.status_close (S : Script P) (c : Coroutine P) : (c.close S).status =
    if c.status = .waiting ∧ S.kind c.point ≠ .foreign then .queued else c.status := by
  unfold close
  split
  · next h => rw [h.1, if_neg (by simp)]
  · split <;> rfl

theorem Coroutine.closed_close (S : Script P) {c : Coroutine P}
    (h : ¬(c.status = .fresh ∧ S.kind c.point = .listen)) : (c.close S).closed = true := by
  unfold close
  rw [if_neg h]
  split <;> rfl

/-- The operation of coroutine `i` is one that closing its socket interrupts. -/
def Loop.interrupts (S : Script P) (l : Loop P) (i : ℕ) : Bool :=
  (l.cos[i]?).any fun c => decide (c.status = .waiting ∧ S.kind c.point ≠ .foreign)

namespace Loop

/-- Coroutine `i` gets to the operation of its point, which fails at once on a closed socket. -/
def wait (S : Script P) (l : Loop P) (i : ℕ) (c : Coroutine P) : Loop P :=
  if c.closed = true ∧ S.kind c.point ≠ .foreign then
    { cos := l.cos.set i { c with status := .queued }, queue := l.queue ++ [.resume i false] }
  else { l with cos := l.cos.set i { c with status := .waiting } }

def finish (l : Loop P) (i : ℕ) (c : Coroutine P) : Loop P :=
  { l with cos := l.cos.set i { c with status := .finished, closed := true } }

/-- A new coroutine, at its first point. -/
def spawn (S : Script P) (l : Loop P) : Loop P :=
  { cos := l.cos ++ [{ point := S.first, status := .fresh }]
    queue := l.queue ++ [.begin l.cos.length] }

/-- To close all sockets is put into the queue. -/
def closeLater (l : Loop P) : Loop P := { l with queue := l.queue ++ [.closeAll] }

/-- An operation of one of these kinds completes. -/
def complete (S : Script P) (l : Loop P) (i : ℕ) (ok : Bool) (kinds : List Kind) :
    Option (Loop P) :=
  match l.cos[i]? with
  | none => none
  | some c =>
    if c.status = .waiting ∧ S.kind c.point ∈ kinds then
      some { cos := l.cos.set i { c with status := .queued }, queue := l.queue ++ [.resume i ok] }
    else none

section Step

variable [DecidableEq P]

/-- Coroutine `i` runs after its operation: to the next one, or to its end, which is where it
    goes when it could not listen or read. -/
def resumed (S : Script P) (l : Loop P) (i : ℕ) (c : Coroutine P) (ok : Bool) :
    Option (P × Bool) → Option (Loop P)
  | none =>
    if (ok = false ∧ (S.kind c.point = .listen ∨ S.kind c.point = .read)) ∨
        S.throws c.point = true then
      some (l.finish i c)
    else none
  | some x =>
    if x ∉ S.next c.point ∨
        (ok = false ∧ (S.kind c.point = .listen ∨ S.kind c.point = .read)) then none
    else if S.accepts c.point then
      some ((if x.2 then l else l.spawn S).wait S i { c with point := x.1 })
    else
      some (l.wait S i
        { c with point := x.1, closed := c.closed || x.2 || (!ok && S.closes c.point) })

def step (S : Script P) (l : Loop P) : Act P → Option (Loop P)
  | .begin =>
    match l.queue with
    | .begin i :: q => (l.cos[i]?).map fun c => wait S { l with queue := q } i c
    | _ => none
  | .resume next =>
    match l.queue with
    | .resume i ok :: q => (l.cos[i]?).bind fun c => resumed S { l with queue := q } i c ok next
    | _ => none
  | .close order =>
    match l.queue with
    | .closeAll :: q =>
      if order.Perm (List.range l.cos.length) then
        some { cos := l.cos.map (Coroutine.close S)
               queue := q ++ (order.filter (l.interrupts S)).map (Item.resume · false) }
      else none
    | _ => none
  | .idle i => l.complete S i false [.read]
  | .arrive i => l.complete S i true [.listen, .read, .send]
  | .fail i => l.complete S i false [.listen, .read, .send]
  | .answer i => l.complete S i true [.foreign]

end Step

/-! ## Queue and coroutines -/

/-- The coroutines that the queue will run. -/
def pending (l : Loop P) : List ℕ := l.queue.filterMap Item.index?

/-- The queue and the coroutines agree, but for coroutine `k`, which is in hand. -/
structure TidyBut (S : Script P) (k : Option ℕ) (l : Loop P) : Prop where
  nodup : l.pending.Nodup
  free : ∀ i, k = some i → i ∉ l.pending
  pending : ∀ i ∈ l.pending, ∃ c, l.cos[i]? = some c ∧ c.status ≠ .waiting
  fresh : ∀ i c, some i ≠ k → l.cos[i]? = some c → c.status = .fresh → .begin i ∈ l.queue
  begins : ∀ i c, .begin i ∈ l.queue → l.cos[i]? = some c → S.kind c.point ≠ .foreign
  queued : ∀ i c, some i ≠ k → l.cos[i]? = some c → c.status = .queued →
    ∃ ok, .resume i ok ∈ l.queue
  closed : ∀ i c, some i ≠ k → l.cos[i]? = some c → c.closed = true → c.status = .waiting →
    S.kind c.point = .foreign

abbrev Tidy (S : Script P) (l : Loop P) : Prop := TidyBut S none l

variable {S : Script P} {l : Loop P} {k : Option ℕ} {i : ℕ} {c : Coroutine P}

theorem mem_pending_of_begin (h : .begin i ∈ l.queue) : i ∈ l.pending :=
  List.mem_filterMap.mpr ⟨_, h, rfl⟩

theorem pending_append (l : Loop P) (cos : List (Coroutine P)) (items : List Item) :
    pending { cos, queue := l.queue ++ items } = l.pending ++ items.filterMap Item.index? :=
  List.filterMap_append

/-- Taking a handler off the queue takes its coroutine in hand. -/
theorem TidyBut.pop (h : Tidy S l) {x : Item} {q : List Item} (hq : l.queue = x :: q)
    (hx : x.index? = some i) : TidyBut S (some i) { l with queue := q } := by
  have hpending : l.pending = i :: q.filterMap Item.index? := by
    rw [Loop.pending, hq, List.filterMap_cons_some hx]
  have hnodup := h.nodup
  rw [hpending, List.nodup_cons] at hnodup
  have hother {y : Item} {j : ℕ} (hy : y.index? = some j) (hj : some j ≠ some i)
      (hmem : y ∈ l.queue) : y ∈ q := by
    rw [hq, List.mem_cons] at hmem
    refine hmem.resolve_left fun heq => hj ?_
    rw [← hy, heq, hx]
  refine ⟨hnodup.2, fun j hj => ?_, fun j hj => h.pending j ?_,
    fun j c hj hc hs => hother rfl hj (h.fresh j c nofun hc hs),
    fun j c hj => h.begins j c (hq ▸ List.mem_cons_of_mem _ hj), fun j c hj hc hs => ?_,
    fun j c _ hc => h.closed j c nofun hc⟩
  · obtain rfl := Option.some.inj hj
    exact hnodup.1
  · rw [hpending]
    exact List.mem_cons_of_mem _ hj
  · obtain ⟨ok, hresume⟩ := h.queued j c nofun hc hs
    exact ⟨ok, hother rfl hj hresume⟩

/-- A coroutine that waits can be taken in hand. -/
theorem TidyBut.of_waiting (h : Tidy S l) (hc : l.cos[i]? = some c) (hs : c.status = .waiting) :
    TidyBut S (some i) l := by
  refine ⟨h.nodup, fun j hj hmem => ?_, h.pending, fun j c _ => h.fresh j c nofun,
    h.begins, fun j c _ => h.queued j c nofun, fun j c _ => h.closed j c nofun⟩
  obtain rfl := Option.some.inj hj
  obtain ⟨c', hc', hne⟩ := h.pending i hmem
  obtain rfl : c = c' := Option.some.inj (hc.symm.trans hc')
  exact hne hs

/-- The coroutine in hand is put down, to wait or at its end. -/
theorem TidyBut.put (h : TidyBut S (some i) l) (hs : c.status = .waiting ∨ c.status = .finished)
    (hclosed : c.closed = true → c.status = .waiting → S.kind c.point = .foreign) :
    Tidy S { l with cos := l.cos.set i c } := by
  have hne {j : ℕ} (hj : j ≠ i) : some j ≠ some i := fun heq => hj (Option.some.inj heq)
  refine ⟨h.nodup, nofun, fun j hj => ?_, fun j c' _ hc hf => ?_, fun j c' hj hc => ?_,
    fun j c' _ hc hf => ?_, fun j c' _ hc => ?_⟩
  · have hji : j ≠ i := fun heq => h.free i rfl (heq ▸ hj)
    obtain ⟨c', hc', hs'⟩ := h.pending j hj
    exact ⟨c', (List.getElem?_set_ne (Ne.symm hji)).trans hc', hs'⟩
  · rcases Slots.set_cases hc with ⟨rfl, rfl⟩ | ⟨hji, hc⟩
    · rw [hf] at hs
      rcases hs with hs | hs <;> cases hs
    · exact h.fresh j c' (hne hji) hc hf
  · rcases Slots.set_cases hc with ⟨rfl, rfl⟩ | ⟨-, hc⟩
    · exact absurd (mem_pending_of_begin hj) (h.free _ rfl)
    · exact h.begins j c' hj hc
  · rcases Slots.set_cases hc with ⟨rfl, rfl⟩ | ⟨hji, hc⟩
    · rw [hf] at hs
      rcases hs with hs | hs <;> cases hs
    · exact h.queued j c' (hne hji) hc hf
  · rcases Slots.set_cases hc with ⟨rfl, rfl⟩ | ⟨hji, hc⟩
    · exact hclosed
    · exact h.closed j c' (hne hji) hc

/-- The coroutine in hand is put into the queue. -/
theorem TidyBut.putQueued (h : TidyBut S (some i) l) (hi : i < l.cos.length)
    (hs : c.status = .queued) (ok : Bool) :
    Tidy S { cos := l.cos.set i c, queue := l.queue ++ [.resume i ok] } := by
  have hne {j : ℕ} (hj : j ≠ i) : some j ≠ some i := fun heq => hj (Option.some.inj heq)
  have hpending := pending_append l (l.cos.set i c) [.resume i ok]
  have hbegin {j : ℕ} (hj : Item.begin j ∈ l.queue ++ [Item.resume i ok]) :
      .begin j ∈ l.queue := by simpa using hj
  refine ⟨?_, nofun, fun j hj => ?_, fun j c' _ hc hf => ?_, fun j c' hj hc => ?_,
    fun j c' _ hc hf => ?_, fun j c' _ hc hcl hw => ?_⟩
  · rw [hpending]
    exact List.nodup_append.mpr ⟨h.nodup, List.nodup_singleton i, fun a ha b hb hab =>
      h.free i rfl (List.mem_singleton.mp hb ▸ hab ▸ ha)⟩
  · rw [hpending, List.mem_append] at hj
    rcases hj with hj | hj
    · have hji : j ≠ i := fun heq => h.free i rfl (heq ▸ hj)
      obtain ⟨c', hc', hs'⟩ := h.pending j hj
      exact ⟨c', (List.getElem?_set_ne (Ne.symm hji)).trans hc', hs'⟩
    · obtain rfl : j = i := List.mem_singleton.mp hj
      exact ⟨c, List.getElem?_set_self hi, by rw [hs]; exact nofun⟩
  · rcases Slots.set_cases hc with ⟨rfl, rfl⟩ | ⟨hji, hc⟩
    · rw [hs] at hf
      cases hf
    · exact List.mem_append_left _ (h.fresh j c' (hne hji) hc hf)
  · rcases Slots.set_cases hc with ⟨rfl, rfl⟩ | ⟨-, hc⟩
    · exact absurd (mem_pending_of_begin (hbegin hj)) (h.free _ rfl)
    · exact h.begins j c' (hbegin hj) hc
  · rcases Slots.set_cases hc with ⟨rfl, rfl⟩ | ⟨hji, hc⟩
    · exact ⟨ok, List.mem_append_right _ (List.mem_singleton_self _)⟩
    · obtain ⟨ok', hresume⟩ := h.queued j c' (hne hji) hc hf
      exact ⟨ok', List.mem_append_left _ hresume⟩
  · rcases Slots.set_cases hc with ⟨rfl, rfl⟩ | ⟨hji, hc⟩
    · rw [hs] at hw
      cases hw
    · exact h.closed j c' (hne hji) hc hcl hw

theorem TidyBut.wait (h : TidyBut S (some i) l) (hi : i < l.cos.length) (c : Coroutine P) :
    Tidy S (l.wait S i c) := by
  unfold Loop.wait
  split
  · exact h.putQueued hi rfl false
  · next hopen =>
    refine h.put (Or.inl rfl) fun hcl _ => ?_
    by_contra hkind
    exact hopen ⟨hcl, hkind⟩

/-- A coroutine after a spawn was there before it, or is the new one. -/
theorem getElem?_spawn {j : ℕ} {c' : Coroutine P} (h : (l.spawn S).cos[j]? = some c') :
    l.cos[j]? = some c' ∨ (j = l.cos.length ∧ c' = { point := S.first, status := .fresh }) := by
  exact Slots.concat_cases h

theorem TidyBut.spawn (h : TidyBut S (some i) l) (hi : i < l.cos.length) :
    TidyBut S (some i) (l.spawn S) := by
  have hpending := pending_append l (l.cos ++ [{ point := S.first, status := .fresh }])
    [.begin l.cos.length]
  refine ⟨?_, fun j hj hmem => ?_, fun j hj => ?_, fun j c hj hc hf => ?_, fun j c hj hc => ?_,
    fun j c hj hc hf => ?_, fun j c hj hc hcl hw => ?_⟩
  · rw [Loop.spawn, hpending]
    refine List.nodup_append.mpr ⟨h.nodup, List.nodup_singleton _, fun a ha b hb hab => ?_⟩
    obtain ⟨c, hc, -⟩ := h.pending a ha
    obtain rfl : b = l.cos.length := List.mem_singleton.mp hb
    rw [hab, List.getElem?_length] at hc
    cases hc
  · obtain rfl := Option.some.inj hj
    rw [Loop.spawn, hpending, List.mem_append] at hmem
    rcases hmem with hmem | hmem
    · exact h.free i rfl hmem
    · exact absurd (List.mem_singleton.mp hmem) (Nat.ne_of_lt hi)
  · rw [Loop.spawn, hpending, List.mem_append] at hj
    rcases hj with hj | hj
    · obtain ⟨c, hc, hs⟩ := h.pending j hj
      refine ⟨c, ?_, hs⟩
      rw [Loop.spawn, List.getElem?_append_left (List.getElem?_eq_some_iff.mp hc).1, hc]
    · obtain rfl : j = l.cos.length := List.mem_singleton.mp hj
      exact ⟨_, List.getElem?_concat_length, nofun⟩
  · rcases getElem?_spawn hc with hc | ⟨rfl, rfl⟩
    · exact List.mem_append_left _ (h.fresh j c hj hc hf)
    · exact List.mem_append_right _ (List.mem_singleton_self _)
  · rcases getElem?_spawn hc with hc | ⟨rfl, rfl⟩
    · rcases List.mem_append.mp hj with hj | hj
      · exact h.begins j c hj hc
      · obtain rfl := Item.begin.inj (List.mem_singleton.mp hj)
        rw [List.getElem?_length] at hc
        cases hc
    · rw [S.kind_first]
      exact nofun
  · rcases getElem?_spawn hc with hc | ⟨rfl, rfl⟩
    · obtain ⟨ok, hresume⟩ := h.queued j c hj hc hf
      exact ⟨ok, List.mem_append_left _ hresume⟩
    · cases hf
  · rcases getElem?_spawn hc with hc | ⟨rfl, rfl⟩
    · exact h.closed j c hj hc hcl hw
    · cases hw

theorem TidyBut.closeLater (h : Tidy S l) : Tidy S l.closeLater := by
  have hpending : l.closeLater.pending = l.pending := by
    rw [Loop.closeLater, pending_append]
    exact List.append_nil _
  refine ⟨hpending ▸ h.nodup, nofun, fun i hi => h.pending i (hpending ▸ hi),
    fun i c _ hc hf => List.mem_append_left _ (h.fresh i c nofun hc hf), fun i c hi => ?_,
    fun i c _ hc hq => ?_, fun i c _ => h.closed i c nofun⟩
  · exact h.begins i c (by simpa [Loop.closeLater] using hi)
  · obtain ⟨ok, hresume⟩ := h.queued i c nofun hc hq
    exact ⟨ok, List.mem_append_left _ hresume⟩

/-- A loop before its first step: at most the closing is in its queue. -/
theorem tidy_launch (hqueue : l.queue.filterMap Item.index? = []) {p : P}
    (hp : S.kind p ≠ .foreign) :
    Tidy S { cos := [{ point := p, status := .fresh }], queue := l.queue ++ [.begin 0] } := by
  have hone {i : ℕ} {c : Coroutine P}
      (hc : [({ point := p, status := .fresh } : Coroutine P)][i]? = some c) :
      i = 0 ∧ c = { point := p, status := .fresh } := by
    rw [List.getElem?_singleton] at hc
    split at hc
    · next hi => exact ⟨hi, (Option.some.inj hc).symm⟩
    · cases hc
  have hpending : Loop.pending
      { cos := [{ point := p, status := .fresh }], queue := l.queue ++ [.begin 0] } = [0] := by
    rw [pending_append, Loop.pending, hqueue]
    rfl
  refine ⟨hpending ▸ List.nodup_singleton 0, nofun, fun i hi => ?_, fun i c _ hc _ => ?_,
    fun i c _ hc => ?_, fun i c _ hc hq => ?_, fun i c _ hc _ hw => ?_⟩
  · rw [hpending] at hi
    obtain rfl := List.mem_singleton.mp hi
    exact ⟨_, rfl, nofun⟩
  · obtain ⟨rfl, rfl⟩ := hone hc
    exact List.mem_append_right _ (List.mem_singleton_self _)
  · obtain ⟨rfl, rfl⟩ := hone hc
    exact hp
  · obtain ⟨rfl, rfl⟩ := hone hc
    cases hq
  · obtain ⟨rfl, rfl⟩ := hone hc
    cases hw

/-! ## What a step can do -/

variable [DecidableEq P]

inductive Does (S : Script P) (l : Loop P) : Act P → Loop P → Prop
  | begins {i : ℕ} {q : List Item} {c : Coroutine P} : l.queue = .begin i :: q →
      l.cos[i]? = some c → Does S l .begin (wait S { l with queue := q } i c)
  | ends {i : ℕ} {ok : Bool} {q : List Item} {c : Coroutine P} : l.queue = .resume i ok :: q →
      l.cos[i]? = some c → Does S l (.resume none) (finish { l with queue := q } i c)
  | accepts {i : ℕ} {q : List Item} {c : Coroutine P} {x : P × Bool} :
      l.queue = .resume i true :: q → l.cos[i]? = some c → x ∈ S.next c.point →
      S.accepts c.point = true →
      Does S l (.resume (some x))
        ((if x.2 then { l with queue := q } else spawn S { l with queue := q }).wait S i
          { c with point := x.1 })
  | goes {i : ℕ} {ok : Bool} {q : List Item} {c : Coroutine P} {x : P × Bool} :
      l.queue = .resume i ok :: q → l.cos[i]? = some c → x ∈ S.next c.point →
      Does S l (.resume (some x))
        (wait S { l with queue := q } i
          { c with point := x.1, closed := c.closed || x.2 || (!ok && S.closes c.point) })
  | closes {order : List ℕ} {q : List Item} : l.queue = .closeAll :: q →
      order.Perm (List.range l.cos.length) →
      Does S l (.close order)
        { cos := l.cos.map (Coroutine.close S)
          queue := q ++ (order.filter (l.interrupts S)).map (Item.resume · false) }
  | completes {a : Act P} {i : ℕ} {c : Coroutine P} (ok : Bool) : l.cos[i]? = some c →
      c.status = .waiting →
      (a = .answer i ∨ S.kind c.point ≠ .foreign) →
      Does S l a { cos := l.cos.set i { c with status := .queued }
                   queue := l.queue ++ [.resume i ok] }

variable {l' : Loop P} {a : Act P}

omit [DecidableEq P] in
theorem complete_eq_some {ok : Bool} {kinds : List Kind}
    (h : l.complete S i ok kinds = some l') :
    ∃ c, l.cos[i]? = some c ∧ c.status = .waiting ∧ S.kind c.point ∈ kinds ∧
      l' = { cos := l.cos.set i { c with status := .queued }
             queue := l.queue ++ [.resume i ok] } := by
  unfold complete at h
  split at h
  · cases h
  · next c hc =>
    split at h
    · next hw => exact ⟨c, hc, hw.1, hw.2, (Option.some.inj h).symm⟩
    · cases h

theorem step_cases (h : l.step S a = some l') : Does S l a l' := by
  cases a with
  | begin =>
    rw [step] at h
    split at h
    · next hq =>
      obtain ⟨c, hc, rfl⟩ := Option.map_eq_some_iff.mp h
      exact .begins hq hc
    · cases h
  | resume next =>
    rw [step] at h
    split at h
    · next i ok q hq =>
      obtain ⟨c, hc, h⟩ := Option.bind_eq_some_iff.mp h
      cases next with
      | none =>
        rw [resumed] at h
        split at h
        · obtain rfl := Option.some.inj h
          exact .ends hq hc
        · cases h
      | some x =>
        rw [resumed] at h
        split at h
        · cases h
        · next hx =>
          simp only [not_or, not_not] at hx
          split at h
          · next haccepts =>
            obtain rfl := Option.some.inj h
            have hok : ok = true := by
              by_contra hok
              exact hx.2 ⟨eq_false_of_ne_true hok, Or.inl (S.kind_of_accepts _ haccepts)⟩
            exact .accepts (hok ▸ hq) hc hx.1 haccepts
          · obtain rfl := Option.some.inj h
            exact .goes hq hc hx.1
    · cases h
  | close order =>
    rw [step] at h
    split at h
    · next q hq =>
      split at h
      · next hperm =>
        obtain rfl := Option.some.inj h
        exact .closes hq hperm
      · cases h
    · cases h
  | idle i =>
    obtain ⟨c, hc, hw, hkind, rfl⟩ := complete_eq_some h
    exact .completes _ hc hw (Or.inr fun hf => by rw [hf] at hkind; simp at hkind)
  | arrive i =>
    obtain ⟨c, hc, hw, hkind, rfl⟩ := complete_eq_some h
    exact .completes _ hc hw (Or.inr fun hf => by rw [hf] at hkind; simp at hkind)
  | fail i =>
    obtain ⟨c, hc, hw, hkind, rfl⟩ := complete_eq_some h
    exact .completes _ hc hw (Or.inr fun hf => by rw [hf] at hkind; simp at hkind)
  | answer i =>
    obtain ⟨c, hc, hw, -, rfl⟩ := complete_eq_some h
    exact .completes _ hc hw (Or.inl rfl)

/-! ## The queue stays in order -/

omit [DecidableEq P] in
theorem tidy_closeAll (h : Tidy S l) {q : List Item} (hq : l.queue = .closeAll :: q)
    {order : List ℕ} (horder : order.Perm (List.range l.cos.length)) :
    Tidy S { cos := l.cos.map (Coroutine.close S)
             queue := q ++ (order.filter (l.interrupts S)).map (Item.resume · false) } := by
  have hresumed : ((order.filter (l.interrupts S)).map (Item.resume · false)).filterMap
      Item.index? = order.filter (l.interrupts S) := by
    rw [List.filterMap_map]
    exact List.filterMap_some
  have hpending : Loop.pending
      { cos := l.cos.map (Coroutine.close S)
        queue := q ++ (order.filter (l.interrupts S)).map (Item.resume · false) } =
      l.pending ++ order.filter (l.interrupts S) := by
    rw [Loop.pending, List.filterMap_append, hresumed, Loop.pending, hq]
    rfl
  have hinterrupts {i : ℕ} : i ∈ order.filter (l.interrupts S) ↔ ∃ c, l.cos[i]? = some c ∧
      c.status = .waiting ∧ S.kind c.point ≠ .foreign := by
    rw [List.mem_filter, horder.mem_iff, List.mem_range, Loop.interrupts]
    constructor
    · rintro ⟨-, hany⟩
      obtain ⟨c, hc, hw⟩ := (Option.any_eq_true _ _).mp hany
      exact ⟨c, hc, of_decide_eq_true hw⟩
    · rintro ⟨c, hc, hw⟩
      exact ⟨(List.getElem?_eq_some_iff.mp hc).1, by rw [hc]; exact decide_eq_true hw⟩
  have hget {i : ℕ} {c : Coroutine P} (hc : (l.cos.map (Coroutine.close S))[i]? = some c) :
      ∃ c₀, l.cos[i]? = some c₀ ∧ c₀.close S = c := by
    rw [List.getElem?_map] at hc
    exact Option.map_eq_some_iff.mp hc
  have htail {x : Item} (hx : x ∈ l.queue) (hne : x ≠ .closeAll) : x ∈ q := by
    rw [hq, List.mem_cons] at hx
    exact hx.resolve_left hne
  refine ⟨?_, nofun, fun i hi => ?_, fun i c _ hc hf => ?_, fun i c hi hc => ?_,
    fun i c _ hc hf => ?_, fun i c _ hc _ hw => ?_⟩
  · rw [hpending]
    refine List.nodup_append.mpr ⟨h.nodup, ?_, fun i hi j hj hij => ?_⟩
    · exact (horder.nodup_iff.mpr List.nodup_range).filter _
    · obtain ⟨c, hc, hne⟩ := h.pending i hi
      obtain ⟨c', hc', hw, -⟩ := hinterrupts.mp hj
      obtain rfl : c = c' := Option.some.inj (hc.symm.trans (hij ▸ hc'))
      exact hne hw
  · rw [hpending, List.mem_append] at hi
    rcases hi with hi | hi
    · obtain ⟨c, hc, hne⟩ := h.pending i hi
      refine ⟨c.close S, by rw [List.getElem?_map, hc]; rfl, ?_⟩
      rwa [Coroutine.status_close, if_neg fun hw => hne hw.1]
    · obtain ⟨c, hc, hw⟩ := hinterrupts.mp hi
      refine ⟨c.close S, by rw [List.getElem?_map, hc]; rfl, ?_⟩
      rw [Coroutine.status_close, if_pos hw]
      exact nofun
  · obtain ⟨c₀, hc₀, rfl⟩ := hget hc
    rw [Coroutine.status_close] at hf
    split at hf
    · cases hf
    · exact List.mem_append_left _ (htail (h.fresh i c₀ nofun hc₀ hf) nofun)
  · obtain ⟨c₀, hc₀, rfl⟩ := hget hc
    rw [Coroutine.point_close]
    refine h.begins i c₀ ?_ hc₀
    rw [hq]
    exact List.mem_cons_of_mem _ (by simpa using hi)
  · obtain ⟨c₀, hc₀, rfl⟩ := hget hc
    rw [Coroutine.status_close] at hf
    split at hf
    · next hw =>
      have hmem := List.mem_map_of_mem (f := (Item.resume · false))
        (hinterrupts.mpr ⟨c₀, hc₀, hw⟩)
      exact ⟨false, List.mem_append_right _ hmem⟩
    · obtain ⟨ok, hresume⟩ := h.queued i c₀ nofun hc₀ hf
      exact ⟨ok, List.mem_append_left _ (htail hresume nofun)⟩
  · obtain ⟨c₀, hc₀, rfl⟩ := hget hc
    rw [Coroutine.status_close] at hw
    split at hw
    · cases hw
    · next hnot =>
      rw [Coroutine.point_close]
      by_contra hkind
      exact hnot ⟨hw, hkind⟩

theorem Tidy.step (h : Tidy S l) (hstep : l.step S a = some l') : Tidy S l' := by
  have hlt {i : ℕ} {c : Coroutine P} (hc : l.cos[i]? = some c) : i < l.cos.length :=
    (List.getElem?_eq_some_iff.mp hc).1
  cases step_cases hstep with
  | begins hq hc => exact (h.pop hq rfl).wait (hlt hc) _
  | ends hq hc => exact (h.pop hq rfl).put (Or.inr rfl) nofun
  | @accepts i q c x hq hc _ _ =>
    have hpop := h.pop hq rfl
    by_cases hx : x.2 = true
    · rw [if_pos hx]
      exact hpop.wait (hlt hc) _
    · rw [if_neg hx]
      refine (hpop.spawn (hlt hc)).wait ?_ _
      rw [spawn, List.length_append]
      exact Nat.lt_add_right _ (hlt hc)
  | goes hq hc _ => exact (h.pop hq rfl).wait (hlt hc) _
  | closes hq horder => exact tidy_closeAll h hq horder
  | completes ok hc hw _ => exact (h.of_waiting hc hw).putQueued (hlt hc) rfl ok

/-! ## Coroutines that wait for somebody else -/

/-- The coroutine that runs goes on to a foreign operation. -/
def startsForeign (S : Script P) : Act P → Bool
  | .resume (some x) => decide (S.kind x.1 = .foreign)
  | _ => false

/-- No coroutine waits for a foreign operation. -/
def NoForeign (S : Script P) (l : Loop P) : Prop :=
  ∀ (i : ℕ) (c : Coroutine P), l.cos[i]? = some c → S.kind c.point = .foreign → c.status ≠ .waiting

omit [DecidableEq P] in
theorem getElem?_wait {j : ℕ} {c' : Coroutine P} (h : (l.wait S i c).cos[j]? = some c') :
    (j = i ∧ c'.point = c.point ∧ c'.closed = c.closed ∧ c'.status ≠ .fresh) ∨
      (j ≠ i ∧ l.cos[j]? = some c') := by
  unfold Loop.wait at h
  split at h
  · exact (Slots.set_cases h).imp_left fun ⟨hj, hc⟩ => ⟨hj, by rw [hc], by rw [hc], by simp [hc]⟩
  · exact (Slots.set_cases h).imp_left fun ⟨hj, hc⟩ => ⟨hj, by rw [hc], by rw [hc], by simp [hc]⟩

/-- Without a step that starts one, none is waited for. -/
theorem NoForeign.step (h : NoForeign S l) (htidy : Tidy S l) (hstep : l.step S a = some l')
    (ha : startsForeign S a = false) : NoForeign S l' := by
  intro j c' hc' hkind
  cases step_cases hstep with
  | begins hq hc =>
    rcases getElem?_wait hc' with ⟨rfl, hpoint, -, -⟩ | ⟨-, hc'⟩
    · rw [hpoint] at hkind
      exact absurd hkind (htidy.begins _ _ (hq ▸ List.mem_cons_self) hc)
    · exact h j c' hc' hkind
  | ends hq hc =>
    rcases Slots.set_cases hc' with ⟨rfl, rfl⟩ | ⟨-, hc'⟩
    · exact nofun
    · exact h j c' hc' hkind
  | @accepts i q c x hq hc hx _ =>
    rcases getElem?_wait hc' with ⟨rfl, hpoint, -, -⟩ | ⟨-, hc'⟩
    · rw [hpoint] at hkind
      exact absurd hkind (of_decide_eq_false ha)
    · split at hc'
      · exact h j c' hc' hkind
      · rcases getElem?_spawn hc' with hc' | ⟨-, rfl⟩
        · exact h j c' hc' hkind
        · exact nofun
  | goes hq hc hx =>
    rcases getElem?_wait hc' with ⟨rfl, hpoint, -, -⟩ | ⟨-, hc'⟩
    · rw [hpoint] at hkind
      exact absurd hkind (of_decide_eq_false ha)
    · exact h j c' hc' hkind
  | closes hq _ =>
    rw [List.getElem?_map] at hc'
    obtain ⟨c₀, hc₀, rfl⟩ := Option.map_eq_some_iff.mp hc'
    rw [Coroutine.point_close] at hkind
    rw [Coroutine.status_close, if_neg fun hw => hw.2 hkind]
    exact h j c₀ hc₀ hkind
  | completes ok hc hw _ =>
    rcases Slots.set_cases hc' with ⟨rfl, rfl⟩ | ⟨-, hc'⟩
    · exact nofun
    · exact h j c' hc' hkind

/-- A coroutine that waits for a foreign operation waits until that completes, whatever the
    thread does. -/
theorem foreign_waits (htidy : Tidy S l) (hc : l.cos[i]? = some c) (hw : c.status = .waiting)
    (hkind : S.kind c.point = .foreign) (hstep : l.step S a = some l') (ha : a ≠ .answer i) :
    ∃ c', l'.cos[i]? = some c' ∧ c'.status = .waiting ∧ S.kind c'.point = .foreign := by
  -- the queue does not run it
  have hqueue {x : Item} {q : List Item} {j : ℕ} (hq : l.queue = x :: q)
      (hx : x.index? = some j) : j ≠ i := by
    rintro rfl
    obtain ⟨c', hc', hne⟩ := htidy.pending j
      (List.mem_filterMap.mpr ⟨x, hq ▸ List.mem_cons_self, hx⟩)
    obtain rfl : c = c' := Option.some.inj (hc.symm.trans hc')
    exact hne hw
  have hset {j : ℕ} {cos : List (Coroutine P)} {c' : Coroutine P} (hj : j ≠ i)
      (hcos : cos[i]? = some c) : (cos.set j c')[i]? = some c := by
    rwa [List.getElem?_set_ne hj]
  have hwait {j : ℕ} {m : Loop P} {c' : Coroutine P} (hj : j ≠ i) (hm : m.cos[i]? = some c) :
      (m.wait S j c').cos[i]? = some c := by
    unfold Loop.wait
    split
    · exact hset hj hm
    · exact hset hj hm
  cases step_cases hstep with
  | begins hq _ => exact ⟨c, hwait (hqueue hq rfl) hc, hw, hkind⟩
  | ends hq _ => exact ⟨c, hset (hqueue hq rfl) hc, hw, hkind⟩
  | accepts hq _ _ _ =>
    refine ⟨c, hwait (hqueue hq rfl) ?_, hw, hkind⟩
    split
    · exact hc
    · exact (List.getElem?_append_left (List.getElem?_eq_some_iff.mp hc).1).trans hc
  | goes hq _ _ => exact ⟨c, hwait (hqueue hq rfl) hc, hw, hkind⟩
  | closes _ _ =>
    refine ⟨c.close S, by rw [List.getElem?_map, hc]; rfl, ?_, ?_⟩
    · rw [Coroutine.status_close, if_neg fun hown => hown.2 hkind, hw]
    · rw [Coroutine.point_close, hkind]
  | @completes _ j c' ok hc' _ hor =>
    refine ⟨c, hset ?_ hc, hw, hkind⟩
    rintro rfl
    obtain rfl : c' = c := Option.some.inj (hc'.symm.trans hc)
    exact hor.elim ha fun hne => hne hkind

/-! ## Loops that stop -/

/-- The closing of all sockets is in the queue, with the opening of any other before it. -/
def CloseAhead (S : Script P) (l : Loop P) : Prop :=
  ∃ pre post, l.queue = pre ++ .closeAll :: post ∧ ∀ (i : ℕ) (c : Coroutine P), l.cos[i]? = some c →
    c.status = .fresh → S.kind c.point = .listen → .begin i ∈ pre

/-- All sockets are closed, but for coroutines at their first point. -/
def Settled (S : Script P) (l : Loop P) : Prop :=
  ∀ (i : ℕ) (c : Coroutine P), l.cos[i]? = some c → c.closed = true ∨ c.point = S.first

def Stops (S : Script P) (l : Loop P) : Prop := CloseAhead S l ∨ Settled S l

omit [DecidableEq P] in
theorem stops_closeLater (h : Tidy S l) : Stops S l.closeLater :=
  Or.inl ⟨l.queue, [], rfl, fun i c hc hf _ => h.fresh i c nofun hc hf⟩

omit [DecidableEq P] in
/-- The queue runs on towards the closing. -/
theorem CloseAhead.run (h : CloseAhead S l) {x : Item} {q items : List Item}
    (hq : l.queue = x :: q) (hx : x.index? = some i) (hq' : l'.queue = q ++ items)
    (hcos : ∀ j c, l'.cos[j]? = some c → c.status = .fresh → S.kind c.point = .listen →
      j ≠ i ∧ l.cos[j]? = some c) : CloseAhead S l' := by
  obtain ⟨pre, post, hqueue, hfresh⟩ := h
  rw [hqueue] at hq
  cases pre with
  | nil =>
    obtain ⟨rfl, -⟩ := List.cons.inj hq
    cases hx
  | cons y pre =>
    obtain ⟨rfl, rfl⟩ := List.cons.inj hq
    refine ⟨pre, post ++ items, hq'.trans (List.append_assoc _ _ _), fun j c hc hf hl => ?_⟩
    obtain ⟨hji, hc⟩ := hcos j c hc hf hl
    refine (List.mem_cons.mp (hfresh j c hc hf hl)).resolve_left ?_
    rintro rfl
    exact hji (Option.some.inj hx)

omit [DecidableEq P] in
/-- When its turn comes the closing leaves nothing open, unless another is ahead. -/
theorem CloseAhead.close (h : CloseAhead S l) {q : List Item} (hq : l.queue = .closeAll :: q)
    (items : List Item) :
    Stops S { cos := l.cos.map (Coroutine.close S), queue := q ++ items } := by
  obtain ⟨pre, post, hqueue, hfresh⟩ := h
  have hget {j : ℕ} {c' : Coroutine P} (hc' : (l.cos.map (Coroutine.close S))[j]? = some c') :
      ∃ c, l.cos[j]? = some c ∧ c.close S = c' := by
    rw [List.getElem?_map] at hc'
    exact Option.map_eq_some_iff.mp hc'
  rw [hqueue] at hq
  cases pre with
  | nil =>
    refine Or.inr fun j c' hc' => Or.inl ?_
    obtain ⟨c, hc, rfl⟩ := hget hc'
    exact Coroutine.closed_close S fun hfl => absurd (hfresh j c hc hfl.1 hfl.2) List.not_mem_nil
  | cons y pre =>
    obtain ⟨rfl, rfl⟩ := List.cons.inj hq
    refine Or.inl ⟨pre, post ++ items, List.append_assoc _ _ _, fun j c' hc' hf hl => ?_⟩
    obtain ⟨c, hc, rfl⟩ := hget hc'
    rw [Coroutine.point_close] at hl
    rw [Coroutine.status_close] at hf
    split at hf
    · cases hf
    · exact (List.mem_cons.mp (hfresh j c hc hf hl)).resolve_left nofun

omit [DecidableEq P] in
theorem queue_wait (S : Script P) (l : Loop P) (i : ℕ) (c : Coroutine P) :
    ∃ items, (l.wait S i c).queue = l.queue ++ items := by
  unfold Loop.wait
  split
  · exact ⟨_, rfl⟩
  · exact ⟨[], (List.append_nil _).symm⟩

omit [DecidableEq P] in
theorem CloseAhead.wait (h : CloseAhead S l) {x : Item} {q : List Item}
    (hq : l.queue = x :: q) (hx : x.index? = some i) (c : Coroutine P) :
    CloseAhead S (Loop.wait S { l with queue := q } i c) := by
  obtain ⟨items, hitems⟩ := queue_wait S { l with queue := q } i c
  refine h.run hq hx hitems fun j c' hc' hf _ => ?_
  rcases getElem?_wait hc' with ⟨-, -, -, hne⟩ | hother
  · exact absurd hf hne
  · exact hother

/-- While the closing is ahead, the queue runs on towards it. -/
theorem CloseAhead.step (h : CloseAhead S l) (hstep : l.step S a = some l') : Stops S l' := by
  cases step_cases hstep with
  | begins hq hc => exact Or.inl (h.wait hq rfl _)
  | ends hq hc =>
    refine Or.inl (h.run hq rfl (List.append_nil _).symm fun j c' hc' hf _ => ?_)
    rcases Slots.set_cases hc' with ⟨-, rfl⟩ | hother
    · cases hf
    · exact hother
  | @accepts i q c x hq hc _ _ =>
    refine Or.inl ?_
    split
    · exact h.wait hq rfl _
    · obtain ⟨items, hitems⟩ := queue_wait S (spawn S { l with queue := q }) i
        { c with point := x.1 }
      refine h.run hq rfl (hitems.trans (List.append_assoc _ _ _)) fun j c' hc' hf hl => ?_
      rcases getElem?_wait hc' with ⟨-, -, -, hne⟩ | ⟨hji, hc'⟩
      · exact absurd hf hne
      · rcases getElem?_spawn hc' with hc' | ⟨-, rfl⟩
        · exact ⟨hji, hc'⟩
        · rw [S.kind_first] at hl
          cases hl
  | goes hq hc hx => exact Or.inl (h.wait hq rfl _)
  | closes hq _ => exact h.close hq _
  | @completes _ i c ok hc hw _ =>
    obtain ⟨pre, post, hqueue, hfresh⟩ := h
    refine Or.inl ⟨pre, post ++ [.resume i ok], ?_, fun j c' hc' hf hl => ?_⟩
    · rw [hqueue]
      exact List.append_assoc _ _ _
    · rcases Slots.set_cases hc' with ⟨-, rfl⟩ | ⟨-, hc'⟩
      · cases hf
      · exact hfresh j c' hc' hf hl

/-- Once nothing is left open, nothing is opened any more. -/
theorem Settled.step (h : Settled S l) (hstep : l.step S a = some l')
    (ha : startsForeign S a = false) : Settled S l' := by
  intro j c' hc'
  cases step_cases hstep with
  | begins hq hc =>
    rcases getElem?_wait hc' with ⟨rfl, hpoint, hclosed, -⟩ | ⟨-, hc'⟩
    · rw [hpoint, hclosed]
      exact h _ _ hc
    · exact h j c' hc'
  | ends hq hc =>
    rcases Slots.set_cases hc' with ⟨rfl, rfl⟩ | ⟨-, hc'⟩
    · exact Or.inl rfl
    · exact h j c' hc'
  | @accepts i q c x hq hc hx haccepts =>
    have hclosed : c.closed = true := (h i c hc).resolve_right fun hfirst => by
      have hkind := S.kind_of_accepts _ haccepts
      rw [hfirst, S.kind_first] at hkind
      cases hkind
    rcases getElem?_wait hc' with ⟨rfl, -, hcl, -⟩ | ⟨-, hc'⟩
    · exact Or.inl (hcl.trans hclosed)
    · split at hc'
      · exact h j c' hc'
      · rcases getElem?_spawn hc' with hc' | ⟨-, rfl⟩
        · exact h j c' hc'
        · exact Or.inr rfl
  | @goes i ok q c x hq hc hx =>
    rcases getElem?_wait hc' with ⟨rfl, -, hcl, -⟩ | ⟨-, hc'⟩
    · left
      rw [hcl]
      rcases h _ c hc with hclosed | hfirst
      · simp [hclosed]
      · rcases S.next_first x (hfirst ▸ hx) with hforeign | hflag
        · exact absurd hforeign (of_decide_eq_false ha)
        · simp [hflag]
    · exact h j c' hc'
  | closes hq _ =>
    rw [List.getElem?_map] at hc'
    obtain ⟨c₀, hc₀, rfl⟩ := Option.map_eq_some_iff.mp hc'
    rw [Coroutine.point_close]
    by_cases hfresh : c₀.status = .fresh ∧ S.kind c₀.point = .listen
    · rw [Coroutine.close, if_pos hfresh]
      exact h j c₀ hc₀
    · exact Or.inl (Coroutine.closed_close S hfresh)
  | @completes _ i c ok hc hw _ =>
    rcases Slots.set_cases hc' with ⟨rfl, rfl⟩ | ⟨-, hc'⟩
    · exact h j c hc
    · exact h j c' hc'

theorem Stops.step (h : Stops S l) (hstep : l.step S a = some l')
    (ha : startsForeign S a = false) : Stops S l' :=
  h.elim (·.step hstep) fun hsettled => Or.inr (hsettled.step hstep ha)

theorem step_isSome_of_queue (htidy : Tidy S l) {x : Item} {q : List Item}
    (hq : l.queue = x :: q) : ∃ a : Act P, a.own = true ∧ (l.step S a).isSome := by
  have hget {i : ℕ} (hx : x.index? = some i) : ∃ c, l.cos[i]? = some c := by
    obtain ⟨c, hc, -⟩ := htidy.pending i
      (List.mem_filterMap.mpr ⟨x, hq ▸ List.mem_cons_self, hx⟩)
    exact ⟨c, hc⟩
  cases x with
  | closeAll =>
    refine ⟨.close (List.range l.cos.length), rfl, ?_⟩
    rw [step, hq]
    exact (congrArg Option.isSome (if_pos (List.Perm.refl _))).trans rfl
  | begin i =>
    obtain ⟨c, hc⟩ := hget rfl
    refine ⟨.begin, rfl, ?_⟩
    simp only [step, hq, hc, Option.map_some, Option.isSome_some]
  | resume i ok =>
    obtain ⟨c, hc⟩ := hget rfl
    by_cases hends : ok = false ∧ (S.kind c.point = .listen ∨ S.kind c.point = .read)
    · refine ⟨.resume none, rfl, ?_⟩
      simp only [step, hq, hc, Option.bind_some, resumed, if_pos (Or.inl hends),
        Option.isSome_some]
    · obtain ⟨x, hx⟩ := List.exists_mem_of_ne_nil _ (S.next_ne_nil c.point)
      refine ⟨.resume (some x), rfl, ?_⟩
      have hgoes : ¬(x ∉ S.next c.point ∨
          (ok = false ∧ (S.kind c.point = .listen ∨ S.kind c.point = .read))) :=
        not_or.mpr ⟨not_not.mpr hx, hends⟩
      simp only [step, hq, hc, Option.bind_some, resumed, if_neg hgoes]
      split <;> rfl

/-- **A loop that stops runs on.**  With no coroutine that waits for a foreign operation, the
    thread has something to do by itself, or all is done. -/
theorem progress (htidy : Tidy S l) (hstops : Stops S l) (hforeign : NoForeign S l) :
    (∃ a : Act P, a.own = true ∧ (l.step S a).isSome) ∨
      (l.queue = [] ∧ ∀ c ∈ l.cos, c.status = .finished) := by
  cases hq : l.queue with
  | cons x q => exact Or.inl (step_isSome_of_queue htidy hq)
  | nil =>
    have hsettled : Settled S l := hstops.resolve_left fun ⟨pre, post, hqueue, _⟩ => by
      rw [hq] at hqueue
      exact List.append_ne_nil_of_right_ne_nil pre (List.cons_ne_nil _ _) hqueue.symm
    by_cases hall : ∀ c ∈ l.cos, c.status = .finished
    · exact Or.inr ⟨rfl, hall⟩
    · left
      obtain ⟨c, hmem, hne⟩ : ∃ c ∈ l.cos, c.status ≠ .finished := by simpa using hall
      obtain ⟨i, hc⟩ := List.getElem?_of_mem hmem
      have hw : c.status = .waiting := by
        cases hs : c.status with
        | waiting => rfl
        | fresh =>
          have hbegin := htidy.fresh i c nofun hc hs
          rw [hq] at hbegin
          cases hbegin
        | queued =>
          obtain ⟨ok, hresume⟩ := htidy.queued i c nofun hc hs
          rw [hq] at hresume
          cases hresume
        | finished => exact absurd hs hne
      -- on a closed socket nobody waits, so it is at its first point, where time is limited
      have hread : S.kind c.point = .read := by
        rcases hsettled i c hc with hclosed | hfirst
        · exact absurd hw (hforeign i c hc (htidy.closed i c nofun hc hclosed hw))
        · rw [hfirst, S.kind_first]
      refine ⟨.idle i, rfl, ?_⟩
      rw [step, complete, hc]
      simp only [hw, hread, List.mem_singleton, and_self, if_true, Option.isSome_some]

end Loop

end EventLoop
