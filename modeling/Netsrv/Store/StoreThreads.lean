/-
  `store/shared_store.hpp` under its `shared_mutex`, one access at a time.

  `SharedStore.lean` has each operation as one function of the map.  Here any number of
  threads run them at once: `put`, `take` and `sweep_expired` hold the lock alone, `get` and
  `list_prefix` share it.  An iterator is read again whenever the source reads it, the clock
  at every `is_expired`, and `take` leaves a moved-from value behind until it erases it.

  * `runs_call`: alone, these accesses are the function of `SharedStore.lean`.
  * `linearizable`: every concurrent run answers as the abstract map with expiry does.
  * `every_call_returns`: no run leaves the lock in a state that some call cannot get out of.
-/
import Netsrv.Lib.SharedLock
import Netsrv.Store.StoreTrace

namespace Netsrv.StoreThreads

open SharedLock SharedStore

/-! ## The operations, access by access -/

inductive Op where
  | put (key value : Bytes) (ttl : ℕ)
  | get (key : Bytes)
  | take (key : Bytes)
  | listPrefix (pre : Bytes)
  | sweepExpired
  deriving DecidableEq

/-- Where a thread is under the lock. -/
inductive Point where
  | begins
  /-- `put` has added the `ttl` to its reading of the clock. -/
  | stamped (expiresAt : ℕ)
  /-- `it != end()`, and then `!is_expired(it->second)`. -/
  | found
  | live
  /-- `take` has moved the value out. -/
  | moved (value : Bytes)
  | listing (left : List Bytes) (out : List (Bytes × Bytes))
  | sweeping (left : List Bytes) (removed : ℕ)
  deriving DecidableEq

def access (op : Op) (p : Point) (s : SharedStore) (now : ℕ) : (Point ⊕ Answer) × SharedStore :=
  match op, p with
  | .put _ _ ttl, .begins => (.inl (.stamped (now + seconds ttl)), s)
  | .put key value _, .stamped expiresAt => (.inr .done, ⟨s.entries.insert key ⟨value, expiresAt⟩⟩)
  | .get key, .begins | .take key, .begins =>
    if (s.find key).isSome then (.inl .found, s) else (.inr (.value none), s)
  | .get key, .found | .take key, .found =>
    if (s.find key).all (isExpired now) then (.inr (.value none), s) else (.inl .live, s)
  | .get key, .live => (.inr (.value ((s.find key).map Entry.value)), s)
  | .take key, .live =>
    match s.find key with
    | some e => (.inl (.moved e.value), ⟨s.entries.insert key { e with value := [] }⟩)
    | none => (.inr (.value none), s)
  | .take key, .moved value => (.inr (.value (some value)), ⟨s.entries.erase key⟩)
  | .listPrefix _, .listing [] out => (.inr (.entries out), s)
  | .listPrefix pre, .listing (key :: left) out =>
    match s.find key with
    | some e =>
      if isExpired now e then (.inl (.listing left out), s)
      else if key.take pre.length = pre then (.inl (.listing left (out ++ [(key, e.value)])), s)
      else (.inl (.listing left out), s)
    | none => (.inl (.listing left out), s)
  | .sweepExpired, .sweeping [] removed => (.inr (.count removed), s)
  | .sweepExpired, .sweeping (key :: left) removed =>
    if (s.find key).any (isExpired now) then
      (.inl (.sweeping left (removed + 1)), ⟨s.entries.erase key⟩)
    else (.inl (.sweeping left removed), s)
  | _, _ => (.inr .done, s)

/-- `unique_lock` or `shared_lock`. -/
def Op.exclusive : Op → Bool
  | .put .. | .take _ | .sweepExpired => true
  | .get _ | .listPrefix _ => false

/-- A walk over the map starts in whatever order the container has. -/
def enter (op : Op) (s : SharedStore) (it : List Cell) : Option Point :=
  match op with
  | .listPrefix _ => if s.Walk it then some (.listing (it.map Sigma.fst) []) else none
  | .sweepExpired => if s.Walk it then some (.sweeping (it.map Sigma.fst) 0) else none
  | .put .. | .get _ | .take _ => some .begins

theorem access_shares {op : Op} (p : Point) (s : SharedStore) (now : ℕ)
    (hop : op.exclusive = false) : (access op p s now).2 = s := by
  cases op with
  | put => cases hop
  | take => cases hop
  | sweepExpired => cases hop
  | get key =>
    cases p with
    | begins =>
      simp only [access]
      split <;> rfl
    | found =>
      simp only [access]
      split <;> rfl
    | _ => rfl
  | listPrefix pre =>
    cases p with
    | listing left out =>
      cases left with
      | nil => rfl
      | cons key left =>
        simp only [access]
        split
        · split
          · rfl
          · split <;> rfl
        · rfl
    | _ => rfl

def code : Code Op (List Cell) Point SharedStore Answer where
  exclusive := Op.exclusive
  enter := enter
  access := access
  shares := fun _ p s now hop => access_shares p s now hop

/-! ## An operation alone -/

/-- The readings a walk has taken of the clock. -/
def Within (start now : ℕ) (clk : Bytes → ℕ) : Prop := ∀ key, start ≤ clk key ∧ clk key ≤ now

theorem Within.update {start t now : ℕ} {clk : Bytes → ℕ} (h : Within start t clk) (key : Bytes)
    (ht : t ≤ now) (hstart : start ≤ t) : Within start now (Function.update clk key now) := by
  intro k
  by_cases hk : k = key
  · rw [hk, Function.update_self]
    exact ⟨Nat.le_trans hstart ht, Nat.le_refl _⟩
  · rw [Function.update_of_ne hk]
    exact ⟨(h k).1, Nat.le_trans (h k).2 ht⟩

section Next

variable {done rest : List Cell} {c : Cell} {d : SharedStore}

/-- The reading at which the next entry is tested is not one of those before it. -/
theorem expiredCell_update (hnew : c.1 ∉ done.map Sigma.fst) (clk : Bytes → ℕ) (now : ℕ) :
    ∀ x ∈ done, expiredCell (Function.update clk c.1 now) x = expiredCell clk x := by
  intro x hx
  have hne : x.1 ≠ c.1 := fun heq => hnew (heq ▸ List.mem_map_of_mem hx)
  unfold expiredCell
  rw [Function.update_of_ne hne]

theorem expiredCell_self (clk : Bytes → ℕ) (now : ℕ) :
    expiredCell (Function.update clk c.1 now) c = isExpired now c.2 := by
  unfold expiredCell
  rw [Function.update_self]

theorem Walk.not_mem (h : d.Walk (done ++ c :: rest)) : c.1 ∉ done.map Sigma.fst := by
  have hnodup := h.nodup
  rw [List.map_append, List.map_cons, List.nodup_append] at hnodup
  intro hmem
  exact hnodup.2.2 _ hmem _ List.mem_cons_self rfl

theorem Walk.find_next (h : d.Walk (done ++ c :: rest)) : d.find c.1 = some c.2 :=
  (h.mem_iff c.1 c.2).mp (List.mem_append_right _ List.mem_cons_self)

theorem listLoop_next (hnew : c.1 ∉ done.map Sigma.fst) (clk : Bytes → ℕ) (now : ℕ)
    (pre : Bytes) : listLoop (Function.update clk c.1 now) pre (done ++ [c]) [] =
      if isExpired now c.2 then listLoop clk pre done []
      else if c.1.take pre.length = pre then listLoop clk pre done [] ++ [(c.1, c.2.value)]
      else listLoop clk pre done [] := by
  have hdone : (done.filterMap fun x =>
      if expiredCell (Function.update clk c.1 now) x = false ∧ x.1.take pre.length = pre then
        some (x.1, x.2.value) else none) = listLoop clk pre done [] := by
    rw [listLoop_eq, List.nil_append]
    refine List.filterMap_congr fun x hx => ?_
    rw [expiredCell_update hnew clk now x hx]
  rw [listLoop_eq, List.nil_append, List.filterMap_append, hdone, List.filterMap_cons,
    List.filterMap_nil, expiredCell_self]
  by_cases hx : isExpired now c.2 = true
  · simp [hx]
  · by_cases hp : c.1.take pre.length = pre
    · simp [hx, hp]
    · simp [hx, hp]

theorem sweepLoop_append (clk : Bytes → ℕ) (xs ys : List Cell) (s : SharedStore)
    (removed : ℕ) : sweepLoop clk (xs ++ ys) s removed =
      sweepLoop clk ys (sweepLoop clk xs s removed).1 (sweepLoop clk xs s removed).2 := by
  induction xs generalizing s removed with
  | nil => rfl
  | cons x xs ih =>
    rw [List.cons_append, sweepLoop, sweepLoop]
    split
    · exact ih _ _
    · exact ih _ _

theorem sweepLoop_congr {clk clk' : Bytes → ℕ} {it : List Cell}
    (h : ∀ x ∈ it, expiredCell clk x = expiredCell clk' x) (s : SharedStore) (removed : ℕ) :
    sweepLoop clk it s removed = sweepLoop clk' it s removed := by
  induction it generalizing s removed with
  | nil => rfl
  | cons x it ih =>
    obtain ⟨hx, hrest⟩ := List.forall_mem_cons.mp h
    rw [sweepLoop, sweepLoop, hx, ih hrest, ih hrest]

theorem sweepLoop_next (hnew : c.1 ∉ done.map Sigma.fst) (clk : Bytes → ℕ) (now : ℕ)
    (s : SharedStore) : sweepLoop (Function.update clk c.1 now) (done ++ [c]) s 0 =
      if isExpired now c.2 then
        (⟨(sweepLoop clk done s 0).1.entries.erase c.1⟩, (sweepLoop clk done s 0).2 + 1)
      else sweepLoop clk done s 0 := by
  rw [sweepLoop_append, sweepLoop_congr (expiredCell_update hnew clk now), sweepLoop,
    expiredCell_self, sweepLoop, sweepLoop]

/-- A sweep has not touched the entry it comes to. -/
theorem find_sweepLoop (hnew : c.1 ∉ done.map Sigma.fst) (clk : Bytes → ℕ) (s : SharedStore) :
    (sweepLoop clk done s 0).1.find c.1 = s.find c.1 := by
  rw [(sweepLoop_spec clk done s 0).1 c.1, if_neg]
  intro hany
  obtain ⟨x, hx, hkey⟩ := List.any_eq_true.mp hany
  rw [Bool.and_eq_true, beq_iff_eq] at hkey
  exact hnew (hkey.2 ▸ List.mem_map_of_mem hx)

end Next

/-- Where its accesses have brought an operation, entered at `start` on `d`, by `now`. -/
inductive At (d : SharedStore) (start now : ℕ) : Op → Point → SharedStore → Prop
  | put {key value : Bytes} {ttl : ℕ} : At d start now (.put key value ttl) .begins d
  | stamped {key value : Bytes} {ttl u : ℕ} : start ≤ u → u ≤ now →
      At d start now (.put key value ttl) (.stamped (u + seconds ttl)) d
  | get {key : Bytes} : At d start now (.get key) .begins d
  | getFound {key : Bytes} {e : Entry} : d.find key = some e → At d start now (.get key) .found d
  | getLive {key : Bytes} {e : Entry} {u : ℕ} : start ≤ u → u ≤ now → d.find key = some e →
      isExpired u e = false → At d start now (.get key) .live d
  | take {key : Bytes} : At d start now (.take key) .begins d
  | takeFound {key : Bytes} {e : Entry} : d.find key = some e →
      At d start now (.take key) .found d
  | takeLive {key : Bytes} {e : Entry} {u : ℕ} : start ≤ u → u ≤ now → d.find key = some e →
      isExpired u e = false → At d start now (.take key) .live d
  | moved {key : Bytes} {e : Entry} {u : ℕ} : start ≤ u → u ≤ now → d.find key = some e →
      isExpired u e = false →
      At d start now (.take key) (.moved e.value) ⟨d.entries.insert key { e with value := [] }⟩
  | listing {pre : Bytes} {clk : Bytes → ℕ} {done rest : List Cell} : d.Walk (done ++ rest) →
      Within start now clk →
      At d start now (.listPrefix pre)
        (.listing (rest.map Sigma.fst) (listLoop clk pre done [])) d
  | sweeping {clk : Bytes → ℕ} {done rest : List Cell} : d.Walk (done ++ rest) →
      Within start now clk →
      At d start now .sweepExpired
        (.sweeping (rest.map Sigma.fst) (sweepLoop clk done d 0).2) (sweepLoop clk done d 0).1

section At

variable {d s s' : SharedStore} {start t now : ℕ} {op : Op} {p p' : Point}

theorem at_enter {it : List Cell} (h : enter op d it = some p) : At d start start op p d := by
  have hnow (u : ℕ) : Within u u fun _ => u := fun _ => ⟨Nat.le_refl _, Nat.le_refl _⟩
  cases op with
  | put key value ttl =>
    obtain rfl := Option.some.inj h
    exact .put
  | get key =>
    obtain rfl := Option.some.inj h
    exact .get
  | take key =>
    obtain rfl := Option.some.inj h
    exact .take
  | listPrefix pre =>
    simp only [enter] at h
    split at h
    · next hwalk =>
      obtain rfl := Option.some.inj h
      have hnone : d.Walk ([] ++ it) := hwalk
      exact At.listing hnone (hnow start)
    · cases h
  | sweepExpired =>
    simp only [enter] at h
    split at h
    · next hwalk =>
      obtain rfl := Option.some.inj h
      have hnone : d.Walk ([] ++ it) := hwalk
      exact At.sweeping hnone (hnow start)
    · cases h

/-- What one access preserves. -/
theorem At.access (h : At d start t op p s) (hstart : start ≤ t) (ht : t ≤ now)
    (hacc : access op p s now = (.inl p', s')) : At d start now op p' s' := by
  have hnow : start ≤ now := Nat.le_trans hstart ht
  cases h with
  | put =>
    simp only [StoreThreads.access, Prod.mk.injEq, Sum.inl.injEq] at hacc
    obtain ⟨rfl, rfl⟩ := hacc
    exact .stamped hnow (Nat.le_refl _)
  | stamped hu hu' => cases hacc
  | @get key =>
    simp only [StoreThreads.access] at hacc
    split at hacc
    · next hsome =>
      obtain ⟨e, hfind⟩ := Option.isSome_iff_exists.mp hsome
      simp only [Prod.mk.injEq, Sum.inl.injEq] at hacc
      obtain ⟨rfl, rfl⟩ := hacc
      exact .getFound hfind
    · cases hacc
  | @getFound key e hfind =>
    simp only [StoreThreads.access, hfind, Option.all_some] at hacc
    split at hacc
    · cases hacc
    · next hlive =>
      simp only [Prod.mk.injEq, Sum.inl.injEq] at hacc
      obtain ⟨rfl, rfl⟩ := hacc
      exact .getLive hnow (Nat.le_refl _) hfind (eq_false_of_ne_true hlive)
  | getLive hu hu' hfind hlive => cases hacc
  | @take key =>
    simp only [StoreThreads.access] at hacc
    split at hacc
    · next hsome =>
      obtain ⟨e, hfind⟩ := Option.isSome_iff_exists.mp hsome
      simp only [Prod.mk.injEq, Sum.inl.injEq] at hacc
      obtain ⟨rfl, rfl⟩ := hacc
      exact .takeFound hfind
    · cases hacc
  | @takeFound key e hfind =>
    simp only [StoreThreads.access, hfind, Option.all_some] at hacc
    split at hacc
    · cases hacc
    · next hlive =>
      simp only [Prod.mk.injEq, Sum.inl.injEq] at hacc
      obtain ⟨rfl, rfl⟩ := hacc
      exact .takeLive hnow (Nat.le_refl _) hfind (eq_false_of_ne_true hlive)
  | takeLive hu hu' hfind hlive =>
    simp only [StoreThreads.access, hfind, Prod.mk.injEq, Sum.inl.injEq] at hacc
    obtain ⟨rfl, rfl⟩ := hacc
    exact .moved hu (Nat.le_trans hu' ht) hfind hlive
  | moved hu hu' hfind hlive => cases hacc
  | @listing pre clk done rest hwalk hclk =>
    cases rest with
    | nil => cases hacc
    | cons c rest =>
      have hnext := listLoop_next (Walk.not_mem hwalk) clk now pre
      have hgoal : At d start now (.listPrefix pre) (.listing (rest.map Sigma.fst)
          (listLoop (Function.update clk c.1 now) pre (done ++ [c]) [])) d :=
        .listing (by rwa [List.append_assoc]) (hclk.update c.1 ht hstart)
      rw [hnext] at hgoal
      simp only [List.map_cons, StoreThreads.access, Walk.find_next hwalk] at hacc
      split at hacc
      · next hx =>
        simp only [Prod.mk.injEq, Sum.inl.injEq] at hacc
        obtain ⟨rfl, rfl⟩ := hacc
        rwa [if_pos hx] at hgoal
      · next hx =>
        rw [if_neg hx] at hgoal
        split at hacc
        · next hp =>
          simp only [Prod.mk.injEq, Sum.inl.injEq] at hacc
          obtain ⟨rfl, rfl⟩ := hacc
          rwa [if_pos hp] at hgoal
        · next hp =>
          simp only [Prod.mk.injEq, Sum.inl.injEq] at hacc
          obtain ⟨rfl, rfl⟩ := hacc
          rwa [if_neg hp] at hgoal
  | @sweeping clk done rest hwalk hclk =>
    cases rest with
    | nil => cases hacc
    | cons c rest =>
      have hnext := sweepLoop_next (Walk.not_mem hwalk) clk now d
      have hgoal : At d start now .sweepExpired (.sweeping (rest.map Sigma.fst)
          (sweepLoop (Function.update clk c.1 now) (done ++ [c]) d 0).2)
          (sweepLoop (Function.update clk c.1 now) (done ++ [c]) d 0).1 :=
        .sweeping (by rwa [List.append_assoc]) (hclk.update c.1 ht hstart)
      rw [hnext] at hgoal
      simp only [List.map_cons, StoreThreads.access, find_sweepLoop (Walk.not_mem hwalk),
        Walk.find_next hwalk, Option.any_some] at hacc
      split at hacc
      · next hx =>
        simp only [Prod.mk.injEq, Sum.inl.injEq] at hacc
        obtain ⟨rfl, rfl⟩ := hacc
        rwa [if_pos hx] at hgoal
      · next hx =>
        simp only [Prod.mk.injEq, Sum.inl.injEq] at hacc
        obtain ⟨rfl, rfl⟩ := hacc
        rwa [if_neg hx] at hgoal

theorem at_of_alone (h : Alone code op d start t p s) : At d start t op p s := by
  induction h with
  | enter henter => exact at_enter henter
  | access halone hle hacc ih => exact ih.access halone.start_le hle hacc

end At

/-- The same operation of the store, at readings of its own. -/
inductive Op.Is : Op → Call → Prop
  | put (now : ℕ) (key value : Bytes) (ttl : ℕ) : Is (.put key value ttl) (.put now key value ttl)
  | get (now : ℕ) (key : Bytes) : Is (.get key) (.get now key)
  | take (now : ℕ) (key : Bytes) : Is (.take key) (.take now key)
  | listPrefix (start stop : ℕ) (clk : Bytes → ℕ) (it : List Cell) (pre : Bytes) :
      Is (.listPrefix pre) (.listPrefix start stop clk it pre)
  | sweepExpired (start stop : ℕ) (clk : Bytes → ℕ) (it : List Cell) :
      Is .sweepExpired (.sweepExpired start stop clk it)

/-- What shares the lock does not move the reference. -/
theorem Op.Is.call_eq {op : Op} {c : Call} (h : op.Is c) (hop : op.exclusive = false)
    (m : Reference) : m.call c = m := by
  cases h with
  | get => rfl
  | listPrefix => rfl
  | put => cases hop
  | take => cases hop
  | sweepExpired => cases hop

/-- A call that `op` makes between two readings, on the map `d`, which it turns into `d'`. -/
def Makes (op : Op) (d : SharedStore) (start stop : ℕ) (answer : Answer) (d' : SharedStore) :
    Prop :=
  ∃ c : Call, op.Is c ∧ start ≤ c.start ∧ c.stop ≤ stop ∧ c.Fits d ∧ d.call c = (d', answer)

theorem erase_insert (s : SharedStore) (key : Bytes) (e : Entry) :
    (s.entries.insert key e).erase key = s.entries.erase key := by
  apply AList.ext
  show List.kerase key (s.entries.insert key e).entries = List.kerase key s.entries.entries
  rw [AList.entries_insert]
  exact List.kerase_cons_eq rfl

/-- The access that answers. -/
theorem At.returns {d s s' : SharedStore} {start t now : ℕ} {op : Op} {p : Point} {a : Answer}
    (h : At d start t op p s) (hstart : start ≤ t) (ht : t ≤ now)
    (hacc : StoreThreads.access op p s now = (.inr a, s')) : Makes op d start now a s' := by
  have hnow : start ≤ now := Nat.le_trans hstart ht
  cases h with
  | put => cases hacc
  | @stamped key value ttl u hu hu' =>
    simp only [StoreThreads.access, Prod.mk.injEq, Sum.inr.injEq] at hacc
    obtain ⟨rfl, rfl⟩ := hacc
    exact ⟨.put u key value ttl, .put u key value ttl, hu, Nat.le_trans hu' ht, trivial, rfl⟩
  | @get key =>
    simp only [StoreThreads.access] at hacc
    split at hacc
    · cases hacc
    · next hnone =>
      simp only [Prod.mk.injEq, Sum.inr.injEq] at hacc
      obtain ⟨rfl, rfl⟩ := hacc
      have hfind : d.find key = none := Option.not_isSome_iff_eq_none.mp hnone
      refine ⟨.get now key, .get now key, hnow, Nat.le_refl _, trivial, ?_⟩
      simp only [call, SharedStore.get, hfind]
  | @getFound key e hfind =>
    simp only [StoreThreads.access, hfind, Option.all_some] at hacc
    split at hacc
    · next hx =>
      simp only [Prod.mk.injEq, Sum.inr.injEq] at hacc
      obtain ⟨rfl, rfl⟩ := hacc
      refine ⟨.get now key, .get now key, hnow, Nat.le_refl _, trivial, ?_⟩
      simp only [call, SharedStore.get, hfind, hx, if_true]
    · cases hacc
  | @getLive key e u hu hu' hfind hlive =>
    simp only [StoreThreads.access, Prod.mk.injEq, Sum.inr.injEq] at hacc
    obtain ⟨rfl, rfl⟩ := hacc
    -- at the reading that let it live
    refine ⟨.get u key, .get u key, hu, Nat.le_trans hu' ht, trivial, ?_⟩
    simp only [call, SharedStore.get, hfind, hlive, Bool.false_eq_true, if_false,
      Option.map_some]
  | @take key =>
    simp only [StoreThreads.access] at hacc
    split at hacc
    · cases hacc
    · next hnone =>
      simp only [Prod.mk.injEq, Sum.inr.injEq] at hacc
      obtain ⟨rfl, rfl⟩ := hacc
      have hfind : d.find key = none := Option.not_isSome_iff_eq_none.mp hnone
      refine ⟨.take now key, .take now key, hnow, Nat.le_refl _, trivial, ?_⟩
      simp only [call, SharedStore.take, hfind]
  | @takeFound key e hfind =>
    simp only [StoreThreads.access, hfind, Option.all_some] at hacc
    split at hacc
    · next hx =>
      simp only [Prod.mk.injEq, Sum.inr.injEq] at hacc
      obtain ⟨rfl, rfl⟩ := hacc
      refine ⟨.take now key, .take now key, hnow, Nat.le_refl _, trivial, ?_⟩
      simp only [call, SharedStore.take, hfind, hx, if_true]
    · cases hacc
  | takeLive hu hu' hfind hlive =>
    simp only [StoreThreads.access, hfind] at hacc
    cases hacc
  | @moved key e u hu hu' hfind hlive =>
    simp only [StoreThreads.access, Prod.mk.injEq, Sum.inr.injEq] at hacc
    obtain ⟨rfl, rfl⟩ := hacc
    refine ⟨.take u key, .take u key, hu, Nat.le_trans hu' ht, trivial, ?_⟩
    simp only [call, SharedStore.take, hfind, hlive, Bool.false_eq_true, if_false, erase_insert]
  | @listing pre clk done rest hwalk hclk =>
    cases rest with
    | nil =>
      simp only [List.map_nil, StoreThreads.access, Prod.mk.injEq, Sum.inr.injEq] at hacc
      obtain ⟨rfl, rfl⟩ := hacc
      rw [List.append_nil] at hwalk
      refine ⟨.listPrefix start now clk done pre, .listPrefix start now clk done pre,
        Nat.le_refl _, Nat.le_refl _, ⟨hwalk, fun key => ?_⟩, rfl⟩
      exact ⟨(hclk key).1, Nat.le_trans (hclk key).2 ht⟩
    | cons c rest =>
      simp only [List.map_cons, StoreThreads.access, Walk.find_next hwalk] at hacc
      split at hacc
      · cases hacc
      · split at hacc <;> cases hacc
  | @sweeping clk done rest hwalk hclk =>
    cases rest with
    | nil =>
      simp only [List.map_nil, StoreThreads.access, Prod.mk.injEq, Sum.inr.injEq] at hacc
      obtain ⟨rfl, rfl⟩ := hacc
      rw [List.append_nil] at hwalk
      refine ⟨.sweepExpired start now clk done, .sweepExpired start now clk done,
        Nat.le_refl _, Nat.le_refl _, ⟨hwalk, fun key => ?_⟩, rfl⟩
      exact ⟨(hclk key).1, Nat.le_trans (hclk key).2 ht⟩
    | cons c rest =>
      simp only [List.map_cons, StoreThreads.access] at hacc
      split at hacc <;> cases hacc

/-- Alone, the accesses of an operation are the operation. -/
theorem runs_call {d d' : SharedStore} {e : Done Op Answer} (h : Runs code d e d') :
    Makes e.op d e.start e.stop e.answer d' := by
  obtain ⟨t, p, s, halone, hle, hacc⟩ := h
  exact (at_of_alone halone).returns halone.start_le hle hacc

/-! ## Any interleaving is a run of the reference -/

/-- The answered call is one of the operation that returned, while it held the lock. -/
def Performs (e : Done Op Answer) (r : Call × Answer) : Prop :=
  e.op.Is r.1 ∧ e.start ≤ r.1.start ∧ r.1.stop ≤ e.stop ∧ r.2 = e.answer

/-- The reference after a trace. -/
def Reference.after (m : Reference) (tr : List (Call × Answer)) : Reference :=
  tr.foldl (fun m r => m.call r.1) m

theorem Reference.follows_concat {m : Reference} {tr : List (Call × Answer)} {c : Call}
    {a : Answer} (h : m.Follows tr) (hc : (Reference.after m tr).Accepts c a) :
    m.Follows (tr ++ [(c, a)]) := by
  induction tr generalizing m with
  | nil => exact ⟨hc, trivial⟩
  | cons r tr ih => exact ⟨h.1, ih h.2 hc⟩

theorem Reference.after_concat (m : Reference) (tr : List (Call × Answer)) (c : Call)
    (a : Answer) : Reference.after m (tr ++ [(c, a)]) = (Reference.after m tr).call c := by
  rw [Reference.after, List.foldl_append]
  rfl

/-- One after the other, the operations answer as the reference does, and leave a store that
    no reading from then on tells from it. -/
theorem follows_of_serial {log : List (Done Op Answer)} {d : SharedStore} {t : ℕ}
    (h : Serial code .empty log d t) :
    ∃ tr, List.Forall₂ Performs log.reverse tr ∧ Reference.Follows Ttl.Map.empty tr ∧
      Ttl.SameFrom t d.get (Reference.after Ttl.Map.empty tr).visible := by
  induction h with
  | nil => exact ⟨[], .nil, trivial, fun _ _ _ => rfl⟩
  | @reads log d t e _ hop hstart hruns ih =>
    obtain ⟨tr, hperf, hfollows, hsim⟩ := ih
    obtain ⟨c, his, hfrom, hto, hfits, hcall⟩ := runs_call hruns
    obtain ⟨hacc, -⟩ := call_simulates hsim (Nat.le_trans hstart hfrom) hfits
    rw [hcall] at hacc
    refine ⟨tr ++ [(c, e.answer)], ?_, Reference.follows_concat hfollows hacc, ?_⟩
    · rw [List.reverse_cons]
      exact List.rel_append hperf (.cons ⟨his, hfrom, hto, rfl⟩ .nil)
    · -- it wrote nothing, so the reference is where it was
      have hsame (m : Reference) : m.call c = m := his.call_eq hop m
      rw [Reference.after_concat, hsame]
      exact hsim
  | @writes log d d' t e _ hop hstart _ hruns ih =>
    obtain ⟨tr, hperf, hfollows, hsim⟩ := ih
    obtain ⟨c, his, hfrom, hto, hfits, hcall⟩ := runs_call hruns
    obtain ⟨hacc, hnext⟩ := call_simulates hsim (Nat.le_trans hstart hfrom) hfits
    rw [hcall] at hacc hnext
    refine ⟨tr ++ [(c, e.answer)], ?_, Reference.follows_concat hfollows hacc, ?_⟩
    · rw [List.reverse_cons]
      exact List.rel_append hperf (.cons ⟨his, hfrom, hto, rfl⟩ .nil)
    · rw [Reference.after_concat]
      exact hnext.later hto

/-- **The store is linearizable.**  However many threads use it, and however their accesses
    interleave, the calls that returned answer as the abstract map with expiry does when they
    are made one after the other, in the order in which they returned, each at readings of
    the clock that fall between its getting the lock and its giving it back. -/
theorem linearizable {n : ℕ} {s : State Op Point SharedStore Answer}
    (hr : Machine.Reachable (step code) (initial n .empty) s) :
    ∃ tr, List.Forall₂ Performs s.log.reverse tr ∧ Reference.Follows Ttl.Map.empty tr ∧
      s.log.reverse.Pairwise fun e e' => e.stop ≤ e'.stop := by
  obtain ⟨d, t, hsound⟩ := sound_of_reachable hr
  obtain ⟨tr, hperf, hfollows, -⟩ := follows_of_serial hsound.serial
  exact ⟨tr, hperf, hfollows, List.pairwise_reverse.mpr hsound.ordered⟩

/-- Two threads race for the value a third has put, while others read. -/
def race : List (Label Op (List Cell)) :=
  let it : List Cell := [⟨[1], ⟨[7], seconds 1⟩⟩]
  [.call 0 (.put [1] [7] 1), .acquire 0 [], .access 0, .tick 5, .access 0,
    .call 0 (.listPrefix [1]), .call 1 (.take [1]), .call 2 (.take [1]), .call 3 (.get [1]),
    .acquire 3 [], .acquire 0 it, .access 3, .access 0, .tick 5, .access 3, .access 0, .access 3,
    .acquire 1 [], .access 1, .access 1, .tick 5, .access 1, .access 1, .acquire 2 [], .access 2]

theorem linearizable_race : ∃ s, Machine.run (step code) (initial 4 .empty) race = some s ∧
    s.log.reverse.map Done.answer =
      [.done, .entries [([1], [7])], .value (some [7]), .value (some [7]), .value none] ∧
    ∃ tr, List.Forall₂ Performs s.log.reverse tr ∧ Reference.Follows Ttl.Map.empty tr ∧
      s.log.reverse.Pairwise fun e e' => e.stop ≤ e'.stop := by
  have hlog : (Machine.run (step code) (initial 4 .empty) race).map
      (fun s => s.log.reverse.map Done.answer) = some
        [.done, .entries [([1], [7])], .value (some [7]), .value (some [7]), .value none] := by
    decide +kernel
  obtain ⟨s, hrun, hans⟩ := Option.map_eq_some_iff.mp hlog
  exact ⟨s, hrun, hans, linearizable (Machine.Reachable.of_run .init hrun)⟩

/-! ## Every call returns -/

/-- The accesses still to come, at most. -/
def Point.rank : Point → ℕ
  | .begins => 3
  | .found => 2
  | .live => 1
  | .stamped _ | .moved _ => 0
  | .listing left _ | .sweeping left _ => left.length

theorem rank_access {op : Op} {p p' : Point} {s s' : SharedStore} {now : ℕ}
    (h : access op p s now = (.inl p', s')) : p'.rank < p.rank := by
  have hinl {q : Point} {d : SharedStore}
      (heq : ((Sum.inl q : Point ⊕ Answer), d) = (Sum.inl p', s')) : q = p' :=
    Sum.inl.inj (Prod.mk.inj heq).1
  unfold access at h
  split at h
  · rw [← hinl h]
    exact Nat.zero_lt_succ _
  · cases h
  · split at h
    · rw [← hinl h]
      exact Nat.lt_succ_self _
    · cases h
  · split at h
    · rw [← hinl h]
      exact Nat.lt_succ_self _
    · cases h
  · split at h
    · cases h
    · rw [← hinl h]
      exact Nat.lt_succ_self _
  · split at h
    · cases h
    · rw [← hinl h]
      exact Nat.lt_succ_self _
  · cases h
  · split at h
    · rw [← hinl h]
      exact Nat.zero_lt_one
    · cases h
  · cases h
  · cases h
  · next key left out =>
    have hless (out' : List (Bytes × Bytes)) :
        (Point.listing left out').rank < (Point.listing (key :: left) out).rank :=
      Nat.lt_succ_self _
    split at h
    · split at h
      · rw [← hinl h]
        exact hless _
      · split at h
        · rw [← hinl h]
          exact hless _
        · rw [← hinl h]
          exact hless _
    · rw [← hinl h]
      exact hless _
  · cases h
  · split at h
    · rw [← hinl h]
      exact Nat.lt_succ_self _
    · rw [← hinl h]
      exact Nat.lt_succ_self _
  · cases h

theorem code_ends : code.Ends fun _ => Point.rank where
  enters := fun op d => by
    cases op with
    | put => exact ⟨[], _, rfl⟩
    | get => exact ⟨[], _, rfl⟩
    | take => exact ⟨[], _, rfl⟩
    | listPrefix pre => exact ⟨d.entries.entries, _, if_pos (List.Perm.refl _)⟩
    | sweepExpired => exact ⟨d.entries.entries, _, if_pos (List.Perm.refl _)⟩
  access := rank_access

/-- **Every call returns.**  The lock is never lost: whatever the threads have done, any call
    that was made can be brought to its answer by the threads that are in the store, and no
    other. -/
theorem every_call_returns {n k : ℕ} {s : State Op Point SharedStore Answer}
    {th : Thread Op Point} {op : Op}
    (hr : Machine.Reachable (step code) (initial n .empty) s) (hk : s.threads[k]? = some th)
    (hop : th.op? = some op) :
    ∃ ls s' e, Machine.run (step code) s ls = some s' ∧ (∀ l ∈ ls, l.works = true) ∧
      s'.threads[k]? = some .idle ∧ e.op = op ∧ e ∈ s'.log :=
  code_ends.exists_return hr hk hop

/-- A `take` waits for a `put` that is half done. -/
theorem every_call_returns_waiting : ∃ s, Machine.run (step code) (initial 2 .empty)
      [.call 0 (.put [1] [7] 1), .call 1 (.take [1]), .acquire 0 [], .access 0] = some s ∧
    s.threads[1]? = some (.waiting (.take [1])) ∧
    ∃ ls s' e, Machine.run (step code) s ls = some s' ∧ (∀ l ∈ ls, l.works = true) ∧
      s'.threads[1]? = some .idle ∧ e.op = .take [1] ∧ e ∈ s'.log := by
  have hwaits : (Machine.run (step code) (initial 2 .empty)
      [.call 0 (.put [1] [7] 1), .call 1 (.take [1]), .acquire 0 [], .access 0]).map
        (fun s => s.threads[1]?) = some (some (.waiting (.take [1]))) := by decide +kernel
  obtain ⟨s, hrun, hk⟩ := Option.map_eq_some_iff.mp hwaits
  exact ⟨s, hrun, hk, every_call_returns (Machine.Reachable.of_run .init hrun) hk rfl⟩

end Netsrv.StoreThreads
