/-
  `store/shared_store.hpp`: the in-memory key/value store with expiry that holds tickets,
  session tokens and the service registry.

  `entries_` is an `AList`: a map with one entry per key.  The order in which an
  `unordered_map` is walked is unspecified, so the operations that walk it take the walk
  `it` as an argument; `Walk s it` says that `it` is some order of the entries.  The clock
  is read by the operation: `now` for the operations that test one entry, and one reading
  `clk key` for each entry a walk tests.

  The lock makes each operation atomic, so each one is a function of the state.
-/
import Netsrv.Net.ByteIo
import Mathlib.Data.List.AList

namespace Netsrv

/-- `std::chrono::seconds` in ticks of `steady_clock`, which counts nanoseconds. -/
def seconds (n : ℕ) : ℕ := n * 1000000000

namespace SharedStore

structure Entry where
  value : Bytes
  expiresAt : ℕ
  deriving DecidableEq, Repr

/-- An element of the map: a key and its entry. -/
abbrev Cell := Sigma fun _ : Bytes => Entry

def isExpired (now : ℕ) (e : Entry) : Bool := e.expiresAt ≤ now

/-- `is_expired` on an element of a walk, at that element's own reading. -/
def expiredCell (clk : Bytes → ℕ) (c : Cell) : Bool := isExpired (clk c.1) c.2

end SharedStore

open SharedStore in
structure SharedStore where
  entries : AList fun _ : Bytes => Entry

namespace SharedStore

def empty : SharedStore := ⟨∅⟩

/-- `entries_.find(key)`. -/
def find (s : SharedStore) (key : Bytes) : Option Entry := s.entries.lookup key

/-- `it` walks over all of the map, in some order. -/
def Walk (s : SharedStore) (it : List Cell) : Prop := it.Perm s.entries.entries

instance (s : SharedStore) (it : List Cell) : Decidable (s.Walk it) :=
  inferInstanceAs (Decidable (it.Perm s.entries.entries))

/-! ## The operations -/

/-- `ttl` is in seconds. -/
def put (s : SharedStore) (now : ℕ) (key value : Bytes) (ttl : ℕ) : SharedStore :=
  ⟨s.entries.insert key ⟨value, now + seconds ttl⟩⟩

def get (s : SharedStore) (now : ℕ) (key : Bytes) : Option Bytes :=
  match s.find key with
  | none => none
  | some e => if isExpired now e then none else some e.value

def take (s : SharedStore) (now : ℕ) (key : Bytes) : Option Bytes × SharedStore :=
  match s.find key with
  | none => (none, s)
  | some e => if isExpired now e then (none, s) else (some e.value, ⟨s.entries.erase key⟩)

/-- The loop of `sweep_expired`: `it` is what is left to walk. -/
def sweepLoop (clk : Bytes → ℕ) : List Cell → SharedStore → ℕ → SharedStore × ℕ
  | [], s, removed => (s, removed)
  | c :: it, s, removed =>
    if expiredCell clk c then sweepLoop clk it ⟨s.entries.erase c.1⟩ (removed + 1)
    else sweepLoop clk it s removed

def sweepExpired (s : SharedStore) (clk : Bytes → ℕ) (it : List Cell) : SharedStore × ℕ :=
  sweepLoop clk it s 0

/-- The loop of `list_prefix`: `it` is what is left to walk. -/
def listLoop (clk : Bytes → ℕ) (pre : Bytes) :
    List Cell → List (Bytes × Bytes) → List (Bytes × Bytes)
  | [], out => out
  | c :: it, out =>
    if expiredCell clk c then listLoop clk pre it out
    else if c.1.take pre.length = pre then listLoop clk pre it (out ++ [(c.1, c.2.value)])
    else listLoop clk pre it out

def listPrefix (clk : Bytes → ℕ) (it : List Cell) (pre : Bytes) : List (Bytes × Bytes) :=
  listLoop clk pre it []

def size (s : SharedStore) : ℕ := s.entries.entries.length

/-! ## What an entry looks like after each operation -/

@[simp] theorem find_empty (key : Bytes) : empty.find key = none := rfl

theorem find_put (s : SharedStore) (now : ℕ) (key value : Bytes) (ttl : ℕ) (k : Bytes) :
    (s.put now key value ttl).find k =
      if k = key then some ⟨value, now + seconds ttl⟩ else s.find k := by
  unfold put find
  by_cases hk : k = key
  · rw [hk, if_pos rfl, AList.lookup_insert]
  · rw [if_neg hk, AList.lookup_insert_ne hk]

theorem find_erase (s : SharedStore) (key k : Bytes) :
    (⟨s.entries.erase key⟩ : SharedStore).find k = if k = key then none else s.find k := by
  unfold find
  by_cases hk : k = key
  · rw [hk, if_pos rfl, AList.lookup_erase]
  · rw [if_neg hk, AList.lookup_erase_ne hk]

/-- `get` is `find`, cut at the expiry. -/
theorem get_eq (s : SharedStore) (now : ℕ) (key : Bytes) :
    s.get now key =
      (s.find key).bind fun e => if now < e.expiresAt then some e.value else none := by
  unfold get
  cases s.find key with
  | none => rfl
  | some e =>
    simp only [isExpired, Option.bind_some, decide_eq_true_eq]
    by_cases h : e.expiresAt ≤ now
    · rw [if_pos h, if_neg (Nat.not_lt.mpr h)]
    · rw [if_neg h, if_pos (Nat.lt_of_not_le h)]

/-- `take` answers what `get` does and erases exactly what it answered. -/
theorem take_eq (s : SharedStore) (now : ℕ) (key : Bytes) :
    s.take now key =
      (s.get now key, if (s.get now key).isSome then ⟨s.entries.erase key⟩ else s) := by
  unfold take get
  cases s.find key with
  | none => rfl
  | some e =>
    dsimp only
    by_cases h : isExpired now e = true
    · simp [h]
    · simp [h]

theorem find_take (s : SharedStore) (now : ℕ) (key k : Bytes) :
    (s.take now key).2.find k =
      if k = key ∧ (s.get now key).isSome then none else s.find k := by
  rw [take_eq]
  by_cases hv : (s.get now key).isSome
  · rw [if_pos hv, find_erase]
    simp [hv]
  · rw [if_neg hv, if_neg (fun h => hv h.2)]

theorem find_eq_some_iff (s : SharedStore) (key : Bytes) (e : Entry) :
    s.find key = some e ↔ (⟨key, e⟩ : Cell) ∈ s.entries.entries :=
  AList.mem_lookup_iff

/-! ## The walks -/

/-- A walk meets each entry of the map, and nothing else. -/
theorem Walk.mem_iff {s : SharedStore} {it : List Cell} (h : s.Walk it) (key : Bytes) (e : Entry) :
    (⟨key, e⟩ : Cell) ∈ it ↔ s.find key = some e := by
  rw [List.Perm.mem_iff h, find_eq_some_iff]

/-- A walk meets no key twice. -/
theorem Walk.nodup {s : SharedStore} {it : List Cell} (h : s.Walk it) :
    (it.map Sigma.fst).Nodup :=
  (List.Perm.map Sigma.fst h).nodup_iff.mpr s.entries.nodupKeys

theorem listLoop_eq (clk : Bytes → ℕ) (pre : Bytes) (it : List Cell)
    (out : List (Bytes × Bytes)) :
    listLoop clk pre it out = out ++ it.filterMap fun c =>
      if expiredCell clk c = false ∧ c.1.take pre.length = pre then some (c.1, c.2.value)
      else none := by
  induction it generalizing out with
  | nil => simp [listLoop]
  | cons c it ih =>
    rw [listLoop]
    by_cases hx : expiredCell clk c = true
    · simp [hx, ih]
    · by_cases hp : c.1.take pre.length = pre
      · simp [hx, hp, ih, List.append_assoc]
      · simp [hx, hp, ih]

/-- `list_prefix` is a filter of the walk. -/
theorem listPrefix_eq (clk : Bytes → ℕ) (it : List Cell) (pre : Bytes) :
    listPrefix clk it pre = it.filterMap fun c =>
      if expiredCell clk c = false ∧ c.1.take pre.length = pre then some (c.1, c.2.value)
      else none := by
  rw [listPrefix, listLoop_eq, List.nil_append]

/-- `list_prefix` lists exactly the keys with the prefix that a `get` at that entry's own
    reading would find, each with the value found. -/
theorem mem_listPrefix {s : SharedStore} {it : List Cell} (h : s.Walk it) (clk : Bytes → ℕ)
    (pre key value : Bytes) :
    (key, value) ∈ listPrefix clk it pre ↔ pre <+: key ∧ s.get (clk key) key = some value := by
  rw [listPrefix_eq, List.mem_filterMap, get_eq, Option.bind_eq_some_iff,
    List.prefix_iff_eq_take]
  constructor
  · rintro ⟨⟨k, e⟩, hmem, hval⟩
    by_cases hc : expiredCell clk ⟨k, e⟩ = false ∧ k.take pre.length = pre
    · rw [if_pos hc] at hval
      obtain ⟨rfl, rfl⟩ := Prod.mk.inj (Option.some.inj hval)
      refine ⟨hc.2.symm, e, (h.mem_iff k e).mp hmem, ?_⟩
      rw [if_pos (by simpa [expiredCell, isExpired] using hc.1)]
    · rw [if_neg hc] at hval
      cases hval
  · rintro ⟨hp, e, hfind, hval⟩
    refine ⟨⟨key, e⟩, (h.mem_iff key e).mpr hfind, ?_⟩
    by_cases hx : clk key < e.expiresAt
    · rw [if_pos hx] at hval
      obtain rfl := Option.some.inj hval
      rw [if_pos ⟨by simpa [expiredCell, isExpired] using hx, hp.symm⟩]
    · rw [if_neg hx] at hval
      cases hval

theorem nodup_listPrefix {s : SharedStore} {it : List Cell} (h : s.Walk it) (clk : Bytes → ℕ)
    (pre : Bytes) : ((listPrefix clk it pre).map Prod.fst).Nodup := by
  refine h.nodup.sublist ?_
  rw [listPrefix_eq]
  clear h
  induction it with
  | nil => exact List.Sublist.slnil
  | cons c it ih =>
    rw [List.filterMap_cons]
    split
    · exact ih.cons _
    · next hval =>
      split at hval
      · obtain rfl := Option.some.inj hval
        exact ih.cons_cons _
      · cases hval

/-- The loop of `sweep_expired` erases the expired keys of the walk, and counts them. -/
theorem sweepLoop_spec (clk : Bytes → ℕ) (it : List Cell) (s : SharedStore) (removed : ℕ) :
    (∀ k, (sweepLoop clk it s removed).1.find k =
        if it.any fun c => expiredCell clk c && c.1 == k then none else s.find k) ∧
      (sweepLoop clk it s removed).2 = removed + (it.filter (expiredCell clk)).length := by
  induction it generalizing s removed with
  | nil => exact ⟨fun k => rfl, rfl⟩
  | cons c it ih =>
    rw [sweepLoop]
    by_cases hx : expiredCell clk c = true
    · rw [if_pos hx, List.filter_cons_of_pos hx]
      obtain ⟨hfind, hcount⟩ := ih ⟨s.entries.erase c.1⟩ (removed + 1)
      refine ⟨fun k => ?_, by rw [hcount, List.length_cons]; omega⟩
      rw [hfind k, find_erase, List.any_cons, hx, Bool.true_and]
      by_cases hk : k = c.1
      · simp [hk]
      · have hne : (c.1 == k) = false := beq_eq_false_iff_ne.mpr (Ne.symm hk)
        rw [hne, Bool.false_or, if_neg hk]
    · rw [if_neg hx, List.filter_cons_of_neg hx]
      obtain ⟨hfind, hcount⟩ := ih s removed
      refine ⟨fun k => ?_, hcount⟩
      rw [hfind k, List.any_cons, eq_false_of_ne_true hx, Bool.false_and, Bool.false_or]

/-- The keys a sweep erases are those whose entry is expired at its own reading. -/
theorem Walk.any_expired {s : SharedStore} {it : List Cell} (h : s.Walk it) (clk : Bytes → ℕ)
    (k : Bytes) : (it.any fun c => expiredCell clk c && c.1 == k) = true ↔
      ∃ e, s.find k = some e ∧ e.expiresAt ≤ clk k := by
  simp only [List.any_eq_true, Bool.and_eq_true, beq_iff_eq]
  constructor
  · rintro ⟨⟨k', e⟩, hmem, hx, rfl⟩
    exact ⟨e, (h.mem_iff k' e).mp hmem, by simpa [expiredCell, isExpired] using hx⟩
  · rintro ⟨e, hfind, hx⟩
    exact ⟨⟨k, e⟩, (h.mem_iff k e).mpr hfind, by simpa [expiredCell, isExpired] using hx, rfl⟩

theorem find_sweepExpired {s : SharedStore} {it : List Cell} (h : s.Walk it) (clk : Bytes → ℕ)
    (k : Bytes) : (s.sweepExpired clk it).1.find k =
      (s.find k).bind fun e => if clk k < e.expiresAt then some e else none := by
  rw [sweepExpired, (sweepLoop_spec clk it s 0).1 k]
  by_cases hx : ∃ e, s.find k = some e ∧ e.expiresAt ≤ clk k
  · rw [if_pos ((h.any_expired clk k).mpr hx)]
    obtain ⟨e, hfind, hle⟩ := hx
    rw [hfind, Option.bind_some, if_neg (Nat.not_lt.mpr hle)]
  · rw [if_neg fun hm => hx ((h.any_expired clk k).mp hm)]
    cases hfind : s.find k with
    | none => rfl
    | some e =>
      have hlt : clk k < e.expiresAt := Nat.lt_of_not_le fun hle => hx ⟨e, hfind, hle⟩
      rw [Option.bind_some, if_pos hlt]

/-- What is swept was not visible any more. -/
theorem get_sweepExpired {s : SharedStore} {it : List Cell} (h : s.Walk it) (clk : Bytes → ℕ)
    {now : ℕ} {k : Bytes} (hnow : clk k ≤ now) :
    (s.sweepExpired clk it).1.get now k = s.get now k := by
  rw [get_eq, get_eq, find_sweepExpired h]
  cases s.find k with
  | none => rfl
  | some e =>
    by_cases hx : clk k < e.expiresAt
    · simp only [Option.bind_some, if_pos hx]
    · have hdead : ¬ now < e.expiresAt := by omega
      simp only [Option.bind_some, if_neg hx, Option.bind_none, if_neg hdead]

/-! ## What holds of every entry -/

/-- `P` holds of every key and its value. -/
def Every (P : Bytes → Bytes → Prop) (s : SharedStore) : Prop :=
  ∀ key e, s.find key = some e → P key e.value

section Every

variable {P : Bytes → Bytes → Prop} {s : SharedStore}

theorem every_empty : Every P empty := by
  intro key e hfind
  rw [find_empty] at hfind
  cases hfind

theorem Every.put (h : Every P s) {key value : Bytes} (hnew : P key value) (now ttl : ℕ) :
    Every P (s.put now key value ttl) := by
  intro k e hfind
  rw [find_put] at hfind
  by_cases hk : k = key
  · rw [if_pos hk] at hfind
    obtain rfl := Option.some.inj hfind
    rw [hk]
    exact hnew
  · rw [if_neg hk] at hfind
    exact h k e hfind

theorem Every.take (h : Every P s) (now : ℕ) (key : Bytes) : Every P (s.take now key).2 := by
  intro k e hfind
  rw [find_take] at hfind
  split at hfind
  · cases hfind
  · exact h k e hfind

theorem Every.sweepExpired (h : Every P s) {it : List Cell} (hit : s.Walk it)
    (clk : Bytes → ℕ) : Every P (s.sweepExpired clk it).1 := by
  intro k e hfind
  rw [find_sweepExpired hit, Option.bind_eq_some_iff] at hfind
  obtain ⟨e', hfind, hlive⟩ := hfind
  split at hlive
  · obtain rfl := Option.some.inj hlive
    exact h k e' hfind
  · cases hlive

theorem Every.get (h : Every P s) {now : ℕ} {key value : Bytes}
    (hget : s.get now key = some value) : P key value := by
  rw [get_eq, Option.bind_eq_some_iff] at hget
  obtain ⟨e, hfind, hlive⟩ := hget
  split at hlive
  · obtain rfl := Option.some.inj hlive
    exact h key e hfind
  · cases hlive

theorem Every.listed (h : Every P s) {it : List Cell} (hit : s.Walk it) (clk : Bytes → ℕ)
    (pre : Bytes) : ∀ e ∈ listPrefix clk it pre, P e.1 e.2 := by
  rintro ⟨key, value⟩ he
  exact h.get ((mem_listPrefix hit clk pre key value).mp he).2

end Every

end SharedStore

end Netsrv
