/-
  Whole runs of the store against a reference that never sweeps.

  A run is a list of calls, each with the clock readings it takes and, where the map is
  walked, the walk.  `Timed` asks what the clock and the container promise: readings do not
  go back from one call to the next, every reading of a walk falls between the call's
  `start` and `stop`, and the walk is one of the map as it stands.  Nothing is asked of the
  order of the walk, or of the order of readings inside it.

  The reference is `Ttl.Map`.  The simulation relation is `Ttl.SameFrom t`: no `get` at a
  reading from `t` on tells the store from the reference, whatever dead entries it keeps.

  * `trace_follows`: every answer of a run is the reference's.
  * `sweepExpired_exact`: what a sweep removes and returns.
  * `observed_of_sameCalls`: two runs that differ by sweeps get the same answers.
-/
import Netsrv.Lib.TtlMap
import Netsrv.Store.SharedStore

namespace Netsrv.SharedStore

/-! ## Calls and traces -/

inductive Call where
  | put (now : ℕ) (key value : Bytes) (ttl : ℕ)
  | get (now : ℕ) (key : Bytes)
  | take (now : ℕ) (key : Bytes)
  | listPrefix (start stop : ℕ) (clk : Bytes → ℕ) (it : List Cell) (pre : Bytes)
  | sweepExpired (start stop : ℕ) (clk : Bytes → ℕ) (it : List Cell)

inductive Answer where
  | done
  | value (v : Option Bytes)
  | entries (es : List (Bytes × Bytes))
  | count (n : ℕ)
  deriving DecidableEq

namespace Call

/-- No reading of the call is before this one. -/
def start : Call → ℕ
  | put now .. | get now _ | take now _ => now
  | listPrefix start .. | sweepExpired start .. => start

/-- No reading of the call is after this one. -/
def stop : Call → ℕ
  | put now .. | get now _ | take now _ => now
  | listPrefix _ stop .. | sweepExpired _ stop .. => stop

/-- The walk is one of `s`, and its readings fall into the call. -/
def Fits (s : SharedStore) : Call → Prop
  | put .. | get .. | take .. => True
  | listPrefix start stop clk it _ | sweepExpired start stop clk it =>
    s.Walk it ∧ ∀ key, start ≤ clk key ∧ clk key ≤ stop

def isSweep : Call → Bool
  | sweepExpired .. => true
  | _ => false

/-- The same call with the same readings; the map may be walked in another order. -/
inductive Same : Call → Call → Prop
  | put (now key value ttl) : Same (.put now key value ttl) (.put now key value ttl)
  | get (now key) : Same (.get now key) (.get now key)
  | take (now key) : Same (.take now key) (.take now key)
  | listPrefix (start stop start' stop' clk it it' pre) :
      Same (.listPrefix start stop clk it pre) (.listPrefix start' stop' clk it' pre)
  | sweepExpired (start stop start' stop' clk it it') :
      Same (.sweepExpired start stop clk it) (.sweepExpired start' stop' clk it')

end Call

def call (s : SharedStore) : Call → SharedStore × Answer
  | .put now key value ttl => (s.put now key value ttl, .done)
  | .get now key => (s, .value (s.get now key))
  | .take now key => ((s.take now key).2, .value (s.take now key).1)
  | .listPrefix _ _ clk it pre => (s, .entries (listPrefix clk it pre))
  | .sweepExpired _ _ clk it => ((s.sweepExpired clk it).1, .count (s.sweepExpired clk it).2)

/-- The calls with their answers. -/
def trace : SharedStore → List Call → List (Call × Answer)
  | _, [] => []
  | s, c :: cs => (c, (s.call c).2) :: trace (s.call c).1 cs

/-- A run the clock and the container allow, the clock standing at `t`. -/
def Timed : ℕ → SharedStore → List Call → Prop
  | _, _, [] => True
  | t, s, c :: cs => t ≤ c.start ∧ c.Fits s ∧ Timed c.stop (s.call c).1 cs

/-! ## The reference -/

/-- A string is visible for `ttl` seconds from the reading of its `put` on. -/
abbrev Reference := Ttl.Map Bytes Bytes ℕ

namespace Reference

def call (m : Reference) : Call → Reference
  | .put now key value ttl => m.put now key value (seconds ttl)
  | .take now key => m.take now key
  | .get .. | .listPrefix .. | .sweepExpired .. => m

/-- The answers the reference allows.  A listing may come in any order, and what a sweep
    counts is dead, so the reference does not see it. -/
def Accepts (m : Reference) : Call → Answer → Prop
  | .put .., a => a = .done
  | .get now key, a | .take now key, a => a = .value (m.visible now key)
  | .listPrefix _ _ clk _ pre, a => ∃ es, a = .entries es ∧ (es.map Prod.fst).Nodup ∧
      ∀ key value, (key, value) ∈ es ↔ pre <+: key ∧ m.visible (clk key) key = some value
  | .sweepExpired .., a => ∃ n, a = .count n

/-- Every answer is the reference's, in the state the calls before it lead to. -/
def Follows : Reference → List (Call × Answer) → Prop
  | _, [] => True
  | m, (c, a) :: rest => m.Accepts c a ∧ Follows (m.call c) rest

end Reference

/-! ## Simulation -/

open Ttl (SameFrom)

/-- What one call preserves: the answer is allowed, and the states stay indistinguishable
    from the end of the call on. -/
theorem call_simulates {t : ℕ} {s : SharedStore} {m : Reference} {c : Call}
    (hsim : SameFrom t s.get m.visible) (ht : t ≤ c.start) (hfits : c.Fits s) :
    m.Accepts c (s.call c).2 ∧ SameFrom c.stop (s.call c).1.get (m.call c).visible := by
  cases c with
  | put now key value ttl =>
    refine ⟨rfl, fun r hr k => ?_⟩
    have hr : now ≤ r := hr
    show (s.put now key value ttl).get r k =
      Ttl.Map.visible (m.put now key value (seconds ttl)) r k
    rw [m.visible_put hr, get_eq, find_put]
    by_cases hk : k = key
    · rw [if_pos hk, if_pos hk, Option.bind_some]
    · rw [if_neg hk, if_neg hk, ← get_eq]
      exact hsim r (le_trans ht hr) k
  | get now key =>
    exact ⟨congrArg Answer.value (hsim now ht key), hsim.later ht⟩
  | take now key =>
    have hvis : s.get now key = m.visible now key := hsim now ht key
    refine ⟨?_, fun r hr k => ?_⟩
    · show Answer.value (s.take now key).1 = _
      rw [take_eq, hvis]
    · show (s.take now key).2.get r k = Ttl.Map.visible (m.take now key) r k
      rw [m.visible_take, get_eq, find_take, hvis]
      by_cases hk : k = key ∧ (m.visible now key).isSome
      · rw [if_pos hk, if_pos hk]
        rfl
      · rw [if_neg hk, if_neg hk, ← get_eq]
        exact hsim r (le_trans ht hr) k
  | listPrefix start stop clk it pre =>
    obtain ⟨hwalk, hclk⟩ := hfits
    refine ⟨⟨_, rfl, nodup_listPrefix hwalk clk pre, fun key value => ?_⟩, ?_⟩
    · rw [mem_listPrefix hwalk, hsim (clk key) (le_trans ht (hclk key).1) key]
    · exact hsim.later (le_trans ht (le_trans (hclk []).1 (hclk []).2))
  | sweepExpired start stop clk it =>
    obtain ⟨hwalk, hclk⟩ := hfits
    refine ⟨⟨_, rfl⟩, fun r hr k => ?_⟩
    have hlate : clk k ≤ r := le_trans (hclk k).2 hr
    have hr' : t ≤ r := le_trans ht (le_trans (hclk k).1 hlate)
    exact (get_sweepExpired hwalk clk hlate).trans (hsim r hr' k)

/-- From any two indistinguishable states, a run of the store follows the reference. -/
theorem follows_of_sameFrom (cs : List Call) : ∀ {t : ℕ} {s : SharedStore} {m : Reference},
    SameFrom t s.get m.visible → Timed t s cs → m.Follows (trace s cs) := by
  induction cs with
  | nil => intros; trivial
  | cons c cs ih =>
    rintro t s m hsim ⟨ht, hfits, hrest⟩
    obtain ⟨hans, hnext⟩ := call_simulates hsim ht hfits
    exact ⟨hans, ih hnext hrest⟩

theorem trace_follows {cs : List Call} (h : Timed 0 empty cs) :
    Reference.Follows Ttl.Map.empty (trace empty cs) :=
  follows_of_sameFrom cs (fun _ _ _ => rfl) h

/-- A sweep removes the entries expired at their own readings, keeps the others, and
    returns how many it removed. -/
theorem sweepExpired_exact {s : SharedStore} {it : List Cell} (h : s.Walk it)
    (clk : Bytes → ℕ) :
    (∀ key e, (s.sweepExpired clk it).1.find key = some e ↔
        s.find key = some e ∧ clk key < e.expiresAt) ∧
      (s.sweepExpired clk it).2 = (s.entries.entries.filter (expiredCell clk)).length := by
  constructor
  · intro key e
    rw [find_sweepExpired h, Option.bind_eq_some_iff]
    constructor
    · rintro ⟨e', hfind, hval⟩
      split at hval
      · next hlt =>
        obtain rfl := Option.some.inj hval
        exact ⟨hfind, hlt⟩
      · cases hval
    · rintro ⟨hfind, hlt⟩
      exact ⟨e, hfind, if_pos hlt⟩
  · rw [sweepExpired, (sweepLoop_spec clk it s 0).2, Nat.zero_add]
    exact (List.Perm.filter _ h).length_eq

/-! ## Sweeping cannot be observed -/

/-- The calls of a trace that are not sweeps, with their answers. -/
def observed (tr : List (Call × Answer)) : List (Call × Answer) :=
  tr.filter fun p => !p.1.isSweep

/-- The same answer, up to the order of a listing. -/
inductive Answer.Same : Answer → Answer → Prop
  | refl (a) : Same a a
  | entries {es es'} : es.Perm es' → Same (.entries es) (.entries es')

theorem map_fst_trace (s : SharedStore) (cs : List Call) : (trace s cs).map Prod.fst = cs := by
  induction cs generalizing s with
  | nil => rfl
  | cons c cs ih => rw [trace, List.map_cons, ih]

theorem map_fst_observed (s : SharedStore) (cs : List Call) :
    (observed (trace s cs)).map Prod.fst = cs.filter fun c => !c.isSweep := by
  conv => rhs; rw [← map_fst_trace s cs, List.filter_map]
  rfl

/-- The reference does not notice a sweep, so it is followed without them as well. -/
theorem Reference.Follows.observed {m : Reference} {tr : List (Call × Answer)}
    (h : m.Follows tr) : m.Follows (SharedStore.observed tr) := by
  induction tr generalizing m with
  | nil => trivial
  | cons p tr ih =>
    obtain ⟨c, a⟩ := p
    obtain ⟨hans, hrest⟩ := h
    cases c with
    | sweepExpired start stop clk it => exact ih hrest
    | put | get | take | listPrefix => exact ⟨hans, ih hrest⟩

/-- The reference leaves an answer no freedom but the order of a listing. -/
theorem Reference.Accepts.same {m : Reference} {c c' : Call} {a a' : Answer}
    (hsame : c.Same c') (hc : c.isSweep = false) (h : m.Accepts c a) (h' : m.Accepts c' a') :
    a.Same a' := by
  cases hsame with
  | put | get | take =>
    obtain rfl := h
    obtain rfl := h'
    exact .refl _
  | listPrefix =>
    obtain ⟨es, rfl, hnodup, hmem⟩ := h
    obtain ⟨es', rfl, hnodup', hmem'⟩ := h'
    refine .entries ((List.perm_ext_iff_of_nodup hnodup.of_map hnodup'.of_map).mpr ?_)
    rintro ⟨key, value⟩
    rw [hmem, hmem']
  | sweepExpired => cases hc

theorem Reference.Same.call {c c' : Call} (hsame : c.Same c') (m : Reference) :
    m.call c = m.call c' := by
  cases hsame <;> rfl

/-- Two traces of the same calls that follow one reference have the same answers. -/
theorem Reference.Follows.same {m : Reference} {tr tr' : List (Call × Answer)}
    (hcalls : List.Forall₂ (fun p p' => p.1.Same p'.1) tr tr')
    (hns : ∀ p ∈ tr, p.1.isSweep = false) (h : m.Follows tr) (h' : m.Follows tr') :
    List.Forall₂ (fun p p' => p.1.Same p'.1 ∧ p.2.Same p'.2) tr tr' := by
  induction hcalls generalizing m with
  | nil => exact .nil
  | cons hsame _ ih =>
    obtain ⟨hp, hns⟩ := List.forall_mem_cons.mp hns
    refine .cons ⟨hsame, h.1.same hsame hp h'.1⟩ (ih hns h.2 ?_)
    rw [Reference.Same.call hsame]
    exact h'.2

theorem observed_of_sameCalls {cs cs' : List Call} (h : Timed 0 empty cs) (h' : Timed 0 empty cs')
    (hcalls : List.Forall₂ Call.Same (cs.filter fun c => !c.isSweep)
      (cs'.filter fun c => !c.isSweep)) :
    List.Forall₂ (fun p p' => p.1.Same p'.1 ∧ p.2.Same p'.2)
      (observed (trace empty cs)) (observed (trace empty cs')) := by
  refine Reference.Follows.same ?_ ?_ (trace_follows h).observed (trace_follows h').observed
  · rw [← map_fst_observed empty cs, ← map_fst_observed empty cs', List.forall₂_map_left_iff,
      List.forall₂_map_right_iff] at hcalls
    exact hcalls
  · intro p hp
    simpa using (List.mem_filter.mp hp).2

/-! ## The store is the abstract map with expiry -/

/-- Every run the clock and the container allow answers as the reference does; a sweep
    removes exactly the expired entries and counts them; and no insertion or deletion of
    sweeps changes the answer of any other call. -/
theorem matches_reference :
    (∀ cs, Timed 0 empty cs → Reference.Follows Ttl.Map.empty (trace empty cs)) ∧
    (∀ (s : SharedStore) (it : List Cell) (clk : Bytes → ℕ), s.Walk it →
      (∀ key e, (s.sweepExpired clk it).1.find key = some e ↔
        s.find key = some e ∧ clk key < e.expiresAt) ∧
      (s.sweepExpired clk it).2 = (s.entries.entries.filter (expiredCell clk)).length) ∧
    (∀ cs cs', Timed 0 empty cs → Timed 0 empty cs' →
      List.Forall₂ Call.Same (cs.filter fun c => !c.isSweep) (cs'.filter fun c => !c.isSweep) →
      List.Forall₂ (fun p p' => p.1.Same p'.1 ∧ p.2.Same p'.2)
        (observed (trace empty cs)) (observed (trace empty cs'))) :=
  ⟨fun _ h => trace_follows h, fun _ _ clk h => sweepExpired_exact h clk,
    fun _ _ h h' hcalls => observed_of_sameCalls h h' hcalls⟩

end Netsrv.SharedStore
