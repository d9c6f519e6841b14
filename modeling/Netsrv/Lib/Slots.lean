/-
  Lists whose elements are known by their number: one is replaced, or another is added at the
  end, and the rest keep their numbers.  `update_cases` is the same for a partial table.
-/
import Mathlib.Data.List.Basic
import Mathlib.Logic.Function.Basic

namespace Slots

variable {α : Type} {xs : List α} {i j : ℕ} {x y : α}

/-- After a replacement: the new element, or an old one. -/
theorem set_cases (h : (xs.set i x)[j]? = some y) :
    (j = i ∧ y = x) ∨ (j ≠ i ∧ xs[j]? = some y) := by
  by_cases hj : i = j
  · obtain rfl := hj
    rw [List.getElem?_set_self'] at h
    obtain ⟨_, -, rfl⟩ := Option.map_eq_some_iff.mp h
    exact Or.inl ⟨rfl, rfl⟩
  · rw [List.getElem?_set_ne hj] at h
    exact Or.inr ⟨Ne.symm hj, h⟩

theorem set_self (h : xs[i]? = some y) : (xs.set i x)[i]? = some x := by
  obtain ⟨hlt, -⟩ := List.getElem?_eq_some_iff.mp h
  exact List.getElem?_set_self hlt

/-- After an addition: an old element, or the new one. -/
theorem concat_cases (h : (xs ++ [x])[i]? = some y) :
    xs[i]? = some y ∨ (i = xs.length ∧ y = x) := by
  rcases Nat.lt_or_ge i xs.length with hlt | hge
  · rw [List.getElem?_append_left hlt] at h
    exact Or.inl h
  · rw [List.getElem?_append_right hge] at h
    obtain ⟨hi, rfl⟩ := List.getElem?_eq_some_iff.mp h
    rw [List.length_singleton] at hi
    exact Or.inr ⟨by omega, List.getElem_singleton hi⟩

theorem append_left (h : xs[i]? = some y) (ys : List α) : (xs ++ ys)[i]? = some y := by
  obtain ⟨hlt, -⟩ := List.getElem?_eq_some_iff.mp h
  exact (List.getElem?_append_left hlt).trans h

theorem update_cases {ι : Type} [DecidableEq ι] {f : ι → Option α} {i j : ι}
    (h : Function.update f i (some x) j = some y) :
    (j = i ∧ y = x) ∨ (j ≠ i ∧ f j = some y) := by
  by_cases hj : j = i
  · rw [hj, Function.update_self] at h
    exact Or.inl ⟨hj, (Option.some.inj h).symm⟩
  · rw [Function.update_of_ne hj] at h
    exact Or.inr ⟨hj, h⟩

end Slots
