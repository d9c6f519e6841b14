/-
  Powers modulo a safe prime `p = 2 * q + 1`, and modulo any odd number by the Jacobi symbol.

  The nonzero squares modulo `p` are a group of the prime order `q`, so any of them but 1
  has all the others as its powers.  Without primality one half is left: a power of 2
  modulo an `N` that is 7 modulo 8 has Jacobi symbol 1.
-/
import Mathlib.NumberTheory.LegendreSymbol.JacobiSymbol
import Mathlib.NumberTheory.LegendreSymbol.QuadraticReciprocity
import Mathlib.RingTheory.RootsOfUnity.PrimitiveRoots

namespace SafePrime

/-! ## The squares modulo a safe prime -/

section Squares

variable {p : ℕ} [Fact p.Prime]

/-- An element of prime order `q` has every element of order dividing `q` as a power. -/
theorem exists_pow_eq {q : ℕ} (hq : q.Prime) {g w : ZMod p} (hg1 : g ≠ 1) (hg : g ^ q = 1)
    (hw : w ^ q = 1) : ∃ n, g ^ n = w := by
  have : Fact q.Prime := ⟨hq⟩
  have horder : orderOf g = q := orderOf_eq_prime hg hg1
  have hroot : IsPrimitiveRoot g q := horder ▸ IsPrimitiveRoot.orderOf g
  obtain ⟨n, -, hn⟩ := hroot.eq_pow_of_pow_eq_one hw
  exact ⟨n, hn⟩

/-- The powers of a square other than 0 and 1 are exactly the nonzero squares. -/
theorem exists_pow_iff_isSquare (hq : (p / 2).Prime) {g w : ZMod p} (hg : IsSquare g)
    (hg0 : g ≠ 0) (hg1 : g ≠ 1) (hw0 : w ≠ 0) : (∃ n, g ^ n = w) ↔ IsSquare w := by
  constructor
  · rintro ⟨n, rfl⟩
    exact hg.pow n
  · intro hw
    have hgq : g ^ (p / 2) = 1 := (ZMod.euler_criterion p hg0).mp hg
    have hwq : w ^ (p / 2) = 1 := (ZMod.euler_criterion p hw0).mp hw
    exact exists_pow_eq hq hg1 hgq hwq

/-- The powers of 2 modulo a safe prime that is 7 modulo 8. -/
theorem exists_two_pow_iff_isSquare (hq : (p / 2).Prime) (h8 : p % 8 = 7) {w : ZMod p}
    (hw0 : w ≠ 0) : (∃ n, (2 : ZMod p) ^ n = w) ↔ IsSquare w := by
  have hp2 : p ≠ 2 := by rintro rfl; cases h8
  have hcast (n : ℕ) (hpos : 0 < n) (hlt : n < p) : (n : ZMod p) ≠ 0 := by
    intro h
    have := Nat.le_of_dvd hpos ((ZMod.natCast_eq_zero_iff n p).mp h)
    omega
  have hlarge : 7 ≤ p := by omega
  have h2 : (2 : ZMod p) ≠ 0 := by exact_mod_cast hcast 2 (by decide) (by omega)
  have h1 : (2 : ZMod p) ≠ 1 := by
    intro h
    have h0 : (1 : ZMod p) = 0 := by linear_combination h
    exact hcast 1 (by decide) (by omega) (by exact_mod_cast h0)
  exact exists_pow_iff_isSquare hq ((ZMod.exists_sq_eq_two_iff hp2).mpr (Or.inr h8)) h2 h1 hw0

end Squares

/-! ## Without primality -/

/-- Whatever is a power of 2 modulo N has Jacobi symbol 1. -/
theorem jacobiSym_of_two_pow {N : ℕ} (h8 : N % 8 = 7) {z : ℤ} {n : ℕ}
    (hz : (2 : ZMod N) ^ n = z) : jacobiSym z N = 1 := by
  have hodd : Odd N := Nat.odd_iff.mpr (by omega)
  have htwo : jacobiSym 2 N = 1 := by
    rw [jacobiSym.at_two hodd, ZMod.χ₈_nat_mod_eight, h8]
    rfl
  have hcast : (z : ZMod N) = ((2 ^ n : ℤ) : ZMod N) := by
    rw [← hz]
    push_cast
    rfl
  rw [jacobiSym.mod_left' ((ZMod.intCast_eq_intCast_iff' _ _ N).mp hcast), jacobiSym.pow_left,
    htwo, one_pow]

/-- So -1 is none. -/
theorem jacobiSym_neg_one {N : ℕ} (h8 : N % 8 = 7) : jacobiSym (-1) N = -1 := by
  have hodd : Odd N := Nat.odd_iff.mpr (by omega)
  rw [jacobiSym.at_neg_one hodd, ZMod.χ₄_nat_three_mod_four (by omega)]

end SafePrime
