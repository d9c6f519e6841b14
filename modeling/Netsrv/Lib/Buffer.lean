/-
  A buffer that is written over, a piece at a time.
-/
import Mathlib.Data.List.Basic

namespace Buffer

variable {α : Type} {buf data : List α} {off n : ℕ}

/-- The buffer after `data` is written at `off`. -/
def overwrite (buf : List α) (off : ℕ) (data : List α) : List α :=
  buf.take off ++ data ++ buf.drop (off + data.length)

theorem length_overwrite (h : off + data.length ≤ buf.length) :
    (overwrite buf off data).length = buf.length := by
  simp only [overwrite, List.length_append, List.length_take, List.length_drop]
  omega

/-- What is written follows what was there before the offset. -/
theorem take_overwrite (h : off + data.length ≤ buf.length) :
    (overwrite buf off data).take (off + data.length) = buf.take off ++ data := by
  have hlen : (buf.take off ++ data).length = off + data.length := by
    rw [List.length_append, List.length_take]
    omega
  rw [overwrite, ← hlen]
  exact List.take_left

/-- A write up to the end of the buffer leaves nothing behind it. -/
theorem overwrite_of_full (h : off + data.length = buf.length) :
    overwrite buf off data = buf.take off ++ data := by
  have hdrop : buf.drop (off + data.length) = [] := List.drop_of_length_le (Nat.le_of_eq h.symm)
  rw [overwrite, hdrop, List.append_nil]

end Buffer
